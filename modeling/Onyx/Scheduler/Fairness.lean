import Onyx.Lib.Execution
import Onyx.Scheduler.Priority

-- The turns of the Normal tasks of one CPU; the scan begins behind the task that ran last.

open Option

namespace Scheduler

variable {s : Sched} {env : Env} {me w j : Nat}

section gap

-- How many places a scan of `n` entries that begins at `a` passes before it comes to `b`.
def gap (n a b : Nat) : Nat := (b + (n - a % n)) % n

theorem gap_lt (h : b < n) (a : Nat) : gap n a b < n := Nat.mod_lt _ (by omega)

theorem gap_add (hk : k < n) (a : Nat) : gap n a ((a + k) % n) = k := by
  have ha : a % n < n := Nat.mod_lt _ (by omega)
  have hsum : a % n + k + (n - a % n) = k + n := by omega
  rw [gap, Nat.mod_add_mod, ← Nat.mod_add_mod, ← Nat.mod_add_mod a, Nat.mod_add_mod, hsum, Nat.add_mod_right, Nat.mod_eq_of_lt hk]

theorem gap_mod (n a b : Nat) : gap n (a % n) b = gap n a b := by
  rw [gap, Nat.mod_mod, gap]

theorem gap_add_add (hik : i ≤ k) (hk : k < n) (a : Nat) : gap n ((a + i) % n) ((a + k) % n) = k - i := by
  have hsplit : a + k = a + i + (k - i) := by omega
  rw [gap_mod, hsplit, gap_add (by omega)]

theorem gap_pos (ha : a < n) (hb : b < n) (h : a ≠ b) : 0 < gap n a b := by
  rw [gap, Nat.mod_eq_of_lt ha]
  by_cases hab : a ≤ b
  · rw [show b + (n - a) = b - a + n by omega, Nat.add_mod_right, Nat.mod_eq_of_lt (by omega)]
    omega
  · rw [Nat.mod_eq_of_lt (by omega)]
    omega

theorem gap_succ_lt (ha : a < n) (hb : b < n) (h : a ≠ b) : gap n (a + 1) b < gap n a b := by
  have hpos := gap_pos ha hb h
  have hlt := gap_lt hb a
  have hplace : (a + gap n a b) % n = b := by
    rw [gap, Nat.add_mod_mod, Nat.mod_eq_of_lt ha, show a + (b + (n - a)) = b + n by omega, Nat.add_mod_right, Nat.mod_eq_of_lt hb]
  have hback := gap_add_add (i := 1) hpos hlt a
  rw [hplace, gap_mod] at hback
  omega

end gap

theorem gap_le_of_scanOrder (h : s.scanOrder me = before ++ j :: after) (hw : w ∈ after) :
    gap s.tasks.length j w ≤ gap s.tasks.length (s.scanStart me) w := by
  have hat (k : Nat) (hk : k < s.tasks.length) : (s.scanOrder me)[k]? = some ((s.scanStart me + k) % s.tasks.length) := by
    simp [Sched.scanOrder, hk]
  have hlen : before.length + (after.length + 1) = s.tasks.length := by
    simpa [Sched.scanOrder] using (congrArg List.length h).symm
  obtain ⟨m, hm⟩ := List.mem_iff_getElem?.mp hw
  have hlt := (List.getElem?_eq_some_iff.mp hm).1
  have hj := hat before.length (by omega)
  have hk := hat (before.length + (m + 1)) (by omega)
  rw [h] at hj hk
  rw [List.getElem?_append_right (Nat.le_refl _), Nat.sub_self, List.getElem?_cons_zero, some.injEq] at hj
  rw [List.getElem?_append_right (by omega), Nat.add_sub_cancel_left, List.getElem?_cons_succ, hm, some.injEq] at hk
  rw [hj, hk, gap_add_add (by omega) (by omega), gap_add (by omega)]
  omega

def Waits (s : Sched) (me w : Nat) : Prop := ∃ t, Candidate s.tasks me w t ∧ t.priority = prioNormal

theorem waits_iff : Waits s me w ↔ s.tasks[w]?.any (fun t => t.state = .ready ∧ t.ownerCpu = me ∧ t.priority = prioNormal) = true := by
  simp only [any_eq_true_iff_get, decide_eq_true_eq]
  constructor
  · intro ⟨t, ht, hp⟩
    refine ⟨by simp [ht.entry], ?_⟩
    simp only [ht.entry, get_some]
    exact ⟨ht.ready, ht.owner, hp⟩
  · intro ⟨hs, hr, ho, hp⟩
    exact ⟨_, ⟨(some_get hs).symm, hr, ho⟩, hp⟩

instance : Decidable (Waits s me w) := decidable_of_iff' _ waits_iff

-- The Normal task that a section selects on the CPU.
def Sched.selected (s : Sched) (me : Nat) : Event → Option Nat
  | .preempt env cpu =>
    if cpu = me then ((s.preempt env me).2.bind (·.2)).filter fun j => s.tasks[j]?.any (·.priority = prioNormal) else none
  | _ => none

structure Turns where
  sched : Sched
  taken : List Nat

def Turns.apply (h : Turns) (me : Nat) (e : Event) : Turns where
  sched := h.sched.apply e
  taken := (h.sched.selected me e).toList ++ h.taken

-- A section of a system with a fixed set of tasks during which the task goes on waiting.
structure Turns.Step (me w : Nat) (h : Turns) (e : Event) (h' : Turns) : Prop where
  next : h' = h.apply me e
  tasks : h'.sched.tasks.length = h.sched.tasks.length
  waits : Waits h'.sched me w

-- The task that waits is selected before the Normal tasks have had so many turns.
def FairWithin (bound : Nat → Nat) : Prop :=
  ∀ me w s es h, Waits s me w → Lib.Execution (Turns.Step me w) ⟨s, []⟩ es h → h.taken.length < bound s.tasks.length

def InTurn (me w : Nat) (h : Turns) (e : Event) : Prop :=
  ∀ env, e = .preempt env me → ∀ l ∈ h.taken.head?,
    gap h.sched.tasks.length (h.sched.scanStart me) w < gap h.sched.tasks.length l w

theorem Untouched.releasePendingPrev (s : Sched) (me : Nat) : Lib.Evolves Untouched s.tasks (s.releasePendingPrev me).tasks :=
  Polls.releasePendingPrev refl (fun h => ⟨rfl, fun hr => absurd (h.symm.trans hr) (by decide)⟩) s me

theorem untouched_woken (s : Sched) (env : Env) (me : Nat) :
    Lib.Evolves Untouched s.tasks ((s.releasePendingPrev me).wakeStateLocked env).tasks :=
  (Untouched.releasePendingPrev s me).trans Untouched.trans (Untouched.wakePass ..)

theorem length_polled (s : Sched) (env : Env) (me : Nat) : ((s.releasePendingPrev me).polled env me).tasks.length = s.tasks.length := by
  rw [← (untouched_woken s env me).length, Sched.polled, Sched.tickSlice, Sched.updateCurrent]
  split
  · rfl
  · exact List.length_modify ..

theorem scanStart_polled (s : Sched) (env : Env) (me : Nat) : ((s.releasePendingPrev me).polled env me).scanStart me = s.scanStart me := by
  rw [Sched.scanStart, Sched.polled_current, Sched.releasePendingPrev_current, Sched.scanStart]

theorem selected_eq_some (h : s.selected me e = some j) : ∃ env o t, e = .preempt env me ∧ (s.preempt env me).2 = some (o, some j) ∧
    s.tasks[j]? = some t ∧ t.priority = prioNormal := by
  cases e <;> simp only [Sched.selected, reduceCtorEq] at h
  case preempt env cpu =>
    split_ifs at h with hcpu
    subst hcpu
    have ⟨hsel, hprio⟩ := filter_eq_some_iff.mp h
    have ⟨⟨o, n⟩, hplan, hn⟩ := bind_eq_some_iff.mp hsel
    cases hn
    cases ht : s.tasks[j]? with
    | none => simp [ht] at hprio
    | some t => exact ⟨env, o, t, rfl, hplan, rfl, by simpa [ht] using hprio⟩

theorem releasePendingPrev_ne_nil (h : s.tasks[j]? = some t) : (s.releasePendingPrev me).tasks ≠ [] := by
  intro hnil
  have hlen := (Untouched.releasePendingPrev s me).length
  rw [hnil, List.length_nil] at hlen
  rw [List.length_eq_zero_iff.mp hlen.symm] at h
  cases h

theorem selected_ne (h : s.selected me e = some j) (hw : Waits (s.apply e) me w) : j ≠ w := by
  obtain ⟨env, o, t0, he, hplan, ht0, _⟩ := selected_eq_some h
  obtain ⟨t, ht, _⟩ := hw
  subst he
  rintro rfl
  have hne : (s.releasePendingPrev me).tasks ≠ [] := releasePendingPrev_ne_nil ht0
  have hplan : ((s.releasePendingPrev me).planSwitch env me).2 = some (o, some j) := hplan
  have hrun : t.state = .running := by
    obtain ⟨hstay, _⟩ | ⟨hgo, _, hother⟩ := planSwitch_cases env me hne
    · rw [hstay] at hplan
      cases hplan
    have hbest := (planSwitch_eq_some hne hplan).2.1
    have hcur : ((s.releasePendingPrev me).planSwitch env me).1.current me = some j := by
      rw [hgo]
      simpa [Sched.switchTo] using hbest
    exact (running_of_planSwitch hne hcur ht.entry).resolve_right fun h => hother (h.2.trans h.1.symm)
  cases hrun.symm.trans ht.ready

theorem gap_le_of_selected (hw : Waits s me w) (h : s.selected me e = some j) (hne : j ≠ w) :
    j < s.tasks.length ∧ gap s.tasks.length j w ≤ gap s.tasks.length (s.scanStart me) w := by
  have ⟨env, o, t0, _, hplan, ht0, hnormal⟩ := selected_eq_some h
  have ⟨u, hu, hun⟩ := hw
  have hj := (List.getElem?_eq_some_iff.mp ht0).1
  refine ⟨hj, ?_⟩
  have ⟨_, hbest, _⟩ := planSwitch_eq_some (releasePendingPrev_ne_nil ht0) hplan
  -- the one that waits is a candidate of the scan
  have ⟨u', hu', hkeep⟩ := (untouched_woken s env me).entry_of_old hu.entry
  cases hkeep.ready hu.ready
  have huc : Candidate ((s.releasePendingPrev me).polled env me).tasks me w u := candidate_polled.mpr ⟨hu', hu.ready, hu.owner⟩
  have hmem := Sched.mem_scanOrder me (List.getElem?_eq_some_iff.mp huc.entry).1
  cases polled_scanned (s.releasePendingPrev me) env me with
  | none hp _ =>
    rw [hp] at hbest
    cases hbest
  | some j' t before after hp hks hc hb ha =>
    rw [hp] at hbest
    cases hbest
    have ⟨t1, ht1, hsame⟩ := (untouched_woken s env me).entry (candidate_polled.mp hc).entry
    cases ht0.symm.trans ht1
    rw [hks] at hmem
    obtain hmem | hmem | hmem : w ∈ before ∨ w = j ∨ w ∈ after := by simpa using hmem
    · have := hb w hmem u huc
      rw [hsame.priority, hnormal, hun] at this
      exact absurd this (by decide)
    · exact absurd hmem.symm hne
    · have hle := gap_le_of_scanOrder hks hmem
      rwa [length_polled, scanStart_polled] at hle

-- The turns that were taken and the places that are left make at most one round.
structure Turns.Round (me w : Nat) (h : Turns) : Prop where
  waits : Waits h.sched me w
  last : ∀ l ∈ h.taken.head?, l < h.sched.tasks.length ∧ l ≠ w ∧ h.taken.length + gap h.sched.tasks.length l w ≤ h.sched.tasks.length

theorem Waits.lt (h : Waits s me w) : w < s.tasks.length := by
  have ⟨_, ht, _⟩ := h
  exact (List.getElem?_eq_some_iff.mp ht.entry).1

namespace Turns

variable {h h' : Turns}

theorem Step.of (s : Sched) (e : Event) (o : Option Nat) (js : List Nat) (ht : (s.apply e).tasks.length = s.tasks.length)
    (hw : Waits (s.apply e) me w) (ho : s.selected me e = o) : Step me w ⟨s, js⟩ e ⟨s.apply e, o.toList ++ js⟩ :=
  ⟨by rw [apply, ho], ht, hw⟩

theorem Round.step (hr : Round me w h) (hs : Step me w h e h') (ht : InTurn me w h e) : Round me w h' := by
  refine ⟨hs.waits, fun l hl => ?_⟩
  have hlen := hs.tasks
  cases hs.next
  rw [hlen]
  cases hsel : h.sched.selected me e with
  | none =>
    have htaken : (h.apply me e).taken = h.taken := by simp [apply, hsel]
    rw [htaken] at hl ⊢
    exact hr.last l hl
  | some j =>
    have htaken : (h.apply me e).taken = j :: h.taken := by simp [apply, hsel]
    rw [htaken] at hl ⊢
    cases hl
    have hne := selected_ne hsel hs.waits
    have ⟨hlt, hle⟩ := gap_le_of_selected hr.waits hsel hne
    refine ⟨hlt, hne, ?_⟩
    rw [List.length_cons]
    cases hlast : h.taken with
    | nil =>
      have := gap_lt hr.waits.lt l
      rw [List.length_nil]
      omega
    | cons l' _ =>
      have ⟨env, _, _, he, _⟩ := selected_eq_some hsel
      have hnear := ht env he l' (by simp [hlast])
      have hround := (hr.last l' (by simp [hlast])).2.2
      rw [hlast] at hround
      omega

theorem Round.length_lt (hr : Round me w h) : h.taken.length < h.sched.tasks.length := by
  have hw := hr.waits.lt
  cases hlast : h.taken with
  | nil =>
    rw [List.length_nil]
    omega
  | cons l ls =>
    have ⟨hl, hne, hround⟩ := hr.last l (by simp [hlast])
    have hpos := gap_pos hl hw hne
    rw [hlast] at hround
    omega

end Turns

theorem inTurn_of_current (hr : Turns.Round me w h) (hc : ∀ l ∈ h.taken.head?, h.sched.current me = some l) (e : Event) :
    InTurn me w h e := by
  intro _ _ l hl
  have ⟨hlt, hne, _⟩ := hr.last l hl
  rw [Sched.scanStart, hc l hl]
  exact gap_succ_lt hlt hr.waits.lt hne

theorem fair_of_inTurn (hw : Waits s me w) (e : Lib.Execution (Lib.Guarded (Turns.Step me w) (InTurn me w)) ⟨s, []⟩ es h) :
    h.taken.length < s.tasks.length := by
  let inv : Turns → Prop := fun h => Turns.Round me w h ∧ h.sched.tasks.length = s.tasks.length
  have ⟨hround, hsame⟩ : inv h :=
    e.invariant (fun ⟨ht, hs⟩ ⟨hr, hn⟩ => ⟨hr.step hs ht, hs.tasks.trans hn⟩) ⟨⟨hw, nofun⟩, rfl⟩
  have hlt := hround.length_lt
  rwa [hsame] at hlt

def three : Sched := [Event.spawn 0, .spawn 0, .spawn 0].foldl Sched.apply .boot

theorem three_fair : ∃ h, Lib.Execution (Lib.Guarded (Turns.Step 0 2) (InTurn 0 2)) ⟨three, []⟩
      [.preempt atBoot 0, .yieldCurrent 0, .preempt atBoot 0] h ∧ h.taken = [1, 0] ∧ h.taken.length < three.tasks.length := by
  let first := three.apply (.preempt atBoot 0)
  let yielded := first.apply (.yieldCurrent 0)
  have hfirst : Turns.Step 0 2 ⟨three, []⟩ (.preempt atBoot 0) ⟨first, [0]⟩ :=
    .of three (.preempt atBoot 0) (some 0) [] (by decide) (by decide) (by decide)
  have hyield : Turns.Step 0 2 ⟨first, [0]⟩ (.yieldCurrent 0) ⟨yielded, [0]⟩ :=
    .of first (.yieldCurrent 0) none [0] (by decide) (by decide) rfl
  have hsecond : Turns.Step 0 2 ⟨yielded, [0]⟩ (.preempt atBoot 0) ⟨yielded.apply (.preempt atBoot 0), [1, 0]⟩ :=
    .of yielded (.preempt atBoot 0) (some 1) [0] (by decide) (by decide) (by decide)
  have hwaits : Waits three 0 2 := by decide
  have hr0 : Turns.Round 0 2 ⟨three, []⟩ := ⟨hwaits, nofun⟩
  have ht0 : InTurn 0 2 ⟨three, []⟩ (.preempt atBoot 0) := inTurn_of_current hr0 nofun _
  have hr1 := hr0.step hfirst ht0
  have ht1 : InTurn 0 2 ⟨first, [0]⟩ (.yieldCurrent 0) := nofun
  have ht2 : InTurn 0 2 ⟨yielded, [0]⟩ (.preempt atBoot 0) := inTurn_of_current (hr1.step hyield ht1) (by decide) _
  have hrun : Lib.Execution (Lib.Guarded (Turns.Step 0 2) (InTurn 0 2)) ⟨three, []⟩ [.preempt atBoot 0, .yieldCurrent 0, .preempt atBoot 0]
      ⟨yielded.apply (.preempt atBoot 0), [1, 0]⟩ :=
    .step ⟨ht0, hfirst⟩ (.step ⟨ht1, hyield⟩ (.step ⟨ht2, hsecond⟩ .refl))
  exact ⟨_, hrun, rfl, fair_of_inTurn hwaits hrun⟩

theorem Sched.preempt_other (env : Env) (h : cpu ≠ me) :
    (s.preempt env me).1.current cpu = s.current cpu ∧ (s.preempt env me).1.pendingPrev cpu = s.pendingPrev cpu := by
  have hrel : (s.releasePendingPrev me).current cpu = s.current cpu ∧ (s.releasePendingPrev me).pendingPrev cpu = s.pendingPrev cpu := by
    unfold releasePendingPrev
    split
    · exact ⟨rfl, Function.update_of_ne h ..⟩
    split_ifs
    · exact ⟨rfl, Function.update_of_ne h ..⟩
    · exact ⟨rfl, Function.update_of_ne h ..⟩
  rw [← hrel.1, ← hrel.2, preempt]
  generalize s.releasePendingPrev me = s
  have hpolled : (s.polled env me).current = s.current ∧ (s.polled env me).pendingPrev = s.pendingPrev := by
    refine ⟨polled_current, ?_⟩
    unfold polled tickSlice updateCurrent
    split <;> rfl
  by_cases hnil : s.tasks = []
  · rw [planSwitch, if_pos hnil]
    exact ⟨rfl, rfl⟩
  obtain ⟨hplan, _⟩ | ⟨hplan, _⟩ := planSwitch_cases env me hnil
  · rw [hplan, hpolled.1, hpolled.2]
    exact ⟨rfl, rfl⟩
  rw [hplan]
  unfold switchTo
  refine ⟨?_, ?_⟩
  · exact (Function.update_of_ne h ..).trans (by rw [hpolled.1])
  · exact (Function.update_of_ne h ..).trans (by rw [hpolled.2])

-- An RT task sleeps, the first Normal task runs and the second one waits.
def peers : Sched :=
  [Event.spawnPrio 0 prioRt, .spawn 0, .spawn 0, .preempt atBoot 0, .sleepCurrent 0 1000, .preempt atBoot 0].foldl Sched.apply .boot

-- The sections in which the RT task wakes up, runs and sleeps again.
def rtRound : List Event := [.wakeTaskNow 1, .preempt atBoot 0, .sleepCurrent 0 1000, .preempt atBoot 0]

theorem rtRound_other (s : Sched) (h : cpu ≠ 0) :
    (rtRound.foldl Sched.apply s).current cpu = s.current cpu ∧ (rtRound.foldl Sched.apply s).pendingPrev cpu = s.pendingPrev cpu := by
  have hwake (s : Sched) : (s.wakeTaskNow 1).current = s.current ∧ (s.wakeTaskNow 1).pendingPrev = s.pendingPrev := by
    unfold Sched.wakeTaskNow
    split <;> exact ⟨rfl, rfl⟩
  have hsleep (s : Sched) : (s.sleepCurrent 0 1000).current = s.current ∧ (s.sleepCurrent 0 1000).pendingPrev = s.pendingPrev := by
    unfold Sched.sleepCurrent Sched.updateCurrent
    split <;> exact ⟨rfl, rfl⟩
  simp only [rtRound, List.foldl_cons, List.foldl_nil, Sched.apply]
  rw [(Sched.preempt_other _ h).1, (Sched.preempt_other _ h).2, (hsleep _).1, (hsleep _).2, (Sched.preempt_other _ h).1,
    (Sched.preempt_other _ h).2, (hwake s).1, (hwake s).2]
  exact ⟨rfl, rfl⟩

theorem rtRound_peers : rtRound.foldl Sched.apply peers = peers := by
  refine Sched.ext (by decide) (by decide) ?_ ?_
  · funext cpu
    by_cases h : cpu = 0
    · subst h
      decide
    · exact (rtRound_other peers h).1
  · funext cpu
    by_cases h : cpu = 0
    · subst h
      decide
    · exact (rtRound_other peers h).2

theorem peers_round (js : List Nat) : Lib.Execution (Turns.Step 0 2) ⟨peers, js⟩ rtRound ⟨peers, 1 :: js⟩ := by
  let awake := peers.apply (.wakeTaskNow 1)
  let preempted := awake.apply (.preempt atBoot 0)
  let asleep := preempted.apply (.sleepCurrent 0 1000)
  have hback : asleep.apply (.preempt atBoot 0) = peers := rtRound_peers
  have hwake : Turns.Step 0 2 ⟨peers, js⟩ (.wakeTaskNow 1) ⟨awake, js⟩ :=
    .of peers (.wakeTaskNow 1) none js (by decide) (by decide) rfl
  have hrun : Turns.Step 0 2 ⟨awake, js⟩ (.preempt atBoot 0) ⟨preempted, js⟩ :=
    .of awake (.preempt atBoot 0) none js (by decide) (by decide) (by decide)
  have hsleep : Turns.Step 0 2 ⟨preempted, js⟩ (.sleepCurrent 0 1000) ⟨asleep, js⟩ :=
    .of preempted (.sleepCurrent 0 1000) none js (by decide) (by decide) rfl
  have hturn : Turns.Step 0 2 ⟨asleep, js⟩ (.preempt atBoot 0) ⟨asleep.apply (.preempt atBoot 0), 1 :: js⟩ :=
    .of asleep (.preempt atBoot 0) (some 1) js (by decide) (by decide) (by decide)
  rw [hback] at hturn
  exact .step hwake (.step hrun (.step hsleep (.step hturn .refl)))

theorem peers_rounds (k : Nat) (js : List Nat) :
    ∃ es, Lib.Execution (Turns.Step 0 2) ⟨peers, js⟩ es ⟨peers, List.replicate k 1 ++ js⟩ := by
  induction k generalizing js with
  | zero => exact ⟨[], .refl⟩
  | succ k hi =>
    have ⟨es, hrun⟩ := hi (1 :: js)
    refine ⟨rtRound ++ es, ?_⟩
    have hsplit : List.replicate (k + 1) 1 ++ js = List.replicate k 1 ++ 1 :: js := by simp [List.replicate_succ']
    rw [hsplit]
    exact (peers_round js).trans hrun

-- The second Normal task waits for ever.
theorem peers_starve : ¬∃ bound, FairWithin bound := by
  intro ⟨bound, hfair⟩
  have ⟨es, hrun⟩ := peers_rounds (bound 3) []
  have hlt := hfair 0 2 peers es _ (by decide) hrun
  have hthree : peers.tasks.length = 3 := by decide
  rw [hthree, List.append_nil, List.length_replicate] at hlt
  exact Nat.lt_irrefl _ hlt

end Scheduler
