import Onyx.Scheduler.Change

-- The choice of `plan_switch` against the rule of the module: run the Ready task of the highest priority.

open List Option

namespace Scheduler

variable {s : Sched} {tasks : List Task} {env : Env} {me i j : Nat} {t u : Task}

structure Candidate (tasks : List Task) (me i : Nat) (t : Task) : Prop where
  entry : tasks[i]? = some t
  ready : t.state = .ready
  owner : t.ownerCpu = me

inductive Scanned (tasks : List Task) (me : Nat) (ks : List Nat) (p : Pick) : Prop
  | none (hp : p = .start) (h : ∀ i ∈ ks, ∀ t, Candidate tasks me i t → 2 ^ 32 - 1 ≤ t.priority)
  | some (j : Nat) (t : Task) (before after : List Nat) (hp : p = ⟨.some j, t.priority, true⟩) (hks : ks = before ++ j :: after)
      (hc : Candidate tasks me j t) (hb : ∀ i ∈ before, ∀ u, Candidate tasks me i u → t.priority < u.priority)
      (ha : ∀ i ∈ after, ∀ u, Candidate tasks me i u → t.priority ≤ u.priority)

theorem offer_of_not (h : ∀ t, ¬Candidate tasks me k t) (p : Pick) : p.offer me tasks k = p := by
  unfold Pick.offer
  split
  case h_1 => rfl
  case h_2 t ht =>
    rw [if_pos]
    by_contra hn
    push Not at hn
    exact h t ⟨ht, hn.1, hn.2⟩

theorem offer_of_candidate (h : Candidate tasks me k t) (p : Pick) : p.offer me tasks k =
    if t.priority < p.bestPrio ∨ (t.priority = p.bestPrio ∧ !p.bestLocal ∧ p.best.isSome) then ⟨some k, t.priority, true⟩ else p := by
  unfold Pick.offer
  rw [h.entry]
  dsimp only
  rw [if_neg]
  simp [h.ready, h.owner]

theorem Scanned.offer (h : Scanned tasks me ks p) : Scanned tasks me (ks ++ [k]) (p.offer me tasks k) := by
  by_cases hk : ∃ t, Candidate tasks me k t
  swap
  · have hk : ∀ t, ¬Candidate tasks me k t := not_exists.mp hk
    rw [offer_of_not hk]
    cases h with
    | none hp h =>
      refine .none hp fun i hi u hu => ?_
      cases mem_append.mp hi with
      | inl hi => exact h i hi u hu
      | inr hi => exact absurd (mem_singleton.mp hi ▸ hu) (hk u)
    | some j t before after hp hks hc hb ha =>
      refine .some j t before (after ++ [k]) hp (by simp [hks]) hc hb fun i hi u hu => ?_
      cases mem_append.mp hi with
      | inl hi => exact ha i hi u hu
      | inr hi => exact absurd (mem_singleton.mp hi ▸ hu) (hk u)
  obtain ⟨t, ht⟩ := hk
  rw [offer_of_candidate ht]
  cases h with
  | none hp h =>
    subst hp
    by_cases hless : t.priority < 2 ^ 32 - 1
    · rw [if_pos (.inl hless)]
      exact .some k t ks [] rfl rfl ht (fun i hi u hu => lt_of_lt_of_le hless (h i hi u hu)) nofun
    rw [if_neg fun hbetter => hbetter.elim hless fun htie => absurd htie.2.2 Bool.false_ne_true]
    refine .none rfl fun i hi u hu => ?_
    cases mem_append.mp hi with
    | inl hi => exact h i hi u hu
    | inr hi =>
      cases mem_singleton.mp hi
      cases ht.entry.symm.trans hu.entry
      exact Nat.le_of_not_lt hless
  | some j t1 before after hp hks hc hb ha =>
    subst hp
    by_cases hless : t.priority < t1.priority
    · rw [if_pos (.inl hless)]
      refine .some k t ks [] rfl rfl ht (fun i hi u hu => ?_) nofun
      subst hks
      obtain hi | hi | hi : i ∈ before ∨ i = j ∨ i ∈ after := by simpa using hi
      · exact lt_trans hless (hb i hi u hu)
      · subst hi
        cases hc.entry.symm.trans hu.entry
        exact hless
      · exact lt_of_lt_of_le hless (ha i hi u hu)
    · rw [if_neg (by simp [hless])]
      refine .some j t1 before (after ++ [k]) rfl (by simp [hks]) hc hb fun i hi u hu => ?_
      cases mem_append.mp hi with
      | inl hi => exact ha i hi u hu
      | inr hi =>
        cases mem_singleton.mp hi
        cases ht.entry.symm.trans hu.entry
        exact Nat.le_of_not_lt hless

theorem scanned_foldl (ks : List Nat) : Scanned tasks me ks (ks.foldl (Pick.offer me tasks) .start) := by
  induction ks using List.reverseRecOn with
  | nil => exact .none rfl nofun
  | append_singleton ks k hi =>
    rw [foldl_concat]
    exact hi.offer

namespace Sched

def scanStart (s : Sched) (me : Nat) : Nat :=
  match s.current me with
  | none => 0
  | some cur => cur + 1

def scanOrder (s : Sched) (me : Nat) : List Nat := (List.range s.tasks.length).map fun k => (s.scanStart me + k) % s.tasks.length

theorem bestReady_scanned : Scanned s.tasks me (s.scanOrder me) (s.bestReady me) := by
  have hfold : s.bestReady me = (s.scanOrder me).foldl (Pick.offer me s.tasks) .start := by
    rw [scanOrder, foldl_map]
    rfl
  rw [hfold]
  exact scanned_foldl _

theorem mem_scanOrder (me : Nat) (h : i < s.tasks.length) : i ∈ s.scanOrder me := by
  have hn : s.scanStart me % s.tasks.length < s.tasks.length := Nat.mod_lt _ (by omega)
  refine mem_map.mpr ⟨(i + (s.tasks.length - s.scanStart me % s.tasks.length)) % s.tasks.length, mem_range.mpr (Nat.mod_lt _ (by omega)), ?_⟩
  have hsum : s.scanStart me % s.tasks.length + (i + (s.tasks.length - s.scanStart me % s.tasks.length)) = i + s.tasks.length := by omega
  rw [Nat.add_mod, Nat.mod_mod, ← Nat.add_mod, ← Nat.mod_add_mod, hsum, Nat.add_mod_right, Nat.mod_eq_of_lt h]

theorem scanOrder_of_current (hc : s.current me = some c) (h : c < s.tasks.length) :
    ∃ ks, s.scanOrder me = ks ++ [c] ∧ c ∉ ks := by
  obtain ⟨n, hn⟩ : ∃ n, s.tasks.length = n + 1 := ⟨s.tasks.length - 1, by omega⟩
  refine ⟨(List.range n).map fun k => (c + 1 + k) % (n + 1), ?_, fun hmem => ?_⟩
  · have hlast : (c + 1 + n) % (n + 1) = c := by
      rw [Nat.add_assoc, Nat.add_comm 1 n, Nat.add_mod_right, Nat.mod_eq_of_lt (by omega)]
    rw [scanOrder, scanStart, hc, hn, range_succ, map_append, map_singleton, hlast]
  · obtain ⟨k, hk, hkc⟩ := mem_map.mp hmem
    have hk := mem_range.mp hk
    by_cases hwrap : c + 1 + k < n + 1
    · rw [Nat.mod_eq_of_lt hwrap] at hkc
      omega
    · rw [Nat.mod_eq_sub_mod (by omega), Nat.mod_eq_of_lt (by omega)] at hkc
      omega

@[simp]
theorem tickSlice_current (s : Sched) (me : Nat) : (s.tickSlice me).current = s.current := updateCurrent_current ..

def tick (t : Task) : Task := if t.state = .running then { t with sliceLeft := t.sliceLeft - 1 } else t

theorem tickSlice_getElem? (s : Sched) (me k : Nat) :
    (s.tickSlice me).tasks[k]? = if s.current me = some k then s.tasks[k]?.map tick else s.tasks[k]? := by
  unfold tickSlice updateCurrent
  cases hc : s.current me with
  | none => rfl
  | some c =>
    simp only [update, getElem?_modify, some.injEq]
    split_ifs
    · rfl
    · exact map_id' ..

theorem tickSlice_entry (hc : s.current me = some i) (h : s.tasks[i]? = some t) : (s.tickSlice me).tasks[i]? = some (tick t) := by
  rw [tickSlice_getElem?, if_pos hc, h, map_some]

theorem tick_of_ready (h : (tick t).state = .ready) : tick t = t := by
  unfold tick at h ⊢
  split_ifs at h ⊢ with hrun
  · cases hrun.symm.trans h
  · rfl

theorem candidate_tickSlice : Candidate (s.tickSlice me).tasks cpu k u ↔ Candidate s.tasks cpu k u := by
  by_cases hc : s.current me = some k
  swap
  · have hsame : (s.tickSlice me).tasks[k]? = s.tasks[k]? := by rw [tickSlice_getElem?, if_neg hc]
    exact ⟨fun h => ⟨hsame ▸ h.entry, h.ready, h.owner⟩, fun h => ⟨hsame.trans h.entry, h.ready, h.owner⟩⟩
  constructor
  · intro ⟨he, hr, ho⟩
    rw [tickSlice_getElem?, if_pos hc] at he
    obtain ⟨t, ht, rfl⟩ := map_eq_some_iff.mp he
    have hsame := tick_of_ready hr
    rw [hsame] at hr ho ⊢
    exact ⟨ht, hr, ho⟩
  · intro ⟨he, hr, ho⟩
    refine ⟨?_, hr, ho⟩
    rw [tickSlice_entry hc he, tick, if_neg (by simp [hr])]

theorem tick_priority (t : Task) : (tick t).priority = t.priority := by
  unfold tick
  split_ifs <;> rfl

end Sched

structure Untouched (t t' : Task) : Prop where
  priority : t'.priority = t.priority
  ready : t.state = .ready → t' = t

namespace Untouched

theorem refl (t : Task) : Untouched t t := ⟨rfl, fun _ => rfl⟩

theorem trans (h1 : Untouched t1 t2) (h2 : Untouched t2 t3) : Untouched t1 t3 where
  priority := h2.priority.trans h1.priority
  ready h := by
    cases h1.ready h
    exact h2.ready h

theorem wakeTask (env : Env) (tasks : List Task) (t : Task) : Untouched t (wakeTask env tasks t) where
  priority := by
    unfold Scheduler.wakeTask
    split
    case h_1 => split_ifs <;> rfl
    case h_2 => split_ifs <;> rfl
    case h_3 => split_ifs <;> rfl
    all_goals rfl
  ready h := by
    unfold Scheduler.wakeTask
    rw [h]

theorem wakePass (env : Env) (tasks : List Task) : Lib.Evolves Untouched tasks (wakePass env tasks) :=
  .foldl refl trans (fun _ _ => .modify refl fun _ _ => .wakeTask ..) _

end Untouched

theorem wakePass_prio (h : ∀ t ∈ tasks, t.priority < 256) : ∀ t ∈ wakePass env tasks, t.priority < 256 := by
  intro t ht
  obtain ⟨k, hk⟩ := mem_iff_getElem?.mp ht
  have ⟨t0, ht0, hp⟩ := (Untouched.wakePass env tasks).entry hk
  rw [hp.priority]
  exact h t0 (mem_of_getElem? ht0)

section law

structure PriorityLaw (s : Sched) (env : Env) (me : Nat) : Prop where
  kept : ∀ i cur j t, s.current me = some i → (s.wakeStateLocked env).tasks[i]? = some cur → cur.state = .running →
    (s.planSwitch env me).2 = some (some i, some j) → (s.wakeStateLocked env).tasks[j]? = some t → t.priority ≤ cur.priority
  highest : ∀ o j, (s.planSwitch env me).2 = some (o, some j) → ∃ t, Candidate (s.wakeStateLocked env).tasks me j t ∧
    ∀ k u, Candidate (s.wakeStateLocked env).tasks me k u → t.priority ≤ u.priority
  urgent : ∀ i cur k u, s.current me = some i → (s.wakeStateLocked env).tasks[i]? = some cur →
    Candidate (s.wakeStateLocked env).tasks me k u → u.priority < cur.priority →
    ∃ j t, (s.planSwitch env me).2 = some (some i, some j) ∧ (s.wakeStateLocked env).tasks[j]? = some t ∧ t.priority < cur.priority
  running : ∀ j t, (s.planSwitch env me).1.current me = some j → (s.planSwitch env me).1.tasks[j]? = some t → t.state = .running

structure HasPeer (s : Sched) (me i : Nat) (cur : Task) : Prop where
  expired : cur.state = .running → cur.priority ≠ prioRt → cur.sliceLeft ≤ 1 → (∃ k u, Candidate s.tasks me k u) →
    ∃ k u, Candidate s.tasks me k u ∧ u.priority ≤ cur.priority
  yielded : cur.state = .ready → cur.ownerCpu = me → ∃ k u, k ≠ i ∧ Candidate s.tasks me k u ∧ u.priority ≤ cur.priority

def Sched.polled (s : Sched) (env : Env) (me : Nat) : Sched := (s.wakeStateLocked env).tickSlice me

theorem Sched.polled_current : (s.polled env me).current = s.current := Sched.tickSlice_current ..

-- The choice of a tick, and whether the current task is kept in spite of it.
abbrev Sched.pick (s : Sched) (env : Env) (me : Nat) : Pick := (s.polled env me).bestReady me

abbrev Sched.Keeps (s : Sched) (env : Env) (me : Nat) : Prop := (s.polled env me).keepsCurrent me (s.pick env me) = true

abbrev Sched.Waits (s : Sched) (env : Env) (me : Nat) : Nat → Task → Prop := Candidate (s.wakeStateLocked env).tasks me

theorem planSwitch_cases (env : Env) (me : Nat) (h : s.tasks ≠ []) :
    s.planSwitch env me = (s.polled env me, none) ∧ (s.Keeps env me ∨ (s.pick env me).best = s.current me) ∨
    s.planSwitch env me =
        ((s.polled env me).switchTo me (s.pick env me).best, some (s.current me, (s.pick env me).best)) ∧
      ¬s.Keeps env me ∧ (s.pick env me).best ≠ s.current me := by
  have hcur : ((s.wakeStateLocked env).tickSlice me).current = s.current := Sched.tickSlice_current ..
  unfold Sched.planSwitch Sched.Keeps Sched.pick Sched.polled
  rw [if_neg h]
  dsimp only
  rw [hcur]
  split_ifs with hk
  · exact .inl ⟨rfl, hk⟩
  · rw [not_or] at hk
    exact .inr ⟨rfl, hk⟩

theorem candidate_polled : Candidate (s.polled env me).tasks me k u ↔ s.Waits env me k u :=
  Sched.candidate_tickSlice

theorem polled_scanned (s : Sched) (env : Env) (me : Nat) :
    Scanned (s.polled env me).tasks me ((s.polled env me).scanOrder me) (s.pick env me) :=
  Sched.bestReady_scanned

theorem best_none (hprio : ∀ t ∈ s.tasks, t.priority < 256) (h : (s.pick env me).best = none) :
    ∀ k u, ¬s.Waits env me k u := by
  intro k u hu
  have hlt := wakePass_prio hprio u (mem_of_getElem? hu.entry)
  rw [← candidate_polled] at hu
  have hk : k < (s.polled env me).tasks.length := (List.getElem?_eq_some_iff.mp hu.entry).1
  cases polled_scanned s env me with
  | none hp hn =>
    have := hn k (Sched.mem_scanOrder me hk) u hu
    omega
  | some j t before after hp _ _ _ _ =>
    rw [hp] at h
    cases h

theorem best_some (h : (s.pick env me).best = some j) :
    ∃ t, s.Waits env me j t ∧ (s.pick env me).bestPrio = t.priority ∧
      ∀ k u, s.Waits env me k u → t.priority ≤ u.priority := by
  cases polled_scanned s env me with
  | none hp _ =>
    rw [hp] at h
    cases h
  | some j' t before after hp hks hc hb ha =>
    rw [hp] at h ⊢
    cases h
    refine ⟨t, candidate_polled.mp hc, rfl, fun k u hu => ?_⟩
    rw [← candidate_polled] at hu
    have hk := Sched.mem_scanOrder me (List.getElem?_eq_some_iff.mp hu.entry).1
    rw [hks] at hk
    obtain hk | hk | hk : k ∈ before ∨ k = j ∨ k ∈ after := by simpa using hk
    · exact le_of_lt (hb k hk u hu)
    · subst hk
      cases hc.entry.symm.trans hu.entry
      exact le_refl _
    · exact ha k hk u hu

theorem best_current (hc : s.current me = some i) (h : (s.pick env me).best = some i) (hi : s.Waits env me i t)
    (hk : k ≠ i) (hu : s.Waits env me k u) : t.priority < u.priority := by
  rw [← candidate_polled] at hi hu
  have hlt := (List.getElem?_eq_some_iff.mp hi.entry).1
  have hmem := Sched.mem_scanOrder me (List.getElem?_eq_some_iff.mp hu.entry).1
  have ⟨ks, hks, hnot⟩ := Sched.scanOrder_of_current (Sched.polled_current ▸ hc) hlt
  cases polled_scanned s env me with
  | none hp _ =>
    rw [hp] at h
    cases h
  | some j t' before after hp hsplit hc' hb ha =>
    rw [hp] at h
    cases h
    cases hi.entry.symm.trans hc'.entry
    have hbefore : before = ks := by
      obtain ⟨as, hks', htail⟩ | ⟨as, hbef, htail⟩ := append_eq_append_iff.mp (hsplit.symm.trans hks)
      · cases as with
        | nil => rw [hks', append_nil]
        | cons a as =>
          cases (List.cons.inj htail).1
          exact absurd (by simp [hks']) hnot
      · cases as with
        | nil => rw [hbef, append_nil]
        | cons a as => simp at htail
    refine hb k ?_ u hu
    rw [hks] at hmem
    simpa [hk, hbefore] using hmem

theorem polled_currentTask (hc : s.current me = some i) (h : (s.wakeStateLocked env).tasks[i]? = some cur) :
    (s.polled env me).currentTask me = some (Sched.tick cur) := by
  rw [Sched.currentTask, Sched.polled_current, hc]
  exact Sched.tickSlice_entry hc h

theorem keeps_iff (hc : s.current me = some i) (h : (s.wakeStateLocked env).tasks[i]? = some cur) (p : Pick) :
    (s.polled env me).keepsCurrent me p = true ↔
      cur.state = .running ∧ (p.best = none ∨ cur.priority = prioRt ∨ 1 < cur.sliceLeft ∧ cur.priority ≤ p.bestPrio) := by
  have hslice : 0 < cur.sliceLeft - 1 ↔ 1 < cur.sliceLeft := by omega
  rw [Sched.keepsCurrent, polled_currentTask hc h]
  simp only [decide_eq_true_eq, isNone_iff_eq_none, Sched.tick_priority]
  unfold Sched.tick
  split_ifs with hrun
  · simp [hrun, hslice]
  · simp [hrun]

theorem law_of_empty (h : s.tasks = []) : PriorityLaw s env me := by
  have hplan : s.planSwitch env me = (s, none) := if_pos h
  have hwake : (s.wakeStateLocked env).tasks = [] := by
    rw [Sched.wakeStateLocked, h]
    rfl
  constructor
  · intro i cur j t _ _ _ hj
    rw [hplan] at hj
    cases hj
  · intro o j hj
    rw [hplan] at hj
    cases hj
  · intro i cur k u _ hcur
    rw [hwake] at hcur
    cases hcur
  · intro j t _ ht
    rw [hplan, h] at ht
    cases ht

theorem planSwitch_eq_some (hne : s.tasks ≠ []) (h : (s.planSwitch env me).2 = some (o, some j)) :
    o = s.current me ∧ (s.pick env me).best = some j ∧ ¬s.Keeps env me := by
  obtain ⟨hplan, _⟩ | ⟨hplan, hkeep, _⟩ := planSwitch_cases env me hne
  · rw [hplan] at h
    cases h
  · rw [hplan, some.injEq, Prod.mk.injEq] at h
    exact ⟨h.1.symm, h.2, hkeep⟩

theorem exists_best (hprio : ∀ t ∈ s.tasks, t.priority < 256) (hu : s.Waits env me k u) :
    ∃ j t, (s.pick env me).best = some j ∧ s.Waits env me j t ∧ (s.pick env me).bestPrio = t.priority ∧
      ∀ k u, s.Waits env me k u → t.priority ≤ u.priority := by
  cases hb : (s.pick env me).best with
  | none => exact absurd hu (best_none hprio hb k u)
  | some j =>
    obtain ⟨t, ht⟩ := best_some hb
    exact ⟨j, t, rfl, ht⟩

section plan

variable (hne : s.tasks ≠ []) {cur : Task} (hi : s.current me = some i)
  (hcur : (s.wakeStateLocked env).tasks[i]? = some cur)
include hne hi hcur

-- A task that is not kept and is not itself the best one makes room for the best one.
theorem planSwitch_of_best (hb : (s.pick env me).best = some j) (ht : s.Waits env me j t) (hkeep : ¬s.Keeps env me)
    (hother : cur ≠ t) : (s.planSwitch env me).2 = some (some i, some j) := by
  obtain ⟨_, hk | hk⟩ | ⟨hplan, _⟩ := planSwitch_cases env me hne
  · exact absurd hk hkeep
  · cases (hk.symm.trans hb).symm.trans hi
    cases hcur.symm.trans ht.entry
    exact absurd rfl hother
  · rw [hplan, hb, hi]

theorem PriorityLaw.expired (hprio : ∀ t ∈ s.tasks, t.priority < 256) (law : PriorityLaw s env me)
    (hrun : cur.state = .running) (hrt : cur.priority ≠ prioRt) (hslice : cur.sliceLeft ≤ 1) (hu : s.Waits env me k u) :
    ∃ k u, s.Waits env me k u ∧ u.priority ≤ cur.priority := by
  obtain ⟨j, t, hb, ht, _, _⟩ := exists_best hprio hu
  have hkeep : ¬s.Keeps env me := by
    rw [Sched.Keeps, keeps_iff hi hcur, hb]
    rintro ⟨_, h | h | h⟩
    · cases h
    · exact hrt h
    · omega
  refine ⟨j, t, ht, law.kept i cur j t hi hcur hrun (planSwitch_of_best hne hi hcur hb ht hkeep ?_) ht.entry⟩
  rintro rfl
  cases hrun.symm.trans ht.ready

theorem PriorityLaw.yielded (hprio : ∀ t ∈ s.tasks, t.priority < 256) (law : PriorityLaw s env me)
    (hready : cur.state = .ready) (howner : cur.ownerCpu = me) :
    ∃ k u, k ≠ i ∧ s.Waits env me k u ∧ u.priority ≤ cur.priority := by
  have hself : s.Waits env me i cur := ⟨hcur, hready, howner⟩
  obtain ⟨j, t, hb, ht, _, hleast⟩ := exists_best hprio hself
  refine ⟨j, t, ?_, ht, hleast i cur hself⟩
  -- The current task would go on as it is.
  rintro rfl
  obtain ⟨hplan, _⟩ | ⟨_, _, hother⟩ := planSwitch_cases env me hne
  · have hgoes := law.running j (Sched.tick cur)
    rw [hplan, Sched.polled_current] at hgoes
    have hrun := hgoes hi (Sched.tickSlice_entry hi hcur)
    rw [Sched.tick, if_neg (by simp [hready]), hready] at hrun
    cases hrun
  · exact hother (hb.trans hi.symm)

theorem HasPeer.kept (hpeer : HasPeer (s.wakeStateLocked env) me i cur) (hrun : cur.state = .running)
    (hplan : (s.planSwitch env me).2 = some (some i, some j)) (ht : (s.wakeStateLocked env).tasks[j]? = some t) :
    t.priority ≤ cur.priority := by
  obtain ⟨_, hb, hkeep⟩ := planSwitch_eq_some hne hplan
  obtain ⟨t', ht', hbest, hleast⟩ := best_some hb
  cases ht.symm.trans ht'.entry
  rw [Sched.Keeps, keeps_iff hi hcur, hb, hbest] at hkeep
  by_cases hslice : cur.sliceLeft ≤ 1
  · have hrt : cur.priority ≠ prioRt := fun hrt => hkeep ⟨hrun, .inr (.inl hrt)⟩
    obtain ⟨k, u, hu, hle⟩ := hpeer.expired hrun hrt hslice ⟨j, t, ht'⟩
    exact le_trans (hleast k u hu) hle
  · by_contra hlow
    exact hkeep ⟨hrun, .inr (.inr ⟨by omega, by omega⟩)⟩

theorem planSwitch_urgent (hprio : ∀ t ∈ s.tasks, t.priority < 256) (hu : s.Waits env me k u)
    (hlt : u.priority < cur.priority) : ∃ j t, (s.planSwitch env me).2 = some (some i, some j) ∧
      (s.wakeStateLocked env).tasks[j]? = some t ∧ t.priority < cur.priority := by
  obtain ⟨j, t, hb, ht, hbest, hleast⟩ := exists_best hprio hu
  have htcur : t.priority < cur.priority := lt_of_le_of_lt (hleast k u hu) hlt
  have hkeep : ¬s.Keeps env me := by
    rw [Sched.Keeps, keeps_iff hi hcur, hb, hbest]
    rintro ⟨_, h | h | h⟩
    · cases h
    · rw [h] at hlt
      cases hlt
    · omega
  refine ⟨j, t, planSwitch_of_best hne hi hcur hb ht hkeep ?_, ht.entry, htcur⟩
  rintro rfl
  exact lt_irrefl _ htcur

end plan

theorem running_of_planSwitch (hne : s.tasks ≠ [])
    (hj : (s.planSwitch env me).1.current me = some j) (ht : (s.planSwitch env me).1.tasks[j]? = some t) :
    t.state = .running ∨ s.current me = some j ∧ (s.pick env me).best = some j := by
  obtain ⟨hplan, hk⟩ | ⟨hplan, _⟩ := planSwitch_cases env me hne
  · rw [hplan] at hj ht
    rw [Sched.polled_current] at hj
    cases hk with
    | inr hk => exact .inr ⟨hj, hk.trans hj⟩
    | inl hk =>
      have hct : (s.polled env me).currentTask me = some t := by
        rw [Sched.currentTask, Sched.polled_current, hj]
        exact ht
      rw [Sched.Keeps, Sched.keepsCurrent, hct] at hk
      simp only [decide_eq_true_eq] at hk
      exact .inl hk.1
  · rw [hplan] at hj ht
    have hb : (s.pick env me).best = some j := by
      simpa [Sched.switchTo] using hj
    rw [hb, Sched.switchTo] at ht
    simp only [Sched.update, getElem?_modify_eq] at ht
    obtain ⟨t0, _, ht⟩ := map_eq_some_iff.mp ht
    exact .inl (ht ▸ rfl)

-- The rule holds exactly if the current task has a peer where it matters.
theorem priority_law_iff (s : Sched) (env : Env) (me : Nat) (hprio : ∀ t ∈ s.tasks, t.priority < 256) :
    PriorityLaw s env me ↔ ∀ i cur, s.current me = some i → (s.wakeStateLocked env).tasks[i]? = some cur →
      HasPeer (s.wakeStateLocked env) me i cur := by
  by_cases hne : s.tasks = []
  · refine iff_of_true (law_of_empty hne) fun i cur _ hcur => ?_
    unfold Sched.wakeStateLocked at hcur
    rw [hne] at hcur
    cases hcur
  constructor
  · intro law i cur hi hcur
    exact ⟨fun hrun hrt hslice ⟨_, _, hu⟩ => law.expired hne hi hcur hprio hrun hrt hslice hu,
      fun hready howner => law.yielded hne hi hcur hprio hready howner⟩
  · intro hpeer
    refine ⟨fun i cur j t hi hcur => (hpeer i cur hi hcur).kept hne hi hcur, fun o j hplan => ?_,
      fun i cur k u hi hcur => planSwitch_urgent hne hi hcur hprio, fun j t hj ht => ?_⟩
    · obtain ⟨_, hb, _⟩ := planSwitch_eq_some hne hplan
      obtain ⟨t, ht, _, hleast⟩ := best_some hb
      exact ⟨t, ht, hleast⟩
    · refine (running_of_planSwitch hne hj ht).resolve_right fun ⟨hc, hb⟩ => ?_
      obtain ⟨cur, hcur, _⟩ := best_some hb
      obtain ⟨k, u, hk, hu, hle⟩ := (hpeer j cur hc hcur.entry).yielded hcur.ready hcur.owner
      have := best_current hc hb hcur hk hu
      omega

-- A Normal task runs on CPU 0 in the last tick of its slice, and another task waits.
def lastTick (priority : Nat) : Sched :=
  { Sched.boot with
    tasks := [{ Sched.boot.newTask 0 prioNormal 0 with state := .running, sliceLeft := 1 }, Sched.boot.newTask 0 priority 0]
    current := fun cpu => if cpu = 0 then some 0 else none }

def atBoot : Env where
  nowMs := 0
  nowNs := 0
  linePending := false
  rawPending := false

theorem lastTick_peer : PriorityLaw (lastTick prioNormal) atBoot 0 := by
  refine (priority_law_iff (lastTick prioNormal) atBoot 0 (by decide)).mpr fun i cur hi hcur => ?_
  cases hi
  have hpeer : Candidate ((lastTick prioNormal).wakeStateLocked atBoot).tasks 0 1 (Sched.boot.newTask 0 prioNormal 0) :=
    ⟨by decide, by decide, by decide⟩
  have hcur' : ((lastTick prioNormal).wakeStateLocked atBoot).tasks[0]? =
      some { Sched.boot.newTask 0 prioNormal 0 with state := .running, sliceLeft := 1 } := by decide
  cases hcur.symm.trans hcur'
  exact ⟨fun _ _ _ _ => ⟨1, _, hpeer, by decide⟩, nofun⟩

-- The task that waits is of the lowest class.
theorem lastTick_lower : ¬PriorityLaw (lastTick 2) atBoot 0 := by
  intro law
  have hlow := law.kept 0 { Sched.boot.newTask 0 prioNormal 0 with state := .running, sliceLeft := 1 } 1 (Sched.boot.newTask 0 2 0)
    (by decide) (by decide) (by decide) (by decide) (by decide)
  exact absurd hlow (by decide)

end law

end Scheduler
