import Onyx.Lib.Execution
import Onyx.Scheduler.Change

-- Three flags for the call a task waits in: when the wake pass tests the right one.

open List

namespace Scheduler

-- The blocking calls, as reasons a task waits.
inductive Wait
  | input
  | raw
  | child
  | sleep
  deriving DecidableEq

def Event.wait : Event → Option (Nat × Wait)
  | .blockCurrentOnInput cpu => some (cpu, .input)
  | .blockCurrentOnRawInput cpu => some (cpu, .raw)
  | .blockOnChild cpu => some (cpu, .child)
  | .sleepCurrent cpu _ => some (cpu, .sleep)
  | .sleepCurrentNs _ cpu _ => some (cpu, .sleep)
  | _ => none

-- A scheduler state together with the most recent blocking call of each task (by index).
structure History where
  sched : Sched
  lastWait : Nat → Option Wait

namespace History

def boot : History := { sched := .boot, lastWait := fun _ => none }

def apply (h : History) (e : Event) : History where
  sched := h.sched.apply e
  lastWait :=
    match e.wait with
    | none => h.lastWait
    | some (cpu, w) =>
      match h.sched.current cpu with
      | none => h.lastWait
      | some cur => Function.update h.lastWait cur (some w)

def next (h : History) (e : Event) (h' : History) : Prop := h' = h.apply e

end History

-- The condition a wait is for, as the wake pass finds it.
def Wait.holds (env : Env) (tasks : List Task) (t : Task) : Wait → Prop
  | .input => env.linePending = true
  | .raw => env.rawPending = true
  | .child => hasDeadUnreapedChild tasks t.id = true
  | .sleep => False

def NoLostWakeup (h : History) : Prop :=
  ∀ i t w env, h.sched.tasks[i]? = some t → t.state = .blocked → h.lastWait i = some w →
    w.holds env h.sched.tasks t →
    ∃ t', (h.sched.wakeStateLocked env).tasks[i]? = some t' ∧ t'.state = .ready

def Event.NoStaleFlag (h : History) : Event → Prop
  | .blockCurrentOnRawInput cpu =>
    ∀ t, h.sched.currentTask cpu = some t → t.blockedOnInput = false
  | .blockOnChild cpu =>
    ∀ t, h.sched.currentTask cpu = some t → t.blockedOnInput = false ∧ t.blockedOnRaw = false
  | _ => True

-- A change that never blocks a task and leaves the flags of a Blocked one alone.
structure Quiet (t t' : Task) : Prop where
  id : t'.id = t.id
  blocked : t'.state = .blocked → t.state = .blocked ∧ t'.blockedOnInput = t.blockedOnInput ∧
    t'.blockedOnRaw = t.blockedOnRaw ∧ t'.blockedOnChild = t.blockedOnChild

namespace Quiet

theorem refl (t : Task) : Quiet t t where
  id := rfl
  blocked h := ⟨h, rfl, rfl, rfl⟩

theorem trans (h1 : Quiet t1 t2) (h2 : Quiet t2 t3) : Quiet t1 t3 where
  id := h2.id.trans h1.id
  blocked h := by
    have ⟨hs, hi, hr, hc⟩ := h2.blocked h
    have ⟨hs', hi', hr', hc'⟩ := h1.blocked hs
    exact ⟨hs', hi.trans hi', hr.trans hr', hc.trans hc'⟩

theorem of_unblocked (hi : t'.id = t.id) (hs : t'.state ≠ .blocked) : Quiet t t' where
  id := hi
  blocked h := absurd h hs

theorem change (h : Change t t') : Quiet t t' := by
  cases h with
  | adjust => exact ⟨rfl, fun h => ⟨h, rfl, rfl, rfl⟩⟩
  | ready => exact of_unblocked rfl (by simp)
  | run => exact of_unblocked rfl (by simp)
  | reap hd => exact of_unblocked rfl (by simp [hd])
  | kill => exact of_unblocked rfl (by simp)

theorem respects : Respects Quiet :=
  ⟨refl, trans, change⟩

theorem wakeUpTo (env : Env) (tasks : List Task) (k : Nat) : Lib.Evolves Quiet tasks (wakeUpTo env tasks k) :=
  .foldl refl trans (fun _ _ => .modify refl fun _ _ => change (.wakeTask ..)) _

end Quiet

namespace Sched

theorem apply_of_no_wait (s : Sched) (h : e.wait = none) :
    (∃ t, (s.apply e).tasks = s.tasks ++ [t] ∧ t.id = s.nextId ∧ t.state = .ready ∧ (s.apply e).nextId = s.nextId + 1) ∨
    (Lib.Evolves Quiet s.tasks (s.apply e).tasks ∧ (s.apply e).nextId = s.nextId) := by
  refine s.apply_cases Quiet.respects e fun cpu f hf t _ => ?_
  cases e <;> simp only [Event.wait, reduceCtorEq] at h <;>
    simp only [Event.effect, reduceCtorEq, Option.some.injEq, Prod.mk.injEq] at hf
  all_goals
    rw [← hf.2]
    exact .of_unblocked rfl (by simp)

def ids (s : Sched) : List Nat := s.tasks.map (·.id)

theorem apply_ids (s : Sched) (e : Event) :
    ((s.apply e).ids = s.ids ++ [s.nextId] ∧ (s.apply e).nextId = s.nextId + 1) ∨
    ((s.apply e).ids = s.ids ∧ (s.apply e).nextId = s.nextId) := by
  have hR : Respects fun t t' => t'.id = t.id := ⟨fun _ => rfl, fun h1 h2 => h2.trans h1, fun h => by cases h <;> rfl⟩
  have he : ∀ cpu f, e.effect = some (cpu, f) → ∀ t, s.currentTask cpu = some t → (f t).id = t.id := by
    intro cpu f hf t _
    cases e <;> simp only [Event.effect, reduceCtorEq, Option.some.injEq, Prod.mk.injEq] at hf
    all_goals rw [← hf.2]
  cases s.apply_cases hR e he with
  | inl h =>
    obtain ⟨t, ht, hi, _, hn⟩ := h
    exact .inl ⟨by simp [ids, ht, hi], hn⟩
  | inr h => exact .inr ⟨h.1.map_eq fun h => h, h.2⟩

structure IdsOk (s : Sched) : Prop where
  nodup : s.ids.Nodup
  range : ∀ x ∈ s.ids, 0 < x ∧ x < s.nextId
  next : 0 < s.nextId

theorem IdsOk.apply (h : IdsOk s) (e : Event) : IdsOk (s.apply e) := by
  cases s.apply_ids e with
  | inl he =>
    have hn : s.nextId ∉ s.ids := fun hm => lt_irrefl _ (h.range _ hm).2
    constructor
    · simpa [he.1, nodup_append, h.nodup] using fun x hx (hxn : x = s.nextId) => hn (hxn ▸ hx)
    · intro x hx
      rw [he.1, mem_append, mem_singleton] at hx
      rw [he.2]
      cases hx with
      | inl hx => exact ⟨(h.range x hx).1, Nat.lt_succ_of_lt (h.range x hx).2⟩
      | inr hx => exact ⟨hx ▸ h.next, hx ▸ Nat.lt_succ_self _⟩
    · omega
  | inr he => exact ⟨he.1 ▸ h.nodup, he.1 ▸ he.2 ▸ h.range, he.2 ▸ h.next⟩

end Sched

theorem wakeUpTo_getElem? (env : Env) (tasks : List Task) (k i : Nat) : (wakeUpTo env tasks k)[i]? =
      if i < k then tasks[i]?.map (wakeTask env (wakeUpTo env tasks i)) else tasks[i]? := by
  induction k with
  | zero => simp [wakeUpTo]
  | succ k hi =>
    have hs : wakeUpTo env tasks (k + 1) = wakeAt env (wakeUpTo env tasks k) k := by
      simp [wakeUpTo, range_succ, foldl_append]
    rw [hs, wakeAt, getElem?_modify]
    by_cases hk : k = i
    · subst hk
      simp [hi]
    · have hlt : i < k + 1 ↔ i < k := by omega
      simp [hi, hk, hlt]

theorem wakePass_getElem? (env : Env) (ht : tasks[i]? = some t) :
    (wakePass env tasks)[i]? = some (wakeTask env (wakeUpTo env tasks i) t) := by
  have hi : i < tasks.length := (List.getElem?_eq_some_iff.mp ht).1
  rw [wakePass, wakeUpTo_getElem?, if_pos hi, ht]
  rfl

theorem autoReap_eq_false (hn : (tasks.map Task.id).Nodup) (hp : p ∈ tasks) (hz : 0 < p.id)
    (hl : p.state ≠ .dead) (hc : c.parentId = p.id) : autoReap tasks c = false := by
  have hf : tasks.find? (·.id = c.parentId) = some p := by
    cases h : tasks.find? (·.id = c.parentId) with
    | none =>
      have := find?_eq_none.mp h p hp
      simp [hc] at this
    | some q =>
      have hq : q.id = p.id := by simpa [hc] using find?_some h
      rw [inj_on_of_nodup_map hn (mem_of_find?_eq_some h) hp hq]
  simp only [autoReap, hf]
  simp [hl, hc, ne_of_gt hz]

theorem hasDeadUnreapedChild_wakeUpTo (env : Env) (hn : (tasks.map Task.id).Nodup)
    (ht : tasks[i]? = some t) (hz : 0 < t.id) (hl : t.state = .blocked) (hc : hasDeadUnreapedChild tasks t.id = true) :
    hasDeadUnreapedChild (wakeUpTo env tasks i) t.id = true := by
  simp only [hasDeadUnreapedChild, any_eq_true, decide_eq_true_eq] at hc ⊢
  have ⟨c, hm, hp, hd, hr⟩ := hc
  have ⟨j, hj⟩ := mem_iff_getElem?.mp hm
  -- The parent has not been visited yet, so `c` cannot have been taken for an orphan.
  have hparent (k : Nat) (hk : k ≤ i) : t ∈ wakeUpTo env tasks k :=
    mem_of_getElem? (i := i) (by simp [wakeUpTo_getElem?, ht, not_lt.mpr hk])
  have hids (k : Nat) : ((wakeUpTo env tasks k).map Task.id).Nodup := (Quiet.wakeUpTo env tasks k).map_eq Quiet.id ▸ hn
  have hsame (k : Nat) (hk : k ≤ i) : wakeTask env (wakeUpTo env tasks k) c = c := by
    have := autoReap_eq_false (hids k) (hparent k hk) hz (by simp [hl]) hp
    simp [wakeTask, hd, this]
  refine ⟨c, mem_of_getElem? (i := j) ?_, hp, hd, hr⟩
  rw [wakeUpTo_getElem?]
  split_ifs with hji
  · simp [hj, hsame j (le_of_lt hji)]
  · exact hj

def WaitsIn (t : Task) : Option Wait → Prop
  | some .input => t.blockedOnInput = true
  | some .raw => t.blockedOnInput = false ∧ t.blockedOnRaw = true
  | some .child => t.blockedOnInput = false ∧ t.blockedOnRaw = false ∧ t.blockedOnChild = true
  | _ => False

structure History.Tracked (h : History) : Prop where
  ids : h.sched.IdsOk
  waits : ∀ {i t}, h.sched.tasks[i]? = some t → t.state = .blocked → WaitsIn t (h.lastWait i)

theorem History.Tracked.noLostWakeup (h : Tracked h') : NoLostWakeup h' := by
  intro i t w env ht hb hw hc
  have hwaits := h.waits ht hb
  refine ⟨_, wakePass_getElem? env ht, ?_⟩
  rw [hw] at hwaits
  cases w
  case input => simp_all [wakeTask, WaitsIn, Wait.holds]
  case raw => simp_all [wakeTask, WaitsIn, Wait.holds]
  case child =>
    have hz := (h.ids.range t.id (mem_map_of_mem (mem_of_getElem? ht))).1
    have := hasDeadUnreapedChild_wakeUpTo env h.ids.nodup ht hz hb hc
    simp_all [wakeTask, WaitsIn]
  case sleep => exact hc.elim


theorem WaitsIn.quiet (h : WaitsIn t w) (hq : Quiet t t') (hb : t'.state = .blocked) : WaitsIn t' w := by
  have ⟨_, hi, hr, hc⟩ := hq.blocked hb
  unfold WaitsIn at h ⊢
  rwa [hi, hr, hc]

theorem History.Tracked.block_waits (h : Tracked h') (cpu : Nat)
    (he : e.wait = some (cpu, w)) (ha : h'.sched.apply e = h'.sched.updateCurrent cpu f)
    (ht : (h'.apply e).sched.tasks[i]? = some t') (hb : t'.state = .blocked)
    (hf : ∀ t, h'.sched.currentTask cpu = some t → (f t).state = .blocked → WaitsIn (f t) (some w)) :
    WaitsIn t' ((h'.apply e).lastWait i) := by
  simp only [History.apply, ha, he, Sched.updateCurrent] at ht ⊢
  cases hc : h'.sched.current cpu with
  | none =>
    simp only [hc] at ht ⊢
    exact h.waits ht hb
  | some cur =>
    simp only [hc, Sched.update, getElem?_modify] at ht ⊢
    by_cases hi : cur = i
    · subst hi
      rw [Function.update_self]
      obtain ⟨t, hto, hft⟩ := Option.map_eq_some_iff.mp ht
      simp only [if_true] at hft
      subst hft
      exact hf t (by simp [Sched.currentTask, hc, hto]) hb
    · rw [Function.update_of_ne (Ne.symm hi)]
      exact h.waits (by simpa [hi] using ht) hb

theorem History.Tracked.apply (h : Tracked h') (hf : e.NoStaleFlag h') : Tracked (h'.apply e) where
  ids := h.ids.apply e
  waits {i t'} ht' hb' := by
    cases hw : e.wait with
    | none =>
      have hl : (h'.apply e).lastWait i = h'.lastWait i := by simp [History.apply, hw]
      rw [hl]
      cases h'.sched.apply_of_no_wait hw with
      | inl hp =>
        have ⟨t, hts, _, hr, _⟩ := hp
        simp only [History.apply, hts, getElem?_append] at ht'
        split_ifs at ht'
        · exact h.waits ht' hb'
        · have := mem_singleton.mp (mem_of_getElem? ht')
          simp [this, hr] at hb'
      | inr hq =>
        have ⟨t, ht, hq⟩ := hq.1.entry ht'
        exact (h.waits ht (hq.blocked hb').1).quiet hq hb'
    | some w =>
      cases e <;> simp only [Event.wait, reduceCtorEq] at hw
      case blockCurrentOnInput cpu =>
        exact h.block_waits cpu rfl rfl ht' hb' fun _ _ _ => rfl
      case blockCurrentOnRawInput cpu =>
        exact h.block_waits cpu rfl rfl ht' hb' fun t ht _ => ⟨hf t ht, rfl⟩
      case blockOnChild cpu =>
        exact h.block_waits cpu rfl rfl ht' hb' fun t ht _ => ⟨(hf t ht).1, (hf t ht).2, rfl⟩
      case sleepCurrent cpu _ | sleepCurrentNs _ cpu _ =>
        exact h.block_waits cpu rfl rfl ht' hb' fun _ _ hb => by simp at hb

theorem History.Tracked.boot : Tracked boot where
  ids := ⟨nodup_nil, by simp [Sched.ids, History.boot, Sched.boot], one_pos⟩
  waits h := by simp [History.boot, Sched.boot] at h

-- Along every history in which no call finds a stale flag, no wake-up is lost.
theorem no_lost_wakeup_of_no_stale_flag
    (e : Lib.Execution (Lib.Guarded History.next fun h a => a.NoStaleFlag h) .boot events h) : NoLostWakeup h :=
  have ht : h.Tracked := e.invariant (fun ⟨hf, hn⟩ ht => hn ▸ ht.apply hf) .boot
  ht.noLostWakeup

def waitpidAfterSleep : List Event :=
  let quiet : Env := { nowMs := 0, nowNs := 0, linePending := false, rawPending := false }
  [.spawn 0, .spawnWithParent 0 prioNormal 1, .preempt quiet 0, .blockCurrentOnInput 0,
    .preempt { quiet with linePending := true } 0, .yieldCurrent 0, .preempt quiet 0,
    .sleepCurrent 0 5, .preempt quiet 0, .yieldCurrent 0, .preempt { quiet with nowMs := 5 } 0,
    .blockOnChild 0, .preempt quiet 0, .recordExit 0 7]

theorem waitpid_wakeup_after_sleep : ∃ h, Lib.Execution (Lib.Guarded History.next fun h a => a.NoStaleFlag h) .boot
        waitpidAfterSleep h ∧ h.lastWait 0 = some .child ∧ NoLostWakeup h := by
  have run : Lib.Execution (Lib.Guarded History.next fun h a => a.NoStaleFlag h) .boot
      waitpidAfterSleep (waitpidAfterSleep.foldl History.apply .boot) := by
    repeat' apply Lib.Execution.step
    all_goals first
      | exact .refl
      | exact ⟨trivial, rfl⟩
      | refine ⟨fun t ht => ?_, rfl⟩
        cases ht
        exact ⟨rfl, rfl⟩
  exact ⟨_, run, rfl, no_lost_wakeup_of_no_stale_flag run⟩

-- A task that has read a line waits for its child with the flag of the read still set.
def waitpidAfterRead : List Event :=
  let quiet : Env := { nowMs := 0, nowNs := 0, linePending := false, rawPending := false }
  [.spawn 0, .spawnWithParent 0 prioNormal 1, .preempt quiet 0, .blockCurrentOnInput 0,
    .preempt { quiet with linePending := true } 0, .yieldCurrent 0, .preempt quiet 0,
    .blockOnChild 0, .preempt quiet 0, .recordExit 0 7]

theorem waitpid_wakeup_lost : ∃ h, Lib.Execution History.next .boot waitpidAfterRead h ∧ ¬ NoLostWakeup h := by
  refine ⟨_, Lib.Execution.of_foldl History.apply .boot waitpidAfterRead, ?_⟩
  intro h
  have ⟨t, ht, hr⟩ := h 0 _ .child
    { nowMs := 0, nowNs := 0, linePending := false, rawPending := false } rfl rfl rfl rfl
  cases ht
  cases hr

end Scheduler
