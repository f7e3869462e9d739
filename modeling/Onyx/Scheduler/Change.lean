import Onyx.Scheduler.Event

-- What a section can do to the task table: push a task, rewrite the caller, or one of a few changes.

namespace Scheduler

inductive Change : Task → Task → Prop
  | adjust : Change t { t with sliceLeft := n, wakeDiag := d, priority := p, linuxAbi := b }
  | ready : t.state ≠ .dead → Change t { t with state := .ready, sleepUntilNs := n }
  | run : t.state = .ready → Change t { t with sliceLeft := n, state := .running }
  | reap : t.state = .dead → Change t { t with reaped := true }
  | kill : t.state ≠ .dead → Change t { t with state := .dead, exitCode := 137, reaped := false }

-- The sections that rewrite the calling task whatever its state, with what they write.
def Event.effect : Event → Option (Nat × (Task → Task))
  | .markCurrentDead cpu => some (cpu, ({ · with state := .dead, exitCode := 0, reaped := false }))
  | .recordExit cpu code => some (cpu, ({ · with state := .dead, exitCode := code, reaped := false }))
  | .blockOnChild cpu => some (cpu, ({ · with state := .blocked, blockedOnChild := true }))
  | .blockCurrentOnInput cpu => some (cpu, ({ · with state := .blocked, blockedOnInput := true }))
  | .blockCurrentOnRawInput cpu => some (cpu, ({ · with state := .blocked, blockedOnRaw := true }))
  | .sleepCurrent cpu wakeMs => some (cpu, ({ · with
      state := .sleeping, sleepUntilMs := wakeMs, blockedOnInput := false, blockedOnRaw := false }))
  | .sleepCurrentNs env cpu delayNs => some (cpu, ({ · with
      state := .sleeping
      sleepUntilMs := env.nowMs + delayNs / 1000000 * 10 + 10
      sleepUntilNs := (env.nowNs + delayNs) % 2 ^ 64
      blockedOnInput := false
      blockedOnRaw := false }))
  | _ => none

theorem Sched.apply_of_effect (s : Sched) (h : e.effect = some (cpu, f)) :
    s.apply e = s.updateCurrent cpu f := by
  cases e <;> simp only [Event.effect, reduceCtorEq, Option.some.injEq, Prod.mk.injEq] at h
  all_goals
    cases h.1
    cases h.2
    rfl

theorem Change.wakeTask (env : Env) (tasks : List Task) (t : Task) : Change t (wakeTask env tasks t) := by
  unfold Scheduler.wakeTask
  split
  case h_1 hs =>
    split_ifs
    · exact .ready (by simp [hs])
    · exact .adjust
    · exact .adjust
  case h_2 hs =>
    split_ifs
    all_goals first
      | exact .ready (by simp [hs])
      | exact .adjust
  case h_3 hs =>
    split_ifs
    · exact .reap hs
    · exact .adjust
  all_goals exact .adjust

structure Polls (env : Env) (R : Task → Task → Prop) : Prop where
  refl : ∀ t, R t t
  trans : ∀ {a b c}, R a b → R b c → R a c
  wake : ∀ tasks t, R t (wakeTask env tasks t)
  release : ∀ {t}, t.state = .running → R t { t with state := .ready }
  tick : ∀ {t}, t.state = .running → R t { t with sliceLeft := t.sliceLeft - 1 }
  run : ∀ {t}, t.state = .ready → R t { t with sliceLeft := freshSlice t.priority, state := .running }

namespace Polls

variable {R : Task → Task → Prop} {s : Sched} {env : Env}

theorem updateCurrent (hr : ∀ t, R t t) (s : Sched) (cpu : Nat)
    (hf : ∀ t, s.currentTask cpu = some t → R t (f t)) : Lib.Evolves R s.tasks (s.updateCurrent cpu f).tasks := by
  unfold Sched.updateCurrent
  split
  case h_1 => exact .refl hr
  case h_2 cur hc => exact .modify hr fun t ht => hf t (by simp [Sched.currentTask, hc, ht])

theorem wakePass (hR : Polls env R) (tasks : List Task) : Lib.Evolves R tasks (wakePass env tasks) :=
  .foldl hR.refl hR.trans (fun _ _ => .modify hR.refl fun _ _ => hR.wake ..) _

theorem releasePendingPrev (hr : ∀ t, R t t) (h : ∀ {t}, t.state = .running → R t { t with state := .ready }) (s : Sched) (me : Nat) :
    Lib.Evolves R s.tasks (s.releasePendingPrev me).tasks := by
  unfold Sched.releasePendingPrev
  split
  · exact .refl hr
  split_ifs
  · exact .refl hr
  refine .modify hr fun t _ => ?_
  split_ifs with hrun
  · exact h hrun.1
  · exact hr t

theorem switchTo (hR : Polls env R) (s : Sched) (me : Nat) : Lib.Evolves R s.tasks (s.switchTo me (s.bestReady me).best).tasks := by
  cases hb : (s.bestReady me).best with
  | none => exact .refl hR.refl
  | some i =>
    refine .modify hR.refl fun t ht => hR.run ?_
    have ⟨t', ht', hr, _⟩ := s.bestReady_ready me i hb
    rw [ht] at ht'
    cases ht'
    exact hr

theorem planSwitch (hR : Polls env R) (s : Sched) (me : Nat) : Lib.Evolves R s.tasks (s.planSwitch env me).1.tasks := by
  have hw : Lib.Evolves R s.tasks ((s.wakeStateLocked env).tickSlice me).tasks := by
    refine (hR.wakePass s.tasks).trans hR.trans ?_
    refine updateCurrent hR.refl (s.wakeStateLocked env) me fun t _ => ?_
    split_ifs with h
    · exact hR.tick h
    · exact hR.refl t
  simp only [Sched.planSwitch]
  split_ifs
  · exact .refl hR.refl
  · exact hw
  · exact hw.trans hR.trans (hR.switchTo ..)

theorem preempt (hR : Polls env R) (s : Sched) (me : Nat) : Lib.Evolves R s.tasks (s.preempt env me).1.tasks :=
  (releasePendingPrev hR.refl hR.release s me).trans hR.trans (hR.planSwitch ..)

end Polls

-- Enough that a relation holds along every change and for what the caller writes.
structure Respects (R : Task → Task → Prop) : Prop where
  refl : ∀ t, R t t
  trans : ∀ {a b c}, R a b → R b c → R a c
  change : ∀ {t t'}, Change t t' → R t t'

namespace Respects

variable {R : Task → Task → Prop} {s : Sched}

theorem polls (hR : Respects R) (env : Env) : Polls env R where
  refl := hR.refl
  trans := hR.trans
  wake _ _ := hR.change (.wakeTask ..)
  release h := hR.change (.ready (by simp [h]))
  tick _ := hR.change .adjust
  run h := hR.change (.run h)

theorem update (hR : Respects R) (s : Sched) (i : Nat)
    (hf : ∀ t, s.tasks[i]? = some t → R t (f t)) : Lib.Evolves R s.tasks (s.update i f).tasks :=
  .modify hR.refl hf

theorem updateCurrent (hR : Respects R) (s : Sched) (cpu : Nat)
    (hf : ∀ t, s.currentTask cpu = some t → R t (f t)) : Lib.Evolves R s.tasks (s.updateCurrent cpu f).tasks :=
  Polls.updateCurrent hR.refl s cpu hf

end Respects

namespace Sched

@[simp]
theorem update_nextId (s : Sched) (i : Nat) (f : Task → Task) : (s.update i f).nextId = s.nextId := rfl

@[simp]
theorem updateCurrent_nextId (s : Sched) (cpu : Nat) (f : Task → Task) : (s.updateCurrent cpu f).nextId = s.nextId := by
  unfold updateCurrent
  split <;> rfl

@[simp]
theorem updateCurrent_current (s : Sched) (cpu : Nat) (f : Task → Task) :
    (s.updateCurrent cpu f).current = s.current := by
  unfold updateCurrent
  split <;> rfl

theorem releasePendingPrev_current (s : Sched) (me : Nat) : (s.releasePendingPrev me).current = s.current := by
  unfold releasePendingPrev
  split
  · rfl
  · split_ifs <;> rfl

theorem releasePendingPrev_nextId (s : Sched) (me : Nat) : (s.releasePendingPrev me).nextId = s.nextId := by
  unfold releasePendingPrev
  split
  · rfl
  · split_ifs <;> rfl

theorem preempt_nextId (s : Sched) (env : Env) (me : Nat) : (s.preempt env me).1.nextId = s.nextId := by
  simp only [preempt, planSwitch, ← s.releasePendingPrev_nextId me]
  split_ifs
  · rfl
  · simp [tickSlice, wakeStateLocked]
  · simp only [switchTo]
    split <;> simp [tickSlice, wakeStateLocked]

theorem apply_cases (hR : Respects R) (s : Sched) (e : Event)
    (he : ∀ cpu f, e.effect = some (cpu, f) → ∀ t, s.currentTask cpu = some t → R t (f t)) :
    (∃ t, (s.apply e).tasks = s.tasks ++ [t] ∧ t.id = s.nextId ∧ t.state = .ready ∧ (s.apply e).nextId = s.nextId + 1) ∨
    (Lib.Evolves R s.tasks (s.apply e).tasks ∧ (s.apply e).nextId = s.nextId) := by
  match hf : e.effect with
  | some (cpu, f) =>
    rw [s.apply_of_effect hf]
    exact .inr ⟨hR.updateCurrent s cpu (he cpu f hf), by simp⟩
  | none =>
    have hr : Lib.Evolves R s.tasks s.tasks ∧ s.nextId = s.nextId := ⟨.refl hR.refl, rfl⟩
    cases e <;> simp only [Event.effect, reduceCtorEq] at hf <;> simp only [apply]
    case spawn | spawnPrio | spawnWithParent | spawnUserWithParent | spawnOnCpu =>
      exact .inl ⟨_, rfl, rfl, rfl, rfl⟩
    all_goals apply Or.inr
    case preempt env cpu => exact ⟨(hR.polls env).preempt s cpu, s.preempt_nextId env cpu⟩
    case userEntryTrampoline cpu =>
      exact ⟨Polls.releasePendingPrev hR.refl (fun h => hR.change (.ready (by simp [h]))) s cpu, s.releasePendingPrev_nextId cpu⟩
    case yieldCurrent cpu =>
      refine ⟨hR.updateCurrent s cpu fun t _ => ?_, by simp [yieldCurrent]⟩
      split_ifs with h
      · exact hR.change (.ready (by simp [h]))
      · exact hR.refl t
    case setLinuxAbi | setPriority =>
      simp only [setLinuxAbi, setPriority]
      split
      · exact hr
      · exact ⟨hR.update s _ fun t _ => hR.change .adjust, rfl⟩
    case wakeTaskNow =>
      simp only [wakeTaskNow]
      split
      · exact hr
      refine ⟨hR.update s _ fun t _ => ?_, rfl⟩
      split_ifs with h
      · exact hR.change (.ready (by simp [h]))
      · exact hR.refl t
    case kill =>
      simp only [kill]
      split
      case h_1 => exact hr
      case h_2 i hi =>
        refine ⟨hR.update s i fun t ht => hR.change (.kill ?_), rfl⟩
        have := List.find?_some hi
        simp only [ht, Option.any_some, decide_eq_true_eq] at this
        exact this.2.2
    case tryReap =>
      simp only [tryReap]
      split
      · exact hr
      split
      case h_1 => exact hr
      case h_2 i hi =>
        refine ⟨hR.update s i fun t ht => hR.change (.reap ?_), rfl⟩
        have ⟨hlt, hz, _⟩ := List.findIdx?_eq_some_iff_getElem.mp hi
        rw [List.getElem?_eq_getElem hlt] at ht
        cases ht
        simp only [decide_eq_true_eq] at hz
        exact hz.2.2.1

end Sched
end Scheduler
