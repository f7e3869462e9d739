import Onyx.Lib.Execution
import Onyx.Scheduler.Change

-- Several CPUs: the next task is chosen under the lock, and the stacks are switched after its release.

namespace Scheduler

-- `switching` is a plan not yet carried out, `executing` the context in use, `saved i` that `i` can be loaded.
structure Smp where
  sched : Sched
  switching : Nat → Option (Option Nat × Option Nat)
  executing : Nat → Option Nat
  saved : Nat → Bool

namespace Smp

def boot : Smp where
  sched := .boot
  switching _ := none
  executing _ := none
  saved _ := true

-- One section under the lock. Only `preempt` leaves a switch to be made.
def locked (s : Smp) (e : Event) : Smp :=
  { s with
    sched := s.sched.apply e
    switching := match e with
      | .preempt env cpu => Function.update s.switching cpu (s.sched.preempt env cpu).2
      | _ => s.switching }

-- The context switch: the outgoing RSP is stored, then the incoming one is loaded.
def switch (s : Smp) (cpu : Nat) (old new : Option Nat) : Smp :=
  { s with
    switching := Function.update s.switching cpu none
    executing := Function.update s.executing cpu new
    saved := fun i => if new = some i then false else if old = some i then true else s.saved i }

end Smp

def Event.cpu : Event → Option Nat
  | .spawn cpu | .spawnPrio cpu _ | .spawnWithParent cpu _ _ | .spawnUserWithParent cpu _ | .spawnOnCpu cpu _ _
  | .markCurrentDead cpu | .recordExit cpu _ | .kill cpu _ | .tryReap cpu _ | .blockOnChild cpu
  | .blockCurrentOnInput cpu | .blockCurrentOnRawInput cpu | .sleepCurrent cpu _ | .sleepCurrentNs _ cpu _
  | .yieldCurrent cpu | .preempt _ cpu | .userEntryTrampoline cpu => some cpu
  | .setLinuxAbi _ | .wakeTaskNow _ | .setPriority _ _ => none

inductive Action
  | locked (e : Event)
  | switch (cpu : Nat)

-- Between its plan and its switch a CPU has interrupts off and runs no other section.
inductive Smp.Step : Smp → Action → Smp → Prop
  | locked : (∀ cpu ∈ e.cpu, s.switching cpu = none) → Step s (.locked e) (s.locked e)
  | switch : s.switching cpu = some (old, new) → Step s (.switch cpu) (s.switch cpu old new)

structure Smp.Safe (s : Smp) : Prop where
  current : ∀ {c c' i}, s.sched.current c = some i → s.sched.current c' = some i → c = c'
  executing : ∀ {c c' i}, s.executing c = some i → s.executing c' = some i → c = c'
  stores : ∀ {c old new}, s.switching c = some (old, new) → s.executing c = old
  loads : ∀ {c old i}, s.switching c = some (old, some i) → s.saved i = true ∧ ∀ c', s.executing c' ≠ some i

namespace Sched

def Owns (s : Sched) (cpu i : Nat) : Prop := ∃ t, s.tasks[i]? = some t ∧ t.ownerCpu = cpu

theorem Owns.unique {s : Sched} (h : s.Owns c i) (h' : s.Owns c' i) : c = c' := by
  have ⟨t, ht, hc⟩ := h
  have ⟨t', ht', hc'⟩ := h'
  rw [ht] at ht'
  cases ht'
  rw [← hc, hc']

theorem respects_ownerCpu : Respects fun t t' => t'.ownerCpu = t.ownerCpu :=
  ⟨fun _ => rfl, fun h1 h2 => h2.trans h1, fun h => by cases h <;> rfl⟩

theorem Owns.evolves {s s' : Sched} (h : s.Owns c i)
    (he : Lib.Evolves (fun t t' => t'.ownerCpu = t.ownerCpu) s.tasks s'.tasks) : s'.Owns c i := by
  have ⟨t, ht, hc⟩ := h
  have ⟨t', ht', ho⟩ := he.entry_of_old ht
  exact ⟨t', ht', ho.trans hc⟩

theorem Owns.apply {s : Sched} (h : s.Owns c i) (e : Event) : (s.apply e).Owns c i := by
  have he : ∀ cpu f, e.effect = some (cpu, f) → ∀ t, s.currentTask cpu = some t → (f t).ownerCpu = t.ownerCpu := by
    intro cpu f hf t _
    cases e <;> simp only [Event.effect, reduceCtorEq, Option.some.injEq, Prod.mk.injEq] at hf
    all_goals rw [← hf.2]
  cases s.apply_cases respects_ownerCpu e he with
  | inl hp =>
    obtain ⟨t, ht, hc⟩ := h
    obtain ⟨u, hu, _⟩ := hp
    have hlt := (List.getElem?_eq_some_iff.mp ht).1
    exact ⟨t, by rw [hu, List.getElem?_append_left hlt, ht], hc⟩
  | inr he => exact h.evolves he.1

theorem switchTo_current (s : Sched) (me : Nat) (next : Option Nat) :
    (s.switchTo me next).current = Function.update s.current me next := by
  unfold switchTo
  cases next <;> rfl

theorem preempt_cases (s : Sched) (env : Env) (me : Nat) :
    ((s.preempt env me).2 = none ∧ (s.preempt env me).1.current = s.current) ∨
    ∃ new, (s.preempt env me).2 = some (s.current me, new) ∧ new ≠ s.current me ∧
      (s.preempt env me).1.current = Function.update s.current me new ∧ ∀ i ∈ new, (s.preempt env me).1.Owns me i := by
  have hc := s.releasePendingPrev_current me
  rw [← hc]
  unfold preempt
  generalize s.releasePendingPrev me = s
  have hw : ((s.wakeStateLocked env).tickSlice me).current = s.current := updateCurrent_current ..
  simp only [planSwitch]
  split_ifs with hn hk
  · exact .inl ⟨rfl, rfl⟩
  · exact .inl ⟨rfl, hw⟩
  refine .inr ⟨_, by rw [hw], fun h => hk (.inr (by rw [h, hw])), by rw [switchTo_current, hw], fun i hi => ?_⟩
  obtain ⟨t, ht, _, ho⟩ := bestReady_ready _ me i hi
  exact Owns.evolves ⟨t, ht, ho⟩ ((respects_ownerCpu.polls env).switchTo _ me)

theorem apply_current (s : Sched) (h : ∀ env cpu, e ≠ .preempt env cpu) :
    (s.apply e).current = s.current := by
  cases e <;> simp only [apply]
  case preempt env cpu => exact absurd rfl (h env cpu)
  case setLinuxAbi | wakeTaskNow | setPriority =>
    simp only [setLinuxAbi, wakeTaskNow, setPriority]
    split <;> rfl
  case kill =>
    simp only [kill]
    split <;> rfl
  case tryReap =>
    simp only [tryReap]
    split
    · rfl
    · split <;> rfl
  case spawn | spawnPrio | spawnWithParent | spawnUserWithParent | spawnOnCpu => rfl
  case userEntryTrampoline cpu => exact s.releasePendingPrev_current cpu
  all_goals exact updateCurrent_current ..

end Sched

structure Smp.Coherent (s : Smp) : Prop where
  current : ∀ {c i}, s.sched.current c = some i → s.sched.Owns c i
  executing : ∀ {c i}, s.executing c = some i → s.sched.Owns c i
  settled : ∀ {c}, s.switching c = none → s.executing c = s.sched.current c
  planned : ∀ {c old new}, s.switching c = some (old, new) → s.executing c = old ∧ s.sched.current c = new ∧ new ≠ old
  saved : ∀ i, s.saved i = true ∨ ∃ c, s.executing c = some i

namespace Smp.Coherent

variable {s t : Smp} {e : Event} {cpu : Nat} {old new : Option Nat}

theorem boot : Smp.boot.Coherent where
  current h := by cases h
  executing h := by cases h
  settled _ := rfl
  planned h := by cases h
  saved _ := .inl rfl

theorem safe (h : s.Coherent) : s.Safe where
  current hc hc' := (h.current hc).unique (h.current hc')
  executing hc hc' := (h.executing hc).unique (h.executing hc')
  stores hs := (h.planned hs).1
  loads {c old i} hs := by
    have ⟨he, hc, hn⟩ := h.planned hs
    -- Only this CPU could be on the incoming task, and it is on another one.
    have hf : ∀ c', s.executing c' ≠ some i := fun c' hc' => by
      cases (h.executing hc').unique (h.current hc)
      exact hn (hc'.symm.trans he)
    exact ⟨(h.saved i).resolve_right fun ⟨c', hc'⟩ => hf c' hc', hf⟩

theorem locked_of_ne (h : s.Coherent) (he : ∀ env cpu, e ≠ .preempt env cpu) : (s.locked e).Coherent := by
  have hs : (s.locked e).switching = s.switching := by
    cases e
    case preempt env cpu => exact absurd rfl (he env cpu)
    all_goals rfl
  have hc : (s.locked e).sched.current = s.sched.current := s.sched.apply_current he
  exact {
    current := fun hi => (h.current (hc ▸ hi)).apply e
    executing := fun hi => (h.executing hi).apply e
    settled := fun hn => (h.settled (hs ▸ hn)).trans (hc ▸ rfl)
    planned := fun hp => hc ▸ h.planned (hs ▸ hp)
    saved := h.saved
  }

theorem preempt (h : s.Coherent) (env : Env) (hn : s.switching cpu = none) :
    (s.locked (.preempt env cpu)).Coherent := by
  have hsw : (s.locked (.preempt env cpu)).switching = Function.update s.switching cpu (s.sched.preempt env cpu).2 :=
    rfl
  have hsc : (s.locked (.preempt env cpu)).sched = (s.sched.preempt env cpu).1 := rfl
  have hex := h.settled hn
  rcases s.sched.preempt_cases env cpu with ⟨hp, hc⟩ | ⟨new, hp, hne, hc, ho⟩
  · have hs : (s.locked (.preempt env cpu)).switching = s.switching := by rw [hsw, hp, ← hn, Function.update_eq_self]
    exact {
      current := fun hi => (h.current (hc ▸ hi)).apply (.preempt env cpu)
      executing := fun hi => (h.executing hi).apply (.preempt env cpu)
      settled := fun hn => (h.settled (hs ▸ hn)).trans (hc ▸ rfl)
      planned := fun hp => hsc ▸ hc ▸ h.planned (hs ▸ hp)
      saved := h.saved
    }
  · rw [hp] at hsw
    refine {
      current := fun {c i} hi => ?_
      executing := fun hi => (h.executing hi).apply (.preempt env cpu)
      settled := fun {c} hi => ?_
      planned := fun {c o n} hi => ?_
      saved := h.saved
    }
    all_goals
      rw [hsc, hc] at *
      by_cases hcc : c = cpu
    · subst hcc
      rw [Function.update_self] at hi
      exact ho i hi
    · rw [Function.update_of_ne hcc] at hi
      exact (h.current hi).apply (.preempt env cpu)
    · subst hcc
      rw [hsw, Function.update_self] at hi
      cases hi
    · rw [hsw, Function.update_of_ne hcc] at hi
      rw [Function.update_of_ne hcc]
      exact h.settled hi
    · subst hcc
      rw [hsw, Function.update_self] at hi
      cases hi
      rw [Function.update_self]
      exact ⟨hex, rfl, hne⟩
    · rw [hsw, Function.update_of_ne hcc] at hi
      rw [Function.update_of_ne hcc]
      exact h.planned hi

theorem switch (h : s.Coherent) (hs : s.switching cpu = some (old, new)) : (s.switch cpu old new).Coherent := by
  have ⟨he, hc, hn⟩ := h.planned hs
  refine {
    current := h.current
    executing := fun {c i} hi => ?_
    settled := fun {c} hi => ?_
    planned := fun {c o n} hi => ?_
    saved := fun i => ?_
  }
  · simp only [Smp.switch, Function.update_apply] at hi
    split_ifs at hi with hcc
    · exact h.current (hcc ▸ hc.trans hi)
    · exact h.executing hi
  · simp only [Smp.switch, Function.update_apply] at hi ⊢
    split_ifs at hi ⊢ with hcc
    · rw [hcc, hc]
    · exact h.settled hi
  · simp only [Smp.switch, Function.update_apply] at hi ⊢
    split_ifs at hi ⊢ with hcc
    exact h.planned hi
  · simp only [Smp.switch, Function.update_apply]
    split_ifs with h1 h2
    · exact .inr ⟨cpu, by simp [h1]⟩
    · exact .inl rfl
    rcases h.saved i with hi | ⟨c, hi⟩
    · exact .inl hi
    refine .inr ⟨c, ?_⟩
    have hcc : c ≠ cpu := fun hcc => h2 (he ▸ hcc ▸ hi)
    simp [hcc, hi]

theorem step (e : Smp.Step s a t) (h : s.Coherent) : t.Coherent := by
  cases e with
  | @locked _ _ hn =>
    rename_i e
    by_cases hp : ∃ env cpu, e = .preempt env cpu
    · have ⟨env, cpu, hp⟩ := hp
      subst hp
      exact h.preempt env (hn cpu rfl)
    · exact h.locked_of_ne fun env cpu he => hp ⟨env, cpu, he⟩
  | switch hs => exact h.switch hs

end Smp.Coherent

-- In every interleaving on any number of CPUs.
theorem smp_safe_of_run (e : Lib.Execution Smp.Step .boot actions s) : s.Safe :=
  (e.invariant (fun e h => Smp.Coherent.step e h) .boot).safe

-- Two CPUs plan before either switches.
def twoPlans : Smp :=
  let quiet : Env := { nowMs := 0, nowNs := 0, linePending := false, rawPending := false }
  (((Smp.boot.locked (.spawn 0)).locked (.spawn 1)).locked (.preempt quiet 0)).locked (.preempt quiet 1)

theorem smp_safe_with_two_switches : ((twoPlans.switch 1 none (some 1)).switch 0 none (some 0)).Safe := by
  have run : Lib.Execution Smp.Step .boot
      [.locked (.spawn 0), .locked (.spawn 1), .locked (.preempt ⟨0, 0, false, false⟩ 0),
        .locked (.preempt ⟨0, 0, false, false⟩ 1), .switch 1, .switch 0]
      ((twoPlans.switch 1 none (some 1)).switch 0 none (some 0)) := by
    iterate 4
      refine .step (.locked fun cpu hc => ?_) ?_
      · cases hc
        rfl
    exact .step (.switch rfl) (.step (.switch rfl) .refl)
  exact smp_safe_of_run run

end Scheduler
