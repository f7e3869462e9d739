import Onyx.Lib.Execution

-- The SMAP window: user pages may be touched only while the CPU's AC is set.

namespace Sec

open Lib

-- The stub of a system call, a running `with_stac` closure, and interrupt frames.
inductive Frame
  | syscall (userAc : Bool)
  | window
  | irq (ac : Bool)
  deriving DecidableEq, Repr

structure Machine where
  ac : Nat → Bool
  running : Nat → Nat
  frames : Nat → List Frame
  ring3 : Nat → Bool

def InWindow : List Frame → Prop
  | .syscall _ :: _ | .window :: _ => True
  | _ => False

namespace Machine

def stack (m : Machine) (c : Nat) : List Frame := m.frames (m.running c)

def InUser (m : Machine) (c : Nat) : Prop := m.ring3 (m.running c) = true ∧ m.stack c = []

-- A step of CPU `c` that changes its flag and the stack of the context it runs.
def set (m : Machine) (c : Nat) (ac : Bool) (frames : List Frame) : Machine :=
  { m with ac := Function.update m.ac c ac, frames := Function.update m.frames (m.running c) frames }

def switch (m : Machine) (c i : Nat) : Machine :=
  { m with running := Function.update m.running c i }

end Machine

inductive Event
  | flags (c : Nat) (ac : Bool)
  | syscall (c : Nat)
  | sysret (c : Nat)
  | enter (c : Nat)
  | leave (c : Nat)
  | interrupt (c : Nat)
  | iret (c : Nat)
  | switch (c i : Nat)
  | access (c : Nat)

inductive Step : Machine → Event → Machine → Prop
  -- A user program sets its own flags.
  | flags : m.InUser c → Step m (.flags c ac) (m.set c ac [])
  -- SFMASK clears AC, and the stub's `stac` sets it.
  | syscall : m.InUser c → Step m (.syscall c) (m.set c true [.syscall (m.ac c)])
  -- The stub's `clac`, then `sysretq`.
  | sysret : m.stack c = [.syscall ac] → Step m (.sysret c) (m.set c ac [])
  | enter : ¬m.InUser c → Step m (.enter c) (m.set c true (.window :: m.stack c))
  | leave : m.stack c = .window :: fs → Step m (.leave c) (m.set c false fs)
  | interrupt : Step m (.interrupt c) (m.set c (m.ac c) (.irq (m.ac c) :: m.stack c))
  | iret : m.stack c = .irq ac :: fs → Step m (.iret c) (m.set c ac fs)
  -- `context_switch`: registers and stack change, AC stays what it is.
  | switch : ¬m.InUser c → (∀ c', m.running c' ≠ i) → Step m (.switch c i) (m.switch c i)
  | access : InWindow (m.stack c) → Step m (.access c) m

structure Boot (m : Machine) : Prop where
  frames : ∀ i, m.frames i = [] ∨ m.frames i = [.irq false]
  running : ∀ {c c'}, m.running c = m.running c' → c = c'

def Unbroken (m : Machine) : Event → Prop
  | .leave c => ¬InWindow (m.stack c).tail
  | .switch c i => InWindow (m.frames i) → m.ac c = true
  | _ => True

-- The flags an interrupt frame gives back are right for the window it interrupted.
def Restores : List Frame → Prop
  | [] => True
  | .irq ac :: fs => (InWindow fs → ac = true) ∧ Restores fs
  | _ :: fs => Restores fs

structure Held (m : Machine) : Prop where
  window : ∀ c, InWindow (m.stack c) → m.ac c = true
  saved : ∀ i, Restores (m.frames i)
  running : ∀ {c c'}, m.running c = m.running c' → c = c'

namespace Held

theorem boot (h : Boot m) : Held m where
  window c hw := by
    rcases h.frames (m.running c) with hf | hf
    all_goals
      rw [Machine.stack, hf] at hw
      exact hw.elim
  saved i := by
    rcases h.frames i with hf | hf
    · rw [hf]
      trivial
    · rw [hf]
      exact ⟨False.elim, trivial⟩
  running := h.running

theorem set (h : Held m) (hw : InWindow fs → ac = true) (hr : Restores fs) : Held (m.set c ac fs) where
  window c' hc' := by
    by_cases hcc : c' = c
    · subst hcc
      simp only [Machine.stack, Machine.set, Function.update_self] at hc' ⊢
      exact hw hc'
    · have hne : m.running c' ≠ m.running c := fun he => hcc (h.running he)
      simp only [Machine.stack, Machine.set, Function.update_of_ne hne] at hc'
      simp only [Machine.set, Function.update_of_ne hcc]
      exact h.window c' hc'
  saved i := by
    by_cases hi : i = m.running c
    · simp only [Machine.set, hi, Function.update_self]
      exact hr
    · simp only [Machine.set, Function.update_of_ne hi]
      exact h.saved i
  running := h.running

theorem switch (h : Held m) (hi : ∀ c', m.running c' ≠ i) (hw : InWindow (m.frames i) → m.ac c = true) :
    Held (m.switch c i) where
  window c' hc' := by
    by_cases hcc : c' = c
    · subst hcc
      simp only [Machine.stack, Machine.switch, Function.update_self] at hc'
      exact hw hc'
    · simp only [Machine.stack, Machine.switch, Function.update_of_ne hcc] at hc'
      exact h.window c' hc'
  saved := h.saved
  running {c1 c2} he := by
    simp only [Machine.switch, Function.update_apply] at he
    split_ifs at he with h1 h2 h2
    · exact h1.trans h2.symm
    · exact absurd he.symm (hi c2)
    · exact absurd he (hi c1)
    · exact h.running he

theorem step (e : Guarded Step Unbroken m event t) (h : Held m) : Held t := by
  have ⟨hg, e⟩ := e
  have hs (c : Nat) : Restores (m.stack c) := h.saved _
  cases e with
  | flags => exact h.set False.elim trivial
  | syscall => exact h.set (fun _ => rfl) trivial
  | sysret => exact h.set False.elim trivial
  | enter => exact h.set (fun _ => rfl) (hs _)
  | leave hst =>
    rename_i fs c
    have hr : Restores (.window :: fs) := hst ▸ hs c
    have hg : ¬InWindow (m.stack c).tail := hg
    rw [hst] at hg
    exact h.set (fun hw => absurd hw hg) hr
  | interrupt => exact h.set False.elim ⟨h.window _, hs _⟩
  | iret hst =>
    rename_i fs c ac
    have hr : Restores (.irq ac :: fs) := hst ▸ hs c
    exact h.set hr.1 hr.2
  | switch _ hi => exact h.switch hi hg
  | access => exact h

end Held

-- Along every run in which no window is broken, AC is set at every access from within one.
theorem ac_set_at_access (hb : Boot m0) (e : Execution (Guarded Step Unbroken) m0 events m)
    (ha : Step m (.access c) t) : m.ac c = true := by
  have h := e.invariant (fun e h => Held.step e h) (Held.boot hb)
  cases ha with
  | access hw => exact h.window c hw

-- CPU 0 runs context 0, the other CPUs contexts from 2 on; context 1 is ready to run.
def twoPrograms : Machine where
  ac _ := false
  running c := if c = 0 then 0 else c + 1
  frames i := if i = 1 then [.irq false] else []
  ring3 _ := true

theorem boot_twoPrograms : Boot twoPrograms where
  frames i := by
    by_cases h : i = 1
    · exact .inr (if_pos h)
    · exact .inl (if_neg h)
  running {c c'} h := by
    simp only [twoPrograms] at h
    split_ifs at h <;> omega

theorem running_ne_one : ∀ c, twoPrograms.running c ≠ 1 := fun c => by
  simp only [twoPrograms]
  split_ifs <;> omega

theorem running_ne_zero : ∀ c, Function.update twoPrograms.running 0 1 c ≠ 0 := fun c => by
  simp only [twoPrograms, Function.update_apply]
  split_ifs <;> omega

def handingBack : List Event :=
  [.syscall 0, .interrupt 0, .enter 0, .leave 0, .iret 0, .switch 0 1, .iret 0, .syscall 0, .switch 0 0]

theorem ac_set_in_syscall :
    ∃ m, Execution (Guarded Step Unbroken) twoPrograms handingBack m ∧ Step m (.access 0) m ∧ m.ac 0 = true := by
  suffices h : ∃ m, Execution (Guarded Step Unbroken) twoPrograms handingBack m ∧ Step m (.access 0) m from
    have ⟨m, e, ha⟩ := h
    ⟨m, e, ha, ac_set_at_access boot_twoPrograms e ha⟩
  apply Exists.intro
  apply And.intro
  · apply Execution.step ⟨trivial, .syscall ⟨rfl, rfl⟩⟩
    apply Execution.step ⟨trivial, .interrupt⟩
    apply Execution.step ⟨trivial, .enter fun h => nomatch h.2⟩
    apply Execution.step ⟨id, .leave rfl⟩
    apply Execution.step ⟨trivial, .iret rfl⟩
    apply Execution.step ⟨False.elim, .switch (fun h => nomatch h.2) running_ne_one⟩
    apply Execution.step ⟨trivial, .iret rfl⟩
    apply Execution.step ⟨trivial, .syscall ⟨rfl, rfl⟩⟩
    apply Execution.step ⟨fun _ => rfl, .switch (fun h => nomatch h.2) running_ne_zero⟩
    exact .refl
  · exact .access trivial

theorem ac_lost_in_window :
    (∃ m, Execution Step twoPrograms [.syscall 0, .switch 0 1, .iret 0, .interrupt 0, .switch 0 0] m ∧
      Step m (.access 0) m ∧ m.ac 0 = false) ∧
    ∃ m, Execution Step twoPrograms [.syscall 0, .enter 0, .leave 0] m ∧ Step m (.access 0) m ∧ m.ac 0 = false := by
  have hs : Step twoPrograms (.syscall 0) (twoPrograms.set 0 true [.syscall false]) := .syscall ⟨rfl, rfl⟩
  constructor
  · refine ⟨_, .step hs (.step (.switch ?_ running_ne_one) (.step (.iret rfl) (.step .interrupt
      (.step (.switch ?_ running_ne_zero) .refl)))), .access trivial, rfl⟩
    all_goals exact fun h => nomatch h.2
  · refine ⟨_, .step hs (.step (.enter ?_) (.step (.leave rfl) .refl)), .access trivial, rfl⟩
    exact fun h => nomatch h.2

end Sec
