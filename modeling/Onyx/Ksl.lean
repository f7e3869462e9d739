import Onyx.Lib.Execution

-- The kernel-service lock: dropping the guard releases the mutex before it resets HOLDER.

namespace Ksl

open Lib

-- Where a CPU stands between two atomic steps; locking inside its section it panics or spins forever.
inductive Pc
  | idle
  | spinning
  | acquired
  | inside
  | released
  | stuck
  | panicked
  deriving DecidableEq, Repr

-- `none` in HOLDER stands for `usize::MAX`.
structure State where
  locked : Bool
  holder : Option Nat
  pc : Nat → Pc

inductive Event
  -- The next atomic step of `lock` or of the guard's drop.
  | advance (cpu : Nat)
  -- The assertion of a `lock` that is called inside the section.
  | nest (cpu : Nat)

namespace State

def boot : State := ⟨false, none, fun _ => .idle⟩

def go (s : State) (c : Nat) (p : Pc) : State := { s with pc := Function.update s.pc c p }

@[simp, grind =]
theorem locked_go {s : State} : (s.go c p).locked = s.locked := rfl

@[simp, grind =]
theorem holder_go {s : State} : (s.go c p).holder = s.holder := rfl

@[simp, grind =]
theorem pc_go {s : State} : (s.go c p).pc c' = if c' = c then p else s.pc c' := Function.update_apply ..

def heldByThisCpu (s : State) (c : Nat) : Prop := s.holder = some c

def advance (s : State) (c : Nat) : State :=
  match s.pc c with
  | .idle => if s.holder = some c then s.go c .panicked else s.go c .spinning
  | .spinning => if s.locked then s else { s.go c .acquired with locked := true }
  | .acquired => { s.go c .inside with holder := some c }
  | .inside => { s.go c .released with locked := false }
  | .released => { s.go c .idle with holder := none }
  | .stuck | .panicked => s

def nest (s : State) (c : Nat) : State :=
  if s.pc c = .inside then
    if s.holder = some c then s.go c .panicked else s.go c .stuck
  else s

def step (s : State) : Event → State
  | .advance c => s.advance c
  | .nest c => s.nest c

-- Between its store to HOLDER and its release of the mutex.
def Holds (s : State) (c : Nat) : Prop := s.pc c = .inside ∨ s.pc c = .stuck

def AtCode (s : State) (c : Nat) : Prop := s.pc c = .idle ∨ s.pc c = .spinning ∨ s.pc c = .inside

end State

structure Tracked (s : State) : Prop where
  answer : ∀ c, s.AtCode c → (s.heldByThisCpu c ↔ s.Holds c)
  assertion : ∀ c, s.AtCode c → s.holder = some c → s.Holds c

-- HOLDER is reset only while no other CPU is inside.
def Careful (s : State) : Event → Prop
  | .advance c => s.pc c = .released → ∀ c', c' ≠ c → ¬s.Holds c'
  | .nest _ => True

-- What the tracking rests on. A CPU that panicked inside keeps the mutex.
structure Inv (s : State) : Prop where
  locked : ∀ c, s.pc c = .acquired ∨ s.pc c = .inside ∨ s.pc c = .panicked → s.locked = true
  alone : ∀ c c', s.pc c = .acquired ∨ s.pc c = .inside ∨ s.pc c = .panicked →
    s.pc c' = .acquired ∨ s.pc c' = .inside ∨ s.pc c' = .panicked → c = c'
  published : ∀ c, s.pc c = .inside → s.holder = some c
  named : ∀ c, s.holder = some c → s.pc c = .inside ∨ s.pc c = .released ∨ s.pc c = .panicked
  unstuck : ∀ c, s.pc c ≠ .stuck

namespace Inv

variable {s : State} (h : Inv s)

theorem boot : Inv .boot := by
  constructor <;> simp [State.boot]

include h

theorem tracked : Tracked s := by
  have hholds : ∀ c, s.AtCode c → s.holder = some c → s.Holds c := by
    rintro c (hc | hc | hc) hs
    · have := h.named c hs
      simp [hc] at this
    · have := h.named c hs
      simp [hc] at this
    · exact .inl hc
  refine ⟨fun c hc => ⟨hholds c hc, ?_⟩, hholds⟩
  rintro (hin | hin)
  · exact h.published c hin
  · exact absurd hin (h.unstuck c)

theorem advance (c : Nat) (hg : Careful s (.advance c)) : Inv (s.advance c) := by
  obtain ⟨hlocked, halone, hpublished, hnamed, hunstuck⟩ := h
  unfold State.advance
  cases hc : s.pc c with
  | idle =>
    have hs : s.holder ≠ some c := fun hs => by simpa [hc] using hnamed c hs
    rw [if_neg hs]
    constructor <;> grind
  | spinning =>
    dsimp only
    split
    · exact ⟨hlocked, halone, hpublished, hnamed, hunstuck⟩
    · constructor <;> grind
  | acquired => constructor <;> grind
  | inside => constructor <;> grind
  | released =>
    -- nobody else is inside, so that HOLDER names nobody who could miss it
    have hnone : ∀ c', c' ≠ c → s.pc c' ≠ .inside := fun c' hne hin => hg hc c' hne (.inl hin)
    constructor <;> grind
  | stuck => exact absurd hc (hunstuck c)
  | panicked => exact ⟨hlocked, halone, hpublished, hnamed, hunstuck⟩

theorem nest (c : Nat) : Inv (s.nest c) := by
  obtain ⟨hlocked, halone, hpublished, hnamed, hunstuck⟩ := h
  unfold State.nest
  split
  case isTrue hc =>
    rw [if_pos (hpublished c hc)]
    constructor <;> grind
  case isFalse => exact ⟨hlocked, halone, hpublished, hnamed, hunstuck⟩

theorem step (he : Careful s e) : Inv (s.step e) := by
  cases e with
  | advance c => exact h.advance c he
  | nest c => exact h.nest c

-- A reset while another CPU is inside takes its name away.
theorem careful (ht : Tracked (s.step e)) : Careful s e := by
  cases e with
  | nest c => trivial
  | advance c =>
    intro hc c' hne hin
    have hin := hin.resolve_right (h.unstuck c')
    have hstep : s.step (.advance c) = { s.go c .idle with holder := none } := by simp [State.step, State.advance, hc]
    have hpc : (s.step (.advance c)).pc c' = .inside := by
      rw [hstep]
      exact (Function.update_of_ne hne _ _).trans hin
    have hheld : (s.step (.advance c)).holder = some c' := (ht.answer c' (.inr (.inr hpc))).mpr (.inl hpc)
    rw [hstep] at hheld
    cases hheld

end Inv

def run (es : List Event) : State := es.foldl State.step .boot

theorem tracked_iff_careful (es : List Event) :
    (∀ n, Tracked (run (es.take n))) ↔ ∀ n e, es[n]? = some e → Careful (run (es.take n)) e :=
  foldl_law_iff Inv Inv.tracked (fun h => h.step) (fun h => h.careful) Inv.boot es

-- CPU 0 has given the mutex back, CPU 1 goes inside, and CPU 0 resets HOLDER.
def overtaken : List Event := (List.replicate 4 0 ++ List.replicate 3 1 ++ [0]).map .advance

theorem holder_lost : (run overtaken).Holds 1 ∧ ¬(run overtaken).heldByThisCpu 1 ∧ ¬Tracked (run overtaken) := by
  have hin : (run overtaken).pc 1 = .inside := by decide
  have hholder : (run overtaken).holder = none := by decide
  have hlost : ¬(run overtaken).heldByThisCpu 1 := by
    rw [State.heldByThisCpu, hholder]
    nofun
  exact ⟨.inl hin, hlost, fun ht => hlost ((ht.answer 1 (.inr (.inr hin))).mpr (.inl hin))⟩

@[grind]
def Pc.inSection : Pc → Bool
  | acquired | inside | stuck | panicked => true
  | idle | spinning | released => false

structure Exclusive (s : State) (owner : Option Nat) : Prop where
  section_iff : ∀ c, (s.pc c).inSection = true ↔ owner = some c
  locked : s.locked = owner.isSome
  named : ∀ c, s.holder = some c → owner = some c ∨ s.pc c = .released

theorem Exclusive.step (h : Exclusive s owner) : ∃ owner, Exclusive (s.step e) owner := by
  obtain ⟨hsec, hlocked, hnamed⟩ := h
  cases e with
  | nest c =>
    refine ⟨owner, ?_⟩
    rw [State.step, State.nest]
    split_ifs <;> constructor <;> grind
  | advance c =>
    have hc := hsec c
    simp only [State.step, State.advance]
    cases hpc : s.pc c with
    | idle =>
      rw [if_neg fun hs => by grind]
      exact ⟨owner, by constructor <;> grind⟩
    | spinning =>
      dsimp only
      split_ifs with hl
      · exact ⟨owner, hsec, hlocked, hnamed⟩
      · exact ⟨some c, by constructor <;> grind⟩
    | inside => exact ⟨none, by constructor <;> grind⟩
    | acquired | released => exact ⟨owner, by constructor <;> grind⟩
    | stuck | panicked => exact ⟨owner, hsec, hlocked, hnamed⟩

theorem exclusive_run (es : List Event) : ∃ owner, Exclusive (run es) owner := by
  induction es using List.reverseRecOn with
  | nil => exact ⟨none, by simp [run, State.boot, Pc.inSection], rfl, nofun⟩
  | append_singleton es e hi =>
    rw [run, List.foldl_concat]
    exact hi.elim fun _ h => h.step

end Ksl
