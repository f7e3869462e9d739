import Mathlib

-- The click that the mouse interrupt leaves for a task (kernel/src/signin.rs).

open List

namespace Click

-- How far `take_pending` has come.
inductive Phase
  | ready
  | swapped
  | loaded (x : Nat)

structure State where
  x : Nat
  y : Nat
  pending : Bool
  phase : Phase

inductive Event
  | queueClick (x y : Nat)
  | takePending

-- One step of `take_pending`, or the interrupt, and the pair that is returned with it.
def step (s : State) : Event → State × Option (Nat × Nat)
  | .queueClick x y => ({ s with x, y, pending := true }, none)
  | .takePending =>
    match s.phase with
    | .ready    => ({ s with pending := false, phase := if s.pending then .swapped else .ready }, none)
    | .swapped  => ({ s with phase := .loaded s.x }, none)
    | .loaded x => ({ s with phase := .ready }, some (x, s.y))

def boot : State := { x := 0, y := 0, pending := false, phase := .ready }

def returned : State → List Event → List (Nat × Nat)
  | _, []      => []
  | s, e :: es => (step s e).2.toList ++ returned (step s e).1 es

def Event.click? : Event → Option (Nat × Nat)
  | queueClick x y => some (x, y)
  | takePending    => none

def queued (es : List Event) : List (Nat × Nat) := es.filterMap Event.click?

-- Each returned pair is a queued click of its own, and the last click is returned last.
structure HandedOver (es : List Event) : Prop where
  once : (returned boot es).Subperm (queued es)
  last : ∀ n, 3 ≤ n → (returned boot (es ++ replicate n .takePending)).getLast? = (queued es).getLast?

-- No click comes between the swap of the flag and the loads.
def Undisturbed : State → List Event → Prop
  | _, []      => True
  | s, e :: es => (e.click?.isSome → s.phase = .ready) ∧ Undisturbed (step s e).1 es

-- The clicks so far, the pairs returned so far, and what is on the way.
inductive Inv : List (Nat × Nat) → List (Nat × Nat) → State → Prop
  | settled (h : rs.Sublist cs) (hl : rs.getLast? = cs.getLast?) : Inv cs rs ⟨x, y, false, .ready⟩
  | waiting (h : rs.Sublist cs) : Inv (cs ++ [(x, y)]) rs ⟨x, y, true, .ready⟩
  | swapped (h : rs.Sublist cs) : Inv (cs ++ [(x, y)]) rs ⟨x, y, false, .swapped⟩
  | loaded (h : rs.Sublist cs) : Inv (cs ++ [(x, y)]) rs ⟨x, y, false, .loaded x⟩

namespace Inv

variable {cs rs : List (Nat × Nat)} {s : State} {es : List Event}

theorem sublist (h : Inv cs rs s) : rs.Sublist cs := by
  cases h with
  | settled h => exact h
  | waiting h | swapped h | loaded h => exact h.trans (sublist_append_left ..)

theorem queueClick (h : Inv cs rs s) (hr : s.phase = .ready) : Inv (cs ++ [(x, y)]) rs (step s (.queueClick x y)).1 := by
  cases h with
  | settled h => exact .waiting h
  | waiting h => exact .waiting (h.trans (sublist_append_left ..))
  | swapped | loaded => cases hr

theorem takePending (h : Inv cs rs s) : Inv cs (rs ++ (step s .takePending).2.toList) (step s .takePending).1 := by
  cases h with
  | settled h hl => simpa [step] using .settled h hl
  | waiting h => simpa [step] using .swapped h
  | swapped h => simpa [step] using .loaded h
  | loaded h => exact .settled (h.append (.refl _)) (by simp [step])

theorem returned_settled (n : Nat) : returned ⟨x, y, false, .ready⟩ (replicate n .takePending) = [] := by
  induction n with
  | zero => rfl
  | succ n hi => exact hi

-- Three steps are enough for the click that is on the way.
theorem drain (h : Inv cs rs s) (n : Nat) :
    (rs ++ returned s (replicate (n + 3) .takePending)).getLast? = cs.getLast? := by
  cases h with
  | settled h hl => rw [returned_settled, append_nil, hl]
  | waiting h | swapped h | loaded h => simp [replicate_succ, returned, step, returned_settled]

theorem run (h : Inv cs rs s) (hu : Undisturbed s es) : (rs ++ returned s es).Sublist (cs ++ queued es) ∧
    ∀ n, (rs ++ returned s (es ++ replicate (n + 3) .takePending)).getLast? = (cs ++ queued es).getLast? := by
  induction es generalizing cs rs s with
  | nil =>
    simp only [queued, returned, filterMap_nil, append_nil, nil_append]
    exact ⟨h.sublist, h.drain⟩
  | cons e es hi =>
    cases e with
    | queueClick x y =>
      have hnext := hi (h.queueClick (hu.1 rfl)) hu.2
      simpa [queued, returned, Event.click?, step] using hnext
    | takePending =>
      have hnext := hi h.takePending hu.2
      simpa [queued, returned, filterMap_cons, Event.click?] using hnext

end Inv

theorem handedOver_of_undisturbed (h : Undisturbed boot es) : HandedOver es := by
  have hboot : Inv [] [] boot := .settled .slnil rfl
  obtain ⟨hsub, hlast⟩ := hboot.run h
  refine ⟨hsub.subperm, fun n hn => ?_⟩
  obtain ⟨k, rfl⟩ := Nat.exists_eq_add_of_le' hn
  exact hlast k

theorem handedOver_twice : HandedOver [.queueClick 1 2, .takePending, .takePending, .takePending, .queueClick 3 4] :=
  handedOver_of_undisturbed (by simp [Undisturbed, boot, step, Event.click?])

theorem clicks_mixed : ¬HandedOver [.queueClick 1 2, .takePending, .takePending, .queueClick 3 4, .takePending] := by
  intro h
  have hmem : (1, 4) ∈ [(1, 2), (3, 4)] := h.once.subset (.head _)
  simp at hmem

end Click
