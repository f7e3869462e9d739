import Mathlib

-- Bisection of an index range by a comparison that may fail.

namespace Lib

-- `probe i` says on which side of `i` the target lies; `out` gets the index where the range closed.
def bisect (probe : Nat → Option Ordering) (out : Nat → Option Nat) : Nat → Nat → Nat → Option Nat
  | 0, lo, _ => out lo
  | fuel + 1, lo, hi =>
    if lo < hi then
      match probe ((lo + hi) / 2) with
      | none => none
      | some .lt => bisect probe out fuel lo ((lo + hi) / 2)
      | some .gt => bisect probe out fuel ((lo + hi) / 2 + 1) hi
      | some .eq => some ((lo + hi) / 2)
    else
      out lo

-- The probes below `n` are answered by `ord`, and the answers are sorted.
structure Probed (probe : Nat → Option Ordering) (n : Nat) (ord : Nat → Ordering) : Prop where
  answered : ∀ i < n, probe i = some (ord i)
  below  : ∀ i j, i ≤ j → j < n → ord j = .gt → ord i = .gt
  above  : ∀ i j, i ≤ j → j < n → ord i = .lt → ord j = .lt

def Splits (ord : Nat → Ordering) (n k : Nat) : Prop :=
  k ≤ n ∧ (∀ i < k, ord i = .gt) ∧ ∀ i, k ≤ i → i < n → ord i = .lt

-- What lies outside the range left of the bisection is on its side already.
theorem Probed.bisect_range (h : Probed probe n ord) (hf : hi - lo ≤ fuel) (hle : lo ≤ hi) (hn : hi ≤ n)
    (hlo : ∀ i < lo, ord i = .gt) (hhi : ∀ i, hi ≤ i → i < n → ord i = .lt) :
    (∃ i < n, ord i = .eq ∧ bisect probe out fuel lo hi = some i) ∨
      ∃ k, Splits ord n k ∧ bisect probe out fuel lo hi = out k := by
  induction fuel generalizing lo hi with
  | zero =>
    obtain rfl : lo = hi := by omega
    exact .inr ⟨lo, ⟨hn, hlo, hhi⟩, rfl⟩
  | succ fuel ih =>
    by_cases hlt : lo < hi
    · have hm : (lo + hi) / 2 < n := by omega
      have hp := h.answered _ hm
      cases ho : ord ((lo + hi) / 2) with
      | lt =>
        rw [ho] at hp
        simp only [bisect, if_pos hlt, hp]
        exact ih (by omega) (by omega) (by omega) hlo fun i hi' hin => h.above _ i hi' hin ho
      | eq =>
        rw [ho] at hp
        exact .inl ⟨_, hm, ho, by simp [bisect, if_pos hlt, hp]⟩
      | gt =>
        rw [ho] at hp
        simp only [bisect, if_pos hlt, hp]
        exact ih (by omega) (by omega) hn (fun i hi' => h.below i _ (by omega) hm ho) hhi
    · obtain rfl : lo = hi := by omega
      exact .inr ⟨lo, ⟨hn, hlo, hhi⟩, by simp [bisect]⟩

theorem Probed.bisect (h : Probed probe n ord) (out : Nat → Option Nat) :
    (∃ i < n, ord i = .eq ∧ Lib.bisect probe out n 0 n = some i) ∨
      ∃ k, Splits ord n k ∧ Lib.bisect probe out n 0 n = out k :=
  h.bisect_range (by omega) (by omega) (by omega) (fun _ hi => absurd hi (by omega)) fun _ _ _ => by
    omega

end Lib
