import Mathlib

-- A ring of `n` slots. One stays free, so that a full ring and an empty one can be told apart.

open List

namespace Lib

structure Ring (α : Type) (n : Nat) where
  slots : Nat → α
  head : Nat
  tail : Nat
  head_lt : head < n
  tail_lt : tail < n

namespace Ring

variable {α : Type} {n : Nat} {r r' : Ring α n}

def next (n i : Nat) : Nat := (i + 1) % n

theorem next_eq (h : i < n) : next n i = if i + 1 = n then 0 else i + 1 := by
  unfold next
  split
  · simp_all
  · exact Nat.mod_eq_of_lt (by omega)

theorem next_lt (h : i < n) : next n i < n := Nat.mod_lt _ (by omega)

-- A value is dropped when the ring is full.
def push (r : Ring α n) (v : α) : Ring α n :=
  if next n r.head = r.tail then r
  else { r with slots := Function.update r.slots r.head v, head := next n r.head, head_lt := next_lt r.head_lt }

def advance (r : Ring α n) : Ring α n := { r with tail := next n r.tail, tail_lt := next_lt r.tail_lt }

def pop (r : Ring α n) : Option (α × Ring α n) := if r.tail = r.head then none else some (r.slots r.tail, r.advance)

def size (r : Ring α n) : Nat := if r.tail ≤ r.head then r.head - r.tail else r.head + n - r.tail

def full (r : Ring α n) : Prop := next n r.head = r.tail

instance : Decidable r.full := inferInstanceAs (Decidable (_ = _))

def contents (r : Ring α n) : List α := (range r.size).map fun i => r.slots ((r.tail + i) % n)

theorem length_contents : r.contents.length = r.size := by
  rw [contents, length_map, length_range]

theorem size_lt : r.size < n := by
  have h1 := r.head_lt
  have h2 := r.tail_lt
  unfold size
  split <;> omega

theorem index_eq (h : i < n) : (r.tail + i) % n = if r.tail + i < n then r.tail + i else r.tail + i - n := by
  have := r.tail_lt
  split
  case isTrue hlt => exact Nat.mod_eq_of_lt hlt
  case isFalse hge => rw [Nat.mod_eq_sub_mod (by omega), Nat.mod_eq_of_lt (by omega)]

theorem push_of_full (h : r.full) (v : α) : r.push v = r := if_pos h

theorem contents_push (h : ¬r.full) (v : α) : (r.push v).contents = r.contents ++ [v] := by
  have h1 := r.head_lt
  have h2 := r.tail_lt
  have hne : next n r.head ≠ r.tail := h
  rw [next_eq h1] at hne
  have hpush : r.push v =
      { r with slots := Function.update r.slots r.head v, head := next n r.head, head_lt := next_lt r.head_lt } := if_neg h
  have hsize : (r.push v).size = r.size + 1 := by
    rw [hpush]
    simp only [size, next_eq h1]
    by_cases hend : r.head + 1 = n
    · rw [if_pos hend] at hne ⊢
      rw [if_neg (by omega), if_pos (by omega)]
      omega
    rw [if_neg hend] at hne ⊢
    by_cases hle : r.tail ≤ r.head
    · rw [if_pos (by omega), if_pos hle]
      omega
    · rw [if_neg (by omega), if_neg hle]
      omega
  have htail : (r.push v).tail = r.tail := by rw [hpush]
  have hslot (i : Nat) : (r.push v).slots i = if i = r.head then v else r.slots i := by
    rw [hpush, ← Function.update_apply]
  have hlast : (r.tail + r.size) % n = r.head := by
    rw [index_eq size_lt]
    unfold size
    split <;> split <;> omega
  have hkept : ∀ i ∈ range r.size, (r.push v).slots ((r.tail + i) % n) = r.slots ((r.tail + i) % n) := by
    intro i hi
    have hi := mem_range.mp hi
    have hlt := r.size_lt
    rw [hslot, if_neg]
    rw [index_eq (by omega)]
    unfold size at hi
    split <;> split at hi <;> omega
  rw [contents, hsize, htail, range_succ, map_append, map_congr_left hkept, map_singleton, hslot, if_pos hlast]
  rfl

theorem full_iff : r.full ↔ r.contents.length + 1 = n := by
  have h1 := r.head_lt
  have h2 := r.tail_lt
  rw [full, next_eq h1, length_contents, size]
  split <;> split <;> omega

-- Values that arrive while nothing is taken out.
theorem contents_pushes (r : Ring α n) (vs : List α) :
    (vs.foldl push r).contents = r.contents ++ vs.take (n - 1 - r.contents.length) := by
  induction vs generalizing r with
  | nil => simp
  | cons v vs ih =>
    rw [foldl_cons, ih]
    have hlt : r.contents.length < n := length_contents.trans_lt size_lt
    by_cases h : r.full
    · have hlen := full_iff.mp h
      rw [push_of_full h, show n - 1 - r.contents.length = 0 by omega, take_zero, take_zero]
    have hlen := mt full_iff.mpr h
    rw [contents_push h, length_append, length_singleton,
      show n - 1 - r.contents.length = n - 1 - (r.contents.length + 1) + 1 by omega, take_succ_cons, append_assoc]
    rfl

theorem contents_eq_nil : r.contents = [] ↔ r.tail = r.head := by
  have h2 := r.tail_lt
  rw [← length_eq_zero_iff, length_contents, size]
  split <;> omega

theorem size_advance (h : r.tail ≠ r.head) : r.advance.size + 1 = r.size := by
  have h1 := r.head_lt
  have h2 := r.tail_lt
  simp only [size, advance, next_eq h2]
  by_cases hend : r.tail + 1 = n
  · rw [if_pos hend, if_pos (Nat.zero_le _), if_neg (by omega)]
    omega
  rw [if_neg hend]
  by_cases hle : r.tail ≤ r.head
  · rw [if_pos (by omega), if_pos hle]
    omega
  · rw [if_neg (by omega), if_neg hle]
    omega

theorem contents_eq_cons (h : r.tail ≠ r.head) : r.contents = r.slots r.tail :: r.advance.contents := by
  have hindex (i : Nat) : (r.advance.tail + i) % n = (r.tail + (i + 1)) % n := by
    show ((r.tail + 1) % n + i) % n = _
    rw [Nat.mod_add_mod, Nat.add_assoc, Nat.add_comm 1]
  rw [contents, ← size_advance h, range_succ_eq_map, map_cons, map_map, Nat.add_zero, Nat.mod_eq_of_lt r.tail_lt]
  exact congrArg (cons _) (map_congr_left fun i _ => congrArg r.slots (hindex i).symm)

theorem pop_of_empty (h : r.contents = []) : r.pop = none := if_pos (contents_eq_nil.mp h)

theorem pop_of_contents (h : r.contents = v :: l) : r.pop = some (v, r.advance) ∧ r.advance.contents = l := by
  have hne : r.tail ≠ r.head := fun heq => cons_ne_nil v l (h ▸ contents_eq_nil.mpr heq)
  rw [contents_eq_cons hne] at h
  have ⟨hv, hl⟩ := cons.inj h
  exact ⟨(if_neg hne).trans (hv ▸ rfl), hl⟩

end Ring

-- A ring of `n` slots that counts its values, so that all slots can be in use.
structure Fifo (α : Type) (n : Nat) where
  slots : Nat → α
  head : Nat
  tail : Nat
  count : Nat
  tail_lt : tail < n
  count_le : count ≤ n
  head_eq : head = (tail + count) % n

namespace Fifo

variable {α : Type} {n : Nat}

def contents (r : Fifo α n) : List α := (range r.count).map fun i => r.slots ((r.tail + i) % n)

def push (r : Fifo α n) (v : α) (h : r.count < n) : Fifo α n where
  slots := Function.update r.slots r.head v
  head := (r.head + 1) % n
  tail := r.tail
  count := r.count + 1
  tail_lt := r.tail_lt
  count_le := h
  head_eq := by rw [r.head_eq, Nat.mod_add_mod, Nat.add_assoc]

def advance (r : Fifo α n) (h : 0 < r.count) : Fifo α n where
  slots := r.slots
  head := r.head
  tail := (r.tail + 1) % n
  count := r.count - 1
  tail_lt := Nat.mod_lt _ (Nat.zero_lt_of_lt r.tail_lt)
  count_le := (Nat.sub_le ..).trans r.count_le
  head_eq := by rw [r.head_eq, Nat.mod_add_mod, show r.tail + 1 + (r.count - 1) = r.tail + r.count by omega]

def clear (r : Fifo α n) : Fifo α n where
  slots := r.slots
  head := r.head
  tail := r.head
  count := 0
  tail_lt := r.head_eq ▸ Nat.mod_lt _ (Nat.zero_lt_of_lt r.tail_lt)
  count_le := Nat.zero_le n
  head_eq := by rw [r.head_eq, Nat.add_zero, Nat.mod_mod]

variable {r : Fifo α n}

theorem length_contents : r.contents.length = r.count := by
  rw [contents, length_map, length_range]

theorem contents_push (v : α) (h : r.count < n) : (r.push v h).contents = r.contents ++ [v] := by
  have hkept : ∀ i ∈ range r.count, (r.push v h).slots ((r.tail + i) % n) = r.slots ((r.tail + i) % n) := by
    intro i hi
    have hi := mem_range.mp hi
    refine Function.update_of_ne (fun heq => ?_) ..
    rw [r.head_eq] at heq
    have heq := Nat.ModEq.add_left_cancel' r.tail heq
    rw [Nat.ModEq, Nat.mod_eq_of_lt (by omega), Nat.mod_eq_of_lt h] at heq
    omega
  have hlast : (r.push v h).slots ((r.tail + r.count) % n) = v := r.head_eq ▸ Function.update_self ..
  show (range (r.count + 1)).map _ = _
  rw [range_succ, map_append, contents, ← map_congr_left hkept]
  exact congrArg (_ ++ [·]) hlast

theorem contents_eq_cons (h : 0 < r.count) : r.contents = r.slots r.tail :: (r.advance h).contents := by
  have hindex (i : Nat) : ((r.tail + 1) % n + i) % n = (r.tail + (i + 1)) % n := by
    rw [Nat.mod_add_mod, Nat.add_assoc, Nat.add_comm 1]
  rw [contents, ← Nat.sub_add_cancel h, range_succ_eq_map, map_cons, map_map, Nat.add_zero, Nat.mod_eq_of_lt r.tail_lt]
  exact congrArg (cons _) (map_congr_left fun i _ => congrArg r.slots (hindex i).symm)

end Fifo
end Lib
