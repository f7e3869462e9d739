import Mathlib

-- Byte strings: fields cut out of a buffer, fields written into one, and little-endian numbers.

open List

namespace Lib

section overwrite

variable {α : Type*} {l new new' : List α} {o i : Nat}

def overwrite (l : List α) (o : Nat) (new : List α) : List α :=
  l.take o ++ new ++ l.drop (o + new.length)

theorem length_overwrite (h : o + new.length ≤ l.length) : (overwrite l o new).length = l.length := by
  simp only [overwrite, length_append, length_take, length_drop]
  omega

theorem getElem?_overwrite (h : o + new.length ≤ l.length) : (overwrite l o new)[i]? =
      if i < o then l[i]? else if i < o + new.length then new[i - o]? else l[i]? := by
  have hl : (l.take o).length = o := by simp; omega
  simp only [overwrite, append_assoc, getElem?_append, hl, getElem?_take, getElem?_drop]
  split_ifs <;> first | rfl | omega | (congr 1; omega)

theorem take_overwrite_congr (hl : l.length = l'.length)
    (hp : ∀ p < m, l[p]? = l'[p]?) (ho : o ≤ m) (h : o + new.length ≤ l.length) :
    (overwrite l o new).take (max m (o + new.length)) = (overwrite l' o new).take (max m (o + new.length)) := by
  refine ext_getElem? fun p => ?_
  by_cases hlt : p < max m (o + new.length)
  · rw [getElem?_take_of_lt hlt, getElem?_take_of_lt hlt, getElem?_overwrite h, getElem?_overwrite (hl ▸ h)]
    split_ifs
    · exact hp p (by omega)
    · rfl
    · exact hp p (by omega)
  · rw [getElem?_take_eq_none (Nat.le_of_not_lt hlt), getElem?_take_eq_none (Nat.le_of_not_lt hlt)]

theorem overwrite_singleton (h : o < l.length) : overwrite l o [a] = l.set o a := by
  simp [overwrite, set_eq_take_append_cons_drop, h]

theorem overwrite_set (h : o + 1 + new.length ≤ l.length) :
    overwrite (l.set o a) (o + 1) new = overwrite l o (a :: new) := by
  apply ext_getElem?
  intro i
  rw [getElem?_overwrite (by simpa using h), getElem?_overwrite (by simp; omega), getElem?_set]
  simp only [length_cons]
  by_cases h1 : i = o
  · subst h1
    simp
    omega
  by_cases h2 : i < o
  · have h3 : i < o + 1 := by omega
    have h4 : o ≠ i := fun h => h1 h.symm
    simp [h2, h3, h4]
  have h3 : ¬ i < o + 1 := by omega
  have h4 : o ≠ i := fun h => h1 h.symm
  have h5 : i - o = i - (o + 1) + 1 := by omega
  have h6 : i < o + 1 + new.length ↔ i < o + (new.length + 1) := by omega
  simp [h2, h3, h4, h5, h6]

theorem overwrite_append (h : o ≤ l.length) : overwrite (l ++ l') o new =
      overwrite l o (new.take (min (l.length - o) new.length)) ++
        overwrite l' 0 (new.drop (min (l.length - o) new.length)) := by
  by_cases hn : o + new.length ≤ l.length
  · have hm : min (l.length - o) new.length = new.length := by omega
    simp [hm, overwrite, take_append_of_le_length h, drop_append_of_le_length hn]
  have hm : min (l.length - o) new.length = l.length - o := by omega
  have h1 : o + (l.length - o) = l.length := by omega
  have h2 : o + new.length - l.length = new.length - (l.length - o) := by omega
  have h3 : l.drop (o + new.length) = [] := drop_eq_nil_of_le (by omega)
  have h4 : (new.take (l.length - o)).length = l.length - o := by simp; omega
  simp only [hm, overwrite, take_append_of_le_length h, drop_append, h3, h4, h1, h2,
    drop_length, length_drop, take_zero, zero_add, append_nil,
    nil_append, append_assoc]
  rw [← append_assoc (new.take _), take_append_drop]

theorem overwrite_append_right : overwrite (l ++ l') (l.length + o) new = l ++ overwrite l' o new := by
  have h1 : l.take (l.length + o) = l := take_of_length_le (by omega)
  have h2 : l.drop (l.length + (o + new.length)) = [] := drop_eq_nil_of_le (by omega)
  simp [overwrite, take_append, drop_append, add_assoc, h1, h2]

end overwrite

abbrev Bytes := List UInt8

namespace Bytes

def slice (b : Bytes) (o n : Nat) : Bytes := (b.drop o).take n

def patch (b : Bytes) (o : Nat) (new : Bytes) : Bytes := overwrite b o new

def ofLe : Bytes → Nat
  | [] => 0
  | x :: b => x.toNat + 256 * ofLe b

def toLe : Nat → Nat → Bytes
  | 0, _ => []
  | k + 1, n => .ofNat (n % 256) :: toLe k (n / 256)

def u16At (b : Bytes) (o : Nat) : Nat := ofLe (b.slice o 2)

def u32At (b : Bytes) (o : Nat) : Nat := ofLe (b.slice o 4)

def u64At (b : Bytes) (o : Nat) : Nat := ofLe (b.slice o 8)

theorem forall_byte {P : UInt8 → Prop} (h : ∀ n : Fin 256, P (.ofNat n)) (x : UInt8) : P x := by
  have := h ⟨x.toNat, x.toNat_lt⟩
  rwa [UInt8.ofNat_toNat] at this

section slice

variable {b new : Bytes} {o n i : Nat}

@[simp]
theorem length_slice : (b.slice o n).length = min n (b.length - o) := by
  simp [slice]

theorem getElem?_slice : (b.slice o n)[i]? = if i < n then b[o + i]? else none := by
  simp [slice, getElem?_take]

theorem slice_congr {b b' : Bytes} (h : ∀ i, o ≤ i → i < o + n → b[i]? = b'[i]?) : b.slice o n = b'.slice o n := by
  apply ext_getElem?
  intro i
  simp only [getElem?_slice]
  split_ifs with hi
  · exact h _ (by omega) (by omega)
  · rfl

theorem slice_slice (h : i + m ≤ n) : (b.slice o n).slice i m = b.slice (o + i) m := by
  apply ext_getElem?
  intro j
  simp only [getElem?_slice]
  by_cases hj : j < m
  · have : i + j < n := by omega
    simp [hj, this, add_assoc]
  · simp [hj]

theorem slice_zero (h : b.length = n) : b.slice 0 n = b := by
  simp [slice, ← h]

end slice

section patch

variable {b new : Bytes} {o n i : Nat}

section

variable (h : o + new.length ≤ b.length)
include h

theorem length_patch : (b.patch o new).length = b.length :=
  length_overwrite h

theorem getElem?_patch : (b.patch o new)[i]? =
      if i < o then b[i]? else if i < o + new.length then new[i - o]? else b[i]? :=
  getElem?_overwrite h

theorem slice_patch_self : (b.patch o new).slice o new.length = new := by
  apply ext_getElem?
  intro i
  rw [getElem?_slice, getElem?_patch h]
  split_ifs with h1 h2 h3
  · omega
  · congr 1; omega
  · omega
  · rw [getElem?_eq_none (by omega)]

theorem slice_patch_of_disjoint (hd : i + n ≤ o ∨ o + new.length ≤ i) : (b.patch o new).slice i n = b.slice i n := by
  apply slice_congr
  intro j h1 h2
  rw [getElem?_patch h]
  split_ifs <;> first | rfl | omega

end

-- Several fields written one after the other.
def patches (b : Bytes) (fields : List (Nat × Bytes)) : Bytes :=
  fields.foldl (fun b f => b.patch f.1 f.2) b

variable {fields : List (Nat × Bytes)}

section

variable (h : ∀ f ∈ fields, f.1 + f.2.length ≤ b.length)
include h

theorem length_patches : (b.patches fields).length = b.length := by
  induction fields generalizing b with
  | nil => rfl
  | cons f fields hi =>
    have hl := length_patch (h f (.head _))
    exact (hi fun f hf => hl ▸ h f (.tail _ hf)).trans hl

theorem slice_patches_of_disjoint (hd : ∀ f ∈ fields, i + n ≤ f.1 ∨ f.1 + f.2.length ≤ i) :
    (b.patches fields).slice i n = b.slice i n := by
  induction fields generalizing b with
  | nil => rfl
  | cons f fields hi =>
    have hl := length_patch (h f (.head _))
    exact (hi (fun f hf => hl ▸ h f (.tail _ hf)) fun f hf => hd f (.tail _ hf)).trans
      (slice_patch_of_disjoint (h f (.head _)) (hd f (.head _)))

theorem slice_patches_of_mem (hd : fields.Pairwise fun f g => f.1 + f.2.length ≤ g.1 ∨ g.1 + g.2.length ≤ f.1)
    (hf : (o, new) ∈ fields) : (b.patches fields).slice o new.length = new := by
  induction fields generalizing b with
  | nil => cases hf
  | cons f fields hi =>
    have ⟨hd1, hd2⟩ := pairwise_cons.mp hd
    have hl := length_patch (h f (.head _))
    have h' : ∀ g ∈ fields, g.1 + g.2.length ≤ (b.patch f.1 f.2).length := fun g hg => hl ▸ h g (.tail _ hg)
    cases hf with
    | head => exact (slice_patches_of_disjoint h' hd1).trans (slice_patch_self (h _ (.head _)))
    | tail _ hf => exact hi h' hd2 hf

end

end patch

section le

theorem ofLe_lt (b : Bytes) : ofLe b < 256 ^ b.length := by
  induction b with
  | nil => simp [ofLe]
  | cons x b hi =>
    have := x.toNat_lt
    simp only [ofLe, length_cons, pow_succ]
    omega

theorem ofLe_slice_lt (b : Bytes) (o n : Nat) : ofLe (b.slice o n) < 256 ^ n :=
  lt_of_lt_of_le (ofLe_lt _)
    (Nat.pow_le_pow_right (by decide) (length_slice ▸ Nat.min_le_left ..))

theorem u16At_lt (b : Bytes) (o : Nat) : b.u16At o < 2 ^ 16 :=
  ofLe_slice_lt b o 2

theorem u32At_lt (b : Bytes) (o : Nat) : b.u32At o < 2 ^ 32 :=
  ofLe_slice_lt b o 4

theorem u64At_lt (b : Bytes) (o : Nat) : b.u64At o < 2 ^ 64 :=
  ofLe_slice_lt b o 8

@[simp]
theorem length_toLe (k n : Nat) : (toLe k n).length = k := by
  induction k generalizing n <;> simp [toLe, *]

theorem ofLe_toLe (k n : Nat) (h : n < 256 ^ k) : ofLe (toLe k n) = n := by
  induction k generalizing n with
  | zero => simp at h; simp [toLe, ofLe, h]
  | succ k hi =>
    have hd : n / 256 < 256 ^ k := by
      rw [pow_succ] at h
      exact Nat.div_lt_of_lt_mul (by omega)
    simp only [toLe, ofLe, hi _ hd]
    have : (UInt8.ofNat (n % 256)).toNat = n % 256 := by simp
    omega

end le
end Bytes
end Lib
