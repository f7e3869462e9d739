import Onyx.Lib.Bytes

-- Byte strings as bitmaps: bit `i` is bit `i % 8` of byte `i / 8`.

open List

namespace Lib.Bytes

variable {b : Bytes} {i j : Nat}

def bit (b : Bytes) (i : Nat) : Bool := (b.getD (i / 8) 0).toNat.testBit (i % 8)

def mask (i : Nat) : UInt8 := 1 <<< UInt8.ofNat (i % 8)

def setBit (b : Bytes) (i : Nat) : Bytes := b.set (i / 8) (b.getD (i / 8) 0 ||| mask i)

def clearBit (b : Bytes) (i : Nat) : Bytes := b.set (i / 8) (b.getD (i / 8) 0 &&& ~~~ mask i)

def firstClear (b : Bytes) : Option Nat := (range (8 * b.length)).find? fun i => !b.bit i

theorem toNat_mask (i : Nat) : (mask i).toNat = 2 ^ (i % 8) := by
  have h : ∀ k < 8, ((1 : UInt8) <<< UInt8.ofNat k).toNat = 2 ^ k := by decide
  exact h _ (Nat.mod_lt _ (by decide))

@[simp]
theorem length_setBit : (b.setBit i).length = b.length :=
  length_set ..

theorem bit_setBit (h : i / 8 < b.length) : (b.setBit i).bit j = (decide (j = i) || b.bit j) := by
  by_cases hj : j / 8 = i / 8
  · have hd : (decide (i % 8 = j % 8)) = decide (j = i) := by
      rw [decide_eq_decide]
      omega
    simp only [bit, setBit, hj, getD_eq_getElem?_getD, getElem?_set_self h, Option.getD_some,
      UInt8.toNat_or, toNat_mask, Nat.testBit_or, Nat.testBit_two_pow, hd]
    rw [Bool.or_comm]
  · have hne : j ≠ i := fun he => hj (he ▸ rfl)
    simp [bit, setBit, getElem?_set_ne (fun he => hj he.symm), hne]

theorem firstClear_eq_some (h : b.firstClear = some i) : i / 8 < b.length ∧ b.bit i = false := by
  have hm := mem_range.mp (mem_of_find?_eq_some h)
  have hb := find?_some h
  exact ⟨by omega, by simpa using hb⟩

end Lib.Bytes
