import Onyx.Lib.Bytes
import Onyx.Lib.Prog

-- The drive below the file systems (kernel/src/ata.rs), whose hardware does not fail.

open Lib Bytes

inductive AtaError
  | noDrive
  | commandFailed
  | timeout
  | outOfRange
  deriving DecidableEq, Repr

structure AtaDrive where
  totalSectors : Nat
  lba48 : Bool
  -- The contents, by absolute byte address.
  bytes : Nat → UInt8

namespace AtaDrive

def sectorSize : Nat := 512

def lba28Max : Nat := 0x0FFFFFFF

-- The checks of `prepare_lba`, for a transfer of at least one sector.
def InRange (d : AtaDrive) (lba count : Nat) : Prop :=
  lba + count < 2 ^ 64 ∧ lba + count - 1 < d.totalSectors ∧ (lba + count - 1 ≤ lba28Max ∨ d.lba48 = true)

instance (d : AtaDrive) (lba count : Nat) : Decidable (d.InRange lba count) :=
  inferInstanceAs (Decidable (_ ∧ _ ∧ _))

def content (d : AtaDrive) (a n : Nat) : Bytes := (List.range n).map fun i => d.bytes (a + i)

def store (d : AtaDrive) (a : Nat) (b : Bytes) : AtaDrive :=
  { d with bytes := fun x => if a ≤ x ∧ x < a + b.length then b.getD (x - a) 0 else d.bytes x }

-- over, and then the low half. Bits 24 to 31 of the address are in neither.
def highHalf (lba : Nat) : Bytes := [lba >>> 32, lba >>> 40, (lba >>> 48) &&& 0x0F].map UInt8.ofNat

def lowHalf (lba : Nat) : Bytes := [lba, lba >>> 8, lba >>> 16].map UInt8.ofNat

-- The sector where a transfer begins: the drive puts the high half above the low half.
def reach (lba count : Nat) : Nat :=
  if lba + count - 1 ≤ lba28Max then lba else ofLe (lowHalf lba ++ highHalf lba)

def readSectorsRaw (d : AtaDrive) (lba count : Nat) : Except AtaError Bytes :=
  if d.InRange lba count then .ok (d.content (reach lba count * sectorSize) (count * sectorSize))
  else .error .outOfRange

def writeSectorsRaw (d : AtaDrive) (lba count : Nat) (b : Bytes) : Except AtaError AtaDrive :=
  if d.InRange lba count then .ok (d.store (reach lba count * sectorSize) (b.take (count * sectorSize)))
  else .error .outOfRange

-- raw transfers is such a drive, as long as no sector from 2^28 on is asked for.
def readSectors (d : AtaDrive) (lba count : Nat) : Except AtaError Bytes :=
  if d.InRange lba count then .ok (d.content (lba * sectorSize) (count * sectorSize))
  else .error .outOfRange

def writeSectors (d : AtaDrive) (lba count : Nat) (b : Bytes) : Except AtaError AtaDrive :=
  if d.InRange lba count then .ok (d.store (lba * sectorSize) (b.take (count * sectorSize)))
  else .error .outOfRange

variable {d : AtaDrive} {a a' n : Nat} {b : Bytes}

@[simp]
theorem length_content : (d.content a n).length = n := by
  simp [content]

theorem getElem?_content : (d.content a n)[i]? = if i < n then some (d.bytes (a + i)) else none := by
  by_cases h : i < n <;> simp [content, h]

theorem slice_content (h : o + m ≤ n) : (d.content a n).slice o m = d.content (a + o) m := by
  apply List.ext_getElem?
  intro i
  simp only [getElem?_slice, getElem?_content]
  by_cases hi : i < m
  · have : o + i < n := by omega
    simp [hi, this, Nat.add_assoc]
  · simp [hi]

theorem content_congr {d d' : AtaDrive} (h : ∀ x, a ≤ x → x < a + n → d.bytes x = d'.bytes x) :
    d.content a n = d'.content a n := by
  unfold content
  apply List.map_congr_left
  intro i hi
  exact h _ (Nat.le_add_right ..) (Nat.add_lt_add_left (List.mem_range.mp hi) _)

@[simp]
theorem inRange_store : (d.store a b).InRange lba count ↔ d.InRange lba count :=
  Iff.rfl

theorem InRange.mono (h : d.InRange lba count)
    (hc : lba' + count' ≤ lba + count) (hp : 0 < count') : d.InRange lba' count' := by
  have ⟨h1, h2, h3⟩ := h
  refine ⟨by omega, by omega, ?_⟩
  cases h3 with
  | inl h3 => exact .inl (by omega)
  | inr h3 => exact .inr h3

-- Whatever sectors the drive has in this range, their addresses have 28 bits.
def Reached (d : AtaDrive) (lba n : Nat) : Prop :=
  d.lba48 = true → ∀ k, k < n → lba + k < d.totalSectors → lba + k ≤ lba28Max

-- The transfer is in range and goes to the sectors it names.
structure Direct (d : AtaDrive) (lba n : Nat) : Prop where
  inRange : d.InRange lba n
  low : lba + n - 1 ≤ lba28Max

theorem reach_of_low (h : lba + n - 1 ≤ lba28Max) : reach lba n = lba := if_pos h

theorem Reached.mono (h : d.Reached lba n) (h1 : lba ≤ lba') (h2 : lba' + n' ≤ lba + n) :
    d.Reached lba' n' := by
  intro hw k hk ht
  have := h hw (lba' - lba + k) (by omega)
  rw [show lba + (lba' - lba + k) = lba' + k by omega] at this
  exact this ht

theorem Reached.of_low (h : lba + n ≤ lba28Max + 1) : d.Reached lba n := by
  intro _ k hk _
  omega

theorem Reached.direct (h : d.Reached lba n) (hn : n ≠ 0) (hr : d.InRange lba n) : d.Direct lba n := by
  refine ⟨hr, hr.2.2.elim id fun hw => ?_⟩
  have := h hw (n - 1) (by omega)
  rw [show lba + (n - 1) = lba + n - 1 by omega] at this
  exact this hr.2.1

theorem Direct.mono (h : d.Direct lba n) (hc : lba' + n' ≤ lba + n) (hp : 0 < n') :
    d.Direct lba' n' :=
  ⟨h.inRange.mono hc hp, (Nat.sub_le_sub_right hc 1).trans h.low⟩

theorem content_store_self : (d.store a b).content a b.length = b := by
  apply List.ext_getElem?
  intro i
  rw [getElem?_content]
  split_ifs with h
  · simp [store, h]
  · rw [List.getElem?_eq_none (by omega)]

theorem content_store_of_disjoint (h : a' + n ≤ a ∨ a + b.length ≤ a') :
    (d.store a b).content a' n = d.content a' n := by
  apply content_congr
  intro x h1 h2
  simp only [store]
  rw [if_neg (by omega)]

theorem store_patch (h : o + b.length ≤ n) : d.store a ((d.content a n).patch o b) = d.store (a + o) b := by
  have hl : o + b.length ≤ (d.content a n).length := by simpa using h
  unfold store
  congr 1
  funext x
  rw [length_patch hl, length_content, List.getD_eq_getElem?_getD, List.getD_eq_getElem?_getD,
    getElem?_patch hl]
  simp only [getElem?_content]
  by_cases h1 : a ≤ x ∧ x < a + n
  · have hx : a + (x - a) = x := by omega
    have hn : x - a < n := by omega
    by_cases h2 : x - a < o
    · have : ¬ (a + o ≤ x ∧ x < a + o + b.length) := by omega
      simp [h1, h2, this, hn, hx]
    by_cases h3 : x - a < o + b.length
    · have h4 : a + o ≤ x ∧ x < a + o + b.length := by omega
      have h5 : x - a - o = x - (a + o) := by omega
      simp [h1, h2, h3, h4, h5]
    · have : ¬ (a + o ≤ x ∧ x < a + o + b.length) := by omega
      simp [h1, h2, h3, this, hn, hx]
  · have : ¬ (a + o ≤ x ∧ x < a + o + b.length) := by omega
    simp [h1, this]

end AtaDrive
