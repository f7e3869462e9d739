import Onyx.Userspace.Elf

-- What `elf_region` refuses, on what it panics, and what holds of the other images.

open Lib List

namespace Userspace

theorem pageDown_mod (a : Nat) : pageDown a % pageSize = 0 := by
  rw [pageDown, pageSize_eq]
  omega

namespace Image

variable (elf : Image)

def ph (i : Nat) : Nat := elf.phoff + i * elf.phentsize

def IsLoad (i : Nat) : Prop := elf.value 4 (elf.ph i) = ptLoad

instance : DecidablePred elf.IsLoad := fun _ => inferInstanceAs (Decidable (_ = _))

def flags (i : Nat) : Nat := elf.value 4 (elf.ph i + 4)

def offset (i : Nat) : Nat := elf.value 8 (elf.ph i + 8)

def vaddr (i : Nat) : Nat := elf.value 8 (elf.ph i + 16)

def filesz (i : Nat) : Nat := elf.value 8 (elf.ph i + 32)

def memsz (i : Nat) : Nat := elf.value 8 (elf.ph i + 40)

-- The pages of a segment at its preferred address: from `low` to `high`.
def low (i : Nat) : Nat := pageDown (elf.vaddr i)

def high (i : Nat) : Nat := pageDown (elf.vaddr i + elf.memsz i + pageMask)

-- What the scan needs of header `i`.
structure Scannable (i : Nat) : Prop where
  type : elf.ph i + 4 ≤ elf.len
  sizes : elf.IsLoad i → elf.ph i + 48 ≤ elf.len
  fits : elf.IsLoad i → elf.vaddr i + elf.memsz i + pageMask < 2 ^ 64

-- The lowest and the highest page bound of the PT_LOAD segments.
def lowest : Nat :=
  (range elf.phnum).foldl (fun m i => if elf.IsLoad i then min m (elf.low i) else m) (2 ^ 64 - 1)

def highest : Nat :=
  (range elf.phnum).foldl (fun m i => if elf.IsLoad i then max m (elf.high i) else m) 0

end Image

variable {elf : Image}

section

variable {l : List Nat} {P : Nat → Prop} [DecidablePred P] {f : Nat → Nat}

theorem le_foldl_min_iff : n ≤ l.foldl (fun m i => if P i then min m (f i) else m) m ↔ n ≤ m ∧ ∀ i ∈ l, P i → n ≤ f i := by
  induction l generalizing m with
  | nil => simp
  | cons a l ih => by_cases ha : P a <;> simp [ih, ha, and_assoc]

theorem foldl_max_le_iff : l.foldl (fun m i => if P i then max m (f i) else m) m ≤ n ↔ m ≤ n ∧ ∀ i ∈ l, P i → f i ≤ n := by
  induction l generalizing m with
  | nil => simp
  | cons a l ih => by_cases ha : P a <;> simp [ih, ha, and_assoc]

theorem foldl_min_mem : l.foldl (fun m i => if P i then min m (f i) else m) m = m ∨
    ∃ i ∈ l, P i ∧ l.foldl (fun m i => if P i then min m (f i) else m) m = f i := by
  induction l generalizing m with
  | nil => exact .inl rfl
  | cons a l ih =>
    simp only [foldl_cons, exists_mem_cons_iff]
    rcases ih (m := if P a then min m (f a) else m) with h | h
    · rw [h]
      split
      case isTrue ha => exact (min_choice m (f a)).imp id fun h => .inl ⟨ha, h⟩
      case isFalse => exact .inl rfl
    · exact .inr (.inr h)

end

namespace Image

theorem lowest_le (hi : i < elf.phnum) (hl : elf.IsLoad i) : elf.lowest ≤ elf.low i :=
  (le_foldl_min_iff.mp le_rfl).2 i (mem_range.mpr hi) hl

theorem high_le_highest (hi : i < elf.phnum) (hl : elf.IsLoad i) : elf.high i ≤ elf.highest :=
  (foldl_max_le_iff.mp le_rfl).2 i (mem_range.mpr hi) hl

theorem lowest_mem (h : elf.lowest ≠ 2 ^ 64 - 1) : ∃ i < elf.phnum, elf.IsLoad i ∧ elf.lowest = elf.low i :=
  have ⟨i, hi, hm⟩ := foldl_min_mem.resolve_left h
  ⟨i, mem_range.mp hi, hm⟩

theorem exact_regionStep :
    Exact (regionStep elf elf.phoff elf.phentsize extent i) (elf.ph i < 2 ^ 64 ∧ 2 ^ 64 ≤ elf.ph i + 4) (elf.Scannable i)
      (if elf.IsLoad i then (min extent.1 (elf.low i), max extent.2 (elf.high i)) else extent) := by
  have := elf.len_lt
  refine .congr (.bind exact_tableEntry fun _ => .bind exact_rd fun _ => .cases (fun _ => .bind exact_field fun _ =>
    .bind exact_field fun _ => .bind exact_fits fun _ => .bind exact_fits fun _ => .ok) fun _ => .ok) ?_ ?_
  · grind [ph]
  · constructor
    · intro h
      exact ⟨by grind [ph], by grind [ph, IsLoad], by grind [ph, IsLoad, vaddr, memsz]⟩
    · rintro ⟨htype, hsizes, hfits⟩
      grind [ph, IsLoad, vaddr, memsz]

private theorem foldl_extent {l : List Nat} {P : Nat → Prop} [DecidablePred P] {f g : Nat → Nat} :
    l.foldl (fun e i => if P i then (min e.1 (f i), max e.2 (g i)) else e) (lo, hi) =
      (l.foldl (fun m i => if P i then min m (f i) else m) lo, l.foldl (fun m i => if P i then max m (g i) else m) hi) := by
  induction l generalizing lo hi with
  | nil => rfl
  | cons a l ih =>
    simp only [foldl_cons]
    by_cases ha : P a <;> simp [ha, ih]

theorem exact_scan : Exact ((range elf.phnum).foldlM (regionStep elf elf.phoff elf.phentsize) (2 ^ 64 - 1, 0))
      (0 < elf.phnum ∧ 2 ^ 64 ≤ elf.phoff + 4) (∀ i, i < elf.phnum → elf.Scannable i) (elf.lowest, elf.highest) := by
  have hlen := elf.len_lt
  have hoff : elf.phoff < 2 ^ 64 := elf.value_lt 8 32
  have hsize : elf.phentsize < 2 ^ 16 := elf.value_lt 2 54
  have hnum : elf.phnum < 2 ^ 16 := elf.value_lt 2 56
  have hfold := Exact.foldlM_range (n := elf.phnum) (b := (2 ^ 64 - 1, 0)) fun e i _ => @exact_regionStep elf e i
  rw [foldl_extent] at hfold
  refine hfold.congr ⟨?_, fun ⟨hpos, hbad⟩ => ?_⟩ Iff.rfl
  · rintro ⟨k, hk, hgood, hph, hbad⟩
    match k with
    | 0 => exact ⟨hk, by simpa [ph] using hbad⟩
    | k + 1 =>
      have h0 : elf.ph 0 + 4 ≤ elf.len := (hgood 0 (Nat.succ_pos k)).type
      have hskip : (k + 1) * elf.phentsize ≤ 2 ^ 16 * 2 ^ 16 := Nat.mul_le_mul (by omega) (by omega)
      simp only [ph, Nat.zero_mul] at h0 hbad
      omega
  · exact ⟨0, hpos, nofun, by simpa [ph] using hoff, by simpa [ph] using hbad⟩

def Dyn (elf : Image) : Prop := elf.eType = etDyn

instance : Decidable elf.Dyn := inferInstanceAs (Decidable (_ = _))

-- The region of an image whose segments reach from `lo` to `hi`.
def region (elf : Image) : Nat × Nat :=
  if elf.Dyn then (lnxPieLoadBase, lnxPieLoadBase + (elf.highest - elf.lowest)) else (elf.lowest, elf.highest)

theorem exact_mapExtent :
    Exact (mapExtent elf.eType elf.lowest elf.highest) (elf.Dyn ∧ 2 ^ 64 ≤ lnxPieLoadBase + (elf.highest - elf.lowest))
      (elf.Dyn → elf.region.2 < 2 ^ 64) elf.region :=
  .congr (.cases (fun _ => .bind .checked fun _ => .ok) fun _ => .ok) (by grind [Dyn]) (by grind [Dyn, region])

theorem exact_placeExtent : Exact (placeExtent elf.eType elf.lowest elf.highest)
      (elf.lowest ≠ 2 ^ 64 - 1 ∧ elf.lowest < elf.highest ∧ elf.Dyn ∧ 2 ^ 64 ≤ lnxPieLoadBase + (elf.highest - elf.lowest))
      (elf.lowest ≠ 2 ^ 64 - 1 ∧ elf.lowest < elf.highest ∧ userTextBase ≤ elf.region.1 ∧ elf.region.2 ≤ userMaxAddr)
      elf.region := by
  have hmax : userMaxAddr < 2 ^ 64 := by decide
  refine .congr (.ite (fun _ => .fail) fun _ => .bind exact_mapExtent fun _ => .ite (fun _ => .fail) fun _ => .ok) ?_ ?_
  · grind
  · grind

structure Placed (elf : Image) : Prop where
  elf64 : elf.Elf64
  phentsize : 56 ≤ elf.phentsize
  scannable : ∀ {i : Nat}, i < elf.phnum → elf.Scannable i
  some : elf.lowest ≠ 2 ^ 64 - 1
  nonempty : elf.lowest < elf.highest
  above : userTextBase ≤ elf.region.1
  below : elf.region.2 ≤ userMaxAddr

theorem exact_elfRegion : Exact (elfRegion elf) (elf.Elf64 ∧ 56 ≤ elf.phentsize ∧
      (0 < elf.phnum ∧ 2 ^ 64 ≤ elf.phoff + 4 ∨
       (∀ i, i < elf.phnum → elf.Scannable i) ∧ elf.lowest ≠ 2 ^ 64 - 1 ∧ elf.lowest < elf.highest ∧ elf.Dyn ∧
         2 ^ 64 ≤ lnxPieLoadBase + (elf.highest - elf.lowest))) elf.Placed elf.region := by
  have hlen : elf.Elf64 → 64 ≤ elf.len := And.left
  refine .congr (.ite (fun _ => .fail) fun _ => .bind exact_rd fun _ => .bind exact_rd fun _ => .bind exact_rd fun _ =>
    .bind exact_rd fun _ => .ite (fun _ => .fail) fun _ => .bind exact_scan fun _ => exact_placeExtent) ?_ ?_
  · grind [phentsize]
  · constructor
    · intro h
      exact ⟨by grind, by grind [phentsize], by grind, by grind, by grind, by grind, by grind⟩
    · rintro ⟨h1, h2, h3, h4, h5, h6, h7⟩
      grind [phentsize]

end Image
end Userspace
