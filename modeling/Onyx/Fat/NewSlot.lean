import Onyx.Fat.Dirent

-- The slots of a new entry: what the driver reads back from them.

open Lib Fat Bytes
open List hiding sum

namespace Fat

variable {name : Text} {short : Bytes} {b : UInt8}

theorem length_utf8 (s : Text) : (utf8 s).length = s.len := by
  simp [utf8, Text.len, length_flatMap]

theorem utf8_ne_nil (h : name ≠ []) : utf8 name ≠ [] := by
  cases name with
  | nil => exact absurd rfl h
  | cons c s =>
    rw [utf8, flatMap_cons]
    exact append_ne_nil_of_left_ne_nil String.utf8EncodeChar_ne_nil _

def GoodFirst (b : UInt8) : Prop :=
  b ≠ slotEnd ∧ b ≠ slotDeleted ∧ b ≠ 0x05 ∧ b ≠ 32 ∧ b ≠ 46

theorem goodFirst_of_isNameByte (h : isNameByte b = true) : GoodFirst (toAsciiUppercase b) := by
  refine forall_byte (P := fun b => isNameByte b = true → GoodFirst (toAsciiUppercase b)) ?_ b h
  unfold GoodFirst
  decide +kernel

theorem goodFirst_of_mem_upper (h : ∀ b ∈ utf8 name, isNameByte b = true) (hx : x ∈ (utf8 name).map toAsciiUppercase) :
    GoodFirst x := by
  obtain ⟨b, hb, rfl⟩ := mem_map.mp hx
  exact goodFirst_of_isNameByte (h b hb)

theorem makeShortName_cases (h : makeShortName name = .ok short) :
    ∃ base ext, splitExt name = (base, ext) ∧ base ≠ [] ∧ (utf8 base).length ≤ 8 ∧ (utf8 ext).length ≤ 3 ∧
      (∀ b ∈ utf8 base, isNameByte b = true) ∧ (∀ b ∈ utf8 ext, isAsciiAlphanumeric b = true) ∧
      short = (utf8 base).map toAsciiUppercase ++ List.replicate (8 - (utf8 base).length) 32 ++
        ((utf8 ext).map toAsciiUppercase ++ List.replicate (3 - (utf8 ext).length) 32) := by
  unfold makeShortName at h
  simp only at h
  split_ifs at h with _ hlen hbase hext
  any_goals simp [fail] at h
  simp only [not_or, Nat.not_lt] at hlen
  simp only [Bool.not_eq_true, Bool.not_eq_false', all_eq_true] at hbase hext
  obtain ⟨hne, h1, h2, _⟩ := hlen
  rw [← length_utf8] at h1 h2
  refine ⟨(splitExt name).1, (splitExt name).2, rfl, hne, h1, h2, hbase, hext, ?_⟩
  rw [← h, append_assoc]

theorem makeShortName_eq_ok (h : makeShortName name = .ok short) :
    short.length = 11 ∧ ∃ x rest, short = x :: rest ∧ GoodFirst x := by
  have ⟨base, ext, _, hne, hb, he, hname, _, heq⟩ := makeShortName_cases h
  rw [heq]
  constructor
  · simp only [length_append, length_map, length_replicate]
    omega
  · cases hu : (utf8 base).map toAsciiUppercase with
    | nil => exact absurd (map_eq_nil_iff.mp hu) (utf8_ne_nil hne)
    | cons x b => exact ⟨x, _, rfl, goodFirst_of_mem_upper hname (hu ▸ mem_cons_self ..)⟩

theorem makeUniqueShort_eq_ok (h : makeUniqueShort name taken = .ok short) :
    short.length = 11 ∧ ∃ x rest, short = x :: rest ∧ GoodFirst x := by
  unfold makeUniqueShort at h
  simp only at h
  split at h
  · exact makeShortName_eq_ok h
  · simp [fail] at h

section packSlot

variable {attr : UInt8} {first size : Nat} {t : Stamp} (hl : short.length = 11)
include hl

theorem length_packSlot : (packSlot short attr first size t).length = 32 := by
  simp [packSlot, hl]

theorem slice_packSlot : (packSlot short attr first size t).slice 0 11 = short := by
  simp [packSlot, slice, ← hl]

theorem slice_packSlot_of_le (hle : o + n ≤ 11) : (packSlot short attr first size t).slice o n = short.slice o n := by
  have := slice_slice (b := packSlot short attr first size t) (o := 0) hle
  rw [slice_packSlot hl, Nat.zero_add] at this
  exact this.symm

theorem shortName_packSlot : shortName (packSlot short attr first size t) = shortName short := by
  have h1 : (packSlot short attr first size t).getD 12 0 = 0 := by
    simp [packSlot, hl]
  have h2 : short.getD 12 0 = 0 := by
    simp [hl]
  simp only [shortName, slice_packSlot_of_le hl (o := 0) (n := 8) (by decide),
    slice_packSlot_of_le hl (o := 8) (n := 3) (by decide), h1, h2]

theorem slotHead_packSlot : slotHead (packSlot short attr first size t) = short ++ [attr, 0] := by
  simp [packSlot, slotHead, slice, take_append, take_of_length_le, hl]

theorem slotAttr_packSlot : slotAttr (packSlot short attr first size t) = attr := by
  simp [packSlot, slotAttr, hl]

theorem slotFirst_packSlot (hf : first < 2 ^ 32) : slotFirst (packSlot short attr first size t) = first := by
  have h1 : (packSlot short attr first size t).slice 20 2 = toLe 2 (first / 2 ^ 16) := by
    simp [packSlot, slice, drop_append, drop_eq_nil_of_le, hl]
  have h2 : (packSlot short attr first size t).slice 26 2 = toLe 2 (first % 2 ^ 16) := by
    simp [packSlot, slice, drop_append, drop_eq_nil_of_le, hl]
  rw [slotFirst, u16At, u16At, h1, h2, ofLe_toLe _ _ (by omega), ofLe_toLe _ _ (by omega)]
  omega

theorem slotSize_packSlot (hs : size < 2 ^ 32) : slotSize (packSlot short attr first size t) = size := by
  have h : (packSlot short attr first size t).slice 28 4 = toLe 4 size := by
    simp [packSlot, slice, drop_append, drop_eq_nil_of_le, take_of_length_le, hl]
  rw [slotSize, u32At, h, ofLe_toLe _ _ hs]

theorem slotMark_packSlot (hx : short = x :: rest) : slotMark (packSlot short attr first size t) = x := by
  subst hx
  rfl

theorem slotIsDir_packSlot : slotIsDir (packSlot short (entryAttr isDir) first size t) = isDir := by
  rw [slotIsDir, slotAttr_packSlot hl]
  cases isDir <;> decide

theorem isLive_packSlot (hx : short = x :: rest) (hg : GoodFirst x) :
    isLive (packSlot short (entryAttr isDir) first size t) = true := by
  rw [isLive_iff, slotMark_packSlot hl hx, slotAttr_packSlot hl]
  refine ⟨hg.1, hg.2.1, ?_⟩
  cases isDir <;> decide

theorem isDot_packSlot (hx : short = x :: rest) (hg : GoodFirst x) :
    isDot (packSlot short attr first size t) = false := by
  have ⟨b, hb⟩ : ∃ b, short.slice 0 8 = x :: b := by
    subst hx
    exact ⟨_, rfl⟩
  have h12 : short.getD 12 0 = 0 := by
    simp [hl]
  have hne : Char.ofNat x.toNat ≠ '.' :=
    forall_byte (P := fun x => x ≠ 46 → Char.ofNat x.toNat ≠ '.') (by decide +kernel) x hg.2.2.2.2
  have ⟨s, hs⟩ : ∃ s, shortName short = Char.ofNat x.toNat :: s := by
    unfold shortName
    rw [hb, h12]
    have hblank : decide (x ≠ 32) = true := decide_eq_true hg.2.2.2.1
    simp only [hg.2.2.1, if_false, takeWhile_cons, hblank, if_true]
    exact ⟨_, rfl⟩
  simp [isDot, shortName_packSlot hl, hs, Vfs.dot, Vfs.dotdot, hne]

end packSlot

theorem length_lfnSlot : (lfnSlot units sum order start).length = 32 := by
  simp [lfnSlot, length_flatMap]

theorem slotAttr_lfnSlot : slotAttr (lfnSlot units sum order start) = attrLfn := by
  simp [lfnSlot, slotAttr]

def slotsFor (name : Text) : Nat :=
  if needsLfn name then
    max (((encodeUtf16 (name.rdropWhile fun c => c = ' ' ∨ c = '.')).length + 12) / 13) 1 + 1
  else 1

theorem slotsFor_pos (name : Text) : 0 < slotsFor name := by
  unfold slotsFor
  split_ifs <;> omega

theorem length_lfnSlots (h : needsLfn name = true) : (lfnSlots name short).length + 1 = slotsFor name := by
  simp [lfnSlots, slotsFor, h]

theorem mem_lfnSlots (h : s ∈ lfnSlots name short) : s.length = 32 ∧ slotAttr s = attrLfn ∧
      ((lfnSlots name short).length < 256 → slotMark s ≠ slotEnd) := by
  have ⟨order, ho, hs⟩ := mem_map.mp h
  have ⟨h1, h2⟩ := mem_range'_1.mp (mem_reverse.mp ho)
  have hlen : (lfnSlots name short).length =
      max (((encodeUtf16 (name.rdropWhile fun c => c = ' ' ∨ c = '.')).length + 12) / 13) 1 := by
    simp [lfnSlots]
  subst hs
  refine ⟨length_lfnSlot, slotAttr_lfnSlot, fun hlt hm => ?_⟩
  have hor : UInt8.ofNat order ||| (if order = 1 then lfnLast else 0) = 0 := hm
  have hz := congrArg UInt8.toNat (UInt8.or_eq_zero_iff.mp hor).1
  simp only [UInt8.toNat_ofNat', UInt8.toNat_zero] at hz
  omega

end Fat

namespace Fat32

variable {v : Fat32} {name : Text} {short : Bytes} {lfn : List Bytes}

-- `deriveName`, on the result of the scan it makes.
def deriveFrom (scan : Result FsError (List RawEntry)) (name : Text) (exceptShort : Option Text) :
    Result FsError (Bytes × List Bytes) := do
  if needsLfn name then
    let es ← scan
    let taken := (es.map (·.short)).filter fun s => !exceptShort.any (eqIgnoreAsciiCase s)
    let short ← makeUniqueShort name fun cand => taken.any (eqIgnoreAsciiCase · cand)
    return (short, lfnSlots name short)
  else
    let short ← makeShortName name
    return (short, [])

theorem deriveName_eq : v.deriveName d h name ex = deriveFrom (v.scanDir d h) name ex :=
  rfl

-- What is known of the slots of a new entry.
structure Derived (name : Text) (short : Bytes) (lfn : List Bytes) : Prop where
  length_short : short.length = 11
  first : ∃ x rest, short = x :: rest ∧ GoodFirst x
  length_lfn : lfn.length + 1 = slotsFor name
  lfn : ∀ s ∈ lfn, s.length = 32 ∧ slotAttr s = attrLfn ∧ (lfn.length < 256 → slotMark s ≠ slotEnd)

theorem Derived.isLive (hd : Derived name short lfn) :
    Fat.isLive (packSlot short (entryAttr isDir) c size t) = true := by
  have ⟨x, rest, hx, hg⟩ := hd.first
  exact isLive_packSlot hd.length_short hx hg

theorem Derived.isDot (hd : Derived name short lfn) : Fat.isDot (packSlot short attr c size t) = false := by
  have ⟨x, rest, hx, hg⟩ := hd.first
  exact isDot_packSlot hd.length_short hx hg

theorem deriveFrom_eq_ok (h : deriveFrom scan name ex = .ok (short, lfn)) : Derived name short lfn := by
  unfold deriveFrom at h
  split_ifs at h with hl
  · have ⟨es, _, h⟩ := Result.bind_eq_ok.mp h
    have ⟨s, hs, h⟩ := Result.bind_eq_ok.mp h
    cases h
    have ⟨h1, h2⟩ := makeUniqueShort_eq_ok hs
    exact ⟨h1, h2, length_lfnSlots hl, fun s hs => mem_lfnSlots hs⟩
  · have ⟨s, hs, h⟩ := Result.bind_eq_ok.mp h
    cases h
    have ⟨h1, h2⟩ := makeShortName_eq_ok hs
    exact ⟨h1, h2, by simp [slotsFor, hl], by simp⟩

end Fat32
