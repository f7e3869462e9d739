import Onyx.Font.Face
import Onyx.Lib.Search

-- The character map of a face, against the glyph its format defines for a code point.

namespace Font

open Lib List Option

-- The comparison of the format 12 search at the group `mid`.
def side12 (data : Bytes) (g cp mid : Nat) : Option Ordering := do
  let start ← be32 data (g + mid * 12)
  let last ← be32 data (g + mid * 12 + 4)
  return if cp < start then .lt else if cp > last then .gt else .eq

def cmap12 (data : Bytes) (sub cp : Nat) : Option Nat := do
  let n ← be32 data (sub + 12)
  let g := sub + 16
  let mid ← bisect (side12 data g cp) (fun _ => none) n 0 n
  let delta ← be32 data (g + mid * 12 + 8)
  return (cp + delta) % 2 ^ 32 % 65536

def cmap6 (data : Bytes) (sub cp : Nat) : Option Nat := do
  let first ← be16 data (sub + 6)
  let count ← be16 data (sub + 8)
  if cp < first ∨ cp ≥ first + count then none
  else be16 data (sub + 10 + (cp - first) * 2)

-- `try_into` from `i32` to `u16`
def toU16 (n : Int) : Option Nat := if 0 ≤ n ∧ n < 65536 then some n.toNat else none

-- The comparison of the format 4 search, which looks at the end codes only.
def side4 (data : Bytes) (endBase cp mid : Nat) : Option Ordering := do
  let last ← be16 data (endBase + mid * 2)
  return if cp > last then .gt else .lt

-- The rest of `cmap4`, with the segment the search found.
def entry4 (data : Bytes) (startBase deltaBase rangeBase lo cp : Nat) : Option Nat := do
  let start ← be16 data (startBase + lo * 2)
  if cp < start then none
  else
    let delta ← bei16 data (deltaBase + lo * 2)
    let range ← be16 data (rangeBase + lo * 2)
    if range = 0 then toU16 (cp + delta)
    else
      -- The offset counts from its own slot into the glyph array.
      let g ← be16 data (rangeBase + lo * 2 + range + (cp - start) * 2)
      if g = 0 then none else toU16 (g + delta)

def cmap4 (data : Bytes) (sub cp : Nat) : Option Nat :=
  if cp > 0xFFFF then none
  else do
    let seg2 := (← be16 data (sub + 6)) / 2
    let endBase := sub + 14
    let startBase := endBase + seg2 * 2 + 2
    let deltaBase := startBase + seg2 * 2
    let rangeBase := deltaBase + seg2 * 2
    let lo ← bisect (side4 data endBase cp) some seg2 0 seg2
    if lo ≥ seg2 then none else entry4 data startBase deltaBase rangeBase lo cp

structure Best where
  best12 : Option Nat := none
  best4  : Option Nat := none
  best6  : Option Nat := none

def subtable (f : Face) (i : Nat) : Option Nat := do
  let sub := f.cmap.off + (← be32 f.data (f.cmap.off + 4 + i * 8 + 4))
  if sub + 4 > f.data.length then none else some sub

def Best.note (f : Face) (best : Best) (i : Nat) : Best :=
  match subtable f i with
  | none => best
  | some sub =>
    match be16 f.data sub with
    | some 12 => { best with best12 := sub }
    | some 4 => { best with best4 := best.best4 <|> some sub }
    | some 6 => { best with best6 := best.best6 <|> some sub }
    | _ => best

def records (f : Face) : Nat := (be16 f.data (f.cmap.off + 2)).getD 0

def glyphForChar (f : Face) (ch : Char) : Nat :=
  let cp := ch.toNat
  let best := (range (records f)).foldl (Best.note f) {}
  (best.best12.bind (cmap12 f.data · cp) <|> best.best4.bind (cmap4 f.data · cp) <|>
    best.best6.bind (cmap6 f.data · cp)).getD 0

def segmentOf (n : Nat) (start last : Nat → Nat) (cp : Nat) : Option Nat :=
  (range n).find? fun i => start i ≤ cp ∧ cp ≤ last i

structure Sorted (n : Nat) (start last : Nat → Nat) : Prop where
  le    : ∀ i < n, start i ≤ last i
  apart : ∀ i j, i < j → j < n → last i < start j

section segments

variable (b : Bytes) (sub : Nat)

def groups : Nat := long b (sub + 12)

def startChar (i : Nat) : Nat := long b (sub + 16 + i * 12)

def endChar (i : Nat) : Nat := long b (sub + 16 + i * 12 + 4)

def startGlyph (i : Nat) : Nat := long b (sub + 16 + i * 12 + 8)

def segs : Nat := word b (sub + 6) / 2

def endCode (i : Nat) : Nat := word b (sub + 14 + i * 2)

-- The end codes are followed by two bytes of padding.
def startCode (i : Nat) : Nat := word b (sub + 14 + segs b sub * 2 + 2 + i * 2)

def idDelta (i : Nat) : Nat := word b (sub + 14 + segs b sub * 2 + 2 + segs b sub * 2 + i * 2)

def rangeAt (i : Nat) : Nat :=
  sub + 14 + segs b sub * 2 + 2 + segs b sub * 2 + segs b sub * 2 + i * 2

-- Where the glyph of `c` stands, counted from the range offset itself.
def glyphAt (i c : Nat) : Nat := rangeAt b sub i + word b (rangeAt b sub i) + (c - startCode b sub i) * 2

def base (i c : Nat) : Option Nat :=
  if word b (rangeAt b sub i) = 0 then some c
  else if word b (glyphAt b sub i c) = 0 then none else some (word b (glyphAt b sub i c))

def groupOf : Nat → Option Nat := segmentOf (groups b sub) (startChar b sub) (endChar b sub)

def codeSegment : Nat → Option Nat := segmentOf (segs b sub) (startCode b sub) (endCode b sub)

def glyphIndex (cp : Nat) : Nat :=
  match word b sub with
  | 12 => ((groupOf b sub cp).map fun i => startGlyph b sub i + (cp - startChar b sub i)).getD 0
  | 4 =>
    ((codeSegment b sub cp).bind fun i =>
      (base b sub i cp).map fun g => (g + idDelta b sub i) % 65536).getD 0
  | 6 =>
    let first := word b (sub + 6)
    if first ≤ cp ∧ cp < first + word b (sub + 8) then word b (sub + 10 + (cp - first) * 2) else 0
  | _ => 0

structure Groups : Prop where
  fits   : sub + 16 + groups b sub * 12 ≤ b.length
  sorted : Sorted (groups b sub) (startChar b sub) (endChar b sub)

structure Segments : Prop where
  fits   : sub + 16 + segs b sub * 8 ≤ b.length
  sorted : Sorted (segs b sub) (startCode b sub) (endCode b sub)
  glyphs : ∀ i < segs b sub, word b (rangeAt b sub i) ≠ 0 →
    ∀ c, startCode b sub i ≤ c → c ≤ endCode b sub i → glyphAt b sub i c + 2 ≤ b.length

def WellFormed : Prop :=
  match word b sub with
  | 12 => Groups b sub
  | 4 => Segments b sub
  | 6 => sub + 10 + word b (sub + 8) * 2 ≤ b.length
  | _ => False

-- Where the source's arithmetic gives that index, in 16 bits.
def Exact (cp : Nat) : Prop :=
  match word b sub with
  | 12 =>
    ∀ i, groupOf b sub cp = some i →
      startChar b sub i % 65536 = 0 ∧ startGlyph b sub i + (cp - startChar b sub i) < 65536
  | 4 =>
    ∀ i, codeSegment b sub cp = some i →
      ∀ g, base b sub i cp = some g →
        let n : Int := g + toI16 (idDelta b sub i)
        0 ≤ n ∧ n < 65536 ∨ n % 65536 = 0
  | _ => True

end segments

structure OneSubtable (f : Face) (sub : Nat) : Prop where
  mem  : ∃ i < records f, subtable f i = some sub
  only : ∀ i < records f, ∀ s, subtable f i = some s → word f.data s ∈ [4, 6, 12] → s = sub
  wf   : WellFormed f.data sub

theorem segmentOf_eq_none (h : ∀ i < n, start i ≤ cp → last i < cp) : segmentOf n start last cp = none := by
  refine find?_eq_none.mpr fun i hi => ?_
  have := h i (mem_range.mp hi)
  simp only [decide_eq_true_eq]
  omega

theorem of_segmentOf (h : segmentOf n start last cp = some i) : start i ≤ cp ∧ cp ≤ last i := by
  simpa using find?_some h

theorem Sorted.segmentOf_eq (h : Sorted n start last) (hi : i < n) (h1 : start i ≤ cp)
    (h2 : cp ≤ last i) : segmentOf n start last cp = some i := by
  cases hs : segmentOf n start last cp with
  | none =>
    have := find?_eq_none.mp hs i (mem_range.mpr hi)
    simp [h1, h2] at this
  | some j =>
    have hj := mem_range.mp (mem_of_find?_eq_some hs)
    have hp := of_segmentOf hs
    -- Two segments that hold one code are the same one.
    rcases lt_trichotomy i j with hlt | rfl | hlt
    · have := h.apart i j hlt hj
      omega
    · rfl
    · have := h.apart j i hlt hi
      omega

section lookups

variable {b : Bytes} {sub cp i : Nat}

theorem Groups.probed (h : Groups b sub) : Probed (side12 b (sub + 16) cp) (groups b sub) fun i =>
      if cp < startChar b sub i then .lt else if cp > endChar b sub i then .gt else .eq := by
  have hl := h.fits
  refine ⟨fun i hi => ?_, fun i j hij hj ho => ?_, fun i j hij hj ho => ?_⟩
  · have h1 : be32 b (sub + 16 + i * 12) = some (startChar b sub i) := be32_eq (by omega)
    have h2 : be32 b (sub + 16 + i * 12 + 4) = some (endChar b sub i) := be32_eq (by omega)
    simp [side12, h1, h2]
  all_goals
    rcases lt_or_eq_of_le hij with hlt | rfl
    · have := h.sorted.apart i j hlt hj
      have := h.sorted.le i (by omega)
      have := h.sorted.le j hj
      grind
    · exact ho

-- The format 12 search ends at the group that holds the code, if there is one.
theorem Groups.cmap12_eq (h : Groups b sub) :
    cmap12 b sub cp = (groupOf b sub cp).map fun i => (cp + startGlyph b sub i) % 2 ^ 32 % 65536 := by
  have hl := h.fits
  have hn : be32 b (sub + 12) = some (groups b sub) := be32_eq (by omega)
  simp only [cmap12, hn, bind_eq_bind, bind_some]
  rcases h.probed.bisect fun _ => none with ⟨i, hi, ho, hb⟩ | ⟨k, hk, hb⟩
  · have hd : be32 b (sub + 16 + i * 12 + 8) = some (startGlyph b sub i) := be32_eq (by omega)
    rw [hb, groupOf, h.sorted.segmentOf_eq hi (by grind) (by grind)]
    simp [hd]
  rw [hb, groupOf, segmentOf_eq_none]
  · rfl
  · intro i hi
    have := hk.2.1 i
    have := hk.2.2 i
    grind

theorem Segments.probed (h : Segments b sub) :
    Probed (side4 b (sub + 14) cp) (segs b sub) fun i => if cp > endCode b sub i then .gt else .lt := by
  have hl := h.fits
  refine ⟨fun i hi => ?_, fun i j hij hj ho => ?_, fun i j hij hj ho => ?_⟩
  · have h1 : be16 b (sub + 14 + i * 2) = some (endCode b sub i) := be16_eq (by omega)
    simp [side4, h1]
  all_goals
    rcases lt_or_eq_of_le hij with hlt | rfl
    · have := h.sorted.apart i j hlt hj
      have := h.sorted.le j hj
      grind
    · exact ho

-- What the format 4 lookup adds up, the sum taken in `i32`.
def sum4 (b : Bytes) (sub cp i : Nat) : Option Nat :=
  (base b sub i cp).bind fun g => toU16 (g + toI16 (idDelta b sub i))

theorem Segments.entry4_eq (h : Segments b sub) (hi : i < segs b sub) (hend : cp ≤ endCode b sub i) :
    entry4 b (sub + 14 + segs b sub * 2 + 2) (sub + 14 + segs b sub * 2 + 2 + segs b sub * 2)
      (sub + 14 + segs b sub * 2 + 2 + segs b sub * 2 + segs b sub * 2) i cp =
      if cp < startCode b sub i then none else sum4 b sub cp i := by
  have hl := h.fits
  have h1 : be16 b (sub + 14 + segs b sub * 2 + 2 + i * 2) = some (startCode b sub i) := be16_eq (by omega)
  have h2 : be16 b (sub + 14 + segs b sub * 2 + 2 + segs b sub * 2 + i * 2) = some (idDelta b sub i) :=
    be16_eq (by omega)
  have h3 : be16 b (sub + 14 + segs b sub * 2 + 2 + segs b sub * 2 + segs b sub * 2 + i * 2) =
      some (word b (rangeAt b sub i)) := be16_eq (by omega)
  simp only [entry4, bei16, h1, h2, h3, bind_eq_bind, bind_some, map_some, sum4, base]
  by_cases hs : cp < startCode b sub i
  · rw [if_pos hs, if_pos hs]
  rw [if_neg hs, if_neg hs]
  by_cases hr : word b (rangeAt b sub i) = 0
  · simp [hr]
  have h4 : be16 b (glyphAt b sub i cp) = some _ := be16_eq (h.glyphs i hi hr cp (Nat.le_of_not_lt hs) hend)
  rw [if_neg hr, if_neg hr]
  refine (congrArg (bind · _) h4).trans ?_
  by_cases hz : word b (glyphAt b sub i cp) = 0 <;> simp [hz]

theorem Segments.cmap4_eq (h : Segments b sub) : cmap4 b sub cp = (codeSegment b sub cp).bind (sum4 b sub cp) := by
  have hl := h.fits
  by_cases hcp : cp > 0xFFFF
  · have hend : ∀ i, endCode b sub i < 0x10000 := fun _ => word_lt
    rw [codeSegment, segmentOf_eq_none fun i _ _ => lt_of_lt_of_le (hend i) hcp]
    simp [cmap4, hcp]
  have hn : be16 b (sub + 6) = some (word b (sub + 6)) := be16_eq (by omega)
  have hseg : word b (sub + 6) / 2 = segs b sub := rfl
  simp only [cmap4, hcp, hn, hseg, bind_eq_bind, bind_some, if_false, codeSegment]
  rcases h.probed.bisect some with ⟨i, hi, ho, hb⟩ | ⟨k, ⟨hk, hlo, hhi⟩, hb⟩
  · grind
  rw [hb, bind_some]
  have hbefore : ∀ i < k, endCode b sub i < cp := fun i hi => by
    have := hlo i hi
    grind
  by_cases hkn : k < segs b sub
  · have hcov : cp ≤ endCode b sub k := by
      have := hhi k (le_refl k) hkn
      grind
    rw [if_neg (by omega), h.entry4_eq hkn hcov]
    by_cases hc : cp < startCode b sub k
    · rw [if_pos hc, segmentOf_eq_none fun i hi hs => ?_]
      · rfl
      · rcases lt_trichotomy i k with hik | rfl | hik
        · exact hbefore i hik
        · omega
        · have := h.sorted.apart k i hik hi
          omega
    · rw [if_neg hc, h.sorted.segmentOf_eq hkn (Nat.le_of_not_lt hc) hcov]
      rfl
  · rw [if_pos (by omega), segmentOf_eq_none fun i hi _ => hbefore i (by omega)]
    rfl

end lookups

-- The scan of the encoding records keeps the one subtable under its format.
def Best.only (b : Bytes) (sub : Nat) : Best :=
  match word b sub with
  | 12 => { best12 := sub }
  | 4 => { best4 := sub }
  | 6 => { best6 := sub }
  | _ => {}

theorem word_of_subtable (h : subtable f i = some sub) : be16 f.data sub = some (word f.data sub) := by
  simp only [subtable, bind_eq_bind, bind_eq_some_iff] at h
  have ⟨_, _, h⟩ := h
  split at h
  · cases h
  · cases h
    exact be16_eq (by omega)

theorem OneSubtable.note_hit (h : OneSubtable f sub) (hs : subtable f i = some sub)
    (hb : best = {} ∨ best = Best.only f.data sub) : Best.note f best i = Best.only f.data sub := by
  have hw := h.wf
  simp only [Best.note, hs, word_of_subtable hs, Best.only, WellFormed] at hb hw ⊢
  rcases hb with rfl | rfl <;> split at hw <;> simp_all

theorem OneSubtable.note_miss (h : OneSubtable f sub) (hi : i < records f) (hs : subtable f i ≠ some sub) :
    Best.note f best i = best := by
  cases hsub : subtable f i with
  | none => simp [Best.note, hsub]
  | some s =>
    have hne := mt (h.only i hi s hsub) fun he => hs (he ▸ hsub)
    simp only [Best.note, hsub, word_of_subtable hsub]
    split <;> simp_all

theorem OneSubtable.foldl_note {l : List Nat} (h : OneSubtable f sub) (hl : ∀ i ∈ l, i < records f)
    (hb : best = {} ∧ (∃ i ∈ l, subtable f i = some sub) ∨ best = Best.only f.data sub) :
    l.foldl (Best.note f) best = Best.only f.data sub := by
  induction l generalizing best with
  | nil =>
    rcases hb with ⟨_, _, hmem, _⟩ | rfl
    · cases hmem
    · rfl
  | cons i l ih =>
    refine ih (fun j hj => hl j (.tail _ hj)) ?_
    by_cases hs : subtable f i = some sub
    · exact .inr (h.note_hit hs (hb.imp_left (·.1)))
    rw [h.note_miss (hl i (.head _)) hs]
    refine hb.imp_left fun ⟨he, j, hj, hsj⟩ => ⟨he, j, ?_, hsj⟩
    exact (mem_cons.mp hj).resolve_left fun hji => hs (hji ▸ hsj)

theorem OneSubtable.glyphForChar_eq (h : OneSubtable f sub) : glyphForChar f ch =
      ((Best.only f.data sub).best12.bind (cmap12 f.data · ch.toNat) <|>
        (Best.only f.data sub).best4.bind (cmap4 f.data · ch.toNat) <|>
          (Best.only f.data sub).best6.bind (cmap6 f.data · ch.toNat)).getD 0 := by
  have ⟨i, hi, hs⟩ := h.mem
  rw [glyphForChar, h.foldl_note (fun j hj => mem_range.mp hj)
    (.inl ⟨rfl, i, mem_range.mpr hi, hs⟩)]

theorem toU16_getD_iff {g d : Nat} : (toU16 (g + toI16 d)).getD 0 = (g + d) % 65536 ↔
      0 ≤ g + toI16 d ∧ g + toI16 d < 65536 ∨ (g + toI16 d) % 65536 = 0 := by
  unfold toU16 toI16
  split_ifs <;> simp only [getD_some, getD_none] <;> omega

theorem WellFormed.format (h : WellFormed b sub) : word b sub = 12 ∨ word b sub = 4 ∨ word b sub = 6 := by
  unfold WellFormed at h
  split at h <;> simp_all

theorem glyphForChar_eq_iff (f : Face) (sub : Nat) (h : OneSubtable f sub) (ch : Char) :
    glyphForChar f ch = glyphIndex f.data sub ch.toNat ↔ Exact f.data sub ch.toNat := by
  have hw := h.wf
  rw [h.glyphForChar_eq]
  generalize ch.toNat = cp
  rcases hw.format with hf | hf | hf <;> simp only [WellFormed, Best.only, glyphIndex, Exact, hf] at hw ⊢
  · -- The start code is not subtracted from the code point.
    simp only [bind_some, bind_none, hw.cmap12_eq]
    cases hseg : groupOf f.data sub cp with
    | none => simp
    | some i =>
      have hle := (of_segmentOf hseg).1
      simp
      omega
  · -- A sum outside the 16 bits is dropped, not wrapped.
    simp only [bind_some, bind_none, hw.cmap4_eq]
    cases hseg : codeSegment f.data sub cp with
    | none => simp
    | some i =>
      cases hb : base f.data sub i cp with
      | none => simp [sum4, hb]
      | some g => simpa [sum4, hb] using toU16_getD_iff
  · have h1 : be16 f.data (sub + 6) = some _ := be16_eq (by omega)
    have h2 : be16 f.data (sub + 8) = some _ := be16_eq (by omega)
    simp only [bind_some, bind_none, cmap6, h1, h2, bind_eq_bind, iff_true]
    by_cases hcp : word f.data (sub + 6) ≤ cp ∧ cp < word f.data (sub + 6) + word f.data (sub + 8)
    · rw [if_neg (by omega), if_pos hcp, be16_eq (by omega)]
      rfl
    · rw [if_pos (by omega), if_neg hcp]
      rfl

def capitals : Bytes :=
  header (0, 0) (0, 0) (124, 52) ++ [0, 0, 0, 1, 0, 3, 0, 10, 0, 0, 0, 12] ++
    [0, 12, 0, 0, 0, 0, 0, 40, 0, 0, 0, 0, 0, 0, 0, 2] ++ [0, 0, 0, 0, 0, 0, 0, 64, 0, 0, 0, 27] ++
    [0, 0, 0, 65, 0, 0, 0, 90, 0, 0, 0, 1]

def capitalsFace : Face where
  data := capitals
  loca := ⟨0, 0⟩
  glyf := ⟨0, 0⟩
  cmap := ⟨124, 52⟩
  numGlyphs := 7
  indexToLoc := 0x686D

set_option maxRecDepth 4000 in
theorem capitals_oneSubtable : OneSubtable capitalsFace 136 where
  mem := ⟨0, by decide, by decide⟩
  only i hi s hs _ := by
    have hn : records capitalsFace = 1 := by decide
    obtain rfl : i = 0 := by omega
    have h0 : subtable capitalsFace 0 = some 136 := by decide
    cases h0.symm.trans hs
    rfl
  wf := by
    have hn : groups capitals 136 = 2 := by decide
    have hf : word capitals 136 = 12 := by decide
    simp only [WellFormed, capitalsFace, hf]
    refine ⟨by decide, fun i hi => ?_, fun i j hij hj => ?_⟩
    · rcases (by omega : i = 0 ∨ i = 1) with rfl | rfl <;> decide
    · obtain ⟨rfl, rfl⟩ : i = 0 ∧ j = 1 := by omega
      decide

set_option maxRecDepth 4000 in
theorem glyphForChar_eq_digit : glyphForChar capitalsFace '0' = glyphIndex capitalsFace.data 136 48 ∧
      glyphIndex capitalsFace.data 136 48 = 75 := by
  refine ⟨(glyphForChar_eq_iff capitalsFace 136 capitals_oneSubtable '0').mpr fun i hi => ?_, by decide⟩
  have h0 : groupOf capitals 136 48 = some 0 := by decide
  cases h0.symm.trans hi
  decide

set_option maxRecDepth 4000 in
theorem glyphForChar_wrong_capital : (Face.parse capitals).toOption = some capitalsFace ∧ OneSubtable capitalsFace 136 ∧
      glyphForChar capitalsFace 'A' = 66 ∧ glyphIndex capitalsFace.data 136 'A'.toNat = 1 :=
  ⟨by decide, capitals_oneSubtable, by decide, by decide⟩

end Font
