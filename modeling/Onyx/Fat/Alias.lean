import Onyx.Fat.NewName

-- Short names: which names are stored as they are, and how the others get an alias.

open Lib List

namespace Fat

variable {name base ext : Text} {short : Bytes}

section agreement

-- A name gets no long entry exactly if it can be a short name that is read back the same, up to case.
def Agreed (name : Text) : Prop :=
  needsLfn name = false ↔ ∃ short, makeShortName name = .ok short ∧ eqIgnoreAsciiCase (shortName short) name = true

theorem isDosByte_of_mem_utf8 (hbase : ∀ b ∈ utf8 base, isNameByte b = true) (hext : ∀ b ∈ utf8 ext, isNameByte b = true)
    (hb : b ∈ utf8 (base ++ '.' :: ext)) : isDosByte b = true := by
  have hsplit : utf8 (base ++ '.' :: ext) = utf8 base ++ 46 :: utf8 ext := by
    rw [utf8, flatMap_append, flatMap_cons]
    rfl
  rw [hsplit, mem_append, mem_cons] at hb
  rcases hb with hb | rfl | hb
  · rw [isDosByte, hbase b hb, Bool.true_or]
  · rfl
  · rw [isDosByte, hext b hb, Bool.true_or]

theorem needsLfn_of_makeShortName (h : makeShortName name = .ok short) : needsLfn name = false := by
  have ⟨base, ext, hsplit, hne, hb, he, hbase, hext, _⟩ := makeShortName_cases h
  have hext' : ∀ b ∈ utf8 ext, isNameByte b = true := fun b hb => isNameByte_of_alphanumeric (hext b hb)
  have hlen : name.len ≤ 12 := by
    unfold makeShortName at h
    simp only at h
    split_ifs at h with _ hlen
    any_goals cases h
    simp only [not_or, not_lt] at hlen
    exact hlen.2.2.2
  have hall : ∀ b ∈ utf8 name, isDosByte b = true := by
    rcases splitExt_cases name with ⟨base', ext', hsplit', _, rfl⟩ | hsplit'
    · cases hsplit.symm.trans hsplit'
      exact fun b => isDosByte_of_mem_utf8 hbase hext'
    · cases hsplit.symm.trans hsplit'
      exact fun b hb => by rw [isDosByte, hbase b hb, Bool.true_or]
  rw [length_utf8] at hb he
  have hempty : base.isEmpty = false := by simpa using hne
  unfold needsLfn
  simp only [hsplit, hempty, Bool.or_false, Bool.or_eq_false_iff, decide_eq_false_iff_not, not_lt, Bool.not_eq_false',
    all_eq_true]
  exact ⟨⟨⟨hb, he⟩, hlen⟩, hall⟩

-- A base without dots and an extension of letters and digits, with no dot at the end.
def Simple (name : Text) : Prop :=
  '.' ∉ (splitExt name).1 ∧ (∀ b ∈ utf8 (splitExt name).2, isAsciiAlphanumeric b = true) ∧ name.getLast? ≠ some '.'

theorem not_mem_of_isNameByte (h : ∀ b ∈ utf8 s, isNameByte b = true) : '.' ∉ s := by
  intro hdot
  cases h 46 (mem_utf8_of_mem hdot)

theorem isNameByte_of_isDosByte (h : ∀ b ∈ utf8 s, isDosByte b = true) (hdot : '.' ∉ s) (hb : b ∈ utf8 s) :
    isNameByte b = true := by
  have hdos := h b hb
  have ⟨c, hc, hmem⟩ := mem_flatMap.mp hb
  have ⟨hlt, henc⟩ := utf8EncodeChar_of_dos fun x hx => h x (mem_flatMap.mpr ⟨c, hc, hx⟩)
  have hne : b ≠ 46 := by
    rintro rfl
    rw [henc, mem_singleton] at hmem
    have hdotByte : ∀ n < 128, (46 : UInt8) = .ofNat n → n = 46 := by decide
    have : c = '.' := Char.toNat_inj.mp (hdotByte _ hlt hmem)
    exact hdot (this ▸ hc)
  rw [isDosByte, Bool.or_eq_true, beq_iff_eq] at hdos
  exact hdos.resolve_right hne

theorem mem_of_mem_splitExt (h : c ∈ (splitExt name).1 ∨ c ∈ (splitExt name).2) : c ∈ name := by
  rcases splitExt_cases name with ⟨base, ext, hsplit, _, hname⟩ | hsplit
  · rw [hsplit] at h
    rw [hname, mem_append]
    exact h.imp_right (mem_cons_of_mem _)
  · rw [hsplit] at h
    exact h.resolve_right not_mem_nil

theorem makeShortName_of_simple (hl : needsLfn name = false) (h : Simple name) : ∃ short, makeShortName name = .ok short := by
  unfold needsLfn at hl
  simp only [Bool.or_eq_false_iff, decide_eq_false_iff_not, not_lt, Bool.not_eq_false', all_eq_true] at hl
  obtain ⟨⟨⟨⟨hbase, hext⟩, hempty⟩, hlen⟩, hdos⟩ := hl
  have hslash : ∀ c : Char, isDosByte (.ofNat c.toNat) = false → c.toNat < 128 → name.contains c = false := by
    intro c hc hlt
    rw [Bool.eq_false_iff]
    intro hmem
    have henc : UInt8.ofNat c.toNat ∈ String.utf8EncodeChar c := by
      have : String.utf8EncodeChar c = [.ofNat c.toNat] := if_pos (Nat.le_of_lt_succ hlt)
      rw [this]
      exact mem_singleton.mpr rfl
    have := hdos _ (mem_flatMap.mpr ⟨c, contains_iff_mem.mp hmem, henc⟩)
    cases hc.symm.trans this
  have hbytes : ∀ b ∈ utf8 (splitExt name).1, isNameByte b = true := by
    refine fun b => isNameByte_of_isDosByte (fun x hx => ?_) h.1
    have ⟨c, hc, hx⟩ := mem_flatMap.mp hx
    exact hdos x (mem_flatMap.mpr ⟨c, mem_of_mem_splitExt (.inl hc), hx⟩)
  have hne : (splitExt name).1 ≠ [] := by simpa using hempty
  unfold makeShortName
  simp only
  rw [if_neg (by rw [hslash '/' rfl (by decide), hslash '\\' rfl (by decide)]; simp), if_neg (not_or.mpr ⟨hne, by omega⟩),
    if_neg (by simpa using hbytes), if_neg (by simpa using h.2.1)]
  exact ⟨_, rfl⟩

-- The two readings agree exactly on the names that get a long entry and on the simple ones.
theorem agreed_iff (name : Text) : Agreed name ↔ needsLfn name = true ∨ Simple name := by
  constructor
  · intro ha
    rw [or_iff_not_imp_left, Bool.not_eq_true]
    intro hl
    have ⟨short, hs, heq⟩ := ha.mp hl
    have ⟨base, ext, hsplit, _, _, _, hbase, hext, _⟩ := makeShortName_cases hs
    rw [Simple, hsplit]
    exact ⟨not_mem_of_isNameByte hbase, hext, (shortName_new_iff hs).mp heq⟩
  · intro h
    constructor
    · intro hl
      have hsimple := h.resolve_left (by rw [hl]; decide)
      have ⟨short, hs⟩ := makeShortName_of_simple hl hsimple
      exact ⟨short, hs, (shortName_new_iff hs).mpr hsimple.2.2⟩
    · intro ⟨short, hs, _⟩
      exact needsLfn_of_makeShortName hs

theorem not_agreed : ¬Agreed ['A', '.', 'B', '.', 'C'] ∧ ¬Agreed ['A', '.'] := by
  constructor
  · intro ha
    have ⟨short, hs, _⟩ := ha.mp (by decide)
    cases hs
  · intro ha
    have ⟨short, hs, heq⟩ := ha.mp (by decide)
    cases hs
    revert heq
    decide

end agreement

section unique

-- What the aliases of a name begin with, and their extension.
def aliasStem (name : Text) : Text :=
  let stem := ((splitExt name).1.filter isNameChar).take 6
  if stem = [] then ['F', 'I', 'L', 'E'] else stem

def aliasExt (name : Text) : Text := ((splitExt name).2.filter Char.isAlphanum).take 3

def candidate (name : Text) (n : Nat) : Text :=
  aliasStem name ++ '~' :: Nat.toDigits 10 n ++ if aliasExt name = [] then [] else '.' :: aliasExt name

variable {taken : Text → Bool} {s : Text}

theorem makeUniqueShort_eq : makeUniqueShort name taken =
    match ((range' 1 99).map (candidate name)).find? (fun c => !taken c) with
    | some c => makeShortName c
    | none => fail .noSpace :=
  rfl

-- A base of letters, digits and `_-~`, and an extension of letters and digits.
def Legal (short : Bytes) : Prop :=
  ∃ b e : Bytes, short = b ++ replicate (8 - b.length) 32 ++ (e ++ replicate (3 - e.length) 32) ∧
    b ≠ [] ∧ b.length ≤ 8 ∧ e.length ≤ 3 ∧ (∀ x ∈ b, isNameByte x = true ∧ isAsciiLower x = false) ∧
      ∀ x ∈ e, isAsciiAlphanumeric x = true ∧ isAsciiLower x = false

theorem legal_of_makeShortName (h : makeShortName name = .ok short) : Legal short := by
  have ⟨base, ext, _, hne, hb, he, hbase, hext, heq⟩ := makeShortName_cases h
  have hupper := Bytes.forall_byte (P := fun x => isNameByte x = true →
    isNameByte (toAsciiUppercase x) = true ∧ isAsciiLower (toAsciiUppercase x) = false) (by decide +kernel)
  have halnum := Bytes.forall_byte (P := fun x => isAsciiAlphanumeric x = true →
    isAsciiAlphanumeric (toAsciiUppercase x) = true ∧ isAsciiLower (toAsciiUppercase x) = false) (by decide +kernel)
  refine ⟨(utf8 base).map toAsciiUppercase, (utf8 ext).map toAsciiUppercase, ?_, ?_, ?_, ?_, fun x hx => ?_, fun x hx => ?_⟩
  · rw [heq, length_map, length_map]
  · exact fun hnil => utf8_ne_nil hne (map_eq_nil_iff.mp hnil)
  · rwa [length_map]
  · rwa [length_map]
  · obtain ⟨y, hy, rfl⟩ := mem_map.mp hx
    exact hupper y (hbase y hy)
  · obtain ⟨y, hy, rfl⟩ := mem_map.mp hx
    exact halnum y (hext y hy)

theorem lt_of_isAlphanum {c : Char} (h : c.isAlphanum = true) : c.toNat < 128 := by
  simp only [Char.isAlphanum, Char.isAlpha, Char.isUpper, Char.isLower, Char.isDigit, Bool.or_eq_true, Bool.and_eq_true,
    decide_eq_true_eq, ge_iff_le, UInt32.le_iff_toNat_le] at h
  have hc : c.val.toNat = c.toNat := rfl
  have hz : 'Z'.val.toNat = 90 ∧ 'z'.val.toNat = 122 := by decide
  rw [hc, hz.1, hz.2] at h
  rcases h with (h | h) | h
  · exact lt_of_le_of_lt h.2 (by decide)
  · exact lt_of_le_of_lt h.2 (by decide)
  · exact lt_of_le_of_lt h.2 (by decide)

theorem lt_of_isNameChar {c : Char} (h : isNameChar c = true) : c.toNat < 128 := by
  simp only [isNameChar, Bool.or_eq_true, beq_iff_eq] at h
  rcases h with ((h | rfl) | rfl) | rfl
  · exact lt_of_isAlphanum h
  all_goals decide

theorem utf8_of_ascii (h : ∀ c ∈ s, c.toNat < 128) : utf8 s = s.map fun c => .ofNat c.toNat := by
  induction s with
  | nil => rfl
  | cons c s hi =>
    have hc : String.utf8EncodeChar c = [.ofNat c.toNat] := if_pos (Nat.le_of_lt_succ (h c (mem_cons_self ..)))
    have hs := hi fun x hx => h x (mem_cons_of_mem _ hx)
    rw [utf8] at hs
    rw [utf8, flatMap_cons, hs, hc]
    rfl

theorem len_of_ascii (h : ∀ c ∈ s, c.toNat < 128) : s.len = s.length := by
  rw [← length_utf8, utf8_of_ascii h, length_map]

theorem forall_ascii {P : Char → Prop} (h : ∀ n < 128, P (.ofNat n)) (c : Char) (hc : c.toNat < 128) : P c := by
  have := h _ hc
  rwa [Char.ofNat_toNat] at this

theorem isNameByte_of_isNameChar (h : isNameChar c = true) : isNameByte (.ofNat c.toNat) = true := by
  refine forall_ascii (P := fun c => isNameChar c = true → isNameByte (.ofNat c.toNat) = true) ?_ c (lt_of_isNameChar h) h
  decide

theorem isAsciiAlphanumeric_of_isAlphanum {c : Char} (h : c.isAlphanum = true) : isAsciiAlphanumeric (.ofNat c.toNat) = true := by
  refine forall_ascii (P := fun c => c.isAlphanum = true → isAsciiAlphanumeric (.ofNat c.toNat) = true) ?_ c (lt_of_isAlphanum h) h
  decide

theorem makeShortName_iff (hsplit : splitExt name = (base, ext)) (hname : name = base ++ if ext = [] then [] else '.' :: ext)
    (hne : base ≠ []) (hbase : ∀ c ∈ base, isNameChar c = true) (hext : ∀ c ∈ ext, c.isAlphanum = true) (he : ext.length ≤ 3) :
    (∃ short, makeShortName name = .ok short) ↔ base.length ≤ 8 := by
  have hchar : ∀ c ∈ name, isNameChar c = true ∨ c = '.' := by
    intro c hc
    rw [hname, mem_append] at hc
    rcases hc with hc | hc
    · exact .inl (hbase c hc)
    split_ifs at hc
    · cases hc
    rcases mem_cons.mp hc with rfl | hc
    · exact .inr rfl
    · exact .inl (by rw [isNameChar, hext c hc]; rfl)
  have hascii : ∀ c ∈ name, c.toNat < 128 := fun c hc => (hchar c hc).elim lt_of_isNameChar fun heq => heq ▸ by decide
  have hasciiBase : ∀ c ∈ base, c.toNat < 128 := fun c hc => lt_of_isNameChar (hbase c hc)
  have hasciiExt : ∀ c ∈ ext, c.toNat < 128 := fun c hc => lt_of_isAlphanum (hext c hc)
  have hlen : name.length ≤ base.length + 4 := by
    rw [hname, length_append]
    split_ifs
    · exact Nat.le_add_right ..
    · rw [length_cons]
      omega
  constructor
  · intro ⟨short, h⟩
    have ⟨base', ext', hsplit', _, hb, _⟩ := makeShortName_cases h
    cases hsplit.symm.trans hsplit'
    rwa [length_utf8, len_of_ascii hasciiBase] at hb
  · intro hle
    have hslash : ∀ c : Char, isNameChar c = false → c ≠ '.' → name.contains c = false := by
      intro c hc hdot
      rw [Bool.eq_false_iff]
      intro hmem
      have := (hchar c (contains_iff_mem.mp hmem)).resolve_right hdot
      cases hc.symm.trans this
    have h1 : ∀ b ∈ utf8 base, isNameByte b = true := by
      rw [utf8_of_ascii hasciiBase]
      intro b hb
      obtain ⟨c, hc, rfl⟩ := mem_map.mp hb
      exact isNameByte_of_isNameChar (hbase c hc)
    have h2 : ∀ b ∈ utf8 ext, isAsciiAlphanumeric b = true := by
      rw [utf8_of_ascii hasciiExt]
      intro b hb
      obtain ⟨c, hc, rfl⟩ := mem_map.mp hb
      exact isAsciiAlphanumeric_of_isAlphanum (hext c hc)
    unfold makeShortName
    simp only [hsplit, len_of_ascii hasciiBase, len_of_ascii hasciiExt, len_of_ascii hascii]
    rw [if_neg (by rw [hslash '/' rfl (by decide), hslash '\\' rfl (by decide)]; simp), if_neg (not_or.mpr ⟨hne, by omega⟩),
      if_neg (by simpa using h1), if_neg (by simpa using h2)]
    exact ⟨_, rfl⟩

theorem length_toDigits : ∀ n < 100, (Nat.toDigits 10 n).length = if n < 10 then 1 else 2 := by
  decide

theorem isDigit_toDigits : ∀ n < 100, ∀ c ∈ Nat.toDigits 10 n, isNameChar c = true := by
  have hall : ∀ n < 100, (Nat.toDigits 10 n).all isNameChar = true := by decide
  exact fun n hn => all_eq_true.mp (hall n hn)

theorem aliasStem_ne_nil : aliasStem name ≠ [] := by
  unfold aliasStem
  simp only
  split_ifs with h
  · decide
  · exact h

theorem isNameChar_of_mem_aliasStem (h : c ∈ aliasStem name) : isNameChar c = true := by
  unfold aliasStem at h
  simp only at h
  split_ifs at h
  · exact all_eq_true.mp (show all _ isNameChar = true by decide) c h
  · exact (mem_filter.mp (mem_of_mem_take h)).2

theorem isAlphanum_of_mem_aliasExt (h : c ∈ aliasExt name) : c.isAlphanum = true :=
  (mem_filter.mp (mem_of_mem_take h)).2

theorem not_mem_aliasExt : '.' ∉ aliasExt name := by
  intro hmem
  cases isAlphanum_of_mem_aliasExt hmem

theorem makeShortName_candidate (hn : n < 100) : (∃ short, makeShortName (candidate name n) = .ok short) ↔
    (aliasStem name).length ≤ 5 ∨ (aliasStem name).length ≤ 6 ∧ n < 10 := by
  have hbase : ∀ c ∈ aliasStem name ++ '~' :: Nat.toDigits 10 n, isNameChar c = true := by
    intro c hc
    rcases mem_append.mp hc with hc | hc
    · exact isNameChar_of_mem_aliasStem hc
    rcases mem_cons.mp hc with rfl | hc
    · rfl
    · exact isDigit_toDigits n hn c hc
  have hext : ∀ c ∈ aliasExt name, c.isAlphanum = true := fun c => isAlphanum_of_mem_aliasExt
  have hne : aliasStem name ++ '~' :: Nat.toDigits 10 n ≠ [] := append_ne_nil_of_left_ne_nil aliasStem_ne_nil _
  have hsplit : splitExt (candidate name n) = (aliasStem name ++ '~' :: Nat.toDigits 10 n, aliasExt name) := by
    unfold candidate
    split_ifs with hnil
    · rw [append_nil, hnil]
      refine if_neg fun h => ?_
      cases hbase _ (contains_iff_mem.mp h.1)
    · rw [splitExt_of_dot not_mem_aliasExt, if_pos hne]
  rw [makeShortName_iff hsplit rfl hne hbase hext (length_take_le ..), length_append, length_cons,
    length_toDigits n hn]
  split_ifs <;> omega

theorem length_aliasStem_le : (aliasStem name).length ≤ 6 := by
  unfold aliasStem
  simp only
  split_ifs
  · decide
  · exact length_take_le ..

def Free (taken : List Text) (cand : Text) : Prop := ∀ t ∈ taken, eqIgnoreAsciiCase t cand = false

def Aliased (taken : List Text) (name : Text) : Prop :=
  ∃ short, makeUniqueShort name (fun cand => taken.any (eqIgnoreAsciiCase · cand)) = .ok short ∧ Legal short ∧
    Free taken (shortName short)

theorem free_iff {taken : List Text} : Free taken cand ↔ (!taken.any (eqIgnoreAsciiCase · cand)) = true := by
  simp [Free]

theorem makeUniqueShort_first {taken : List Text} (hn : 1 ≤ n ∧ n ≤ 99) (hfree : Free taken (candidate name n)) :
    ∃ m, 1 ≤ m ∧ m ≤ n ∧ Free taken (candidate name m) ∧
      makeUniqueShort name (fun cand => taken.any (eqIgnoreAsciiCase · cand)) = makeShortName (candidate name m) := by
  rw [makeUniqueShort_eq, find?_map]
  cases hfind : (range' 1 99).find? ((fun c => !taken.any (eqIgnoreAsciiCase · c)) ∘ candidate name) with
  | none =>
    have := find?_eq_none.mp hfind n (mem_range'_1.mpr (by omega))
    exact absurd (free_iff.mp hfree) this
  | some m =>
    have ⟨hm, hmem, hmin⟩ := find?_range'_eq_some.mp hfind
    have hrange := mem_range'_1.mp hmem
    refine ⟨m, hrange.1, Nat.le_of_not_lt fun hlt => ?_, free_iff.mpr hm, rfl⟩
    have := hmin n hn.1 hlt
    rw [Function.comp_apply, free_iff.mp hfree] at this
    cases this

theorem aliased_iff {taken : List Text} (hfree : ∃ n, 1 ≤ n ∧ n ≤ 99 ∧ Free taken (candidate name n)) :
    Aliased taken name ↔ (aliasStem name).length ≤ 5 ∨ ∃ n, 1 ≤ n ∧ n ≤ 9 ∧ Free taken (candidate name n) := by
  constructor
  · intro ⟨short, hs, _⟩
    obtain ⟨n, h1, h2, hn⟩ := hfree
    have ⟨m, hpos, hle, hm, hfirst⟩ := makeUniqueShort_first ⟨h1, h2⟩ hn
    rw [hfirst] at hs
    rcases (makeShortName_candidate (by omega)).mp ⟨short, hs⟩ with hlen | ⟨_, hlt⟩
    · exact .inl hlen
    · exact .inr ⟨m, hpos, Nat.le_of_lt_succ hlt, hm⟩
  · intro h
    have ⟨m, hlt, hm, hfirst, hroom⟩ : ∃ m, m < 100 ∧ Free taken (candidate name m) ∧
        makeUniqueShort name (fun cand => taken.any (eqIgnoreAsciiCase · cand)) = makeShortName (candidate name m) ∧
        ((aliasStem name).length ≤ 5 ∨ (aliasStem name).length ≤ 6 ∧ m < 10) := by
      rcases h with hlen | ⟨n, h1, h2, hn⟩
      · obtain ⟨n, h1, h2, hn⟩ := hfree
        have ⟨m, _, hle, hm, hfirst⟩ := makeUniqueShort_first ⟨h1, h2⟩ hn
        exact ⟨m, by omega, hm, hfirst, .inl hlen⟩
      · have ⟨m, _, hle, hm, hfirst⟩ := makeUniqueShort_first ⟨h1, by omega⟩ hn
        exact ⟨m, by omega, hm, hfirst, .inr ⟨length_aliasStem_le, by omega⟩⟩
    have ⟨short, hs⟩ := (makeShortName_candidate hlt).mpr hroom
    refine ⟨short, hfirst.trans hs, legal_of_makeShortName hs, fun t ht => ?_⟩
    have hsame := eqIgnoreAsciiCase_iff.mp ((shortName_new_iff hs).mpr (getLast?_candidate hlt not_mem_aliasExt))
    have hother := hm t ht
    rw [Bool.eq_false_iff, Ne, eqIgnoreAsciiCase_iff] at hother ⊢
    rwa [hsame]

theorem aliased_alone : Aliased [] Fat32.twelveChars :=
  have hfree : Free [] (candidate Fat32.twelveChars 1) := fun _ h => absurd h not_mem_nil
  (aliased_iff ⟨1, by decide, by decide, hfree⟩).mpr (.inr ⟨1, by decide, by decide, hfree⟩)

-- With nine files of the same stem, `LONGFI~10` is free but has nine characters.
theorem tenth_not_aliased : ∃ taken, taken.length = 9 ∧ Free taken (candidate Fat32.twelveChars 10) ∧
    ¬Aliased taken Fat32.twelveChars := by
  refine ⟨(range' 1 9).map (candidate Fat32.twelveChars), rfl, ?_, fun ⟨short, hs, _⟩ => ?_⟩
  · rw [free_iff]
    decide
  · have hfail : makeUniqueShort Fat32.twelveChars (fun cand => ((range' 1 9).map (candidate Fat32.twelveChars)).any
        (eqIgnoreAsciiCase · cand)) = fail .notSupported := by
      decide
    cases hfail.symm.trans hs

end unique

end Fat
