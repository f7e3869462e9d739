import Onyx.Fat.Interop

-- The name under which a scan lists a new entry: from the writer of slots to their reader.

open Lib Fat List

namespace Fat

section short

variable {name s : Text} {short : Bytes}

-- The bytes of names without a long form.
def isDosByte (b : UInt8) : Bool := isNameByte b || b == 46

theorem utf8EncodeChar_of_dos (h : ∀ b ∈ String.utf8EncodeChar c, isDosByte b = true) :
    c.toNat < 128 ∧ String.utf8EncodeChar c = [.ofNat c.toNat] := by
  have hhigh : ∀ n < 64, isDosByte (.ofNat (n + 128)) = false := by decide
  have hlast : 127 < c.toNat → UInt8.ofNat (c.toNat % 64 + 128) ∈ String.utf8EncodeChar c := by
    intro hlt
    unfold String.utf8EncodeChar
    simp only [show c.val.toNat = c.toNat from rfl, if_neg (Nat.not_le.mpr hlt)]
    split_ifs <;> simp
  have hle : c.toNat ≤ 127 := by
    refine Nat.le_of_not_lt fun hlt => ?_
    have := h _ (hlast hlt)
    rw [hhigh _ (Nat.mod_lt _ (by decide))] at this
    cases this
  exact ⟨Nat.lt_succ_of_le hle, if_pos hle⟩

theorem mem_utf8_of_mem (h : '.' ∈ s) : 46 ∈ utf8 s := mem_flatMap.mpr ⟨_, h, mem_singleton.mpr rfl⟩

-- What the reader shows of a name whose bytes are stored in upper case.
def upperText (s : Text) : Text := (utf8 s).map fun b => .ofNat (toAsciiUppercase b).toNat

theorem map_upperText (h : ∀ b ∈ utf8 s, isDosByte b = true) : (upperText s).map asciiLower = s.map asciiLower := by
  have hall : ∀ n < 128, asciiLower (.ofNat (toAsciiUppercase (.ofNat n)).toNat) = asciiLower (.ofNat n) := by decide
  induction s with
  | nil => rfl
  | cons c s hi =>
    have hcons : utf8 (c :: s) = String.utf8EncodeChar c ++ utf8 s := flatMap_cons
    rw [hcons] at h
    obtain ⟨hlt, hc⟩ := utf8EncodeChar_of_dos fun b hb => h b (mem_append_left _ hb)
    have hs := hi fun b hb => h b (mem_append_right _ hb)
    rw [upperText] at hs ⊢
    rw [hcons, hc, map_append, map_append, hs, map_singleton, map_singleton, hall _ hlt, Char.ofNat_toNat]
    rfl

theorem splitExt_of_dot (hext : '.' ∉ ext) :
    splitExt (base ++ '.' :: ext) = if base ≠ [] then (base, ext) else (base ++ '.' :: ext, []) := by
  have hwhile : (base ++ '.' :: ext).reverse.takeWhile (· ≠ '.') = ext.reverse := by
    have hall : ∀ c ∈ ext.reverse, decide (c ≠ '.') = true := fun c hc =>
      decide_eq_true fun heq => hext (heq ▸ mem_reverse.mp hc)
    rw [reverse_append, reverse_cons, append_assoc, takeWhile_append_of_pos hall]
    exact append_nil _
  have hlen : (base ++ '.' :: ext).length - ext.length - 1 = base.length := by
    simp only [length_append, length_cons]
    omega
  have hdot : (base ++ '.' :: ext).contains '.' = true := by simp
  simp only [splitExt, hwhile, reverse_reverse, hlen, take_left, hdot, true_and]

theorem splitExt_cases (name : Text) :
    (∃ base ext, splitExt name = (base, ext) ∧ '.' ∉ ext ∧ name = base ++ '.' :: ext) ∨ splitExt name = (name, []) := by
  by_cases hdot : '.' ∈ name
  · obtain ⟨tail, front, hrev, hnot⟩ := eq_append_cons_of_mem (mem_reverse.mpr hdot)
    have hname : name = front.reverse ++ '.' :: tail.reverse := by
      rw [← reverse_reverse name, hrev]
      simp
    have hext : '.' ∉ tail.reverse := fun h => hnot (mem_reverse.mp h)
    rw [hname, splitExt_of_dot hext]
    split
    · exact .inl ⟨_, _, rfl, hext, rfl⟩
    · exact .inr rfl
  · refine .inr (if_neg fun h => hdot ?_)
    simpa using h.1

theorem takeWhile_padded {b : Bytes} (h : ∀ x ∈ b, x ≠ 32) : (b ++ replicate n 32).takeWhile (· ≠ 32) = b := by
  have hall : ∀ x ∈ b, decide (x ≠ (32 : UInt8)) = true := fun x hx => decide_eq_true (h x hx)
  have hnil : (replicate n (32 : UInt8)).takeWhile (· ≠ 32) = [] := by cases n <;> rfl
  rw [takeWhile_append_of_pos hall, hnil, append_nil]

theorem shortName_eq (h1 : slot.slice 0 8 = b) (h2 : slot.slice 8 3 = e) (h3 : slot.getD 12 0 = 0)
    (hfirst : b.head? ≠ some 0x05) : shortName slot = (b.takeWhile (· ≠ 32)).map (fun x => .ofNat x.toNat) ++
      if e.any (· ≠ 32) then '.' :: (e.takeWhile (· ≠ 32)).map (fun x => .ofNat x.toNat) else [] := by
  unfold shortName
  simp only [h1, h2, h3, UInt8.zero_and, ne_eq, not_true_eq_false, if_false]
  cases b with
  | nil => rfl
  | cons x b =>
    have hx : ¬x = 0x05 := fun heq => hfirst (congrArg some heq)
    simp [if_neg hx]

theorem isNameByte_of_alphanumeric (h : isAsciiAlphanumeric b = true) : isNameByte b = true := by
  simp [isNameByte, h]

theorem shortName_new (h : makeShortName name = .ok short) :
    ∃ base ext, splitExt name = (base, ext) ∧ (∀ b ∈ utf8 base, isNameByte b = true) ∧ (∀ b ∈ utf8 ext, isNameByte b = true) ∧
      shortName short = upperText base ++ if ext = [] then [] else '.' :: upperText ext := by
  have ⟨base, ext, hsplit, hne, hb, he, hbase, hext, heq⟩ := makeShortName_cases h
  have ⟨hlen, x, rest, hx, hgood⟩ := makeShortName_eq_ok h
  have hext' : ∀ b ∈ utf8 ext, isNameByte b = true := fun b hm => isNameByte_of_alphanumeric (hext b hm)
  refine ⟨base, ext, hsplit, hbase, hext', ?_⟩
  have hlb : ((utf8 base).map toAsciiUppercase ++ replicate (8 - (utf8 base).length) 32).length = 8 := by
    simp only [length_append, length_map, length_replicate]
    omega
  have hle : ((utf8 ext).map toAsciiUppercase ++ replicate (3 - (utf8 ext).length) 32).length = 3 := by
    simp only [length_append, length_map, length_replicate]
    omega
  have h1 : short.slice 0 8 = (utf8 base).map toAsciiUppercase ++ replicate (8 - (utf8 base).length) 32 := by
    rw [heq, Bytes.slice, drop_zero]
    exact take_left' hlb
  have h2 : short.slice 8 3 = (utf8 ext).map toAsciiUppercase ++ replicate (3 - (utf8 ext).length) 32 := by
    rw [heq, Bytes.slice, drop_left' hlb]
    exact take_of_length_le (le_of_eq hle)
  have h3 : short.getD 12 0 = 0 := by
    simp [hlen]
  have hfirst : (short.slice 0 8).head? ≠ some 0x05 := by
    rw [hx]
    exact fun h => hgood.2.2.1 (Option.some.inj h)
  have hblank : ∀ {s : Text}, (∀ b ∈ utf8 s, isNameByte b = true) → ∀ x ∈ (utf8 s).map toAsciiUppercase, x ≠ 32 :=
    fun hs x hm => (goodFirst_of_mem_upper hs hm).2.2.2.1
  have htail : (((utf8 ext).map toAsciiUppercase ++ replicate (3 - (utf8 ext).length) 32).any (· ≠ 32)) = true ↔ ext ≠ [] := by
    constructor
    · rintro hany rfl
      simp [utf8] at hany
    · intro hne
      obtain ⟨x, hx⟩ := exists_mem_of_ne_nil _ fun hnil => utf8_ne_nil hne (map_eq_nil_iff.mp hnil)
      exact any_eq_true.mpr ⟨x, mem_append_left _ hx, decide_eq_true (hblank hext' x hx)⟩
  rw [shortName_eq h1 h2 h3 (h1 ▸ hfirst), takeWhile_padded (hblank hbase), takeWhile_padded (hblank hext'), upperText, upperText,
    map_map, map_map]
  simp only [htail, ne_eq, ite_not]
  rfl

theorem shortName_new_iff (h : makeShortName name = .ok short) :
    eqIgnoreAsciiCase (shortName short) name = true ↔ name.getLast? ≠ some '.' := by
  have ⟨base, ext, hsplit, hbase, hext, heq⟩ := shortName_new h
  have hupper : ∀ {s : Text}, (∀ b ∈ utf8 s, isNameByte b = true) → (upperText s).map asciiLower = s.map asciiLower :=
    fun hs => map_upperText fun b hb => by rw [isDosByte, hs b hb, Bool.true_or]
  rw [heq, eqIgnoreAsciiCase, decide_eq_true_eq, map_append, hupper hbase]
  rcases splitExt_cases name with ⟨base', ext', hsplit', hdot, rfl⟩ | hsplit'
  · cases hsplit.symm.trans hsplit'
    rw [map_append]
    by_cases hnil : ext = []
    · subst hnil
      refine iff_of_false (fun heq => ?_) fun hne => hne (getLast?_concat ..)
      cases append_cancel_left heq
    · rw [if_neg hnil, map_cons, hupper hext]
      refine iff_of_true rfl fun hlast => hdot ?_
      rw [getLast?_append, getLast?_cons, getLast?_eq_getLast_of_ne_nil hnil] at hlast
      exact Option.some.inj hlast ▸ getLast_mem hnil
  · cases hsplit.symm.trans hsplit'
    refine iff_of_true (append_nil _) fun hlast => ?_
    have := hbase 46 (mem_utf8_of_mem (mem_of_getLast? hlast))
    cases this

theorem getLast?_candidate (hn : n < 100) (hext : '.' ∉ ext) :
    (stem ++ '~' :: Nat.toDigits 10 n ++ if ext = [] then [] else '.' :: ext).getLast? ≠ some '.' := by
  have hdigits : ∀ n < 100, ('~' :: Nat.toDigits 10 n).getLast? ≠ some '.' := by decide
  split_ifs with hnil
  · rw [append_nil, getLast?_append_of_ne_nil _ (cons_ne_nil _ _)]
    exact hdigits n hn
  · rw [getLast?_append_of_ne_nil _ (cons_ne_nil _ _), getLast?_cons, getLast?_eq_some_getLast hnil]
    exact fun hlast => hext (Option.some.inj hlast ▸ getLast_mem hnil)

end short

section long

variable {name : Text} {short : Bytes}

theorem length_encodeUtf16_le (s : Text) : (encodeUtf16 s).length ≤ s.len := by
  induction s with
  | nil => exact le_refl 0
  | cons c s hi =>
    have hcons : Text.len (c :: s) = c.utf8Size + Text.len s := by
      simp [Text.len]
    have hc : (if c.toNat < 0x10000 then [c.toNat]
        else [0xD800 + (c.toNat - 0x10000) / 0x400, 0xDC00 + (c.toNat - 0x10000) % 0x400]).length ≤ c.utf8Size := by
      split_ifs with h
      · exact c.utf8Size_pos
      have hsize : c.utf8Size = 4 := by
        rw [Char.utf8Size, if_neg, if_neg, if_neg]
        all_goals
          rw [UInt32.le_iff_toNat_le]
          exact fun hle => h (lt_of_le_of_lt hle (by decide))
      rw [hsize]
      exact (by decide : 2 ≤ 4)
    rw [encodeUtf16, flatMap_cons, length_append, hcons]
    exact add_le_add hc hi

theorem lfnCount_le (h : name.len ≤ 255) : lfnCount name ≤ 20 := by
  have hle := length_encodeUtf16_le name
  obtain ⟨rest, hunits, _⟩ := encodeUtf16_trimmed name
  have hlen := congrArg length hunits
  rw [length_append] at hlen
  unfold lfnCount
  omega

def ownSlot (name : Text) (short : Bytes) (order : Nat) : Bytes :=
  lfnSlot (encodeUtf16 (trimmed name)) (lfnChecksum short) order ((lfnCount name - order) * 13)

theorem lfnSlots_eq_ownSlot : lfnSlots name short = (range (lfnCount name)).map fun j => ownSlot name short (lfnCount name - j) := by
  have hrev : lfnSlots name short = (range' 1 (lfnCount name)).reverse.map (ownSlot name short) := rfl
  rw [hrev, reverse_range', map_map]
  refine map_congr_left fun j _ => ?_
  rw [Function.comp_apply, Nat.add_sub_cancel_left]

theorem falls_lfnSlots (h : lfnCount name ≤ 31) : Falls (lfnSlots name short) := by
  have hmark : ∀ k < 32, 0 < k → (UInt8.ofNat k ||| if k = 1 then lfnLast else 0) &&& 0x1F = .ofNat k ∧
      (UInt8.ofNat k ||| if k = 1 then lfnLast else 0) ≠ slotDeleted := by decide
  rw [lfnSlots_eq_ownSlot]
  refine falls_of_order fun k hk hle => ?_
  have ⟨ho, hm⟩ := hmark k (by omega) hk
  exact ⟨ho, slotAttr_lfnSlot, hm⟩

theorem flatMap_lfnSlots : (lfnSlots name short).flatMap slotUnits =
    (range (lfnCount name * 13)).map fun i => ((encodeUtf16 (trimmed name))[i]?).getD 0 := by
  have hunits : ∀ j ∈ range (lfnCount name), slotUnits (ownSlot name short (lfnCount name - j)) =
      (range 13).map fun i => ((encodeUtf16 (trimmed name))[j * 13 + i]?).getD 0 := by
    intro j hj
    have hlt := mem_range.mp hj
    rw [ownSlot, lfnSlot_eq, slotUnits_longSlot fun i => getD_encodeUtf16_lt, Nat.sub_sub_self (Nat.le_of_lt hlt)]
  rw [lfnSlots_eq_ownSlot, flatMap_map, flatMap_congr hunits, flatMap_blocks (by decide)]
  refine map_congr_left fun i _ => ?_
  rw [Nat.div_add_mod']

theorem range_map_getD (h : l.length ≤ n) :
    (range n).map (fun i => (l[i]?).getD 0) = l ++ replicate (n - l.length) 0 := by
  apply ext_getElem?
  intro i
  by_cases hi : i < l.length
  · rw [getElem?_map, getElem?_range (lt_of_lt_of_le hi h), getElem?_append_left hi, Option.map_some,
      getElem?_eq_getElem hi]
    rfl
  have hle := Nat.le_of_not_lt hi
  rw [getElem?_map, getElem?_append_right hle, getElem?_replicate]
  split_ifs with hn
  · rw [getElem?_range (by omega), Option.map_some, getElem?_eq_none hle]
    rfl
  · rw [getElem?_eq_none (by rw [length_range]; omega)]
    rfl

theorem nameOf_padded (h : ∀ c ∈ s, Plain c) : nameOf (encodeUtf16 s ++ replicate n 0) = s := by
  have hterm : ∀ u ∈ s.map Char.toNat, isTerminator u = false := by
    intro u hu
    obtain ⟨c, hc, rfl⟩ := mem_map.mp hu
    exact (h c hc).2
  have hnil : nameOf (replicate n 0) = [] := by cases n <;> rfl
  rw [encodeUtf16_of_plain h, nameOf_append hterm, map_charFromU16_toNat, hnil, append_nil]

def Spelled (units : List Nat) (name : Text) : Prop :=
  if ∃ u ∈ units, isTerminator u = true then nameOf units = name
  else nameOf units ++ trimmed name = name ∧ ∀ c ∈ name, Plain c

instance : Decidable (Spelled units name) := by
  delta Spelled
  infer_instance

theorem nameOf_own_iff (hu : ∀ u ∈ units, u < 2 ^ 16) :
    nameOf (units ++ (lfnSlots name short).flatMap slotUnits) = name ↔ Spelled units name := by
  have hfit : (encodeUtf16 (trimmed name)).length ≤ lfnCount name * 13 := by
    unfold lfnCount
    omega
  obtain ⟨rest, _, hname, _⟩ := encodeUtf16_trimmed name
  rw [flatMap_lfnSlots, range_map_getD hfit, Spelled]
  split_ifs with ht
  · rw [nameOf_append_of_terminator ht]
  have hno : ∀ u ∈ units, isTerminator u = false := fun u hmem => Bool.eq_false_iff.mpr fun hstop => ht ⟨u, hmem, hstop⟩
  have hunits : nameOf units = units.map charFromU16 := by
    have : nameOf (units ++ []) = _ := nameOf_append hno
    rwa [append_nil, show nameOf [] = [] from rfl, append_nil] at this
  have hkey : (∀ c ∈ name, Plain c) → nameOf (units ++ (encodeUtf16 (trimmed name) ++
      replicate (lfnCount name * 13 - (encodeUtf16 (trimmed name)).length) 0)) = nameOf units ++ trimmed name := by
    intro hplain
    rw [nameOf_append hno, hunits, nameOf_padded fun c hc => hplain c (hname ▸ mem_append_left _ hc)]
  constructor
  · intro heq
    have hplain : ∀ c ∈ name, Plain c := by
      intro c hc
      rw [← heq] at hc
      refine plain_of_mem_nameOf (fun u hmem => ?_) hc
      rcases mem_append.mp hmem with hmem | hmem
      · exact hu u hmem
      rcases mem_append.mp hmem with hmem | hmem
      · exact mem_encodeUtf16_lt hmem
      · rw [eq_of_mem_replicate hmem]
        decide
    exact ⟨(hkey hplain).symm.trans heq, hplain⟩
  · exact fun h => (hkey h.2).trans h.1

end long

end Fat

namespace Fat32

variable {name : Text} {short : Bytes} {lfn A : List Bytes} {es : List RawEntry}

-- The entry has the given name, up to case where that is stored as a short one.
def Carries (name : Text) (e : RawEntry) : Prop :=
  if needsLfn name then e.name = name else eqIgnoreAsciiCase e.name name = true

theorem Carries.eqIgnoreAsciiCase (h : Carries name e) : Fat.eqIgnoreAsciiCase e.name name = true := by
  unfold Carries at h
  split_ifs at h
  · rw [h]
    exact eqIgnoreAsciiCase_iff.mpr rfl
  · exact h

-- A new entry with the given name is listed under it, with the given slots in front of it.
def Kept (A : List Bytes) (name : Text) (short : Bytes) : Prop :=
  if needsLfn name then Spelled (carried (pendingRun .empty A) (lfnCount name)) name
  else if (pendingRun .empty A).parts = [] ∨ (pendingRun .empty A).sum ≠ lfnChecksum short then name.getLast? ≠ some '.'
  else eqIgnoreAsciiCase (lfnName (pendingRun .empty A).parts) name = true

instance : Decidable (Kept A name short) := by
  delta Kept
  infer_instance

theorem deriveFrom_cases (h : deriveFrom scan name ex = .ok (short, lfn)) :
    needsLfn name = true ∧ lfn = lfnSlots name short ∧ (∃ es, scan = .ok es ∧ makeUniqueShort name (fun cand =>
        ((es.map (·.short)).filter fun s => !ex.any (eqIgnoreAsciiCase s)).any (eqIgnoreAsciiCase · cand)) = .ok short) ∨
      needsLfn name = false ∧ lfn = [] ∧ makeShortName name = .ok short := by
  unfold deriveFrom at h
  split_ifs at h with hl
  · have ⟨es, hes, h⟩ := Result.bind_eq_ok.mp h
    have ⟨s, hs, h⟩ := Result.bind_eq_ok.mp h
    cases h
    exact .inl ⟨hl, rfl, es, hes, hs⟩
  · have ⟨s, hs, h⟩ := Result.bind_eq_ok.mp h
    cases h
    exact .inr ⟨Bool.eq_false_iff.mpr hl, rfl, hs⟩

theorem carries_new_iff (hd : deriveFrom scan name ex = .ok (short, lfn)) (hlen : name.len ≤ 255) :
    Carries name (entryOf h (pendingRun .empty (A ++ lfn)) (packSlot short attr first size t) idx) ↔ Kept A name short := by
  have hshort := (deriveFrom_eq_ok hd).length_short
  rcases deriveFrom_cases hd with ⟨hl, rfl, _⟩ | ⟨hl, rfl, hmake⟩
  · have hcount := lfnCount_le hlen
    have hnum : (lfnSlots name short).length = lfnCount name := by
      rw [lfnSlots_eq_ownSlot, length_map, length_range]
    have hne : lfnSlots name short ≠ [] := by
      intro hnil
      rw [hnil] at hnum
      unfold lfnCount at hnum
      exact absurd hnum (by rw [length_nil]; omega)
    have hsum : slotSum ((lfnSlots name short).getLast hne) = lfnChecksum ((packSlot short attr first size t).slice 0 11) := by
      obtain ⟨unit, hlast⟩ := getLast?_lfnSlots name short
      rw [getLast?_eq_getLast_of_ne_nil hne] at hlast
      rw [Option.some.inj hlast, slotSum_longSlot, slice_packSlot hshort]
    rw [Carries, if_pos hl, Kept, if_pos hl, name_entryOf_falls (falls_lfnSlots (by omega)) hne (by omega) hsum, hnum]
    exact nameOf_own_iff fun u hu => lt_of_mem_carried hu
  · rw [Carries, if_neg (by simp [hl]), Kept, if_neg (by simp [hl]), append_nil]
    simp only [entryOf, slice_packSlot hshort, shortName_packSlot hshort]
    split_ifs
    · exact shortName_new_iff hmake
    · rfl

end Fat32
