import Onyx.Fat.LongName
import Onyx.Fat.Image

-- Long names against the VFAT format: what the driver writes, and what it reads of another's run.

open Lib
open List hiding sum count

namespace Fat

-- Unit `j` of a name as it is stored: the name, a terminator, padding.
def vfatUnit (units : List Nat) (j : Nat) : Nat :=
  if j < units.length then units.getD j 0 else if j = units.length then 0x0000 else 0xFFFF

def vfatSlot (units : List Nat) (sum : UInt8) (count k : Nat) : Bytes :=
  longSlot (.ofNat k ||| if k = count then lfnLast else 0) sum fun i => vfatUnit units ((k - 1) * 13 + i)

def vfatCount (units : List Nat) : Nat := (units.length + 12) / 13

-- The run that the format prescribes, the highest slot first.
def vfatRun (units : List Nat) (sum : UInt8) : List Bytes :=
  (List.range (vfatCount units)).map fun j => vfatSlot units sum (vfatCount units) (vfatCount units - j)

theorem length_vfatRun : (vfatRun units sum).length = vfatCount units := by
  simp [vfatRun]

theorem mem_encodeUtf16_lt (h : u ∈ encodeUtf16 name) : u < 2 ^ 16 := by
  obtain ⟨c, _, hu⟩ := mem_flatMap.mp h
  have hvalid : c.toNat < 0xD800 ∨ 0xDFFF < c.toNat ∧ c.toNat < 0x110000 := c.valid
  split at hu
  · rw [mem_singleton.mp hu]
    assumption
  · simp only [mem_cons, not_mem_nil, or_false] at hu
    omega

theorem getD_encodeUtf16_lt {i : Nat} : (encodeUtf16 name)[i]?.getD 0 < 2 ^ 16 := by
  match hi : (encodeUtf16 name)[i]? with
  | none => exact Nat.two_pow_pos 16
  | some u => exact mem_encodeUtf16_lt (mem_of_getElem? hi)

theorem vfatUnit_lt : vfatUnit (encodeUtf16 name) j < 2 ^ 16 := by
  unfold vfatUnit
  split
  · rw [getD_eq_getElem?_getD]
    exact getD_encodeUtf16_lt
  · split <;> decide

section writer

def trimmed (name : Text) : Text := name.rdropWhile fun c => c = ' ' ∨ c = '.'

-- Names of 12 or 13 units that do not end in a blank or a dot.
def FitsOneSlot (name : Text) : Prop :=
  ((encodeUtf16 name).length = 12 ∨ (encodeUtf16 name).length = 13) ∧ trimmed name = name

instance : DecidablePred FitsOneSlot := fun _ => inferInstanceAs (Decidable (_ ∧ _))

def lfnCount (name : Text) : Nat := max (((encodeUtf16 (trimmed name)).length + 12) / 13) 1

theorem lfnSlots_eq : lfnSlots name short = (List.range' 1 (lfnCount name)).reverse.map fun order =>
    longSlot (.ofNat order ||| if order = 1 then lfnLast else 0) (lfnChecksum short) fun i =>
      ((encodeUtf16 (trimmed name))[(lfnCount name - order) * 13 + i]?).getD 0 :=
  rfl

theorem lfnSlots_of_short (h : (encodeUtf16 (trimmed name)).length ≤ 13) :
    lfnSlots name short = [longSlot (1 ||| lfnLast) (lfnChecksum short) fun i => (encodeUtf16 (trimmed name))[i]?.getD 0] := by
  have hcount : lfnCount name = 1 := by
    unfold lfnCount
    omega
  simp only [lfnSlots_eq, hcount, List.range', reverse_singleton, map_singleton, if_true, Nat.sub_self, Nat.zero_mul,
    Nat.zero_add]
  rfl

theorem getLast?_lfnSlots (name : Text) (short : Bytes) :
    ∃ unit, (lfnSlots name short).getLast? = some (longSlot (1 ||| lfnLast) (lfnChecksum short) unit) := by
  have hcount : lfnCount name ≠ 0 := by
    unfold lfnCount
    omega
  obtain ⟨n, hn⟩ := Nat.exists_eq_succ_of_ne_zero hcount
  rw [lfnSlots_eq, hn, range'_succ, reverse_cons, map_append, map_singleton, getLast?_concat]
  exact ⟨_, rfl⟩

theorem getLast?_vfatRun (h : 0 < vfatCount units) :
    (vfatRun units sum).getLast? = some (vfatSlot units sum (vfatCount units) 1) := by
  obtain ⟨n, hn⟩ := Nat.exists_eq_succ_of_ne_zero (Nat.ne_of_gt h)
  rw [vfatRun, hn, range_succ, map_append, map_singleton, getLast?_concat, Nat.succ_sub (Nat.le_refl n),
    Nat.sub_self]

theorem vfatCount_of_eq (h : lfnSlots name short = vfatRun (encodeUtf16 name) (lfnChecksum short)) :
    vfatCount (encodeUtf16 name) = 1 := by
  obtain ⟨unit, hlast⟩ := getLast?_lfnSlots name short
  rw [h] at hlast
  rcases eq_zero_or_pos (vfatCount (encodeUtf16 name)) with h0 | hpos
  · rw [vfatRun, h0] at hlast
    cases hlast
  rw [getLast?_vfatRun hpos] at hlast
  have hmark := congrArg slotMark (Option.some.inj hlast)
  rw [slotMark_longSlot, vfatSlot, slotMark_longSlot] at hmark
  split at hmark
  · rename_i hc
    exact hc.symm
  · exact absurd hmark (by decide)

theorem encodeUtf16_trimmed (name : Text) : ∃ rest, encodeUtf16 name = encodeUtf16 (trimmed name) ++ encodeUtf16 rest ∧
    name = trimmed name ++ rest ∧ ∀ c ∈ rest, c = ' ' ∨ c = '.' := by
  refine ⟨name.rtakeWhile fun c => c = ' ' ∨ c = '.', ?_, ?_, fun c hc => ?_⟩
  · rw [encodeUtf16, encodeUtf16, encodeUtf16, ← flatMap_append, trimmed, rdropWhile_append_rtakeWhile]
  · rw [trimmed, rdropWhile_append_rtakeWhile]
  · have := mem_rtakeWhile_imp hc
    simpa using this

theorem lfnSlots_eq_vfatRun_iff :
    lfnSlots name short = vfatRun (encodeUtf16 name) (lfnChecksum short) ↔ FitsOneSlot name := by
  obtain ⟨rest, hunits, hname, hrest⟩ := encodeUtf16_trimmed name
  constructor
  · intro h
    have hcount := vfatCount_of_eq h
    have hlen : (encodeUtf16 name).length ≤ 13 ∧ 0 < (encodeUtf16 name).length := by
      unfold vfatCount at hcount
      omega
    have hle : (encodeUtf16 (trimmed name)).length ≤ (encodeUtf16 name).length := by
      rw [hunits, length_append]
      exact Nat.le_add_right ..
    have hsame : ∀ i, i < 13 → (encodeUtf16 (trimmed name))[i]?.getD 0 = vfatUnit (encodeUtf16 name) i := by
      rw [lfnSlots_of_short (le_trans hle hlen.1), vfatRun, hcount] at h
      have hslot : _ = slotUnits (vfatSlot (encodeUtf16 name) (lfnChecksum short) 1 1) := congrArg slotUnits (singleton_inj.mp h)
      rw [slotUnits_longSlot fun i => getD_encodeUtf16_lt, vfatSlot, slotUnits_longSlot fun i => vfatUnit_lt,
        map_inj_left] at hslot
      intro i hi
      have := hslot i (mem_range.mpr hi)
      rwa [Nat.sub_self, Nat.zero_mul, Nat.zero_add] at this
    -- The unit behind the trimmed name is one of the name or its end.
    have hnil : rest = [] := by
      cases rest with
      | nil => rfl
      | cons c rest =>
        have hc := hrest c (mem_cons_self ..)
        have hcode : encodeUtf16 (c :: rest) = c.toNat :: encodeUtf16 rest := by
          rcases hc with rfl | rfl <;> rfl
        have hlt : (encodeUtf16 (trimmed name)).length < (encodeUtf16 name).length := by
          rw [hunits, length_append, hcode, length_cons]
          omega
        have hunit := hsame (encodeUtf16 (trimmed name)).length (by omega)
        rw [getElem?_eq_none (le_refl _), vfatUnit, if_pos hlt, getD_eq_getElem?_getD, hunits,
          getElem?_append_right (Nat.le_refl _), Nat.sub_self, hcode] at hunit
        rcases hc with rfl | rfl
        · exact absurd hunit (show 0 ≠ 32 by decide)
        · exact absurd hunit (show 0 ≠ 46 by decide)
    have htrim : trimmed name = name := by
      rw [hnil, append_nil] at hname
      exact hname.symm
    refine ⟨?_, htrim⟩
    rw [htrim] at hsame
    by_cases hshort : (encodeUtf16 name).length < 12
    · have hunit := hsame ((encodeUtf16 name).length + 1) (by omega)
      rw [getElem?_eq_none (Nat.le_succ _), vfatUnit, if_neg (by omega), if_neg (by omega)] at hunit
      cases hunit
    · omega
  · rintro ⟨hlen, htrim⟩
    have hle : (encodeUtf16 (trimmed name)).length ≤ 13 := by
      rw [htrim]
      omega
    have hcount : vfatCount (encodeUtf16 name) = 1 := by
      unfold vfatCount
      omega
    rw [lfnSlots_of_short hle, vfatRun, hcount, htrim]
    have hunit : ∀ i, i < 13 → (encodeUtf16 name)[i]?.getD 0 = vfatUnit (encodeUtf16 name) i := by
      intro i hi
      unfold vfatUnit
      split
      · rw [getD_eq_getElem?_getD]
      · rw [getElem?_eq_none (by omega), if_pos (by omega)]
        rfl
    simp [vfatSlot, longSlot, range_succ, List.range', hunit]

end writer

section reader

-- The characters that stand for themselves in a slot.
def Plain (c : Char) : Prop := c.toNat < 0x10000 ∧ isTerminator c.toNat = false

instance : DecidablePred Plain := fun _ => inferInstanceAs (Decidable (_ ∧ _))

theorem forall_plain_of_all {name : Text} (h : name.all (fun c => decide (Plain c)) = true) : ∀ c ∈ name, Plain c :=
  fun c hc => of_decide_eq_true (all_eq_true.mp h c hc)

theorem encodeUtf16_of_plain (h : ∀ c ∈ name, Plain c) : encodeUtf16 name = name.map Char.toNat := by
  induction name with
  | nil => rfl
  | cons c s hi =>
    have hc : c.toNat < 0x10000 := (h c (mem_cons_self ..)).1
    rw [encodeUtf16, flatMap_cons, if_pos hc, map_cons, ← hi fun c hm => h c (mem_cons_of_mem _ hm)]
    rfl

theorem charFromU16_toNat (c : Char) : charFromU16 c.toNat = c := by
  have hvalid : c.toNat < 0xD800 ∨ 0xDFFF < c.toNat ∧ c.toNat < 0x110000 := c.valid
  rw [charFromU16, if_neg (by omega)]
  exact Char.ofNat_toNat c

theorem map_charFromU16_toNat (s : Text) : (s.map Char.toNat).map charFromU16 = s := by
  rw [map_map]
  exact (map_congr_left fun c _ => charFromU16_toNat c).trans (map_id s)

theorem plain_of_mem_nameOf (hu : ∀ u ∈ units, u < 2 ^ 16) (hc : c ∈ nameOf units) : Plain c := by
  obtain ⟨u, hmem, rfl⟩ := mem_map.mp hc
  have hlt : u < 2 ^ 16 := hu u (takeWhile_subset _ hmem)
  have hstop := mem_takeWhile_imp (p := fun u => !isTerminator u) hmem
  unfold charFromU16
  split
  · exact ⟨by decide, by decide⟩
  have hvalid : u.isValidChar := by
    rename_i hs
    show u < 0xD800 ∨ 0xDFFF < u ∧ u < 0x110000
    omega
  have hnat : (Char.ofNat u).toNat = u := by
    rw [Char.ofNat, dif_pos hvalid]
    exact UInt32.toNat_ofNatLT
  rw [Plain, hnat]
  exact ⟨hlt, by simpa using hstop⟩

inductive Readable (units : List Nat) (name : Text) : Prop
  -- The pending run already spells the name.
  | carried (ht : ∃ u ∈ units, isTerminator u = true) (hn : nameOf units = name)
  -- The pending run spells what is in front of the last part.
  | tail (ht : ∀ u ∈ units, isTerminator u = false) (hr : name.length % 13 ≠ 0)
    (hn : units.map charFromU16 = name.take (name.length / 13 * 13))
  -- All parts are full, and they are the same from either side.
  | mirrored (hn : units = []) (hr : name.length % 13 = 0)
    (hm : ∀ i, i < name.length → name[i]? = name[(name.length / 13 - 1 - i / 13) * 13 + i % 13]?)

-- The units of a conforming run in the order of the slots.
def vfatUnits (units : List Nat) : List Nat :=
  (List.range (vfatCount units)).flatMap fun j =>
    (List.range 13).map fun i => vfatUnit units ((vfatCount units - j - 1) * 13 + i)

theorem flatMap_vfatRun : (vfatRun (encodeUtf16 name) sum).flatMap slotUnits = vfatUnits (encodeUtf16 name) := by
  rw [vfatRun, flatMap_map, vfatUnits]
  refine flatMap_congr fun j _ => ?_
  rw [vfatSlot, slotUnits_longSlot fun i => vfatUnit_lt]

theorem nameOf_append_of_terminator (h : ∃ u ∈ units, isTerminator u = true) : nameOf (units ++ rest) = nameOf units := by
  obtain ⟨u, hu, ht⟩ := h
  have hlt : (units.takeWhile fun u => !isTerminator u).length ≠ units.length := by
    intro heq
    have hall := (List.takeWhile_prefix (l := units) fun u => !isTerminator u).eq_of_length heq
    have := takeWhile_eq_self_iff.mp hall u hu
    rw [ht] at this
    cases this
  rw [nameOf, takeWhile_append, if_neg hlt, nameOf]

theorem nameOf_append (h : ∀ u ∈ units, isTerminator u = false) : nameOf (units ++ rest) = units.map charFromU16 ++ nameOf rest := by
  have hall : ∀ u ∈ units, (fun u => !isTerminator u) u = true := fun u hu => by simp [h u hu]
  rw [nameOf, takeWhile_append_of_pos hall, map_append, nameOf]

theorem flatMap_blocks {α : Type} {g : Nat → Nat → α} (hn : 0 < n) (count : Nat) :
    (List.range count).flatMap (fun j => (List.range n).map (g j)) = (List.range (count * n)).map fun i => g (i / n) (i % n) := by
  induction count with
  | zero => simp
  | succ count hi =>
    have hlast : (List.range n).map (g count) = (List.range n).map fun i => g ((count * n + i) / n) ((count * n + i) % n) := by
      refine map_congr_left fun i hmem => ?_
      have hlt := mem_range.mp hmem
      rw [Nat.mul_comm, Nat.mul_add_div hn, Nat.div_eq_of_lt hlt, Nat.mul_add_mod, Nat.mod_eq_of_lt hlt, Nat.add_zero]
    rw [range_succ, flatMap_append, hi, Nat.succ_mul, range_add, map_append, map_map, flatMap_singleton,
      hlast]
    rfl

theorem vfatUnit_map {name : Text} (h : j < name.length) :
    vfatUnit (name.map Char.toNat) j = (name.map Char.toNat).getD j 0 :=
  if_pos (by rwa [length_map])

theorem nameOf_vfatUnits_of_tail {name : Text} (hplain : ∀ c ∈ name, Plain c) (hr : name.length % 13 ≠ 0) :
    nameOf (vfatUnits (name.map Char.toNat)) = name.drop (name.length / 13 * 13) := by
  have hcount : vfatCount (name.map Char.toNat) = name.length / 13 + 1 := by
    rw [vfatCount, length_map]
    omega
  have hsplit : List.range 13 = List.range (name.length % 13) ++ name.length % 13 :: List.range' (name.length % 13 + 1) (12 - name.length % 13) := by
    have hadd : List.range' 0 (name.length % 13) ++ List.range' (0 + name.length % 13) (12 - name.length % 13 + 1) = List.range' 0 13 := by
      rw [range'_append_1]
      congr 1
      omega
    rw [zero_add, ← range_eq_range', ← range_eq_range'] at hadd
    rw [← range'_succ, hadd]
  have hpart : (List.range (name.length % 13)).map (fun i => vfatUnit (name.map Char.toNat) (name.length / 13 * 13 + i)) =
      (name.drop (name.length / 13 * 13)).map Char.toNat := by
    apply ext_getElem?
    intro i
    rw [getElem?_map, getElem?_map, getElem?_drop]
    by_cases hi : i < name.length % 13
    · have hlt : name.length / 13 * 13 + i < name.length := by omega
      rw [getElem?_range hi, Option.map_some, vfatUnit_map hlt, getD_eq_getElem?_getD, getElem?_map,
        getElem?_eq_getElem hlt]
      rfl
    · rw [getElem?_eq_none (by rw [length_range]; omega), getElem?_eq_none (by omega)]
      rfl
  have hstop : vfatUnit (name.map Char.toNat) (name.length / 13 * 13 + name.length % 13) = 0 := by
    rw [vfatUnit, length_map, if_neg (by omega), if_pos (by omega)]
  have hterm : ∀ u ∈ (name.drop (name.length / 13 * 13)).map Char.toNat, isTerminator u = false := by
    intro u hu
    obtain ⟨c, hc, rfl⟩ := mem_map.mp hu
    exact (hplain c (drop_subset _ _ hc)).2
  have hfirst : List.range (name.length / 13 + 1) = 0 :: (List.range (name.length / 13)).map Nat.succ := range_succ_eq_map
  rw [vfatUnits, hcount, hfirst, flatMap_cons, Nat.sub_zero, Nat.add_sub_cancel, hsplit, map_append, hpart,
    append_assoc, nameOf_append hterm, map_charFromU16_toNat, map_cons, hstop]
  exact append_nil _

theorem vfatUnits_of_full {name : Text} (hr : name.length % 13 = 0) :
    vfatUnits (name.map Char.toNat) = (List.range name.length).map fun i =>
      (name.map Char.toNat).getD ((name.length / 13 - 1 - i / 13) * 13 + i % 13) 0 := by
  have hcount : vfatCount (name.map Char.toNat) = name.length / 13 := by
    rw [vfatCount, length_map]
    omega
  have hlen : name.length / 13 * 13 = name.length := by omega
  rw [vfatUnits, hcount, flatMap_blocks (by decide), hlen]
  refine map_congr_left fun i hi => ?_
  have hlt := mem_range.mp hi
  rw [Nat.sub_right_comm, vfatUnit_map]
  omega

theorem lt_of_mem_vfatUnits (h : u ∈ vfatUnits (encodeUtf16 name)) : u < 2 ^ 16 := by
  obtain ⟨j, _, hj⟩ := mem_flatMap.mp h
  obtain ⟨i, _, rfl⟩ := mem_map.mp hj
  exact vfatUnit_lt

theorem nameOf_vfatUnits_of_full {name : Text} (hplain : ∀ c ∈ name, Plain c) (hr : name.length % 13 = 0) :
    (nameOf (vfatUnits (name.map Char.toNat))).length = name.length ∧ (nameOf (vfatUnits (name.map Char.toNat)) = name ↔
      ∀ i, i < name.length → name[i]? = name[(name.length / 13 - 1 - i / 13) * 13 + i % 13]?) := by
  have hinside : ∀ i, i < name.length → (name.length / 13 - 1 - i / 13) * 13 + i % 13 < name.length := fun i hi => by omega
  have hunit : ∀ i, i < name.length → ∃ c, name[(name.length / 13 - 1 - i / 13) * 13 + i % 13]? = some c ∧
      (name.map Char.toNat).getD ((name.length / 13 - 1 - i / 13) * 13 + i % 13) 0 = c.toNat := by
    intro i hi
    refine ⟨_, getElem?_eq_getElem (hinside i hi), ?_⟩
    rw [getD_eq_getElem?_getD, getElem?_map, getElem?_eq_getElem (hinside i hi)]
    rfl
  have hterm : ∀ u ∈ vfatUnits (name.map Char.toNat), isTerminator u = false := by
    rw [vfatUnits_of_full hr]
    intro u hu
    obtain ⟨i, hi, rfl⟩ := mem_map.mp hu
    obtain ⟨c, hc, heq⟩ := hunit i (mem_range.mp hi)
    rw [heq]
    exact (hplain c (mem_of_getElem? hc)).2
  have hname : nameOf (vfatUnits (name.map Char.toNat) ++ []) = _ := nameOf_append hterm
  rw [append_nil, show nameOf [] = [] from rfl, append_nil] at hname
  rw [hname, vfatUnits_of_full hr, map_map]
  refine ⟨by rw [length_map, length_range], ?_⟩
  constructor
  · intro heq i hi
    obtain ⟨c, hc, hnat⟩ := hunit i hi
    have hget := congrArg (·[i]?) heq
    simp only [getElem?_map, getElem?_range hi, Option.map_some, Function.comp_apply, hnat, charFromU16_toNat] at hget
    rw [← hget, hc]
  · intro hm
    apply ext_getElem?
    intro i
    by_cases hi : i < name.length
    · obtain ⟨c, hc, hnat⟩ := hunit i hi
      rw [getElem?_map, getElem?_range hi, Option.map_some, Function.comp_apply, hnat, charFromU16_toNat, hm i hi, hc]
    · rw [getElem?_eq_none (by rw [length_map, length_range]; omega), getElem?_eq_none (by omega)]

theorem nameOf_vfat_iff (hu : ∀ u ∈ units, u < 2 ^ 16) :
    nameOf (units ++ vfatUnits (encodeUtf16 name)) = name ↔ (∀ c ∈ name, Plain c) ∧ Readable units name := by
  have hlt : ∀ u ∈ units ++ vfatUnits (encodeUtf16 name), u < 2 ^ 16 := by
    intro u hmem
    rcases mem_append.mp hmem with hmem | hmem
    · exact hu u hmem
    · exact lt_of_mem_vfatUnits hmem
  by_cases hplain : ∀ c ∈ name, Plain c
  case neg => exact iff_of_false (fun heq => hplain fun c hc => plain_of_mem_nameOf hlt (by rwa [heq])) fun h => hplain h.1
  rw [and_iff_right hplain, encodeUtf16_of_plain hplain]
  by_cases ht : ∃ u ∈ units, isTerminator u = true
  · rw [nameOf_append_of_terminator ht]
    refine ⟨.carried ht, fun h => ?_⟩
    cases h with
    | carried _ hn => exact hn
    | tail hno _ _ =>
      obtain ⟨u, hmem, hstop⟩ := ht
      rw [hno u hmem] at hstop
      cases hstop
    | mirrored hn _ _ =>
      obtain ⟨u, hmem, _⟩ := ht
      rw [hn] at hmem
      cases hmem
  · have hno : ∀ u ∈ units, isTerminator u = false := fun u hmem => by
      cases hstop : isTerminator u with
      | false => rfl
      | true => exact absurd ⟨u, hmem, hstop⟩ ht
    rw [nameOf_append hno]
    by_cases hr : name.length % 13 = 0
    · have ⟨hlen, hmirror⟩ := nameOf_vfatUnits_of_full hplain hr
      constructor
      · intro heq
        have hnil : units = [] := by
          have := congrArg List.length heq
          rw [length_append, length_map, hlen] at this
          exact eq_nil_of_length_eq_zero (by omega)
        rw [hnil] at heq
        exact .mirrored hnil hr (hmirror.mp heq)
      · intro h
        cases h with
        | carried ht' _ => exact absurd ht' ht
        | tail _ hr' _ => exact absurd hr hr'
        | mirrored hn _ hm =>
          rw [hn]
          exact hmirror.mpr hm
    · rw [nameOf_vfatUnits_of_tail hplain hr]
      constructor
      · intro heq
        refine .tail hno hr (append_cancel_right (heq.trans ?_))
        exact (take_append_drop ..).symm
      · intro h
        cases h with
        | carried ht' _ => exact absurd ht' ht
        | tail _ _ hn =>
          rw [hn]
          exact take_append_drop ..
        | mirrored _ hr' _ => exact absurd hr' hr

theorem order_vfatSlot : ∀ k < 32, (UInt8.ofNat k ||| if k = count then lfnLast else 0) &&& 0x1F = .ofNat k := by
  intro k hk
  have hflag : ∀ k < 32, (UInt8.ofNat k ||| lfnLast) &&& 0x1F = .ofNat k ∧ (UInt8.ofNat k ||| 0) &&& 0x1F = .ofNat k := by decide
  split
  · exact (hflag k hk).1
  · exact (hflag k hk).2

theorem mark_vfatSlot (h0 : 0 < k) (hk : k < 32) : (UInt8.ofNat k ||| if k = count then lfnLast else 0) ≠ slotDeleted ∧
    (UInt8.ofNat k ||| if k = count then lfnLast else 0) ≠ slotEnd := by
  have hflag : ∀ k < 32, 0 < k → (UInt8.ofNat k ||| lfnLast ≠ slotDeleted ∧ UInt8.ofNat k ||| lfnLast ≠ slotEnd) ∧
      (UInt8.ofNat k ||| 0 ≠ slotDeleted ∧ UInt8.ofNat k ||| 0 ≠ slotEnd) := by decide
  split
  · exact (hflag k hk h0).1
  · exact (hflag k hk h0).2

theorem falls_vfatRun (hn : vfatCount units ≤ 31) : Falls (vfatRun units sum) := by
  refine falls_of_order fun k hk hle => ⟨order_vfatSlot k (by omega), slotAttr_longSlot, ?_⟩
  exact (mark_vfatSlot hk (by omega)).1

theorem endless_vfatRun (hn : vfatCount units ≤ 31) : Endless (vfatRun units sum) := by
  intro s hs
  obtain ⟨j, hj, rfl⟩ := mem_map.mp hs
  have := mem_range.mp hj
  exact (mark_vfatSlot (by omega) (by omega)).2

theorem u16At_lt_of_mem_lfnUnits (h : u ∈ lfnUnits part) : u < 2 ^ 16 := by
  obtain ⟨i, _, rfl⟩ := mem_map.mp h
  exact Bytes.u16At_lt ..

theorem lt_of_mem_carried (h : u ∈ carried run n) : u < 2 ^ 16 := by
  unfold carried at h
  split at h
  · obtain ⟨p, _, hp⟩ := mem_flatMap.mp h
    exact u16At_lt_of_mem_lfnUnits hp
  · cases h

theorem vfatRun_read_iff (hpre : Endless pre) (hne : name ≠ [])
    (hcount : vfatCount (encodeUtf16 name) ≤ 31) (hlive : isLive slot = true) :
    (∃ e ∈ entriesOf h (pre ++ vfatRun (encodeUtf16 name) (lfnChecksum (slot.slice 0 11)) ++ slot :: post),
      e.dirIndex = pre.length + vfatCount (encodeUtf16 name) ∧ e.name = name) ↔
      (∀ c ∈ name, Plain c) ∧ Readable (carried (pendingRun .empty pre) (vfatCount (encodeUtf16 name))) name := by
  have hpos : 0 < vfatCount (encodeUtf16 name) := by
    obtain ⟨c, s, rfl⟩ := exists_cons_of_ne_nil hne
    have : 0 < (encodeUtf16 (c :: s)).length := by
      rw [encodeUtf16, flatMap_cons, length_append]
      exact Nat.add_pos_left (by split <;> exact Nat.succ_pos _) _
    unfold vfatCount
    omega
  have hrun : vfatRun (encodeUtf16 name) (lfnChecksum (slot.slice 0 11)) ≠ [] := by
    intro hnil
    have := congrArg List.length hnil
    rw [length_vfatRun] at this
    exact absurd this (ne_of_gt hpos)
  have hsum : slotSum ((vfatRun (encodeUtf16 name) (lfnChecksum (slot.slice 0 11))).getLast hrun) = lfnChecksum (slot.slice 0 11) := by
    have hlast : (vfatRun (encodeUtf16 name) (lfnChecksum (slot.slice 0 11))).getLast? = _ := getLast?_vfatRun hpos
    rw [getLast?_eq_some_getLast hrun] at hlast
    rw [Option.some.inj hlast]
    exact slotSum_longSlot
  have hlen : (vfatRun (encodeUtf16 name) (lfnChecksum (slot.slice 0 11))).length ≤ 31 := by rwa [length_vfatRun]
  obtain ⟨e, hmem, hidx, _, hname⟩ :=
    @name_of_falls h pre _ post slot hpre (falls_vfatRun hcount) hrun hlen (endless_vfatRun hcount) hlive hsum
  rw [length_vfatRun] at hidx hname
  rw [flatMap_vfatRun] at hname
  rw [← nameOf_vfat_iff fun u => lt_of_mem_carried, ← hname]
  constructor
  · rintro ⟨e', hmem', hidx', hname'⟩
    have : e' = e := eq_of_dirIndex hmem' hmem (hidx'.trans hidx.symm)
    rw [← this, hname']
  · exact fun heq => ⟨e, hmem, hidx, heq⟩

end reader

end Fat

namespace Fat32

open Fat

theorem lfn_interop_iff {v : Fat32} {d : AtaDrive} {V : Vol} {cs : List Nat} {pre post : List Bytes} {slot : Bytes}
    {name stored : Text} (hs : v.Shows d V) (hl : V.Chain h cs) (hv : ∀ c ∈ cs, v.Valid c)
    (hslots : V.slots cs = pre ++ vfatRun (encodeUtf16 stored) (lfnChecksum (slot.slice 0 11)) ++ slot :: post)
    (hpre : Endless pre) (hne : stored ≠ []) (hcount : vfatCount (encodeUtf16 stored) ≤ 31) (hlive : isLive slot = true)
    (hscan : v.scanDir d h = .ok es) :
    (lfnSlots name short = vfatRun (encodeUtf16 name) (lfnChecksum short) ↔ FitsOneSlot name) ∧
      ((∃ e ∈ es, e.dirIndex = pre.length + vfatCount (encodeUtf16 stored) ∧ e.name = stored) ↔
        (∀ c ∈ stored, Plain c) ∧ Readable (carried (pendingRun .empty pre) (vfatCount (encodeUtf16 stored))) stored) := by
  refine ⟨lfnSlots_eq_vfatRun_iff, ?_⟩
  rw [hs.scanDir hl hv] at hscan
  rw [(checkIndices_eq_ok.mp hscan).1, hslots]
  exact vfatRun_read_iff hpre hne hcount hlive

-- A root directory in which another system has entered a file under a long name.
def foreignSlot : Bytes := packSlot (65 :: List.replicate 10 32) attrArchive 0 0 .zero

def foreignSlots (name : Text) : List Bytes :=
  vfatRun (encodeUtf16 name) (lfnChecksum (foreignSlot.slice 0 11)) ++ [foreignSlot]

def foreignVol (name : Text) : Vol := smallVol [0, 0, eoc] (foreignSlots name) fun _ => List.replicate 512 0

theorem length_foreignSlots (h : s ∈ foreignSlots name) : s.length = 32 := by
  rcases mem_append.mp h with h | h
  · obtain ⟨j, _, rfl⟩ := mem_map.mp h
    exact length_longSlot
  · cases mem_singleton.mp h
    decide

theorem fits_foreign (h : (foreignSlots name).length ≤ 16) : small.Fits (foreignVol name) :=
  fits_small (by decide) (by decide) (fun _ => length_foreignSlots) h fun _ => length_replicate

def foreignEntry (name : Text) : RawEntry :=
  entryOf 2 (pendingRun .empty (vfatRun (encodeUtf16 name) (lfnChecksum (foreignSlot.slice 0 11)))) foreignSlot
    (vfatCount (encodeUtf16 name))

theorem slots_foreign : (foreignVol name).slots [2] =
    foreignSlots name ++ List.replicate (16 - (foreignSlots name).length) (List.replicate 32 0) :=
  slots_smallVol fun _ => length_foreignSlots

theorem scanDir_foreign (hn : (foreignSlots name).length ≤ 16)
    (h : entriesOf 2 ((foreignVol name).slots [2]) = [foreignEntry name]) :
    small.scanDir (small.image (foreignVol name)) 2 = .ok [foreignEntry name] := by
  rw [(shows_image (fits_foreign hn)).scanDir (chain_small rfl) (by simp; decide), h]
  refine checkIndices_eq_ok.mpr ⟨rfl, fun e he => ?_⟩
  rw [mem_singleton.mp he]
  have hidx : (foreignEntry name).dirIndex = vfatCount (encodeUtf16 name) := rfl
  have hlen : (foreignSlots name).length = vfatCount (encodeUtf16 name) + 1 := by
    rw [foreignSlots, length_append, length_vfatRun, length_singleton]
  omega

def twelveChars : Text := "longfilename".toList

theorem lfn_interop_twelveChars :
    lfnSlots twelveChars (foreignSlot.slice 0 11) = vfatRun (encodeUtf16 twelveChars) (lfnChecksum (foreignSlot.slice 0 11)) ∧
      ∃ e ∈ [foreignEntry twelveChars], e.dirIndex = 1 ∧ e.name = twelveChars := by
  have hlen : (foreignSlots twelveChars).length ≤ 16 := by decide
  have hscan : small.scanDir (small.image (foreignVol twelveChars)) 2 = .ok [foreignEntry twelveChars] :=
    scanDir_foreign hlen (by rw [slots_foreign]; decide +kernel)
  have ⟨hwrite, hread⟩ := @lfn_interop_iff 2 _ (foreignSlot.slice 0 11) small _ (foreignVol twelveChars) [2] [] _ foreignSlot
    twelveChars twelveChars (shows_image (fits_foreign hlen)) (chain_small rfl) (by simp; decide)
    (by rw [slots_foreign, foreignSlots, append_assoc]; rfl) nofun (by decide) (by decide) (by decide) hscan
  exact ⟨hwrite.mpr (by decide), hread.mpr ⟨forall_plain_of_all (by decide), .tail nofun (by decide) rfl⟩⟩

def twoSlotName : Text := "InteropTwentyCharsLong".toList

theorem lfn_interop_twoSlotName :
    lfnSlots twoSlotName (foreignSlot.slice 0 11) ≠ vfatRun (encodeUtf16 twoSlotName) (lfnChecksum (foreignSlot.slice 0 11)) ∧
      small.scanDir (small.image (foreignVol twoSlotName)) 2 = .ok [foreignEntry twoSlotName] ∧
      (foreignEntry twoSlotName).dirIndex = 2 ∧ (foreignEntry twoSlotName).name = "CharsLong".toList := by
  refine ⟨by decide +kernel, scanDir_foreign (by decide) ?_, rfl, by decide +kernel⟩
  rw [slots_foreign]
  decide +kernel

end Fat32
