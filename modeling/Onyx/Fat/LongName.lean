import Onyx.Fat.NewSlot

-- What a scan reads from a run of long-name slots with falling order numbers.

open Lib Bytes
open List hiding sum

namespace Fat

-- A long-name slot from its first byte, its checksum and its 13 units.
def longSlot (mark sum : UInt8) (unit : Nat → Nat) : Bytes :=
  [mark] ++ (List.range' 0 5).flatMap (fun i => toLe 2 (unit i)) ++ [attrLfn, 0, sum] ++
    (List.range' 5 6).flatMap (fun i => toLe 2 (unit i)) ++ [0, 0] ++
    (List.range' 11 2).flatMap (fun i => toLe 2 (unit i))

theorem lfnSlot_eq : lfnSlot units sum order start =
    longSlot (.ofNat order ||| if order = 1 then lfnLast else 0) sum fun i => (units[start + i]?).getD 0 :=
  rfl

def slotOrder (slot : Bytes) : UInt8 := slotMark slot &&& 0x1F

def slotSum (slot : Bytes) : UInt8 := slot.getD 13 0

def slotUnits (slot : Bytes) : List Nat := lfnUnits (lfnPart slot)

section longSlot

variable {mark sum : UInt8} {unit : Nat → Nat}

theorem length_longSlot : (longSlot mark sum unit).length = 32 := by
  simp [longSlot, length_flatMap]

theorem slotMark_longSlot : slotMark (longSlot mark sum unit) = mark := rfl

theorem slotAttr_longSlot : slotAttr (longSlot mark sum unit) = attrLfn := by
  simp [longSlot, slotAttr]

theorem slotSum_longSlot : slotSum (longSlot mark sum unit) = sum := by
  simp [longSlot, slotSum]

theorem lfnPart_longSlot : lfnPart (longSlot mark sum unit) = (List.range 13).flatMap fun i => toLe 2 (unit i) := by
  simp [lfnPart, longSlot, slice, toLe, List.range', range_succ]

theorem slotUnits_longSlot (h : ∀ i, unit i < 2 ^ 16) : slotUnits (longSlot mark sum unit) = (List.range 13).map unit := by
  have hunit : ∀ i, ofLe (toLe 2 (unit i)) = unit i := fun i => ofLe_toLe 2 _ (h i)
  rw [slotUnits, lfnPart_longSlot]
  simp only [lfnUnits, u16At, slice, toLe, range_succ, range_zero, nil_append] at hunit ⊢
  simp [hunit]

end longSlot

-- Long-name slots whose order numbers fall to 1.
def Falls : List Bytes → Prop
  | [] => True
  | s :: R => slotOrder s = .ofNat (R.length + 1) ∧ slotAttr s = attrLfn ∧ slotMark s ≠ slotDeleted ∧ Falls R

theorem falls_of_order {f : Nat → Bytes}
    (hf : ∀ k, 0 < k → k ≤ n → slotOrder (f k) = .ofNat k ∧ slotAttr (f k) = attrLfn ∧ slotMark (f k) ≠ slotDeleted) :
    Falls ((List.range n).map fun j => f (n - j)) := by
  induction n with
  | zero => trivial
  | succ n hi =>
    have hcons : (List.range (n + 1)).map (fun j => f (n + 1 - j)) = f (n + 1) :: (List.range n).map fun j => f (n - j) := by
      rw [range_succ_eq_map, map_cons, map_map]
      congr 1
      refine map_congr_left fun j _ => ?_
      rw [Function.comp_apply, Nat.succ_sub_succ]
    have ⟨ho, ha, hm⟩ := hf (n + 1) (Nat.succ_pos n) (Nat.le_refl _)
    rw [hcons]
    refine ⟨?_, ha, hm, hi fun k hk hle => hf k hk (Nat.le_succ_of_le hle)⟩
    rw [length_map, length_range]
    exact ho

def slotPart (slot : Bytes) : UInt8 × Bytes := (slotOrder slot, lfnPart slot)

theorem nextRun_of_lfn {s : Bytes} (ha : slotAttr s = attrLfn) (hm : slotMark s ≠ slotDeleted) : nextRun run s = run.add s :=
  if_pos ⟨hm, ha⟩

theorem ofNat_succ_ne_zero (h : n < 31) : UInt8.ofNat (n + 1) ≠ 0 := by
  intro h0
  have := congrArg UInt8.toNat h0
  rw [UInt8.toNat_ofNat'] at this
  simp at this
  omega

theorem pendingRun_falls {R : List Bytes} (hf : Falls R) (hne : R ≠ []) (hlen : R.length ≤ 31) :
    (pendingRun run R).parts = (if run.next = .ofNat R.length then run.parts else []) ++ R.map slotPart ∧
      (pendingRun run R).sum = slotSum (R.getLast hne) := by
  induction R generalizing run with
  | nil => exact absurd rfl hne
  | cons s R hi =>
    obtain ⟨ho, ha, hm, hR⟩ := hf
    have hlt : R.length < 31 := hlen
    have hcarry : (run.add s).parts = (if run.next = .ofNat (R.length + 1) then run.parts else []) ++ [slotPart s] := by
      have hord : slotMark s &&& 0x1F = .ofNat (R.length + 1) := ho
      have hiff : (run.next = 0 ∨ slotMark s &&& 0x1F ≠ run.next) ↔ ¬run.next = .ofNat (R.length + 1) := by
        rw [hord]
        constructor
        · rintro (h0 | h0) heq
          · exact ofNat_succ_ne_zero hlt (heq.symm.trans h0)
          · exact h0 heq.symm
        · exact fun h => .inr fun heq => h heq.symm
      rw [LfnRun.add]
      simp only [hiff, ite_not]
      rfl
    have hstep : pendingRun run (s :: R) = pendingRun (run.add s) R := by
      rw [pendingRun, foldl_cons, nextRun_of_lfn ha hm]
      rfl
    rw [hstep]
    cases R with
    | nil => exact ⟨hcarry, rfl⟩
    | cons r R =>
      have hnext : (run.add s).next = .ofNat (r :: R).length := by
        have hord : slotMark s &&& 0x1F = .ofNat (R.length + 1 + 1) := ho
        rw [LfnRun.add, hord]
        have hn : (UInt8.ofNat (R.length + 1 + 1)).toNat = R.length + 2 := by
          rw [UInt8.toNat_ofNat']
          simp only [length_cons] at hlt
          omega
        have h1 : UInt8.ofNat (R.length + 1 + 1) > 1 := UInt8.lt_iff_toNat_lt.mpr (by rw [hn]; exact Nat.lt_add_left _ (by decide))
        rw [if_pos h1, length_cons]
        show UInt8.ofNat (R.length + 1 + 1) - 1 = UInt8.ofNat (R.length + 1)
        rw [UInt8.ofNat_add]
        exact UInt8.add_sub_cancel _ _
      obtain ⟨h1, h2⟩ := @hi (run.add s) hR (cons_ne_nil r R) (Nat.le_of_lt hlt)
      rw [h1, if_pos hnext, hcarry, h2, append_assoc]
      exact ⟨rfl, rfl⟩

-- The parts of a run are in falling order, and what comes next is below them all.
structure Falling (run : LfnRun) : Prop where
  parts : run.parts.Pairwise fun a b => b.1 ≤ a.1
  next : run.next ≠ 0 → ∀ p ∈ run.parts, run.next < p.1

theorem Falling.empty : Falling .empty := ⟨.nil, fun h => absurd rfl h⟩

theorem Falling.add (h : Falling run) : Falling (run.add slot) := by
  have hbelow : (slotMark slot &&& 0x1F) > 1 → (slotMark slot &&& 0x1F) - 1 < slotMark slot &&& 0x1F := by
    intro hgt
    have h1 := UInt8.lt_iff_toNat_lt.mp hgt
    rw [UInt8.lt_iff_toNat_lt, UInt8.toNat_sub_of_le _ _ (UInt8.le_of_lt hgt)]
    simp only [UInt8.toNat_one] at *
    omega
  have hlast : (run.add slot).next ≠ 0 → (run.add slot).next < slotMark slot &&& 0x1F := by
    have hnext : (run.add slot).next = if slotMark slot &&& 0x1F > 1 then (slotMark slot &&& 0x1F) - 1 else 0 := rfl
    rw [hnext]
    split
    · rename_i hgt
      exact fun _ => hbelow hgt
    · exact fun hne => absurd rfl hne
  by_cases hc : run.next = 0 ∨ slotMark slot &&& 0x1F ≠ run.next
  · have hparts : (run.add slot).parts = [(slotMark slot &&& 0x1F, lfnPart slot)] := by
      rw [LfnRun.add, if_pos hc]
      rfl
    refine ⟨by rw [hparts]; exact pairwise_singleton .., fun hne p hp => ?_⟩
    rw [hparts, mem_singleton] at hp
    rw [hp]
    exact hlast hne
  · have hparts : (run.add slot).parts = run.parts ++ [(slotMark slot &&& 0x1F, lfnPart slot)] := by
      rw [LfnRun.add, if_neg hc]
    have ⟨h0, heq⟩ := not_or.mp hc
    have hlt : ∀ p ∈ run.parts, slotMark slot &&& 0x1F < p.1 := fun p hp => Classical.not_not.mp heq ▸ h.next h0 p hp
    refine ⟨?_, fun hne p hp => ?_⟩
    · rw [hparts, pairwise_append]
      refine ⟨h.parts, pairwise_singleton .., fun a ha b hb => ?_⟩
      rw [mem_singleton.mp hb]
      exact UInt8.le_of_lt (hlt a ha)
    · rw [hparts, mem_append] at hp
      rcases hp with hp | hp
      · exact UInt8.lt_trans (hlast hne) (hlt p hp)
      · rw [mem_singleton.mp hp]
        exact hlast hne

theorem Falling.pendingRun (h : Falling run) : Falling (pendingRun run slots) := by
  induction slots generalizing run with
  | nil => exact h
  | cons s S hi =>
    rw [Fat.pendingRun, foldl_cons]
    refine hi ?_
    unfold nextRun
    split
    · exact h.add
    · exact .empty

def isTerminator (u : Nat) : Bool := u = 0x0000 ∨ u = 0xFFFF

-- The name that stands in some units: what is in front of the first terminator.
def nameOf (units : List Nat) : Text := (units.takeWhile fun u => !isTerminator u).map charFromU16

theorem lfnName_of_falling (h : Falling run) : lfnName run.parts = nameOf (run.parts.flatMap fun p => lfnUnits p.2) := by
  have hstop : (fun u => decide (u ≠ 0x0000 ∧ u ≠ 0xFFFF)) = fun u => !isTerminator u := by
    funext u
    by_cases h1 : u = 0x0000 <;> by_cases h2 : u = 0xFFFF <;> simp [isTerminator, h1, h2]
  rw [lfnName, nameOf]
  simp only [h.parts.insertionSort_eq, hstop]

theorem eq_of_dirIndex (he : e ∈ (scanSlots h idx run slots).1) (he' : e' ∈ (scanSlots h idx run slots).1)
    (heq : e.dirIndex = e'.dirIndex) : e = e' := by
  obtain ⟨k, slot, hk, _, _, rfl⟩ := mem_scanSlots.mp he
  obtain ⟨k', slot', hk', _, _, rfl⟩ := mem_scanSlots.mp he'
  have hsame : k = k' := Nat.add_left_cancel heq
  subst hsame
  rw [hk] at hk'
  cases hk'
  rfl

-- The units of the pending run that slots with `n` order numbers carry on.
def carried (run : LfnRun) (n : Nat) : List Nat :=
  if run.next = .ofNat n then run.parts.flatMap fun p => lfnUnits p.2 else []

theorem name_entryOf_falls {pre R : List Bytes} {slot : Bytes} (hf : Falls R) (hne : R ≠ []) (hlen : R.length ≤ 31)
    (hsum : slotSum (R.getLast hne) = lfnChecksum (slot.slice 0 11)) :
    (entryOf h (pendingRun .empty (pre ++ R)) slot idx).name =
      nameOf (carried (pendingRun .empty pre) R.length ++ R.flatMap slotUnits) := by
  have hpend : pendingRun .empty (pre ++ R) = pendingRun (pendingRun .empty pre) R := foldl_append ..
  have ⟨hparts, hs⟩ := @pendingRun_falls (pendingRun .empty pre) R hf hne hlen
  have hfall : Falling (pendingRun .empty (pre ++ R)) := Falling.pendingRun .empty
  have hnil : (pendingRun .empty (pre ++ R)).parts ≠ [] := by
    rw [hpend, hparts]
    exact fun hnil => hne (map_eq_nil_iff.mp (append_eq_nil_iff.mp hnil).2)
  have hsum' : (pendingRun .empty (pre ++ R)).sum = lfnChecksum (slot.slice 0 11) := by
    rw [hpend, hs, hsum]
  have hname : (entryOf h (pendingRun .empty (pre ++ R)) slot idx).name = lfnName (pendingRun .empty (pre ++ R)).parts :=
    if_neg (not_or.mpr ⟨hnil, not_not_intro hsum'⟩)
  rw [hname, lfnName_of_falling hfall, hpend, hparts, flatMap_append, carried, flatMap_map]
  congr 2
  split <;> rfl

theorem name_of_falls {pre R post : List Bytes} {slot : Bytes} (hpre : Endless pre) (hf : Falls R) (hne : R ≠ [])
    (hlen : R.length ≤ 31) (hend : Endless R) (hlive : isLive slot = true)
    (hsum : slotSum (R.getLast hne) = lfnChecksum (slot.slice 0 11)) :
    ∃ e ∈ entriesOf h (pre ++ R ++ slot :: post), e.dirIndex = pre.length + R.length ∧
      e = entryOf h (pendingRun .empty (pre ++ R)) slot (pre.length + R.length) ∧
      e.name = nameOf (carried (pendingRun .empty pre) R.length ++ R.flatMap slotUnits) := by
  have htake : (pre ++ R ++ slot :: post).take (pre ++ R).length = pre ++ R := take_left
  refine ⟨_, mem_scanSlots.mpr ⟨(pre ++ R).length, slot, ?_, hlive, ?_, ?_⟩, rfl, rfl, name_entryOf_falls hf hne hlen hsum⟩
  · rw [getElem?_append_right (Nat.le_refl _), Nat.sub_self]
    rfl
  · rw [htake]
    intro s hs
    rcases mem_append.mp hs with hs | hs
    · exact hpre s hs
    · exact hend s hs
  · rw [htake, Nat.zero_add, length_append]

end Fat
