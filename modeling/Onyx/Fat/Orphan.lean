import Onyx.Fat.NewName

-- Long names behind slots that do not belong to them.

open Lib List Option

namespace Fat

variable {pre post : List Bytes} {name : Text} {short slot : Bytes} {run : LfnRun}

-- The directory ends here.
def Ends (post : List Bytes) : Prop := ∀ s ∈ post.head?, slotMark s = slotEnd

theorem getLast?_entriesOf (hpre : Endless pre) (hlive : isLive slot = true) (hend : Ends post) :
    (entriesOf h (pre ++ slot :: post)).getLast? = some (entryOf h (pendingRun .empty pre) slot pre.length) := by
  have hpost : ∀ idx run, (scanSlots h idx run post).1 = [] := by
    intro idx run
    cases post with
    | nil => rfl
    | cons s S =>
      rw [scanSlots_cons, if_pos (hend s rfl)]
  have hmark : slotMark slot ≠ slotEnd := (of_decide_eq_true hlive).1
  rw [entriesOf, scanSlots_append hpre]
  simp only [scanSlots_cons, if_neg hmark, hlive, if_true, hpost, append_nil, Nat.zero_add]
  exact getLast?_concat ..

def Follows (pre : List Bytes) (n : Nat) : Prop :=
  ∃ s ∈ pre.getLast?, slotMark s ≠ slotDeleted ∧ slotAttr s = attrLfn ∧ slotOrder s = .ofNat (n + 1)

theorem next_add (hpos : 0 < n) (hn : n ≤ 30) : (run.add slot).next = .ofNat n ↔ slotOrder slot = .ofNat (n + 1) := by
  refine Bytes.forall_byte (P := fun o => ∀ n ≤ 30, 0 < n → ((if o > 1 then o - 1 else 0) = UInt8.ofNat n ↔ o = .ofNat (n + 1)))
    ?_ (slotOrder slot) n hn hpos
  decide +kernel

theorem next_pendingRun_iff (hpos : 0 < n) (hn : n ≤ 30) : (pendingRun .empty pre).next = .ofNat n ↔ Follows pre n := by
  have hne : ∀ n ≤ 30, 0 < n → (0 : UInt8) ≠ .ofNat n := by decide
  cases pre using reverseRecOn with
  | nil => exact iff_of_false (hne n hn hpos) fun ⟨s, hs, _⟩ => absurd hs (not_mem_none s)
  | append_singleton pre s =>
    have hlast : pendingRun .empty (pre ++ [s]) = nextRun (pendingRun .empty pre) s := foldl_concat ..
    have hfollows : Follows (pre ++ [s]) n ↔ (slotMark s ≠ slotDeleted ∧ slotAttr s = attrLfn) ∧ slotOrder s = .ofNat (n + 1) := by
      simp [Follows, and_assoc]
    rw [hlast, hfollows, nextRun]
    split_ifs with hlfn
    · rw [next_add hpos hn]
      exact (and_iff_right hlfn).symm
    · exact iff_of_false (hne n hn hpos) fun h => hlfn h.1

def Intact (pre : List Bytes) (name : Text) : Prop :=
  ¬Follows pre (lfnCount name) ∧ (∀ c ∈ name, Plain c) ∨
    Follows pre (lfnCount name) ∧
      nameOf ((pendingRun .empty pre).parts.flatMap fun p => lfnUnits p.2) = name ∧
      ∃ u ∈ (pendingRun .empty pre).parts.flatMap fun p => lfnUnits p.2, isTerminator u = true

theorem lfnCount_pos : 0 < lfnCount name := by
  unfold lfnCount
  omega

theorem carried_ne_nil (h : Follows pre n) : ((pendingRun .empty pre).parts.flatMap fun p => lfnUnits p.2) ≠ [] := by
  obtain ⟨s, hs, hmark, hattr, _⟩ := h
  obtain ⟨pre', rfl⟩ : ∃ l, pre = l ++ [s] := getLast?_eq_some_iff.mp hs
  have hlast : pendingRun .empty (pre' ++ [s]) = nextRun (pendingRun .empty pre') s := foldl_concat ..
  rw [hlast, nextRun, if_pos ⟨hmark, hattr⟩]
  simp [LfnRun.add, lfnUnits]

theorem spelled_iff (htrim : trimmed name = name) (hlen : lfnCount name ≤ 30) :
    Spelled (carried (pendingRun .empty pre) (lfnCount name)) name ↔ Intact pre name := by
  rw [Spelled, carried, Intact]
  by_cases hf : Follows pre (lfnCount name)
  · simp only [(next_pendingRun_iff lfnCount_pos hlen).mpr hf, if_true, hf, not_true_eq_false, false_and, true_and, false_or]
    split_ifs with ht
    · exact (and_iff_left ht).symm
    -- without an end in them, the units in front would be part of the name
    refine iff_of_false (fun h => ?_) fun h => ht h.2
    have hno : ∀ u ∈ (pendingRun .empty pre).parts.flatMap fun p => lfnUnits p.2, isTerminator u = false :=
      fun u hu => Bool.eq_false_iff.mpr fun hstop => ht ⟨u, hu, hstop⟩
    have hnil : nameOf ((pendingRun .empty pre).parts.flatMap fun p => lfnUnits p.2) = [] := by
      have := h.1
      rw [htrim] at this
      exact append_left_eq_self.mp this
    have happ := @nameOf_append _ [] hno
    rw [append_nil, hnil, show nameOf [] = [] from rfl, append_nil] at happ
    exact carried_ne_nil hf (map_eq_nil_iff.mp happ.symm)
  · have hnext := mt (next_pendingRun_iff lfnCount_pos hlen).mp hf
    simp only [hnext, if_false, hf, not_false_eq_true, true_and, false_and, or_false, not_mem_nil, exists_const]
    rw [show nameOf [] = [] from rfl, nil_append, htrim]
    exact and_iff_right rfl

theorem endless_lfnSlots (hlen : name.len ≤ 255) : Endless (lfnSlots name short) := by
  intro s hs
  refine (mem_lfnSlots hs).2.2 ?_
  have := lfnCount_le hlen
  rw [lfnSlots_eq_ownSlot, length_map, length_range]
  omega

theorem name_behind_iff (hlen : name.len ≤ 255) (htrim : trimmed name = name) (hslot : slot.slice 0 11 = short) :
    (entryOf h (pendingRun .empty (pre ++ lfnSlots name short)) slot idx).name = name ↔ Intact pre name := by
  have hcount := lfnCount_le hlen
  have hnum : (lfnSlots name short).length = lfnCount name := by
    rw [lfnSlots_eq_ownSlot, length_map, length_range]
  have hne : lfnSlots name short ≠ [] := by
    intro hnil
    rw [hnil] at hnum
    exact absurd hnum (Nat.ne_of_lt lfnCount_pos)
  have hsum : slotSum ((lfnSlots name short).getLast hne) = lfnChecksum (slot.slice 0 11) := by
    obtain ⟨unit, hlast⟩ := getLast?_lfnSlots name short
    rw [getLast?_eq_getLast_of_ne_nil hne] at hlast
    rw [some.inj hlast, slotSum_longSlot, hslot]
  rw [name_entryOf_falls (falls_lfnSlots (by omega)) hne (by omega) hsum, hnum, nameOf_own_iff fun u hu => lt_of_mem_carried hu,
    spelled_iff htrim (by omega)]

end Fat

namespace Fat32

open Fat

variable {v : Fat32} {d : AtaDrive} {V : Vol} {cs : List Nat} {pre post : List Bytes} {slot short : Bytes} {name : Text}

theorem last_named_iff (hs : v.Shows d V) (hl : V.Chain h cs) (hv : ∀ c ∈ cs, v.Valid c)
    (hslots : V.slots cs = pre ++ lfnSlots name short ++ slot :: post) (hpre : Endless pre) (hend : Ends post)
    (hlive : isLive slot = true) (hslot : slot.slice 0 11 = short) (hlen : name.len ≤ 255)
    (htrim : trimmed name = name) (hscan : v.scanDir d h = .ok es) :
    es.getLast?.map (·.name) = some name ↔ Intact pre name := by
  have hendless : Endless (pre ++ lfnSlots name short) :=
    fun s hmem => (mem_append.mp hmem).elim (hpre s) (endless_lfnSlots hlen s)
  rw [hs.scanDir hl hv] at hscan
  rw [(checkIndices_eq_ok.mp hscan).1, hslots, getLast?_entriesOf hendless hlive hend, map_some, some_inj]
  exact name_behind_iff hlen htrim hslot

-- A root directory with one slot left over from another name in front of a file `a b`.
def spacedName : Text := ['a', ' ', 'b']

def spacedSlot : Bytes := packSlot [65, 66, 126, 49, 32, 32, 32, 32, 32, 32, 32] attrArchive 0 0 .zero

def leftSlot (order : UInt8) : Bytes := longSlot order 0 fun _ => 120

def leftSlots (order : UInt8) : List Bytes := [leftSlot order] ++ lfnSlots spacedName (spacedSlot.slice 0 11) ++ [spacedSlot]

def leftVol (order : UInt8) : Vol := smallVol [0, 0, eoc] (leftSlots order) fun _ => replicate 512 0

theorem length_leftSlots (h : s ∈ leftSlots order) : s.length = 32 := by
  have hall : leftSlots order = [leftSlot order, lfnSlot (encodeUtf16 spacedName) (lfnChecksum (spacedSlot.slice 0 11)) 1 0, spacedSlot] := rfl
  rw [hall] at h
  simp only [mem_cons, not_mem_nil, or_false] at h
  rcases h with rfl | rfl | rfl
  · exact length_longSlot
  · exact length_lfnSlot
  · decide

theorem slots_left : (leftVol order).slots [2] = leftSlots order ++ replicate 13 (replicate 32 0) :=
  slots_smallVol fun _ => length_leftSlots

theorem shows_left : small.Shows (small.image (leftVol order)) (leftVol order) :=
  shows_image (fits_small (by decide) (by decide) (fun _ => length_leftSlots) (show 3 ≤ 16 by decide) fun _ => length_replicate)

theorem scanDir_left (h : entriesOf 2 ((leftVol order).slots [2]) = [e]) (he : e.dirIndex < 2 ^ 32) :
    small.scanDir (small.image (leftVol order)) 2 = .ok [e] := by
  rw [shows_left.scanDir (chain_small rfl) (by simp; decide), h]
  refine checkIndices_eq_ok.mpr ⟨rfl, fun e' he' => ?_⟩
  rwa [mem_singleton.mp he']

def leftEntry (order : UInt8) : RawEntry :=
  entryOf 2 (pendingRun .empty ([leftSlot order] ++ lfnSlots spacedName (spacedSlot.slice 0 11))) spacedSlot 2

theorem last_named_left : needsLfn spacedName = true ∧
    small.scanDir (small.image (leftVol 3)) 2 = .ok [leftEntry 3] ∧ (leftEntry 3).name = spacedName := by
  have hscan : small.scanDir (small.image (leftVol 3)) 2 = .ok [leftEntry 3] :=
    scanDir_left (by rw [slots_left]; decide +kernel) (by decide)
  have hslots : (leftVol 3).slots [2] = [leftSlot 3] ++ lfnSlots spacedName (spacedSlot.slice 0 11) ++
      spacedSlot :: replicate 13 (replicate 32 0) := by
    rw [slots_left, leftSlots, append_assoc]
    rfl
  have hintact : Intact [leftSlot 3] spacedName := by
    refine .inl ⟨?_, forall_plain_of_all (by decide)⟩
    rintro ⟨s, hs, _, _, ho⟩
    cases hs
    revert ho
    decide
  have hpre : Endless [leftSlot 3] := by
    intro s hs
    cases mem_singleton.mp hs
    decide
  have hend : Ends (replicate 13 (replicate 32 0)) := by
    intro s hs
    cases hs
    rfl
  have hiff := last_named_iff shows_left (chain_small rfl) (by simp; decide) hslots hpre hend (by decide) rfl (by decide) rfl hscan
  exact ⟨by decide, hscan, some.inj (hiff.mpr hintact)⟩

-- A slot with the order number 2 is taken for the first part of the name.
theorem last_not_named : needsLfn spacedName = true ∧ trimmed spacedName = spacedName ∧
    small.scanDir (small.image (leftVol 2)) 2 = .ok [leftEntry 2] ∧ (leftEntry 2).name = replicate 13 'x' ++ spacedName := by
  refine ⟨by decide, rfl, scanDir_left ?_ (by decide), by decide +kernel⟩
  rw [slots_left]
  decide +kernel

end Fat32
