import Onyx.Fat.Remove

-- Which slots that `remove_dir_slots` marks belong to the entry, and what a scan shows afterwards.

open Lib Fat List

namespace Fat

variable {S S' T A B C : List Bytes} {b s slot : Bytes} {i j k lo hi n : Nat}

section own

theorem slot_of_part (hj : j < T.length) (h : T.length ≤ j + (pendingRun .empty T).parts.length) :
    ∃ s, T[j]? = some s ∧ slotAttr s = attrLfn ∧ slotMark s ≠ slotDeleted := by
  induction T using List.reverseRecOn with
  | nil => cases hj
  | append_singleton T t hi =>
    have hstep : pendingRun .empty (T ++ [t]) = nextRun (pendingRun .empty T) t := foldl_append
    rw [length_append, length_singleton] at hj h
    rw [hstep, nextRun] at h
    split_ifs at h with ht
    · rcases Nat.lt_succ_iff_lt_or_eq.mp hj with hlt | rfl
      · rw [getElem?_append_left hlt]
        refine hi hlt ?_
        have hparts : ((pendingRun .empty T).add t).parts.length ≤ (pendingRun .empty T).parts.length + 1 := by
          simp only [LfnRun.add, length_append, length_singleton]
          split_ifs <;> simp
        omega
      · exact ⟨t, getElem?_concat_length, ht.2, ht.1⟩
    · simp only [LfnRun.empty, length_nil] at h
      omega

theorem length_parts_le : (pendingRun .empty T).parts.length ≤ T.length := by
  induction T using List.reverseRecOn with
  | nil => exact le_refl 0
  | append_singleton T t hi =>
    have hstep : pendingRun .empty (T ++ [t]) = nextRun (pendingRun .empty T) t := foldl_append
    rw [hstep, nextRun, length_append, length_singleton]
    split_ifs
    · simp only [LfnRun.add, length_append, length_singleton]
      split_ifs
      · exact Nat.succ_le_succ (Nat.zero_le _)
      · exact Nat.succ_le_succ hi
    · exact Nat.zero_le _

-- The number of slots that hold the long name of the entry in slot `k`.
def ownCount (S : List Bytes) (k : Nat) : Nat :=
  let run := pendingRun .empty (S.take k)
  if run.sum = lfnChecksum ((S.getD k []).slice 0 11) then run.parts.length else 0

theorem ownCount_le (hk : k < S.length) : ownCount S k ≤ k := by
  have hlen := length_take_of_le (le_of_lt hk)
  unfold ownCount
  simp only
  split_ifs
  · exact le_trans length_parts_le (le_of_eq hlen)
  · exact Nat.zero_le k

theorem own_slot (hk : k < S.length) (hj : j < k) (h : k ≤ j + ownCount S k) :
    ∃ s, S[j]? = some s ∧ slotAttr s = attrLfn ∧ slotMark s ≠ slotDeleted := by
  have hlen := length_take_of_le (le_of_lt hk)
  have hpart : (S.take k).length ≤ j + (pendingRun .empty (S.take k)).parts.length := by
    rw [hlen]
    unfold ownCount at h
    simp only at h
    split_ifs at h <;> omega
  have hslot := slot_of_part (hlen.symm ▸ hj) hpart
  rwa [getElem?_take_of_lt hj] at hslot

theorem ownCount_le_lfnBefore (hk : k < S.length) : ownCount S k ≤ lfnBefore S k := by
  refine le_lfnBefore (ownCount_le hk) fun j hj h => ?_
  have ⟨s, hs, ha, _⟩ := own_slot hk hj h
  rw [getD_eq_getElem?_getD, hs]
  exact ha

def Clean (n : Nat) (S : List Bytes) (k : Nat) : Prop :=
  ownCount S k ≤ k % n ∧
    ∀ j < k - ownCount S k, k - min (k % n) (lfnBefore S k) ≤ j → slotMark (S.getD j []) = slotDeleted

instance : Decidable (Clean n S k) := inferInstanceAs (Decidable (_ ∧ ∀ j < _, _ → _))

theorem delSlot_eq_self (h : s.length = 32) : delSlot s = s ↔ slotMark s = slotDeleted := by
  constructor
  · intro heq
    rw [← heq, slotMark_delSlot h]
  · intro hm
    cases s with
    | nil => cases h
    | cons x s =>
      have hx : x = slotDeleted := hm
      simp [delSlot, Bytes.patch, overwrite, hx]

theorem delSlots_eq_iff (hk : k < S.length) (hlen : ∀ s ∈ S, s.length = 32) :
    delSlots (k - min (k % n) (lfnBefore S k)) (k + 1) S = delSlots (k - ownCount S k) (k + 1) S ↔ Clean n S k := by
  have hown := ownCount_le_lfnBefore hk
  have hself {j : Nat} (hj : j < S.length) : S[j]?.map delSlot = S[j]? ↔ slotMark (S.getD j []) = slotDeleted := by
    rw [getD_eq_getElem?_getD, getElem?_eq_getElem hj]
    simpa using delSlot_eq_self (hlen _ (getElem_mem hj))
  constructor
  · intro heq
    have hget (j : Nat) := congrArg (·[j]?) heq
    simp only [getElem?_delSlots] at hget
    constructor
    · -- A slot of the entry in front of its cluster would not be marked.
      by_contra hlt
      have hj := hget (k - ownCount S k)
      have hle := ownCount_le hk
      have ⟨s, hs, _, hm⟩ := own_slot (j := k - ownCount S k) hk (by omega) (by omega)
      rw [if_neg (by omega), if_pos (by omega)] at hj
      have := (hself (by omega)).mp hj.symm
      rw [getD_eq_getElem?_getD, hs] at this
      exact hm this
    · intro j hj hmark
      have := hget j
      rw [if_pos (by omega), if_neg (by omega)] at this
      exact (hself (by omega)).mp this
  · intro ⟨hle, hdel⟩
    apply ext_getElem?
    intro j
    rw [getElem?_delSlots, getElem?_delSlots]
    by_cases hj : k - ownCount S k ≤ j
    · split_ifs <;> first | rfl | omega
    rw [if_neg (by omega : ¬(k - ownCount S k ≤ j ∧ j < k + 1))]
    split_ifs with hmark
    · exact (hself (by omega)).mpr (hdel j (by omega) hmark.1)
    · rfl

end own

section listing

theorem lt_of_mem_scanSlots (he : e ∈ (scanSlots dir idx run A).1) : e.dirIndex < idx + A.length := by
  have ⟨j, s, hs, _, _, heq⟩ := mem_scanSlots.mp he
  have hj := (List.getElem?_eq_some_iff.mp hs).1
  rw [heq]
  exact Nat.add_lt_add_left hj idx

theorem endless_of_mem_entriesOf (he : e ∈ entriesOf dir S) : Endless (S.take e.dirIndex) := by
  have ⟨j, _, _, _, hend, heq⟩ := mem_scanSlots.mp he
  have hj : e.dirIndex = j := by
    rw [heq]
    exact zero_add j
  rwa [hj]

theorem entriesOf_around (hA : Endless A) (hB : Endless B) (hl : ∀ s ∈ B, isLive s = false) (hs : isLive slot = true) :
    entriesOf dir (A ++ B ++ slot :: C) = (scanSlots dir 0 .empty A).1 ++
      entryOf dir (pendingRun .empty (A ++ B)) slot (A.length + B.length) ::
        (scanSlots dir (A.length + B.length + 1) .empty C).1 := by
  have hAB : Endless (A ++ B) := fun s hm => (mem_append.mp hm).elim (hA s) (hB s)
  have hm := (isLive_iff.mp hs).1
  rw [entriesOf, scanSlots_append hAB, scanSlots_append hA, scanSlots_cons, if_neg hm, nextRun_of_isLive hs, if_pos hs]
  simp [scanSlots_of_not_live hl]

theorem entriesOf_deleted (hA : Endless A) (hB : ∀ s ∈ B, slotMark s = slotDeleted) (hs : slotMark slot = slotDeleted) :
    entriesOf dir (A ++ B ++ slot :: C) = (scanSlots dir 0 .empty A).1 ++
      (scanSlots dir (A.length + B.length + 1) .empty C).1 := by
  have hdead {s : Bytes} (h : slotMark s = slotDeleted) : isLive s = false := by
    simp [isLive, h]
  have hAB : Endless (A ++ B) := by
    intro s hm
    rcases mem_append.mp hm with hm | hm
    · exact hA s hm
    · rw [hB s hm]
      decide
  have hnext {run : LfnRun} : nextRun run slot = .empty := if_neg fun h => h.1 hs
  rw [entriesOf, scanSlots_append hAB, scanSlots_append hA, scanSlots_cons, if_neg (by rw [hs]; decide), hnext,
    hdead hs]
  simp [scanSlots_of_not_live fun s hm => hdead (hB s hm)]

theorem split_slots (hk : S[k]? = some slot) :
    S = S.take (k - n) ++ (S.take k).drop (k - n) ++ slot :: S.drop (k + 1) := by
  have hlt := (List.getElem?_eq_some_iff.mp hk).1
  have htake : S.take (k - n) = (S.take k).take (k - n) := by
    rw [take_take, Nat.min_eq_left (Nat.sub_le k n)]
  rw [htake, take_append_drop]
  conv => lhs; rw [← take_append_drop k S]
  rw [drop_eq_getElem_cons hlt, (List.getElem?_eq_some_iff.mp hk).2]

theorem delSlots_append : delSlots A.length (A.length + B.length) (A ++ B ++ C) = A ++ B.map delSlot ++ C := by
  apply ext_getElem?
  intro j
  simp only [getElem?_delSlots, getElem?_append, length_append, length_map, getElem?_map]
  split_ifs <;> first | rfl | omega

theorem delSlots_split (hk : S[k]? = some slot) (hn : n ≤ k) : delSlots (k - n) (k + 1) S =
    S.take (k - n) ++ ((S.take k).drop (k - n)).map delSlot ++ delSlot slot :: S.drop (k + 1) := by
  have hlt := (List.getElem?_eq_some_iff.mp hk).1
  have hfront : (S.take (k - n)).length = k - n := length_take_of_le (by omega)
  have hmid : ((S.take k).drop (k - n) ++ [slot]).length = n + 1 := by
    rw [length_append, length_drop, length_take_of_le (le_of_lt hlt), length_singleton]
    omega
  have happ := @delSlots_append (S.take (k - n)) ((S.take k).drop (k - n) ++ [slot]) (S.drop (k + 1))
  rw [hfront, hmid, ← Nat.add_assoc, Nat.sub_add_cancel hn, append_assoc, append_assoc, singleton_append,
    ← append_assoc, ← split_slots hk] at happ
  rw [happ, map_append, map_singleton]
  simp

theorem entriesOf_delSlots (hk : S[k]? = some slot) (hl : isLive slot = true) (hend : Endless (S.take k))
    (hlen : ∀ s ∈ S, s.length = 32) (hn : n ≤ lfnBefore S k) :
    entriesOf dir (delSlots (k - n) (k + 1) S) = (entriesOf dir S).filter (·.dirIndex ≠ k) := by
  have hlt := (List.getElem?_eq_some_iff.mp hk).1
  have hnk : n ≤ k := Nat.le_trans hn lfnBefore_le
  have hfront : (S.take (k - n)).length = k - n := length_take_of_le (by omega)
  have hmid : ((S.take k).drop (k - n)).length = n := by
    rw [length_drop, length_take_of_le (Nat.le_of_lt hlt)]
    omega
  have hA : Endless (S.take (k - n)) := by
    intro s hs
    refine hend s ?_
    rw [← Nat.min_eq_left (Nat.sub_le k n), ← take_take] at hs
    exact mem_of_mem_take hs
  have hB : Endless ((S.take k).drop (k - n)) := fun s hs => hend s (mem_of_mem_drop hs)
  have hBl : ∀ s ∈ (S.take k).drop (k - n), isLive s = false := by
    intro s hs
    obtain ⟨j, hj, rfl⟩ := mem_iff_getElem.mp hs
    have hjk : k - n + j < k := by omega
    have ha := slotAttr_of_lfnBefore (S := S) (j := k - n + j) (i := k) (by omega) (by omega)
    have hget : S.getD (k - n + j) [] = ((S.take k).drop (k - n))[j] := by
      rw [getElem_drop, getElem_take, getD_eq_getElem?_getD, getElem?_eq_getElem (by omega)]
      rfl
    refine Bool.eq_false_iff.mpr fun hl => (isLive_iff.mp hl).2.2.1 ?_
    rwa [hget] at ha
  have hmark {s : Bytes} (hs : s ∈ S) : slotMark (delSlot s) = slotDeleted := slotMark_delSlot (hlen s hs)
  have hBd : ∀ s ∈ ((S.take k).drop (k - n)).map delSlot, slotMark s = slotDeleted := by
    intro s hs
    obtain ⟨t, ht, rfl⟩ := mem_map.mp hs
    exact hmark (mem_of_mem_take (mem_of_mem_drop ht))
  have hX : ∀ e ∈ (scanSlots dir 0 .empty (S.take (k - n))).1, decide (e.dirIndex ≠ k) = true := by
    intro e he
    have := lt_of_mem_scanSlots he
    exact decide_eq_true (by omega)
  have hY : ∀ e ∈ (scanSlots dir (k - n + n + 1) .empty (S.drop (k + 1))).1, decide (e.dirIndex ≠ k) = true := by
    intro e he
    have := dirIndex_of_mem_scanSlots he
    exact decide_eq_true (by omega)
  rw [delSlots_split hk hnk, entriesOf_deleted hA hBd (hmark (mem_of_getElem? hk)), length_map, hfront, hmid]
  conv => rhs; rw [split_slots (n := n) hk, entriesOf_around hA hB hBl hl]
  rw [filter_append, filter_eq_self.mpr hX, filter_cons_of_neg, hfront, hmid, filter_eq_self.mpr hY]
  simp [entryOf, hfront, hmid, Nat.sub_add_cancel hnk]

end listing

end Fat
