import Onyx.Fat.Create

-- `remove_dir_slots`: deleting an entry and the long-name slots in front of it.

open Lib Fat List Bytes Option Vol

namespace Fat

variable {b s : Bytes} {S S' T : List Bytes} {i j k lo hi n : Nat}

def delSlot (s : Bytes) : Bytes := s.patch 0 [slotDeleted]

theorem slotMark_delSlot (h : s.length = 32) : slotMark (delSlot s) = slotDeleted := by
  cases s with
  | nil => simp at h
  | cons x s => simp [delSlot, slotMark, Bytes.patch, overwrite]

theorem isLive_delSlot (h : s.length = 32) : isLive (delSlot s) = false := by
  simp [isLive, slotMark_delSlot h]

-- `S'` is `S` with the slot at `i` deleted, and possibly some long-name slots.
structure Erased (S S' : List Bytes) (i : Nat) : Prop where
  self : ∃ s, S[i]? = some s ∧ S'[i]? = some (delSlot s)
  other : ∀ j, j ≠ i → S'[j]? = S[j]? ∨ ∃ s, S[j]? = some s ∧ slotAttr s = attrLfn ∧ S'[j]? = some (delSlot s)

namespace Erased

theorem live_slot (r : Erased S S' i) (hlen : ∀ s ∈ S, s.length = 32) (hj : S'[j]? = some s)
    (hl : isLive s = true) : j ≠ i ∧ S[j]? = some s := by
  have hne : j ≠ i := fun he => by
    have ⟨s', h1, h2⟩ := r.self
    rw [he, h2] at hj
    cases hj
    simp [isLive_delSlot (hlen s' (mem_of_getElem? h1))] at hl
  refine ⟨hne, ?_⟩
  cases r.other j hne with
  | inl h => exact h ▸ hj
  | inr h =>
    have ⟨s', h1, _, h2⟩ := h
    rw [h2] at hj
    cases hj
    simp [isLive_delSlot (hlen s' (mem_of_getElem? h1))] at hl

theorem getElem?_of_live (r : Erased S S' i) (hj : S[j]? = some s) (hne : j ≠ i)
    (hl : isLive s = true) : S'[j]? = some s := by
  cases r.other j hne with
  | inl h => exact h.trans hj
  | inr h =>
    have ⟨s', h1, ha, _⟩ := h
    cases hj.symm.trans h1
    exact absurd ha (isLive_iff.mp hl).2.2.1

end Erased

theorem getElem?_slotsOf_markDeleted (hi : i < b.length / 32) : (slotsOf (Fat32.markDeleted b i))[j]? =
      if j = i then some (delSlot (b.slice (i * 32) 32)) else (slotsOf b)[j]? := by
  have hl : i * 32 + [slotDeleted].length ≤ b.length := by simp; omega
  simp only [Fat32.markDeleted, getElem?_slotsOf, length_patch hl]
  by_cases hj : j = i
  · subst hj
    simp only [hi, if_true, some.injEq]
    apply ext_getElem?
    intro k
    have hk : 0 + [slotDeleted].length ≤ (b.slice (j * 32) 32).length := by simp; omega
    rw [getElem?_slice, getElem?_patch hl, delSlot, getElem?_patch hk, getElem?_slice]
    simp only [length_singleton]
    by_cases hk0 : k = 0
    · simp [hk0]
    have h1 : ¬ k < 0 + 1 := by omega
    have h2 : ¬ j * 32 + k < j * 32 + 1 := by omega
    simp [h1, h2]
  · rw [slice_patch_of_disjoint hl (by simp; omega), if_neg hj]

theorem length_markDeleted (hi : i < b.length / 32) : (Fat32.markDeleted b i).length = b.length :=
  length_patch (by simp; omega)

theorem length_clearLfnBefore (hi : i ≤ b.length / 32) : (Fat32.clearLfnBefore b i).length = b.length := by
  induction i generalizing b with
  | zero => rfl
  | succ back hb =>
    rw [Fat32.clearLfnBefore]
    split_ifs
    · have hl := length_markDeleted hi
      rw [hb (by omega), hl]
    · rfl

theorem length_cleared (hi : i < b.length / 32) :
    (Fat32.clearLfnBefore (Fat32.markDeleted b i) i).length = b.length := by
  have hl := length_markDeleted hi
  rw [length_clearLfnBefore (by omega), hl]

def delSlots (lo hi : Nat) (S : List Bytes) : List Bytes :=
  S.mapIdx fun j s => if lo ≤ j ∧ j < hi then delSlot s else s

theorem getElem?_delSlots : (delSlots lo hi S)[j]? = if lo ≤ j ∧ j < hi then S[j]?.map delSlot else S[j]? := by
  rw [delSlots, getElem?_mapIdx]
  split_ifs
  · rfl
  · exact map_id_apply

theorem delSlots_delSlots (h : lo ≤ j) : delSlots lo j (delSlots j (j + 1) S) = delSlots lo (j + 1) S := by
  apply ext_getElem?
  intro i
  simp only [getElem?_delSlots]
  split_ifs <;> first | rfl | omega

def lfnBefore (S : List Bytes) : Nat → Nat
  | 0 => 0
  | i + 1 => if slotAttr (S.getD i []) = attrLfn then lfnBefore S i + 1 else 0

theorem lfnBefore_le : lfnBefore S i ≤ i := by
  induction i with
  | zero => exact le_refl 0
  | succ i hi =>
    rw [lfnBefore]
    split_ifs <;> omega

theorem lfnBefore_piece (h : ∀ j < i, T[j]? = S[n + j]?) : lfnBefore T i = min i (lfnBefore S (n + i)) := by
  induction i with
  | zero => exact (zero_min _).symm
  | succ i hi =>
    have hslot : T.getD i [] = S.getD (n + i) [] := by
      rw [getD_eq_getElem?_getD, getD_eq_getElem?_getD, h i (Nat.lt_succ_self i)]
    rw [lfnBefore, hi fun j hj => h j (Nat.lt_succ_of_lt hj), hslot, ← Nat.add_assoc, lfnBefore]
    split_ifs <;> omega

theorem lfnBefore_congr (h : ∀ j < i, T[j]? = S[j]?) : lfnBefore T i = lfnBefore S i := by
  have hp := lfnBefore_piece (n := 0) fun j hj => (h j hj).trans (by rw [zero_add])
  rw [hp, zero_add]
  exact min_eq_right lfnBefore_le

theorem slotAttr_of_lfnBefore (hj : j < i) (h : i ≤ j + lfnBefore S i) : slotAttr (S.getD j []) = attrLfn := by
  induction i with
  | zero => cases hj
  | succ i hi =>
    rw [lfnBefore] at h
    split_ifs at h with ha
    · rcases Nat.lt_succ_iff_lt_or_eq.mp hj with hlt | rfl
      · exact hi hlt (by omega)
      · exact ha
    · omega

theorem le_lfnBefore (hm : n ≤ i) (h : ∀ j, j < i → i ≤ j + n → slotAttr (S.getD j []) = attrLfn) : n ≤ lfnBefore S i := by
  induction i generalizing n with
  | zero => exact hm
  | succ i hi =>
    rcases eq_zero_or_pos n with rfl | hpos
    · exact Nat.zero_le _
    rw [lfnBefore, if_pos (h i (Nat.lt_succ_self i) (by omega))]
    have := hi (n := n - 1) (by omega) fun j hj hle => h j (Nat.lt_succ_of_lt hj) (by omega)
    omega

theorem slotsOf_markDeleted (hi : i < b.length / 32) :
    slotsOf (Fat32.markDeleted b i) = delSlots i (i + 1) (slotsOf b) := by
  apply ext_getElem?
  intro j
  rw [getElem?_slotsOf_markDeleted hi, getElem?_delSlots]
  by_cases hj : j = i
  · rw [if_pos hj, if_pos ⟨Nat.le_of_eq hj.symm, hj ▸ Nat.lt_succ_self j⟩, hj, getElem?_slotsOf, if_pos hi]
    rfl
  · rw [if_neg hj, if_neg (by omega)]

theorem slotsOf_clearLfnBefore (hi : i ≤ b.length / 32) :
    slotsOf (Fat32.clearLfnBefore b i) = delSlots (i - lfnBefore (slotsOf b) i) i (slotsOf b) := by
  induction i generalizing b with
  | zero =>
    apply ext_getElem?
    intro j
    rw [getElem?_delSlots, if_neg (by omega)]
    rfl
  | succ back hb =>
    have hlt : back < b.length / 32 := hi
    have hslot : (slotsOf b).getD back [] = b.slice (back * 32) 32 := by
      rw [getD_eq_getElem?_getD, getElem?_slotsOf, if_pos hlt]
      rfl
    rw [Fat32.clearLfnBefore, lfnBefore, hslot]
    split_ifs with ha
    · have hcount : lfnBefore (slotsOf (Fat32.markDeleted b back)) back = lfnBefore (slotsOf b) back :=
        lfnBefore_congr fun j hj => by rw [getElem?_slotsOf_markDeleted hlt, if_neg (ne_of_lt hj)]
      rw [hb (by rw [length_markDeleted hlt]; exact le_of_lt hlt), hcount, slotsOf_markDeleted hlt,
        delSlots_delSlots (Nat.sub_le ..), Nat.succ_sub_succ]
    · apply ext_getElem?
      intro j
      rw [getElem?_delSlots, if_neg (by omega)]

theorem slotsOf_cleared (hi : i < b.length / 32) :
    slotsOf (Fat32.clearLfnBefore (Fat32.markDeleted b i) i) = delSlots (i - lfnBefore (slotsOf b) i) (i + 1) (slotsOf b) := by
  have hcount : lfnBefore (slotsOf (Fat32.markDeleted b i)) i = lfnBefore (slotsOf b) i :=
    lfnBefore_congr fun j hj => by rw [getElem?_slotsOf_markDeleted hi, if_neg (Nat.ne_of_lt hj)]
  rw [slotsOf_clearLfnBefore (by rw [length_markDeleted hi]; exact Nat.le_of_lt hi), hcount, slotsOf_markDeleted hi,
    delSlots_delSlots (Nat.sub_le ..)]

theorem erased_delSlots (hk : k < S.length) (hn : n ≤ lfnBefore S k) : Erased S (delSlots (k - n) (k + 1) S) k := by
  have hget {j : Nat} (hj : j < k + 1) := getElem?_eq_getElem (lt_of_lt_of_le hj hk)
  refine ⟨⟨S[k], hget (Nat.lt_succ_self k), ?_⟩, fun j hj => ?_⟩
  · rw [getElem?_delSlots, if_pos (by omega), hget (Nat.lt_succ_self k)]
    rfl
  · rw [getElem?_delSlots]
    split_ifs with hin
    · have ha := slotAttr_of_lfnBefore (S := S) (j := j) (i := k) (by omega) (by omega)
      rw [getD_eq_getElem?_getD, hget hin.2] at ha
      exact .inr ⟨_, hget hin.2, ha, by rw [hget hin.2]; rfl⟩
    · exact .inl rfl

end Fat

namespace Fat32

variable {v : Fat32} {V V' : Vol} {h k : Nat} {cs : List Nat}

-- The effect of `removeDirSlots` on slot `k` of a directory with the chain `cs`.
def removeVol (v : Fat32) (cs : List Nat) (k : Nat) (V : Vol) : Vol :=
  match cs[k / v.slotsPerCluster]? with
  | none => V
  | some c =>
    V.setData c (clearLfnBefore (markDeleted (V.data c) (k % v.slotsPerCluster)) (k % v.slotsPerCluster))

def clearedCount (v : Fat32) (S : List Bytes) (k : Nat) : Nat := min (k % v.slotsPerCluster) (lfnBefore S k)

@[simp]
theorem removeVol_fat : (v.removeVol cs k V).fat = V.fat := by
  unfold removeVol
  split <;> rfl

theorem removeVol_data_of_not_mem (hc : c ∉ cs) : (v.removeVol cs k V).data c = V.data c := by
  unfold removeVol
  split
  · rfl
  case h_2 c' h => exact setData_data_of_ne fun he => hc (he ▸ mem_of_getElem? h)

namespace DirChain

variable (r : v.DirChain V h cs) (hp : 0 < v.sectorsPerCluster) (hk : k < (V.slots cs).length)
include r hp hk

theorem removeVol_eq : ∃ c, cs[k / v.slotsPerCluster]? = some c ∧ k % v.slotsPerCluster < (V.data c).length / 32 ∧
    v.removeVol cs k V = V.setData c
      (clearLfnBefore (markDeleted (V.data c) (k % v.slotsPerCluster)) (k % v.slotsPerCluster)) := by
  have ⟨c, hc, _⟩ := r.cluster_of_slot hp (getElem?_eq_getElem hk)
  refine ⟨c, hc, ?_, by simp [removeVol, hc]⟩
  rw [r.length c (mem_of_getElem? hc)]
  exact Nat.mod_lt _ (slotsPerCluster_pos hp)

theorem length_removeVol (c : Nat) : ((v.removeVol cs k V).data c).length = (V.data c).length := by
  have ⟨c', _, hlt, he⟩ := r.removeVol_eq hp hk
  rw [he]
  by_cases hc : c = c'
  · rw [hc, setData_data_self, length_cleared hlt]
  · rw [setData_data_of_ne hc]

theorem does_removeDirSlots (hd : e.dirCluster = h) (hi : e.dirIndex = k) :
    v.Does (v.removeDirSlots e) V (.ok ()) (v.removeVol cs k V) := by
  have ⟨c, hc, hlt, he⟩ := r.removeVol_eq hp hk
  subst hd hi
  rw [he]
  exact does_editSlot r.chain r.valid hc
    (by rw [length_cleared hlt, r.length c (mem_of_getElem? hc)])

theorem slots_removeVol :
    (v.removeVol cs k V).slots cs = delSlots (k - v.clearedCount (V.slots cs) k) (k + 1) (V.slots cs) := by
  have hn := slotsPerCluster_pos hp
  have ⟨c, hc, hlt, he⟩ := r.removeVol_eq hp hk
  have hlen (c' : Nat) (hc' : c' ∈ cs) : (slotsOf ((v.removeVol cs k V).data c')).length = v.slotsPerCluster := by
    rw [Fat.length_slotsOf, r.length_removeVol hp hk, ← Fat.length_slotsOf, r.length_slotsOf hc']
  have hget (j : Nat) := Vol.getElem?_slots (V := V) (k := j) (fun _ => r.length_slotsOf) hn
  have hget' (j : Nat) := Vol.getElem?_slots (k := j) hlen hn
  have hdiv := Nat.div_add_mod k v.slotsPerCluster
  -- The cluster is the piece of the directory from `k / n * n` on.
  have hpiece : ∀ j < k % v.slotsPerCluster,
      (slotsOf (V.data c))[j]? = (V.slots cs)[v.slotsPerCluster * (k / v.slotsPerCluster) + j]? := by
    intro j hj
    have := Nat.mod_lt k hn
    rw [Nat.mul_comm, r.getElem?_slots_cluster hp hc (by omega)]
  have hcount : lfnBefore (slotsOf (V.data c)) (k % v.slotsPerCluster) = v.clearedCount (V.slots cs) k := by
    rw [lfnBefore_piece hpiece, hdiv]
    rfl
  have hle : v.clearedCount (V.slots cs) k ≤ k % v.slotsPerCluster := Nat.min_le_left ..
  apply ext_getElem?
  intro j
  rw [getElem?_delSlots, hget, hget']
  have hj := Nat.div_add_mod j v.slotsPerCluster
  by_cases hsame : j / v.slotsPerCluster = k / v.slotsPerCluster
  · rw [hsame] at hj
    rw [hsame, hc, bind_some, bind_some, he, setData_data_self, slotsOf_cleared hlt, getElem?_delSlots,
      hcount]
    have hiff : (k % v.slotsPerCluster - v.clearedCount (V.slots cs) k ≤ j % v.slotsPerCluster ∧
        j % v.slotsPerCluster < k % v.slotsPerCluster + 1) ↔ (k - v.clearedCount (V.slots cs) k ≤ j ∧ j < k + 1) := by
      omega
    simp only [hiff]
  · have hout : ¬(k - v.clearedCount (V.slots cs) k ≤ j ∧ j < k + 1) := by
      intro ⟨h1, h2⟩
      apply hsame
      refine Nat.le_antisymm (Nat.div_le_div_right (Nat.le_of_lt_succ h2)) ?_
      rw [Nat.le_div_iff_mul_le hn, Nat.mul_comm]
      omega
    rw [if_neg hout]
    cases hc' : cs[j / v.slotsPerCluster]? with
    | none => rfl
    | some c' =>
      have hne : c' ≠ c := fun hcc => hsame ((getElem?_inj (List.getElem?_eq_some_iff.mp hc').1
        r.chain.nodup).mp (by rw [hc', hc, hcc]))
      rw [bind_some, bind_some, he, setData_data_of_ne hne]

theorem erased_removeVol : Erased (V.slots cs) ((v.removeVol cs k V).slots cs) k := by
  rw [r.slots_removeVol hp hk]
  exact erased_delSlots hk (min_le_right ..)

end DirChain
end Fat32
