import Onyx.Fat.Content

-- Rewriting a slot in place: `write_dirent`, and what a scan finds afterwards.

open Lib Fat List Bytes

namespace Fat

variable {slot s : Bytes} {now : ℤ} {e : RawEntry}

-- The bytes that tell what a slot is and how it is named: name, attributes, case flags.
def slotHead (slot : Bytes) : Bytes := slot.slice 0 13

section

variable (h : slotHead s = slotHead slot)
include h

theorem getD_eq_of_slotHead (hi : i < 13) : s.getD i 0 = slot.getD i 0 := by
  have h1 := getElem?_slice (b := s) (o := 0) (n := 13) (i := i)
  have h2 := getElem?_slice (b := slot) (o := 0) (n := 13) (i := i)
  simp only [hi, if_true, Nat.zero_add] at h1 h2
  unfold slotHead at h
  rw [h] at h1
  simp [getD_eq_getElem?_getD, ← h1, h2]

theorem slice_eq_of_slotHead (hi : i + n ≤ 13) : s.slice i n = slot.slice i n := by
  have h1 := slice_slice (b := s) (o := 0) hi
  have h2 := slice_slice (b := slot) (o := 0) hi
  unfold slotHead at h
  rw [← Nat.zero_add i, ← h1, ← h2, h]

theorem slotMark_eq_of_slotHead : slotMark s = slotMark slot :=
  getD_eq_of_slotHead h (by decide)

theorem slotAttr_eq_of_slotHead : slotAttr s = slotAttr slot :=
  getD_eq_of_slotHead h (by decide)

theorem isLive_eq_of_slotHead : isLive s = isLive slot := by
  simp [isLive, slotMark_eq_of_slotHead h, slotAttr_eq_of_slotHead h]

theorem slotIsDir_eq_of_slotHead : slotIsDir s = slotIsDir slot := by
  simp [slotIsDir, slotAttr_eq_of_slotHead h]

theorem shortName_eq_of_slotHead : shortName s = shortName slot := by
  have h1 : s.slice 0 8 = slot.slice 0 8 := slice_eq_of_slotHead h (by decide)
  have h2 : s.slice 8 3 = slot.slice 8 3 := slice_eq_of_slotHead h (by decide)
  have h3 : s.getD 12 0 = slot.getD 12 0 := getD_eq_of_slotHead h (by decide)
  unfold shortName
  rw [h1, h2, h3]

theorem isDot_eq_of_slotHead : isDot s = isDot slot := by
  simp [isDot, shortName_eq_of_slotHead h]

def reslot (s : Bytes) (e : RawEntry) : RawEntry :=
  { e with
    firstCluster := slotFirst s
    size := slotSize s
    ctime := fatDateToUnix (s.u16At 16)
    atime := fatDateToUnix (s.u16At 18)
    mtime := slotMtime s }

theorem entryOf_eq_reslot : entryOf dir run s idx = reslot s (entryOf dir run slot idx) := by
  have h1 : s.slice 0 11 = slot.slice 0 11 := slice_eq_of_slotHead h (by decide)
  simp [entryOf, reslot, shortName_eq_of_slotHead h, slotIsDir_eq_of_slotHead h, h1]

end

theorem isLive_iff : isLive slot = true ↔ slotMark slot ≠ slotEnd ∧ slotMark slot ≠ slotDeleted ∧
    slotAttr slot ≠ attrLfn ∧ slotAttr slot &&& attrVolume = 0 := by
  simp [isLive]

theorem nextRun_of_isLive (h : isLive slot = true) : nextRun run slot = .empty := by
  simp [nextRun, (isLive_iff.mp h).2.2.1]

theorem dirIndex_of_mem_scanSlots (he : e ∈ (scanSlots dir idx run slots).1) : idx ≤ e.dirIndex := by
  have ⟨k, _, _, _, _, he⟩ := mem_scanSlots.mp he
  have : e.dirIndex = idx + k := congrArg RawEntry.dirIndex he
  omega

theorem isLive_of_lfn (h : slotAttr slot = attrLfn) : isLive slot = false := by
  simp [isLive, h]

theorem scanSlots_of_not_live (hl : ∀ s ∈ S, isLive s = false) : (scanSlots dir idx run S).1 = [] := by
  refine eq_nil_iff_forall_not_mem.mpr fun e he => ?_
  have ⟨_, s, hk, hs, _⟩ := mem_scanSlots.mp he
  simp [hl s (mem_of_getElem? hk)] at hs

theorem scanSlots_set (hk : slots[k]? = some slot) (hl : isLive slot = true)
    (h : slotHead s = slotHead slot) : (scanSlots dir idx run (slots.set k s)).1 =
      (scanSlots dir idx run slots).1.map fun e => if e.dirIndex = idx + k then reslot s e else e := by
  induction slots generalizing k idx run with
  | nil => simp at hk
  | cons slot' slots hi =>
    cases k with
    | zero =>
      cases hk
      have hm := (isLive_iff.mp hl).1
      have hl' := (isLive_eq_of_slotHead h).trans hl
      have hrest : (scanSlots dir (idx + 1) .empty slots).1 = (scanSlots dir (idx + 1) .empty slots).1.map
          fun e => if e.dirIndex = idx + 0 then reslot s e else e := by
        refine (map_id' _).symm.trans (map_congr_left fun e he => ?_)
        have := dirIndex_of_mem_scanSlots he
        rw [if_neg (by omega)]
      rw [set_cons_zero, scanSlots_cons, scanSlots_cons, slotMark_eq_of_slotHead h,
        nextRun_of_isLive hl, nextRun_of_isLive hl', hl, hl', if_neg hm, if_neg hm]
      simp only [if_true, cons_append, nil_append, map_cons, ← hrest, entryOf_eq_reslot h]
      simp [entryOf]
    | succ k =>
      have hidx : idx + 1 + k = idx + (k + 1) := by omega
      rw [set_cons_succ, scanSlots_cons, scanSlots_cons]
      split_ifs with hm hl'
      · rfl
      · simp [hi hk, hidx, entryOf]
      · simp [hi hk, hidx]

end Fat

namespace Fat32

variable {v : Fat32} {V : Vol} {slot : Bytes} {e : RawEntry} {now : ℤ} {h idx c : Nat} {cs : List Nat}

def direntFields (now : ℤ) (e : RawEntry) : List (Nat × Bytes) :=
  [(20, toLe 2 (e.firstCluster / 2 ^ 16)), (26, toLe 2 (e.firstCluster % 2 ^ 16)),
    (28, toLe 4 e.size)] ++
  if now = 0 then []
  else
    let (wt, wd) := unixToFatTimeDate now
    [(22, toLe 2 wt), (24, toLe 2 wd), (18, toLe 2 wd)]

theorem direntSlot_eq : direntSlot now e slot = slot.patches (direntFields now e) := by
  simp only [direntSlot, direntFields]
  split_ifs <;> rfl

theorem direntFields_fit : ∀ f ∈ direntFields now e, 18 ≤ f.1 ∧ f.1 + f.2.length ≤ 32 := by
  simp only [direntFields]
  split_ifs <;> simp

theorem direntFields_disjoint :
    (direntFields now e).Pairwise fun f g => f.1 + f.2.length ≤ g.1 ∨ g.1 + g.2.length ≤ f.1 := by
  simp only [direntFields]
  split_ifs <;> simp

section direntSlot

variable (hl : slot.length = 32) (now : ℤ) (e : RawEntry)
include hl

theorem length_direntSlot : (direntSlot now e slot).length = 32 := by
  rw [direntSlot_eq, length_patches fun f hf => hl ▸ (direntFields_fit f hf).2, hl]

theorem slotHead_direntSlot : slotHead (direntSlot now e slot) = slotHead slot := by
  rw [direntSlot_eq]
  refine slice_patches_of_disjoint (fun f hf => hl ▸ (direntFields_fit f hf).2) fun f hf => ?_
  have := (direntFields_fit f hf).1
  omega

theorem slice_direntSlot (hf : (o, new) ∈ direntFields now e) : (direntSlot now e slot).slice o new.length = new := by
  rw [direntSlot_eq]
  exact slice_patches_of_mem (fun f hf => hl ▸ (direntFields_fit f hf).2)
    direntFields_disjoint hf

variable {now e}

theorem slotSize_direntSlot (hs : e.size < 2 ^ 32) : slotSize (direntSlot now e slot) = e.size := by
  have := slice_direntSlot hl now e (o := 28) (.tail _ (.tail _ (.head _)))
  rw [length_toLe] at this
  rw [slotSize, u32At, this, ofLe_toLe _ _ hs]

theorem slotFirst_direntSlot (hf : e.firstCluster < 2 ^ 32) : slotFirst (direntSlot now e slot) = e.firstCluster := by
  have h1 := slice_direntSlot hl now e (o := 20) (.head _)
  have h2 := slice_direntSlot hl now e (o := 26) (.tail _ (.head _))
  rw [length_toLe] at h1 h2
  rw [slotFirst, u16At, u16At, h1, h2, ofLe_toLe _ _ (by omega), ofLe_toLe _ _ (by omega)]
  omega

end direntSlot

theorem does_editSlot (hc : V.Chain h cs) (hv : ∀ c ∈ cs, v.Valid c)
    (hi : cs[idx / v.slotsPerCluster]? = some c)
    (hl : (edit (V.data c) (idx % v.slotsPerCluster)).length = v.clusterBytes) :
    v.Does (v.editSlot h idx edit) V (.ok ()) (V.setData c (edit (V.data c) (idx % v.slotsPerCluster))) := by
  have hvc := hv c (mem_of_getElem? hi)
  refine .read_bind (fun _ hs => hs.walkChain hc hv) ?_
  simp only [hi]
  exact .read_bind (fun _ hs => hs.readCluster hvc) (does_writeCluster hvc hl)

theorem does_writeDirent (r : v.DirChain V e.dirCluster cs) (hp : 0 < v.sectorsPerCluster)
    (hk : (V.slots cs)[e.dirIndex]? = some slot) :
    v.Does (v.writeDirent now e) V (.ok ()) (v.setSlot V cs e.dirIndex (direntSlot now e slot)) := by
  have ⟨c, hc, hs⟩ := r.cluster_of_slot hp hk
  have hlen := length_direntSlot (r.length_slot hp hk) now e
  have ⟨c', hc', hl, he⟩ := r.setSlot_eq hp (List.getElem?_eq_some_iff.mp hk).1 hlen
  cases hc.symm.trans hc'
  rw [he, ← hs]
  rw [← hs] at hl
  exact does_editSlot r.chain r.valid hc
    (by rw [length_patch hl, r.length c (mem_of_getElem? hc)])

end Fat32
