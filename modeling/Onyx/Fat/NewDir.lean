import Onyx.Fat.Create

-- `mkdir`: what it makes of the cluster of the new directory.

open Lib Fat List Vol

namespace Fat32

variable {v : Fat32} {V : Vol} {L : Layout} {c up : Nat}

def dirBytes (v : Fat32) (c up : Nat) : Bytes :=
  dotSlot (dotName 1) c ++ dotSlot (dotName 2) up ++ replicate (v.clusterBytes - 64) 0

theorem length_dotName (hn : n ≤ 11) : (dotName n).length = 11 := by
  simp [dotName]
  omega

theorem length_dotSlot (hn : n ≤ 11) : (dotSlot (dotName n) c).length = 32 :=
  length_packSlot (length_dotName hn)

theorem length_dirBytes (hp : 0 < v.sectorsPerCluster) : (v.dirBytes c up).length = v.clusterBytes := by
  have h : 512 ≤ v.clusterBytes := Nat.le_mul_of_pos_left 512 hp
  rw [dirBytes, length_append, length_append, length_dotSlot (by decide),
    length_dotSlot (by decide), length_replicate]
  omega

theorem dotSlot_eq (hn : n ≤ 11) : slotHead (dotSlot (dotName n) c) = slotHead (dotSlot (dotName n) 0) := by
  rw [dotSlot, dotSlot, slotHead_packSlot (length_dotName hn), slotHead_packSlot (length_dotName hn)]

theorem isDot_dotSlot : isDot (dotSlot (dotName 1) c) = true ∧ isDot (dotSlot (dotName 2) c) = true := by
  rw [isDot_eq_of_slotHead (dotSlot_eq (n := 1) (by decide)),
    isDot_eq_of_slotHead (dotSlot_eq (n := 2) (by decide))]
  decide

theorem isLive_dotSlot : isLive (dotSlot (dotName 1) c) = true := by
  rw [isLive_eq_of_slotHead (dotSlot_eq (by decide))]
  decide

theorem slotMark_dotSlot : slotMark (dotSlot (dotName (n + 1)) c) = 46 :=
  rfl

theorem slot_of_dirBytes (hj : (slotsOf (v.dirBytes c up))[j]? = some s) :
    j = 0 ∧ s = dotSlot (dotName 1) c ∨ j = 1 ∧ s = dotSlot (dotName 2) up ∨ 2 ≤ j ∧ slotMark s = slotEnd := by
  rw [dirBytes, append_assoc, slotsOf_append (length_dotSlot (by decide)),
    slotsOf_append (length_dotSlot (by decide))] at hj
  match j with
  | 0 => exact .inl ⟨rfl, (Option.some.inj hj).symm⟩
  | 1 => exact .inr (.inl ⟨rfl, (Option.some.inj hj).symm⟩)
  | j + 2 =>
    simp only [getElem?_cons_succ, getElem?_slotsOf] at hj
    split_ifs at hj
    cases hj
    refine .inr (.inr ⟨Nat.le_add_left .., ?_⟩)
    rw [slotMark, getD_eq_getElem?_getD, Bytes.getElem?_slice, getElem?_replicate]
    split_ifs <;> rfl

theorem slot_dirBytes (hj : (slotsOf (v.dirBytes c up))[j]? = some s)
    (hl : isLive s = true) : (j = 0 ∨ j = 1) ∧ isDot s = true := by
  rcases slot_of_dirBytes hj with ⟨h0, hs⟩ | ⟨h1, hs⟩ | ⟨_, hm⟩
  · exact ⟨.inl h0, hs ▸ isDot_dotSlot.1⟩
  · exact ⟨.inr h1, hs ▸ isDot_dotSlot.2⟩
  · exact absurd hm (isLive_iff.mp hl).1

-- A free cluster made into an empty directory, for which there is no entry yet.
def newDirVol (v : Fat32) (c up : Nat) (V : Vol) : Vol :=
  (V.alloc none c).setData c (v.dirBytes c up)

theorem newDirVol_fat : (v.newDirVol c up V).fat = (V.alloc none c).fat :=
  rfl

theorem newDirVol_data_self : (v.newDirVol c up V).data c = v.dirBytes c up :=
  setData_data_self

theorem newDirVol_data_of_ne (h : x ≠ c) : (v.newDirVol c up V).data x = V.data x := by
  rw [newDirVol, setData_data_of_ne h, alloc_data]

theorem newDirVol_chain_self : (v.newDirVol c up V).Chain c [c] :=
  .last link_setFat_eoc

section newDirVol

variable (h0 : V.fat c = 0)
include h0

theorem ne_of_mem_chain (ha : V.Chain a as) (hx : x ∈ as) : x ≠ c :=
  fun he => ha.fat_ne_zero hx (he ▸ h0)

theorem newDirVol_chain (up : Nat) (ha : V.Chain a as) :
    (v.newDirVol c up V).Chain a as ∧ ∀ x ∈ as, (v.newDirVol c up V).data x = V.data x := by
  have hne {x : Nat} (hx : x ∈ as) : x ≠ c := ne_of_mem_chain h0 ha hx
  refine ⟨ha.congr fun x hx => link_congr ?_, fun x hx => newDirVol_data_of_ne (hne hx)⟩
  rw [newDirVol_fat, alloc_fat_of_ne (hne hx) (by simp)]

theorem Wf.ne_of_mem_dirs (w : v.Wf V L) (hh : h ∈ L.dirs) : h ≠ c := by
  have ⟨_, ha, _⟩ := w.dirs hh
  exact ne_of_mem_chain h0 ha ha.mem_head

theorem Wf.newDirVol_dir (w : v.Wf V L) (hh : h ∈ (L.addDir c p).dirs) (hx : h ≠ c)
    (ha : (v.newDirVol c up V).Chain h as) :
    h ∈ L.dirs ∧ V.Chain h as ∧ (v.newDirVol c up V).slots as = V.slots as := by
  have hh := Set.mem_of_mem_insert_of_ne hh hx
  have ⟨as', ha', _⟩ := w.dirs hh
  have ⟨hb, hdata⟩ := newDirVol_chain (v := v) h0 up ha'
  cases ha.unique hb
  exact ⟨hh, ha', slots_congr hdata⟩

omit h0 in
theorem newDirVol_slots (ha : (v.newDirVol c up V).Chain c as) :
    (v.newDirVol c up V).slots as = slotsOf (v.dirBytes c up) := by
  cases ha.unique newDirVol_chain_self
  simp [slots, newDirVol_data_self]

theorem Wf.addDir (w : v.Wf V L) (hc : v.Valid c) (up : Nat) (p : Nat × Nat) :
    v.Wf (v.newDirVol c up V) (L.addDir c p) := by
  have hmem {h} (hh : h ∈ L.dirs) : h ≠ c := w.ne_of_mem_dirs h0 hh
  refine ⟨?_, w.spc_pos, ?_, .inr w.root, ?_, ?_, ?_, ?_⟩
  · intro x hx
    by_cases he : x = c
    · rw [he, newDirVol_data_self, length_dirBytes w.spc_pos]
    · rw [newDirVol_data_of_ne he, w.length_data hx]
  · intro x o ho
    simp only [Layout.addDir] at ho
    split_ifs at ho with he
    · exact he ▸ hc
    · exact w.valid ho
  · simp [Layout.addDir, hmem w.root, w.root_parent]
  · intro h hh
    by_cases he : h = c
    · subst he
      exact ⟨[h], newDirVol_chain_self, by simp [Layout.addDir]⟩
    have ⟨as, ha, ho⟩ := w.dirs (Set.mem_of_mem_insert_of_ne hh he)
    exact ⟨as, (newDirVol_chain h0 up ha).1, fun x hx => by
      simp [Layout.addDir, ne_of_mem_chain h0 ha hx, ho x hx]⟩
  · intro h as j s hh ha hj hl hd
    by_cases he : h = c
    · subst he
      rw [newDirVol_slots ha] at hj
      simp [(slot_dirBytes hj hl).2] at hd
    have ⟨hh', ha', hs⟩ := w.newDirVol_dir h0 hh he ha
    cases w.entries hh' ha' (hs ▸ hj) hl hd with
    | empty h₁ h2 => exact .empty h₁ h2
    | dir h₁ h2 h3 => exact .dir h₁ (.inr h2) (by simp [Layout.addDir, hmem h2, h3])
    | file bs h₁ h2 h3 h4 =>
      exact .file bs h₁ (newDirVol_chain h0 up h2).1
        (fun x hx => by simp [Layout.addDir, ne_of_mem_chain h0 h2 hx, h3 x hx]) h4
  · intro h as j s hh ha hj hl hd
    by_cases he : h = c
    · subst he
      rw [newDirVol_slots ha] at hj ⊢
      refine (slot_dirBytes hj hl).1.imp_right fun h1 => ⟨h1, dotSlot (dotName 1) h, ?_, isLive_dotSlot,
        isDot_dotSlot.1⟩
      rw [dirBytes, append_assoc, slotsOf_append (length_dotSlot (by decide))]
      rfl
    · have ⟨hh', ha', hs⟩ := w.newDirVol_dir h0 hh he ha
      rw [hs] at hj ⊢
      exact w.dots hh' ha' hj hl hd

end newDirVol

def mkdirVol (v : Fat32) (now : ℤ) (h : Nat) (cs : List Nat) (name : Text) (V : Vol) :
    Result FsError Unit × Vol :=
  match v.firstFree V with
  | none => (fail .noSpace, V)
  | some c =>
    match v.createVol now h cs name c true
        (v.newDirVol c (if h = v.rootCluster then 0 else h) V) with
    | (.error f, V) => (.error f, V)
    | (.ok _, V) => (.ok (), V)

theorem does_makeDir (w : v.Wf V L) (hh : h ∈ L.dirs) (hc : V.Chain h cs) :
    v.Does (v.makeDir now h name) V (v.mkdirVol now h cs name V).1 (v.mkdirVol now h cs name V).2 := by
  unfold makeDir mkdirVol
  cases hf : v.firstFree V with
  | none => exact .bind_error (does_allocCluster_none hf)
  | some c =>
    have ⟨hv, h0⟩ := firstFree_eq_some hf
    have w' := w.addDir h0 hv (if h = v.rootCluster then 0 else h) (h, 0)
    have r := w'.dirChain (.inr hh) (newDirVol_chain h0 _ hc).1
    have hd := does_createEntry r w'.length_data now name c true
    refine .bind (does_allocCluster hf (by simp)) (.bind (does_writeCluster hv ?_) ?_)
    · exact length_dirBytes w.spc_pos
    · simp only
      cases hr : v.createVol now h cs name c true
          (v.newDirVol c (if h = v.rootCluster then 0 else h) V) with
      | mk res V' =>
        rw [hr] at hd
        cases res with
        | error f => exact .bind_error hd
        | ok e => exact .bind hd .pure

end Fat32
