import Onyx.Fat.Twin

-- The operations of the driver on two volumes at once.

open Lib Fat List Vol

namespace Fat32

variable {v : Fat32} {V1 V2 V1' V2' : Vol} {L : Layout} {h k : Nat} {dir cs new : List Nat}
variable {e : RawEntry} {slot : Bytes} {lfn : List Bytes} {short : Bytes} {name : Text} {now : ℤ}

-- Two well-formed volumes that hold the same files and directories, with one layout.
structure Twin (v : Fat32) (L : Layout) (V1 V2 : Vol) : Prop where
  left : v.Wf V1 L
  right : v.Wf V2 L
  same : Same L V1 V2

theorem Twin.refl (w : v.Wf V L) : v.Twin L V V :=
  ⟨w, w, .refl V⟩

theorem Placed.CleanTail.congr (hc : Placed.CleanTail V1 new n) (hd : ∀ c ∈ new, V1.data c = V2.data c) :
    Placed.CleanTail V2 new n :=
  fun c hm j hj s hs => hc c hm j hj s (hd c hm ▸ hs)

-- The cluster that a directory without a place for the slots has to grow by.
def Extension (v : Fat32) (h need : Nat) (V : Vol) (x : Nat) : Prop :=
  ∃ cs, V.Chain h cs ∧ (∀ k, ¬ v.IsPlace (V.slots cs) need k) ∧ v.firstFree V = some x

-- The cluster is the same in both volumes and shows no entry behind the run.
def CleanRoom (v : Fat32) (h need : Nat) (V1 V2 : Vol) : Prop :=
  ∀ x, v.Extension h need V1 x → Placed.CleanTail V1 [x] need ∧ V1.data x = V2.data x

namespace CleanRoom

variable (hx : v.CleanRoom h need V1 V2)
include hx

theorem of_searchRun (r : v.DirChain V1 h cs) (hp : 0 < v.sectorsPerCluster) (hn : 0 < need)
    (hs : V1.searchRun need 0 cs = none) (c : Nat) (hf : v.firstFree V1 = some c) : V1.data c = V2.data c :=
  (hx c ⟨cs, r.chain, r.not_isPlace_of_searchRun hp hn hs, hf⟩).2

theorem of_placed (hc : V1.Chain h cs) (p : v.Placed V1 cs new k run V')
    (hn : run.length = need) : Placed.CleanTail V1 new need ∧ ∀ c ∈ new, V1.data c = V2.data c := by
  cases p.place with
  | inl hp => simp [hp.1, Placed.CleanTail]
  | inr hp =>
    have ⟨c, hnew, hf, _, hno⟩ := hp
    have ⟨h1, h2⟩ := hx c ⟨cs, hc, hn ▸ hno, hf⟩
    subst hnew
    exact ⟨h1, by simpa using h2⟩

omit hx in
theorem newDir (hx : v.CleanRoom h need (V1.alloc none c) (V2.alloc none c)) (h0 : V1.fat c = 0)
    (hc : V1.Chain h cs) (up : Nat) : v.CleanRoom h need (v.newDirVol c up V1) (v.newDirVol c up V2) := by
  intro c' ⟨cs', hc', hno, hf⟩
  have ⟨hc1, hd⟩ := newDirVol_chain (v := v) h0 up hc
  cases hc'.unique hc1
  have hslots : (V1.alloc none c).slots cs = (v.newDirVol c up V1).slots cs :=
    slots_congr fun x hx => by rw [alloc_data, hd x hx]
  have hne : c' ≠ c := by
    have h₀ := (firstFree_eq_some hf).2
    rintro rfl
    rw [newDirVol_fat, alloc_fat_self (by simp)] at h₀
    exact absurd h₀ (by decide)
  have ⟨h1, h2⟩ := hx c' ⟨cs, hc1.congr fun x _ => link_congr (by rw [newDirVol_fat]), hslots ▸ hno,
    firstFree_congr newDirVol_fat ▸ hf⟩
  rw [alloc_data, alloc_data] at h2
  refine ⟨?_, by rw [newDirVol_data_of_ne hne, newDirVol_data_of_ne hne, h2]⟩
  refine h1.congr fun x hx => ?_
  rw [mem_singleton.mp hx, alloc_data, newDirVol_data_of_ne hne]

end CleanRoom

theorem Placed.unique (p1 : v.Placed V1 cs new1 k1 run1 V1')
    (p2 : v.Placed V2 cs new2 k2 run2 V2') (hf : V1.fat = V2.fat) (hs : V1.slots cs = V2.slots cs)
    (hl : run1.length = run2.length) : new1 = new2 ∧ k1 = k2 := by
  have hp1 := p1.place
  have hp2 := p2.place
  rw [firstFree_congr hf, hs, hl] at hp1
  cases hp1 with
  | inl hp1 =>
    cases hp2 with
    | inl hp2 => exact ⟨hp1.1.trans hp2.1.symm, le_antisymm (hp1.2.2 _ hp2.2.1) (hp2.2.2 _ hp1.2.1)⟩
    | inr hp2 =>
      have ⟨_, _, _, _, hno⟩ := hp2
      exact absurd hp1.2.1 (hno _)
  | inr hp1 =>
    have ⟨c1, hn1, hf1, hk1, hno⟩ := hp1
    cases hp2 with
    | inl hp2 => exact absurd hp2.2.1 (hno _)
    | inr hp2 =>
      have ⟨c2, hn2, hf2, hk2, _⟩ := hp2
      cases hf1.symm.trans hf2
      exact ⟨hn1.trans hn2.symm, hk1.trans hk2.symm⟩

-- What the entry that is created may name.
inductive Nameable (L : Layout) (h i first : Nat) : Bool → Prop
  | file (h0 : first = 0) : Nameable L h i first false
  | dir (hm : first ∈ L.dirs) (hp : L.parent first = some (h, i)) (hlt : first < 2 ^ 32) :
    Nameable L h i first true

theorem Nameable.entryOk (hn : Nameable L h i first isDir) (hd : Derived name short lfn) :
    v.EntryOk V (L.claim new (.dir h)) h i (packSlot short (entryAttr isDir) first 0 t) := by
  cases hn with
  | file h0 =>
    subst h0
    exact .empty (slotFirst_packSlot hd.length_short (by decide)) fun _ =>
      slotSize_packSlot hd.length_short (by decide)
  | dir hm hp hlt =>
    have hf : slotFirst (packSlot short (entryAttr true) first 0 t) = first := slotFirst_packSlot hd.length_short hlt
    exact .dir (slotIsDir_packSlot hd.length_short) (by rw [hf]; exact hm) (by rw [hf]; exact hp)

section

variable (p : v.Placed V cs new k (lfn ++ [packSlot short (entryAttr false) 0 0 t]) V')
include p

theorem Placed.storable (r : v.DirChain V h cs) (w : v.Wf V L) (now : ℤ) (name : Text) :
    v.Storable V' (newEntry now h name 0 false short (k + lfn.length)) (cs ++ new)
      (packSlot short (entryAttr false) 0 0 t) [] := by
  refine ⟨w.spc_pos, fun hv => by rw [p.length, w.length_data hv], p.dirChain r w.length_data, ?_,
    .inl ⟨rfl, rfl⟩, by simp, by simp⟩
  rw [p.slots, getElem?_overwrite p.fits]
  simp [newEntry]

theorem Placed.fileAt (hd : Derived name short lfn) (r : v.DirChain V h cs) (w : v.Wf V L) (hh : h ∈ L.dirs) (now : ℤ) :
    v.FileAt V' (L.claim new (.dir h)) (newEntry now h name 0 false short (k + lfn.length)) (cs ++ new)
      (packSlot short (entryAttr false) 0 0 t) [] := by
  exact ⟨hh, p.storable r w now name, hd.isLive,
    hd.isDot, slotIsDir_packSlot hd.length_short,
    slotFirst_packSlot hd.length_short (by decide), slotSize_packSlot hd.length_short (by decide),
    Nat.zero_le _, by simp⟩

end

namespace Twin

variable (t : v.Twin L V1 V2)
include t

section

variable (hh : h ∈ L.dirs) (hc : V1.Chain h cs)
include hh hc

theorem dirChain : v.DirChain V1 h cs ∧ v.DirChain V2 h cs :=
  ⟨t.left.dirChain hh hc, t.right.dirChain hh (t.same.chain hc)⟩

theorem placed (hd1 : Derived name short1 lfn1) (hd2 : Derived name short2 lfn2)
    (p1 : v.Placed V1 cs new k (lfn1 ++ [packSlot short1 (entryAttr isDir) first 0 t1]) V1')
    (p2 : v.Placed V2 cs new k (lfn2 ++ [packSlot short2 (entryAttr isDir) first 0 t2]) V2')
    (hx : v.CleanRoom h (slotsFor name) V1 V2) (hF : Follows V1 V2 V1' V2')
    (hn : Nameable L h (k + lfn1.length) first isDir) : v.Twin (L.claim new (.dir h)) V1' V2' := by
  have ⟨hclean, hnew⟩ := hx.of_placed hc p1 (by simpa using hd1.length_lfn)
  have hlfn : lfn1.length = lfn2.length := Nat.succ.inj (hd1.length_lfn.trans hd2.length_lfn.symm)
  have ⟨x1, rest1, hx1, hg1⟩ := hd1.first
  have ⟨x2, rest2, hx2, hg2⟩ := hd2.first
  rw [← hd1.length_lfn] at hclean
  refine ⟨?_, ?_, ?_⟩
  · exact p1.wf t.left hh hc (fun s hs => (hd1.lfn s hs).2.1) hclean
      (isDot_packSlot hd1.length_short hx1 hg1) (hn.entryOk hd1)
  · exact p2.wf t.right hh (t.same.chain hc) (fun s hs => (hd2.lfn s hs).2.1)
      (hlfn ▸ hclean.congr hnew) (isDot_packSlot hd2.length_short hx2 hg2) (hlfn ▸ hn.entryOk hd2)
  · have E1 := p1.edit t.left hh hc (k + lfn1.length)
    have E2 := p2.edit t.right hh (t.same.chain hc) (k + lfn1.length)
    refine t.same.edit t.left E1 E2 hF.fat ?_ ?_
    · intro c hm
      exact hF.data ((mem_append.mp hm).elim (t.same.dirs hh hc c) (hnew c))
    · intro as j s hj hl hdot hf ha
      cases p1.live_slot (fun s hs => (hd1.lfn s hs).2.1) hclean hj hl with
      | inl hs =>
        -- The new entry is not one of a file with contents.
        rw [hs.2, slotSize_packSlot hd1.length_short (by decide)]
        simp
      | inr hs => exact t.same.file_of_edit t.left E1 E2 hh hc hs.2 hl hdot hf (by simp [hs.1]) ha

theorem create_result (hx : v.CleanRoom h (slotsFor name) V1 V2) (now : ℤ) (first : Nat) (isDir : Bool) :
    (v.createVol now h cs name first isDir V1).1 = (v.createVol now h cs name first isDir V2).1 :=
  (createVol_follows t.same.fat (t.same.dirs hh hc)
    (hx.of_searchRun (t.dirChain hh hc).1 t.left.spc_pos (slotsFor_pos _)) now h first isDir).1

end

theorem create (hl : v.totalClusters + 2 ≤ 0x0FFFFFF8) (hh : h ∈ L.dirs) (hc : V1.Chain h cs)
    (hx : v.CleanRoom h (slotsFor name) V1 V2) (he : v.createVol now h cs name first isDir V1 = (.ok e, V1'))
    (hn : Nameable L h e.dirIndex first isDir) : ∃ V2', v.createVol now h cs name first isDir V2 = (.ok e, V2') ∧
      ∃ short lfn new k, Derived name short lfn ∧
        v.Placed V1 cs new k (lfn ++ [packSlot short (entryAttr isDir) first 0 (.ofNow now)]) V1' ∧
        e = newEntry now h name first isDir short (k + lfn.length) ∧ v.Twin (L.claim new (.dir h)) V1' V2' := by
  have ⟨r1, r2⟩ := t.dirChain hh hc
  have hp := t.left.spc_pos
  have ⟨hr, hF⟩ := createVol_follows t.same.fat (t.same.dirs hh hc)
    (hx.of_searchRun r1 hp (slotsFor_pos _)) now h first isDir
  cases he2 : v.createVol now h cs name first isDir V2 with | mk res V2'
  rw [he, he2] at hr hF
  cases hr
  have ⟨short1, lfn1, new1, k1, hd1, p1, hidx, _⟩ := createVol_ok r1 hp t.left.length_data hl he
  have ⟨short2, lfn2, new2, k2, hd2, p2, _, _⟩ := createVol_ok r2 hp t.right.length_data hl he2
  have hd1 := deriveFrom_eq_ok hd1
  have hd2 := deriveFrom_eq_ok hd2
  have hlen : lfn1.length + 1 = lfn2.length + 1 := hd1.length_lfn.trans hd2.length_lfn.symm
  have ⟨hnew, hk⟩ := p1.unique p2 t.same.fat (t.same.slots hh hc) (by simpa using hlen)
  subst hnew hk
  rw [hidx] at hn
  exact ⟨V2', rfl, short1, lfn1, new1, k1, hd1, p1, hidx, t.placed hh hc hd1 hd2 p1 p2 hx hF hn⟩

section

variable (a : v.FileAt V1 L e dir slot cs)
include a

theorem fileAt : v.FileAt V2 L e dir slot cs where
  mem := a.mem
  storable := by
    have st := a.storable
    refine ⟨st.spc_pos, t.right.length_data, (t.dirChain a.mem st.dirChain.chain).2, ?_,
      st.names.imp_right fun hn => ⟨hn.1, t.same.chain hn.2⟩, st.valid, st.disjoint⟩
    rw [← t.same.slots a.mem st.dirChain.chain, st.index]
  live := a.live
  notDot := a.notDot
  isDir := a.isDir
  first := a.first
  size := a.size
  size_le := a.size_le
  owner := a.owner

theorem content : (V1.bytes cs).take e.size = (V2.bytes cs).take e.size := by
  have st := a.storable
  cases st.names with
  | inl hn => simp [hn.2, bytes]
  | inr hn =>
    rw [← a.size]
    exact t.same.files a.mem st.dirChain.chain st.index a.live a.notDot a.isDir (a.first ▸ hn.2)

theorem grown (g1 : v.Grown V1 cs new V1') (g2 : v.Grown V2 cs new V2')
    (hf : V1'.fat = V2'.fat) : v.Twin (L.claim new (.file e.dirCluster e.dirIndex)) V1' V2' := by
  have st := a.storable
  have a2 := t.fileAt a
  have E1 := a.edit_grown t.left g1
  have E2 := a2.edit_grown t.right g2
  refine ⟨a.wf_grown t.left g1, a2.wf_grown t.right g2, t.same.edit t.left E1 E2 hf ?_ ?_⟩
  · intro c hc
    rw [g1.data, g2.data, t.same.dirs a.mem st.dirChain.chain c hc]
  · intro as j s hj hl hd hfile has
    have hslots : V1'.slots dir = V1.slots dir := slots_congr fun c _ => by rw [g1.data]
    rw [hslots] at hj
    by_cases hji : j = e.dirIndex
    · subst hji
      cases hj.symm.trans st.index
      rw [a.size]
      cases st.names with
      | inl hn =>
        have := a.size_le
        rw [hn.2, length_nil, zero_mul] at this
        simp [Nat.le_zero.mp this]
      | inr hn =>
        cases has.unique (a.first ▸ g1.chain _ (.inl hn.2))
        have hlen {V : Vol} (hv : ∀ {c}, v.Valid c → (V.data c).length = v.clusterBytes) :
            e.size ≤ (V.bytes cs).length := by
          rw [length_bytes fun c hc => hv (st.valid c hc)]
          exact a.size_le
        have hb1 : V1'.bytes (cs ++ new) = V1.bytes (cs ++ new) := bytes_congr fun c _ => by rw [g1.data]
        have hb2 : V2'.bytes (cs ++ new) = V2.bytes (cs ++ new) := bytes_congr fun c _ => by rw [g2.data]
        rw [hb1, hb2, bytes_append, bytes_append, take_append_of_le_length (hlen t.left.length_data),
          take_append_of_le_length (hlen t.right.length_data), t.content a]
    · exact t.same.file_of_edit t.left E1 E2 a.mem st.dirChain.chain hj hl hd hfile (by simp [hji]) has

end

theorem stored (st1 : v.StoreStep V1 L e off buf dir slot cs cs' V1')
    (st2 : v.StoreStep V2 L e off buf dir slot cs cs' V2') (hs1 : v.Shows d1 V1) (hs2 : v.Shows d2 V2)
    (hF : Follows V1 V2 V1' V2') (hk : v.Keeps e (off + buf.length)) (hoff : off ≤ e.size) :
    v.Twin (L.claim cs' (.file e.dirCluster e.dirIndex))
      (v.storedVol now e dir slot cs cs' off buf V1') (v.storedVol now e dir slot cs cs' off buf V2') := by
  have s1 := st1.storable
  have E1 := st1.edit now t.left
  have E2 := st2.edit now t.right
  have hfat : (v.writeBytes (off % v.clusterBytes) (cs'.drop (off / v.clusterBytes)) buf V1').fat =
      (v.writeBytes (off % v.clusterBytes) (cs'.drop (off / v.clusterBytes)) buf V2').fat := by
    rw [writeBytes_fat, writeBytes_fat, hF.fat]
  have hdir : ∀ c ∈ dir, (v.writeBytes (off % v.clusterBytes) (cs'.drop (off / v.clusterBytes)) buf V1').data c =
      (v.writeBytes (off % v.clusterBytes) (cs'.drop (off / v.clusterBytes)) buf V2').data c := by
    intro c hc
    have hn : c ∉ cs'.drop (off / v.clusterBytes) := fun hm =>
      s1.dir_disjoint st1.fitted hc (mem_of_mem_drop hm)
    rw [writeBytes_data_of_not_mem hn, writeBytes_data_of_not_mem hn]
    exact hF.data (t.same.dirs st1.mem s1.dirChain.chain c hc)
  refine ⟨st1.wf t.left hs1 hk, st2.wf t.right hs2 hk, t.same.edit t.left E1 E2 ?_ ?_ ?_⟩
  · rw [storedVol_fat, storedVol_fat, hF.fat]
  · exact fun c hc => (setSlot_follows hfat hdir).data (hdir c hc)
  · intro as j s hj hl hd hfile has
    rw [storedVol_slots now st1.fitted s1, getElem?_set] at hj
    split_ifs at hj with hji
    · subst hji
      cases hj
      rw [st1.slotSize_eq now]
      cases eq_zero_or_pos (v.clustersFor (off + buf.length)) with
      | inl h0 =>
        have hz := hk.1
        have hend := le_clustersFor_mul (n := off + buf.length) s1.clusterBytes_pos
        rw [h0, zero_mul] at hz hend
        simp [show max e.size (off + buf.length) = 0 by omega]
      | inr hp =>
        have ⟨_, hc⟩ := st1.chain_eq now hp
        cases has.unique (st1.slotFirst_eq now hs1 ▸ hc)
        have hlen {V : Vol} (hv : ∀ {c}, v.Valid c → (V.data c).length = v.clusterBytes) :
            (V.bytes cs').length = v.clustersFor (off + buf.length) * v.clusterBytes := by
          rw [length_bytes fun c hc => hv (st1.fitted.valid c hc), st1.fitted.length]
        rw [storedVol_bytes st1.fitted s1, storedVol_bytes st2.fitted st2.storable]
        refine take_overwrite_congr ?_ ?_ hoff ?_
        · rw [hlen t.left.length_data, hlen t.right.length_data]
        · intro p hpe
          have := congrArg (·[p]?) (t.content st1.toFileAt)
          rw [st1.getElem?_bytes hpe hk.1, st2.getElem?_bytes hpe hk.1]
          simpa [getElem?_take, hpe] using this
        · rw [hlen t.left.length_data]
          exact le_clustersFor_mul s1.clusterBytes_pos
    · exact t.same.file_of_edit t.left E1 E2 st1.mem s1.dirChain.chain hj hl hd hfile
        (by simpa [eq_comm] using hji) has

theorem store (a : v.FileAt V1 L e dir slot cs) (hs1 : v.Shows d1 V1) (hs2 : v.Shows d2 V2) (now : ℤ)
    (hlt : off + buf.length < 2 ^ 32) (hk : v.Keeps e (off + buf.length)) (hgap : off ≤ e.size ∨ V1 = V2) :
    (v.storeVol now e dir slot cs off buf V1).1 = (v.storeVol now e dir slot cs off buf V2).1 ∧
      ∃ L', v.Twin L' (v.storeVol now e dir slot cs off buf V1).2 (v.storeVol now e dir slot cs off buf V2).2 := by
  have hl := hs1.geometry.links
  have ⟨hr, hF⟩ := fitVol_follows (v := v) t.same.fat cs (v.clustersFor (off + buf.length))
  unfold storeVol
  cases h1 : v.fitVol cs (v.clustersFor (off + buf.length)) V1 with | mk r1 V1'
  cases h2 : v.fitVol cs (v.clustersFor (off + buf.length)) V2 with | mk r2 V2'
  rw [h1, h2] at hr hF
  simp only at hr hF
  subst hr
  cases r1 with
  | error f =>
    have ⟨_, g1⟩ := fitVol_error hl h1
    have ⟨_, g2⟩ := fitVol_error hl h2
    exact ⟨rfl, _, t.grown a g1 (g1.congr t.same.fat hF.fat g2.data) hF.fat⟩
  | ok cs' =>
    have f1 := fitVol_fitted hl a.storable.valid (congrArg Prod.fst h1)
    have f2 := fitVol_fitted hl a.storable.valid (congrArg Prod.fst h2)
    rw [h1] at f1
    rw [h2] at f2
    have st1 : v.StoreStep V1 L e off buf dir slot cs cs' V1' := ⟨a, f1, hlt⟩
    refine ⟨rfl, L.claim cs' (.file e.dirCluster e.dirIndex), ?_⟩
    cases hgap with
    | inl hoff => exact t.stored st1 ⟨t.fileAt a, f2, hlt⟩ hs1 hs2 hF hk hoff
    | inr heq =>
      subst heq
      cases h1.symm.trans h2
      exact .refl (st1.wf t.left hs1 hk)

theorem unlink (a : v.FileAt V1 L e dir slot cs) : v.Twin L (v.unlinkVol e dir cs V1) (v.unlinkVol e dir cs V2) := by
  have st := a.storable
  have a2 := t.fileAt a
  have E1 := a.edit_unlinkVol t.left
  have E2 := a2.edit_unlinkVol t.right
  have hd := t.same.dirs a.mem st.dirChain.chain
  have hF := unlinkVol_follows (v := v) t.same.fat hd e cs
  refine ⟨a.wf_unlinkVol t.left, a2.wf_unlinkVol t.right, t.same.edit t.left E1 E2 hF.fat ?_ ?_⟩
  · exact fun c hc => hF.data (hd c hc)
  · intro as j s hj hl hd hfile has
    have ⟨hne, hj'⟩ := a.erased_unlinkVol.live_slot (st.dirChain.length_mem_slots st.spc_pos) hj hl
    exact t.same.file_of_edit t.left E1 E2 a.mem st.dirChain.chain hj' hl hd hfile (by simp [hne]) has

theorem move (hl : v.totalClusters + 2 ≤ 0x0FFFFFF8) (l : Located V1 L e dir slot)
    (hx : v.CleanRoom e.dirCluster (slotsFor name) V1 V2) (he : v.moveVol e dir name V1 = (.ok u, V1')) :
    ∃ V2', v.moveVol e dir name V2 = (.ok u, V2') ∧ ∃ L', v.Twin L' V1' V2' := by
  have ⟨r1, r2⟩ := t.dirChain l.dir l.chain
  have hp := t.left.spc_pos
  have hd := t.same.dirs l.dir l.chain
  have l2 : Located V2 L e dir slot :=
    ⟨l.dir, r2.chain, t.same.slots l.dir l.chain ▸ l.index, l.live, l.notDot, l.entry⟩
  have ⟨hr, hF⟩ := moveVol_follows (e := e) t.same.fat hd (hx.of_searchRun r1 hp (slotsFor_pos _))
  cases he2 : v.moveVol e dir name V2 with | mk res V2'
  rw [he, he2] at hr hF
  cases hr
  have ⟨short1, lfn1, new1, k1, W1, hd1, p1, h1⟩ := moveVol_ok r1 hp t.left.length_data hl he
  have ⟨short2, lfn2, new2, k2, W2, hd2, p2, h2⟩ := moveVol_ok r2 hp t.right.length_data hl he2
  have hd1 := deriveFrom_eq_ok hd1
  have hd2 := deriveFrom_eq_ok hd2
  have hlen : lfn1.length = lfn2.length := Nat.succ.inj (hd1.length_lfn.trans hd2.length_lfn.symm)
  have ⟨hnew, hk⟩ := p1.unique p2 t.same.fat (t.same.slots l.dir l.chain) (by simp [hlen])
  subst hnew hk h1 h2
  have ⟨hclean, hsame⟩ := hx.of_placed l.chain p1 (by simpa using hd1.length_lfn)
  rw [← hd1.length_lfn] at hclean
  have E1 := edit_moved t.left l p1
  have E2 := edit_moved t.right l2 p2
  rw [← hlen] at E2
  refine ⟨_, rfl, _, wf_moved t.left l hd1 p1 hclean,
    hlen ▸ wf_moved t.right l2 hd2 p2 (hlen ▸ hclean.congr hsame), t.same.edit t.left E1 E2 hF.fat ?_ ?_⟩
  · intro c hc
    exact hF.data ((mem_append.mp hc).elim (hd c) (hsame c))
  · intro as j s hj hlive hdot hfile has
    cases live_slot_moved t.left l hd1 p1 hclean hj hlive with
    | inr ho => exact t.same.file_of_edit t.left E1 E2 l.dir l.chain ho.2 hlive hdot hfile (by simp [ho.1]) has
    | inl hn =>
      -- The moved entry names the file it named before.
      rw [hn.2, slotIsDir_packSlot hd1.length_short] at hfile
      rw [hn.2, slotFirst_packSlot hd1.length_short (l.firstCluster ▸ slotFirst_lt slot)] at has
      rw [hn.2, slotSize_packSlot hd1.length_short (l.size ▸ slotSize_lt slot)]
      have ⟨cs, a⟩ := l.fileAt t.left hfile
      have hout (c : Nat) (hc : c ∈ cs) : c ∉ dir := fun hm => a.storable.disjoint c hm hc
      cases a.storable.names with
      | inl h0 =>
        have := a.size_le
        rw [h0.2, length_nil, zero_mul] at this
        simp [Nat.le_zero.mp this]
      | inr h0 =>
        have hc1 := fun c hc => frame_moved (e := e) p1 (h0.2.fat_ne_zero hc) (hout c hc)
        have hc2 := fun c hc => frame_moved (e := e) p2 ((t.same.chain h0.2).fat_ne_zero hc) (hout c hc)
        cases has.unique (h0.2.congr fun c hc => link_congr (hc1 c hc).1)
        rw [bytes_congr fun c hc => (hc1 c hc).2, bytes_congr fun c hc => (hc2 c hc).2, t.content a]

theorem addDir (hc : v.Valid c) (h0 : V1.fat c = 0) (up : Nat) (p : Nat × Nat) :
    v.Twin (L.addDir c p) (v.newDirVol c up V1) (v.newDirVol c up V2) := by
  have h02 : V2.fat c = 0 := t.same.fat ▸ h0
  refine ⟨t.left.addDir h0 hc up p, t.right.addDir h02 hc up p, ?_, ?_, ?_⟩
  · rw [newDirVol_fat, newDirVol_fat, (Follows.alloc t.same.fat).fat]
  · intro h as hh ha x hx
    by_cases he : h = c
    · subst he
      cases ha.unique newDirVol_chain_self
      rw [mem_singleton.mp hx, newDirVol_data_self, newDirVol_data_self]
    · have ⟨hh', ha', _⟩ := t.left.newDirVol_dir h0 hh he ha
      have hne := ne_of_mem_chain h0 ha' hx
      rw [newDirVol_data_of_ne hne, newDirVol_data_of_ne hne, t.same.dirs hh' ha' x hx]
  · intro h as bs j s hh ha hj hl hd hf hb
    by_cases he : h = c
    · subst he
      rw [newDirVol_slots ha] at hj
      simp [(slot_dirBytes hj hl).2] at hd
    have ⟨hh', ha', hs⟩ := t.left.newDirVol_dir h0 hh he ha
    rw [hs] at hj
    cases t.left.entries hh' ha' hj hl hd with
    | empty _ h2 => simp [h2 hf]
    | dir h1 _ _ => simp [hf] at h1
    | file bs' _ h2 _ _ =>
      have ⟨hb1, hd1⟩ := newDirVol_chain (v := v) h0 up h2
      have ⟨_, hd2⟩ := newDirVol_chain (v := v) h02 up (t.same.chain h2)
      cases hb.unique hb1
      rw [bytes_congr hd1, bytes_congr hd2]
      exact t.same.files hh' ha' hj hl hd hf h2

theorem mkdir (hl : v.totalClusters + 2 ≤ 0x0FFFFFF8) (hh : h ∈ L.dirs) (hc : V1.Chain h cs) (now : ℤ)
    (hx : ∀ c, v.firstFree V1 = some c → v.CleanRoom h (slotsFor name) (V1.alloc none c) (V2.alloc none c)) :
    (v.mkdirVol now h cs name V1).1 = (v.mkdirVol now h cs name V2).1 ∧ ((v.mkdirVol now h cs name V1).1 ≠ abort →
        ∃ L', v.Twin L' (v.mkdirVol now h cs name V1).2 (v.mkdirVol now h cs name V2).2) := by
  unfold mkdirVol
  rw [← t.same.firstFree v]
  cases hf : v.firstFree V1 with
  | none => exact ⟨rfl, fun _ => ⟨L, t⟩⟩
  | some c =>
    obtain ⟨hv, h0⟩ := firstFree_eq_some hf
    have hx' := (hx c hf).newDir h0 hc (if h = v.rootCluster then 0 else h)
    have hc' := (newDirVol_chain (v := v) h0 (if h = v.rootCluster then 0 else h) hc).1
    have t' (p) := t.addDir hv h0 (if h = v.rootCluster then 0 else h) p
    have hres := (t' (h, 0)).create_result (.inr hh) hc' hx' now c true
    simp only
    cases h1 : v.createVol now h cs name c true
        (v.newDirVol c (if h = v.rootCluster then 0 else h) V1) with
    | mk r1 W1 =>
      cases h2 : v.createVol now h cs name c true
          (v.newDirVol c (if h = v.rootCluster then 0 else h) V2) with
      | mk r2 W2 =>
        rw [h1, h2] at hres
        cases hres
        refine ⟨by cases r1 <;> rfl, fun hr => ?_⟩
        match r1 with
        | .error .panic => exact absurd rfl hr
        | .error (.err f) =>
          cases createVol_err h1
          cases createVol_err h2
          exact ⟨_, t' (h, 0)⟩
        | .ok e =>
          have hn : Nameable (L.addDir c (h, e.dirIndex)) h e.dirIndex c true :=
            .dir (.inl rfl) (by simp [Layout.addDir]) (by have := hv.2; omega)
          obtain ⟨_, he, _, _, _, _, _, _, _, ht⟩ := (t' (h, e.dirIndex)).create hl (.inr hh) hc' hx' h1 hn
          cases h2.symm.trans he
          exact ⟨_, ht⟩

end Twin
end Fat32
