import Onyx.Fat.Allocation
import Onyx.Fat.Ordered

-- The order of directories over whole runs of the driver.

open Lib Fat List

namespace Fat32

variable {v : Fat32} {V V' : Vol} {L L' : Layout} {d d' : AtaDrive} {h i k : Nat} {dir cs new : List Nat}
variable {e : RawEntry} {slot short : Bytes} {lfn : List Bytes} {name : Text} {now : ℤ}

structure Sorted (v : Fat32) (V : Vol) (L : Layout) : Prop where
  wf : v.Wf V L
  ordered : ∀ {h cs}, h ∈ L.dirs → V.Chain h cs → OrderedSlots (V.slots cs)

namespace Sorted

variable (s : v.Sorted V L)
include s

theorem of_edit (E : v.Edit V L h i cs V' L') (w' : v.Wf V' L') (ho : OrderedSlots (V'.slots cs)) : v.Sorted V' L' := by
  refine ⟨w', fun {h' as} hh hc => ?_⟩
  by_cases hne : h' = h
  · subst hne
    cases hc.unique E.chain
    exact ho
  rw [E.dirs] at hh
  have ⟨as', hc', _⟩ := s.wf.dirs hh
  have ⟨hc'', _, hsl⟩ := E.dir_of_ne s.wf hh hne hc'
  cases hc.unique hc''
  exact hsl ▸ s.ordered hh hc'

theorem enter (hspc : v.sectorsPerCluster ≤ 16) (hh : h ∈ L.dirs) (hc : V.Chain h cs) (hd : Derived name short lfn)
    (p : v.Placed V cs new k (lfn ++ [packSlot short (entryAttr isDir) first 0 t]) V')
    (hr : v.Roomy h (slotsFor name) V) (hn : Nameable L h (k + lfn.length) first isDir) :
    v.Sorted V' (L.claim new (.dir h)) := by
  have hclean := hr.cleanTail hc p (by simpa using hd.length_lfn)
  rw [← hd.length_lfn] at hclean hr
  have hlfn := p.lfn_slots hd s.wf hspc
  refine s.of_edit (p.edit s.wf hh hc (k + lfn.length)) ?_ ?_
  · exact p.wf s.wf hh hc (fun s hs => (hlfn s hs).1) hclean hd.isDot
      (hn.entryOk hd)
  · exact p.ordered hc (s.ordered hh hc) hr hlfn hd.isLive

theorem store (st : v.StoreStep V L e off buf dir slot cs cs' V1)
    (hs : v.Shows d V) (hk : v.Keeps e (off + buf.length)) :
    v.Sorted (v.storedVol now e dir slot cs cs' off buf V1) (L.claim cs' (.file e.dirCluster e.dirIndex)) := by
  have hl := st.storable.dirChain.length_slot st.storable.spc_pos st.storable.index
  refine s.of_edit (st.edit now s.wf) (st.wf s.wf hs hk) ?_
  rw [storedVol_slots now st.fitted st.storable]
  exact (s.ordered st.mem st.storable.dirChain.chain).set st.storable.index
    (slotMark_eq_of_slotHead (slotHead_direntSlot hl now _))

theorem unlink (a : v.FileAt V L e dir slot cs) : v.Sorted (v.unlinkVol e dir cs V) L :=
  s.of_edit (a.edit_unlinkVol s.wf) (a.wf_unlinkVol s.wf)
    (a.erased_unlinkVol.ordered (a.storable.dirChain.length_mem_slots a.storable.spc_pos)
      (s.ordered a.mem a.storable.dirChain.chain))

theorem move (hspc : v.sectorsPerCluster ≤ 16) (l : Located V L e dir slot) (hd : Derived name short lfn)
    (p : v.Placed V dir new k (lfn ++ [packSlot short (entryAttr e.isDir) e.firstCluster e.size (.ofEntry e)]) V')
    (hr : v.Roomy e.dirCluster (slotsFor name) V) : v.Sorted (v.removeVol (dir ++ new) e.dirIndex V')
      ((L.claim new (.dir e.dirCluster)).move e.dirCluster e.dirIndex (k + lfn.length)) := by
  have hclean := hr.cleanTail l.chain p (by simpa using hd.length_lfn)
  rw [← hd.length_lfn] at hclean hr
  have r := p.dirChain (s.wf.dirChain l.dir l.chain) s.wf.length_data
  have hidx := p.getElem?_of_used l.index (not_isFreeSlot_of_isLive l.live)
  refine s.of_edit (edit_moved s.wf l p) (wf_moved s.wf l hd p hclean) ?_
  refine (r.erased_removeVol s.wf.spc_pos (List.getElem?_eq_some_iff.mp hidx).1).ordered
    (r.length_mem_slots s.wf.spc_pos) ?_
  exact p.ordered l.chain (s.ordered l.dir l.chain) hr (p.lfn_slots hd s.wf hspc)
    hd.isLive

theorem newDir (hc : v.Valid c) (h0 : V.fat c = 0) (up : Nat) (q : Nat × Nat) :
    v.Sorted (v.newDirVol c up V) (L.addDir c q) := by
  refine ⟨s.wf.addDir h0 hc up q, fun {h as} hh ha => ?_⟩
  by_cases he : h = c
  · subst he
    rw [newDirVol_slots ha]
    intro i j s t hi hj hlt hm
    have hj2 : 2 ≤ i := by
      rcases slot_of_dirBytes hi with ⟨_, hs⟩ | ⟨_, hs⟩ | ⟨h2, _⟩
      · exact absurd (hs ▸ hm) (by rw [slotMark_dotSlot]; decide)
      · exact absurd (hs ▸ hm) (by rw [slotMark_dotSlot]; decide)
      · exact h2
    rcases slot_of_dirBytes hj with ⟨h0, _⟩ | ⟨h1, _⟩ | ⟨_, hm'⟩
    · omega
    · omega
    · exact isFreeSlot_iff.mpr (.inl hm')
  · have ⟨hh', ha', hsl⟩ := s.wf.newDirVol_dir h0 hh he ha
    exact hsl ▸ s.ordered hh' ha'

end Sorted

-- There is room for the entry that the call makes, and a write keeps enough clusters.
structure Orderly (v : Fat32) (d : AtaDrive) (c : Call) : Prop where
  keeps : ∀ {e off len}, v.Rewrites d e off len c → v.Keeps e (off + len)
  room : ∀ {h name V}, v.Enters d h name V c → v.Roomy h (slotsFor name) V

section calls

variable (s : v.Sorted (v.vol d) L) (hs : v.Shows d (v.vol d))
include s hs

theorem Sorted.createEntry (hh : h ∈ L.dirs) (hr : v.Roomy h (slotsFor name) (v.vol d))
    (he : (v.createEntry now h name 0 false).run d = (.ok e, d')) :
    ∃ V' L' dir slot, v.Shows d' V' ∧ v.Sorted V' L' ∧ v.FileAt V' L' e dir slot [] ∧
      e.size = 0 ∧ e.firstCluster = 0 := by
  have ⟨cs, hc, _⟩ := s.wf.dirs hh
  have r := s.wf.dirChain hh hc
  have ⟨hok, hs'⟩ := (does_createEntry r s.wf.length_data now name 0 false).run_eq hs he
  have ⟨short, lfn, new, k, hd, p, heq, _⟩ :=
    createVol_ok r s.wf.spc_pos s.wf.length_data hs.geometry.links (Prod.ext hok.symm rfl)
  have hd := deriveFrom_eq_ok hd
  have s' := s.enter hs.geometry.spc_le hh hc hd p hr (.file rfl)
  exact ⟨_, _, _, _, hs', s', heq ▸ p.fileAt hd r s.wf hh now, by rw [heq]; rfl, by rw [heq]; rfl⟩

theorem Sorted.writeAt (hO : v.Orderly d (.writeAt now path off buf))
    (h : (v.writeAt now path off buf).run d = (.ok n, d')) : ∃ V' L', v.Shows d' V' ∧ v.Sorted V' L' := by
  rcases writeAt_cases h with ⟨_, ⟨_, hf⟩, _⟩ | ⟨e, hr, hd, h⟩ | ⟨h', name, m, h⟩
  · cases hf
  · have ⟨dir, slot, l⟩ := s.wf.located_of_resolve hs hr
    have ⟨cs, a⟩ := l.fileAt s.wf hd
    have ⟨_, _, st, hs'⟩ := a.storeStep hs h
    exact ⟨_, _, hs', s.store st hs (hO.keeps ⟨hr, hd, rfl, rfl⟩)⟩
  · have ⟨e, d1, hcr, hst⟩ := bind_eq_ok.mp h
    have ⟨V1, L1, dir, slot, hs1, s1, a, h₁, h₂⟩ :=
      s.createEntry hs (s.wf.mem_of_resolveParent hs m.parent) (hO.room ⟨m.none, m.parent, rfl⟩) hcr
    have ⟨_, _, st, hs'⟩ := a.storeStep hs1 hst
    exact ⟨_, _, hs', s1.store st hs1 ⟨h₁ ▸ Nat.zero_le _, fun _ => h₂⟩⟩

theorem Sorted.mkdir (hO : v.Orderly d (.mkdir now path)) (h : (v.mkdir now path).run d = (.ok u, d')) :
    ∃ V' L', v.Shows d' V' ∧ v.Sorted V' L' := by
  obtain ⟨_, ⟨_, hf⟩, _⟩ | ⟨h, name, m, hm⟩ := mkdir_cases h
  · cases hf
  have hh := s.wf.mem_of_resolveParent hs m.parent
  obtain ⟨cs, hc, _⟩ := s.wf.dirs hh
  obtain ⟨hok, hs'⟩ := (does_makeDir s.wf hh hc).run_eq hs hm
  unfold mkdirVol at hok hs'
  cases hf : v.firstFree (v.vol d) with
  | none => simp [hf, fail] at hok
  | some c =>
    obtain ⟨hv, h0⟩ := firstFree_eq_some hf
    have hc' := (newDirVol_chain (v := v) h0 (if h = v.rootCluster then 0 else h) hc).1
    have s1 (q) := s.newDir hv h0 (if h = v.rootCluster then 0 else h) q
    rw [hf] at hok hs'
    simp only at hok hs'
    cases hcr : v.createVol now h cs name c true
        (v.newDirVol c (if h = v.rootCluster then 0 else h) (v.vol d)) with
    | mk r V' =>
      rw [hcr] at hok hs'
      cases r with
      | error f => simp at hok
      | ok e =>
        have w1 := (s1 (h, e.dirIndex)).wf
        obtain ⟨short, lfn, new, k, hd, p, heq, _⟩ :=
          createVol_ok (w1.dirChain (.inr hh) hc') w1.spc_pos w1.length_data hs.geometry.links hcr
        have hd := deriveFrom_eq_ok hd
        have hn : Nameable (L.addDir c (h, e.dirIndex)) h (k + lfn.length) c true := by
          refine .dir (.inl rfl) ?_ ?_
          · rw [heq]
            simp [Layout.addDir, newEntry]
          · have := hv.2
            have := hs.geometry.links
            omega
        exact ⟨_, _, hs', (s1 (h, e.dirIndex)).enter hs.geometry.spc_le (.inr hh) hc' hd p
          ((hO.room ⟨m.none, m.parent, c, hf, rfl⟩).newDir h0 hc _) hn⟩

theorem Sorted.unlinkCall (h : (v.unlink path).run d = (.ok u, d')) : ∃ V' L', v.Shows d' V' ∧ v.Sorted V' L' := by
  obtain ⟨_, _, hf⟩ | ⟨e, hr, hd, h⟩ := unlink_cases h
  · cases hf
  have ⟨dir, slot, l⟩ := s.wf.located_of_resolve hs hr
  have ⟨cs, a⟩ := l.fileAt s.wf hd
  exact ⟨_, _, (a.does_deleteEntry.run_eq hs h).2, s.unlink a⟩

theorem Sorted.rename (hO : v.Orderly d (.rename src dst)) (h : (v.rename src dst).run d = (.ok u, d')) :
    ∃ V' L', v.Shows d' V' ∧ v.Sorted V' L' := by
  rcases rename_cases h with ⟨_, _, hf⟩ | ⟨_, _, heq, _⟩ | ⟨e, name, hr, m, hm⟩
  · cases hf
  · exact ⟨_, _, heq ▸ hs, s⟩
  have ⟨dir, slot, l⟩ := s.wf.located_of_resolve hs hr
  have r := s.wf.dirChain l.dir l.chain
  have ⟨hok, hs'⟩ := (does_moveEntry s.wf l).run_eq hs hm
  have ⟨short, lfn, new, k, V2, hd, p, heq⟩ :=
    moveVol_ok r s.wf.spc_pos s.wf.length_data hs.geometry.links (Prod.ext hok.symm rfl)
  exact ⟨_, _, heq ▸ hs', s.move hs.geometry.spc_le l (deriveFrom_eq_ok hd) p (hO.room ⟨m.none, m.parent, rfl⟩)⟩

end calls

-- No slot in use lies behind an end marker in a directory.
def Ordered (v : Fat32) (V : Vol) : Prop :=
  ∀ h cs, v.IsDirectory V h → V.Chain h cs → OrderedSlots (V.slots cs)

-- Only the directories that can be reached from the root matter for a layout.
theorem Wf.restrict (w : v.Wf V L) : v.Wf V { L with dirs := { h | v.IsDirectory V h } } where
  length_data := w.length_data
  spc_pos := w.spc_pos
  valid := w.valid
  root := .root
  root_parent := w.root_parent
  dirs hh := w.dirs (w.mem_of_isDirectory hh)
  entries hh hc hi hl hd := by
    have hh' := w.mem_of_isDirectory hh
    cases w.entries hh' hc hi hl hd with
    | empty h₁ h₂ => exact .empty h₁ h₂
    | file as h₁ h₂ h3 h4 => exact .file as h₁ h₂ h3 h4
    | dir h₁ h₂ h3 =>
      have ⟨_, hc', ho⟩ := w.dirs h₂
      have := (w.valid (ho _ hc'.mem_head)).1
      exact .dir h₁ (.entry hh ⟨⟨_, hc, hi⟩, hl, hd⟩ h₁ (by omega)) h3
  dots hh := w.dots (w.mem_of_isDirectory hh)

def InOrder (v : Fat32) (d : AtaDrive) : Prop :=
  v.Shows d (v.vol d) ∧ ∃ L, v.Sorted (v.vol d) L

theorem InOrder.of_shows (hs : v.Shows d V) (s : v.Sorted V L) : v.InOrder d := by
  cases hs.vol
  exact ⟨hs, L, s⟩

theorem InOrder.step (o : v.InOrder d) (hO : v.Orderly d c) (hs : v.Step d c d') : v.InOrder d' := by
  have ⟨hv, L, s⟩ := o
  have ⟨r, h⟩ := hs
  have hof (h : ∃ V' L', v.Shows d' V' ∧ v.Sorted V' L') : v.InOrder d' :=
    have ⟨_, _, hs', s'⟩ := h
    .of_shows hs' s'
  cases c with
  | writeAt now path off buf =>
    have ⟨_, _, h, he⟩ := bind_eq_ok.mp h
    cases he
    exact hof (s.writeAt hv hO h)
  | mkdir now path =>
    have ⟨_, _, h, he⟩ := bind_eq_ok.mp h
    cases he
    exact hof (s.mkdir hv hO h)
  | unlink path =>
    have ⟨_, _, h, he⟩ := bind_eq_ok.mp h
    cases he
    exact hof (s.unlinkCall hv h)
  | rename src dst =>
    have ⟨_, _, h, he⟩ := bind_eq_ok.mp h
    cases he
    exact hof (s.rename hv hO h)
  | _ =>
    have ⟨_, _, he⟩ := read_bind_eq_ok.mp h
    cases he
    exact o

theorem Sorted.scanDir_createEntry (s : v.Sorted (v.vol d') L)
    (hs : v.Shows d' (v.vol d')) (hh : h ∈ L.dirs) (hr : v.Roomy h (slotsFor name) (v.vol d'))
    (he : (v.createEntry now h name first isDir).run d' = (.ok e, d'')) (hscan : v.scanDir d' h = .ok es) :
    ∃ pre post e', es = pre ++ post ∧ v.scanDir d'' h = .ok (pre ++ e' :: post) ∧ e'.dirIndex = e.dirIndex := by
  have ⟨cs, hc, _⟩ := s.wf.dirs hh
  have r := s.wf.dirChain hh hc
  have ⟨hok, hs'⟩ := (does_createEntry r s.wf.length_data now name first isDir).run_eq hs he
  have ⟨short, lfn, new, k, hd, p, heq, hlt⟩ :=
    createVol_ok r s.wf.spc_pos s.wf.length_data hs.geometry.links (Prod.ext hok.symm rfl)
  have hd := deriveFrom_eq_ok hd
  have ⟨pre, post, run, h₁, h₂⟩ := p.entriesOf_eq hc (s.ordered hh hc) (hd.length_lfn ▸ hr)
    (p.lfn_slots hd s.wf hs.geometry.spc_le) hd.isLive
  rw [hs.scanDir hc r.valid, h₁, checkIndices_eq_ok] at hscan
  have r' := p.dirChain r s.wf.length_data
  refine ⟨pre, post, entryOf h run (packSlot short (entryAttr isDir) first 0 (.ofNow now)) (k + lfn.length),
    hscan.1, ?_, ?_⟩
  · rw [hs'.scanDir r'.chain r'.valid, h₂, checkIndices_eq_ok]
    refine ⟨rfl, fun e' he' => ?_⟩
    simp only [mem_append, mem_cons] at he'
    rcases he' with he' | he' | he'
    · exact hscan.2 e' (mem_append.mpr (.inl he'))
    · exact he' ▸ hlt
    · exact hscan.2 e' (mem_append.mpr (.inr he'))
  · rw [heq]
    rfl

theorem Placed.store_nil
    (p : v.Placed V cs new k (lfn ++ [packSlot short (entryAttr false) 0 0 t]) V1)
    (r : v.DirChain V h cs) (w : v.Wf V L) (hs : v.Shows d1 V1) (now : ℤ) (name : Text) :
    ∃ d' V' s, (v.storeAt now (newEntry now h name 0 false short (k + lfn.length)) 0 []).run d1 = (.ok 0, d') ∧
      v.Shows d' V' ∧ V'.Chain h (cs ++ new) ∧ V'.slots (cs ++ new) = (V1.slots (cs ++ new)).set (k + lfn.length) s ∧
      slotMark s = slotMark (packSlot short (entryAttr false) 0 0 t) := by
  have st := p.storable r w now name
  have hzero : v.clustersFor (0 + ([] : Bytes).length) = 0 := by
    rw [length_nil, clustersFor, Nat.zero_add]
    exact Nat.div_eq_of_lt (Nat.sub_lt st.clusterBytes_pos Nat.one_pos)
  have hfit : v.fitVol [] (v.clustersFor (0 + ([] : Bytes).length)) V1 = (.ok [], V1) := by
    rw [hzero]
    rfl
  have f := fitVol_fitted hs.geometry.links (by simp) (congrArg Prod.fst hfit)
  rw [hfit] at f
  obtain ⟨d', hrun, hs'⟩ := does_storeAt st (show 0 + ([] : Bytes).length < 2 ^ 32 by decide) now d1 hs
  simp only [storeVol, hfit] at hrun hs'
  refine ⟨d', _, _, hrun, hs', ?_, storedVol_slots now f st, ?_⟩
  · refine (p.chain_eq r.chain).congr fun c _ => Vol.link_congr ?_
    rw [storedVol_fat]
  · exact slotMark_eq_of_slotHead (slotHead_direntSlot (st.dirChain.length_slot st.spc_pos st.index) now _)

theorem Wf.writeAt_created
    (w : v.Wf V L) (hs : v.Shows d V) (hh : h ∈ L.dirs) (hc : V.Chain h cs)
    (hcr : v.createVol now h cs name 0 false V = (.ok e, V1))
    (hr : v.resolve d path = .ok none) (hp : v.resolveParent d path = .ok (h, name)) :
    ∃ short lfn new k d' V' s, Derived name short lfn ∧
      v.Placed V cs new k (lfn ++ [packSlot short (entryAttr false) 0 0 (.ofNow now)]) V1 ∧
      (v.writeAt now path 0 []).run d = (.ok 0, d') ∧ v.Shows d' V' ∧ V'.Chain h (cs ++ new) ∧
      V'.slots (cs ++ new) = (V1.slots (cs ++ new)).set (k + lfn.length) s ∧
      slotMark s = slotMark (packSlot short (entryAttr false) 0 0 (.ofNow now)) := by
  have r := w.dirChain hh hc
  have hdoes := does_createEntry r w.length_data now name 0 false
  rw [hcr] at hdoes
  have ⟨d1, h₁, hs1⟩ := hdoes d hs
  have ⟨short, lfn, new, k, hd, p, heq, _⟩ := createVol_ok r w.spc_pos w.length_data hs.geometry.links hcr
  have hd := deriveFrom_eq_ok hd
  have ⟨d', V', s, h₂, hs', hc', hslots, hmark⟩ := p.store_nil r w hs1 now name
  refine ⟨short, lfn, new, k, d', V', s, hd, p, ?_, hs', hc', hslots, hmark⟩
  rw [writeAt_run_of_none hr hp, bind_run_ok h₁, heq, h₂]

theorem Wf.not_ordered_created
    (w : v.Wf V L) (hs : v.Shows d V) (hh : h ∈ L.dirs) (hc : V.Chain h cs)
    (hcr : v.createVol now h cs name 0 false V = (.ok e, V1))
    (hr : v.resolve d path = .ok none) (hp : v.resolveParent d path = .ok (h, name))
    (hno : ∀ k, ¬ v.IsPlace (V.slots cs) (slotsFor name) k)
    (hi : (V.slots cs)[i]? = some s) (hm : slotMark s = slotEnd) :
    ∃ d' V' dir, (v.writeAt now path 0 []).run d = (.ok 0, d') ∧ v.Shows d' V' ∧ V'.Chain h dir ∧
      ¬ OrderedSlots (V'.slots dir) := by
  have ⟨short, lfn, new, k, d', V', t, hd, p, hrun, hs', hc', hslots, hmark⟩ := w.writeAt_created hs hh hc hcr hr hp
  have hk : k = (V.slots cs).length := by
    have hlen : (lfn ++ [packSlot short (entryAttr false) 0 0 (.ofNow now)]).length = slotsFor name := by
      simpa using hd.length_lfn
    cases p.place with
    | inl hp => exact absurd hp.2.1 (hlen ▸ hno k)
    | inr hp =>
      have ⟨_, _, _, hk, _⟩ := hp
      exact hk
  refine ⟨d', V', cs ++ new, hrun, hs', hc', fun ho => ?_⟩
  refine p.not_ordered hd.isLive hi hm (hk ▸ (List.getElem?_eq_some_iff.mp hi).1) ?_
  have hget : (V1.slots (cs ++ new))[k + lfn.length]? = _ := (p.storable (w.dirChain hh hc) w now name).index
  have ⟨hlt, heq⟩ := List.getElem?_eq_some_iff.mp hget
  have hslot : (V'.slots (cs ++ new))[k + lfn.length]? = some t := by
    rw [hslots, getElem?_set_self hlt]
  have hback := ho.set hslot hmark.symm
  rwa [hslots, set_set, ← heq, set_getElem_self] at hback

-- A root directory with one free slot, the last one, which is an end marker.
def fullSlots : List Bytes :=
  (range 15).map fun i => packSlot (.ofNat (65 + i) :: replicate 10 32) attrArchive 0 0 .zero

def fullVol : Vol := smallVol [0, 0, eoc] fullSlots fun _ => replicate 512 0

theorem length_fullSlots : ∀ s ∈ fullSlots, s.length = 32 := by decide

theorem fits_full : small.Fits fullVol :=
  fits_small (by decide) (by decide) length_fullSlots (by decide) fun _ => length_replicate

theorem wf_full : small.Wf fullVol rootLayout :=
  wf_root fits_full length_fullSlots rfl (by decide) (by decide)

theorem slots_full : fullVol.slots [2] = fullSlots ++ [replicate 32 0] :=
  slots_smallVol length_fullSlots

def fullEntries : List RawEntry := (range 15).map fun i => entryOf 2 .empty (fullSlots.getD i []) i

theorem entriesOf_full : entriesOf 2 (fullVol.slots [2]) = fullEntries := by
  rw [slots_full]
  rfl

theorem scanDir_full : small.scanDir (small.image fullVol) 2 = .ok fullEntries := by
  rw [(shows_image fits_full).scanDir (chain_small rfl) (by simp; decide), entriesOf_full]
  rfl

theorem resolve_full (path name : Text) (hpath : Vfs.splitPath path = some [name])
    (hfind : fullEntries.find? (matchesName name) = none) : small.resolve (small.image fullVol) path = .ok none ∧
      small.resolveParent (small.image fullVol) path = .ok (2, name) := by
  have hroot : small.rootCluster = 2 := rfl
  simp only [Fat32.resolve, resolveParent, hpath, getLast?_singleton, dropLast_singleton, descend,
    ok_bind, findIn, hroot, scanDir_full]
  refine ⟨?_, rfl⟩
  change Except.ok ((fullEntries.find? (matchesName name)).map Resolution.entry) = _
  rw [hfind]
  rfl

theorem ordered_full : small.Ordered fullVol := by
  intro h cs hd hc
  cases wf_full.mem_of_isDirectory hd
  cases hc.unique (chain_small rfl)
  rw [slots_full]
  intro i j s t hi hj hlt hm
  have hlen : fullSlots.length = 15 := rfl
  have hjlt := (List.getElem?_eq_some_iff.mp hj).1
  rw [length_append, hlen] at hjlt
  have hi' : i < fullSlots.length := by
    rw [hlen]
    simp at hjlt
    omega
  rw [getElem?_append_left hi'] at hi
  have hall : ∀ s ∈ fullSlots, slotMark s ≠ slotEnd := by decide
  exact absurd hm (hall s (mem_of_getElem? hi))

theorem ordered_image_full : small.Ordered (small.vol (small.image fullVol)) := by
  rw [(shows_image fits_full).vol]
  exact ordered_full

theorem no_place_full (k : Nat) : ¬ small.IsPlace (fullVol.slots [2]) 2 k := by
  intro ⟨_, hk, hfree⟩
  rw [slots_full] at hk hfree
  have hlt : k < fullSlots.length := by
    simp at hk
    omega
  have hall : ∀ s ∈ fullSlots, isFreeSlot s = false := by decide
  have hget := getElem?_eq_getElem hlt
  have := hfree 0 (by decide) _ (by rw [Nat.add_zero, getElem?_append_left hlt, hget])
  simp [hall _ (getElem_mem hlt)] at this

theorem createVol_full (hslash : ¬ (name.contains '/' ∨ name.contains '\\'))
    (hd : ∃ short lfn, deriveFrom (checkIndices fullEntries) name none = .ok (short, lfn) ∧ lfn.length + 1 = n)
    (hn : n ≤ 16) : ∃ e V', small.createVol 0 2 [2] name 0 false fullVol = (.ok e, V') := by
  obtain ⟨short, lfn, hderive, hl⟩ := hd
  subst hl
  have hscan : deriveFrom (scanVol fullVol 2 [2]) name none = .ok (short, lfn) := by
    rw [scanVol, entriesOf_full, hderive]
  obtain ⟨_, _, _, _, hr⟩ : ∃ cs ci si V1, small.runVol [2] (lfn.length + 1) fullVol = some ((cs, ci, si), V1) := by
    have hf : small.firstFree fullVol = some 3 := rfl
    unfold runVol
    split
    · exact ⟨_, _, _, _, rfl⟩
    · exact ⟨_, _, _, _, by rw [hf]; rfl⟩
  exact createVol_of_room (wf_full.dirChain rfl (chain_small rfl)) wf_full.spc_pos wf_full.length_data hslash hscan
    hn (by decide) hr 0 0 false

theorem roomy_full : small.Roomy 2 1 fullVol := by
  intro cs hc
  cases hc.unique (chain_small rfl)
  rw [slots_full]
  refine .inl ⟨15, ⟨by decide, by simp; decide, fun j hj s hs => ?_⟩, ?_⟩
  · cases Nat.lt_one_iff.mp hj
    cases hs
    decide
  · exact (show Endless fullSlots from by unfold Endless; decide)

end Fat32
