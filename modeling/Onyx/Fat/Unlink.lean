import Onyx.Fat.Call
import Onyx.Fat.Interop
import Onyx.Fat.Listing

-- `unlink`: what it changes in the directory, in the copies of the FAT, and for other entries.

open Lib Fat List Prog Bytes

namespace Fat32

variable {v : Fat32} {V : Vol} {L : Layout} {d d' : AtaDrive} {e : RawEntry} {slot b : Bytes} {f c x : Nat}
variable {dir cs fs : List Nat} {F : Nat → Nat → Nat}

section mirror

-- The entry of a cluster in a copy of the FAT.
def fatCopy (v : Fat32) (d : AtaDrive) (f c : Nat) : Nat := ofLe (d.content (v.fatAddr f c) 4)

structure Mirrored (v : Fat32) (d : AtaDrive) (F : Nat → Nat → Nat) : Prop where
  geometry : v.Geometry d
  copy : ∀ {f c}, f < v.numFats → c < v.totalClusters + 2 → v.fatCopy d f c = F f c

theorem fatCopy_store_of_disjoint (h : v.fatAddr f c + 4 ≤ a ∨ a + b.length ≤ v.fatAddr f c) :
    v.fatCopy (d.store a b) f c = v.fatCopy d f c := by
  rw [fatCopy, AtaDrive.content_store_of_disjoint h, fatCopy]

theorem mirrored_writeCluster (hc : v.Valid c) (hb : b.length = v.clusterBytes) :
    Simulates v.Mirrored (v.writeCluster c b) F (.ok ()) F := by
  intro d m
  refine ⟨_, writeCluster_run m.geometry hc hb, m.geometry.store, fun hf hc' => ?_⟩
  rw [fatCopy_store_of_disjoint (.inl (fatAddr_add_le_clusterAddr m.geometry hc' hf c)), m.copy hf hc']

theorem fatAddr_disjoint (g : v.Geometry d) (hc : c < v.totalClusters + 2) (hc' : c' < v.totalClusters + 2)
    (hne : ¬(f' = f ∧ c' = c)) : v.fatAddr f' c' + 4 ≤ v.fatAddr f c ∨ v.fatAddr f c + 4 ≤ v.fatAddr f' c' := by
  rcases Nat.lt_trichotomy f' f with h | rfl | h
  · exact .inl (fatAddr_succ_le g hc' h)
  · have : c' ≠ c := fun h => hne ⟨rfl, h⟩
    simp only [fatAddr]
    omega
  · exact .inr (fatAddr_succ_le g hc h)

theorem mirrored_setFatCopy (hc : c < v.totalClusters + 2) (hx : x < 2 ^ 32) (hf : f < v.numFats) :
    Simulates v.Mirrored (v.setFatCopy c x f) F (.ok ()) fun f' c' => if f' = f ∧ c' = c then x else F f' c' := by
  intro d m
  refine ⟨_, setFatCopy_run m.geometry hc hf, m.geometry.store, fun {f' c'} hf' hc' => ?_⟩
  split_ifs with heq
  · obtain ⟨rfl, rfl⟩ := heq
    have hself := AtaDrive.content_store_self (d := d) (a := v.fatAddr f' c') (b := toLe 4 x)
    rw [length_toLe] at hself
    rw [fatCopy, hself, ofLe_toLe _ _ (by simpa using hx)]
  · have hdis := fatAddr_disjoint m.geometry hc hc' heq
    rw [fatCopy_store_of_disjoint (by rwa [length_toLe]), m.copy hf' hc']

theorem mirrored_setFatCopies (hc : c < v.totalClusters + 2) (hx : x < 2 ^ 32) (hf : ∀ f ∈ fs, f < v.numFats) :
    Simulates v.Mirrored (v.setFatCopies c x fs) F (.ok ()) fun f' c' => if f' ∈ fs ∧ c' = c then x else F f' c' := by
  induction fs generalizing F with
  | nil =>
    simp only [not_mem_nil, false_and, if_false]
    exact .pure
  | cons f fs hi =>
    have hfirst := mirrored_setFatCopy (F := F) hc hx (hf f (.head _))
    have hrest := hi (F := fun f' c' => if f' = f ∧ c' = c then x else F f' c') fun f' hf' => hf f' (.tail _ hf')
    have heq : (fun f' c' => if f' ∈ f :: fs ∧ c' = c then x else F f' c') =
        fun f' c' => if f' ∈ fs ∧ c' = c then x else if f' = f ∧ c' = c then x else F f' c' := by
      funext f' c'
      grind
    rw [heq]
    exact .bind hfirst hrest

theorem mirrored_setFatEntry (hc : c < v.totalClusters + 2) (hx : x < 2 ^ 32) :
    Simulates v.Mirrored (v.setFatEntry c x) F (.ok ()) fun f' c' => if c' = c then x else F f' c' := by
  intro d m
  have hall := mirrored_setFatCopies (F := F) hc hx fun f (hf : f ∈ range v.numFats) => mem_range.mp hf
  obtain ⟨d', hrun, m'⟩ := hall d m
  refine ⟨d', hrun, m'.geometry, fun hf hc' => ?_⟩
  rw [m'.copy hf hc']
  simp [mem_range.mpr hf]

theorem mirrored_freeAll (hv : ∀ c ∈ cs, v.Valid c) :
    Simulates v.Mirrored (v.freeAll cs) F (.ok ()) fun f c => if c ∈ cs then 0 else F f c := by
  induction cs generalizing F with
  | nil =>
    simp only [not_mem_nil, if_false]
    exact .pure
  | cons c cs hi =>
    have hfirst := mirrored_setFatEntry (F := F) (hv c (.head _)).lt (Nat.two_pow_pos 32)
    have hrest := hi (F := fun f' c' => if c' = c then 0 else F f' c') fun c' hc' => hv c' (.tail _ hc')
    have heq : (fun f c' => if c' ∈ c :: cs then 0 else F f c') =
        fun f c' => if c' ∈ cs then 0 else if c' = c then 0 else F f c' := by
      funext f' c'
      by_cases h1 : c' = c <;> by_cases h2 : c' ∈ cs <;> simp [h1, h2]
    rw [heq]
    exact .bind hfirst hrest

def ShowsAll (v : Fat32) (d : AtaDrive) (W : Vol × (Nat → Nat → Nat)) : Prop := v.Shows d W.1 ∧ v.Mirrored d W.2

theorem all_removeDirSlots (r : v.DirChain V e.dirCluster dir) (hp : 0 < v.sectorsPerCluster)
    (hk : e.dirIndex < (V.slots dir).length) :
    Simulates v.ShowsAll (v.removeDirSlots e) (V, F) (.ok ()) (v.removeVol dir e.dirIndex V, F) := by
  have ⟨c, hc, hlt, he⟩ := r.removeVol_eq hp hk
  have hvc := r.valid c (mem_of_getElem? hc)
  have hlen := (length_cleared hlt).trans (r.length c (mem_of_getElem? hc))
  rw [he]
  refine .read_bind (fun _ hs => hs.1.walkChain r.chain r.valid) ?_
  simp only [hc]
  refine .read_bind (fun _ hs => hs.1.readCluster hvc) ?_
  exact .prod (does_writeCluster hvc hlen) (mirrored_writeCluster hvc hlen)

theorem all_freeFrom (hl : V.Chain c cs) (hv : ∀ c ∈ cs, v.Valid c) :
    Simulates v.ShowsAll (v.freeFrom c 0) (V, F) (.ok ()) (V.cut cs 0, fun f c => if c ∈ cs then 0 else F f c) := by
  have hcut : V.cut cs 0 = V.clear cs := by
    unfold Vol.cut
    split <;> rfl
  rw [hcut]
  refine .read_bind (fun _ hs => hs.1.walkChain hl hv) ?_
  rw [drop_zero]
  exact .bind (.prod (does_freeAll hv) (mirrored_freeAll hv)) .pure

theorem FileAt.all_deleteEntry (a : v.FileAt V L e dir slot cs) :
    Simulates v.ShowsAll (v.deleteEntry e) (V, F) (.ok ())
      (v.unlinkVol e dir cs V, fun f c => if c ∈ cs then 0 else F f c) := by
  have st := a.storable
  have hk := (List.getElem?_eq_some_iff.mp st.index).1
  refine .bind (all_removeDirSlots st.dirChain st.spc_pos hk) ?_
  unfold unlinkVol
  cases st.names with
  | inl hn =>
    rw [if_neg (not_not_intro hn.1), if_neg (not_not_intro hn.1), hn.2]
    simp only [not_mem_nil, if_false]
    exact .pure
  | inr hn =>
    rw [if_pos hn.1, if_pos hn.1]
    refine all_freeFrom (hn.2.congr fun c _ => Vol.link_congr ?_) st.valid
    rw [removeVol_fat]

end mirror

structure UnlinkFrame (v : Fat32) (L : Layout) (d d' : AtaDrive) (e : RawEntry) (dir cs : List Nat) : Prop where
  -- Exactly the short slot and the long-name slots of the entry are marked.
  slots : (v.vol d').slots dir =
    delSlots (e.dirIndex - ownCount ((v.vol d).slots dir) e.dirIndex) (e.dirIndex + 1) ((v.vol d).slots dir)
  data : ∀ c ∉ dir, (v.vol d').data c = (v.vol d).data c
  -- Exactly its clusters become free, in every copy of the FAT.
  fats : ∀ f < v.numFats, ∀ c < v.totalClusters + 2, v.fatCopy d' f c = if c ∈ cs then 0 else v.fatCopy d f c
  listing : ∀ h ∈ L.dirs, ∀ es, v.scanDir d h = .ok es →
    v.scanDir d' h = .ok (es.filter fun e' => ¬(e'.dirCluster = e.dirCluster ∧ e'.dirIndex = e.dirIndex))
  -- The directories keep their chains, and the other files their chains and contents.
  dirs : ∀ h ∈ L.dirs, ∀ as, (v.vol d).Chain h as → (v.vol d').Chain h as
  files : v.KeepsFiles L d d' fun e' => ¬(e'.dirCluster = e.dirCluster ∧ e'.dirIndex = e.dirIndex)

section unlink

variable (hs : v.Shows d V) (w : v.Wf V L) (a : v.FileAt V L e dir slot cs) (hs' : v.Shows d' (v.unlinkVol e dir cs V))
include hs w a hs'

theorem listing_unlinkVol (he : e ∈ entriesOf e.dirCluster (V.slots dir)) (hh : h ∈ L.dirs) (hscan : v.scanDir d h = .ok es) :
    v.scanDir d' h = .ok (es.filter fun e' => ¬(e'.dirCluster = e.dirCluster ∧ e'.dirIndex = e.dirIndex)) := by
  have E := a.edit_unlinkVol w
  have w' := a.wf_unlinkVol w
  have ⟨as, hc, hv⟩ := w.scanDir hs hh
  rw [hscan] at hv
  have ⟨hes, hlt⟩ := checkIndices_eq_ok.mp hv.symm
  have hkey : entriesOf h ((v.unlinkVol e dir cs V).slots as) =
      es.filter fun e' => ¬(e'.dirCluster = e.dirCluster ∧ e'.dirIndex = e.dirIndex) := by
    by_cases hsame : h = e.dirCluster
    · subst hsame
      have st := a.storable
      cases hc.unique st.dirChain.chain
      have hk := (List.getElem?_eq_some_iff.mp st.index).1
      have ⟨k, _, _, _, hend, heq⟩ := mem_scanSlots.mp he
      have hidx : e.dirIndex = k := by
        rw [heq]
        exact Nat.zero_add k
      have hslots : (v.unlinkVol e dir cs V).slots dir = (v.removeVol dir e.dirIndex V).slots dir :=
        Vol.slots_congr fun c _ => by rw [unlinkVol_data]
      rw [hslots, st.dirChain.slots_removeVol st.spc_pos hk, entriesOf_delSlots st.index a.live (hidx ▸ hend)
        (st.dirChain.length_mem_slots st.spc_pos) (n := v.clearedCount (V.slots dir) e.dirIndex) (Nat.min_le_right ..), hes]
      refine filter_congr fun e' he' => ?_
      simp [dirCluster_of_mem_entriesOf he']
    · have ⟨_, _, hslots⟩ := E.dir_of_ne w hh hsame hc
      rw [hslots, ← hes]
      refine (filter_eq_self.mpr fun e' he' => ?_).symm
      have := dirCluster_of_mem_entriesOf (hes ▸ he')
      simp [this, hsame]
  have hc' : (v.unlinkVol e dir cs V).Chain h as := by
    by_cases hsame : h = e.dirCluster
    · subst hsame
      cases hc.unique a.storable.dirChain.chain
      exact E.chain
    · exact (E.dir_of_ne w hh hsame hc).1
  rw [hs'.scanDir hc' (w'.chain_valid hh hc'), hkey]
  exact checkIndices_eq_ok.mpr ⟨rfl, fun e' he' => hlt e' (hes ▸ mem_of_mem_filter he')⟩

theorem unlinkFrame_iff (he : e ∈ entriesOf e.dirCluster (V.slots dir))
    (hm : v.Mirrored d' fun f c => if c ∈ cs then 0 else v.fatCopy d f c) :
    v.UnlinkFrame L d d' e dir cs ↔ Clean v.slotsPerCluster (V.slots dir) e.dirIndex := by
  have st := a.storable
  have E := a.edit_unlinkVol w
  have hk := (List.getElem?_eq_some_iff.mp st.index).1
  have hslots : (v.unlinkVol e dir cs V).slots dir =
      delSlots (e.dirIndex - v.clearedCount (V.slots dir) e.dirIndex) (e.dirIndex + 1) (V.slots dir) := by
    rw [← st.dirChain.slots_removeVol st.spc_pos hk]
    exact Vol.slots_congr fun c _ => by rw [unlinkVol_data]
  rw [← delSlots_eq_iff hk (st.dirChain.length_mem_slots st.spc_pos), ← clearedCount, ← hslots]
  constructor
  · intro u
    have := u.slots
    rwa [hs.vol, hs'.vol] at this
  · intro heq
    refine ⟨?_, ?_, fun f hf c hc => hm.copy hf hc, fun h hh es => listing_unlinkVol hs w a hs' he hh, ?_,
      E.keepsFiles w hs hs'⟩
    all_goals rw [hs.vol, hs'.vol]
    · exact heq
    · intro c hc
      rw [unlinkVol_data, removeVol_data_of_not_mem hc]
    · intro h hh as hc
      by_cases hsame : h = e.dirCluster
      · subst hsame
        cases hc.unique st.dirChain.chain
        exact E.chain
      · exact (E.dir_of_ne w hh hsame hc).1

end unlink

theorem unlink_run (hr : v.resolve d path = .ok (some (.entry e))) (hd : e.isDir = false) :
    (v.unlink path).run d = (v.deleteEntry e).run d := by
  rw [unlink, read_bind_run, hr, lift_ok_bind_run]
  simp [hd]

theorem wf_twelveChars : small.Wf (foreignVol twelveChars) rootLayout := by
  refine wf_small (fits_foreign (by decide)) (fun _ => length_foreignSlots) rfl rfl rfl rfl ?_ (by decide) ?_
  · intro c o h
    simp only [rootLayout] at h
    split_ifs at h with h1
    exact h1 ▸ by decide
  · intro i slot hi hl
    have hempty : ∀ s ∈ foreignSlots twelveChars, isLive s = true → slotFirst s = 0 ∧ slotSize s = 0 := by decide
    obtain ⟨hf, hz⟩ := hempty slot (mem_of_getElem? hi) hl
    exact .empty hf fun _ => hz

def twelvePath : Text := '/' :: twelveChars

theorem resolve_twelveChars : small.resolve (small.image (foreignVol twelveChars)) twelvePath =
    .ok (some (.entry (foreignEntry twelveChars))) := by
  have hscan : small.scanDir (small.image (foreignVol twelveChars)) 2 = .ok [foreignEntry twelveChars] :=
    scanDir_foreign (by decide) (by rw [slots_foreign]; decide +kernel)
  have hfind : [foreignEntry twelveChars].find? (matchesName twelveChars) = some (foreignEntry twelveChars) := by decide +kernel
  rw [resolve_in_root (by decide : Vfs.splitPath twelvePath = some [twelveChars]) hscan, hfind]
  rfl

def straddleSlots : List Bytes :=
  replicate 15 (delSlot (replicate 32 0)) ++ vfatRun (encodeUtf16 twelveChars) (lfnChecksum (foreignSlot.slice 0 11))

def straddleVol : Vol := smallVol [0, 0, 3, eoc] straddleSlots fun _ => foreignSlot ++ replicate 480 0

def straddleLayout : Layout where
  dirs := {2}
  owner c := if c = 2 ∨ c = 3 then some (.dir 2) else none
  parent _ := none

theorem fits_straddle : small.Fits straddleVol :=
  fits_small (by decide) (by decide) (by decide) (by decide) fun _ => by
    rw [length_append, length_replicate]
    rfl

theorem chain_straddle : straddleVol.Chain 2 [2, 3] := .cons (b := 3) rfl (.last rfl)

theorem slots_straddle : straddleVol.slots [2, 3] = straddleSlots ++ foreignSlot :: replicate 15 (replicate 32 0) := by
  decide +kernel

theorem wf_straddle : small.Wf straddleVol straddleLayout := by
  have hempty : ∀ s ∈ straddleVol.slots [2, 3], isLive s = true → isDot s = false ∧ slotFirst s = 0 ∧ slotSize s = 0 := by
    rw [slots_straddle]
    decide
  have hmem {h cs} {i : Nat} {slot : Bytes} (hh : h ∈ straddleLayout.dirs) (hc : straddleVol.Chain h cs)
      (hi : (straddleVol.slots cs)[i]? = some slot) : slot ∈ straddleVol.slots [2, 3] := by
    cases hh
    cases hc.unique chain_straddle
    exact mem_of_getElem? hi
  refine ⟨fits_straddle.data_len, by decide, ?_, rfl, rfl, ?_, ?_, ?_⟩
  · intro c o h
    simp only [straddleLayout] at h
    split_ifs at h with h1
    exact h1.elim (· ▸ by decide) (· ▸ by decide)
  · intro h hh
    cases hh
    exact ⟨[2, 3], chain_straddle, by decide⟩
  · intro h cs i slot hh hc hi hl _
    have ⟨_, hf, hz⟩ := hempty slot (hmem hh hc hi) hl
    exact .empty hf fun _ => hz
  · intro h cs i slot hh hc hi hl hdot
    rw [(hempty slot (hmem hh hc hi) hl).1] at hdot
    cases hdot

def straddleEntry : RawEntry := entryOf 2 (pendingRun .empty straddleSlots) foreignSlot 16

theorem resolve_straddle : small.resolve (small.image straddleVol) twelvePath = .ok (some (.entry straddleEntry)) := by
  have hentries : entriesOf 2 (straddleVol.slots [2, 3]) = [straddleEntry] := by
    rw [slots_straddle]
    decide +kernel
  have hscan : small.scanDir (small.image straddleVol) 2 = .ok [straddleEntry] := by
    rw [(shows_image fits_straddle).scanDir chain_straddle (by decide), hentries]
    rfl
  have hfind : [straddleEntry].find? (matchesName twelveChars) = some straddleEntry := by decide +kernel
  rw [resolve_in_root (by decide : Vfs.splitPath twelvePath = some [twelveChars]) hscan, hfind]
  rfl

end Fat32
