import Onyx.Fat.Create
import Onyx.Fat.NewName
import Onyx.Lib.Panic

-- Runs of slots against the capacity of a cluster: where `alloc_run` puts them.

open Lib Fat List

namespace Fat32

variable {v : Fat32} {V V' : Vol} {L : Layout} {d d' : AtaDrive} {h ci si need : Nat} {cs cs' : List Nat}
variable {name : Text} {short slot : Bytes} {lfn : List Bytes}

-- The slots of `alloc_run` are in one cluster, and `write_run` stays in its buffer.
structure RunPlaced (v : Fat32) (d : AtaDrive) (h : Nat) (lfn : List Bytes) (slot : Bytes) : Prop where
  searched : ¬(v.allocRun h (lfn.length + 1)).Panics d
  placed : ∀ chain ci si d', (v.allocRun h (lfn.length + 1)).run d = (.ok (chain, ci, si), d') →
    v.walkChain d' h v.totalClusters = .ok chain ∧ ci < chain.length ∧ si + (lfn.length + 1) ≤ v.slotsPerCluster ∧
      ¬(v.writeRun chain ci si lfn slot).Panics d'

theorem chain_of_runVol (r : v.DirChain V h cs) (hl : v.totalClusters + 2 ≤ 0x0FFFFFF8)
    (hr : v.runVol cs need V = some ((cs', ci, si), V')) : V'.Chain h cs' := by
  unfold runVol at hr
  split at hr
  · cases hr
    exact r.chain
  have ⟨c, hfree, he⟩ := Option.map_eq_some_iff.mp hr
  cases he
  have ⟨hc, h0⟩ := firstFree_eq_some hfree
  have g : v.Grown V cs [c] (V.alloc cs.getLast? c) := Grown.refl.cons hl hc h0
  exact g.chain h (.inl r.chain)

theorem runVol_of_long (r : v.DirChain V h cs) (hp : 0 < v.sectorsPerCluster) (hn : 0 < need) (hlong : v.slotsPerCluster < need) :
    v.runVol cs need V = (v.firstFree V).map fun c => ((cs ++ [c], cs.length, 0), V.alloc cs.getLast? c) := by
  unfold runVol
  cases hs : V.searchRun need 0 cs with
  | none => rfl
  | some p =>
    have ⟨_, _, hfits, _⟩ := r.searchRun_place hp hn hs
    omega

theorem runPlaced_of_noSpace (r : v.DirChain V h cs) (hs : v.Shows d V) (hr : v.runVol cs (lfn.length + 1) V = none) :
    v.RunPlaced d h lfn slot := by
  have ⟨d', hrun, _⟩ := does_allocRun_none r.chain r.valid hr d hs
  constructor
  · rw [Prog.Panics, hrun]
    exact not_panics_fail
  · intro chain ci si d1 h1
    cases hrun.symm.trans h1

theorem runPlaced_of_fits (r : v.DirChain V h cs) (w : v.Wf V L) (hs : v.Shows d V) (hlen : ∀ s ∈ lfn ++ [slot], s.length = 32)
    (hfit : lfn.length + 1 ≤ v.slotsPerCluster) (hr : v.runVol cs (lfn.length + 1) V = some ((cs', ci, si), V')) :
    v.RunPlaced d h lfn slot := by
  obtain ⟨d', hrun, hs'⟩ := does_allocRun r.chain r.valid hr d hs
  obtain ⟨hv, hl⟩ := runVol_chain r w.length_data hr
  obtain ⟨_, hsi, c, hc, hlc⟩ := runVol_fits r w.spc_pos w.length_data (Nat.succ_pos _) hfit hr
  constructor
  · rw [Prog.Panics, hrun]
    exact not_panics_ok
  · intro chain cj sj d1 h1
    cases hrun.symm.trans h1
    refine ⟨hs'.walkChain (chain_of_runVol r hs.geometry.links hr) hv, (List.getElem?_eq_some_iff.mp hc).1, hsi, ?_⟩
    obtain ⟨d2, hwrite, _⟩ := does_writeRun hv hl hlen ci si d' hs'
    have hroom : si + (lfn ++ [slot]).length ≤ (V'.data c).length / 32 := by
      rw [hlc, length_append, length_singleton]
      exact hsi
    obtain ⟨b, hb, _⟩ := putSlots_eq hlen hroom
    rw [Prog.Panics, hwrite]
    simp only [writeRunVol, hc, hb]
    exact not_panics_ok

theorem not_runPlaced_of_long (r : v.DirChain V h cs) (w : v.Wf V L) (hs : v.Shows d V) (hlong : v.slotsPerCluster < lfn.length + 1)
    (hfree : v.firstFree V = some c) : ¬v.RunPlaced d h lfn slot := by
  have hr := runVol_of_long r w.spc_pos (Nat.succ_pos lfn.length) hlong
  rw [hfree] at hr
  have ⟨d', hrun, _⟩ := does_allocRun r.chain r.valid hr d hs
  intro hp
  have ⟨_, _, hfits, _⟩ := hp.placed _ _ _ _ hrun
  omega

theorem firstFree_eq_none : v.firstFree V = none ↔ ∀ c, v.Valid c → V.fat c ≠ 0 := by
  simp only [firstFree, find?_eq_none, mem_range'_1, decide_eq_true_eq]
  constructor
  · exact fun h c hc => h c ⟨hc.1, by have := hc.2; omega⟩
  · exact fun h c hc => h c ⟨hc.1, by omega⟩

theorem runPlaced_iff (v : Fat32) (d : AtaDrive) (V : Vol) (L : Layout) (h : Nat) (name : Text) (except : Option Text)
    (short slot : Bytes) (lfn : List Bytes) (hs : v.Shows d V) (w : v.Wf V L) (hh : h ∈ L.dirs)
    (hd : v.deriveName d h name except = .ok (short, lfn)) (hslot : slot.length = 32) :
    v.RunPlaced d h lfn slot ↔ slotsFor name ≤ v.slotsPerCluster ∨ ∀ c, v.Valid c → V.fat c ≠ 0 := by
  have ⟨cs, hc, _⟩ := w.dirs hh
  have r := w.dirChain hh hc
  have hder : Derived name short lfn := deriveFrom_eq_ok hd
  have hlen : ∀ s ∈ lfn ++ [slot], s.length = 32 := by
    intro s hs
    cases mem_append.mp hs with
    | inl hs => exact (hder.lfn s hs).1
    | inr hs => exact mem_singleton.mp hs ▸ hslot
  rw [← hder.length_lfn, ← firstFree_eq_none]
  by_cases hfit : lfn.length + 1 ≤ v.slotsPerCluster
  · refine iff_of_true ?_ (.inl hfit)
    cases hr : v.runVol cs (lfn.length + 1) V with
    | none => exact runPlaced_of_noSpace r hs hr
    | some p => exact runPlaced_of_fits r w hs hlen hfit hr
  · rw [or_iff_right hfit]
    cases hfree : v.firstFree V with
    | none =>
      refine iff_of_true (runPlaced_of_noSpace r hs ?_) rfl
      rw [runVol_of_long r w.spc_pos (Nat.succ_pos _) (Nat.lt_of_not_le hfit), hfree]
      rfl
    | some c => exact iff_of_false (not_runPlaced_of_long r w hs (Nat.lt_of_not_le hfit) hfree) nofun

section small

def bareVol : Vol := smallVol [0, 0, eoc] [] fun _ => replicate 512 0

theorem fits_bare : small.Fits bareVol := fits_small (by decide) (by decide) (by decide) (by decide) fun _ => length_replicate

theorem wf_bare : small.Wf bareVol rootLayout := wf_root fits_bare (by decide) rfl (by decide) (by decide)

theorem deriveName_bare (name : Text) : small.deriveName (small.image bareVol) 2 name none = deriveFrom (.ok []) name none := by
  have hscan : small.scanDir (small.image bareVol) 2 = .ok [] := by decide +kernel
  rw [deriveName_eq, hscan]

-- The alias of a name of many a's.
def aliasA : Bytes := [65, 65, 65, 65, 65, 65, 126, 49, 32, 32, 32]

-- Forty letters take four slots besides the short one.
theorem runPlaced_forty : ∃ lfn, small.deriveName (small.image bareVol) 2 (replicate 40 'a') none = .ok (aliasA, lfn) ∧
    lfn.length = 4 ∧ small.RunPlaced (small.image bareVol) 2 lfn (packSlot aliasA attrArchive 0 0 .zero) := by
  have hd : small.deriveName (small.image bareVol) 2 (replicate 40 'a') none =
      .ok (aliasA, lfnSlots (replicate 40 'a') aliasA) := by
    rw [deriveName_bare]
    decide +kernel
  refine ⟨_, hd, by decide +kernel, ?_⟩
  exact (runPlaced_iff small _ bareVol rootLayout 2 _ none aliasA _ _ (shows_image fits_bare) wf_bare rfl hd
    (by decide)).mpr (.inl (by decide +kernel))

-- A name of 200 letters takes 17 slots, and the sector has 16.
def twoHundred : Text := replicate 200 'a'

theorem twoHundred_not_placed : Vfs.splitPath ('/' :: twoHundred) = some [twoHundred] ∧ ∃ short lfn,
    small.deriveName (small.image bareVol) 2 twoHundred none = .ok (short, lfn) ∧
      ∀ slot, ¬small.RunPlaced (small.image bareVol) 2 lfn slot := by
  refine ⟨by decide +kernel, ?_⟩
  have hd : deriveFrom (.ok []) twoHundred none = .ok (aliasA, lfnSlots twoHundred aliasA) := by decide +kernel
  refine ⟨_, _, (deriveName_bare _).trans hd, fun slot => ?_⟩
  have hlen : (lfnSlots twoHundred aliasA).length = 16 := by decide +kernel
  have r := wf_bare.dirChain (h := 2) rfl (chain_small rfl)
  exact not_runPlaced_of_long r wf_bare (shows_image fits_bare) (by rw [hlen]; decide) (c := 3) (by decide)

end small

end Fat32
