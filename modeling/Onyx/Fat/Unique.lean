import Onyx.Fat.Atomic
import Onyx.Fat.Rename

-- When a new entry is found under the name it was asked for, and names stay distinct.

open Lib Fat List

namespace Fat

variable {s t u name : Text} {short : Bytes}

theorem eqIgnoreAsciiCase_symm (h : eqIgnoreAsciiCase s t = true) : eqIgnoreAsciiCase t s = true :=
  eqIgnoreAsciiCase_iff.mpr (eqIgnoreAsciiCase_iff.mp h).symm

theorem eqIgnoreAsciiCase_trans (h1 : eqIgnoreAsciiCase s t = true) (h2 : eqIgnoreAsciiCase t u = true) :
    eqIgnoreAsciiCase s u = true :=
  eqIgnoreAsciiCase_iff.mpr ((eqIgnoreAsciiCase_iff.mp h1).trans (eqIgnoreAsciiCase_iff.mp h2))

theorem matchesName_iff : matchesName name e = true ↔
    eqIgnoreAsciiCase e.name name = true ∨ eqIgnoreAsciiCase e.short name = true := by
  rw [matchesName, Bool.or_eq_true]

theorem makeUniqueShort_fresh (h : makeUniqueShort name taken = .ok short) :
    ∃ c, taken c = false ∧ eqIgnoreAsciiCase (shortName short) c = true := by
  unfold makeUniqueShort at h
  simp only at h
  split at h
  case h_2 => cases h
  case h_1 c hc =>
    have htaken := find?_some hc
    obtain ⟨n, hn, rfl⟩ := mem_map.mp (mem_of_find?_eq_some hc)
    have ⟨h1, h2⟩ := mem_range'_1.mp hn
    refine ⟨_, by simpa using htaken, (shortName_new_iff h).mpr (getLast?_candidate (by omega) fun hmem => ?_)⟩
    have halnum := (mem_filter.mp (mem_of_mem_take hmem)).2
    exact absurd halnum (by decide)

end Fat

namespace Fat32

variable {v : Fat32} {V V' U U' : Vol} {L : Layout} {d d' : AtaDrive} {h k : Nat} {cs new : List Nat}
variable {name path : Text} {short slot : Bytes} {lfn : List Bytes} {es P R : List RawEntry} {e e' : RawEntry}

theorem alias_fresh (hder : deriveFrom (.ok es) name none = .ok (short, lfn)) (hno : ∀ e ∈ es, matchesName name e = false)
    (hdot : needsLfn name = true ∨ name.getLast? ≠ some '.') (he : e ∈ es) :
    eqIgnoreAsciiCase (shortName short) e.short = false := by
  refine Bool.eq_false_iff.mpr fun heq => ?_
  rcases deriveFrom_cases hder with ⟨_, _, es', hes, huniq⟩ | ⟨hl, _, hmake⟩
  · cases hes
    have ⟨c, htaken, hc⟩ := makeUniqueShort_fresh huniq
    have hsame := eqIgnoreAsciiCase_trans (eqIgnoreAsciiCase_symm heq) hc
    refine Bool.eq_false_iff.mp htaken (any_eq_true.mpr ⟨e.short, ?_, hsame⟩)
    exact mem_filter.mpr ⟨mem_map_of_mem he, rfl⟩
  · have hname := (shortName_new_iff hmake).mpr (hdot.resolve_left (by simp [hl]))
    have hsame := eqIgnoreAsciiCase_trans (eqIgnoreAsciiCase_symm heq) hname
    have := hno e he
    rw [matchesName, hsame, Bool.or_true] at this
    cases this

-- Entries that differ in their names and in their aliases, up to case.
structure Differ (e e' : RawEntry) : Prop where
  name : eqIgnoreAsciiCase e.name e'.name = false
  short : eqIgnoreAsciiCase e.short e'.short = false

theorem Differ.symm (h : Differ e e') : Differ e' e := by
  have hcomm (s t : Text) (h : eqIgnoreAsciiCase s t = false) : eqIgnoreAsciiCase t s = false :=
    Bool.eq_false_iff.mpr fun heq => Bool.eq_false_iff.mp h (eqIgnoreAsciiCase_symm heq)
  exact ⟨hcomm _ _ h.name, hcomm _ _ h.short⟩

instance : Std.Symm Differ := ⟨fun _ _ => Differ.symm⟩

def Distinct (es : List RawEntry) : Prop := es.Pairwise Differ

theorem Distinct.perm (h : es.Perm P) : Distinct es ↔ Distinct P := h.pairwise_iff Differ.symm

theorem Distinct.carries_unique (h : Distinct es) (he : e ∈ es) (he' : e' ∈ es) (hc : Carries name e) (hc' : Carries name e') :
    e = e' := by
  by_contra hne
  have hdiff := Pairwise.forall h he he' hne
  have hsame := eqIgnoreAsciiCase_trans hc.eqIgnoreAsciiCase (eqIgnoreAsciiCase_symm hc'.eqIgnoreAsciiCase)
  rw [hdiff.name] at hsame
  cases hsame

theorem Carries.matchesName (h : Carries name e) : Fat.matchesName name e = true :=
  matchesName_iff.mpr (.inl h.eqIgnoreAsciiCase)

-- What making an entry `name` in the directory that starts at `h` is to lead to.
structure Found (v : Fat32) (d : AtaDrive) (h : Nat) (name path : Text) (es : List RawEntry) (e : RawEntry) : Prop where
  listing : v.scanDir d h = .ok es
  distinct : Distinct es
  listed : e ∈ es
  carries : Carries name e
  only : ∀ e' ∈ es, Carries name e' → e' = e
  resolved : v.resolve d path = .ok (some (.entry e))

-- The first entry that answers to a name has it.
def Finds (name : Text) (es : List RawEntry) : Prop := ∃ e, es.find? (matchesName name) = some e ∧ Carries name e

theorem finds_cons : Finds name (e :: es) ↔ Carries name e ∨ matchesName name e = false ∧ Finds name es := by
  unfold Finds
  rw [find?_cons]
  cases hm : matchesName name e with
  | true => simp
  | false =>
    have hno : ¬Carries name e := fun hc => by
      rw [hc.matchesName] at hm
      cases hm
    simp [hno]

theorem found_iff (hscan : v.scanDir d' h = checkIndices es)
    (hres : v.resolve d' path = (v.scanDir d' h).map fun es => (es.find? (matchesName name)).map .entry) :
    (∃ es e, v.Found d' h name path es e) ↔ (∀ e ∈ es, e.dirIndex < 2 ^ 32) ∧ Distinct es ∧ Finds name es := by
  rw [hscan] at hres
  constructor
  · intro ⟨es', e, f⟩
    have ⟨heq, hidx⟩ := checkIndices_eq_ok.mp (hscan.symm.trans f.listing)
    subst heq
    rw [checkIndices_eq_ok.mpr ⟨rfl, hidx⟩, f.resolved] at hres
    have ⟨r, hfind, hr⟩ := Option.map_eq_some_iff.mp (Except.ok.inj hres).symm
    cases hr
    exact ⟨hidx, f.distinct, e, hfind, f.carries⟩
  · intro ⟨hidx, hd, e, hfind, hc⟩
    have hok := checkIndices_eq_ok.mpr ⟨rfl, hidx⟩
    have he := mem_of_find?_eq_some hfind
    refine ⟨es, e, hscan.trans hok, hd, he, hc, fun e' he' hc' => hd.carries_unique he' he hc' hc, ?_⟩
    rw [hres, hok]
    simp [Except.map, hfind]

-- An edit of the entries that leaves them their names and places.
structure Relabels (f : RawEntry → RawEntry) : Prop where
  name : ∀ e, (f e).name = e.name
  short : ∀ e, (f e).short = e.short
  dirIndex : ∀ e, (f e).dirIndex = e.dirIndex

theorem differ_congr (h1 : e1.name = e2.name) (h2 : e1.short = e2.short) : Differ e1 e ↔ Differ e2 e := by
  constructor <;> exact fun h => ⟨by simpa [h1] using h.name, by simpa [h2] using h.short⟩

theorem carries_congr (h : e1.name = e2.name) : Carries name e1 ↔ Carries name e2 := by rw [Carries, Carries, h]

namespace Relabels

variable {f : RawEntry → RawEntry} (hf : Relabels f)
include hf

theorem distinct_iff : Distinct (es.map f) ↔ Distinct es := by
  rw [Distinct, pairwise_map, Distinct]
  constructor <;> exact Pairwise.imp fun h => ⟨by simpa [hf.name] using h.name, by simpa [hf.short] using h.short⟩

theorem finds_iff : Finds name (es.map f) ↔ Finds name es := by
  induction es with
  | nil => rfl
  | cons e es hi =>
    have hm : matchesName name (f e) = matchesName name e := by rw [matchesName, matchesName, hf.name, hf.short]
    rw [map_cons, finds_cons, finds_cons, hi, carries_congr (hf.name e), hm]

end Relabels

-- The new entry as a scan shows it. Only its names and its index count here.
def shownEntry (V : Vol) (h : Nat) (cs : List Nat) (short : Bytes) (lfn : List Bytes) (k : Nat) : RawEntry :=
  entryOf h (pendingRun .empty ((V.slots cs).take k ++ lfn)) short (k + lfn.length)

-- When it does lead to that. The slots of the new entry go to index `k` of its directory.
inductive Findable (V : Vol) (h : Nat) (cs : List Nat) (es : List RawEntry) (name : Text) (short : Bytes) (lfn : List Bytes)
    (new : List Nat) (k : Nat) : Prop
  -- A scan comes to the new slots, shows nothing new behind them, and reads the name back.
  | plain (seen : Endless ((V.slots cs).take k))
      (covers : Placed.Within V cs new k (lfn.length + 1) ∨ Placed.Bare (Placed.behind V cs new (k + (lfn.length + 1))))
      (kept : Kept ((V.slots cs).take k) name short)
      (free : needsLfn name = false → name.getLast? = some '.' → ∀ e ∈ es, eqIgnoreAsciiCase (shortName short) e.short = false)
  -- It comes to old slots behind them, and what it finds there does not get in the way.
  | stale (seen : Endless ((V.slots cs).take k))
      (covers : ¬(Placed.Within V cs new k (lfn.length + 1) ∨ Placed.Bare (Placed.behind V cs new (k + (lfn.length + 1)))))
      (index : ∀ e ∈ Placed.revealed V h cs new k (lfn.length + 1), e.dirIndex < 2 ^ 32)
      (distinct : Distinct (shownEntry V h cs short lfn k :: (es ++ Placed.revealed V h cs new k (lfn.length + 1))))
      (finds : Finds name (shownEntry V h cs short lfn k :: Placed.revealed V h cs new k (lfn.length + 1)))

theorem not_findable (hkept : ¬Kept ((V.slots cs).take k) name short)
    (hcovers : Placed.Within V cs new k (lfn.length + 1) ∨ Placed.Bare (Placed.behind V cs new (k + (lfn.length + 1)))) :
    ¬Findable V h cs es name short lfn new k := by
  intro hf
  cases hf with
  | plain _ _ kept _ => exact hkept kept
  | stale _ hno _ _ _ => exact hno hcovers

section placed

variable {attr : UInt8} {first size : Nat} {t : Stamp}
variable (p : v.Placed V cs new k (lfn ++ [packSlot short attr first size t]) V')
variable (hlfn : ∀ s ∈ lfn, slotAttr s = attrLfn ∧ slotMark s ≠ slotEnd) (hl : isLive (packSlot short attr first size t) = true)
variable (hder : deriveFrom (.ok (entriesOf h (V.slots cs))) name none = .ok (short, lfn)) (hlen : name.len ≤ 255)
variable (hno : ∀ e ∈ entriesOf h (V.slots cs), matchesName name e = false)
include hder

omit hder in
theorem finds_nil : ¬Finds name [] := fun ⟨_, h, _⟩ => nomatch h

theorem shownEntry_names (k : Nat) (attr : UInt8) (first size : Nat) (t : Stamp) :
    (entryOf h (pendingRun .empty ((V.slots cs).take k ++ lfn)) (packSlot short attr first size t) (k + lfn.length)).name =
        (shownEntry V h cs short lfn k).name ∧
      (entryOf h (pendingRun .empty ((V.slots cs).take k ++ lfn)) (packSlot short attr first size t) (k + lfn.length)).short =
        (shownEntry V h cs short lfn k).short := by
  have hshort := (deriveFrom_eq_ok hder).length_short
  have hslice : short.slice 0 11 = short := by
    rw [Bytes.slice, drop_zero, take_of_length_le (Nat.le_of_eq hshort)]
  simp [shownEntry, entryOf, slice_packSlot hshort, shortName_packSlot hshort, hslice]

include p hlfn hl hno in
theorem listing_iff_of_endless (hend : Endless ((V.slots cs).take k)) (hk : k + lfn.length < 2 ^ 32)
    (hidx : ∀ e ∈ entriesOf h (V.slots cs), e.dirIndex < 2 ^ 32) :
    ((∀ e ∈ entriesOf h (V'.slots (cs ++ new)), e.dirIndex < 2 ^ 32) ∧ Distinct (entriesOf h (V'.slots (cs ++ new))) ∧
        Finds name (entriesOf h (V'.slots (cs ++ new)))) ↔
      (∀ e ∈ Placed.revealed V h cs new k (lfn.length + 1), e.dirIndex < 2 ^ 32) ∧
        Distinct (shownEntry V h cs short lfn k ::
          (entriesOf h (V.slots cs) ++ Placed.revealed V h cs new k (lfn.length + 1))) ∧
        Finds name (shownEntry V h cs short lfn k :: Placed.revealed V h cs new k (lfn.length + 1)) := by
  have hperm := p.perm_shown (h := h) hend hlfn hl
  have hfind := p.find?_shown (h := h) hend hlfn hl hno
  have ⟨hname, hshort⟩ := shownEntry_names hder k attr first size t
  refine and_congr ?_ (and_congr ?_ ?_)
  · constructor
    · exact fun hall e he => hall e (hperm.mem_iff.mpr (mem_cons_of_mem _ (mem_append_right _ he)))
    · intro hall e he
      rcases mem_cons.mp (hperm.mem_iff.mp he) with rfl | he
      · exact hk
      · exact (mem_append.mp he).elim (hidx e) (hall e)
  · rw [Distinct.perm hperm, Distinct, Distinct, pairwise_cons, pairwise_cons]
    exact and_congr_left fun _ => forall₂_congr fun e _ => differ_congr hname hshort
  · rw [Finds, hfind, ← Finds, finds_cons, finds_cons, carries_congr hname, matchesName, matchesName, hname, hshort]

include hlen hno in
theorem beside_iff (hdist : Distinct (entriesOf h (V.slots cs))) :
    (Distinct (shownEntry V h cs short lfn k :: entriesOf h (V.slots cs)) ∧ Finds name [shownEntry V h cs short lfn k]) ↔
      Kept ((V.slots cs).take k) name short ∧ (needsLfn name = false → name.getLast? = some '.' →
        ∀ e ∈ entriesOf h (V.slots cs), eqIgnoreAsciiCase (shortName short) e.short = false) := by
  have hkept : Carries name (shownEntry V h cs short lfn k) ↔ Kept ((V.slots cs).take k) name short := by
    rw [← carries_congr (shownEntry_names hder k 0 0 0 .zero).1]
    exact carries_new_iff hder hlen
  rw [finds_cons, or_iff_left fun h => finds_nil h.2, hkept, Distinct, pairwise_cons, ← Distinct, and_iff_left hdist, and_comm]
  refine and_congr_right fun hk => ⟨fun hall _ _ e he => (hall e he).short, fun hfree e he => ⟨?_, ?_⟩⟩
  · -- An entry with the same name would have been found.
    refine Bool.eq_false_iff.mpr fun heq => ?_
    have hsame := eqIgnoreAsciiCase_trans (eqIgnoreAsciiCase_symm heq) (hkept.mpr hk).eqIgnoreAsciiCase
    have hm := hno e he
    rw [matchesName_iff.mpr (.inl hsame)] at hm
    cases hm
  · by_cases hdot : needsLfn name = false ∧ name.getLast? = some '.'
    · exact hfree hdot.1 hdot.2 e he
    refine alias_fresh hder hno ?_ he
    rw [not_and_or, Bool.not_eq_false] at hdot
    exact hdot

include p hlfn hl hlen hno in
theorem listing_iff (hk : k + lfn.length < 2 ^ 32) (hidx : ∀ e ∈ entriesOf h (V.slots cs), e.dirIndex < 2 ^ 32)
    (hdist : Distinct (entriesOf h (V.slots cs))) :
    ((∀ e ∈ entriesOf h (V'.slots (cs ++ new)), e.dirIndex < 2 ^ 32) ∧ Distinct (entriesOf h (V'.slots (cs ++ new))) ∧
        Finds name (entriesOf h (V'.slots (cs ++ new)))) ↔
      Findable V h cs (entriesOf h (V.slots cs)) name short lfn new k := by
  by_cases hend : Endless ((V.slots cs).take k)
  · rw [listing_iff_of_endless p hlfn hl hder hno hend hk hidx]
    by_cases hR : Placed.revealed V h cs new k (lfn.length + 1) = []
    · have hcovers := Placed.revealed_eq_nil_iff.mp hR
      rw [hR, append_nil, beside_iff hder hlen hno hdist]
      constructor
      · exact fun ⟨_, hkept, hfree⟩ => .plain hend hcovers hkept hfree
      · rintro (⟨_, _, hkept, hfree⟩ | ⟨_, hno, _⟩)
        · exact ⟨nofun, hkept, hfree⟩
        · exact absurd hcovers hno
    · have hcovers := mt Placed.revealed_eq_nil_iff.mpr hR
      constructor
      · exact fun ⟨hi, hd, hf⟩ => .stale hend hcovers hi hd hf
      · rintro (⟨_, hyes, _⟩ | ⟨_, _, hi, hd, hf⟩)
        · exact absurd hyes hcovers
        · exact ⟨hi, hd, hf⟩
  · -- Nothing new is listed, and nothing old answers to the name.
    rw [p.entriesOf_hidden hend]
    constructor
    · intro ⟨_, _, e, hfind, hc⟩
      have hm := hno e (mem_of_find?_eq_some hfind)
      rw [hc.matchesName] at hm
      cases hm
    · rintro (⟨hseen, _⟩ | ⟨hseen, _⟩) <;> exact absurd hseen hend

end placed

structure Making (v : Fat32) (L : Layout) (d d' : AtaDrive) (h : Nat) (name : Text) (cs : List Nat) (short slot : Bytes)
    (lfn : List Bytes) (new : List Nat) (k : Nat) (U W : Vol) (f : RawEntry → RawEntry) : Prop where
  derived : deriveFrom (scanVol U h cs) name none = .ok (short, lfn)
  placed : v.Placed U cs new k (lfn ++ [slot]) W
  index : k + lfn.length < 2 ^ 32
  relabels : Relabels f
  listing : v.scanDir d' h = checkIndices ((entriesOf h (W.slots (cs ++ new))).map f)
  others : ∀ h' ∈ L.dirs, h' ≠ h → v.scanDir d' h' = v.scanDir d h'

theorem relabels_reslot (i : Nat) (s : Bytes) : Relabels fun e => if e.dirIndex = i then reslot s e else e := by
  refine ⟨fun e => ?_, fun e => ?_, fun e => ?_⟩
  all_goals split_ifs <;> rfl

section calls

variable {now : ℤ} (hs : v.Shows d V) (w : v.Wf V L) (hh : h ∈ L.dirs) (hc : V.Chain h cs)
include hs w hh hc

theorem making_of_store (hcr : (v.createEntry now h name 0 false).run d = (.ok e, d1))
    (hst : (v.storeAt now e off buf).run d1 = (.ok n, d')) :
    ∃ short lfn new k W f, v.Making L d d' h name cs short (packSlot short (entryAttr false) 0 0 (.ofNow now)) lfn new k V W f := by
  have r := w.dirChain hh hc
  obtain ⟨hok, hs1⟩ := (does_createEntry r w.length_data now name 0 false).run_eq hs hcr
  obtain ⟨short, lfn, new, k, hder, p, heq, hk⟩ := createVol_ok r w.spc_pos w.length_data hs.geometry.links (Prod.ext hok.symm rfl)
  have hd := deriveFrom_eq_ok hder
  have a := p.fileAt hd r w hh now
  rw [← heq] at a
  obtain ⟨as, V2, st, hs'⟩ := a.storeStep hs1 hst
  have hhead := slotHead_direntSlot (a.storable.dirChain.length_slot w.spc_pos a.storable.index) now
    (storedEntry e [] as (off + buf.length))
  refine ⟨short, lfn, new, k, _, _, hder, p, hk, relabels_reslot (0 + e.dirIndex) (direntSlot now
    (storedEntry e [] as (off + buf.length)) (packSlot short (entryAttr false) 0 0 (.ofNow now))), ?_, fun h' hh' hne => ?_⟩
  · have hchain : (v.storedVol now e (cs ++ new) (packSlot short (entryAttr false) 0 0 (.ofNow now)) [] as off buf V2).Chain h
        (cs ++ new) := by
      refine (st.fitted.chain_of_disjoint (p.chain_eq hc) fun _ _ => not_mem_nil).congr fun c _ => Vol.link_congr ?_
      rw [storedVol_fat]
    rw [hs'.scanDir hchain (p.dirChain r w.length_data).valid, storedVol_slots now st.fitted a.storable, entriesOf,
      scanSlots_set a.storable.index a.live hhead]
    rfl
  · refine w.scanDir_of_frame hs hs' hh hc (fun c hf hm => ?_) hh' hne
    obtain ⟨h1, h2⟩ := p.frame hf hm
    have hnew : c ∉ cs ++ new := fun hmem =>
      (mem_append.mp hmem).elim hm fun hn => hf (p.grown.fresh c hn).2
    have has : c ∉ as := fun hmem => hf (h1 ▸ st.fitted.fresh c hmem not_mem_nil)
    rw [storedVol_fat, st.fitted.fat c not_mem_nil has, storedVol_data_of_not_mem st.fitted hnew has]
    exact ⟨h1, h2⟩

theorem making_of_makeDir (hr : (v.makeDir now h name).run d = (.ok (), d')) :
    ∃ c, v.firstFree V = some c ∧ ∃ short lfn new k W, v.Making L d d' h name cs short
      (packSlot short (entryAttr true) c 0 (.ofNow now)) lfn new k (v.newDirVol c (if h = v.rootCluster then 0 else h) V) W id := by
  have ⟨hok, hs'⟩ := (does_makeDir w hh hc).run_eq hs hr
  unfold mkdirVol at hok hs'
  cases hf : v.firstFree V with
  | none =>
    rw [hf] at hok
    cases hok
  | some c =>
    have ⟨hv, h0⟩ := firstFree_eq_some hf
    rw [hf] at hok hs'
    have w1 := w.addDir h0 hv (if h = v.rootCluster then 0 else h) (h, 0)
    have hc1 := (newDirVol_chain (v := v) h0 (if h = v.rootCluster then 0 else h) hc).1
    have r1 := w1.dirChain (.inr hh) hc1
    simp only at hok hs'
    cases hcr : v.createVol now h cs name c true (v.newDirVol c (if h = v.rootCluster then 0 else h) V) with | mk res W
    rw [hcr] at hok hs'
    cases res with
    | error g => cases hok
    | ok e =>
      have ⟨short, lfn, new, k, hder, p, heq, hk⟩ := createVol_ok r1 w1.spc_pos w1.length_data hs.geometry.links hcr
      refine ⟨c, rfl, short, lfn, new, k, W, hder, p, hk, ⟨fun _ => rfl, fun _ => rfl, fun _ => rfl⟩, ?_, fun h' hh' hne => ?_⟩
      · rw [hs'.scanDir (p.chain_eq hc1) (p.dirChain r1 w1.length_data).valid, map_id]
      · refine w.scanDir_of_frame hs hs' hh hc (fun x hx hm => ?_) hh' hne
        have hxc : x ≠ c := fun heq => hx (heq ▸ h0)
        have hfat : (v.newDirVol c (if h = v.rootCluster then 0 else h) V).fat x = V.fat x := by
          rw [newDirVol_fat, Vol.alloc_fat_of_ne hxc (by simp)]
        have ⟨h1, h2⟩ := p.frame (hfat ▸ hx) hm
        exact ⟨h1.trans hfat, h2.trans (newDirVol_data_of_ne hxc)⟩

end calls

theorem findable_congr (h1 : U.slots cs = V.slots cs) (h2 : U.slots (cs ++ new) = V.slots (cs ++ new)) :
    Findable U h cs es name short lfn new k ↔ Findable V h cs es name short lfn new k := by
  have hwithin (n : Nat) : Placed.Within U cs new k n = Placed.Within V cs new k n := by rw [Placed.Within, Placed.Within, h1]
  have hbehind (n : Nat) : Placed.behind U cs new n = Placed.behind V cs new n := by rw [Placed.behind, Placed.behind, h2]
  have hrevealed (n : Nat) : Placed.revealed U h cs new k n = Placed.revealed V h cs new k n := by
    unfold Placed.revealed
    simp [hwithin, hbehind]
  have hshown : shownEntry U h cs short lfn k = shownEntry V h cs short lfn k := by rw [shownEntry, shownEntry, h1]
  constructor
  · rintro (⟨seen, covers, kept, free⟩ | ⟨seen, covers, index, distinct, finds⟩)
    · exact .plain (h1 ▸ seen) (by rwa [← hwithin, ← hbehind]) (h1 ▸ kept) free
    · exact .stale (h1 ▸ seen) (by rwa [← hwithin, ← hbehind]) (by rwa [← hrevealed]) (by rwa [← hrevealed, ← hshown])
        (by rwa [← hrevealed, ← hshown])
  · rintro (⟨seen, covers, kept, free⟩ | ⟨seen, covers, index, distinct, finds⟩)
    · exact .plain (h1 ▸ seen) (by rwa [hwithin, hbehind]) (h1 ▸ kept) free
    · exact .stale (h1 ▸ seen) (by rwa [hwithin, hbehind]) (by rwa [hrevealed]) (by rwa [hrevealed, hshown])
        (by rwa [hrevealed, hshown])

theorem Making.found_iff
    (m : v.Making L d d' h name cs short (packSlot short attr first size t) lfn new k U W f)
    (hs : v.Shows d V) (w : v.Wf V L) (hc : V.Chain h cs) (hslots : U.slots cs = V.slots cs)
    (hnew : U.slots (cs ++ new) = V.slots (cs ++ new)) (hr : v.resolve d path = .ok none)
    (hp : v.resolveParent d path = .ok (h, name)) (hscan : v.scanDir d h = .ok es) (hdist : Distinct es)
    (hlfn : ∀ s ∈ lfn, slotAttr s = attrLfn ∧ slotMark s ≠ slotEnd) (hl : isLive (packSlot short attr first size t) = true) :
    deriveFrom (.ok es) name none = .ok (short, lfn) ∧
      ((∃ es e, v.Found d' h name path es e) ↔ Findable V h cs es name short lfn new k) := by
  have ⟨parts, hsplit, hlast, hdir⟩ := resolveParent_eq_ok hp
  have hh := w.mem_of_resolveParent hs hp
  have hlen := (Vfs.comp_of_splitPath hsplit (mem_of_getLast? hlast)).2.2
  have hold := hscan
  rw [hs.scanDir hc (w.chain_valid hh hc), checkIndices_eq_ok] at hold
  obtain ⟨rfl, hidx⟩ := hold
  have ⟨es', hscan', hnone⟩ := scan_of_resolve_none hr hp
  cases hscan.symm.trans hscan'
  have hno : ∀ e ∈ entriesOf h (V.slots cs), matchesName name e = false := fun e he =>
    Bool.eq_false_iff.mpr (find?_eq_none.mp hnone e he)
  have hder := m.derived
  rw [scanVol, hslots, checkIndices_eq_ok.mpr ⟨rfl, hidx⟩] at hder
  refine ⟨hder, ?_⟩
  rw [Fat32.found_iff m.listing (w.resolve_of_others hs m.others hsplit hlast hdir), m.relabels.distinct_iff, m.relabels.finds_iff,
    ← findable_congr hslots hnew, ← hslots]
  rw [← hslots] at hder hidx hdist hno
  rw [← listing_iff m.placed hlfn hl hder hlen hno m.index hidx hdist]
  refine and_congr_left fun _ => ?_
  simp only [forall_mem_map, m.relabels.dirIndex]

theorem FirstPlace.congr (h : v.FirstPlace U cs need new k) (hfat : V.fat = U.fat) (hslots : V.slots cs = U.slots cs) :
    v.FirstPlace V cs need new k := by
  unfold FirstPlace
  rw [hslots, firstFree_congr hfat]
  exact h

section calls

variable {now : ℤ} (hs : v.Shows d V) (w : v.Wf V L) (hdist : ∀ h ∈ L.dirs, ∀ es, v.scanDir d h = .ok es → Distinct es)
include hs w hdist

theorem writeAt_found_iff (hr : v.resolve d path = .ok none) (hrun : (v.writeAt now path off buf).run d = (.ok n, d')) :
    ∃ h name cs es short lfn new k, v.Enters d h name V (.writeAt now path off buf) ∧ V.Chain h cs ∧ v.scanDir d h = .ok es ∧
      deriveFrom (.ok es) name none = .ok (short, lfn) ∧ v.FirstPlace V cs (lfn.length + 1) new k ∧
      ((∃ es e, v.Found d' h name path es e) ↔ Findable V h cs es name short lfn new k) := by
  rcases writeAt_cases hrun with ⟨_, ⟨_, hf⟩, _⟩ | ⟨e, he, _⟩ | ⟨h, name, ⟨_, hp⟩, hrun⟩
  · cases hf
  · cases hr.symm.trans he
  have ⟨e, d1, hcr, hst⟩ := bind_eq_ok.mp hrun
  have hh := w.mem_of_resolveParent hs hp
  have ⟨cs, hc, _⟩ := w.dirs hh
  have ⟨es, hscan, _⟩ := scan_of_resolve_none hr hp
  have ⟨short, lfn, new, k, W, f, m⟩ := making_of_store hs w hh hc hcr hst
  have hd := deriveFrom_eq_ok m.derived
  have hplace := m.placed.place
  rw [length_append, length_singleton] at hplace
  have ⟨hder, hiff⟩ := m.found_iff hs w hc rfl rfl hr hp hscan (hdist h hh es hscan)
    (m.placed.lfn_slots hd w hs.geometry.spc_le) hd.isLive
  exact ⟨h, name, cs, es, short, lfn, new, k, ⟨hr, hp, hs.vol.symm⟩, hc, hscan, hder, hplace, hiff⟩

theorem mkdir_found_iff (hrun : (v.mkdir now path).run d = (.ok (), d')) :
    ∃ h name U cs es short lfn new k, v.Enters d h name U (.mkdir now path) ∧ V.Chain h cs ∧ v.scanDir d h = .ok es ∧
      deriveFrom (.ok es) name none = .ok (short, lfn) ∧ v.FirstPlace U cs (lfn.length + 1) new k ∧
      ((∃ es e, v.Found d' h name path es e) ↔ Findable V h cs es name short lfn new k) := by
  obtain ⟨_, ⟨_, hf⟩, _⟩ | ⟨h, name, ⟨hr, hp⟩, hmk⟩ := mkdir_cases hrun
  · cases hf
  have hh := w.mem_of_resolveParent hs hp
  have ⟨cs, hc, _⟩ := w.dirs hh
  have ⟨es, hscan, _⟩ := scan_of_resolve_none hr hp
  have ⟨x, hf, short, lfn, new, k, W, m⟩ := making_of_makeDir hs w hh hc hmk
  have ⟨hv, h0⟩ := firstFree_eq_some hf
  have hd := deriveFrom_eq_ok m.derived
  have w1 := w.addDir h0 hv (if h = v.rootCluster then 0 else h) (h, 0)
  -- The cluster of the new directory is none of those that its entry goes to.
  have hdata {y : Nat} (hy : y ∈ cs ++ new) : (v.newDirVol x (if h = v.rootCluster then 0 else h) V).data y = V.data y := by
    refine newDirVol_data_of_ne ?_
    rintro rfl
    rcases mem_append.mp hy with hy | hy
    · exact hc.fat_ne_zero hy h0
    · exact newDirVol_chain_self.fat_ne_zero (mem_singleton_self y) (m.placed.grown.fresh y hy).2
  have hslots := Vol.slots_congr fun y hy => hdata (mem_append_left new hy)
  have hplace := m.placed.place
  rw [length_append, length_singleton] at hplace
  have ⟨hder, hiff⟩ := m.found_iff hs w hc hslots (Vol.slots_congr fun y hy => hdata hy) hr hp hscan (hdist h hh es hscan)
    (m.placed.lfn_slots hd w1 hs.geometry.spc_le) hd.isLive
  refine ⟨h, name, V.alloc none x, cs, es, short, lfn, new, k, ⟨hr, hp, x, ?_⟩, hc, hscan, hder, ?_, hiff⟩
  · rw [hs.vol]
    exact ⟨hf, rfl⟩
  · exact FirstPlace.congr hplace rfl hslots.symm

end calls

section file

theorem distinct_file : ∀ h ∈ rootLayout.dirs, ∀ es, small.scanDir (small.image (fileVol 0x20)) h = .ok es → Distinct es := by
  intro h hh es hscan
  cases hh
  cases (scanDir_file (.inl rfl)).symm.trans hscan
  exact pairwise_singleton ..

theorem create_run (hr : small.resolve (small.image (fileVol 0x20)) path = .ok none)
    (hp : small.resolveParent (small.image (fileVol 0x20)) path = .ok (2, name))
    (hok : (small.createVol 0 2 [2] name 0 false (fileVol 0x20)).1.isOk = true) :
    ∃ d', (small.writeAt 0 path 0 []).run (small.image (fileVol 0x20)) = (.ok 0, d') := by
  have hs : small.Shows (small.image (fileVol 0x20)) (fileVol 0x20) := shows_image fits_file
  have w := wf_file (.inl rfl : (0x20 : UInt8) = 0x20 ∨ (0x20 : UInt8) = 0x21)
  have hc : (fileVol 0x20).Chain 2 [2] := chain_small rfl
  have hroot : 2 ∈ rootLayout.dirs := w.root
  have r : small.DirChain (fileVol 0x20) 2 [2] := w.dirChain hroot hc
  have ⟨d1, hrun, hs1⟩ := does_createEntry r w.length_data 0 name 0 false _ hs
  cases hcr : small.createVol 0 2 [2] name 0 false (fileVol 0x20) with | mk res W
  rw [hcr] at hrun hs1 hok
  cases res with
  | error f => cases hok
  | ok e =>
    have ⟨short, lfn, new, k, hder, p, heq, _⟩ := createVol_ok r w.spc_pos w.length_data hs.geometry.links hcr
    have a := p.fileAt (deriveFrom_eq_ok hder) r w hroot 0
    rw [← heq] at a
    have ⟨d', hst, _⟩ := does_storeAt a.storable (by decide : 0 + ([] : Bytes).length < 2 ^ 32) 0 _ hs1
    refine ⟨d', ?_⟩
    rw [writeAt_run_of_none hr hp, bind_run_ok hrun, hst]
    rfl

end file

theorem resolve_file_dot : small.resolve (small.image (fileVol 0x20)) ['/', 'A', '.'] = .ok none :=
  resolve_in_root (by decide : Vfs.splitPath ['/', 'A', '.'] = some [['A', '.']]) (scanDir_file (.inl rfl))

end Fat32
