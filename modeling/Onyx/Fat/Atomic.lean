import Onyx.Fat.FreeSpace
import Onyx.Fat.Listing

-- Calls that fail: what they leave behind.

open Lib Fat List

namespace Fat32

variable {v : Fat32}
-- The same clusters are free, the same entries are listed, and the files have the same contents.
structure Unchanged (v : Fat32) (L : Layout) (d d' : AtaDrive) : Prop where
  free : ∀ c, v.Valid c → ((v.vol d').fat c = 0 ↔ (v.vol d).fat c = 0)
  listing : ∀ h ∈ L.dirs, v.scanDir d' h = v.scanDir d h
  files : v.KeepsFiles L d d' fun _ => True

theorem Shows.unchanged (hs : v.Shows d V) (hs' : v.Shows d' V) (w : v.Wf V L) : v.Unchanged L d d' where
  free c _ := by rw [hs.vol, hs'.vol]
  listing h hh := by
    have ⟨cs, hc, hscan⟩ := w.scanDir hs hh
    rw [hscan, hs'.scanDir hc (w.chain_valid hh hc)]
  files := by
    intro h hh es hscan e he _ _ _ _ as hc
    rw [hs'.vol, ← hs.vol]
    exact ⟨hc, fun _ _ => rfl⟩

theorem not_unchanged_of_taken (hs : v.Shows d V) (hs' : v.Shows d' V') (hc : v.Valid c) (h0 : V.fat c = 0)
    (h1 : V'.fat c ≠ 0) : ¬v.Unchanged L d d' := by
  intro u
  have := (u.free c hc).mpr (by rw [hs.vol, h0])
  rw [hs'.vol] at this
  exact h1 this

section store

-- `write_at` looks at these before it takes a cluster.
def Stops (v : Fat32) (V : Vol) (newEnd : Nat) : Prop := 2 ^ 32 ≤ newEnd ∨ v.firstFree V = none

theorem stops_congr (h : V'.fat = V.fat) : v.Stops V' n ↔ v.Stops V n := by rw [Stops, Stops, firstFree_congr h]

theorem growVol_error (hl : v.totalClusters + 2 ≤ 0x0FFFFFF8) (h : v.growVol k cs V = (.error g, V')) :
    v.firstFree V = none ∧ V' = V ∨ ∃ c new, v.Grown V cs (c :: new) V' := by
  cases k with
  | zero => cases h
  | succ k =>
    cases hf : v.firstFree V with
    | none =>
      simp only [growVol, hf] at h
      cases h
      exact .inl ⟨rfl, rfl⟩
    | some c =>
      obtain ⟨hc, h0⟩ := firstFree_eq_some hf
      simp only [growVol, hf] at h
      obtain ⟨new, hg, _⟩ := growVol_grown hl k (cs ++ [c]) (V.alloc cs.getLast? c)
      rw [h] at hg
      exact .inr ⟨c, new, hg.cons hl hc h0⟩

theorem Storable.storeAt_err (s : v.Storable V e dir slot cs) (hs : v.Shows d V)
    (h : (v.storeAt now e off buf).run d = (.error (.err f), d')) :
    v.Stops V (off + buf.length) ∧ v.Shows d' V ∨
      ¬v.Stops V (off + buf.length) ∧ ∃ c new V', v.Shows d' V' ∧ v.Grown V cs (c :: new) V' := by
  by_cases hlt : off + buf.length < 2 ^ 32
  · obtain ⟨hr, hs'⟩ := (does_storeAt s hlt now).run_eq hs h
    unfold storeVol at hr hs'
    cases hf : v.fitVol cs (v.clustersFor (off + buf.length)) V with | mk r V'
    rw [hf] at hr hs'
    cases r with
    | ok cs' => cases hr
    | error g =>
      unfold fitVol at hf
      split_ifs at hf
      · rcases growVol_error hs.geometry.links hf with ⟨hnone, rfl⟩ | ⟨c, new, g⟩
        · exact .inl ⟨.inr hnone, hs'⟩
        refine .inr ⟨?_, c, new, V', hs', g⟩
        rintro (hge | hnone)
        · exact absurd hlt (Nat.not_lt.mpr hge)
        · obtain ⟨hv, h0⟩ := g.fresh c (mem_cons_self ..)
          have := find?_eq_none.mp hnone c (mem_range'_1.mpr ⟨hv.1, by have := hv.2; omega⟩)
          simp [h0] at this
      · cases hf
  · have hge : 2 ^ 32 ≤ off + buf.length := Nat.le_of_not_lt hlt
    refine .inl ⟨.inl hge, ?_⟩
    rw [storeAt] at h
    rcases Prog.bind_eq_error h with hc | ⟨n, d1, hn, h⟩
    · exact absurd (Prod.mk.inj hc).1 checked_ne_err
    obtain ⟨hn, hd⟩ := Prod.mk.inj hn
    rw [(checked_eq_ok.mp hn).1, if_pos (by omega)] at h
    rw [← (Prod.mk.inj h).2, ← hd]
    exact hs

theorem Storable.shows_of_err (s : v.Storable V e dir slot []) (hs : v.Shows d V)
    (h : (v.storeAt now e off buf).run d = (.error (.err f), d')) :
    ∃ V', v.Shows d' V' ∧ V'.data = V.data ∧ ∀ {h cs}, V.Chain h cs → V'.Chain h cs := by
  rcases s.storeAt_err hs h with ⟨_, hs'⟩ | ⟨_, c, new, V', hs', g⟩
  · exact ⟨V, hs', rfl, id⟩
  · exact ⟨V', hs', g.data, fun hc => g.chain_of_disjoint hc fun _ _ => not_mem_nil⟩

theorem Grown.taken (g : v.Grown V cs (c :: new) V') (hn : Names V first cs) : v.Valid c ∧ V.fat c = 0 ∧ V'.fat c ≠ 0 := by
  have ⟨hv, h0⟩ := g.fresh c (mem_cons_self ..)
  have hmem : c ∈ cs ++ c :: new := mem_append_right _ (mem_cons_self ..)
  refine ⟨hv, h0, ?_⟩
  cases hn with
  | inl hn => exact (g.chain c (.inr ⟨hn.2, rfl⟩)).fat_ne_zero hmem
  | inr hn => exact (g.chain first (.inl hn.2)).fat_ne_zero hmem

end store

section condition

structure Creatable (v : Fat32) (V : Vol) (h : Nat) (cs : List Nat) (name : Text) : Prop where
  plain : ¬(name.contains '/' ∨ name.contains '\\')
  named : ∃ p, deriveFrom (scanVol V h cs) name none = .ok p
  room : (∃ k, v.IsPlace (V.slots cs) (slotsFor name) k) ∨ ∃ c, v.firstFree V = some c

-- The first place for a run of slots is behind an end marker.
def Hidden (v : Fat32) (S : List Bytes) (need : Nat) : Prop :=
  ∃ k, v.IsPlace S need k ∧ (∀ k', v.IsPlace S need k' → k ≤ k') ∧ ¬Endless (S.take k)

def StopsEarly (v : Fat32) (d : AtaDrive) : Call → Prop
  | .writeAt _ path off buf =>
    (∀ e, v.resolve d path = .ok (some (.entry e)) → e.isDir = false → v.Stops (v.vol d) (off + buf.length)) ∧
      ∀ h name cs, v.Missing d path h name → (v.vol d).Chain h cs → v.Creatable (v.vol d) h cs name →
        v.Hidden ((v.vol d).slots cs) (slotsFor name) ∧ v.Stops (v.vol d) (off + buf.length)
  | .mkdir _ path => ∀ h name, v.Missing d path h name → v.firstFree (v.vol d) = none
  | _ => True

theorem not_creatable (r : v.DirChain V h cs) (hp : 0 < v.sectorsPerCluster)
    (he : v.createVol now h cs name first isDir V = (.error (.err f), V')) : ¬v.Creatable V h cs name := by
  rintro ⟨hplain, ⟨⟨short, lfn⟩, hd⟩, hroom⟩
  have hlen := (deriveFrom_eq_ok hd).length_lfn
  simp only [createVol, if_neg hplain, hd, enterVol] at he
  rw [← hlen] at hroom
  cases hr : v.runVol cs (lfn.length + 1) V with
  | none =>
    unfold runVol at hr
    split at hr
    case h_1 => cases hr
    case h_2 hs =>
      rcases hroom with ⟨k, hk⟩ | ⟨c, hc⟩
      · exact r.not_isPlace_of_searchRun hp (Nat.succ_pos _) hs k hk
      · rw [hc] at hr
        cases hr
  | some q =>
    obtain ⟨⟨cs', ci, si⟩, V1⟩ := q
    rw [hr] at he
    simp only at he
    cases hc : (checked 32 (ci * v.slotsPerCluster + si + lfn.length) : Result FsError Nat) with
    | error g =>
      rw [hc] at he
      cases he
      exact checked_ne_err hc
    | ok idx =>
      rw [hc] at he
      simp only at he
      cases hw : writeRunVol cs' ci si (lfn ++ [packSlot short (entryAttr isDir) first 0 (.ofNow now)]) V1 with | mk res V2
      rw [hw] at he
      cases res with
      | ok u => cases he
      | error g =>
        cases he
        exact writeRunVol_ne_err hw

theorem creatable (hc : v.createVol now h cs name first isDir V = (.ok e, V'))
    (hder : deriveFrom (scanVol V h cs) name none = .ok (short, lfn)) (p : v.Placed V cs new k (lfn ++ [slot]) V') :
    v.Creatable V h cs name := by
  have hneed : (lfn ++ [slot]).length = slotsFor name := by
    rw [length_append, length_singleton, (deriveFrom_eq_ok hder).length_lfn]
  refine ⟨?_, ⟨_, hder⟩, ?_⟩
  · intro hslash
    rw [createVol, if_pos hslash] at hc
    cases (Prod.mk.inj hc).1
  · rcases p.place with ⟨_, hk, _⟩ | ⟨c, _, hf, _⟩
    · exact .inl ⟨k, hneed ▸ hk⟩
    · exact .inr ⟨c, hf⟩

end condition

section created

variable (hs : v.Shows d V) (w : v.Wf V L) (hh : h ∈ L.dirs) (hc : V.Chain h cs)
include hs w hh hc

theorem Placed.unchanged_of_hidden (p : v.Placed V cs [] k (lfn ++ [slot]) V1) (hs1 : v.Shows d' V1)
    (hend : ¬Endless ((V.slots cs).take k)) : v.Unchanged L d d' := by
  have r := w.dirChain hh hc
  have E := p.edit w hh hc (k + lfn.length)
  refine ⟨fun c _ => ?_, fun h' hh' => ?_, fun h' hh' es hscan e he _ => ?_⟩
  · rw [hs.vol, hs1.vol, p.grown.fat c not_mem_nil (.inl rfl)]
  · by_cases hsame : h' = h
    · subst hsame
      rw [hs1.scanDir E.chain (p.dirChain r w.length_data).valid, p.entriesOf_hidden hend, hs.scanDir hc r.valid]
    have ⟨as, hc', hv⟩ := w.scanDir hs hh'
    have ⟨hc1, _, hslots⟩ := E.dir_of_ne w hh' hsame hc'
    rw [hv, hs1.scanDir hc1 (w.chain_valid hh' hc'), hslots]
  · refine E.keepsFiles w hs hs1 h' hh' es hscan e he fun ⟨hd, hi⟩ => ?_
    have ⟨as, hc', hv⟩ := w.scanDir hs hh'
    rw [hscan] at hv
    rw [(checkIndices_eq_ok.mp hv.symm).1] at he
    rw [dirCluster_of_mem_entriesOf he] at hd
    subst hd
    cases hc.unique hc'
    exact p.dirIndex_ne he hi

theorem created_unchanged_iff (hscan : v.scanDir d h = .ok es)
    (hcr : v.createVol now h cs name 0 false V = (.ok e, V1)) (hs1 : v.Shows d1 V1)
    (hst : (v.storeAt now e off buf).run d1 = (.error (.err f), d')) :
    v.Unchanged L d d' ↔ v.Hidden (V.slots cs) (slotsFor name) ∧ v.Stops V (off + buf.length) := by
  have r := w.dirChain hh hc
  have ⟨short, lfn, new, k, hder, p, heq, _⟩ := createVol_ok r w.spc_pos w.length_data hs.geometry.links hcr
  have hd := deriveFrom_eq_ok hder
  have a := p.fileAt hd r w hh now
  rw [← heq] at a
  have hneed : (lfn ++ [packSlot short (entryAttr false) 0 0 (.ofNow now)]).length = slotsFor name := by
    rw [length_append, length_singleton, hd.length_lfn]
  constructor
  · intro u
    have E := p.edit w hh hc (k + lfn.length)
    have ⟨V2, hs2, hdata, hkeep⟩ := a.storable.shows_of_err hs1 hst
    obtain rfl : new = [] := by
      refine eq_nil_iff_forall_not_mem.mpr fun c hm => ?_
      have ⟨hv, h0⟩ := p.grown.fresh c hm
      exact not_unchanged_of_taken hs hs2 hv h0 ((hkeep E.chain).fat_ne_zero (mem_append_right _ hm)) u
    have hfat : V1.fat = V.fat := funext fun c => p.grown.fat c not_mem_nil (.inl rfl)
    have ⟨_, hk, hleast⟩ := p.place.resolve_right fun ⟨_, hnew, _⟩ => nomatch hnew
    rw [hneed] at hk hleast
    refine ⟨⟨k, hk, hleast, fun hend => ?_⟩, ?_⟩
    · -- Whatever the write has done, the slots of the directory are the ones with the new entry.
      have hslots : V2.slots (cs ++ []) = V1.slots (cs ++ []) := Vol.slots_congr fun c _ => by rw [hdata]
      have hlist := u.listing h hh
      rw [hs2.scanDir (hkeep E.chain) (p.dirChain r w.length_data).valid, hslots, hscan] at hlist
      rw [hs.scanDir hc r.valid] at hscan
      exact p.entriesOf_ne hend (p.lfn_slots hd w hs.geometry.spc_le) a.live
        ((checkIndices_eq_ok.mp hlist).1.symm.trans (checkIndices_eq_ok.mp hscan).1)
    · rcases a.storable.storeAt_err hs1 hst with ⟨hstop, _⟩ | ⟨_, c, more, V3, hs', g⟩
      · exact (stops_congr hfat).mp hstop
      · have ⟨hv, h0, h1⟩ := g.taken a.storable.names
        exact absurd u (not_unchanged_of_taken hs hs' hv (hfat ▸ h0) h1)
  · intro ⟨⟨k', hk', hleast', hend⟩, hstop⟩
    obtain ⟨rfl, hk, hleast⟩ := p.place.resolve_right fun ⟨_, _, _, _, hno⟩ => hno k' (hneed ▸ hk')
    rw [hneed] at hk hleast
    cases Nat.le_antisymm (hleast k' hk') (hleast' k hk)
    rcases a.storable.storeAt_err hs1 hst with ⟨_, hs'⟩ | ⟨hgo, _⟩
    · exact p.unchanged_of_hidden hs w hh hc hs' hend
    · have hfat : V1.fat = V.fat := funext fun c => p.grown.fat c not_mem_nil (.inl rfl)
      exact absurd ((stops_congr hfat).mpr hstop) hgo

end created

section calls

variable (hs : v.Shows d V) (w : v.Wf V L)
include hs w

theorem writeAt_unchanged_iff (hr : (v.writeAt now path off buf).run d = (.error (.err f), d')) :
    v.Unchanged L d d' ↔ v.StopsEarly d (.writeAt now path off buf) := by
  rw [StopsEarly, hs.vol]
  rcases writeAt_cases hr with ⟨rfl, _, hdir, hmiss⟩ | ⟨e, hres, hdir, hst⟩ | ⟨h, name, m, hcr⟩
  · refine iff_of_true (hs.unchanged hs w) ⟨fun e he hf => ?_, fun h name cs m => absurd m (hmiss h name)⟩
    rw [hdir e he] at hf
    cases hf
  · have ⟨dir, slot, l⟩ := w.located_of_resolve hs hres
    have ⟨cs, a⟩ := l.fileAt w hdir
    have hmiss : ∀ h name, ¬v.Missing d path h name := not_missing_of_resolve hres nofun
    rcases a.storable.storeAt_err hs hst with ⟨hstop, hs'⟩ | ⟨hgo, c, new, V', hs', g⟩
    · exact iff_of_true (hs.unchanged hs' w) ⟨fun _ _ _ => hstop, fun h name cs m => absurd m (hmiss h name)⟩
    · have ⟨hv, h0, h1⟩ := g.taken a.storable.names
      exact iff_of_false (not_unchanged_of_taken hs hs' hv h0 h1) fun hstop => hgo (hstop.1 e hres hdir)
  · have hh := w.mem_of_resolveParent hs m.parent
    have ⟨cs, hc, _⟩ := w.dirs hh
    have r := w.dirChain hh hc
    have hdoes := does_createEntry r w.length_data now name 0 false
    have hfirst : ∀ e, v.resolve d path = .ok (some (.entry e)) → e.isDir = false → v.Stops V (off + buf.length) := by
      intro e he
      rw [m.none] at he
      cases he
    rw [and_iff_right hfirst]
    -- Only this directory and this name are meant.
    have hone : (∀ h' name' cs', v.Missing d path h' name' → V.Chain h' cs' → v.Creatable V h' cs' name' →
        v.Hidden (V.slots cs') (slotsFor name') ∧ v.Stops V (off + buf.length)) ↔
          (v.Creatable V h cs name → v.Hidden (V.slots cs) (slotsFor name) ∧ v.Stops V (off + buf.length)) := by
      constructor
      · exact fun hall => hall h name cs m hc
      · intro hthis h' name' cs' m' hc'
        cases m.parent.symm.trans m'.parent
        cases hc.unique hc'
        exact hthis
    rw [hone]
    rcases Prog.bind_eq_error hcr with hcr | ⟨e, d1, hcr, hst⟩
    · have ⟨hres, hs'⟩ := hdoes.run_eq hs hcr
      have herr : v.createVol now h cs name 0 false V = (.error (.err f), (v.createVol now h cs name 0 false V).2) :=
        Prod.ext hres.symm rfl
      rw [createVol_err herr] at hs'
      exact iff_of_true (hs.unchanged hs' w) fun hcan => absurd hcan (not_creatable r w.spc_pos herr)
    · have ⟨hres, hs1⟩ := hdoes.run_eq hs hcr
      have hok : v.createVol now h cs name 0 false V = (.ok e, (v.createVol now h cs name 0 false V).2) :=
        Prod.ext hres.symm rfl
      have ⟨es, hscan, _⟩ := scan_of_resolve_none m.none m.parent
      have ⟨_, _, _, _, hder, p, _⟩ := createVol_ok r w.spc_pos w.length_data hs.geometry.links hok
      rw [created_unchanged_iff hs w hh hc hscan hok hs1 hst]
      exact ⟨fun h _ => h, fun h => h (creatable hok hder p)⟩

theorem mkdir_unchanged_iff (hr : (v.mkdir now path).run d = (.error (.err f), d')) :
    v.Unchanged L d d' ↔ v.StopsEarly d (.mkdir now path) := by
  rw [StopsEarly, hs.vol]
  rcases mkdir_cases hr with ⟨rfl, _, hmiss⟩ | ⟨h, name, m, hmk⟩
  · exact iff_of_true (hs.unchanged hs w) fun h name m => absurd m (hmiss h name)
  have hh := w.mem_of_resolveParent hs m.parent
  have ⟨cs, hc, _⟩ := w.dirs hh
  have ⟨hres, hs'⟩ := (does_makeDir w hh hc).run_eq hs hmk
  unfold mkdirVol at hres hs'
  cases hf : v.firstFree V with
  | none =>
    rw [hf] at hs'
    exact iff_of_true (hs.unchanged hs' w) fun _ _ _ => rfl
  | some c =>
    have ⟨hv, h0⟩ := firstFree_eq_some hf
    simp only [hf] at hres hs'
    cases hcr : v.createVol now h cs name c true (v.newDirVol c (if h = v.rootCluster then 0 else h) V) with | mk res V'
    rw [hcr] at hres hs'
    cases res with
    | ok e => cases hres
    | error g =>
      cases hres
      cases createVol_err hcr
      refine iff_of_false (not_unchanged_of_taken hs hs' hv h0 ?_) fun hnone => nomatch hnone h name m
      exact newDirVol_chain_self.fat_ne_zero (mem_singleton_self c)

theorem rename_unchanged (hr : (v.rename src dst).run d = (.error (.err f), d')) : v.Unchanged L d d' := by
  rcases rename_cases hr with ⟨rfl, _⟩ | ⟨_, _, rfl, _⟩ | ⟨e, name, hres, _, hmv⟩
  · exact hs.unchanged hs w
  · exact hs.unchanged hs w
  have ⟨dir, slot, l⟩ := w.located_of_resolve hs hres
  have ⟨hm, hs'⟩ := (does_moveEntry w l).run_eq hs hmv
  have herr : v.moveVol e dir name V = (.error (.err f), (v.moveVol e dir name V).2) := Prod.ext hm.symm rfl
  rw [moveVol_err herr] at hs'
  exact hs.unchanged hs' w

theorem unlink_unchanged (hr : (v.unlink path).run d = (.error (.err f), d')) : v.Unchanged L d d' := by
  rcases unlink_cases hr with ⟨rfl, _⟩ | ⟨e, hres, hdir, hdel⟩
  · exact hs.unchanged hs w
  have ⟨dir, slot, l⟩ := w.located_of_resolve hs hres
  have ⟨cs, a⟩ := l.fileAt w hdir
  cases (a.does_deleteEntry.run_eq hs hdel).1

end calls

theorem mkdir_run (m : v.Missing d path h name) : (v.mkdir now path).run d = (v.makeDir now h name).run d := by
  rw [mkdir, read_bind_run, m.none, lift_ok_bind_run, read_bind_run, m.parent, lift_ok_bind_run]

theorem exec_mkdir_error (hr : (v.mkdir now path).run d = (.error g, d')) :
    (v.exec (.mkdir now path)).run d = (.error g, d') :=
  bind_run_error hr

theorem mkdir_run_of_some (hr : v.resolve d path = .ok (some r)) :
    (v.mkdir now path).run d = (.error (.err .alreadyExists), d) := by
  rw [mkdir, read_bind_run, hr, lift_ok_bind_run]
  rfl

-- The name of this directory is refused, but only when it has got its cluster.
def slashPath : Text := ['/', 'a', '\\', 'b']

end Fat32
