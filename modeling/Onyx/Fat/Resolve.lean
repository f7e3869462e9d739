import Onyx.Fat.WellFormed

-- Path resolution on well-formed volumes.

open Lib Fat List Result

namespace Fat32

variable {v : Fat32} {V : Vol} {L : Layout} {d d' : AtaDrive} {h : Nat}

-- The entry stands in the given slot of a directory with the given chain.
structure Located (V : Vol) (L : Layout) (e : RawEntry) (cs : List Nat) (slot : Bytes) : Prop where
  dir : e.dirCluster ∈ L.dirs
  chain : V.Chain e.dirCluster cs
  index : (V.slots cs)[e.dirIndex]? = some slot
  live : isLive slot = true
  notDot : isDot slot = false
  entry : ∃ run, e = entryOf e.dirCluster run slot e.dirIndex

section

variable (l : Located V L e cs slot)
include l

theorem Located.firstCluster : e.firstCluster = slotFirst slot := by
  have ⟨_, he⟩ := l.entry
  exact congrArg RawEntry.firstCluster he

theorem Located.size : e.size = slotSize slot := by
  have ⟨_, he⟩ := l.entry
  exact congrArg RawEntry.size he

theorem Located.isDir : e.isDir = slotIsDir slot := by
  have ⟨_, he⟩ := l.entry
  exact congrArg RawEntry.isDir he

theorem Located.entryOk (w : v.Wf V L) : v.EntryOk V L e.dirCluster e.dirIndex slot :=
  w.entries l.dir l.chain l.index l.live l.notDot

end

def NotDot (name : Text) : Prop := name ≠ Vfs.dot ∧ name ≠ Vfs.dotdot

theorem resolve_eq_entry (h : v.resolve d path = .ok (some (.entry e))) :
    ∃ parts last dir, Vfs.splitPath path = some parts ∧ parts.getLast? = some last ∧
      v.descend d v.rootCluster parts.dropLast = .ok dir ∧ v.findIn d dir last = .ok (some e) := by
  unfold resolve at h
  split at h
  · simp [fail] at h
  rename_i parts hp
  split at h
  · cases h
  rename_i last hl
  obtain ⟨dir, hdir, h⟩ := bind_eq_ok.mp h
  obtain ⟨o, ho, h⟩ := bind_eq_ok.mp h
  cases o with
  | none => cases h
  | some e =>
    cases h
    exact ⟨parts, last, dir, hp, hl, hdir, ho⟩

theorem resolveParent_eq_ok (hp : v.resolveParent d path = .ok (h, name)) :
    ∃ parts, Vfs.splitPath path = some parts ∧ parts.getLast? = some name ∧ v.descend d v.rootCluster parts.dropLast = .ok h := by
  unfold resolveParent at hp
  split at hp
  · cases hp
  rename_i parts hsplit
  split at hp
  · cases hp
  rename_i last hlast
  have ⟨dir, hdir, hp⟩ := bind_eq_ok.mp hp
  cases hp
  exact ⟨parts, hsplit, hlast, hdir⟩

theorem resolve_of_descend (hsplit : Vfs.splitPath path = some parts) (hlast : parts.getLast? = some name)
    (hdir : v.descend d v.rootCluster parts.dropLast = .ok h) :
    v.resolve d path = (v.scanDir d h).map fun es => (es.find? (matchesName name)).map .entry := by
  simp only [resolve, hsplit, hlast, hdir, ok_bind, findIn]
  cases v.scanDir d h <;> rfl

theorem scan_of_resolve_none (hr : v.resolve d path = .ok none) (hp : v.resolveParent d path = .ok (h, name)) :
    ∃ es, v.scanDir d h = .ok es ∧ es.find? (matchesName name) = none := by
  have ⟨parts, hsplit, hlast, hdir⟩ := resolveParent_eq_ok hp
  rw [resolve_of_descend hsplit hlast hdir] at hr
  cases hscan : v.scanDir d h with
  | error f =>
    rw [hscan] at hr
    cases hr
  | ok es =>
    rw [hscan] at hr
    exact ⟨es, rfl, Option.map_eq_none_iff.mp (Except.ok.inj hr)⟩

theorem resolve_in_root (hpath : Vfs.splitPath path = some [name]) (hscan : v.scanDir d v.rootCluster = .ok es) :
    v.resolve d path = .ok ((es.find? (matchesName name)).map .entry) := by
  rw [resolve_of_descend hpath (getLast?_singleton ..) rfl, hscan]
  rfl

theorem resolveParent_in_root (hpath : Vfs.splitPath path = some [name]) :
    v.resolveParent d path = .ok (v.rootCluster, name) := by
  simp only [resolveParent, hpath, getLast?_singleton, dropLast_singleton, descend, ok_bind]
  rfl

theorem descend_cons_eq_ok : v.descend d h (comp :: comps) = .ok h' ↔
    ∃ e, v.findIn d h comp = .ok (some e) ∧ ¬(!e.isDir ∨ e.firstCluster < 2) ∧ v.descend d e.firstCluster comps = .ok h' := by
  rw [descend, Result.bind_eq_ok]
  constructor
  · intro ⟨o, ho, hf⟩
    cases o with
    | none => cases hf
    | some e =>
      simp only at hf
      split_ifs at hf with he
      · cases hf
      · exact ⟨e, ho, he, hf⟩
  · intro ⟨e, ho, he, hf⟩
    exact ⟨some e, ho, (if_neg he).trans hf⟩

namespace Wf

section

variable (w : v.Wf V L) (hs : v.Shows d V) (hd : h ∈ L.dirs)
include w hs hd

theorem scanDir : ∃ cs, V.Chain h cs ∧ v.scanDir d h = checkIndices (entriesOf h (V.slots cs)) := by
  have ⟨cs, hc, _⟩ := w.dirs hd
  exact ⟨cs, hc, hs.scanDir hc (w.chain_valid hd hc)⟩

theorem listed_of_findIn (hf : v.findIn d h name = .ok (some e)) :
    ∃ cs, V.Chain h cs ∧ e ∈ entriesOf h (V.slots cs) ∧ matchesName name e = true ∧ e.dirCluster = h := by
  have ⟨cs, hc, hscan⟩ := w.scanDir hs hd
  rw [findIn, hscan, Result.bind_eq_ok] at hf
  have ⟨es, he, hf⟩ := hf
  have hf : es.find? (matchesName name) = some e := Except.ok.inj hf
  have hmem := mem_of_find?_eq_some hf
  rw [(checkIndices_eq_ok.mp he).1] at hmem
  have ⟨_, _, _, _, _, heq⟩ := mem_scanSlots.mp hmem
  exact ⟨cs, hc, hmem, find?_some hf, congrArg RawEntry.dirCluster heq⟩

theorem located_of_findIn (hn : NotDot name)
    (hf : v.findIn d h name = .ok (some e)) : ∃ cs slot, Located V L e cs slot := by
  have ⟨cs, hc, hmem, hm, hdc⟩ := w.listed_of_findIn hs hd hf
  have ⟨slot, h1, h2, h3, run, h4⟩ := w.slot_of_found hd hc hmem hn hm
  subst hdc
  exact ⟨cs, slot, hd, hc, h1, h2, h3, run, h4⟩

end

section

variable (w : v.Wf V L) (l : Located V L e cs slot) (hd : ¬ (!e.isDir ∨ e.firstCluster < 2))
include w l hd

theorem dir_of_dirEntry : e.firstCluster ∈ L.dirs ∧ L.parent e.firstCluster = some (e.dirCluster, e.dirIndex) := by
  have hf := l.firstCluster
  have hi := l.isDir
  cases l.entryOk w with
  | empty h1 _ => exact absurd (.inr (by omega)) hd
  | dir _ hm hp => exact ⟨hf ▸ hm, hf ▸ hp⟩
  | file _ h1 _ _ _ => exact absurd (.inl (by simp [hi, h1])) hd

theorem mem_of_dirEntry : e.firstCluster ∈ L.dirs :=
  (w.dir_of_dirEntry l hd).1

end

theorem mem_of_descend (w : v.Wf V L) (hs : v.Shows d V) (hd : h ∈ L.dirs)
    (hn : ∀ c ∈ comps, NotDot c) (hf : v.descend d h comps = .ok h') : h' ∈ L.dirs := by
  induction comps generalizing h with
  | nil => exact Except.ok.inj hf ▸ hd
  | cons comp comps hi =>
    have ⟨e, ho, he, hf⟩ := descend_cons_eq_ok.mp hf
    have ⟨_, _, l⟩ := w.located_of_findIn hs hd (hn comp (.head _)) ho
    exact hi (w.mem_of_dirEntry l he) (fun c hc => hn c (.tail _ hc)) hf

section

variable (w : v.Wf V L) (hs : v.Shows d V) (hf : v.resolve d path = .ok (some (.entry e)))
include w hs hf

theorem dir_of_resolve : ∃ dir last, dir ∈ L.dirs ∧ NotDot last ∧ v.findIn d dir last = .ok (some e) := by
  have ⟨parts, last, dir, hp, hl, hdir, ho⟩ := resolve_eq_entry hf
  have hn (c) (hc : c ∈ parts) : NotDot c := Vfs.ne_dot_of_splitPath hp hc
  have hD := w.mem_of_descend hs w.root (fun c hc => hn c (dropLast_subset _ hc)) hdir
  exact ⟨dir, last, hD, hn last (mem_of_mem_getLast? hl), ho⟩

theorem located_of_resolve : ∃ cs slot, Located V L e cs slot := by
  have ⟨dir, last, hD, hn, ho⟩ := w.dir_of_resolve hs hf
  exact w.located_of_findIn hs hD hn ho

theorem listed_of_resolve (hc : V.Chain e.dirCluster cs) : e ∈ entriesOf e.dirCluster (V.slots cs) := by
  have ⟨dir, last, hD, _, ho⟩ := w.dir_of_resolve hs hf
  have ⟨cs', hc', hmem, _, hdc⟩ := w.listed_of_findIn hs hD ho
  subst hdc
  rwa [hc.unique hc']

end

theorem mem_of_resolveParent (w : v.Wf V L) (hs : v.Shows d V)
    (hf : v.resolveParent d path = .ok (h, name)) : h ∈ L.dirs := by
  have ⟨_, hsplit, _, hdir⟩ := resolveParent_eq_ok hf
  exact w.mem_of_descend hs w.root (fun c hc => Vfs.ne_dot_of_splitPath hsplit (dropLast_subset _ hc)) hdir

end Wf

section depth

-- How far below the root a directory is.
def Depth (v : Fat32) (L : Layout) : Nat → Nat → Prop
  | 0, h => h = v.rootCluster
  | n + 1, h => ∃ p i, L.parent h = some (p, i) ∧ v.Depth L n p

theorem Wf.depth_unique (w : v.Wf V L) (hn : v.Depth L n h) (hm : v.Depth L m h) : n = m := by
  have hroot {h : Nat} {p : Nat × Nat} (hp : L.parent h = some p) : ¬v.Depth L 0 h := by
    rintro rfl
    rw [w.root_parent] at hp
    cases hp
  induction n generalizing m h with
  | zero =>
    cases m with
    | zero => rfl
    | succ m =>
      have ⟨_, _, hp, _⟩ := hm
      exact absurd hn (hroot hp)
  | succ n hi =>
    have ⟨p, i, hp, hd⟩ := hn
    cases m with
    | zero => exact absurd hm (hroot hp)
    | succ m =>
      have ⟨p', i', hp', hd'⟩ := hm
      cases hp.symm.trans hp'
      rw [hi hd hd']

theorem Wf.depth_of_findIn (w : v.Wf V L) (hs : v.Shows d V) (hd : h ∈ L.dirs) (hn : NotDot name)
    (hf : v.findIn d h name = .ok (some e)) (he : ¬(!e.isDir ∨ e.firstCluster < 2)) (hdepth : v.Depth L n h) :
    e.firstCluster ∈ L.dirs ∧ v.Depth L (n + 1) e.firstCluster := by
  have ⟨_, _, l⟩ := w.located_of_findIn hs hd hn hf
  have ⟨_, _, _, _, hdc⟩ := w.listed_of_findIn hs hd hf
  have ⟨hm, hp⟩ := w.dir_of_dirEntry l he
  exact ⟨hm, e.dirCluster, e.dirIndex, hp, hdc.symm ▸ hdepth⟩

theorem Wf.depth_of_descend (w : v.Wf V L) (hs : v.Shows d V) (hd : h ∈ L.dirs) (hn : ∀ c ∈ comps, NotDot c)
    (hf : v.descend d h comps = .ok h') (hdepth : v.Depth L n h) : v.Depth L (n + comps.length) h' := by
  induction comps generalizing h n with
  | nil => exact Except.ok.inj hf ▸ hdepth
  | cons comp comps hi =>
    have ⟨e, ho, he, hf⟩ := descend_cons_eq_ok.mp hf
    have ⟨hm, hdepth⟩ := w.depth_of_findIn hs hd (hn comp (.head _)) ho he hdepth
    have := hi hm (fun c hc => hn c (.tail _ hc)) hf hdepth
    rwa [length_cons, ← Nat.add_assoc, Nat.add_right_comm]

section

variable (w : v.Wf V L) (hs : v.Shows d V)
variable (hother : ∀ h' ∈ L.dirs, h' ≠ h → v.scanDir d' h' = v.scanDir d h')
include w hs hother

theorem Wf.descend_of_others (hd : a ∈ L.dirs) (hn : ∀ c ∈ comps, NotDot c)
    (hf : v.descend d a comps = .ok h) (hdepth : v.Depth L n a) : v.descend d' a comps = .ok h := by
  induction comps generalizing a n with
  | nil => exact hf
  | cons comp comps hi =>
    have hne : a ≠ h := by
      rintro rfl
      have := w.depth_unique hdepth (w.depth_of_descend hs hd hn hf hdepth)
      rw [length_cons] at this
      omega
    have ⟨e, ho, he, hf⟩ := descend_cons_eq_ok.mp hf
    have ⟨hm, hdepth⟩ := w.depth_of_findIn hs hd (hn comp (.head _)) ho he hdepth
    refine descend_cons_eq_ok.mpr ⟨e, ?_, he, hi hm (fun c hc => hn c (.tail _ hc)) hf hdepth⟩
    rwa [findIn, hother a hd hne]

theorem Wf.resolve_of_others (hsplit : Vfs.splitPath path = some parts)
    (hlast : parts.getLast? = some name) (hdir : v.descend d v.rootCluster parts.dropLast = .ok h) :
    v.resolve d' path = (v.scanDir d' h).map fun es => (es.find? (matchesName name)).map .entry := by
  refine resolve_of_descend hsplit hlast (w.descend_of_others hs hother w.root (fun c hc => ?_) hdir (n := 0) rfl)
  exact Vfs.ne_dot_of_splitPath hsplit (dropLast_subset _ hc)

end

end depth

-- Two drives whose directories differ only in what files the entries name, and how.
structure SameNames (v : Fat32) (L : Layout) (f : RawEntry → RawEntry) (d d' : AtaDrive) : Prop where
  scan : ∀ {h}, h ∈ L.dirs → v.scanDir d' h = (v.scanDir d h).map (List.map f)
  name : ∀ e, (f e).name = e.name
  short : ∀ e, (f e).short = e.short
  isDir : ∀ e, (f e).isDir = e.isDir
  fixes : ∀ e, e.isDir = true → f e = e

namespace SameNames

variable {f : RawEntry → RawEntry}

theorem matchesName (r : SameNames v L f d d') (s : Text) (e : RawEntry) :
    Fat.matchesName s (f e) = Fat.matchesName s e := by
  simp [Fat.matchesName, r.name, r.short]

theorem findIn (r : SameNames v L f d d') (hd : h ∈ L.dirs) (s : Text) :
    v.findIn d' h s = (v.findIn d h s).map (Option.map f) := by
  have hp : Fat.matchesName s ∘ f = Fat.matchesName s := funext (r.matchesName s)
  show (v.scanDir d' h >>= fun es => .ok (es.find? (Fat.matchesName s))) = _
  rw [r.scan hd]
  cases hs : v.scanDir d h with
  | error e => simp [Fat32.findIn, hs, Except.map]
  | ok es =>
    simp only [Except.map, ok_bind, find?_map, hp, Fat32.findIn, hs]
    rfl

theorem descend (r : SameNames v L f d d') (w : v.Wf V L) (hs : v.Shows d V) (hd : h ∈ L.dirs)
    (hn : ∀ c ∈ comps, NotDot c) : v.descend d' h comps = v.descend d h comps := by
  induction comps generalizing h with
  | nil => rfl
  | cons comp comps hi =>
    rw [Fat32.descend, Fat32.descend, r.findIn hd comp]
    cases ho : v.findIn d h comp with
    | error e => rfl
    | ok o =>
      cases o with
      | none => rfl
      | some e =>
        simp only [Except.map, Option.map, ok_bind]
        by_cases he : e.isDir = true
        · rw [r.fixes e he]
          split_ifs with hb
          · rfl
          · have ⟨_, _, l⟩ := w.located_of_findIn hs hd (hn comp (.head _)) ho
            exact hi (w.mem_of_dirEntry l hb) fun c hc => hn c (.tail _ hc)
        · have he' : (f e).isDir = e.isDir := r.isDir e
          simp [he, he']

end SameNames
end Fat32

def Fat.Resolution.map (f : RawEntry → RawEntry) : Resolution → Resolution
  | .root => .root
  | .entry e => .entry (f e)

namespace Fat32.SameNames

variable {v : Fat32} {V : Vol} {L : Layout} {d d' : AtaDrive}
variable {f : RawEntry → RawEntry}

theorem resolve (r : SameNames v L f d d') (w : v.Wf V L) (hs : v.Shows d V) (path : Text) :
    v.resolve d' path = (v.resolve d path).map (Option.map (.map f)) := by
  unfold Fat32.resolve
  split
  · rfl
  rename_i parts hp
  have hn (c) (hc : c ∈ parts) : NotDot c := Vfs.ne_dot_of_splitPath hp hc
  split
  · rfl
  rename_i last hl
  have hn' (c) (hc : c ∈ parts.dropLast) : NotDot c := hn c (dropLast_subset _ hc)
  rw [r.descend w hs w.root hn']
  cases hdir : v.descend d v.rootCluster parts.dropLast with
  | error e => rfl
  | ok dir =>
    have hD := w.mem_of_descend hs w.root hn' hdir
    simp only [ok_bind, r.findIn hD last]
    cases v.findIn d dir last with
    | error e => rfl
    | ok o => cases o <;> rfl

theorem resolveParent (r : SameNames v L f d d') (w : v.Wf V L) (hs : v.Shows d V)
    (path : Text) : v.resolveParent d' path = v.resolveParent d path := by
  unfold Fat32.resolveParent
  split
  · rfl
  rename_i parts hp
  split
  · rfl
  · rw [r.descend w hs w.root fun c hc =>
      Vfs.ne_dot_of_splitPath hp (dropLast_subset _ hc)]

end Fat32.SameNames
