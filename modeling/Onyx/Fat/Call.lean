import Onyx.Fat.Lockstep
import Onyx.Lib.Relational

-- The calls of the driver that a file system makes available, on one volume and on two.

open Lib Fat Prog

namespace Fat

-- Times are those of the clock at the call.
inductive Call
  | writeAt (now : ℤ) (path : Text) (off : Nat) (buf : Bytes)
  | readAt (path : Text) (off len : Nat)
  | mkdir (now : ℤ) (path : Text)
  | list (path : Text)
  | stat (path : Text)
  | unlink (path : Text)
  | rename (src dst : Text)

inductive Reply
  | done
  | written (n : Nat)
  | bytes (b : Bytes)
  | entries (es : List DirEntry)
  | info (st : FileStat)
  deriving DecidableEq

end Fat

namespace Fat32

def exec (v : Fat32) : Call → FatM Reply
  | .writeAt now path off buf => do return .written (← v.writeAt now path off buf)
  | .readAt path off len => do return .bytes (← read (v.readAt · path off len))
  | .mkdir now path => do v.mkdir now path; return .done
  | .list path => do return .entries (← read (v.list · path))
  | .stat path => do return .info (← read (v.stat · path))
  | .unlink path => do v.unlink path; return .done
  | .rename src dst => do v.rename src dst; return .done

variable {v : Fat32} {d1 d2 : AtaDrive} {V1 V2 : Vol} {L : Layout} {now : ℤ} {path : Text}

theorem exec_writeAt (h : (v.writeAt now path off buf).run d = (.ok n, d')) :
    (v.exec (.writeAt now path off buf)).run d = (.ok (.written n), d') :=
  bind_run_ok h

theorem exec_readAt (h : v.readAt d path off len = .ok b) :
    (v.exec (.readAt path off len)).run d = (.ok (.bytes b), d) :=
  bind_run_ok (by rw [read_run, h])

theorem writeAt_run_of_none (hr : v.resolve d path = .ok none)
    (hp : v.resolveParent d path = .ok (h, name)) : (v.writeAt now path off buf).run d =
      (v.createEntry now h name 0 false >>= fun e => v.storeAt now e off buf).run d := by
  have ho : (v.openForWrite now path).run d = (v.createEntry now h name 0 false).run d := by
    simp [openForWrite, read_bind_run, hr, hp]
  exact bind_run_congr ho

section cases

variable {d d' : AtaDrive} {off : Nat} {buf : Bytes}

-- The path leads nowhere, and this is where it would be entered.
structure Missing (v : Fat32) (d : AtaDrive) (path : Text) (h : Nat) (name : Text) : Prop where
  none : v.resolve d path = .ok .none
  parent : v.resolveParent d path = .ok (h, name)

theorem not_missing_of_resolve (hr : v.resolve d path = r) (hne : r ≠ .ok none) (h : Nat) (name : Text) :
    ¬v.Missing d path h name :=
  fun m => hne (hr.symm.trans m.none)

-- A call is refused, or it goes on to the function that does what it is for.
theorem writeAt_cases (h : (v.writeAt now path off buf).run d = (r, d')) :
    (d' = d ∧ (∃ f, r = .error f) ∧ (∀ e, v.resolve d path = .ok (some (.entry e)) → e.isDir = true) ∧
      ∀ h name, ¬v.Missing d path h name) ∨
    (∃ e, v.resolve d path = .ok (some (.entry e)) ∧ e.isDir = false ∧ (v.storeAt now e off buf).run d = (r, d')) ∨
    ∃ h name, v.Missing d path h name ∧
      (v.createEntry now h name 0 false >>= fun e => v.storeAt now e off buf).run d = (r, d') := by
  unfold writeAt openForWrite at h
  rw [bind_assoc] at h
  obtain ⟨f, hr, rfl, rfl⟩ | ⟨o, hr, h⟩ := read_bind_cases h
  · exact .inl ⟨rfl, ⟨f, rfl⟩, by rw [hr]; nofun, not_missing_of_resolve hr nofun⟩
  match o with
  | some .root =>
    cases h
    exact .inl ⟨rfl, ⟨_, rfl⟩, by rw [hr]; nofun, not_missing_of_resolve hr nofun⟩
  | some (.entry e) =>
    simp only at h
    split_ifs at h with hd
    · cases h
      refine .inl ⟨rfl, ⟨_, rfl⟩, fun e' he' => ?_, not_missing_of_resolve hr nofun⟩
      cases hr.symm.trans he'
      exact hd
    · exact .inr (.inl ⟨e, hr, Bool.eq_false_iff.mpr hd, h⟩)
  | none =>
    rw [bind_assoc] at h
    obtain ⟨f, hp, rfl, rfl⟩ | ⟨⟨h', name⟩, hp, h⟩ := read_bind_cases h
    · exact .inl ⟨rfl, ⟨f, rfl⟩, by rw [hr]; nofun, fun _ _ m => nomatch hp.symm.trans m.parent⟩
    · exact .inr (.inr ⟨h', name, ⟨hr, hp⟩, h⟩)

theorem mkdir_cases (h : (v.mkdir now path).run d = (r, d')) :
    (d' = d ∧ (∃ f, r = .error f) ∧ ∀ h name, ¬v.Missing d path h name) ∨
      ∃ h name, v.Missing d path h name ∧ (v.makeDir now h name).run d = (r, d') := by
  obtain ⟨f, hr, rfl, rfl⟩ | ⟨o, hr, h⟩ := read_bind_cases h
  · exact .inl ⟨rfl, ⟨f, rfl⟩, not_missing_of_resolve hr nofun⟩
  match o with
  | some _ =>
    cases h
    exact .inl ⟨rfl, ⟨_, rfl⟩, not_missing_of_resolve hr nofun⟩
  | none =>
    obtain ⟨f, hp, rfl, rfl⟩ | ⟨⟨h', name⟩, hp, h⟩ := read_bind_cases h
    · exact .inl ⟨rfl, ⟨f, rfl⟩, fun _ _ m => nomatch hp.symm.trans m.parent⟩
    · exact .inr ⟨h', name, ⟨hr, hp⟩, h⟩

theorem unlink_cases (h : (v.unlink path).run d = (r, d')) : (d' = d ∧ ∃ f, r = .error f) ∨
    ∃ e, v.resolve d path = .ok (some (.entry e)) ∧ e.isDir = false ∧ (v.deleteEntry e).run d = (r, d') := by
  obtain ⟨f, _, rfl, rfl⟩ | ⟨o, hr, h⟩ := read_bind_cases h
  · exact .inl ⟨rfl, f, rfl⟩
  match o with
  | none | some .root =>
    cases h
    exact .inl ⟨rfl, _, rfl⟩
  | some (.entry e) =>
    simp only at h
    split_ifs at h with hd
    · cases h
      exact .inl ⟨rfl, _, rfl⟩
    · exact .inr ⟨e, hr, Bool.eq_false_iff.mpr hd, h⟩

theorem rename_cases (h : (v.rename src dst).run d = (r, d')) : (d' = d ∧ ∃ f, r = .error f) ∨
    (∃ e e', d' = d ∧ v.resolve d src = .ok (some (.entry e)) ∧ v.resolve d dst = .ok (some (.entry e')) ∧
      e'.dirCluster = e.dirCluster ∧ e'.dirIndex = e.dirIndex) ∨
    ∃ e name, v.resolve d src = .ok (some (.entry e)) ∧ v.Missing d dst e.dirCluster name ∧
      (v.moveEntry e name).run d = (r, d') := by
  obtain ⟨f, _, rfl, rfl⟩ | ⟨o, hr, h⟩ := read_bind_cases h
  · exact .inl ⟨rfl, f, rfl⟩
  match o with
  | none | some .root =>
    cases h
    exact .inl ⟨rfl, _, rfl⟩
  | some (.entry e) =>
    obtain ⟨f, _, rfl, rfl⟩ | ⟨o', hr', h⟩ := read_bind_cases h
    · exact .inl ⟨rfl, f, rfl⟩
    match o' with
    | some .root =>
      cases h
      exact .inl ⟨rfl, _, rfl⟩
    | some (.entry e') =>
      simp only at h
      split_ifs at h with hsame
      · cases h
        exact .inr (.inl ⟨e, e', rfl, hr, hr', hsame⟩)
      · cases h
        exact .inl ⟨rfl, _, rfl⟩
    | none =>
      obtain ⟨f, _, rfl, rfl⟩ | ⟨⟨h', name⟩, hp, h⟩ := read_bind_cases h
      · exact .inl ⟨rfl, f, rfl⟩
      simp only at h
      split_ifs at h with hne
      · cases h
        exact .inl ⟨rfl, _, rfl⟩
      · cases not_not.mp hne
        exact .inr (.inr ⟨e, name, hr, ⟨hr', hp⟩, h⟩)

end cases

def Alike (v : Fat32) (d1 d2 : AtaDrive) : Prop :=
  ∃ L V1 V2, v.Shows d1 V1 ∧ v.Shows d2 V2 ∧ v.Twin L V1 V2

theorem WellFormed.alike (w : v.WellFormed d) : v.Alike d d := by
  have ⟨V, L, hs, w⟩ := w
  exact ⟨L, V, V, hs, hs, .refl w⟩

theorem Alike.left (a : v.Alike d1 d2) : v.WellFormed d1 := by
  have ⟨L, V1, _, hs, _, t⟩ := a
  exact ⟨V1, L, hs, t.left⟩

theorem Does.agrees (hs1 : v.Shows d1 V1) (hs2 : v.Shows d2 V2) (h1 : v.Does p V1 r V1')
    (h2 : v.Does p V2 r V2') (ht : r ≠ abort → ∃ L, v.Twin L V1' V2') : Agrees v.Alike p d1 d2 :=
  .of_simulates hs1 hs2 h1 h2 fun hs1 hs2 hr =>
    have ⟨L, t⟩ := ht hr
    ⟨L, _, _, hs1, hs2, t⟩

namespace Twin

variable (t : v.Twin L V1 V2) (hs1 : v.Shows d1 V1) (hs2 : v.Shows d2 V2)
include t hs1 hs2

theorem alike : v.Alike d1 d2 :=
  ⟨L, V1, V2, hs1, hs2, t⟩

theorem scanDir (hh : h ∈ L.dirs) : v.scanDir d1 h = v.scanDir d2 h := by
  have ⟨cs, hc, h1⟩ := t.left.scanDir hs1 hh
  have hc2 := t.same.chain hc
  rw [h1, hs2.scanDir hc2 (t.right.chain_valid hh hc2), t.same.slots hh hc]

theorem sameNames : SameNames v L id d1 d2 where
  scan hh := by
    rw [← t.scanDir hs1 hs2 hh]
    cases v.scanDir d1 _ <;> simp [Except.map]
  name _ := rfl
  short _ := rfl
  isDir _ := rfl
  fixes _ _ := rfl

theorem resolve (path : Text) : v.resolve d1 path = v.resolve d2 path := by
  rw [(t.sameNames hs1 hs2).resolve t.left hs1]
  cases v.resolve d1 path with
  | error f => rfl
  | ok o => cases o with
    | none => rfl
    | some r => cases r <;> rfl

theorem resolveParent (path : Text) : v.resolveParent d1 path = v.resolveParent d2 path :=
  ((t.sameNames hs1 hs2).resolveParent t.left hs1 path).symm

theorem list (path : Text) : v.list d1 path = v.list d2 path := by
  have hdir {h} (hh : h ∈ L.dirs) : v.listDir d1 h = v.listDir d2 h := by
    rw [listDir, listDir, t.scanDir hs1 hs2 hh]
  unfold Fat32.list
  rw [← t.resolve hs1 hs2]
  cases hr : v.resolve d1 path with
  | error f => rfl
  | ok o =>
    match o with
    | none => rfl
    | some .root => exact hdir t.left.root
    | some (.entry e) =>
      simp only [ok_bind]
      split_ifs with hd
      · have ⟨_, _, l⟩ := t.left.located_of_resolve hs1 hr
        exact hdir (t.left.mem_of_dirEntry l (by simp only [hd.1, Bool.not_true, Bool.false_eq_true, false_or]; omega))
      · rfl

theorem stat (path : Text) : v.stat d1 path = v.stat d2 path := by
  unfold Fat32.stat
  rw [t.resolve hs1 hs2]

theorem readAt (path : Text) (off len : Nat) : v.readAt d1 path off len = v.readAt d2 path off len := by
  have hres := t.resolve hs1 hs2 path
  cases hr : v.resolve d1 path with
  | error f => simp [Fat32.readAt, ← hres, hr]
  | ok o =>
    rcases o with _ | _ | e
    · simp [Fat32.readAt, ← hres, hr]
    · simp [Fat32.readAt, ← hres, hr]
    cases hd : e.isDir with
    | true => simp [Fat32.readAt, ← hres, hr, hd]
    | false =>
      obtain ⟨dir, slot, l⟩ := t.left.located_of_resolve hs1 hr
      obtain ⟨cs, a⟩ := l.fileAt t.left hd
      cases a.storable.names with
      | inl hn => simp [Fat32.readAt, ← hres, hr, hd, hn.1]
      | inr hn =>
        rw [hs1.readAt hr hd hn.1 hn.2 a.storable.valid a.size_le,
          hs2.readAt (hres ▸ hr) hd hn.1 (t.same.chain hn.2) a.storable.valid a.size_le, t.content a]

theorem storeAt_agrees (a : v.FileAt V1 L e dir slot cs) (hk : v.Keeps e (off + buf.length))
    (hgap : off ≤ e.size ∨ V1 = V2) : Agrees v.Alike (v.storeAt now e off buf) d1 d2 := by
  by_cases hlt : off + buf.length < 2 ^ 32
  · have ⟨hr, ht⟩ := t.store a hs1 hs2 now hlt hk hgap
    exact Does.agrees hs1 hs2 (does_storeAt a.storable hlt now)
      (hr ▸ does_storeAt (t.fileAt a).storable hlt now) fun _ => ht
  unfold storeAt
  refine .bind (.lift (t.alike hs1 hs2)) fun n d1' d2' h1 h2 ha => ?_
  have hn : n = off + buf.length := (checked_eq_ok.mp (congrArg Prod.fst h1)).1
  rw [if_pos (by omega)]
  exact .lift ha

theorem createEntry_agrees (hh : h ∈ L.dirs) (hc : V1.Chain h cs) (hx : v.CleanRoom h (slotsFor name) V1 V2) :
    Agrees v.Alike (v.createEntry now h name 0 false) d1 d2 := by
  have ⟨r1, r2⟩ := t.dirChain hh hc
  have hd1 := does_createEntry r1 t.left.length_data now name 0 false
  have hd2 := does_createEntry r2 t.right.length_data now name 0 false
  have hres := t.create_result hh hc hx now 0 false
  rw [← hres] at hd2
  refine Does.agrees hs1 hs2 hd1 hd2 fun hr => ?_
  cases h1 : v.createVol now h cs name 0 false V1 with | mk res W1
  cases h2 : v.createVol now h cs name 0 false V2 with | mk res2 W2
  rw [h1, h2] at hres
  rw [h1] at hr
  cases hres
  match res with
  | .error .panic => exact absurd rfl hr
  | .error (.err f) =>
    cases createVol_err h1
    cases createVol_err h2
    exact ⟨_, t⟩
  | .ok e =>
    have ⟨_, he, _, _, _, _, _, _, _, ht⟩ := t.create hs1.geometry.links hh hc hx h1 (.file rfl)
    cases h2.symm.trans he
    exact ⟨_, ht⟩

theorem createAndStore_agrees (hh : h ∈ L.dirs) (hx : v.CleanRoom h (slotsFor name) V1 V2) (hgap : off = 0 ∨ V1 = V2) :
    Agrees v.Alike (v.createEntry now h name 0 false >>= fun e => v.storeAt now e off buf) d1 d2 := by
  have ⟨cs, hc, _⟩ := t.left.dirs hh
  have ⟨r1, r2⟩ := t.dirChain hh hc
  refine .bind (t.createEntry_agrees hs1 hs2 hh hc hx) fun e d1' d2' h1 h2 _ => ?_
  have ⟨he1, hs1'⟩ := (does_createEntry r1 t.left.length_data now name 0 false).run_eq hs1 h1
  have ⟨_, hs2'⟩ := (does_createEntry r2 t.right.length_data now name 0 false).run_eq hs2 h2
  cases hv1 : v.createVol now h cs name 0 false V1 with | mk res W1
  rw [hv1] at he1 hs1'
  cases he1
  have ⟨W2, hv2, short, lfn, new, k, hd, p, heq, t'⟩ := t.create hs1.geometry.links hh hc hx hv1 (.file rfl)
  rw [hv2] at hs2'
  have a := p.fileAt hd r1 t.left hh now
  rw [← heq] at a
  refine t'.storeAt_agrees hs1' hs2' a ?_ ?_
  · rw [heq]
    exact ⟨Nat.zero_le _, fun _ => rfl⟩
  · rw [heq]
    refine hgap.imp (fun h0 => by simp [h0]) fun hV => ?_
    subst hV
    exact congrArg Prod.snd (hv1.symm.trans hv2)

theorem unlink_agrees (path : Text) : Agrees v.Alike (v.unlink path) d1 d2 := by
  refine .read_bind (t.alike hs1 hs2) (t.resolve hs1 hs2 path) fun o ho => ?_
  match o with
  | none => exact .lift (t.alike hs1 hs2)
  | some .root => exact .lift (t.alike hs1 hs2)
  | some (.entry e) =>
    simp only
    split_ifs with hd
    · exact .lift (t.alike hs1 hs2)
    have ⟨dir, slot, l⟩ := t.left.located_of_resolve hs1 ho
    have ⟨cs, a⟩ := l.fileAt t.left (by simpa using hd)
    exact Does.agrees hs1 hs2 a.does_deleteEntry (t.fileAt a).does_deleteEntry fun _ => ⟨L, t.unlink a⟩

theorem makeDir_agrees (hh : h ∈ L.dirs) (hx : ∀ c, v.firstFree V1 = some c →
      v.CleanRoom h (slotsFor name) (V1.alloc none c) (V2.alloc none c)) :
    Agrees v.Alike (v.makeDir now h name) d1 d2 := by
  have ⟨cs, hc, _⟩ := t.left.dirs hh
  have ⟨hres, ht⟩ := t.mkdir hs1.geometry.links hh hc now hx
  exact Does.agrees hs1 hs2 (does_makeDir t.left hh hc)
    (hres ▸ does_makeDir t.right hh (t.same.chain hc)) ht

theorem moveEntry_agrees (l : Located V1 L e dir slot) (hx : v.CleanRoom e.dirCluster (slotsFor name) V1 V2) :
    Agrees v.Alike (v.moveEntry e name) d1 d2 := by
  have ⟨r1, r2⟩ := t.dirChain l.dir l.chain
  have l2 : Located V2 L e dir slot :=
    ⟨l.dir, r2.chain, t.same.slots l.dir l.chain ▸ l.index, l.live, l.notDot, l.entry⟩
  have ⟨hres, _⟩ := moveVol_follows (e := e) t.same.fat (t.same.dirs l.dir l.chain)
    (hx.of_searchRun r1 t.left.spc_pos (slotsFor_pos _))
  refine Does.agrees hs1 hs2 (does_moveEntry t.left l) (hres ▸ does_moveEntry t.right l2) fun hr => ?_
  cases h1 : v.moveVol e dir name V1 with | mk res W1
  cases h2 : v.moveVol e dir name V2 with | mk res2 W2
  rw [h1, h2] at hres
  rw [h1] at hr
  cases hres
  match res with
  | .error .panic => exact absurd rfl hr
  | .error (.err f) =>
    cases moveVol_err h1
    cases moveVol_err h2
    exact ⟨_, t⟩
  | .ok u =>
    have ⟨_, he, ht⟩ := t.move hs1.geometry.links l hx h1
    cases h2.symm.trans he
    exact ht

end Twin

-- The call makes an entry `name` in directory `h` of `V`.
def Enters (v : Fat32) (d : AtaDrive) (h : Nat) (name : Text) (V : Vol) : Call → Prop
  | .writeAt _ path _ _ =>
    v.resolve d path = .ok none ∧ v.resolveParent d path = .ok (h, name) ∧ V = v.vol d
  | .mkdir _ path =>
    v.resolve d path = .ok none ∧ v.resolveParent d path = .ok (h, name) ∧
      ∃ c, v.firstFree (v.vol d) = some c ∧ V = (v.vol d).alloc none c
  | .rename _ dst =>
    v.resolve d dst = .ok none ∧ v.resolveParent d dst = .ok (h, name) ∧ V = v.vol d
  | _ => False

def Rewrites (v : Fat32) (d : AtaDrive) (e : RawEntry) (off len : Nat) : Call → Prop
  | .writeAt _ path off' buf =>
    v.resolve d path = .ok (some (.entry e)) ∧ e.isDir = false ∧ off' = off ∧ buf.length = len
  | _ => False

structure Tidy (v : Fat32) (d : AtaDrive) (c : Call) : Prop where
  keeps : ∀ {e off len}, v.Rewrites d e off len c → v.Keeps e (off + len)
  clean : ∀ {h name V x}, v.Enters d h name V c → v.Extension h (slotsFor name) V x →
    Placed.CleanTail V [x] (slotsFor name)

-- No write behind the end of a file, and directories grow alike on both drives.
structure Blind (v : Fat32) (d1 d2 : AtaDrive) (c : Call) : Prop where
  inside : ∀ {e off len}, v.Rewrites d1 e off len c → off ≤ e.size
  start : ∀ {now path off buf}, c = .writeAt now path off buf → v.resolve d1 path = .ok none → off = 0
  clean : ∀ {h name V x}, v.Enters d1 h name V c → v.Extension h (slotsFor name) V x →
    (v.vol d1).data x = (v.vol d2).data x

theorem Tidy.cleanRoom (hT : v.Tidy d1 c) (hB : v.Blind d1 d2 c ∨ d1 = d2) (he : v.Enters d1 h name V1 c)
    (h1 : V1.data = (v.vol d1).data) (h2 : V2.data = (v.vol d2).data) : v.CleanRoom h (slotsFor name) V1 V2 := by
  intro x hx
  refine ⟨hT.clean he hx, ?_⟩
  rw [h1, h2]
  cases hB with
  | inl hB => exact hB.clean he hx
  | inr heq => rw [heq]

section calls

variable (t : v.Twin L (v.vol d1) (v.vol d2)) (hs1 : v.Shows d1 (v.vol d1)) (hs2 : v.Shows d2 (v.vol d2))
include t hs1 hs2

theorem writeAt_agrees (hT : v.Tidy d1 (.writeAt now path off buf))
    (hB : v.Blind d1 d2 (.writeAt now path off buf) ∨ d1 = d2) :
    Agrees v.Alike (v.writeAt now path off buf) d1 d2 := by
  have ha := t.alike hs1 hs2
  -- A lookup that fails leaves nothing to do.
  have hfail {e : FsError} : Agrees v.Alike (lift (fail e) >>= fun e => v.storeAt now e off buf) d1 d2 :=
    .bind (.lift ha) fun _ _ _ h1 => by cases h1
  unfold writeAt openForWrite
  rw [bind_assoc]
  refine .read_bind ha (t.resolve hs1 hs2 path) fun o hr => ?_
  match o with
  | some .root => exact hfail
  | some (.entry e) =>
    simp only
    split_ifs with hd
    · exact hfail
    rw [pure_bind]
    have hd : e.isDir = false := by simpa using hd
    obtain ⟨dir, slot, l⟩ := t.left.located_of_resolve hs1 hr
    obtain ⟨cs, a⟩ := l.fileAt t.left hd
    refine t.storeAt_agrees hs1 hs2 a (hT.keeps ⟨hr, hd, rfl, rfl⟩) ?_
    exact hB.imp (fun hB => hB.inside ⟨hr, hd, rfl, rfl⟩) fun heq => by rw [heq]
  | none =>
    rw [bind_assoc]
    refine .read_bind ha (t.resolveParent hs1 hs2 path) fun q hp => ?_
    refine t.createAndStore_agrees hs1 hs2 (t.left.mem_of_resolveParent hs1 hp) ?_ ?_
    · exact hT.cleanRoom hB ⟨hr, hp, rfl⟩ rfl rfl
    · exact hB.imp (fun hB => hB.start rfl hr) fun heq => by rw [heq]

theorem mkdir_agrees (hT : v.Tidy d1 (.mkdir now path)) (hB : v.Blind d1 d2 (.mkdir now path) ∨ d1 = d2) :
    Agrees v.Alike (v.mkdir now path) d1 d2 := by
  have ha := t.alike hs1 hs2
  refine .read_bind ha (t.resolve hs1 hs2 path) fun o hr => ?_
  match o with
  | some _ => exact .lift ha
  | none =>
    refine .read_bind ha (t.resolveParent hs1 hs2 path) fun q hp => ?_
    refine t.makeDir_agrees hs1 hs2 (t.left.mem_of_resolveParent hs1 hp) fun c hf => ?_
    exact hT.cleanRoom hB ⟨hr, hp, c, hf, rfl⟩ Vol.alloc_data Vol.alloc_data

theorem rename_agrees (hT : v.Tidy d1 (.rename src dst)) (hB : v.Blind d1 d2 (.rename src dst) ∨ d1 = d2) :
    Agrees v.Alike (v.rename src dst) d1 d2 := by
  have ha := t.alike hs1 hs2
  refine .read_bind ha (t.resolve hs1 hs2 src) fun o hr => ?_
  match o with
  | none => exact .lift ha
  | some .root => exact .lift ha
  | some (.entry e) =>
    refine .read_bind ha (t.resolve hs1 hs2 dst) fun o hr' => ?_
    match o with
    | some .root => exact .lift ha
    | some (.entry e') =>
      simp only
      split_ifs
      · exact .pure ha
      · exact .lift ha
    | none =>
      refine .read_bind ha (t.resolveParent hs1 hs2 dst) fun q hp => ?_
      have ⟨h, name⟩ := q
      simp only
      split_ifs with hne
      · exact .lift ha
      have ⟨dir, slot, l⟩ := t.left.located_of_resolve hs1 hr
      refine t.moveEntry_agrees hs1 hs2 l ?_
      exact not_not.mp hne ▸ hT.cleanRoom hB ⟨hr', hp, rfl⟩ rfl rfl

end calls

theorem Alike.exec (ha : v.Alike d1 d2) (hT : v.Tidy d1 c) (hB : v.Blind d1 d2 c ∨ d1 = d2) :
    Agrees v.Alike (v.exec c) d1 d2 := by
  have ⟨L, V1, V2, hs1, hs2, t⟩ := ha
  cases hs1.vol
  cases hs2.vol
  have hread {α : Type} {g : AtaDrive → Result FsError α} {f : α → Reply} (hg : g d1 = g d2) :
      Agrees v.Alike (do return f (← read g)) d1 d2 :=
    .read_bind ha hg fun _ _ => .pure ha
  have hdone {α : Type} {p : FatM α} {f : α → Reply} (hp : Agrees v.Alike p d1 d2) :
      Agrees v.Alike (do return f (← p)) d1 d2 :=
    .bind hp fun _ _ _ _ _ ha => .pure ha
  cases c with
  | writeAt now path off buf => exact hdone (writeAt_agrees t hs1 hs2 hT hB)
  | readAt path off len => exact hread (t.readAt hs1 hs2 path off len)
  | mkdir now path => exact hdone (mkdir_agrees t hs1 hs2 hT hB)
  | list path => exact hread (t.list hs1 hs2 path)
  | stat path => exact hread (t.stat hs1 hs2 path)
  | unlink path => exact hdone (t.unlink_agrees hs1 hs2 path)
  | rename src dst => exact hdone (rename_agrees t hs1 hs2 hT hB)

end Fat32
