import Onyx.Fat.Call
import Onyx.Fat.Listing
import Onyx.Fat.NewName

-- What `rename` leaves as it was, and when it does.

open Lib Fat List Bytes Option

namespace Fat

-- The times of a slot as they are stored: creation with its tenths, access and write.
def slotStamp (slot : Bytes) : Bytes := slot.slice 13 7 ++ slot.slice 22 4

def Stamp.bytes (t : Stamp) : Bytes :=
  0 :: (toLe 2 t.ctime ++ toLe 2 t.cdate ++ toLe 2 t.adate ++ toLe 2 t.wtime ++ toLe 2 t.wdate)

theorem slotStamp_packSlot (hl : short.length = 11) :
    slotStamp (packSlot short attr first size t) = t.bytes := by
  simp [slotStamp, Stamp.bytes, packSlot, slice, drop_append, drop_eq_nil_of_le, hl, toLe]

-- The words that a time is stored as.
def dateWord (secs : Nat) : Bytes := toLe 2 (unixToFatTimeDate secs).2

def timeWords (secs : Nat) : Bytes := toLe 2 (unixToFatTimeDate secs).1 ++ dateWord secs

structure StampKept (slot : Bytes) : Prop where
  midnight : slot.slice 13 3 = [0, 0, 0]
  dates : (slot.slice 16 2 = [0, 0] ∧ slot.slice 18 2 = [0, 0] ∧ slot.slice 22 4 = [0, 0, 0, 0]) ∨
    fatDateToUnix (slot.u16At 16) ≠ 0 ∧ slot.slice 16 2 = dateWord (fatDateToUnix (slot.u16At 16)) ∧
      slot.slice 18 2 = dateWord (fatDateToUnix (slot.u16At 18)) ∧ slot.slice 22 4 = timeWords (slotMtime slot)

theorem fatDateToUnix_cases (d : Nat) : fatDateToUnix d % 86400 = 0 ∨ fatDateToUnix d = 2 ^ 32 - 1 := by
  unfold fatDateToUnix
  dsimp only
  split_ifs
  · exact .inl rfl
  · exact .inl rfl
  unfold DateTime.toUnix
  split_ifs
  · exact .inl rfl
  · simp only [DateTime.secsOfDay, DateTime.zeroed, getD_some]
    omega

theorem time_of_midnight (h : secs % 86400 = 0) : (unixToFatTimeDate (secs : Nat)).1 = 0 := by
  have hsod : ((secs : ℤ) % 86400).toNat = 0 := by omega
  have hzero : (DateTime.fromUnix secs).hour = 0 ∧ (DateTime.fromUnix secs).minute = 0 ∧
      (DateTime.fromUnix secs).second = 0 := by
    unfold DateTime.fromUnix
    rw [hsod]
    split_ifs <;> exact ⟨rfl, rfl, rfl⟩
  unfold unixToFatTimeDate
  dsimp only
  rw [hzero.1, hzero.2.1, hzero.2.2]
  split_ifs <;> rfl

-- The last second that a date is decoded to belongs to a date with another one.
theorem time_of_dateWord {slot : Bytes} (h : slot.slice 16 2 = dateWord (fatDateToUnix (slot.u16At 16))) :
    (unixToFatTimeDate (fatDateToUnix (slot.u16At 16))).1 = 0 := by
  refine time_of_midnight ((fatDateToUnix_cases _).resolve_right fun hlast => ?_)
  have hd : slot.u16At 16 = ofLe (dateWord (fatDateToUnix (slot.u16At 16))) := congrArg ofLe h
  rw [hlast] at hd
  rw [hd] at hlast
  exact absurd hlast (by decide +kernel)

theorem slotStamp_eq_iff (hl : slot.length = 32) (hx : x.length = 3) (hy : y.length = 2)
    (hz : z.length = 2) : slotStamp slot = x ++ (y ++ (z ++ w)) ↔
      slot.slice 13 3 = x ∧ slot.slice 16 2 = y ∧ slot.slice 18 2 = z ∧ slot.slice 22 4 = w := by
  have hsplit : slotStamp slot = slot.slice 13 3 ++ (slot.slice 16 2 ++ (slot.slice 18 2 ++ slot.slice 22 4)) := by
    have h7 : slot.slice 13 7 = slot.slice 13 3 ++ (slot.slice 16 2 ++ slot.slice 18 2) := by
      simp [slice, take_add (i := 3) (j := 4), take_add (i := 2) (j := 2)]
    rw [slotStamp, h7, append_assoc, append_assoc]
  have hlen : ∀ o n, o + n ≤ 32 → (slot.slice o n).length = n := fun o n h => by
    rw [length_slice, hl]
    omega
  rw [hsplit]
  constructor
  · intro h
    obtain ⟨hx', h⟩ := append_inj h (by rw [hlen 13 3 (by decide), hx])
    obtain ⟨hy', h⟩ := append_inj h (by rw [hlen 16 2 (by decide), hy])
    obtain ⟨hz', h⟩ := append_inj h (by rw [hlen 18 2 (by decide), hz])
    exact ⟨hx', hy', hz', h⟩
  · rintro ⟨rfl, rfl, rfl, rfl⟩
    rfl

theorem stampKept_iff {slot : Bytes} (hl : slot.length = 32) :
    slotStamp slot = (Stamp.ofEntry (entryOf c run slot i)).bytes ↔ StampKept slot := by
  by_cases hz : (entryOf c run slot i).ctime = 0
  · have hbytes : (Stamp.ofEntry (entryOf c run slot i)).bytes = [0, 0, 0] ++ ([0, 0] ++ ([0, 0] ++ [0, 0, 0, 0])) := by
      rw [Stamp.ofEntry, if_pos hz]
      rfl
    rw [hbytes, slotStamp_eq_iff hl rfl rfl rfl]
    exact ⟨fun h => ⟨h.1, .inl h.2⟩, fun h => ⟨h.midnight, h.dates.resolve_right fun hd => hd.1 hz⟩⟩
  · have hbytes : (Stamp.ofEntry (entryOf c run slot i)).bytes =
        (0 :: toLe 2 (unixToFatTimeDate (fatDateToUnix (slot.u16At 16))).1) ++
          (dateWord (fatDateToUnix (slot.u16At 16)) ++
            (dateWord (fatDateToUnix (slot.u16At 18)) ++ timeWords (slotMtime slot))) := by
      rw [Stamp.ofEntry, if_neg hz]
      rfl
    rw [hbytes, slotStamp_eq_iff hl rfl rfl rfl]
    constructor
    · rintro ⟨hm, hc, ha, hw⟩
      rw [time_of_dateWord hc] at hm
      exact ⟨hm, .inr ⟨hz, hc, ha, hw⟩⟩
    · intro h
      obtain ⟨hc, _⟩ | ⟨_, hc, hd⟩ := h.dates
      · have hnone : fatDateToUnix (slot.u16At 16) = 0 := by
          rw [u16At, hc]
          rfl
        exact absurd hnone hz
      · rw [time_of_dateWord hc]
        exact ⟨h.midnight, hc, hd⟩
structure SameFile (slot slot' : Bytes) : Prop where
  first : slotFirst slot' = slotFirst slot
  size : slotSize slot' = slotSize slot
  attr : slotAttr slot' = slotAttr slot
  stamp : slotStamp slot' = slotStamp slot

end Fat

namespace Fat32

variable {v : Fat32} {V : Vol} {L : Layout} {d d' : AtaDrive} {e : RawEntry} {slot short : Bytes} {lfn : List Bytes}
variable {dir new : List Nat} {k : Nat} {name s : Text}

-- The slot at an index of the directory that starts at cluster `h`.
def SlotAt (v : Fat32) (d : AtaDrive) (h i : Nat) (slot : Bytes) : Prop :=
  ∃ cs, (v.vol d).Chain h cs ∧ ((v.vol d).slots cs)[i]? = some slot

theorem Shows.slotAt_iff (hs : v.Shows d V) (hc : V.Chain h dir) : v.SlotAt d h i slot ↔ (V.slots dir)[i]? = some slot := by
  rw [SlotAt, hs.vol]
  constructor
  · rintro ⟨cs, hc', hget⟩
    rwa [hc.unique hc']
  · exact fun hget => ⟨dir, hc, hget⟩

-- The directory of an entry lists another one in its place, for the same file.
structure Relisted (v : Fat32) (d d' : AtaDrive) (e : RawEntry) (name : Text) (e' : RawEntry) : Prop where
  listing : ∃ es es', v.scanDir d e.dirCluster = .ok es ∧ v.scanDir d' e.dirCluster = .ok es' ∧
    es'.Perm (e' :: es.filter (·.dirIndex ≠ e.dirIndex))
  name : Carries name e'
  stored : ∃ slot slot', v.SlotAt d e.dirCluster e.dirIndex slot ∧ v.SlotAt d' e.dirCluster e'.dirIndex slot' ∧ SameFile slot slot'

structure RenameFrame (v : Fat32) (L : Layout) (d d' : AtaDrive) (e : RawEntry) (name src : Text) : Prop where
  dir : ∃ e', v.Relisted d d' e name e'
  others : ∀ h ∈ L.dirs, h ≠ e.dirCluster → v.scanDir d' h = v.scanDir d h
  files : v.KeepsFiles L d d' fun _ => True
  gone : v.resolve d' src = .ok none

def FirstPlace (v : Fat32) (V : Vol) (cs : List Nat) (need : Nat) (new : List Nat) (k : Nat) : Prop :=
  new = [] ∧ v.IsPlace (V.slots cs) need k ∧ (∀ k', v.IsPlace (V.slots cs) need k' → k ≤ k') ∨
    ∃ c, new = [c] ∧ v.firstFree V = some c ∧ k = (V.slots cs).length ∧ ∀ k', ¬v.IsPlace (V.slots cs) need k'

structure Renamable (V : Vol) (e : RawEntry) (s name : Text) (dir : List Nat) (slot short : Bytes) (lfn : List Bytes)
    (new : List Nat) (k : Nat) : Prop where
  -- A scan comes to the new slots, can count so far, and shows nothing new behind them.
  seen : Endless ((V.slots dir).take k)
  index : k + lfn.length < 2 ^ 32
  covers : Placed.Within V dir new k (lfn.length + 1) ∨ Placed.Bare (Placed.behind V dir new (k + (lfn.length + 1)))
  kept : Kept ((V.slots dir).take k) name short
  -- The attributes are those that a rebuilt slot has, and the times outlive it.
  attr : slotAttr slot = entryAttr e.isDir
  stamp : StampKept slot
  -- Neither another entry nor the new one answers to the old name.
  alone : ∀ e' ∈ entriesOf e.dirCluster (V.slots dir), matchesName s e' = true → e'.dirIndex = e.dirIndex
  other : eqIgnoreAsciiCase (shortName short) s = false

theorem eq_of_perm_cons {a b : RawEntry} (h : (a :: l).Perm (b :: l)) : a = b := by
  by_contra hne
  have := h.count_eq a
  rw [count_cons_self, count_cons_of_ne (Ne.symm hne)] at this
  omega

def movedEntry (V : Vol) (e : RawEntry) (dir : List Nat) (short : Bytes) (lfn : List Bytes) (k : Nat) : RawEntry :=
  entryOf e.dirCluster (pendingRun .empty ((V.slots dir).take k ++ lfn))
    (packSlot short (entryAttr e.isDir) e.firstCluster e.size (.ofEntry e)) (k + lfn.length)

section move

variable {V2 : Vol} (w : v.Wf V L) (l : Located V L e dir slot) (hd : Derived name short lfn)
variable (p : v.Placed V dir new k
  (lfn ++ [packSlot short (entryAttr e.isDir) e.firstCluster e.size (.ofEntry e)]) V2)
variable (hlfn : ∀ s ∈ lfn, slotAttr s = attrLfn ∧ slotMark s ≠ slotEnd) (he : e ∈ entriesOf e.dirCluster (V.slots dir))
include w l hd p hlfn he

theorem entriesOf_moved : entriesOf e.dirCluster ((v.removeVol (dir ++ new) e.dirIndex V2).slots (dir ++ new)) =
    (entriesOf e.dirCluster (V2.slots (dir ++ new))).filter (·.dirIndex ≠ e.dirIndex) := by
  have r2 := p.dirChain (w.dirChain l.dir l.chain) w.length_data
  have hidx := p.getElem?_of_used l.index (not_isFreeSlot_of_isLive l.live)
  have hlt := (List.getElem?_eq_some_iff.mp l.index).1
  have hrun : Endless (lfn ++ [packSlot short (entryAttr e.isDir) e.firstCluster e.size (.ofEntry e)]) := by
    intro s hs
    rcases mem_append.mp hs with hs | hs
    · exact (hlfn s hs).2
    · rw [mem_singleton.mp hs]
      exact (isLive_iff.mp hd.isLive).1
  have hend := p.endless_take hrun (Nat.le_of_lt hlt) (endless_of_mem_entriesOf he)
  rw [r2.slots_removeVol w.spc_pos (List.getElem?_eq_some_iff.mp hidx).1]
  exact entriesOf_delSlots hidx l.live hend (r2.length_mem_slots w.spc_pos)
    (n := v.clearedCount (V2.slots (dir ++ new)) e.dirIndex) (Nat.min_le_right ..)

theorem entriesOf_moved_hidden (hend : ¬Endless ((V.slots dir).take k)) :
    entriesOf e.dirCluster ((v.removeVol (dir ++ new) e.dirIndex V2).slots (dir ++ new)) =
      (entriesOf e.dirCluster (V.slots dir)).filter (·.dirIndex ≠ e.dirIndex) := by
  rw [entriesOf_moved w l hd p hlfn he, p.entriesOf_hidden hend]

theorem perm_moved (hend : Endless ((V.slots dir).take k)) :
    (entriesOf e.dirCluster ((v.removeVol (dir ++ new) e.dirIndex V2).slots (dir ++ new))).Perm
      (movedEntry V e dir short lfn k :: ((entriesOf e.dirCluster (V.slots dir)).filter (·.dirIndex ≠ e.dirIndex) ++
        Placed.revealed V e.dirCluster dir new k (lfn.length + 1))) := by
  have hkeep : decide ((movedEntry V e dir short lfn k).dirIndex ≠ e.dirIndex) = true :=
    decide_eq_true (p.dirIndex_ne he).symm
  have hrest : ∀ e' ∈ Placed.revealed V e.dirCluster dir new k (lfn.length + 1), decide (e'.dirIndex ≠ e.dirIndex) = true :=
    fun e' he' => decide_eq_true (p.ne_of_revealed hend he he')
  have hall := (p.perm_shown (h := e.dirCluster) hend hlfn hd.isLive).filter (·.dirIndex ≠ e.dirIndex)
  rw [← movedEntry, filter_cons_of_pos (p := fun e' : RawEntry => decide (e'.dirIndex ≠ e.dirIndex)) hkeep,
    filter_append, filter_eq_self.mpr hrest] at hall
  rw [entriesOf_moved w l hd p hlfn he]
  exact hall

section listed

variable (hs : v.Shows d V) (hs' : v.Shows d' (v.removeVol (dir ++ new) e.dirIndex V2))
variable (hsmall : ∀ e' ∈ entriesOf e.dirCluster (V.slots dir), e'.dirIndex < 2 ^ 32)
include hs hs' hsmall

omit hd hlfn he hs hsmall in
theorem scanDir_moved : v.scanDir d' e.dirCluster =
    checkIndices (entriesOf e.dirCluster ((v.removeVol (dir ++ new) e.dirIndex V2).slots (dir ++ new))) := by
  have E := edit_moved w l p
  exact hs'.scanDir E.chain fun c hc => E.valid (E.chain_owner c hc)

omit hd p hlfn he hs' in
theorem scanDir_before : v.scanDir d e.dirCluster = .ok (entriesOf e.dirCluster (V.slots dir)) := by
  rw [hs.scanDir l.chain (w.chain_valid l.dir l.chain)]
  exact checkIndices_eq_ok.mpr ⟨rfl, hsmall⟩

theorem relisting_iff (e' : RawEntry) :
    (∃ es es', v.scanDir d e.dirCluster = .ok es ∧ v.scanDir d' e.dirCluster = .ok es' ∧
        es'.Perm (e' :: es.filter (·.dirIndex ≠ e.dirIndex))) ↔
      e' = movedEntry V e dir short lfn k ∧ Endless ((V.slots dir).take k) ∧ k + lfn.length < 2 ^ 32 ∧
        (Placed.Within V dir new k (lfn.length + 1) ∨ Placed.Bare (Placed.behind V dir new (k + (lfn.length + 1)))) := by
  rw [scanDir_moved w l p hs', scanDir_before w l hs hsmall, ← Placed.revealed_eq_nil_iff (h := e.dirCluster)]
  constructor
  · rintro ⟨es, es', hes, hscan', hperm⟩
    cases hes
    obtain ⟨rfl, hsmall'⟩ := checkIndices_eq_ok.mp hscan'
    have hend : Endless ((V.slots dir).take k) := by
      by_contra hend
      rw [entriesOf_moved_hidden w l hd p hlfn he hend] at hperm
      have := hperm.length_eq
      rw [length_cons] at this
      omega
    have hmoved := perm_moved w l hd p hlfn he hend
    have hnil : Placed.revealed V e.dirCluster dir new k (lfn.length + 1) = [] := by
      have := (hperm.symm.trans hmoved).length_eq
      rw [length_cons, length_cons, length_append] at this
      exact eq_nil_of_length_eq_zero (by omega)
    rw [hnil, append_nil] at hmoved
    exact ⟨eq_of_perm_cons (hperm.symm.trans hmoved), hend, hsmall' _ (hmoved.symm.mem_iff.mp (mem_cons_self ..)), hnil⟩
  · rintro ⟨rfl, hend, hidx, hnil⟩
    have hmoved := perm_moved w l hd p hlfn he hend
    rw [hnil, append_nil] at hmoved
    refine ⟨_, _, rfl, checkIndices_eq_ok.mpr ⟨rfl, fun e' he' => ?_⟩, hmoved⟩
    rcases mem_cons.mp (hmoved.mem_iff.mp he') with rfl | he'
    · exact hidx
    · exact hsmall e' (mem_of_mem_filter he')

omit hlfn hsmall in
theorem stored_iff :
    (∃ slot0 slot', v.SlotAt d e.dirCluster e.dirIndex slot0 ∧ v.SlotAt d' e.dirCluster (k + lfn.length) slot' ∧
        SameFile slot0 slot') ↔ slotAttr slot = entryAttr e.isDir ∧ StampKept slot := by
  have r2 := p.dirChain (w.dirChain l.dir l.chain) w.length_data
  have hidx := p.getElem?_of_used l.index (not_isFreeSlot_of_isLive l.live)
  have hput : (V2.slots (dir ++ new))[k + lfn.length]? =
      some (packSlot short (entryAttr e.isDir) e.firstCluster e.size (.ofEntry e)) := by
    rw [p.slots, getElem?_overwrite p.fits]
    simp
  have hnew := (r2.erased_removeVol w.spc_pos (List.getElem?_eq_some_iff.mp hidx).1).getElem?_of_live hput
    (p.dirIndex_ne he).symm hd.isLive
  simp only [hs.slotAt_iff l.chain, hs'.slotAt_iff (edit_moved w l p).chain, l.index, hnew, some.injEq]
  have hkept : slotStamp slot = (Stamp.ofEntry e).bytes ↔ StampKept slot := by
    have ⟨run, hentry⟩ := l.entry
    rw [hentry]
    exact stampKept_iff ((w.dirChain l.dir l.chain).length_mem_slots w.spc_pos _ (mem_of_getElem? l.index))
  rw [← hkept]
  constructor
  · rintro ⟨_, _, rfl, rfl, hsame⟩
    have hattr := hsame.attr
    have hstamp := hsame.stamp
    rw [slotAttr_packSlot hd.length_short] at hattr
    rw [slotStamp_packSlot hd.length_short] at hstamp
    exact ⟨hattr.symm, hstamp.symm⟩
  · rintro ⟨hattr, hstamp⟩
    refine ⟨slot, _, rfl, rfl, ?_, ?_, ?_, ?_⟩
    · rw [slotFirst_packSlot hd.length_short (l.firstCluster ▸ slotFirst_lt slot), l.firstCluster]
    · rw [slotSize_packSlot hd.length_short (l.size ▸ slotSize_lt slot), l.size]
    · rw [slotAttr_packSlot hd.length_short, hattr]
    · rw [slotStamp_packSlot hd.length_short, hstamp]

omit hd hlfn he hsmall in
theorem scanDir_others (hh : h ∈ L.dirs) (hne : h ≠ e.dirCluster) : v.scanDir d' h = v.scanDir d h :=
  w.scanDir_of_frame hs hs' l.dir l.chain (fun _ hf hc => frame_moved p hf hc) hh hne

omit hlfn he hsmall in
theorem gone_iff (hsplit : Vfs.splitPath src = some parts) (hlast : parts.getLast? = some s)
    (hdir : v.descend d v.rootCluster parts.dropLast = .ok e.dirCluster) (hmatch : matchesName s e = true)
    (hno : matchesName name e = false) (hcarries : eqIgnoreAsciiCase (movedEntry V e dir short lfn k).name name = true)
    (hscan' : v.scanDir d' e.dirCluster = .ok es') (hperm : es'.Perm (movedEntry V e dir short lfn k ::
      (entriesOf e.dirCluster (V.slots dir)).filter (·.dirIndex ≠ e.dirIndex))) : v.resolve d' src = .ok none ↔
      (∀ e' ∈ entriesOf e.dirCluster (V.slots dir), matchesName s e' = true → e'.dirIndex = e.dirIndex) ∧
        eqIgnoreAsciiCase (shortName short) s = false := by
  have hres := w.resolve_of_others hs (fun _ hh hne => scanDir_others w l p hs hs' hh hne) hsplit hlast hdir
  have hshort : (movedEntry V e dir short lfn k).short = shortName short := shortName_packSlot hd.length_short
  have hname : eqIgnoreAsciiCase (movedEntry V e dir short lfn k).name s = false := by
    refine Bool.eq_false_iff.mpr fun heq => ?_
    rw [eqIgnoreAsciiCase_iff] at heq hcarries
    rw [matchesName_congr (eqIgnoreAsciiCase_iff.mpr (heq.symm.trans hcarries)), hno] at hmatch
    cases hmatch
  rw [hres, hscan']
  show Except.ok _ = _ ↔ _
  rw [Except.ok.injEq, map_eq_none_iff, find?_eq_none]
  constructor
  · intro hnone
    have hmem (e') (he' : e' ∈ movedEntry V e dir short lfn k ::
        (entriesOf e.dirCluster (V.slots dir)).filter (·.dirIndex ≠ e.dirIndex)) := hnone e' (hperm.mem_iff.mpr he')
    refine ⟨fun e' he' hm => ?_, ?_⟩
    · by_contra hne
      exact hmem e' (mem_cons_of_mem _ (mem_filter.mpr ⟨he', decide_eq_true hne⟩)) hm
    · have := hmem _ (mem_cons_self ..)
      rw [matchesName, hname, hshort, Bool.false_or] at this
      exact Bool.eq_false_iff.mpr this
  · rintro ⟨halone, hother⟩ e' he' hm
    rcases mem_cons.mp (hperm.mem_iff.mp he') with rfl | he'
    · rw [matchesName, hname, hshort, hother] at hm
      cases hm
    · obtain ⟨hmem, hne⟩ := mem_filter.mp he'
      exact of_decide_eq_true hne (halone e' hmem hm)

theorem renameFrame_iff (hder : deriveFrom scan name ex = .ok (short, lfn)) (hlen : name.len ≤ 255)
    (hsplit : Vfs.splitPath src = some parts) (hlast : parts.getLast? = some s)
    (hdir : v.descend d v.rootCluster parts.dropLast = .ok e.dirCluster) (hmatch : matchesName s e = true)
    (hno : matchesName name e = false) :
    v.RenameFrame L d d' e name src ↔ Renamable V e s name dir slot short lfn new k := by
  have hlist := relisting_iff w l hd p hlfn he hs hs' hsmall
  have hstored := stored_iff w l hd p he hs hs'
  have hcarries : Carries name (movedEntry V e dir short lfn k) ↔ _ := carries_new_iff hder hlen
  constructor
  · intro f
    have ⟨e', r⟩ := f.dir
    obtain ⟨rfl, hend, hidx, hcov⟩ := (hlist e').mp r.listing
    have ⟨es, es', hes, hes', hperm⟩ := r.listing
    have ⟨hattr, hstamp⟩ := hstored.mp r.stored
    cases hes.symm.trans (scanDir_before w l hs hsmall)
    have ⟨halone, hother⟩ := (gone_iff w l hd p hs hs' hsplit hlast hdir hmatch hno r.name.eqIgnoreAsciiCase
      hes' hperm).mp f.gone
    exact ⟨hend, hidx, hcov, hcarries.mp r.name, hattr, hstamp, halone, hother⟩
  · intro o
    have hname := hcarries.mpr o.kept
    have hlisting := (hlist _).mpr ⟨rfl, o.seen, o.index, o.covers⟩
    have ⟨es, es', hes, hes', hperm⟩ := hlisting
    cases hes.symm.trans (scanDir_before w l hs hsmall)
    refine ⟨⟨_, hlisting, hname, hstored.mpr ⟨o.attr, o.stamp⟩⟩, fun _ hh hne => scanDir_others w l p hs hs' hh hne,
      w.keepsFiles_of_frame hs hs' l.dir l.chain fun c hf hc => frame_moved p hf hc, ?_⟩
    exact (gone_iff w l hd p hs hs' hsplit hlast hdir hmatch hno hname.eqIgnoreAsciiCase hes' hperm).mpr
      ⟨o.alone, o.other⟩

end listed

end move

structure Renaming (v : Fat32) (V : Vol) (L : Layout) (d d' : AtaDrive) (src dst : Text) (e : RawEntry) (name s : Text)
    (parts : List Text) (dir : List Nat) (slot short : Bytes) (lfn : List Bytes) (new : List Nat) (k : Nat) (V2 : Vol) : Prop where
  source : v.resolve d src = .ok (some (.entry e))
  absent : v.resolve d dst = .ok none
  target : v.resolveParent d dst = .ok (e.dirCluster, name)
  split : Vfs.splitPath src = some parts
  last : parts.getLast? = some s
  located : Located V L e dir slot
  derived : deriveFrom (scanVol V e.dirCluster dir) name (some e.short) = .ok (short, lfn)
  placed : v.Placed V dir new k (lfn ++ [packSlot short (entryAttr e.isDir) e.firstCluster e.size (.ofEntry e)]) V2
  shows : v.Shows d' (v.removeVol (dir ++ new) e.dirIndex V2)

theorem renaming_of_ok (hs : v.Shows d V) (w : v.Wf V L) (h : (v.rename src dst).run d = (.ok (), d'))
    (hdiff : v.resolve d dst ≠ v.resolve d src) :
    ∃ e name s parts dir slot short lfn new k V2, v.Renaming V L d d' src dst e name s parts dir slot short lfn new k V2 := by
  rcases rename_cases h with ⟨_, _, hf⟩ | ⟨e, e', _, hr, hr', hc, hi⟩ | ⟨e, name, hr, m, hm⟩
  · cases hf
  · -- Entries in the same slot are the same.
    have ⟨dir, slot, l⟩ := w.located_of_resolve hs hr
    have he := w.listed_of_resolve hs hr l.chain
    have he' := w.listed_of_resolve hs hr' (hc.symm ▸ l.chain)
    rw [hc] at he'
    exact absurd (by rw [hr, hr', eq_of_dirIndex he' he hi]) hdiff
  · have ⟨dir, slot, l⟩ := w.located_of_resolve hs hr
    have ⟨parts, s, _, hsplit, hlast, _, _⟩ := resolve_eq_entry hr
    have ⟨hok, hs'⟩ := (does_moveEntry w l).run_eq hs hm
    have ⟨short, lfn, new, k, V2, hder, p, heq⟩ := moveVol_ok (w.dirChain l.dir l.chain) w.spc_pos w.length_data
      hs.geometry.links (Prod.ext hok.symm rfl)
    exact ⟨e, name, s, parts, dir, slot, short, lfn, new, k, V2, hr, m.none, m.parent, hsplit, hlast, l, hder, p, heq ▸ hs'⟩

theorem Renaming.frame_iff (R : v.Renaming V L d d' src dst e name s parts dir slot short lfn new k V2) (hs : v.Shows d V)
    (w : v.Wf V L) : v.RenameFrame L d d' e name src ↔ Renamable V e s name dir slot short lfn new k := by
  have l := R.located
  have he := w.listed_of_resolve hs R.source l.chain
  have ⟨parts', s', h, hsplit, hlast, hdir, hfind⟩ := resolve_eq_entry R.source
  cases R.split.symm.trans hsplit
  cases R.last.symm.trans hlast
  have hh := w.mem_of_descend hs w.root (fun c hc => Vfs.ne_dot_of_splitPath hsplit (dropLast_subset _ hc)) hdir
  have ⟨_, _, _, hmatch, hdc⟩ := w.listed_of_findIn hs hh hfind
  subst hdc
  have ⟨es, hes, hnone⟩ := scan_of_resolve_none R.absent R.target
  rw [hs.scanDir l.chain (w.chain_valid l.dir l.chain)] at hes
  have ⟨hall, hsmall⟩ := checkIndices_eq_ok.mp hes
  have hno : matchesName name e = false := by
    rw [hall, find?_eq_none] at hnone
    exact Bool.eq_false_iff.mpr (hnone e he)
  have ⟨comps, hcomps, hname, _⟩ := resolveParent_eq_ok R.target
  have hlen := (Vfs.comp_of_splitPath hcomps (mem_of_getLast? hname)).2.2
  have hd := deriveFrom_eq_ok R.derived
  exact renameFrame_iff w l hd R.placed (R.placed.lfn_slots hd w hs.geometry.spc_le) he hs R.shows hsmall R.derived hlen
    hsplit hlast hdir hmatch hno

theorem rename_run (hr : v.resolve d src = .ok (some (.entry e))) (hr' : v.resolve d dst = .ok none)
    (hp : v.resolveParent d dst = .ok (e.dirCluster, name)) : (v.rename src dst).run d = (v.moveEntry e name).run d := by
  rw [rename, read_bind_run, hr, lift_ok_bind_run]
  simp only
  rw [read_bind_run, hr', lift_ok_bind_run]
  simp only
  rw [read_bind_run, hp, lift_ok_bind_run]
  simp

section file

def fileSlot (attr : UInt8) : Bytes := packSlot (65 :: replicate 10 32) attr 0 0 .zero

def fileVol (attr : UInt8) : Vol := smallVol [0, 0, eoc] [fileSlot attr] fun _ => replicate 512 0

def fileEntry (attr : UInt8) : RawEntry := entryOf 2 .empty (fileSlot attr) 0

variable {attr : UInt8} (ha : attr = 0x20 ∨ attr = 0x21)

theorem length_fileSlot : ∀ s ∈ [fileSlot attr], s.length = 32 := fun _ h => mem_singleton.mp h ▸ rfl

theorem fits_file : small.Fits (fileVol attr) :=
  fits_small (by decide) (by decide) length_fileSlot (by simp) fun _ => length_replicate

theorem slots_file : (fileVol attr).slots [2] = fileSlot attr :: replicate 15 (replicate 32 0) :=
  slots_smallVol length_fileSlot

theorem bare_file : Placed.Bare (Placed.behind (fileVol attr) [2] [] 2) := by
  intro j s hj hl
  have hmem := mem_of_getElem? hj
  rw [Placed.behind, append_nil, slots_file] at hmem
  rw [eq_of_mem_replicate (mem_of_mem_drop (i := 1) hmem)] at hl
  cases hl

include ha

theorem endless_file : Endless (((fileVol attr).slots [2]).take 1) := by
  rw [slots_file]
  unfold Endless
  rcases ha with rfl | rfl <;> decide

theorem wf_file : small.Wf (fileVol attr) rootLayout := by
  rcases ha with rfl | rfl <;> exact wf_root fits_file length_fileSlot rfl (by decide) (by decide)

theorem entriesOf_file : entriesOf 2 ((fileVol attr).slots [2]) = [fileEntry attr] := by
  rw [slots_file]
  rcases ha with rfl | rfl <;> rfl

theorem scanDir_file : small.scanDir (small.image (fileVol attr)) 2 = .ok [fileEntry attr] := by
  rw [(shows_image fits_file).scanDir (chain_small rfl) (by simp; decide), entriesOf_file ha]
  rfl

theorem resolve_file : small.resolve (small.image (fileVol attr)) ['/', 'A'] = .ok (some (.entry (fileEntry attr))) := by
  refine (resolve_in_root (by decide : Vfs.splitPath ['/', 'A'] = some [['A']]) (scanDir_file ha)).trans ?_
  rcases ha with rfl | rfl <;> rfl

theorem resolve_file_none : small.resolve (small.image (fileVol attr)) ['/', 'B'] = .ok none := by
  refine (resolve_in_root (by decide : Vfs.splitPath ['/', 'B'] = some [['B']]) (scanDir_file ha)).trans ?_
  rcases ha with rfl | rfl <;> rfl

theorem rename_file_run : ∃ d', (small.rename ['/', 'A'] ['/', 'B']).run (small.image (fileVol attr)) = (.ok (), d') := by
  have hs : small.Shows (small.image (fileVol attr)) (fileVol attr) := shows_image fits_file
  have ⟨dir, slot, l⟩ := (wf_file ha).located_of_resolve hs (resolve_file ha)
  cases l.chain.unique (chain_small rfl)
  have hdoes : small.Does (small.moveEntry (fileEntry attr) ['B']) (fileVol attr) _ _ := does_moveEntry (wf_file ha) l
  have ⟨d', hrun, _⟩ := hdoes _ hs
  have hok : (small.moveVol (fileEntry attr) [2] ['B'] (fileVol attr)).1.isOk = true := by
    rcases ha with rfl | rfl <;> decide +kernel
  have hrename := (rename_run (resolve_file ha) (resolve_file_none ha)
    (resolveParent_in_root (by decide : Vfs.splitPath ['/', 'B'] = some [['B']]))).trans hrun
  cases hres : (small.moveVol (fileEntry attr) [2] ['B'] (fileVol attr)).1 with
  | ok u => exact ⟨d', hres ▸ hrename⟩
  | error f =>
    rw [hres] at hok
    cases hok

theorem rename_file_differs : small.resolve (small.image (fileVol attr)) ['/', 'B'] ≠
    small.resolve (small.image (fileVol attr)) ['/', 'A'] := by
  rw [resolve_file_none ha, resolve_file ha]
  exact fun h => nomatch h

theorem isPlace_file : small.IsPlace ((fileVol attr).slots [2]) 1 1 ∧ ¬small.IsPlace ((fileVol attr).slots [2]) 1 0 := by
  rw [slots_file]
  refine ⟨⟨by decide, by simp, fun j hj s hs => ?_⟩, fun hp => ?_⟩
  · cases Nat.lt_one_iff.mp hj
    cases hs
    decide
  · have := hp.2.2 0 (by decide) (fileSlot attr) rfl
    rcases ha with rfl | rfl <;> exact absurd this (by decide)

theorem firstPlace_file (h : small.FirstPlace (fileVol attr) [2] 1 new k) : new = [] ∧ k = 1 := by
  have ⟨h1, h0⟩ := isPlace_file ha
  rcases h with ⟨hnew, hk, hleast⟩ | ⟨_, _, _, _, hno⟩
  · have hle := hleast 1 h1
    have hne : k ≠ 0 := fun heq => h0 (heq ▸ hk)
    exact ⟨hnew, by omega⟩
  · exact absurd h1 (hno 1)

end file

end Fat32
