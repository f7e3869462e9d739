import Onyx.Ext2.Call
import Onyx.Ext2.Inode
import Onyx.Lib.Panic

-- Where the ext2 driver can panic, function by function, on any volume that `mount` has accepted.

open Lib List Bytes

namespace Ext2

-- The numbers of a mounted volume are small enough for no address to overflow.
structure Sized (v : Ext2) : Prop where
  start : v.partStart < 2 ^ 48
  blockBitmap : v.blockBitmap < 2 ^ 32
  inodeBitmap : v.inodeBitmap < 2 ^ 32
  inodeTable : v.inodeTable < 2 ^ 14
  inodesCount : v.inodesCount < 2 ^ 32

theorem readPartBlock_eq_ok (h : readPartBlock d ps b = .ok data) :
    d.InRange (ps + b * 2) 2 ∧ data = d.content ((ps + b * 2) * AtaDrive.sectorSize) blockSize := by
  have ⟨lba, hlba, h⟩ := Result.bind_eq_ok.mp h
  cases (checked_eq_ok.mp hlba).1
  unfold AtaDrive.readSectors at h
  split_ifs at h with hr
  · exact ⟨hr, (Except.ok.inj h).symm⟩
  · cases h

theorem mount_eq_ok (h : mount d ps = .ok v) (hd : d.totalSectors ≤ 2 ^ 48) : v.Sized := by
  have ⟨sb, hsb, h⟩ := Result.bind_eq_ok.mp h
  have hin := (readPartBlock_eq_ok hsb).1.2.1
  generalize (if sb.u32At 76 = 0 then inodeSize else sb.u16At 88) = size at h
  split_ifs at h with h1 h2 h3 h4 h5 h6
  any_goals cases h
  have ⟨gd, hgd, h⟩ := Result.bind_eq_ok.mp h
  split_ifs at h with h7 h8
  any_goals cases h
  -- one group has at most 8 * 1024 blocks
  have hblocks : sb.u32At 4 ≤ 8193 := by
    simp only [blockSize, not_or, not_not] at h5 h6
    have := Nat.div_add_mod (sb.u32At 4 - 1 + sb.u32At 32 - 1) (sb.u32At 32)
    have := Nat.mod_lt (sb.u32At 4 - 1 + sb.u32At 32 - 1) (Nat.pos_of_ne_zero h5.2.2.1)
    rw [h6] at *
    omega
  have := u32At_lt sb 0
  constructor
  all_goals simp only
  all_goals omega

structure Inode.Numbered (i : Inode) : Prop where
  fits : i.Fits
  pos : 0 < i.ino
  small : i.ino < 2 ^ 32

namespace Disk

variable {s : Disk} (z : s.Sized) {i dir : Inode} {name path : Text} {e : DirEnt}
include z

theorem gives_readBlock (hb : b < 2 ^ 32) : Gives (s.readBlock b) (s.block b = ·) := by
  refine ⟨?_, fun data h => (readBlock_eq_ok.mp h).2⟩
  have := z.start
  unfold readBlock readPartBlock
  rw [checked_of_lt (by omega), ok_bind]
  split
  · exact not_panics_ok
  · exact not_panics_fail

theorem gives_inodeBlock (hn : 0 < n) (hlt : n ≤ 2 ^ 32) : Gives (s.inodeBlock n) fun b => b < 2 ^ 32 ∧ b = s.nodeBlock n := by
  refine ⟨?_, fun b hb => ?_⟩
  · have := z.inodeTable
    unfold inodeBlock
    rw [checkedSub_of_le (by omega), ok_bind, checked_of_lt (by simp only [inodeSize, blockSize]; omega)]
    exact not_panics_ok
  · obtain ⟨_, hlt, rfl⟩ := inodeBlock_eq_ok.mp hb
    exact ⟨hlt, rfl⟩

theorem gives_readInode (n : Nat) : Gives (s.readInode n) Inode.Numbered := by
  have := z.inodesCount
  refine ⟨Gives.not_panics (Q := fun _ => True) (.ite (fun _ => .fail) fun hn => ?_), fun i h => ?_⟩
  · refine (gives_inodeBlock z (by omega) (by omega)).bind fun b hb => ?_
    exact (gives_readBlock z hb.1).bind fun _ _ => .ok trivial
  · obtain ⟨hn, hle, rfl⟩ := readInode_eq_ok.mp h
    exact ⟨Inode.fits_decode _ _, hn.pos, lt_of_le_of_lt hle z.inodesCount⟩

theorem gives_indirectLookup (ht : t < 2 ^ 32) (k : Nat) : Gives (s.indirectLookup t k) (· < 2 ^ 32) :=
  .ite (fun _ => .ok (by decide)) fun _ => (gives_readBlock z ht).bind fun data _ => .ok (data.u32At_lt _)

theorem gives_mapBlock (hi : i.Fits) (idx : Nat) : Gives (s.mapBlock i idx) (· < 2 ^ 32) := by
  unfold mapBlock
  split_ifs with hidx
  · exact .ok (hi.blocks ⟨idx, lt_trans hidx (by decide)⟩)
  · exact gives_indirectLookup z (hi.blocks 12) _
  · exact (gives_indirectLookup z (hi.blocks 13) _).bind fun mid hmid => gives_indirectLookup z hmid _
  · exact .fail

omit z in
theorem not_panics_parseBlock (lblock : Nat) (buf : Bytes) (k off : Nat) : ¬Panics (parseBlock lblock buf k off) := by
  induction k generalizing off with
  | zero => exact not_panics_ok
  | succ k hi =>
    unfold parseBlock
    simp only
    split_ifs
    · exact not_panics_fail
    · exact not_panics_fail
    · exact not_panics_bind (hi _) fun _ _ => not_panics_ok
    · exact not_panics_bind (hi _) fun _ _ => not_panics_ok
    · exact not_panics_ok

theorem not_panics_dirEntries (hi : i.Fits) : ¬Panics (s.dirEntries i) := by
  unfold dirEntries
  generalize range (i.size / blockSize) = ls
  induction ls with
  | nil => exact not_panics_ok
  | cons l ls ih =>
    have hmap := gives_mapBlock z hi l
    refine not_panics_bind hmap.not_panics fun phys hphys => not_panics_bind ?_ fun _ _ => ?_
    · unfold blockEntries
      split_ifs
      · exact not_panics_ok
      · exact not_panics_bind (gives_readBlock z (hmap.value phys hphys)).not_panics fun _ _ => not_panics_parseBlock _ _ _ _
    · exact not_panics_bind ih fun _ _ => not_panics_ok

theorem gives_lookupIn (hi : i.Fits) (name : Text) : Gives (s.lookupIn i name) fun o => ∀ j, o = some j → j.Numbered := by
  refine (Gives.of_not_panics (not_panics_dirEntries z hi)).bind fun es _ => ?_
  split
  · exact .ok nofun
  refine (gives_readInode z _).bind fun j hj => .ok fun j' h => ?_
  cases h
  exact hj

theorem gives_resolveFrom (hi : i.Numbered) (cs : List Text) :
    Gives (s.resolveFrom i cs) fun o => ∀ j, o = some j → j.Numbered := by
  induction cs generalizing i with
  | nil =>
    refine .ok fun j hj => ?_
    cases hj
    exact hi
  | cons c cs ih =>
    refine (gives_lookupIn z hi.fits c).bind fun o ho => ?_
    cases o with
    | none => exact .ok nofun
    | some next => exact .ite (fun _ => .fail) fun _ => ih (ho next rfl)

theorem gives_resolve (path : Text) : Gives (s.resolve path) fun o => ∀ j, o = some j → j.Numbered := by
  unfold resolve
  split
  · exact .fail
  · exact (gives_readInode z _).bind fun root hroot => gives_resolveFrom z hroot _

theorem gives_descend (hi : i.Numbered) (cs : List Text) : Gives (s.descend i cs) Inode.Numbered := by
  induction cs generalizing i with
  | nil => exact .ok hi
  | cons c cs ih =>
    refine (gives_lookupIn z hi.fits c).bind fun o ho => ?_
    cases o with
    | none => exact .fail
    | some next => exact .ite (fun _ => ih (ho next rfl)) fun _ => .fail

theorem gives_resolveParent (path : Text) : Gives (s.resolveParent path) fun q => q.1.Numbered ∧ q.2.len ≤ 255 := by
  unfold resolveParent
  split
  · exact .fail
  next parts hsplit =>
    split
    · exact .fail
    next last hlast =>
      refine (gives_readInode z _).bind fun root hroot => (gives_descend z hroot _).bind fun dir hdir => .ok ⟨hdir, ?_⟩
      exact (Vfs.comp_of_splitPath hsplit (mem_of_mem_getLast? hlast)).2.2

end Disk

section writing

theorem Sized.of_same {v w : Ext2} (z : v.Sized) (h : v.SameVolume w) : w.Sized where
  start := h.partStart ▸ z.start
  blockBitmap := h.blockBitmap ▸ z.blockBitmap
  inodeBitmap := h.inodeBitmap ▸ z.inodeBitmap
  inodeTable := h.inodeTable ▸ z.inodeTable
  inodesCount := h.inodesCount ▸ z.inodesCount

variable {s : Disk} (z : s.Sized) {i : Inode} {data : Bytes}
include z

theorem returns_writeBlock_same (hb : b < 2 ^ 32) (data : Bytes) : (writeBlock b data).Returns s fun _ s' => s'.toExt2 = s.toExt2 := by
  have := z.start
  unfold writeBlock
  constructor
  · unfold Prog.Panics
    simp only [checked_of_lt (show s.partStart + b * 2 < 2 ^ 64 by omega)]
    split
    · exact not_panics_ok
    · exact not_panics_fail
  · intro u s' h
    simp only [checked_of_lt (show s.partStart + b * 2 < 2 ^ 64 by omega)] at h
    split at h
    · cases h
      rfl
    · cases h

theorem returns_writeBlock (hb : b < 2 ^ 32) (hl : data.length = blockSize) :
    (writeBlock b data).Returns s fun _ s' => s' = s.put b data :=
  ⟨(returns_writeBlock_same z hb data).not_panics, fun _ _ h => ((writeBlock_eq_ok hl).mp h).2⟩

theorem returns_writeInode (hpos : 0 < i.ino) (hlt : i.ino ≤ 2 ^ 32) : (writeInode i).Returns s fun _ s' => s' = s.putNode i := by
  refine .read_bind (Disk.gives_inodeBlock z hpos hlt) fun b ⟨hsmall, hb⟩ => ?_
  refine .read_bind (Disk.gives_readBlock z hsmall) fun data hdata => ?_
  subst hb hdata
  exact returns_writeBlock z hsmall Disk.length_patch_record

theorem returns_syncFreeCounts : syncFreeCounts.Returns s fun _ s' => s' = s.synced := by
  refine .get_bind (.read_bind (Disk.gives_readBlock z (by decide)) fun sb hsb => ?_)
  subst hsb
  refine (returns_writeBlock z (by decide) length_syncedSuper).bind fun _ s1 h1 => ?_
  subst h1
  have z1 : (s.put 1 s.syncedSuper).Sized := z
  refine .read_bind (Disk.gives_readBlock z1 (by decide)) fun gd hgd => ?_
  subst hgd
  rw [block_put_syncedSuper]
  exact returns_writeBlock z1 (by decide) length_syncedDescriptor

theorem returns_takeBit (hb : b < 2 ^ 32) :
    (takeBit b).Returns s fun n s' => (s.block b).firstClear = some n ∧ s' = s.put b ((s.block b).setBit n) := by
  refine .read_bind (Disk.gives_readBlock z hb) fun bits hbits => ?_
  subst hbits
  split
  case h_1 => exact .fail
  case h_2 n hn =>
    refine (returns_writeBlock z hb (by simp)).bind fun _ s1 h1 => .pure ⟨hn, h1⟩

omit z in
theorem lt_of_firstClear (h : (s.block b).firstClear = some n) : n < 8192 := by
  have hlt := (firstClear_eq_some h).1
  rw [Disk.length_block, blockSize] at hlt
  omega

theorem returns_allocBlock : allocBlock.Returns s fun b s' => ∃ n, Allocates s n ∧ b = n + 1 ∧ s' = s.allocated n := by
  refine ⟨Prog.Returns.not_panics (Q := fun _ _ => True) ?_, fun _ _ => allocBlock_eq_ok⟩
  refine .get_bind (.ite (fun _ => .fail) fun _ => (returns_takeBit z z.blockBitmap).bind fun n s1 h1 => ?_)
  obtain ⟨hn, rfl⟩ := h1
  have := lt_of_firstClear hn
  have zt : (s.taken n).Sized := z.of_same ⟨rfl, rfl, rfl, rfl, rfl⟩
  refine .modify_bind ((returns_syncFreeCounts zt).bind fun _ s3 h3 => ?_)
  subst h3
  have z3 : (s.taken n).synced.Sized := zt
  exact (returns_writeBlock z3 (by omega) length_zeroBlock).bind fun _ _ _ => .pure trivial

theorem returns_allocInode : allocInode.Returns s fun n s' => ∃ k, AllocatesInode s k ∧ n = k + 1 ∧ s' = s.allocatedInode k := by
  refine ⟨Prog.Returns.not_panics (Q := fun _ _ => True) ?_, fun _ _ => allocInode_eq_ok⟩
  refine .get_bind (.ite (fun _ => .fail) fun _ => (returns_takeBit z z.inodeBitmap).bind fun n s1 h1 => ?_)
  obtain ⟨hn, rfl⟩ := h1
  have zt : ({ s.put s.inodeBitmap ((s.block s.inodeBitmap).setBit n) with freeInodes := s.freeInodes - 1 } : Disk).Sized :=
    z.of_same ⟨rfl, rfl, rfl, rfl, rfl⟩
  exact .modify_bind ((returns_syncFreeCounts zt).bind fun _ _ _ => .pure trivial)

end writing

-- The sectors of an inode can be counted for every block that its fields still lack.
def Inode.Roomy (i : Inode) : Prop := i.sectors + 2 * i.blocks.count 0 < 2 ^ 32

structure Grown (i j : Inode) : Prop where
  numbered : j.Numbered
  roomy : j.Roomy
  ino : j.ino = i.ino
  size : j.size = i.size

section ensure

variable {s : Disk} (z : s.Sized) {i : Inode} (hi : i.Numbered) (hr : i.Roomy)
include z hi hr

theorem returns_ensureField (k : Fin 15) : (ensureField i k).Returns s fun r s' =>
    Grown i r.2 ∧ r.1 < 2 ^ 32 ∧ (i.blocks.get k ≠ 0 ∧ s' = s ∨ ∃ n, Allocates s n ∧ r.1 = n + 1 ∧ s' = s.allocated n) := by
  unfold ensureField
  split_ifs with hk
  · exact .pure ⟨⟨hi, hr, rfl, rfl⟩, hi.fits.blocks k, .inl ⟨hk, rfl⟩⟩
  refine (returns_allocBlock z).bind fun b s1 h1 => ?_
  obtain ⟨n, ha, rfl, rfl⟩ := h1
  have hn := lt_of_firstClear ha.clear
  have hzero : i.blocks[k.val] = 0 := not_not.mp hk
  have hcount : 0 < i.blocks.count 0 := Vector.count_pos_iff.mpr (hzero ▸ Vector.getElem_mem k.isLt)
  have hset : (i.blocks.set k (n + 1)).count 0 = i.blocks.count 0 - 1 := by
    rw [Vector.count_set k.isLt, hzero]
    simp
  unfold Inode.Roomy at hr
  simp only [blockSize, AtaDrive.sectorSize]
  have hlt : i.sectors + 1024 / 512 < 2 ^ 32 := by omega
  refine .lift_bind (.checked hlt) fun sectors hs => ?_
  subst hs
  refine .pure ⟨⟨⟨hi.fits.link k (by omega) hlt, hi.pos, hi.small⟩, ?_, rfl, rfl⟩, by omega, .inr ⟨n, ha, rfl, rfl⟩⟩
  show i.sectors + 1024 / 512 + 2 * (i.blocks.set k (n + 1)).count 0 < 2 ^ 32
  rw [hset]
  omega

omit hi hr in
theorem returns_ensureSlot (ht : t < 2 ^ 32) (k : Nat) (hk : k < ptrs) : (ensureSlot t k).Returns s fun b s' => b < 2 ^ 32 ∧ s.SameVolume s'.toExt2 := by
  refine .read_bind (Disk.gives_readBlock z ht) fun data hdata => ?_
  subst hdata
  split_ifs
  · exact .pure ⟨u32At_lt _ _, .refl _⟩
  refine (returns_allocBlock z).bind fun b s1 h1 => ?_
  obtain ⟨n, ha, rfl, rfl⟩ := h1
  have hn := lt_of_firstClear ha.clear
  have z1 : (s.allocated n).Sized := z.of_same sameVolume_allocated
  have hl : ((s.block t).patch (k * 4) (toLe 4 (n + 1))).length = blockSize := by
    rw [length_patch, Disk.length_block]
    rw [length_toLe, Disk.length_block]
    simp only [ptrs, blockSize] at hk ⊢
    omega
  refine (returns_writeBlock z1 ht hl).bind fun _ s2 h2 => .pure ⟨by omega, ?_⟩
  subst h2
  rw [Disk.toExt2_put]
  exact sameVolume_allocated

theorem returns_ensureBlock (idx : Nat) : (ensureBlock i idx).Returns s fun r s' =>
    Grown i r.2 ∧ r.1 < 2 ^ 32 ∧ s.SameVolume s'.toExt2 ∧ idx < direct + ptrs + ptrs * ptrs := by
  have hfield : ∀ k, (ensureField i k).Returns s fun r s' => Grown i r.2 ∧ r.1 < 2 ^ 32 ∧ s.SameVolume s'.toExt2 := by
    refine fun k => (returns_ensureField z hi hr k).mono fun r s' ⟨hg, hb, hs⟩ => ⟨hg, hb, ?_⟩
    obtain ⟨_, rfl⟩ | ⟨n, _, _, rfl⟩ := hs
    · exact .refl _
    · exact sameVolume_allocated
  unfold ensureBlock
  split_ifs with h1 h2 h3
  · exact (hfield _).mono fun r s' ⟨hg, hb, hs⟩ => ⟨hg, hb, hs, by omega⟩
  · refine (hfield 12).bind fun ⟨t, j⟩ s1 ⟨hg, ht, hs1⟩ => ?_
    refine (returns_ensureSlot (z.of_same hs1) ht _ h2).bind fun b s2 ⟨hb, hs2⟩ => .pure ⟨hg, hb, hs1.trans hs2, by omega⟩
  · refine (hfield 13).bind fun ⟨t, j⟩ s1 ⟨hg, ht, hs1⟩ => ?_
    have z1 := z.of_same hs1
    refine (returns_ensureSlot z1 ht _ (Nat.div_lt_of_lt_mul h3)).bind fun mid s2 ⟨hmid, hs2⟩ => ?_
    have z2 := z1.of_same hs2
    refine (returns_ensureSlot z2 hmid _ (Nat.mod_lt _ (by decide))).bind fun b s3 ⟨hb, hs3⟩ => ?_
    exact .pure ⟨hg, hb, (hs1.trans hs2).trans hs3, by omega⟩
  · exact .fail

end ensure

section calls

variable {s : Disk} (z : s.Sized) {i dir : Inode} {name : Text}
include z

theorem returns_writePart (hb : b < 2 ^ 32) (o : Nat) (part : Bytes) : (writePart b o part).Returns s fun _ s' => s'.toExt2 = s.toExt2 := by
  refine .ite (fun _ => ?_) fun _ => returns_writeBlock_same z hb _
  exact .read_bind (Disk.gives_readBlock z hb) fun _ _ => returns_writeBlock_same z hb _

theorem returns_writeLoop {buf : Bytes} (hi : i.Numbered) (hr : i.Roomy) (hoff : off < 2 ^ 64) :
    (writeLoop i off buf).Returns s fun j s' => Grown i j ∧ s.SameVolume s'.toExt2 ∧ off + buf.length < 2 ^ 64 := by
  induction hn : buf.length using Nat.strongRecOn generalizing s i off buf with | ind n ih
  unfold writeLoop
  split_ifs with hbuf
  · subst hbuf hn
    exact .pure ⟨⟨hi, hr, rfl, rfl⟩, .refl _, hoff⟩
  have hpos : 0 < buf.length := length_pos_of_ne_nil hbuf
  have hmod : off % blockSize < blockSize := Nat.mod_lt _ (by decide)
  refine .lift_bind (.checked (by omega)) fun _ _ => ?_
  refine (returns_ensureBlock z hi hr _).bind fun ⟨b, j⟩ s1 ⟨hg, hb, hs1, hidx⟩ => ?_
  have z1 := z.of_same hs1
  refine (returns_writePart z1 hb _ _).bind fun _ s2 hs2 => ?_
  have z2 : s2.Sized := hs2 ▸ z1
  have hnext : off + min (blockSize - off % blockSize) buf.length < 2 ^ 64 := by
    simp only [direct, ptrs, blockSize] at hidx hmod ⊢
    omega
  refine (ih _ (by rw [length_drop]; omega) z2 hg.numbered hg.roomy hnext rfl).mono fun j' s' h => ?_
  obtain ⟨hg', hs', hend⟩ := h
  rw [length_drop] at hend
  refine ⟨⟨hg'.numbered, hg'.roomy, hg'.ino.trans hg.ino, hg'.size.trans hg.size⟩, ?_, by omega⟩
  rw [hs2] at hs'
  exact hs1.trans hs'

theorem returns_storeAt {buf : Bytes} (hi : i.Numbered) (hr : i.Roomy) (hoff : off < 2 ^ 64) :
    (storeAt now i off buf).Returns s fun _ _ => True := by
  refine (returns_writeLoop z hi hr hoff).bind fun j s1 ⟨hg, hs1, hend⟩ => ?_
  refine .lift_bind (.checked (by omega)) fun stop _ => ?_
  refine (returns_writeInode (z.of_same hs1) ?_ ?_).bind fun _ _ _ => .pure trivial
  · rw [Inode.ino_touch]
    exact hg.numbered.pos
  · rw [Inode.ino_touch]
    exact le_of_lt hg.numbered.small

theorem returns_extendDir (hi : dir.Numbered) (hr : dir.Roomy) : (extendDir dir name target).Returns s fun _ _ => True := by
  refine (returns_ensureBlock z hi hr _).bind fun ⟨b, j⟩ s1 ⟨hg, hb, hs1, hidx⟩ => ?_
  have z1 := z.of_same hs1
  have hsize : j.size = dir.size := hg.size
  refine .lift_bind (.checked ?_) fun size _ => ?_
  · simp only [direct, ptrs, blockSize] at hidx ⊢
    omega
  · have hpos : 0 < ({ j with size } : Inode).ino := hg.numbered.pos
    refine (returns_writeInode z1 hpos (le_of_lt hg.numbered.small)).bind fun _ s2 hs2 => ?_
    have z2 : s2.Sized := hs2 ▸ z1
    exact (returns_writeBlock_same z2 hb _).mono fun _ _ _ => trivial

-- The live records of a directory have room for their names as they are decoded.
def Spacious (s : Disk) (dir : Inode) : Prop :=
  ∀ es, s.dirEntries dir = .ok es → ∀ e ∈ es, e.ino ≠ 0 → span e.name ≤ e.recLen

omit z in
theorem not_panics_findRoom (h : ∀ e ∈ es, e.ino ≠ 0 → span e.name ≤ e.recLen) : ¬Panics (findRoom need es) := by
  induction es with
  | nil => exact not_panics_ok
  | cons e es hi =>
    refine not_panics_bind ?_ fun avail _ => ?_
    · unfold available
      split_ifs with h0
      · exact not_panics_ok
      · rw [checkedSub_of_le (h e (.head _) h0)]
        exact not_panics_ok
    · split_ifs
      · exact hi fun e' he' => h e' (.tail _ he')
      · exact not_panics_ok

theorem gives_entryBlock (hi : dir.Fits) (e : DirEnt) : Gives (s.entryBlock dir e) (· < 2 ^ 32) := by
  refine (Disk.gives_mapBlock z hi _).bind fun b hb => ?_
  split
  · exact .fail
  · exact .ok hb

theorem returns_addDirEntry (hi : dir.Numbered) (hr : dir.Roomy) (hs : Spacious s dir) :
    (addDirEntry dir name target).Returns s fun _ _ => True := by
  refine .read_bind (.of_not_panics (Disk.not_panics_dirEntries z hi.fits)) fun es hes => ?_
  refine .lift_bind (.of_not_panics (not_panics_findRoom (hs es hes))) fun o _ => ?_
  split
  · refine .read_bind (gives_entryBlock z hi.fits _) fun b hlt => ?_
    refine .read_bind (Disk.gives_readBlock z hlt) fun _ _ => ?_
    exact (returns_writeBlock_same z hlt _).mono fun _ _ _ => trivial
  · exact returns_extendDir z hi hr

end calls

-- No call changes the mounted instance but for its counts.
section stays

def Stays (s : Disk) (_ : Bool) (s' : Disk) : Prop := s.SameVolume s'.toExt2

instance : Transit Stays := ⟨.refl _, .trans⟩

open Prog (Within)

theorem writeBlock_stays (b : Nat) (data : Bytes) : (writeBlock b data).Within Stays := by
  intro s
  unfold writeBlock
  dsimp only
  split
  · exact .refl _
  split
  · exact .refl _
  · exact .refl _

theorem writeInode_stays (i : Inode) : (writeInode i).Within Stays :=
  .read_bind fun _ => .read_bind fun _ => writeBlock_stays _ _

theorem syncFreeCounts_stays : syncFreeCounts.Within Stays :=
  .read_bind fun _ => .read_bind fun _ =>
    .bind (writeBlock_stays _ _) fun _ => .read_bind fun _ => writeBlock_stays _ _

theorem takeBit_stays (bm : Nat) : (takeBit bm).Within Stays := by
  refine .read_bind fun bits => ?_
  split
  · exact .lift
  · exact .bind (writeBlock_stays _ _) fun _ => .pure

theorem modify_stays (h : ∀ s : Disk, s.SameVolume (g s).toExt2) : (Prog.modify g : Ext2M Unit).Within Stays := fun s => h s

theorem allocBlock_stays : allocBlock.Within Stays :=
  .read_bind fun _ => .ite .lift <| .bind (takeBit_stays _) fun _ =>
    .bind (modify_stays fun _ => ⟨rfl, rfl, rfl, rfl, rfl⟩) fun _ =>
      .bind syncFreeCounts_stays fun _ => .bind (writeBlock_stays _ _) fun _ => .pure

theorem allocInode_stays : allocInode.Within Stays :=
  .read_bind fun _ => .ite .lift <| .bind (takeBit_stays _) fun _ =>
    .bind (modify_stays fun _ => ⟨rfl, rfl, rfl, rfl, rfl⟩) fun _ => .bind syncFreeCounts_stays fun _ => .pure

theorem ensureField_stays (i : Inode) (k : Fin 15) : (ensureField i k).Within Stays :=
  .ite .pure (.bind allocBlock_stays fun _ => .lift_bind fun _ => .pure)

theorem ensureSlot_stays (t k : Nat) : (ensureSlot t k).Within Stays :=
  .read_bind fun _ => .ite .pure (.bind allocBlock_stays fun _ => .bind (writeBlock_stays _ _) fun _ => .pure)

theorem ensureBlock_stays (i : Inode) (idx : Nat) : (ensureBlock i idx).Within Stays := by
  unfold ensureBlock
  split_ifs
  · exact ensureField_stays _ _
  · exact .bind (ensureField_stays _ _) fun _ => .bind (ensureSlot_stays _ _) fun _ => .pure
  · exact .bind (ensureField_stays _ _) fun _ => .bind (ensureSlot_stays _ _) fun _ =>
      .bind (ensureSlot_stays _ _) fun _ => .pure
  · exact .lift

theorem writePart_stays (b o : Nat) (part : Bytes) : (writePart b o part).Within Stays :=
  .ite (.read_bind fun _ => writeBlock_stays _ _) (writeBlock_stays _ _)

theorem writeLoop_stays (i : Inode) (off : Nat) (buf : Bytes) : (writeLoop i off buf).Within Stays := by
  fun_induction writeLoop i off buf with
  | case1 i off => exact .pure
  | case2 i off buf hbuf hi =>
    exact .lift_bind fun _ => .bind (ensureBlock_stays _ _) fun r =>
      .bind (writePart_stays _ _ _) fun _ => hi r.2

theorem storeAt_stays (now : DateTime) (i : Inode) (off : Nat) (buf : Bytes) : (storeAt now i off buf).Within Stays :=
  .bind (writeLoop_stays _ _ _) fun _ => .lift_bind fun _ =>
    .bind (writeInode_stays _) fun _ => .pure

theorem addDirEntry_stays (dir : Inode) (name : Text) (n : Nat) : (addDirEntry dir name n).Within Stays := by
  refine .read_bind fun es => .lift_bind fun o => ?_
  split
  · exact .read_bind fun _ => .read_bind fun _ => writeBlock_stays _ _
  · exact .bind (ensureBlock_stays _ _) fun _ => .lift_bind fun _ =>
      .bind (writeInode_stays _) fun _ => writeBlock_stays _ _

theorem createAt_stays (now : DateTime) (path : Text) : (createAt now path).Within Stays := by
  refine .read_bind fun ⟨dir, name⟩ => .ite .lift ?_
  exact .bind allocInode_stays fun _ => .bind (writeInode_stays _) fun _ => .bind (addDirEntry_stays _ _ _) fun _ => .pure

theorem writeAt_stays (now : DateTime) (path : Text) (off : Nat) (buf : Bytes) : (writeAt now path off buf).Within Stays := by
  refine .ite (.read_bind fun o => ?_) (.bind (.read_bind fun o => ?_) fun _ => storeAt_stays _ _ _ _)
  · split
    · exact .pure
    · exact .bind (createAt_stays _ _) fun _ => .pure
  · split
    · exact .ite .lift .pure
    · exact createAt_stays _ _

theorem mkdir_stays (now : DateTime) (path : Text) : (mkdir now path).Within Stays := by
  refine .read_bind fun o => ?_
  split
  · exact .lift
  refine .read_bind fun ⟨dir, name⟩ => .ite (.bind (.ite .lift ?_) fun _ => .pure) .lift
  exact .bind allocInode_stays fun _ => .bind (ensureBlock_stays _ _) fun _ => .bind (writeBlock_stays _ _) fun _ =>
    .bind (writeInode_stays _) fun _ => .bind (addDirEntry_stays _ _ _) fun _ => .pure

theorem unlink_stays (path : Text) : (unlink path).Within Stays := by
  refine .read_bind fun o => ?_
  split
  · exact .lift
  refine .ite .lift (.read_bind fun _ => .read_bind fun _ => .bind ?_ fun _ => .bind ?_ fun _ => ?_)
  · exact .read_bind fun _ => .read_bind fun _ => writeBlock_stays _ _
  · exact .read_bind fun _ => .ite .pure <| .read_bind fun _ => .read_bind fun _ => .lift_bind fun _ => .lift_bind fun _ =>
      .bind (modify_stays fun _ => ⟨rfl, rfl, rfl, rfl, rfl⟩) fun _ => writeBlock_stays _ _
  · exact .read_bind fun _ => .read_bind fun _ => .lift_bind fun _ => .lift_bind fun _ =>
      .bind (modify_stays fun _ => ⟨rfl, rfl, rfl, rfl, rfl⟩) fun _ => .bind (writeBlock_stays _ _) fun _ => syncFreeCounts_stays

theorem rename_stays (src dst : Text) : (rename src dst).Within Stays := by
  refine .read_bind fun ⟨i, dir, name⟩ => .read_bind fun e => ?_
  exact .ite .lift (.read_bind fun _ => .read_bind fun _ => .ite .lift (writeBlock_stays _ _))

theorem exec_stays (c : Call) : (exec c).Within Stays := by
  cases c with
  | writeAt now path off buf => exact .bind (writeAt_stays _ _ _ _) fun _ => .pure
  | readAt path off len => exact .read_bind fun _ => .pure
  | mkdir now path => exact .bind (mkdir_stays _ _) fun _ => .pure
  | list path => exact .read_bind fun _ => .pure
  | stat path => exact .read_bind fun _ => .pure
  | unlink path => exact .bind (unlink_stays _) fun _ => .pure
  | rename src dst => exact .bind (rename_stays _ _) fun _ => .pure

end stays

end Ext2
