import Onyx.Ext2.Panics
import Onyx.Ext2.Tree

-- The ext2 driver on arbitrary media: what must be true of a volume for the calls not to panic.

open Lib Bytes

namespace Ext2

section media

-- The superblock, the descriptor, the bitmaps, and the inode table as far as there are bits for it.
def Meta (v : Ext2) (b : Nat) : Prop :=
  b = 1 ∨ b = 2 ∨ b = v.blockBitmap ∨ b = v.inodeBitmap ∨ (v.inodeTable ≤ b ∧ b < v.inodeTable + 1024)

-- A directory to which a name can be added, read from blocks in use other than those above.
structure Extensible (s : Disk) (dir : Inode) : Prop where
  spacious : Spacious s dir
  roomy : dir.Roomy
  apart : ∀ b, ReadFrom s dir b → ¬Meta s.toExt2 b ∧ (s.block s.blockBitmap).bit (b - 1) = true
  bitmap : s.blockBitmap ≠ 1 ∧ s.blockBitmap ≠ 2

variable {s : Disk} (z : s.Sized) {i dir : Inode} {name : Text}

theorem Spacious.alters (h : Spacious s dir) (ha : Alters P s s') (hp : ∀ b, ReadFrom s dir b → ¬P b) :
    Spacious s' dir := by
  intro es hes
  rw [ha.dirEntries hp] at hes
  exact h es hes

theorem alters_allocatedInode_meta : Alters s.Meta s (s.allocatedInode k) := by
  refine alters_allocatedInode.mono fun b hb => ?_
  obtain rfl | rfl | rfl := hb
  · exact .inr (.inr (.inr (.inl rfl)))
  · exact .inl rfl
  · exact .inr (.inl rfl)

theorem bit_allocatedInode (h1 : s.blockBitmap ≠ 1) (h2 : s.blockBitmap ≠ 2) (hk : (s.block s.inodeBitmap).firstClear = some k)
    (h : (s.block s.blockBitmap).bit j = true) : ((s.allocatedInode k).block s.blockBitmap).bit j = true := by
  by_cases hb : s.blockBitmap = s.inodeBitmap
  · rw [hb] at h h1 h2 ⊢
    have hset : (s.allocatedInode k).block s.inodeBitmap = (s.block s.inodeBitmap).setBit k :=
      (block_synced_of_ne h1 h2).trans (Disk.block_put_self (by simp))
    rw [hset, bit_setBit (firstClear_eq_some hk).1, h, Bool.or_true]
  · rw [alters_allocatedInode.block _ (by simp [hb, h1, h2])]
    exact h

theorem nodeBlock_meta (hk : k < 8192) : s.Meta (s.nodeBlock (k + 1)) := by
  simp only [Meta, nodeBlock, inodeSize, blockSize]
  omega

theorem ext2Now_lt (now : DateTime) : ext2Now now < 2 ^ 32 := by
  unfold ext2Now
  omega

theorem Inode.numbered_new (hn : 0 < n) (hlt : n < 2 ^ 32) (hm : m < 2 ^ 16) (now : DateTime) :
    (Inode.new n m (ext2Now now)).Numbered where
  fits := {
    mode := hm
    size := Nat.two_pow_pos 32
    sectors := Nat.two_pow_pos 32
    atime := ext2Now_lt now
    ctime := ext2Now_lt now
    mtime := ext2Now_lt now
    blocks := fun k => by simp [Inode.new] }
  pos := hn
  small := hlt

theorem Inode.roomy_new : (Inode.new n m now).Roomy := by
  have hcount : (Inode.new n m now).blocks.count 0 ≤ 15 := Vector.count_le_size
  have hsectors : (Inode.new n m now).sectors = 0 := rfl
  unfold Inode.Roomy
  omega

include z

theorem returns_createIn (hd : dir.Numbered) (he : Extensible s dir) :
    (createIn now dir name).Returns s fun i _ => i.Numbered ∧ i.Roomy := by
  refine .ite (fun _ => .fail) fun _ => (returns_allocInode z).bind fun n s1 ⟨k, ha, hn, hs1⟩ => ?_
  subst hn hs1
  have hk := lt_of_firstClear ha.clear
  have z1 : (s.allocatedInode k).Sized := z.of_same alters_allocatedInode.same
  have hnew := Inode.numbered_new (m := modeReg) (Nat.succ_pos k) (by omega) (by decide) now
  refine (returns_writeInode z1 hnew.pos (Nat.le_of_lt hnew.small)).bind fun _ s2 hs2 => ?_
  subst hs2
  have halters : Alters s.Meta s ((s.allocatedInode k).putNode (.new (k + 1) modeReg (ext2Now now))) := by
    refine alters_allocatedInode_meta.trans (alters_putNode.mono fun b hb => ?_)
    subst hb
    exact nodeBlock_meta hk
  have hspace := he.spacious.alters halters fun b hb => (he.apart b hb).1
  exact (returns_addDirEntry (z.of_same halters.same) hd he.roomy hspace).bind fun _ _ _ => .pure ⟨hnew, Inode.roomy_new⟩

theorem returns_mkdirIn (hd : dir.Numbered) (he : Extensible s dir) : (mkdirIn now dir name).Returns s fun _ _ => True := by
  refine .ite (fun _ => .fail) fun _ => (returns_allocInode z).bind fun n s1 ⟨k, ha, hn, hs1⟩ => ?_
  subst hn hs1
  have hk := lt_of_firstClear ha.clear
  have z1 : (s.allocatedInode k).Sized := z.of_same alters_allocatedInode.same
  have hnew := Inode.numbered_new (m := modeDir) (Nat.succ_pos k) (by omega) (by decide) now
  have hensure : ensureBlock (.new (k + 1) modeDir (ext2Now now)) 0 = ensureField (.new (k + 1) modeDir (ext2Now now)) 0 := rfl
  rw [hensure]
  refine (returns_ensureField z1 hnew Inode.roomy_new 0).bind fun ⟨b, i⟩ s2 ⟨hg, hb, hs2⟩ => ?_
  obtain ⟨h0, _⟩ | ⟨m, hm, hbm, hs2⟩ := hs2
  · exact absurd rfl h0
  dsimp only at hbm hb hg ⊢
  subst hbm hs2
  have hfirst : Alters s.Meta s (s.allocatedInode k) := alters_allocatedInode_meta
  have hbit := bit_allocatedInode (j := m) he.bitmap.1 he.bitmap.2 ha.clear
  generalize s.allocatedInode k = s1 at *
  have z2 : (s1.allocated m).Sized := z1.of_same sameVolume_allocated
  refine (returns_writeBlock z2 hb (length_dotEntries _ _)).bind fun _ s3 hs3 => ?_
  have z3 : s3.Sized := by
    rw [hs3, Disk.toExt2_put]
    exact z2
  have hpos : 0 < ({ i with size := blockSize } : Inode).ino := hg.numbered.pos
  refine (returns_writeInode z3 hpos (Nat.le_of_lt hg.numbered.small)).bind fun _ s4 hs4 => ?_
  have hbooks : Alters (fun b => s.Meta b ∨ b = m + 1) s (s1.allocated m) := by
    refine (hfirst.mono fun b hb => .inl hb).trans (alters_allocated.mono fun b hb => ?_)
    rw [hfirst.same.blockBitmap] at hb
    obtain rfl | rfl | rfl | rfl := hb
    · exact .inl (.inr (.inr (.inl rfl)))
    · exact .inl (.inl rfl)
    · exact .inl (.inr (.inl rfl))
    · exact .inr rfl
  have hdots : Alters (fun b => s.Meta b ∨ b = m + 1) s s3 := hbooks.trans (hs3 ▸ .put (length_dotEntries _ _) (.inr rfl))
  have halters : Alters (fun b => s.Meta b ∨ b = m + 1) s s4 := by
    refine hdots.trans (hs4 ▸ alters_putNode.mono fun b hb => .inl ?_)
    rw [hb, show ({ i with size := blockSize } : Inode).ino = k + 1 from hg.ino, nodeBlock, hdots.same.inodeTable]
    exact nodeBlock_meta hk
  have hspace : Spacious s4 dir := he.spacious.alters halters fun b hb => by
    obtain ⟨hmeta, hset⟩ := he.apart b hb
    rintro (h | rfl)
    · exact hmeta h
    · have hclear := (firstClear_eq_some hm.clear).2
      rw [hfirst.same.blockBitmap, hbit hset] at hclear
      cases hclear
  exact (returns_addDirEntry (z.of_same halters.same) hd he.roomy hspace).bind fun _ _ _ => .pure trivial

end media

section unlink

variable {s : Disk} (z : s.Sized) {i dir : Inode}

theorem gives_clearBits (h : ∀ b ∈ bs, b ≤ 8192) : Gives (clearBits bits bs) fun r => r.2 ≤ bs.length := by
  induction bs generalizing bits with
  | nil => exact .ok (Nat.zero_le _)
  | cons b bs hi =>
    have hb := h b (.head _)
    have hbs : ∀ b ∈ bs, b ≤ 8192 := fun b hb => h b (.tail _ hb)
    unfold clearBits
    rw [if_neg (by simp only [blockSize]; omega), List.length_cons]
    split_ifs
    · exact (hi hbs).bind fun _ hn => .ok (Nat.succ_le_succ hn)
    · exact (hi hbs).mono fun _ hn => Nat.le_succ_of_le hn

structure Removable (s : Disk) (dir i : Inode) : Prop where
  number : i.ino ≤ 8192
  blocks : ∀ p, s.ptr i p ≤ 8192
  counts : s.freeBlocks + 2 ^ 17 ≤ 2 ^ 32 ∧ s.freeInodes + 1 < 2 ^ 32
  apart : ∀ e b, s.entryFor dir i.ino = .ok e → s.entryBlock dir e = .ok b → ∀ q : Place, ¬q.IsLeaf → s.ptr i q ≠ b

theorem gives_entryFor (z : s.Sized) (hi : dir.Fits) (n : Nat) :
    Gives (s.entryFor dir n) fun e => e.offset % blockSize + e.recLen ≤ blockSize := by
  refine (Gives.of_not_panics (Disk.not_panics_dirEntries z hi)).bind fun es hes => ?_
  split
  · exact .fail
  · exact .ok (s.entriesFrom_within hes (List.mem_of_find?_eq_some ‹_›))

include z

theorem not_panics_collectTables (h : ∀ t ∈ ts, t < 2 ^ 32) : ¬Panics (s.collectTables ts) := by
  induction ts with
  | nil => exact not_panics_ok
  | cons t ts hi =>
    refine not_panics_bind (Disk.gives_readBlock z (h t (.head _))).not_panics fun _ _ => ?_
    exact not_panics_bind (hi fun t ht => h t (.tail _ ht)) fun _ _ => not_panics_ok

theorem not_panics_collectBlocks (hi : i.Fits) : ¬Panics (s.collectBlocks i) := by
  refine not_panics_bind (not_panics_collectTables z fun t ht => ?_) fun _ _ => ?_
  · obtain ⟨rfl, _⟩ := mem_filter_singleton.mp ht
    exact hi.blocks 12
  refine not_panics_bind ?_ fun _ _ => not_panics_ok
  unfold Disk.collectDouble
  split_ifs
  · exact not_panics_ok
  refine not_panics_bind (Disk.gives_readBlock z (hi.blocks 13)).not_panics fun data _ => ?_
  refine not_panics_bind (not_panics_collectTables z fun t ht => ?_) fun _ _ => not_panics_ok
  obtain ⟨_, k, _, rfl⟩ := mem_tableEntries.mp ht
  exact u32At_lt _ _

theorem returns_unlinkEntry (hd : dir.Fits) : (unlinkEntry dir e).Returns s fun _ s' =>
    s'.toExt2 = s.toExt2 ∧ ∃ b, s.entryBlock dir e = .ok b ∧ Alters (· = b) s s' := by
  refine .read_bind (gives_entryBlock z hd e).and_eq fun b ⟨hb, hlt⟩ => ?_
  refine .read_bind (Disk.gives_readBlock z hlt) fun _ _ => ?_
  have hw := returns_writeBlock_same z hlt
  exact ⟨(hw _).not_panics, fun u s' h => ⟨(hw _).value u s' h, b, hb, .of_writeBlock h⟩⟩

theorem returns_freeInodeBlocks (hi : i.Fits) (hcount : s.freeBlocks + 2 ^ 17 ≤ 2 ^ 32)
    (hb : ∀ bs, s.collectBlocks i = .ok bs → ∀ b ∈ bs, b ≤ 8192) :
    (freeInodeBlocks i).Returns s fun _ s' => s'.freeInodes = s.freeInodes ∧ s.SameVolume s'.toExt2 := by
  refine .read_bind (.of_not_panics (not_panics_collectBlocks z hi)) fun bs hbs => ?_
  have hlen := length_collectBlocks_lt hbs
  split_ifs
  · exact .pure ⟨rfl, .refl _⟩
  refine .get_bind (.read_bind (Disk.gives_readBlock z z.blockBitmap) fun bits _ => ?_)
  refine .lift_bind (gives_clearBits (hb bs hbs)) fun r hle => ?_
  refine .lift_bind (.checked (by omega)) fun m hm => .modify_bind ?_
  have z1 : ({ s with freeBlocks := m } : Disk).Sized := z.of_same ⟨rfl, rfl, rfl, rfl, rfl⟩
  refine (returns_writeBlock_same z1 z.blockBitmap r.1).mono fun _ s' h => ?_
  rw [h]
  exact ⟨rfl, rfl, rfl, rfl, rfl, rfl⟩

theorem returns_freeInode (hn : n ≤ 8192) (hcount : s.freeInodes + 1 < 2 ^ 32) : (freeInode n).Returns s fun _ _ => True := by
  refine .get_bind (.read_bind (Disk.gives_readBlock z z.inodeBitmap) fun bits _ => ?_)
  refine .lift_bind (gives_clearBits (List.forall_mem_singleton.mpr hn)) fun r hle => ?_
  rw [List.length_singleton] at hle
  refine .lift_bind (.checked (by omega)) fun m _ => .modify_bind ?_
  have z1 : ({ s with freeInodes := m } : Disk).Sized := z.of_same ⟨rfl, rfl, rfl, rfl, rfl⟩
  refine (returns_writeBlock_same z1 z.inodeBitmap r.1).bind fun _ s' h => ?_
  have z2 : s'.Sized := h ▸ z1
  exact (returns_syncFreeCounts z2).mono fun _ _ _ => trivial

theorem not_panics_unlink (h : ∀ i dir name, s.resolve path = .ok (some i) → i.isDir = false → s.resolveParent path = .ok (dir, name) → Removable s dir i) :
    ¬(unlink path).Panics s := by
  refine Prog.Returns.not_panics (Q := fun _ _ => True) ?_
  refine .read_bind (Disk.gives_resolve z path).and_eq fun o ⟨ho, hnum⟩ => ?_
  match o with
  | none => exact .fail
  | some i =>
    dsimp only
    split_ifs with hdir
    · exact .fail
    have hi := hnum i rfl
    refine .read_bind (Disk.gives_resolveParent z path).and_eq fun ⟨dir, name⟩ ⟨hparent, hd, _⟩ => ?_
    have hr := h i dir name ho (Bool.eq_false_of_not_eq_true hdir) hparent
    refine .read_bind (gives_entryFor z hd.fits i.ino).and_eq fun e ⟨he, _⟩ => ?_
    refine (returns_unlinkEntry z hd.fits).bind fun _ s1 ⟨hsame, b, hb, ha⟩ => ?_
    have z1 : s1.Sized := hsame ▸ z
    have hcollect := ha.collectBlocks (i := i) fun q hq _ => hr.apart e b he hb q hq
    have hblocks : ∀ bs, s1.collectBlocks i = .ok bs → ∀ b ∈ bs, b ≤ 8192 := fun bs hbs b hb => by
      rw [hcollect] at hbs
      obtain ⟨_, p, rfl⟩ := mem_collectBlocks hbs hb
      exact hr.blocks p
    refine (returns_freeInodeBlocks z1 hi.fits (hsame ▸ hr.counts.1) hblocks).bind fun _ s2 ⟨hfree, hsame2⟩ => ?_
    exact returns_freeInode (z1.of_same hsame2) hr.number (by rw [hfree, hsame]; exact hr.counts.2)

end unlink

section calls

variable {s : Disk} {i dir : Inode} {name path : Text}

section

variable (z : s.Sized)
include z

theorem Disk.gives_resolveRename (src dst : Text) :
    Gives (s.resolveRename src dst) fun r => r.2.1.Numbered ∧ r.2.2.len ≤ 255 := by
  refine (gives_resolve z src).bind fun o _ => ?_
  match o with
  | none => exact .fail
  | some i =>
    refine (gives_resolve z dst).bind fun o' _ => ?_
    match o' with
    | some _ => exact .fail
    | none =>
      refine (gives_resolveParent z src).bind fun q hq => (gives_resolveParent z dst).bind fun q' hq' => ?_
      exact .ite (fun _ => .fail) fun _ => .ok ⟨hq.1, hq'.2⟩

theorem not_panics_rename (src dst : Text) : ¬(rename src dst).Panics s := by
  refine Prog.Returns.not_panics (Q := fun _ _ => True) ?_
  refine .read_bind (Disk.gives_resolveRename z src dst) fun ⟨i, dir, name⟩ ⟨hd, hname⟩ => ?_
  refine .read_bind (gives_entryFor z hd.fits i.ino) fun e hwithin => ?_
  refine .ite (fun _ => .fail) fun hspan => .read_bind (gives_entryBlock z hd.fits e) fun b hlt => ?_
  refine .read_bind (Disk.gives_readBlock z hlt) fun _ _ => ?_
  -- the name fits into the record and the record into the block
  have hfits : ¬e.offset % blockSize + 8 + name.len > blockSize := by
    unfold span at hspan
    dsimp only at hname
    omega
  dsimp only
  rw [if_neg hfits]
  exact (returns_writeBlock_same z hlt _).mono fun _ _ _ => trivial

theorem Disk.not_panics_readLoop (hi : i.Fits) (off want : Nat) : ¬Panics (s.readLoop i off want) := by
  induction want using Nat.strongRecOn generalizing off with | ind want ih
  unfold readLoop
  split_ifs with h0
  · exact not_panics_ok
  have hmod : off % blockSize < blockSize := Nat.mod_lt _ (by decide)
  refine Gives.not_panics (Q := fun _ => True) ((gives_mapBlock z hi _).bind fun b hb => .bind (Q := fun _ => True) ?_ fun _ _ => ?_)
  · exact .ite (fun _ => .ok trivial) fun _ => (gives_readBlock z hb).bind fun _ _ => .ok trivial
  · exact (Gives.of_not_panics (ih _ (by omega) _)).bind fun _ _ => .ok trivial

theorem Disk.not_panics_readAt (path : Text) (off : Nat) (hlen : len < 2 ^ 63) : ¬Panics (s.readAt path off len) := by
  refine Gives.not_panics (Q := fun _ => True) ((gives_resolve z path).bind fun o ho => ?_)
  match o with
  | none => exact .fail
  | some i =>
    have hi := (ho i rfl).fits
    have hsize := hi.size
    refine .ite (fun _ => .fail) fun _ => .ite (fun _ => .ok trivial) fun h => ?_
    exact (Gives.checked (by omega)).bind fun _ _ => (Gives.of_not_panics (not_panics_readLoop z hi _ _)).mono fun _ _ => trivial

theorem Disk.not_panics_listEntries (es : List DirEnt) : ¬Panics (s.listEntries es) := by
  induction es with
  | nil => exact not_panics_ok
  | cons e es hi =>
    unfold listEntries
    split_ifs
    · exact hi
    · exact not_panics_bind (gives_readInode z e.ino).not_panics fun _ _ => not_panics_bind hi fun _ _ => not_panics_ok

theorem Disk.not_panics_listPath (path : Text) : ¬Panics (s.listPath path) := by
  refine Gives.not_panics (Q := fun _ => True) ((gives_resolve z path).bind fun o ho => ?_)
  match o with
  | none => exact .fail
  | some i =>
    refine .ite (fun _ => (Gives.of_not_panics (not_panics_dirEntries z (ho i rfl).fits)).bind fun es _ => ?_) fun _ => .fail
    exact (Gives.of_not_panics (not_panics_listEntries z es)).mono fun _ _ => trivial

theorem Disk.not_panics_stat (path : Text) : ¬Panics (s.stat path) := by
  refine not_panics_bind (gives_resolve z path).not_panics fun o _ => ?_
  match o with
  | none => exact not_panics_fail
  | some i => exact not_panics_ok

def Tame (s : Disk) : Call → Prop
  | .writeAt _ path off buf =>
    off < 2 ^ 64 ∧ (∀ i, s.resolve path = .ok (some i) → i.isDir = false → buf ≠ [] → i.Roomy)
      ∧ (s.resolve path = .ok none → ∀ dir name, s.resolveParent path = .ok (dir, name) → Extensible s dir)
  | .readAt _ _ len => len < 2 ^ 63
  | .mkdir _ path => s.resolve path = .ok none → ∀ dir name, s.resolveParent path = .ok (dir, name) → Extensible s dir
  | .unlink path => ∀ i dir name, s.resolve path = .ok (some i) → i.isDir = false → s.resolveParent path = .ok (dir, name) →
      Removable s dir i
  | .list _ => True
  | .stat _ => True
  | .rename _ _ => True

theorem returns_createAt (h : ∀ dir name, s.resolveParent path = .ok (dir, name) → Extensible s dir) :
    (createAt now path).Returns s fun i s' => i.Numbered ∧ i.Roomy ∧ s.SameVolume s'.toExt2 := by
  have hreturns : (createAt now path).Returns s fun i _ => i.Numbered ∧ i.Roomy := by
    refine .read_bind (Disk.gives_resolveParent z path).and_eq fun ⟨dir, name⟩ ⟨hparent, hd, _⟩ => ?_
    exact returns_createIn z hd (h dir name hparent)
  refine ⟨hreturns.not_panics, fun i s' hr => ?_⟩
  have ⟨hi, hroomy⟩ := hreturns.value i s' hr
  exact ⟨hi, hroomy, (createAt_stays now path).of_run hr⟩

theorem not_panics_writeAt (h : Tame s (.writeAt now path off buf)) : ¬(writeAt now path off buf).Panics s := by
  have ⟨hoff, hroomy, hext⟩ := h
  refine Prog.Returns.not_panics (Q := fun _ _ => True) ?_
  unfold writeAt
  split_ifs with hbuf
  · refine .read_bind (Disk.gives_resolve z path).and_eq fun o ⟨ho, _⟩ => ?_
    match o with
    | some i => exact .pure trivial
    | none => exact (returns_createAt z (hext ho)).bind fun _ _ _ => .pure trivial
  · have hopen : (openForWrite now path).Returns s fun i s' => i.Numbered ∧ i.Roomy ∧ s.SameVolume s'.toExt2 := by
      refine .read_bind (Disk.gives_resolve z path).and_eq fun o ⟨ho, hnum⟩ => ?_
      match o with
      | some i =>
        refine .ite (fun _ => .fail) fun hdir => ?_
        exact .pure ⟨hnum i rfl, hroomy i ho (Bool.eq_false_of_not_eq_true hdir) hbuf, .refl _⟩
      | none => exact returns_createAt z (hext ho)
    exact hopen.bind fun i s1 ⟨hi, hr, hs⟩ => returns_storeAt (z.of_same hs) hi hr hoff

theorem not_panics_mkdir (h : Tame s (.mkdir now path)) : ¬(mkdir now path).Panics s := by
  refine Prog.Returns.not_panics (Q := fun _ _ => True) ?_
  refine .read_bind (Disk.gives_resolve z path).and_eq fun o ⟨ho, _⟩ => ?_
  match o with
  | some i => exact .fail
  | none =>
    refine .read_bind (Disk.gives_resolveParent z path).and_eq fun ⟨dir, name⟩ ⟨hparent, hd, _⟩ => ?_
    exact .ite (fun _ => (returns_mkdirIn z hd (h ho dir name hparent)).bind fun _ _ _ => .pure trivial) fun _ => .fail

end

theorem not_panics_bind_pure {p : Ext2M α} {f : α → β} (h : ¬p.Panics s) : ¬(p >>= fun a => pure (f a)).Panics s :=
  Prog.not_panics_bind h fun _ _ _ => Prog.not_panics_pure

theorem not_panics_exec (z : s.Sized) (h : Tame s c) : ¬(exec c).Panics s := by
  cases c with
  | writeAt now path off buf => exact not_panics_bind_pure (not_panics_writeAt z h)
  | readAt path off len => exact not_panics_bind_pure (p := Prog.read _) (Disk.not_panics_readAt z path off h)
  | mkdir now path => exact not_panics_bind_pure (not_panics_mkdir z h)
  | list path => exact not_panics_bind_pure (p := Prog.read _) (Disk.not_panics_listPath z path)
  | stat path => exact not_panics_bind_pure (p := Prog.read _) (Disk.not_panics_stat z path)
  | unlink path => exact not_panics_bind_pure (not_panics_unlink z h)
  | rename src dst => exact not_panics_bind_pure (not_panics_rename z src dst)

theorem along_not_panics (z : s.Sized) (h : Prog.Along exec Tame cs s) : Prog.Along exec (fun s c => ¬(exec c).Panics s) cs s := by
  induction cs generalizing s with
  | nil => trivial
  | cons c cs hi => exact ⟨not_panics_exec z h.1, hi (z.of_same (exec_stays c s)) h.2⟩

-- run out is not modelled.
theorem media_safe (d : AtaDrive) (ps : Nat) (v : Ext2) (cs : List Call) (hm : mount d ps = .ok v) (hd : d.totalSectors ≤ 2 ^ 48)
    (h : Prog.Along exec Tame cs ⟨v, d⟩) : Prog.Along exec (fun s c => ¬(exec c).Panics s) cs ⟨v, d⟩ :=
  along_not_panics (mount_eq_ok hm hd) h

theorem ptr_small : (∃ k, p = .field k) ∨ small.ptr (small.node 11) p = 0 :=
  Disk.ptr_of_direct (by decide +kernel) (by decide +kernel)

theorem removable_small : Removable small (small.node 2) (small.node 11) where
  number := by decide
  blocks := by
    intro p
    have hfield : ∀ k : Fin 14, small.ptr (small.node 11) (.field k) ≤ 8192 := by decide +kernel
    obtain ⟨k, rfl⟩ | hp := ptr_small (p := p)
    · exact hfield k
    · rw [hp]
      exact Nat.zero_le _
  counts := by decide
  apart := by
    intro e b he hb q _
    have hentry : small.entryFor (small.node 2) (small.node 11).ino = .ok ⟨11, ['A'], 1000, 24⟩ := by decide +kernel
    have hblock : small.entryBlock (small.node 2) ⟨11, ['A'], 1000, 24⟩ = .ok 7 := by decide +kernel
    have hfield : ∀ k : Fin 14, small.ptr (small.node 11) (.field k) ≠ 7 := by decide +kernel
    rw [hentry] at he
    cases he
    rw [hblock] at hb
    cases hb
    obtain ⟨k, rfl⟩ | hp := ptr_small (p := q)
    · exact hfield k
    · rw [hp]
      decide

theorem unlink_small_safe : Prog.Along exec (fun s c => ¬(exec c).Panics s) [.unlink ['/', 'A'], .stat ['/', 'A']] small := by
  refine media_safe small.dev 0 small.toExt2 _ mount_small (by decide) ⟨?_, trivial, trivial⟩
  intro i dir name hi _ hparent
  have hnode := hi.symm.trans resolve_small
  cases hnode
  have hroot : small.resolveParent ['/', 'A'] = .ok (small.node 2, ['A']) := by decide +kernel
  rw [hroot] at hparent
  cases hparent
  exact removable_small

-- The file has a block that the bitmap has no bit for.
def smallStray : Disk := small.put 6 ((small.block 6).patch 296 (toLe 4 9000))

theorem media_panics : mount smallStray.dev 0 = .ok smallStray.toExt2 ∧ (exec (.unlink ['/', 'A'])).Panics smallStray := by
  refine ⟨by decide +kernel, panicked_eq_true.mp ?_⟩
  decide +kernel

end calls

end Ext2
