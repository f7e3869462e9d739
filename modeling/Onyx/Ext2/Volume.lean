import Onyx.Ext2.File

-- An ext2 volume as a map from block numbers to contents, and what the primitives of the driver do to it.

open Lib List Bytes

namespace Ext2

open AtaDrive (sectorSize)

-- Instances of one volume; they may differ in the cached counts.
structure SameVolume (v w : Ext2) : Prop where
  partStart : w.partStart = v.partStart
  inodesCount : w.inodesCount = v.inodesCount
  blockBitmap : w.blockBitmap = v.blockBitmap
  inodeBitmap : w.inodeBitmap = v.inodeBitmap
  inodeTable : w.inodeTable = v.inodeTable

theorem SameVolume.refl (v : Ext2) : v.SameVolume v :=
  ⟨rfl, rfl, rfl, rfl, rfl⟩

theorem SameVolume.trans {u v w : Ext2} (h1 : u.SameVolume v) (h2 : v.SameVolume w) : u.SameVolume w where
  partStart := h2.partStart.trans h1.partStart
  inodesCount := h2.inodesCount.trans h1.inodesCount
  blockBitmap := h2.blockBitmap.trans h1.blockBitmap
  inodeBitmap := h2.inodeBitmap.trans h1.inodeBitmap
  inodeTable := h2.inodeTable.trans h1.inodeTable

namespace Disk

variable {s s' : Disk} {b b' : Nat} {data : Bytes}

def block (s : Disk) (b : Nat) : Bytes := s.dev.content ((s.partStart + b * 2) * sectorSize) blockSize

def OnDisk (s : Disk) (b : Nat) : Prop := s.dev.InRange (s.partStart + b * 2) 2

def put (s : Disk) (b : Nat) (data : Bytes) : Disk :=
  { s with dev := s.dev.store ((s.partStart + b * 2) * sectorSize) data }

@[simp]
theorem length_block : (s.block b).length = blockSize :=
  AtaDrive.length_content

@[simp]
theorem toExt2_put : (s.put b data).toExt2 = s.toExt2 :=
  rfl

theorem block_put_self (hl : data.length = blockSize) : (s.put b data).block b = data := by
  have h : (s.put b data).block b = (s.dev.store ((s.partStart + b * 2) * sectorSize) data).content
    ((s.partStart + b * 2) * sectorSize) data.length := by rw [hl]; rfl
  rw [h, AtaDrive.content_store_self]

theorem block_put_of_ne (hl : data.length = blockSize) (h : b' ≠ b) : (s.put b data).block b' = s.block b' := by
  apply AtaDrive.content_store_of_disjoint
  show (s.partStart + b' * 2) * 512 + 1024 ≤ (s.partStart + b * 2) * 512 ∨
    (s.partStart + b * 2) * 512 + data.length ≤ (s.partStart + b' * 2) * 512
  rw [hl, blockSize]
  omega

theorem OnDisk.lt (h : s.OnDisk b) : s.partStart + b * 2 < 2 ^ 64 :=
  Nat.lt_of_le_of_lt (Nat.le_add_right ..) h.1

theorem readBlock_of_onDisk (h : s.OnDisk b) : s.readBlock b = .ok (s.block b) := by
  simp only [readBlock, readPartBlock, checked_of_lt h.lt, ok_bind, AtaDrive.readSectors,
    if_pos (show s.dev.InRange _ _ from h)]
  rfl

theorem readBlock_eq_ok : s.readBlock b = .ok data ↔ s.OnDisk b ∧ s.block b = data := by
  constructor
  · intro h
    by_cases hd : s.OnDisk b
    · rw [readBlock_of_onDisk hd, Except.ok.injEq] at h
      exact ⟨hd, h⟩
    simp only [readBlock, readPartBlock, AtaDrive.readSectors] at h
    obtain ⟨lba, hlba, h⟩ := Result.bind_eq_ok.mp h
    cases (checked_eq_ok.mp hlba).1
    rw [if_neg (show ¬ s.dev.InRange _ _ from hd)] at h
    cases h
  · intro ⟨hd, h⟩
    rw [readBlock_of_onDisk hd, h]

end Disk

variable {s s' : Disk} {b : Nat} {data : Bytes}

theorem writeBlock_run (hl : data.length = blockSize) (h : s.OnDisk b) :
    (writeBlock b data).run s = (.ok (), s.put b data) := by
  have ht : data.take (2 * sectorSize) = data := take_of_length_le (Nat.le_of_eq hl)
  simp only [writeBlock, checked_of_lt h.lt, AtaDrive.writeSectors, ht, if_pos (show s.dev.InRange _ _ from h)]
  rfl

theorem writeBlock_eq_ok (hl : data.length = blockSize) :
    (writeBlock b data).run s = (.ok u, s') ↔ s.OnDisk b ∧ s' = s.put b data := by
  constructor
  · intro h
    by_cases hd : s.OnDisk b
    · rw [writeBlock_run hl hd] at h
      exact ⟨hd, (Prod.mk.inj h).2.symm⟩
    simp only [writeBlock, AtaDrive.writeSectors] at h
    split at h
    case h_1 => cases (Prod.mk.inj h).1
    case h_2 hlba =>
      cases (checked_eq_ok.mp hlba).1
      rw [if_neg (show ¬ s.dev.InRange _ _ from hd)] at h
      cases (Prod.mk.inj h).1
  · intro ⟨hd, h⟩
    rw [writeBlock_run hl hd, h]

theorem readBlock_of_not_onDisk (h : ¬s.OnDisk b) :
    s.readBlock b = checked 64 (s.partStart + b * 2) >>= fun _ => fail (.io .outOfRange) := by
  unfold Disk.readBlock readPartBlock
  cases hc : (checked 64 (s.partStart + b * 2) : Result FsError Nat) with
  | error e => rfl
  | ok lba =>
    cases (checked_eq_ok.mp hc).1
    rw [ok_bind, ok_bind, AtaDrive.readSectors, if_neg (show ¬s.dev.InRange _ _ from h)]

-- At most the blocks in `P` have changed.
structure Alters (P : Nat → Prop) (s s' : Disk) : Prop where
  same : s.SameVolume s'.toExt2
  onDisk : ∀ b, s'.OnDisk b ↔ s.OnDisk b
  block : ∀ b, ¬P b → s'.block b = s.block b

namespace Alters

variable {P Q : Nat → Prop} {s1 : Disk}

theorem trans (h : Alters P s s1) (h' : Alters P s1 s') : Alters P s s' where
  same := h.same.trans h'.same
  onDisk := fun b => (h'.onDisk b).trans (h.onDisk b)
  block := fun b hb => (h'.block b hb).trans (h.block b hb)

theorem mono (h : Alters P s s') (hpq : ∀ b, P b → Q b) : Alters Q s s' :=
  ⟨h.same, h.onDisk, fun b hb => h.block b (mt (hpq b) hb)⟩

theorem put (hl : data.length = blockSize) (hb : P b) : Alters P s (s.put b data) :=
  ⟨.refl _, fun _ => Iff.rfl, fun _ hc => Disk.block_put_of_ne hl fun h => hc (h ▸ hb)⟩

theorem of_writeBlock (h : (writeBlock b data).run s = (.ok u, s')) : Alters (· = b) s s' := by
  unfold writeBlock at h
  dsimp only at h
  split at h
  · cases h
  next lba hlba =>
    cases (checked_eq_ok.mp hlba).1
    unfold AtaDrive.writeSectors at h
    split_ifs at h
    · cases h
      refine ⟨⟨rfl, rfl, rfl, rfl, rfl⟩, fun _ => Iff.rfl, fun c hc => AtaDrive.content_store_of_disjoint ?_⟩
      have hlen : (data.take (2 * sectorSize)).length ≤ 1024 := length_take_le ..
      simp only [sectorSize, blockSize] at hlen ⊢
      omega
    · cases h

theorem readBlock (h : Alters P s s') (hb : ¬P b) : s'.readBlock b = s.readBlock b := by
  by_cases hd : s.OnDisk b
  · rw [Disk.readBlock_of_onDisk hd, Disk.readBlock_of_onDisk ((h.onDisk b).mpr hd), h.block b hb]
  · rw [readBlock_of_not_onDisk hd, readBlock_of_not_onDisk (mt (h.onDisk b).mp hd), h.same.partStart]

end Alters

@[simp]
theorem length_zeroBlock : zeroBlock.length = blockSize :=
  length_replicate

theorem length_writeEntry (h : off + 8 + name.len ≤ buf.length) :
    (writeEntry buf off ino name len).length = buf.length := by
  refine length_patches fun f hf => ?_
  simp only [mem_cons, not_mem_nil, or_false] at hf
  obtain rfl | rfl | rfl | rfl | rfl := hf
  all_goals
    simp only [length_toLe, length_singleton, Text.length_utf8]
    omega

theorem length_dotEntries (n m : Nat) :
    (writeEntry (writeEntry zeroBlock 0 n Vfs.dot 12) 12 m Vfs.dotdot (blockSize - 12)).length = blockSize := by
  have hdot : (writeEntry zeroBlock 0 n Vfs.dot 12).length = blockSize := by
    rw [length_writeEntry, length_zeroBlock]
    rw [length_zeroBlock]
    decide
  rw [length_writeEntry, hdot]
  rw [hdot]
  decide

section sync

def Disk.syncedSuper (s : Disk) : Bytes :=
  (s.block 1).patches [(12, toLe 4 s.freeBlocks), (16, toLe 4 s.freeInodes)]

def Disk.syncedDescriptor (s : Disk) : Bytes :=
  (s.block 2).patches [(8, toLe 2 (s.freeBlocks % 2 ^ 16)), (10, toLe 2 (s.freeInodes % 2 ^ 16))]

def Disk.synced (s : Disk) : Disk := (s.put 1 s.syncedSuper).put 2 s.syncedDescriptor

@[simp]
theorem length_syncedSuper : s.syncedSuper.length = blockSize := by
  rw [Disk.syncedSuper, length_patches (by simp [blockSize]), Disk.length_block]

@[simp]
theorem length_syncedDescriptor : s.syncedDescriptor.length = blockSize := by
  rw [Disk.syncedDescriptor, length_patches (by simp [blockSize]), Disk.length_block]

theorem block_put_syncedSuper : (s.put 1 s.syncedSuper).block 2 = s.block 2 :=
  Disk.block_put_of_ne length_syncedSuper (by decide)

theorem syncFreeCounts_eq_ok (h : syncFreeCounts.run s = (.ok u, s')) : s.OnDisk 1 ∧ s.OnDisk 2 ∧ s' = s.synced := by
  have ⟨_, hs, h⟩ := read_bind_eq_ok.mp h
  cases hs
  obtain ⟨_, hb, h⟩ := read_bind_eq_ok.mp h
  have ⟨h1, hb⟩ := Disk.readBlock_eq_ok.mp hb
  subst hb
  have ⟨_, s1, hw, h⟩ := bind_eq_ok.mp h
  have ⟨_, hs1⟩ := (writeBlock_eq_ok length_syncedSuper).mp hw
  subst hs1
  obtain ⟨_, hb, h⟩ := read_bind_eq_ok.mp h
  have ⟨h2, hb⟩ := Disk.readBlock_eq_ok.mp hb
  rw [block_put_syncedSuper] at hb
  subst hb
  exact ⟨h1, h2, ((writeBlock_eq_ok length_syncedDescriptor).mp h).2⟩

theorem block_synced_of_ne (h1 : c ≠ 1) (h2 : c ≠ 2) : s.synced.block c = s.block c := by
  rw [Disk.synced, Disk.block_put_of_ne length_syncedDescriptor h2, Disk.block_put_of_ne length_syncedSuper h1]

end sync

section alloc

variable {i : Nat}

def Disk.taken (s : Disk) (i : Nat) : Disk :=
  { s.put s.blockBitmap ((s.block s.blockBitmap).setBit i) with freeBlocks := s.freeBlocks - 1 }

def Disk.allocated (s : Disk) (i : Nat) : Disk := (s.taken i).synced.put (i + 1) zeroBlock

theorem takeBit_eq_ok (h : (takeBit bm).run s = (.ok i, s')) :
    s.OnDisk bm ∧ (s.block bm).firstClear = some i ∧ s' = s.put bm ((s.block bm).setBit i) := by
  obtain ⟨_, hb, h⟩ := read_bind_eq_ok.mp h
  have ⟨hd, hb⟩ := Disk.readBlock_eq_ok.mp hb
  subst hb
  split at h
  case h_1 => cases (Prod.mk.inj h).1
  case h_2 j hj =>
    have ⟨_, s1, hw, h⟩ := bind_eq_ok.mp h
    have ⟨hij, hs⟩ := Prod.mk.inj h
    cases hij
    exact ⟨hd, hj, hs ▸ ((writeBlock_eq_ok (by simp)).mp hw).2⟩

structure Allocates (s : Disk) (i : Nat) : Prop where
  counted : s.freeBlocks ≠ 0
  clear : (s.block s.blockBitmap).firstClear = some i
  bitmap : s.OnDisk s.blockBitmap
  super : s.OnDisk 1
  desc : s.OnDisk 2
  fresh : s.OnDisk (i + 1)

theorem allocBlock_eq_ok (h : allocBlock.run s = (.ok b, s')) :
    ∃ i, Allocates s i ∧ b = i + 1 ∧ s' = s.allocated i := by
  have ⟨_, hs, h⟩ := read_bind_eq_ok.mp h
  cases hs
  split_ifs at h with h0
  · cases (Prod.mk.inj h).1
  have ⟨i, s1, h1, h⟩ := bind_eq_ok.mp h
  have ⟨hd, hi, hs1⟩ := takeBit_eq_ok h1
  subst hs1
  have ⟨_, s2, h2, h⟩ := bind_eq_ok.mp h
  have hs2 : s.taken i = s2 := (Prod.mk.inj h2).2
  subst hs2
  have ⟨_, s3, h3, h⟩ := bind_eq_ok.mp h
  have ⟨hd1, hd2, hs3⟩ := syncFreeCounts_eq_ok h3
  subst hs3
  have ⟨_, s4, h4, h⟩ := bind_eq_ok.mp h
  have ⟨hd3, hs4⟩ := (writeBlock_eq_ok length_zeroBlock).mp h4
  subst hs4
  have ⟨hb, hs⟩ := Prod.mk.inj h
  cases hb
  exact ⟨i, ⟨h0, hi, hd, hd1, hd2, hd3⟩, rfl, hs.symm⟩

def Disk.allocatedInode (s : Disk) (i : Nat) : Disk :=
  { s.put s.inodeBitmap ((s.block s.inodeBitmap).setBit i) with freeInodes := s.freeInodes - 1 }.synced

structure AllocatesInode (s : Disk) (i : Nat) : Prop where
  counted : s.freeInodes ≠ 0
  clear : (s.block s.inodeBitmap).firstClear = some i
  bitmap : s.OnDisk s.inodeBitmap
  super : s.OnDisk 1
  desc : s.OnDisk 2

theorem allocInode_eq_ok (h : allocInode.run s = (.ok n, s')) :
    ∃ i, AllocatesInode s i ∧ n = i + 1 ∧ s' = s.allocatedInode i := by
  have ⟨_, hs, h⟩ := read_bind_eq_ok.mp h
  cases hs
  split_ifs at h with h0
  · cases (Prod.mk.inj h).1
  have ⟨i, s1, h1, h⟩ := bind_eq_ok.mp h
  have ⟨hd, hi, hs1⟩ := takeBit_eq_ok h1
  subst hs1
  have ⟨_, s2, h2, h⟩ := bind_eq_ok.mp h
  cases h2
  have ⟨_, s3, h3, h⟩ := bind_eq_ok.mp h
  have ⟨hd1, hd2, hs3⟩ := syncFreeCounts_eq_ok h3
  subst hs3
  have ⟨hn, hs⟩ := Prod.mk.inj h
  cases hn
  exact ⟨i, ⟨h0, hi, hd, hd1, hd2⟩, rfl, hs.symm⟩

theorem Alters.synced (h1 : P 1) (h2 : P 2) : Alters P s s.synced :=
  (Alters.put length_syncedSuper h1).trans (.put length_syncedDescriptor h2)

theorem alters_allocatedInode : Alters (fun b => b = s.inodeBitmap ∨ b = 1 ∨ b = 2) s (s.allocatedInode i) := by
  have hput : Alters (fun b => b = s.inodeBitmap ∨ b = 1 ∨ b = 2) s
      { s.put s.inodeBitmap ((s.block s.inodeBitmap).setBit i) with freeInodes := s.freeInodes - 1 } :=
    ⟨⟨rfl, rfl, rfl, rfl, rfl⟩, fun _ => Iff.rfl, (Alters.put (by simp) (.inl rfl)).block⟩
  exact hput.trans (.synced (.inr (.inl rfl)) (.inr (.inr rfl)))

theorem alters_allocated : Alters (fun b => b = s.blockBitmap ∨ b = 1 ∨ b = 2 ∨ b = i + 1) s (s.allocated i) := by
  have htaken : Alters (fun b => b = s.blockBitmap ∨ b = 1 ∨ b = 2 ∨ b = i + 1) s (s.taken i) :=
    ⟨⟨rfl, rfl, rfl, rfl, rfl⟩, fun _ => Iff.rfl, (Alters.put (by simp) (.inl rfl)).block⟩
  refine (htaken.trans (.synced (.inr (.inl rfl)) (.inr (.inr (.inl rfl))))).trans ?_
  exact .put length_zeroBlock (.inr (.inr (.inr rfl)))

variable {c : Nat}

theorem sameVolume_allocated : s.SameVolume (s.allocated i).toExt2 :=
  ⟨rfl, rfl, rfl, rfl, rfl⟩

end alloc

end Ext2
