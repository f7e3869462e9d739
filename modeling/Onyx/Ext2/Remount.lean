import Onyx.Ext2.Call
import Onyx.Ext2.Tree
import Onyx.Lib.Execution

-- `sync_free_counts` puts its counts where `mount` looks for the inode table: only calls that allocate nothing are safe.

open Lib List Result

namespace Ext2

variable {s s' : Disk} {i : Inode}

-- A mount of the image as it is now gives what the mounted instance has.
def Remounts (s : Disk) : Prop :=
  ∃ v, mount s.dev s.partStart = .ok v ∧ v.blocksCount = s.blocksCount ∧ v.inodesCount = s.inodesCount ∧
    v.blockBitmap = s.blockBitmap ∧ v.inodeBitmap = s.inodeBitmap ∧ v.inodeTable = s.inodeTable ∧
    v.freeBlocks = s.freeBlocks ∧ v.freeInodes = s.freeInodes

-- The mounted instance is what `mount` finds.
def Mounted (s : Disk) : Prop := mount s.dev s.partStart = .ok s.toExt2

structure Kept (s s' : Disk) : Prop where
  volume : s'.toExt2 = s.toExt2
  onDisk : ∀ b, s'.OnDisk b ↔ s.OnDisk b
  super : s'.block 1 = s.block 1
  desc : s'.block 2 = s.block 2

theorem Kept.refl (s : Disk) : Kept s s := ⟨rfl, fun _ => Iff.rfl, rfl, rfl⟩

theorem Kept.trans (h : Kept s s1) (h' : Kept s1 s') : Kept s s' :=
  ⟨h'.volume.trans h.volume, fun b => (h'.onDisk b).trans (h.onDisk b), h'.super.trans h.super, h'.desc.trans h.desc⟩

theorem kept_put (hl : data.length = blockSize) (h1 : b ≠ 1) (h2 : b ≠ 2) : Kept s (s.put b data) :=
  ⟨rfl, fun _ => Iff.rfl, Disk.block_put_of_ne hl h1.symm, Disk.block_put_of_ne hl h2.symm⟩

theorem Mounted.onDisk (h : Mounted s) : s.OnDisk 1 ∧ s.OnDisk 2 := by
  obtain ⟨sb, hsb, h⟩ := bind_eq_ok.mp h
  generalize (if sb.u32At 76 = 0 then inodeSize else sb.u16At 88) = size at h
  split_ifs at h
  any_goals cases h
  obtain ⟨gd, hgd, _⟩ := bind_eq_ok.mp h
  exact ⟨(Disk.readBlock_eq_ok.mp hsb).1, (Disk.readBlock_eq_ok.mp hgd).1⟩

theorem Mounted.kept (hm : Mounted s) (h : Kept s s') : Mounted s' := by
  have ⟨h1, h2⟩ := hm.onDisk
  have hsb : s'.readBlock 1 = s.readBlock 1 := by
    rw [Disk.readBlock_of_onDisk h1, Disk.readBlock_of_onDisk ((h.onDisk 1).mpr h1), h.super]
  have hgd : s'.readBlock 2 = s.readBlock 2 := by
    rw [Disk.readBlock_of_onDisk h2, Disk.readBlock_of_onDisk ((h.onDisk 2).mpr h2), h.desc]
  have hps : s'.partStart = s.partStart := congrArg partStart h.volume
  simp only [Disk.readBlock, hps] at hsb hgd
  unfold Mounted at hm ⊢
  rw [h.volume, ← hm]
  simp [mount, hsb, hgd]

-- The calls that keep what `mount` reads.
section quiet

structure Backed (s : Disk) (i : Inode) (off len : Nat) : Prop where
  node : s.nodeBlock i.ino ≠ 1 ∧ s.nodeBlock i.ino ≠ 2
  mapped : ∀ p, off ≤ p → p < off + len → ∃ b, s.mapBlock i (p / blockSize % 2 ^ 32) = .ok b ∧ b ≠ 0 ∧ b ≠ 1 ∧ b ≠ 2 ∧
    ∀ q : Place, ¬q.IsLeaf → s.ptr i q ≠ b

theorem not_isLeaf_of_mem_above {p q : Place} (h : q ∈ p.above) : ¬q.IsLeaf := by
  cases p with
  | field k => cases h
  | single k =>
    cases mem_singleton.mp h
    decide
  | outer j =>
    cases mem_singleton.mp h
    decide
  | inner j k =>
    obtain rfl | rfl := mem_pair.mp h
    · decide
    · exact id

variable {data : Bytes} (hl : data.length = blockSize) (hb : ∀ q : Place, ¬q.IsLeaf → s.ptr i q ≠ b)
include hl hb

theorem ptr_put (p : Place) : (s.put b data).ptr i p = s.ptr i p :=
  Disk.ptr_congr fun q hq _ => Disk.block_put_of_ne hl (hb q (not_isLeaf_of_mem_above hq))

theorem mapBlock_put (h : s.mapBlock i idx = .ok c) : (s.put b data).mapBlock i idx = .ok c := by
  obtain ⟨p, hp, hr, hc⟩ := Disk.mapBlock_eq_ok.mp h
  refine Disk.mapBlock_eq_ok.mpr ⟨p, hp, fun q hq => ?_, (ptr_put hl hb p).trans hc⟩
  rw [ptr_put hl hb q]
  exact hr q hq

theorem Backed.put (h : Backed s i off len) : Backed (s.put b data) i off len where
  node := h.node
  mapped := fun p h1 h2 =>
    have ⟨c, hc, h0, hsuper, hdesc, ht⟩ := h.mapped p h1 h2
    ⟨c, mapBlock_put hl hb hc, h0, hsuper, hdesc, fun q hq => (ptr_put hl hb q).symm ▸ ht q hq⟩

omit hl hb

theorem writePart_eq_ok (hle : o + part.length ≤ blockSize) (h : (writePart b o part).run s = (.ok u, s')) :
    s.OnDisk b ∧ ∃ data, data.length = blockSize ∧ s' = s.put b data := by
  unfold writePart at h
  split_ifs at h
  · obtain ⟨data, hdata, h⟩ := read_bind_eq_ok.mp h
    have hlen : data.length = blockSize := (Disk.readBlock_eq_ok.mp hdata).2 ▸ Disk.length_block
    have hpatch : (data.patch o part).length = blockSize := (Bytes.length_patch (by omega)).trans hlen
    have ⟨hd, hs⟩ := (writeBlock_eq_ok hpatch).mp h
    exact ⟨hd, _, hpatch, hs⟩
  · have hpatch : (zeroBlock.patch o part).length = blockSize :=
      (Bytes.length_patch (by rw [length_zeroBlock]; exact hle)).trans length_zeroBlock
    have ⟨hd, hs⟩ := (writeBlock_eq_ok hpatch).mp h
    exact ⟨hd, _, hpatch, hs⟩

theorem writeLoop_kept (hb : Backed s i off buf.length) (h : (writeLoop i off buf).run s = (.ok j, s')) :
    j = i ∧ Kept s s' := by
  induction hn : buf.length using Nat.strongRecOn generalizing s off buf with | ind n hi
  unfold writeLoop at h
  split_ifs at h with hbuf
  · cases h
    exact ⟨rfl, .refl _⟩
  have hpos : 0 < buf.length := length_pos_of_ne_nil hbuf
  have hmod : off % blockSize < blockSize := Nat.mod_lt _ (by decide)
  obtain ⟨b, hmap, h0, hsuper, hdesc, ht⟩ := hb.mapped off (Nat.le_refl _) (by omega)
  obtain ⟨_, _, h⟩ := (read_bind_eq_ok (g := fun _ => checked 64 off)).mp h
  rw [bind_run_ok (ensureBlock_of_mapped hmap h0)] at h
  obtain ⟨_, s1, hw, h⟩ := bind_eq_ok.mp h
  obtain ⟨_, data, hl, rfl⟩ := writePart_eq_ok (by rw [length_take]; omega) hw
  have hrest : Backed (s.put b data) i (off + min (blockSize - off % blockSize) buf.length)
      (buf.drop (min (blockSize - off % blockSize) buf.length)).length := by
    refine ⟨hb.node, fun p h1 h2 => (hb.put hl ht).mapped p (by omega) ?_⟩
    rw [length_drop] at h2
    omega
  have ⟨hj, hkept⟩ := hi _ (by rw [length_drop]; omega) hrest h rfl
  exact ⟨hj, (kept_put hl hsuper hdesc).trans hkept⟩

theorem kept_putNode (h : s.nodeBlock i.ino ≠ 1 ∧ s.nodeBlock i.ino ≠ 2) : Kept s (s.putNode i) :=
  kept_put Disk.length_patch_record h.1 h.2

theorem storeAt_kept (hb : Backed s i off buf.length) (h : (storeAt now i off buf).run s = (.ok n, s')) : Kept s s' := by
  obtain ⟨j, s1, hloop, hnode⟩ := bind_eq_ok.mp h
  obtain ⟨rfl, hkept⟩ := writeLoop_kept hb hloop
  obtain ⟨stop, _, h⟩ := (read_bind_eq_ok (g := fun _ => checked 64 (off + buf.length))).mp hnode
  obtain ⟨_, s2, hnode, h⟩ := bind_eq_ok.mp h
  obtain ⟨_, rfl⟩ := writeInode_eq_ok hnode
  cases h
  refine hkept.trans (kept_putNode ?_)
  rw [Inode.ino_touch]
  have hsame : s1.nodeBlock j.ino = s.nodeBlock j.ino := by rw [hkept.volume]
  rw [hsame]
  exact hb.node

-- A call that allocates and frees nothing and writes to no block that `mount` reads.
def Quiet (s : Disk) : Call → Prop
  | .writeAt _ path off buf => ∃ i, s.resolve path = .ok (some i) ∧ (buf ≠ [] → Backed s i off buf.length)
  | .readAt _ _ _ => True
  | .mkdir _ _ => False
  | .list _ => True
  | .stat _ => True
  | .unlink _ => False
  | .rename src dst => ∀ i dir name e b, s.resolveRename src dst = .ok (i, dir, name) → s.entryFor dir i.ino = .ok e →
      s.entryBlock dir e = .ok b → b ≠ 1 ∧ b ≠ 2

theorem renameEntry_eq_ok (h : (renameEntry dir e name).run s = (.ok u, s')) :
    ∃ b data, s.entryBlock dir e = .ok b ∧ data.length = blockSize ∧ s' = s.put b data := by
  unfold renameEntry at h
  split_ifs at h with hspan
  · cases (Prod.mk.inj h).1
  obtain ⟨b, hb, h⟩ := read_bind_eq_ok.mp h
  obtain ⟨data, hdata, h⟩ := read_bind_eq_ok.mp h
  dsimp only at h
  split_ifs at h with hlen
  · cases (Prod.mk.inj h).1
  have hl : data.length = blockSize := (Disk.readBlock_eq_ok.mp hdata).2 ▸ Disk.length_block
  have hpatch : (data.patches [(e.offset % blockSize + 6, [.ofNat (name.len % 256)]),
      (e.offset % blockSize + 8, name.utf8)]).length = blockSize := by
    rw [Bytes.length_patches, hl]
    simp only [forall_mem_cons, not_mem_nil, Text.length_utf8, length_singleton, hl]
    exact ⟨by omega, by omega, nofun⟩
  exact ⟨b, _, hb, hpatch, ((writeBlock_eq_ok hpatch).mp h).2⟩

theorem exec_kept (hq : Quiet s c) (h : (exec c).run s = (.ok r, s')) : Kept s s' := by
  cases c with
  | writeAt now path off buf =>
    obtain ⟨n, s1, hwrite, h⟩ := bind_eq_ok.mp h
    cases h
    obtain ⟨i, hi, hb⟩ := hq
    unfold writeAt at hwrite
    split_ifs at hwrite with hbuf
    · obtain ⟨o, ho, hwrite⟩ := read_bind_eq_ok.mp hwrite
      cases ho.symm.trans hi
      cases hwrite
      exact .refl _
    · obtain ⟨j, s2, hopen, hwrite⟩ := bind_eq_ok.mp hwrite
      obtain ⟨o, ho, hopen⟩ := read_bind_eq_ok.mp hopen
      cases ho.symm.trans hi
      dsimp only at hopen
      split_ifs at hopen
      · cases (Prod.mk.inj hopen).1
      · cases hopen
        exact storeAt_kept (hb hbuf) hwrite
  | readAt path off len =>
    obtain ⟨_, _, h⟩ := read_bind_eq_ok.mp h
    cases h
    exact .refl _
  | mkdir now path => exact hq.elim
  | list path =>
    obtain ⟨_, _, h⟩ := read_bind_eq_ok.mp h
    cases h
    exact .refl _
  | stat path =>
    obtain ⟨_, _, h⟩ := read_bind_eq_ok.mp h
    cases h
    exact .refl _
  | unlink path => exact hq.elim
  | rename src dst =>
    obtain ⟨_, s1, hrename, h⟩ := bind_eq_ok.mp h
    cases h
    obtain ⟨⟨i, dir, name⟩, hboth, hrename⟩ := read_bind_eq_ok.mp hrename
    obtain ⟨e, he, hrename⟩ := read_bind_eq_ok.mp hrename
    obtain ⟨b, data, hb, hl, rfl⟩ := renameEntry_eq_ok hrename
    have ⟨h1, h2⟩ := hq i dir name e b hboth he hb
    exact kept_put hl h1 h2

end quiet

def Succeeds (s : Disk) (c : Call) (s' : Disk) : Prop := ∃ r, (exec c).run s = (.ok r, s')

theorem partStart_of_mount (h : mount d ps = .ok v) : v.partStart = ps := by
  obtain ⟨sb, _, h⟩ := bind_eq_ok.mp h
  generalize (if sb.u32At 76 = 0 then inodeSize else sb.u16At 88) = size at h
  split_ifs at h
  any_goals cases h
  obtain ⟨gd, _, h⟩ := bind_eq_ok.mp h
  split_ifs at h
  any_goals cases h
  rfl

theorem succeeds_of_run (h : ((exec c).run s).1 = .ok r) : Succeeds s c ((exec c).run s).2 := ⟨r, Prod.ext h rfl⟩

theorem backed_small : Backed small (small.node 11) 0 1 where
  node := by decide
  mapped := by
    intro p _ hp
    obtain rfl : p = 0 := by omega
    refine ⟨8, by decide +kernel, by decide, by decide, by decide, fun q hq => ?_⟩
    have hfield : ∀ k : Fin 14, ¬k.val < direct → small.ptr (small.node 11) (.field k) ≠ 8 := by decide +kernel
    obtain ⟨k, rfl⟩ | hptr := Disk.ptr_of_direct (s := small) (i := small.node 11) (p := q) (by decide +kernel) (by decide +kernel)
    · exact hfield k hq
    · rw [hptr]
      decide

def overwriteA : Call := .writeAt .zeroed ['/', 'A'] 0 [66]

theorem overwriteA_run : ((exec overwriteA).run small).1 = .ok (.written 1) := by decide +kernel

theorem quiet_overwriteA : Quiet small overwriteA := ⟨small.node 11, resolve_small, fun _ => backed_small⟩

def extendA : Call := .writeAt .zeroed ['/', 'A'] 1024 [1]

end Ext2
