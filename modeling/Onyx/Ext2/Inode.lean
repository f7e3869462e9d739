import Onyx.Ext2.Volume

-- Inodes in the inode table: a record is read as it was written, and other records stay.

open Lib

namespace Ext2

namespace Inode

-- The fields have the widths they have on disk.
structure Fits (i : Inode) : Prop where
  mode : i.mode < 2 ^ 16
  size : i.size < 2 ^ 32
  sectors : i.sectors < 2 ^ 32
  atime : i.atime < 2 ^ 32
  ctime : i.ctime < 2 ^ 32
  mtime : i.mtime < 2 ^ 32
  blocks : ∀ k : Fin 15, i.blocks[k] < 2 ^ 32

theorem fits_decode (ino : Nat) (p : Bytes) : (decode ino p).Fits where
  mode := p.u16At_lt 0
  size := p.u32At_lt 4
  sectors := p.u32At_lt 28
  atime := p.u32At_lt 8
  ctime := p.u32At_lt 12
  mtime := p.u32At_lt 16
  blocks := fun k => by simpa [decode] using p.u32At_lt _

theorem Fits.link {i : Inode} {sectors nb : Nat} (h : i.Fits) (k : Fin 15) (hb : nb < 2 ^ 32) (hs : sectors < 2 ^ 32) :
    Fits { i with blocks := i.blocks.set k nb, sectors } where
  mode := h.mode
  size := h.size
  sectors := hs
  atime := h.atime
  ctime := h.ctime
  mtime := h.mtime
  blocks := fun j => by
    simp only [Fin.getElem_fin, Vector.getElem_set]
    split_ifs
    · exact hb
    · exact h.blocks j

variable {i : Inode} {p : Bytes}

-- Offset and width of the fields of a record.
def extents : List (Nat × Nat) :=
  [(0, 2), (4, 4), (28, 4), (8, 4), (12, 4), (16, 4)] ++ (List.finRange 15).map fun k => (40 + k.val * 4, 4)

theorem map_fields : i.fields.map (fun f => (f.1, f.2.length)) = extents := by
  simp [fields, extents]

theorem fields_le (hf : f ∈ i.fields) : f.1 + f.2.length ≤ inodeSize := by
  have h : ∀ e ∈ extents, e.1 + e.2 ≤ inodeSize := by decide
  rw [← map_fields (i := i)] at h
  exact h _ (List.mem_map.mpr ⟨f, hf, rfl⟩)

end Inode

def nodeBlock (v : Ext2) (n : Nat) : Nat := v.inodeTable + (n - 1) * inodeSize / blockSize

theorem inodeOff_le (n : Nat) : inodeOff n + inodeSize ≤ blockSize := by
  simp only [inodeOff, inodeSize, blockSize]
  omega

namespace Disk

variable {s s' : Disk} {i : Inode} {n m : Nat}

def node (s : Disk) (n : Nat) : Inode := .decode n ((s.block (s.nodeBlock n)).slice (inodeOff n) inodeSize)

theorem length_record : ((s.block b).slice (inodeOff n) inodeSize).length = inodeSize := by
  have := inodeOff_le n
  rw [Bytes.length_slice, length_block]
  omega

def record (s : Disk) (i : Inode) : Bytes :=
  ((s.block (s.nodeBlock i.ino)).slice (inodeOff i.ino) inodeSize).patches i.fields

theorem length_patched_record : (s.record i).length = inodeSize := by
  rw [record, Bytes.length_patches (fun f hf => by rw [length_record]; exact Inode.fields_le hf), length_record]

def putNode (s : Disk) (i : Inode) : Disk :=
  s.put (s.nodeBlock i.ino) ((s.block (s.nodeBlock i.ino)).patch (inodeOff i.ino) (s.record i))

theorem patch_record_le : inodeOff i.ino + (s.record i).length ≤ (s.block b).length := by
  rw [length_patched_record, length_block]
  exact inodeOff_le _

theorem length_patch_record : ((s.block b).patch (inodeOff i.ino) (s.record i)).length = blockSize := by
  rw [Bytes.length_patch patch_record_le, length_block]

theorem inodeBlock_eq_ok {v : Ext2} : v.inodeBlock n = .ok b ↔ 0 < n ∧ v.nodeBlock n < 2 ^ 32 ∧ b = v.nodeBlock n := by
  cases n with
  | zero => simp [inodeBlock, checkedSub, abort]
  | succ n => simp [inodeBlock, checkedSub, checked_eq_ok, nodeBlock, and_comm]

structure HasNode (s : Disk) (n : Nat) : Prop where
  pos : 0 < n
  small : s.nodeBlock n < 2 ^ 32
  onDisk : s.OnDisk (s.nodeBlock n)

theorem readInode_eq_ok : s.readInode n = .ok i ↔ s.HasNode n ∧ n ≤ s.inodesCount ∧ s.node n = i := by
  simp only [readInode]
  by_cases h : n = 0 ∨ n > s.inodesCount
  · rw [if_pos h]
    simp only [fail, reduceCtorEq, false_iff]
    intro ⟨⟨hp, _, _⟩, hle, _⟩
    omega
  · rw [if_neg h]
    simp only [Result.bind_eq_ok, inodeBlock_eq_ok, readBlock_eq_ok]
    constructor
    · intro ⟨b, ⟨hp, hl, hb⟩, data, ⟨hd, hdata⟩, hi⟩
      subst hb hdata
      exact ⟨⟨hp, hl, hd⟩, by omega, Except.ok.inj hi⟩
    · intro ⟨⟨hp, hl, hd⟩, _, hi⟩
      exact ⟨_, ⟨hp, hl, rfl⟩, _, ⟨hd, rfl⟩, congrArg _ hi⟩

end Disk

variable {s s' : Disk} {i : Inode}

theorem alters_putNode : Alters (· = s.nodeBlock i.ino) s (s.putNode i) :=
  .put Disk.length_patch_record rfl

theorem writeInode_eq_ok (h : (writeInode i).run s = (.ok u, s')) : s.HasNode i.ino ∧ s' = s.putNode i := by
  obtain ⟨_, hb, h⟩ := read_bind_eq_ok.mp h
  have ⟨hp, hl, hb⟩ := Disk.inodeBlock_eq_ok.mp hb
  subst hb
  obtain ⟨_, hb, h⟩ := read_bind_eq_ok.mp h
  have ⟨hd, hb⟩ := Disk.readBlock_eq_ok.mp hb
  subst hb
  exact ⟨⟨hp, hl, hd⟩, ((writeBlock_eq_ok Disk.length_patch_record).mp h).2⟩

end Ext2
