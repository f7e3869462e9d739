import Onyx.Ext2.Panics
import Onyx.Ext2.Tree

-- What runs of `alloc_block` hand out.

open Lib

namespace Ext2

def allocBlocks : Nat → Ext2M (List Nat)
  | 0     => return []
  | n + 1 => do
    let b ← allocBlock
    return b :: (← allocBlocks n)

namespace Disk

def inUse (s : Disk) (b : Nat) : Bool := (s.block s.blockBitmap).bit (b - 1)

structure Marked (s : Disk) : Prop where
  super : s.inUse 1
  descriptor : s.inUse 2
  bitmap : s.inUse s.blockBitmap
  behind : 2 < s.blockBitmap

structure Granted (s : Disk) (bs : List Nat) (s' : Disk) : Prop where
  nodup : bs.Nodup
  free : ∀ b ∈ bs, s.inUse b = false
  inUse : ∀ b, s'.inUse b = (s.inUse b || b ∈ bs)
  counted : s'.freeBlocks + bs.length = s.freeBlocks
  block : ∀ b, 2 < b → b ≠ s.blockBitmap → s'.block b = if b ∈ bs then zeroBlock else s.block b
  bitmap : s'.blockBitmap = s.blockBitmap

variable {s s1 s2 : Disk}

theorem Marked.granted (h : s.Marked) (ha : Allocates s i) : Granted s [i + 1] (s.allocated i) := by
  obtain ⟨hlen, hclear⟩ := Bytes.firstClear_eq_some ha.clear
  have hfree : s.inUse (i + 1) = false := hclear
  obtain ⟨h1, h2, h3, h4⟩ := h
  have hne : i + 1 ≠ s.blockBitmap := by grind
  have hpos : i ≠ 0 := by grind
  have hbits : (s.allocated i).block s.blockBitmap = (s.block s.blockBitmap).setBit i := by
    rw [allocated, block_put_of_ne length_zeroBlock hne.symm, block_synced_of_ne (by omega) (by omega)]
    exact block_put_self (by simp)
  refine ⟨by simp, by simpa using hfree, fun b => ?_, ?_, fun b hb hbb => ?_, rfl⟩
  · have hb : b - 1 = i ↔ b = i + 1 := by omega
    unfold Disk.inUse
    rw [show (s.allocated i).blockBitmap = s.blockBitmap from rfl, hbits, Bytes.bit_setBit hlen]
    simp [hb, Bool.or_comm]
  · exact Nat.sub_add_cancel (Nat.pos_of_ne_zero ha.counted)
  · split_ifs with hi
    · rw [List.mem_singleton.mp hi]
      exact block_put_self length_zeroBlock
    · exact alters_allocated.block b (by grind)

theorem Granted.marked (h : Granted s bs s1) (hm : s.Marked) : s1.Marked := by
  constructor <;> simp [h.inUse, h.bitmap, hm.super, hm.descriptor, hm.bitmap, hm.behind]

theorem Granted.append (h : Granted s bs s1) (h' : Granted s1 cs s2) : Granted s (bs ++ cs) s2 := by
  obtain ⟨n1, f1, u1, c1, b1, m1⟩ := h
  obtain ⟨n2, f2, u2, c2, b2, m2⟩ := h'
  constructor <;> grind

end Disk

theorem returns_allocBlocks (z : s.Sized) (hm : s.Marked) (n : Nat) : (allocBlocks n).Returns s s.Granted := by
  induction n generalizing s with
  | zero => exact .pure (by constructor <;> simp)
  | succ n ih =>
    refine (returns_allocBlock z).bind fun b s1 ⟨i, ha, hb, hs⟩ => ?_
    subst hb hs
    have hg := hm.granted ha
    exact (ih (z.of_same sameVolume_allocated) (hg.marked hm)).bind fun bs s2 h2 => .pure (hg.append h2)

theorem returns_allocBlocks_small : small.Sized ∧ small.Marked ∧ (allocBlocks 2).Returns small small.Granted := by
  have z : small.Sized := by constructor <;> decide
  have hm : small.Marked := by constructor <;> decide +kernel
  exact ⟨z, hm, returns_allocBlocks z hm 2⟩

end Ext2
