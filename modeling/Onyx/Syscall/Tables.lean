import Onyx.Syscall.Buffers

-- The pointer check of kernel/src/syscall.rs on the page tables, with the walk of kernel/src/memory.rs.

open Lib

namespace Syscall

open Userspace (PageFlags pageSize_eq Canonical)

-- An entry of a page table is a word of 64 bits.

def isPresent (e : Nat) : Bool := e.testBit 0

def isHuge (e : Nat) : Bool := e.testBit 7

def entryFlags (e : Nat) : PageFlags where
  writable := e.testBit 1
  user := e.testBit 2
  noExecute := e.testBit 63

def entryAddr (e : Nat) : Nat := e / 2 ^ 12 % 2 ^ 40 * 2 ^ 12

-- `PageTableEntry::frame`, which is an error for an absent entry and for a huge page.
def entryFrame (e : Nat) : Option Nat := if isPresent e && !isHuge e then some (entryAddr e) else none

-- PHYS_OFFSET, the frame in CR3, and the entries of the table at a physical address.
structure Tables where
  physOffset : Nat
  root : Nat
  entry : Nat → Nat → Nat

namespace Tables

variable {t : Tables}

def entryOf (t : Tables) (p level table : Nat) : Nat := t.entry table (p / 512 ^ level % 512)

def descend (t : Tables) (p : Nat) : Nat → Nat → Result Blocked (Option PageFlags)
  | 0, table => .ok (if isPresent (t.entryOf p 0 table) then some (entryFlags (t.entryOf p 0 table)) else none)
  | l + 1, table =>
    match entryFrame (t.entryOf p (l + 1) table) with
    | none => .ok none
    | some next =>
      if 2 ^ 64 ≤ t.physOffset + next then .ok none
      else do
        require (Canonical (t.physOffset + next))
        t.descend p l next

def pageFlags (t : Tables) (p : Nat) : Result Blocked (Option PageFlags) :=
  if t.physOffset = 0 then .ok none
  else do
    require (Canonical t.physOffset)
    let p4 ← checked 64 (t.physOffset + t.root)
    require (Canonical p4)
    t.descend p 3 t.root


def leafBelow (t : Tables) (p : Nat) : Nat → Nat → Option PageFlags
  | 0, table => if isPresent (t.entryOf p 0 table) then some (entryFlags (t.entryOf p 0 table)) else none
  | l + 1, table => (entryFrame (t.entryOf p (l + 1) table)).bind (t.leafBelow p l)

def tablesBelow (t : Tables) (p : Nat) : Nat → Nat → List Nat
  | 0, _ => []
  | l + 1, table =>
    match entryFrame (t.entryOf p (l + 1) table) with
    | none => []
    | some next => next :: t.tablesBelow p l next

def leaf (t : Tables) (p : Nat) : Option PageFlags := t.leafBelow p 3 t.root

def tablesOf (t : Tables) (p : Nat) : List Nat := t.root :: t.tablesBelow p 3 t.root

structure Window (t : Tables) (ram : Nat) : Prop where
  known : t.physOffset ≠ 0
  fits : t.physOffset + ram ≤ 2 ^ 64
  canonical : ∀ a, a < ram → Canonical (t.physOffset + a)
  tables : ∀ p, ∀ a ∈ t.tablesOf p, a < ram

namespace Window

theorem descend_eq (w : t.Window ram) (h : ∀ a ∈ t.tablesBelow p l table, a < ram) :
    t.descend p l table = .ok (t.leafBelow p l table) := by
  induction l generalizing table with
  | zero => rfl
  | succ l ih =>
    unfold descend leafBelow
    unfold tablesBelow at h
    cases hf : entryFrame (t.entryOf p (l + 1) table) with
    | none => rfl
    | some next =>
      rw [hf] at h
      have ⟨hnext, hbelow⟩ := List.forall_mem_cons.mp h
      have hlow : ¬2 ^ 64 ≤ t.physOffset + next := by
        have := w.fits
        omega
      dsimp only [Option.bind_some]
      rw [if_neg hlow, require_eq_ok.mpr (w.canonical next hnext), ok_bind, ih hbelow]

theorem pageFlags_eq (w : t.Window ram) (p : Nat) : t.pageFlags p = .ok (t.leaf p) := by
  have ⟨hroot, hbelow⟩ := List.forall_mem_cons.mp (w.tables p)
  have hsum : t.physOffset + t.root < 2 ^ 64 := by
    have := w.fits
    omega
  have hoff : Canonical t.physOffset := w.canonical 0 (Nat.zero_lt_of_lt hroot)
  rw [pageFlags, if_neg w.known, require_eq_ok.mpr hoff, ok_bind, checked_of_lt hsum, ok_bind,
    require_eq_ok.mpr (w.canonical _ hroot), ok_bind, w.descend_eq hbelow]
  rfl

end Window

theorem userBufOk_exact (w : t.Window ram) :
    userBufOk t.pageFlags ptr len write = .ok (decide (len = 0 ∨ Spans t.leaf ptr len write)) := by
  rw [funext w.pageFlags_eq, userBufOk_eq]

theorem lt_of_mem_tablesBelow (h : ∀ table i, t.entry table i < ram) (ha : a ∈ t.tablesBelow p l table) : a < ram := by
  induction l generalizing table with
  | zero => cases ha
  | succ l ih =>
    unfold tablesBelow entryFrame entryAddr at ha
    split at ha
    case h_1 => cases ha
    case h_2 next hf =>
      rcases List.mem_cons.mp ha with rfl | ha
      · have := h table (p / 512 ^ (l + 1) % 512)
        unfold entryOf at hf
        split at hf <;> cases hf
        omega
      · exact ih ha

def onePage : Tables where
  physOffset := 0x18000000000
  root := 0x1000
  entry table i :=
    match table, i with
    | 0x1000, 0 => 0x2007
    | 0x2000, 0 => 0x3007
    | 0x3000, 2 => 0x4007
    | 0x4000, 0 => 0x5007
    | _, _ => 0

theorem onePage_window : onePage.Window 0x8000 where
  known := by decide
  fits := by decide
  canonical a ha := .inl (by show 0x18000000000 + a < _; omega)
  tables p a ha := by
    have hentry : ∀ table i, onePage.entry table i < 0x8000 := by
      intro table i
      unfold onePage
      dsimp only
      split <;> decide
    rcases List.mem_cons.mp ha with rfl | ha
    · decide
    · exact lt_of_mem_tablesBelow hentry ha

theorem onePage_buffers : userBufOk onePage.pageFlags 0x400FF0 16 true = .ok true ∧
    userBufOk onePage.pageFlags 0x400FF0 17 true = .ok false := by
  have hpages : ∀ i, i < 17 → (0x400FF0 + i) / Userspace.pageSize = if i < 16 then 0x400 else 0x401 := by
    intro i hi
    rw [pageSize_eq]
    split <;> omega
  rw [userBufOk_exact onePage_window, userBufOk_exact onePage_window]
  refine ⟨congrArg _ (decide_eq_true (.inr ⟨by decide, by decide, fun i hi => ?_⟩)), congrArg _ (decide_eq_false ?_)⟩
  · rw [hpages i (by omega), if_pos hi]
    decide
  · rintro (h | h)
    · cases h
    · have := h.pages 16 (by decide)
      rw [hpages 16 (by decide)] at this
      exact absurd this (by decide)

end Tables

end Syscall
