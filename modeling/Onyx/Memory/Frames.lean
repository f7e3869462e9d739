import Onyx.Lib.Exact

-- The frame allocator: an intrusive list of returned frames, and a cursor through the usable regions.

namespace Memory

open Lib Prog

inductive MemoryRegionKind
  | usable
  | bootloader
  | unknownUefi (tag : Nat)
  | unknownBios (tag : Nat)
  deriving DecidableEq, Repr

structure MemoryRegion where
  start : Nat
  stop : Nat
  kind : MemoryRegionKind
  deriving DecidableEq, Repr

-- Irreducible, so that no unifier counts up to it.
@[irreducible]
def frameSize : Nat := 4096

theorem frameSize_eq : frameSize = 4096 := by
  unfold frameSize
  rfl

structure BootInfoFrameAllocator where
  memoryRegions : List MemoryRegion
  bumpNext : Nat
  freeHead : Nat
  total : Nat
  used : Nat
  freed : Nat
  oom : Nat

structure Physical extends BootInfoFrameAllocator where
  words : Nat → Nat
  physOffset : Nat

abbrev FrameM := Prog Physical Empty

def countFrames (sum : Nat) : List MemoryRegion → Result Empty Nat
  | [] => .ok sum
  | r :: rs =>
    if r.kind = .usable then do
      let bytes ← checkedSub r.stop r.start
      let sum ← checked 64 (sum + bytes / frameSize)
      countFrames sum rs
    else
      countFrames sum rs

def init (memoryRegions : List MemoryRegion) : Result Empty BootInfoFrameAllocator := do
  let total ← countFrames 0 memoryRegions
  return { memoryRegions, bumpNext := 0, freeHead := 0, total, used := 0, freed := 0, oom := 0 }

-- The address of a word in the window.
def window (physOffset addr : Nat) : Result Empty Nat :=
  if physOffset = 0 then abort else checked 64 (physOffset + addr)

def physRead (addr : Nat) : FrameM Nat := do
  let _ ← read fun s => window s.physOffset addr
  read fun s => .ok (s.words addr)

def physWrite (addr val : Nat) : FrameM Unit := do
  let _ ← read fun s => window s.physOffset addr
  modify fun s => { s with words := Function.update s.words addr val }

def BootInfoFrameAllocator.stats (a : BootInfoFrameAllocator) : Nat × Nat × Nat × Nat :=
  (a.used, a.total, a.freed, a.oom)

-- `(x + size - 1) / size * size`
def alignUp (x : Nat) : Result Empty Nat := do
  let y ← checked 64 (x + frameSize)
  return (y - 1) / frameSize * frameSize

-- `PhysFrame::containing_address(PhysAddr::new(addr))`; physical addresses have 52 bits.
def containingAddress (addr : Nat) : Result Empty Nat :=
  if addr < 2 ^ 52 then .ok (addr / frameSize * frameSize) else abort

def scan (place : MemoryRegion → Result Empty (Option Nat)) : List MemoryRegion → Result Empty (Option Nat)
  | [] => .ok none
  | r :: rs =>
    if r.kind = .usable then do
      match ← place r with
      | some cand => .ok (some cand)
      | none => scan place rs
    else
      scan place rs

def lowPlace (bumpNext : Nat) (r : MemoryRegion) : Result Empty (Option Nat) := do
  let aligned ← alignUp (max r.start 0x1000)
  let next ← alignUp bumpNext
  let stop ← checked 64 (max aligned next + frameSize)
  return if stop ≤ r.stop ∧ stop ≤ 0x100000 then some (max aligned next) else none

def spanPlace (bytes bumpNext : Nat) (r : MemoryRegion) : Result Empty (Option Nat) := do
  let alignedStart ← alignUp r.start
  let cand := max alignedStart bumpNext
  return if cand ≤ r.stop ∧ bytes ≤ r.stop - cand then some cand else none

def framePlace (bumpNext : Nat) (r : MemoryRegion) : Result Empty (Option Nat) := do
  let alignedStart ← alignUp r.start
  let stop ← checked 64 (max alignedStart bumpNext + frameSize)
  return if stop ≤ r.stop then some (max alignedStart bumpNext) else none

-- `self.bump_next = cand + bytes; self.used += count`
def grant (cand bytes count : Nat) : FrameM Unit := do
  let next ← lift (checked 64 (cand + bytes))
  modify fun s => { s with bumpNext := next }
  let used ← read fun s => checked 64 (s.used + count)
  modify fun s => { s with used }

def countOom : FrameM (Option Nat) := do
  let oom ← read fun s => checked 64 (s.oom + 1)
  modify fun s => { s with oom }
  return none

def reserveLowFrame : FrameM (Option Nat) := do
  match ← read fun s => scan (lowPlace s.bumpNext) s.memoryRegions with
  | none => return none
  | some cand => do
    grant cand frameSize 1
    return some cand

def allocateContiguous (count : Nat) : FrameM (Option Nat) :=
  -- `count.checked_mul(size)?` leaves without counting the failure.
  if count = 0 ∨ 2 ^ 64 ≤ count * frameSize then
    return none
  else do
    match ← read fun s => scan (spanPlace (count * frameSize) s.bumpNext) s.memoryRegions with
    | none => countOom
    | some cand => do
      grant cand (count * frameSize) count
      let frame ← lift (containingAddress cand)
      return some frame

def deallocateFrame (addr : Nat) : FrameM Unit := do
  let head ← read fun s => .ok s.freeHead
  physWrite addr head
  modify fun s => { s with freeHead := addr }
  let used ← read fun s => checkedSub s.used 1
  modify fun s => { s with used }
  let freed ← read fun s => checked 64 (s.freed + 1)
  modify fun s => { s with freed }

def popFree (addr : Nat) : FrameM (Option Nat) := do
  let next ← physRead addr
  modify fun s => { s with freeHead := next }
  let used ← read fun s => checked 64 (s.used + 1)
  modify fun s => { s with used }
  let frame ← lift (containingAddress addr)
  return some frame

def bumpFrame : FrameM (Option Nat) := do
  match ← read fun s => scan (framePlace s.bumpNext) s.memoryRegions with
  | none => countOom
  | some cand => do
    grant cand frameSize 1
    let frame ← lift (containingAddress cand)
    return some frame

def allocateFrame : FrameM (Option Nat) := do
  let head ← read fun s => .ok s.freeHead
  if head ≠ 0 then popFree head else bumpFrame

def roundUp (x : Nat) : Nat := (x + frameSize - 1) / frameSize * frameSize

theorem le_roundUp : x ≤ roundUp x := by
  have := frameSize_eq
  simp only [roundUp, this]
  omega

theorem roundUp_mod : roundUp x % frameSize = 0 :=
  Nat.mul_mod_left ..

theorem roundUp_le (h : x ≤ y) (hy : y % frameSize = 0) : roundUp x ≤ y := by
  have := frameSize_eq
  simp only [roundUp, this] at hy ⊢
  omega

theorem roundUp_of_mod (h : x % frameSize = 0) : roundUp x = x :=
  le_antisymm (roundUp_le (le_refl _) h) le_roundUp

theorem max_mod (hx : x % frameSize = 0) (hy : y % frameSize = 0) : max x y % frameSize = 0 := by
  rcases le_total x y with h | h
  · rw [max_eq_right h, hy]
  · rw [max_eq_left h, hx]

section Inversion

variable {s t : Physical} {r : MemoryRegion} {rs : List MemoryRegion} {b c n : Nat}
variable {place : MemoryRegion → Result Empty (Option Nat)}

theorem exact_alignUp : Exact (alignUp x) (2 ^ 64 ≤ x + frameSize) (x + frameSize < 2 ^ 64) (roundUp x) :=
  .congr (.bind .checked fun _ => .ok) (by simp) (by simp)

theorem exact_framePlace : Exact (framePlace b r)
    (2 ^ 64 ≤ r.start + frameSize ∨ r.start + frameSize < 2 ^ 64 ∧ 2 ^ 64 ≤ max (roundUp r.start) b + frameSize)
    (r.start + frameSize < 2 ^ 64 ∧ max (roundUp r.start) b + frameSize < 2 ^ 64)
    (if max (roundUp r.start) b + frameSize ≤ r.stop then some (max (roundUp r.start) b) else none) :=
  .congr (.bind exact_alignUp fun _ => .bind .checked fun _ => .ok) (by simp) (by simp)

theorem exact_spanPlace : Exact (spanPlace n b r) (2 ^ 64 ≤ r.start + frameSize) (r.start + frameSize < 2 ^ 64)
    (if max (roundUp r.start) b ≤ r.stop ∧ n ≤ r.stop - max (roundUp r.start) b then some (max (roundUp r.start) b) else none) :=
  .congr (.bind exact_alignUp fun _ => .ok) (by simp) (by simp)

theorem lowPlace_eq_ok (h : lowPlace b r = .ok o) :
    o = if max (roundUp (max r.start 0x1000)) (roundUp b) + frameSize ≤ r.stop ∧
        max (roundUp (max r.start 0x1000)) (roundUp b) + frameSize ≤ 0x100000
      then some (max (roundUp (max r.start 0x1000)) (roundUp b)) else none := by
  have hplace : Exact (lowPlace b r) _ _ _ :=
    .bind exact_alignUp fun _ => .bind exact_alignUp fun _ => .bind .checked fun _ => .ok
  exact (hplace.eq_ok.mp h).2

theorem scan_eq_some (h : scan place rs = .ok (some c)) :
    ∃ r pre post, rs = pre ++ r :: post ∧ r.kind = .usable ∧ place r = .ok (some c) ∧
      ∀ q ∈ pre, q.kind = .usable → place q = .ok none := by
  induction rs with
  | nil => cases h
  | cons q rs hi =>
    rw [scan] at h
    split at h
    case isTrue hq =>
      have ⟨o, ho, h⟩ := Result.bind_eq_ok.mp h
      cases o with
      | some c' =>
        cases h
        exact ⟨q, [], rs, rfl, hq, ho, by simp⟩
      | none =>
        have ⟨r, pre, post, hrs, hr, hp, hn⟩ := hi h
        refine ⟨r, q :: pre, post, by simp [hrs], hr, hp, fun q' hq' => ?_⟩
        cases hq' with
        | head => exact fun _ => ho
        | tail _ hq' => exact hn q' hq'
    case isFalse hq =>
      have ⟨r, pre, post, hrs, hr, hp, hn⟩ := hi h
      refine ⟨r, q :: pre, post, by simp [hrs], hr, hp, fun q' hq' hu => ?_⟩
      cases hq' with
      | head => exact absurd hu hq
      | tail _ hq' => exact hn q' hq' hu

theorem scan_eq_none (h : scan place rs = .ok none) : ∀ r ∈ rs, r.kind = .usable → place r = .ok none := by
  induction rs with
  | nil => simp
  | cons q rs hi =>
    rw [scan] at h
    intro r hr hu
    split at h
    case isTrue hq =>
      have ⟨o, ho, h⟩ := Result.bind_eq_ok.mp h
      cases o with
      | some c' => cases h
      | none =>
        cases hr with
        | head => exact ho
        | tail _ hr => exact hi h r hr hu
    case isFalse hq =>
      cases hr with
      | head => exact absurd hu hq
      | tail _ hr => exact hi h r hr hu

theorem scan_isOk (h : ∀ r ∈ rs, r.kind = .usable → ∃ o, place r = .ok o) : ∃ o, scan place rs = .ok o := by
  induction rs with
  | nil => exact ⟨none, rfl⟩
  | cons r rs hi =>
    have hrs := hi fun q hq => h q (.tail _ hq)
    rw [scan]
    split
    case isTrue hr =>
      have ⟨o, ho⟩ := h r (.head _) hr
      rw [ho]
      cases o with
      | some c => exact ⟨some c, rfl⟩
      | none => exact hrs
    case isFalse => exact hrs

theorem exact_grant : (grant c bytes n).Exact s (¬(c + bytes < 2 ^ 64 ∧ s.used + n < 2 ^ 64))
    (c + bytes < 2 ^ 64 ∧ s.used + n < 2 ^ 64) () { s with bumpNext := c + bytes, used := s.used + n } :=
  .congr (.bind (.lift .checked) fun _ => .modify_bind (.bind (.read .checked) fun _ => .modify)) (by grind) (by simp)

theorem exact_countOom : countOom.Exact s (2 ^ 64 ≤ s.oom + 1) (s.oom + 1 < 2 ^ 64) none { s with oom := s.oom + 1 } :=
  .congr (.bind (.read .checked) fun _ => .modify_bind .pure) (by simp) (by simp)

theorem exact_containingAddress : Exact (containingAddress c) (2 ^ 52 ≤ c) (c < 2 ^ 52) (c / frameSize * frameSize) :=
  .congr (.ite (fun _ => .ok) fun _ => .abort) (by simp) (by simp)

theorem exact_window : Exact (window p a) (p = 0 ∨ 2 ^ 64 ≤ p + a) (p ≠ 0 ∧ p + a < 2 ^ 64) (p + a) :=
  .congr (.ite (fun _ => .abort) fun _ => .checked) (by grind) (by grind)

theorem reserveLowFrame_eq_ok (h : reserveLowFrame.run s = (.ok o, t)) :
    (scan (lowPlace s.bumpNext) s.memoryRegions = .ok none ∧ o = none ∧ t = s) ∨
    ∃ c, scan (lowPlace s.bumpNext) s.memoryRegions = .ok (some c) ∧ o = some c ∧
      t = { s with bumpNext := c + frameSize, used := s.used + 1 } := by
  have ⟨r, hr, h⟩ := read_bind_eq_ok.mp h
  cases r with
  | none =>
    cases h
    exact .inl ⟨hr, rfl, rfl⟩
  | some c =>
    have ⟨_, _, hg, h⟩ := bind_eq_ok.mp h
    have ht := (exact_grant.eq_ok.mp hg).2.2
    cases h
    exact .inr ⟨c, hr, rfl, ht⟩

theorem allocateContiguous_eq_ok (h : (allocateContiguous n).run s = (.ok o, t)) :
    ((n = 0 ∨ 2 ^ 64 ≤ n * frameSize) ∧ o = none ∧ t = s) ∨
    (scan (spanPlace (n * frameSize) s.bumpNext) s.memoryRegions = .ok none ∧ o = none ∧
      t = { s with oom := s.oom + 1 }) ∨
    ∃ c, n ≠ 0 ∧ scan (spanPlace (n * frameSize) s.bumpNext) s.memoryRegions = .ok (some c) ∧
      o = some (c / frameSize * frameSize) ∧
      t = { s with bumpNext := c + n * frameSize, used := s.used + n } := by
  unfold allocateContiguous at h
  split at h
  case isTrue hn =>
    cases h
    exact .inl ⟨hn, rfl, rfl⟩
  case isFalse hn =>
    have ⟨r, hr, h⟩ := read_bind_eq_ok.mp h
    cases r with
    | none => exact .inr (.inl ⟨hr, (exact_countOom.eq_ok.mp h).2⟩)
    | some c =>
      have ⟨_, _, hg, h⟩ := bind_eq_ok.mp h
      have ⟨a, ha, h⟩ := read_bind_eq_ok.mp h
      have ht := (exact_grant.eq_ok.mp hg).2.2
      have ha := (exact_containingAddress.eq_ok.mp ha).2
      cases h
      exact .inr (.inr ⟨c, fun hz => hn (.inl hz), hr, congrArg some ha, ht⟩)

theorem deallocateFrame_eq_ok (h : (deallocateFrame a).run s = (.ok u, t)) : (∃ w, window s.physOffset a = .ok w) ∧
    t = { s with words := Function.update s.words a s.freeHead, freeHead := a, used := s.used - 1,
                 freed := s.freed + 1 } := by
  have hfree : (deallocateFrame a).Exact s _ _ _ _ :=
    .bind (.read .ok) fun _ => .bind (.bind (.read exact_window) fun _ => .modify) fun _ => .modify_bind
      (.bind (.read .checkedSub) fun _ => .modify_bind (.bind (.read .checked) fun _ => .modify))
  have ⟨⟨_, ⟨hw, _⟩, _⟩, _, ht⟩ := hfree.eq_ok.mp h
  exact ⟨⟨_, exact_window.of_good hw⟩, ht⟩

theorem exact_popFree (hw : window s.physOffset a = .ok w) : (popFree a).Exact s (¬(s.used + 1 < 2 ^ 64 ∧ a < 2 ^ 52))
    (s.used + 1 < 2 ^ 64 ∧ a < 2 ^ 52) (some (a / frameSize * frameSize)) { s with freeHead := s.words a, used := s.used + 1 } :=
  .congr (.bind (.bind (.read (.of_eq hw)) fun _ => .read .ok) fun _ => .modify_bind (.bind (.read .checked) fun _ =>
    .modify_bind (.bind (.lift exact_containingAddress) fun _ => .pure))) (by grind) (by simp)

theorem popFree_eq_ok (h : (popFree a).run s = (.ok o, t)) :
    o = some (a / frameSize * frameSize) ∧ t = { s with freeHead := s.words a, used := s.used + 1 } := by
  have ⟨_, _, hr, _⟩ := bind_eq_ok.mp h
  have ⟨_, hw, _⟩ := read_bind_eq_ok.mp hr
  exact ((exact_popFree hw).eq_ok.mp h).2

theorem bumpFrame_eq_ok (h : bumpFrame.run s = (.ok o, t)) :
    (scan (framePlace s.bumpNext) s.memoryRegions = .ok none ∧ o = none ∧ t = { s with oom := s.oom + 1 }) ∨
    ∃ c, scan (framePlace s.bumpNext) s.memoryRegions = .ok (some c) ∧
      o = some (c / frameSize * frameSize) ∧
      t = { s with bumpNext := c + frameSize, used := s.used + 1 } := by
  have ⟨r, hr, h⟩ := read_bind_eq_ok.mp h
  cases r with
  | none => exact .inl ⟨hr, (exact_countOom.eq_ok.mp h).2⟩
  | some c =>
    have ⟨_, _, hg, h⟩ := bind_eq_ok.mp h
    have ⟨a, ha, h⟩ := read_bind_eq_ok.mp h
    have ht := (exact_grant.eq_ok.mp hg).2.2
    have ha := (exact_containingAddress.eq_ok.mp ha).2
    cases h
    exact .inr ⟨c, hr, congrArg some ha, ht⟩

theorem framePlace_of_le (hr : r.start ≤ 2 ^ 52) (hb : b ≤ 2 ^ 52) : framePlace b r =
      .ok (if max (roundUp r.start) b + frameSize ≤ r.stop then some (max (roundUp r.start) b) else none) := by
  have hf := frameSize_eq
  have : roundUp r.start < r.start + frameSize := by
    simp only [roundUp, hf]
    omega
  exact exact_framePlace.of_good (by omega)

theorem bumpFrame_run (hc : scan (framePlace s.bumpNext) s.memoryRegions = .ok (some c)) (hlt : c + frameSize ≤ 2 ^ 52)
    (hu : s.used + 1 < 2 ^ 64) : bumpFrame.run s =
      (.ok (some (c / frameSize * frameSize)), { s with bumpNext := c + frameSize, used := s.used + 1 }) := by
  have hf := frameSize_eq
  have hg : (grant c frameSize 1).run s = _ := exact_grant.of_good ⟨by omega, hu⟩
  rw [bumpFrame, read_bind_run, hc, lift_ok_bind_run]
  dsimp only
  rw [bind_run_ok hg, containingAddress, if_pos (by omega)]
  rfl

theorem allocateFrame_run : allocateFrame.run s = if s.freeHead ≠ 0 then (popFree s.freeHead).run s else bumpFrame.run s := by
  show (if s.freeHead ≠ 0 then popFree s.freeHead else bumpFrame).run s = _
  split <;> rfl

theorem allocateFrame_counts (h : allocateFrame.run s = (.ok (some a), t)) :
    t.used = s.used + 1 ∧ t.total = s.total := by
  rw [allocateFrame_run] at h
  split at h
  case isTrue =>
    rw [(popFree_eq_ok h).2]
    exact ⟨rfl, rfl⟩
  case isFalse =>
    rcases bumpFrame_eq_ok h with ⟨_, ha, _⟩ | ⟨_, _, _, ht⟩
    · cases ha
    · rw [ht]
      exact ⟨rfl, rfl⟩

end Inversion
end Memory
