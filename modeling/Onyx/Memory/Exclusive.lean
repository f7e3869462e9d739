import Onyx.Lib.Execution
import Onyx.Memory.Frames

-- No frame is handed out twice: a ledger has the frames that callers own and those they gave back.

namespace Memory

open Lib List

-- The frames on the list from a head: each one's first word leads to the next, `0` ends it.
inductive FreeList (words : Nat → Nat) : Nat → List Nat → Prop
  | nil : FreeList words 0 []
  | cons : a ≠ 0 → FreeList words (words a) as → FreeList words a (a :: as)

namespace FreeList

variable {words words' : Nat → Nat} {a : Nat} {as : List Nat}

theorem congr (h : FreeList words a as) (hw : ∀ b ∈ as, words' b = words b) : FreeList words' a as := by
  induction h with
  | nil => exact .nil
  | cons ha _ hi =>
    refine .cons ha ?_
    rw [hw _ (.head _)]
    exact hi fun b hb => hw b (.tail _ hb)

theorem eq_nil (h : FreeList words a as) (ha : a = 0) : as = [] := by
  cases h with
  | nil => rfl
  | cons hn _ => contradiction

theorem eq_cons (h : FreeList words a as) (ha : a ≠ 0) : ∃ as', as = a :: as' ∧ FreeList words (words a) as' := by
  cases h with
  | nil => contradiction
  | cons _ h => exact ⟨_, rfl, h⟩

end FreeList

-- `count` frames from `base` on, handed out by one call.
structure Grant where
  base : Nat
  count : Nat
  deriving DecidableEq, Repr

def Grant.frames (g : Grant) : List Nat := (List.range g.count).map (g.base + · * frameSize)

-- Frames outstanding from `allocate_frame`, grants for good, and frames given back.
structure Ledger extends Physical where
  singles : List Nat
  held : List Grant
  free : List Nat

def Ledger.boot (a : BootInfoFrameAllocator) (words : Nat → Nat) (physOffset : Nat) : Ledger :=
  { a with words, physOffset, singles := [], held := [], free := [] }

def Ledger.outstanding (s : Ledger) : List Nat := s.singles ++ s.held.flatMap Grant.frames

def Ledger.pop (s : Ledger) : Ledger :=
  { s with freeHead := s.words s.freeHead, used := s.used + 1, singles := s.freeHead :: s.singles,
           free := s.free.erase s.freeHead }

def Ledger.single (s : Ledger) (c : Nat) : Ledger :=
  { s with bumpNext := c + frameSize, used := s.used + 1, singles := c :: s.singles, free := s.free.erase c }

def Ledger.hold (s : Ledger) (c n : Nat) : Ledger :=
  { s with bumpNext := c + n * frameSize, used := s.used + n, held := ⟨c, n⟩ :: s.held }

def Ledger.release (s : Ledger) (a : Nat) : Ledger :=
  { s with words := Function.update s.words a s.freeHead, freeHead := a, used := s.used - 1,
           freed := s.freed + 1, singles := s.singles.erase a, free := a :: s.free }

theorem Ledger.release_perm {s : Ledger} (h : a ∈ s.singles) :
    (s.outstanding ++ s.free).Perm ((s.singles.erase a ++ s.held.flatMap Grant.frames) ++ a :: s.free) :=
  .trans (((perm_cons_erase h).append_right _).append_right _) perm_middle.symm

inductive Call
  | allocate
  | contiguous (count : Nat)
  | low
  | release (frame : Nat)
  | touch (words : Nat → Nat)

inductive Step : Ledger → Call → Ledger → Prop
  | allocate :
      allocateFrame.run s.toPhysical = (.ok (some a), m) →
      Step s .allocate { s with toPhysical := m, singles := a :: s.singles, free := s.free.erase a }
  | allocateNone :
      allocateFrame.run s.toPhysical = (.ok none, m) →
      Step s .allocate { s with toPhysical := m }
  | contiguous :
      (allocateContiguous n).run s.toPhysical = (.ok (some a), m) →
      Step s (.contiguous n) { s with toPhysical := m, held := ⟨a, n⟩ :: s.held }
  | contiguousNone :
      (allocateContiguous n).run s.toPhysical = (.ok none, m) →
      Step s (.contiguous n) { s with toPhysical := m }
  | low :
      reserveLowFrame.run s.toPhysical = (.ok (some a), m) →
      Step s .low { s with toPhysical := m, held := ⟨a, 1⟩ :: s.held }
  | lowNone :
      reserveLowFrame.run s.toPhysical = (.ok none, m) →
      Step s .low { s with toPhysical := m }
  | release :
      a ∈ s.singles → (deallocateFrame a).run s.toPhysical = (.ok (), m) →
      Step s (.release a) { s with toPhysical := m, singles := s.singles.erase a, free := a :: s.free }
  | touch :
      (∀ a ∈ s.free, words a = s.words a) →
      Step s (.touch words) { s with words }

-- `count` frames from `base` on lie in a usable region.
def MemoryRegion.Holds (r : MemoryRegion) (base count : Nat) : Prop :=
  r.kind = .usable ∧ r.start ≤ base ∧ base + count * frameSize ≤ r.stop

structure Exclusive (s : Ledger) : Prop where
  distinct : s.outstanding.Nodup
  aligned : ∀ a ∈ s.outstanding, a % frameSize = 0
  inside : ∀ a ∈ s.outstanding, ∃ r ∈ s.memoryRegions, r.Holds a 1
  contiguous : ∀ g ∈ s.held, ∃ r ∈ s.memoryRegions, r.Holds g.base g.count
  freeList : ∃ as, FreeList s.words s.freeHead as ∧ as.Nodup ∧ as.Disjoint s.outstanding
  used : s.used = s.outstanding.length

-- Distinct whole frames of the usable regions, all below the cursor.
structure Owned (regions : List MemoryRegion) (bumpNext : Nat) (frames : List Nat) : Prop where
  nodup : frames.Nodup
  aligned : ∀ a ∈ frames, a % frameSize = 0
  inside : ∀ a ∈ frames, ∃ r ∈ regions, r.Holds a 1
  below : ∀ a ∈ frames, a + frameSize ≤ bumpNext

structure Fits (r : MemoryRegion) (bumpNext base count : Nat) : Prop where
  aligned : base % frameSize = 0
  above : bumpNext ≤ base
  holds : r.Holds base count

namespace Owned

variable {regions : List MemoryRegion} {b c n : Nat} {as bs : List Nat} {r : MemoryRegion}

theorem perm (h : Owned regions b as) (hp : as.Perm bs) : Owned regions b bs where
  nodup := hp.nodup_iff.mp h.nodup
  aligned := fun a ha => h.aligned a (hp.mem_iff.mpr ha)
  inside := fun a ha => h.inside a (hp.mem_iff.mpr ha)
  below := fun a ha => h.below a (hp.mem_iff.mpr ha)

theorem mem_frames : a ∈ Grant.frames ⟨c, n⟩ ↔ ∃ i < n, a = c + i * frameSize := by
  simp [Grant.frames, eq_comm]

theorem frames_nodup : (Grant.frames ⟨c, n⟩).Nodup := by
  refine List.Nodup.map (fun i j hij => ?_) nodup_range
  have := frameSize_eq
  simp only [this] at hij
  omega

theorem grant (h : Owned regions b as) (hr : r ∈ regions) (hf : Fits r b c n) :
    Owned regions (c + n * frameSize) (Grant.frames ⟨c, n⟩ ++ as) where
  nodup := by
    refine List.Nodup.append frames_nodup h.nodup fun a ha ha' => ?_
    have ⟨i, _, ha⟩ := mem_frames.mp ha
    have := h.below a ha'
    have := hf.above
    have := frameSize_eq
    omega
  aligned := by
    intro a ha
    rcases mem_append.mp ha with ha | ha
    · have ⟨i, _, ha⟩ := mem_frames.mp ha
      rw [ha, Nat.add_mul_mod_self_right, hf.aligned]
    · exact h.aligned a ha
  inside := by
    intro a ha
    rcases mem_append.mp ha with ha | ha
    · have ⟨i, hi, ha⟩ := mem_frames.mp ha
      have ⟨hu, hs, he⟩ := hf.holds
      have : (i + 1) * frameSize ≤ n * frameSize := Nat.mul_le_mul_right _ hi
      exact ⟨r, hr, hu, by omega, by rw [Nat.succ_mul] at this; omega⟩
    · exact h.inside a ha
  below := by
    intro a ha
    rcases mem_append.mp ha with ha | ha
    · have ⟨i, hi, ha⟩ := mem_frames.mp ha
      have : (i + 1) * frameSize ≤ n * frameSize := Nat.mul_le_mul_right _ hi
      rw [Nat.succ_mul] at this
      omega
    · have := h.below a ha
      have := hf.above
      omega

end Owned

section Places

variable {rs : List MemoryRegion} {b c n : Nat}

theorem fits_of_framePlace (hb : b % frameSize = 0) (h : scan (framePlace b) rs = .ok (some c)) :
    ∃ r ∈ rs, Fits r b c 1 := by
  have ⟨r, pre, post, hrs, hu, hp, _⟩ := scan_eq_some h
  have hc := (exact_framePlace.eq_ok.mp hp).2
  split at hc
  case isFalse => cases hc
  case isTrue hle =>
    cases hc
    have := @le_roundUp r.start
    exact ⟨r, by simp [hrs], max_mod roundUp_mod hb, Nat.le_max_right .., hu, by omega, by omega⟩

theorem fits_of_spanPlace (hb : b % frameSize = 0)
    (h : scan (spanPlace (n * frameSize) b) rs = .ok (some c)) : ∃ r ∈ rs, Fits r b c n := by
  have ⟨r, pre, post, hrs, hu, hp, _⟩ := scan_eq_some h
  have hc := (exact_spanPlace.eq_ok.mp hp).2
  split at hc
  case isFalse => cases hc
  case isTrue hle =>
    cases hc
    have := @le_roundUp r.start
    exact ⟨r, by simp [hrs], max_mod roundUp_mod hb, Nat.le_max_right .., hu, by omega, by omega⟩

theorem fits_of_lowPlace (h : scan (lowPlace b) rs = .ok (some c)) : ∃ r ∈ rs, Fits r b c 1 := by
  have ⟨r, pre, post, hrs, hu, hp, _⟩ := scan_eq_some h
  have hc := lowPlace_eq_ok hp
  split at hc
  case isFalse => cases hc
  case isTrue hle =>
    cases hc
    have := @le_roundUp (max r.start 0x1000)
    have := @le_roundUp b
    exact ⟨r, by simp [hrs], max_mod roundUp_mod roundUp_mod, by omega, hu, by omega, by omega⟩

end Places

-- What a call that returns does. One that finds nothing may count it.
inductive Effect (s : Ledger) : Call → Ledger → Prop
  | pop : s.freeHead ≠ 0 → Effect s .allocate s.pop
  | single :
      r ∈ s.memoryRegions → Fits r s.bumpNext c 1 →
      scan (framePlace s.bumpNext) s.memoryRegions = .ok (some c) → Effect s .allocate (s.single c)
  | contiguous :
      r ∈ s.memoryRegions → Fits r s.bumpNext c n → n ≠ 0 →
      scan (spanPlace (n * frameSize) s.bumpNext) s.memoryRegions = .ok (some c) →
      Effect s (.contiguous n) (s.hold c n)
  | low :
      r ∈ s.memoryRegions → Fits r s.bumpNext c 1 →
      scan (lowPlace s.bumpNext) s.memoryRegions = .ok (some c) → Effect s .low (s.hold c 1)
  | none (n : Nat) : Effect s call { s with oom := n }
  | release : a ∈ s.singles → window s.physOffset a = .ok w → Effect s (.release a) (s.release a)
  | touch : (∀ a ∈ s.free, words a = s.words a) → Effect s (.touch words) { s with words }

theorem eq_of_aligned (h : some a = some (c / frameSize * frameSize)) (hc : c % frameSize = 0) : a = c := by
  rw [Option.some.inj h, Nat.div_mul_cancel (Nat.dvd_of_mod_eq_zero hc)]

-- What every call keeps. The list holds the frames given back since frame `0` was.
structure Sound (s : Ledger) : Prop where
  bump : s.bumpNext % frameSize = 0
  owned : Owned s.memoryRegions s.bumpNext (s.outstanding ++ s.free)
  spans : ∀ g ∈ s.held, ∃ r ∈ s.memoryRegions, r.Holds g.base g.count
  linked : FreeList s.words s.freeHead (s.free.takeWhile (· ≠ 0))
  used : s.used = s.outstanding.length

namespace Sound

variable {s t : Ledger} {r : MemoryRegion} {a c n : Nat} {m : Physical}

theorem exclusive (h : Sound s) : Exclusive s where
  distinct := h.owned.nodup.of_append_left
  aligned := fun a ha => h.owned.aligned a (mem_append_left _ ha)
  inside := fun a ha => h.owned.inside a (mem_append_left _ ha)
  contiguous := h.spans
  freeList := by
    have hs := takeWhile_sublist (l := s.free) (· ≠ 0)
    refine ⟨_, h.linked, hs.nodup h.owned.nodup.of_append_right, fun a ha ho => ?_⟩
    exact disjoint_of_nodup_append h.owned.nodup ho (hs.subset ha)
  used := h.used

theorem boot {a : BootInfoFrameAllocator} (words : Nat → Nat) (physOffset : Nat) (h : init regions = .ok a) :
    Sound (Ledger.boot a words physOffset) := by
  have ⟨total, _, h⟩ := Result.bind_eq_ok.mp h
  cases h
  have hn : ∀ a ∈ ([] : List Nat), False := by simp
  exact ⟨Nat.zero_mod _, ⟨.nil, fun a ha => (hn a ha).elim, fun a ha => (hn a ha).elim, fun a ha => (hn a ha).elim⟩,
    by simp [Ledger.boot], .nil, rfl⟩

section

variable (h : Sound s)
include h

theorem pop (hn : s.freeHead ≠ 0) : s.freeHead % frameSize = 0 ∧ Sound s.pop := by
  have ⟨as, has, hl⟩ := h.linked.eq_cons hn
  match hf : s.free with
  | [] => simp [hf] at has
  | b :: bs =>
    rw [hf, takeWhile_cons] at has
    split at has
    case isFalse => cases has
    case isTrue =>
      have ⟨hb, has⟩ := List.cons.inj has
      have he : (b :: bs).erase s.freeHead = bs := by simp [hb]
      have hp : (s.outstanding ++ s.free).Perm (s.freeHead :: (s.outstanding ++ bs)) := by
        rw [hf, hb]
        exact perm_middle
      rw [Ledger.pop, hf, he]
      exact ⟨h.owned.aligned _ (hp.mem_iff.mpr (.head _)), h.bump, h.owned.perm hp, h.spans, has ▸ hl,
        congrArg (· + 1) h.used⟩

theorem hold (hr : r ∈ s.memoryRegions) (hf : Fits r s.bumpNext c n) : Sound (s.hold c n) where
  bump := by
    show (c + n * frameSize) % frameSize = 0
    rw [Nat.add_mul_mod_self_right, hf.aligned]
  owned := by
    refine (h.owned.grant hr hf).perm ?_
    show (Grant.frames ⟨c, n⟩ ++ ((s.singles ++ _) ++ s.free)).Perm
      ((s.singles ++ (Grant.frames ⟨c, n⟩ ++ _)) ++ s.free)
    simp only [← append_assoc]
    exact (perm_append_comm.append_right _).append_right _
  spans := by
    intro g hg
    cases hg with
    | head => exact ⟨r, hr, hf.holds⟩
    | tail _ hg => exact h.spans g hg
  linked := h.linked
  used := by
    show s.used + n = (s.singles ++ (Grant.frames ⟨c, n⟩ ++ s.held.flatMap Grant.frames)).length
    rw [h.used]
    simp only [Ledger.outstanding, length_append, Grant.frames, length_map, length_range]
    omega

theorem single (hr : r ∈ s.memoryRegions) (hf : Fits r s.bumpNext c 1) : Sound (s.single c) := by
  have hc : c ∉ s.free := fun hc => by
    have := h.owned.below c (mem_append_right _ hc)
    have := hf.above
    have := frameSize_eq
    omega
  have ho := h.owned.grant hr hf
  rw [Ledger.single, erase_of_not_mem hc]
  simp only [Grant.frames, range_one, map_cons, map_nil, Nat.zero_mul, Nat.add_zero, Nat.one_mul] at ho
  refine ⟨?_, ho, h.spans, h.linked, congrArg (· + 1) h.used⟩
  show (c + frameSize) % frameSize = 0
  rw [Nat.add_mod_right, hf.aligned]

theorem release (ha : a ∈ s.singles) : Sound (s.release a) where
  bump := h.bump
  owned := h.owned.perm (s.release_perm ha)
  spans := h.spans
  linked := by
    have hnd := h.owned.nodup
    have ha' : a ∉ s.free := fun hf =>
      disjoint_of_nodup_append hnd (mem_append_left _ ha) hf
    show FreeList (Function.update s.words a s.freeHead) a ((a :: s.free).takeWhile (· ≠ 0))
    rw [takeWhile_cons]
    split
    case isTrue hz =>
      refine .cons (by simpa using hz) ?_
      rw [Function.update_self]
      refine h.linked.congr fun b hb => Function.update_of_ne ?_ ..
      exact fun hba => ha' (hba ▸ (takeWhile_sublist _).subset hb)
    case isFalse hz =>
      have hz : a = 0 := by simpa using hz
      rw [hz]
      exact .nil
  used := by
    show s.used - 1 = (s.singles.erase a ++ s.held.flatMap Grant.frames).length
    have := length_pos_of_mem ha
    rw [h.used, Ledger.outstanding, length_append, length_append, length_erase_of_mem ha]
    omega

theorem touch (hw : ∀ a ∈ s.free, words a = s.words a) : Sound { s with words } where
  bump := h.bump
  owned := h.owned
  spans := h.spans
  linked := h.linked.congr fun a ha => hw a ((takeWhile_sublist _).subset ha)
  used := h.used

theorem effect (e : Step s call t) : Effect s call t := by
  cases e with
  | allocate hr =>
    rw [allocateFrame_run] at hr
    split at hr
    case isTrue hn =>
      have ⟨ha, hm⟩ := popFree_eq_ok hr
      rw [hm, eq_of_aligned ha (h.pop hn).1]
      exact .pop hn
    case isFalse =>
      rcases bumpFrame_eq_ok hr with ⟨_, ha, _⟩ | ⟨c, hc, ha, hm⟩
      · cases ha
      have ⟨r, hr, hf⟩ := fits_of_framePlace h.bump hc
      rw [hm, eq_of_aligned ha hf.aligned]
      exact .single hr hf hc
  | allocateNone hr =>
    rw [allocateFrame_run] at hr
    split at hr
    case isTrue => cases (popFree_eq_ok hr).1
    case isFalse =>
      rcases bumpFrame_eq_ok hr with ⟨_, _, hm⟩ | ⟨_, _, ha, _⟩
      · exact hm ▸ .none _
      · cases ha
  | contiguous hr =>
    rcases allocateContiguous_eq_ok hr with ⟨_, ha, _⟩ | ⟨_, ha, _⟩ | ⟨c, hn, hc, ha, hm⟩
    · cases ha
    · cases ha
    have ⟨r, hr, hf⟩ := fits_of_spanPlace h.bump hc
    rw [hm, eq_of_aligned ha hf.aligned]
    exact .contiguous hr hf hn hc
  | contiguousNone hr =>
    rcases allocateContiguous_eq_ok hr with ⟨_, _, hm⟩ | ⟨_, _, hm⟩ | ⟨_, _, _, ha, _⟩
    · exact hm ▸ .none _
    · exact hm ▸ .none _
    · cases ha
  | low hr =>
    rcases reserveLowFrame_eq_ok hr with ⟨_, ha, _⟩ | ⟨c, hc, ha, hm⟩
    · cases ha
    have ⟨r, hr, hf⟩ := fits_of_lowPlace hc
    rw [hm, Option.some.inj ha, ← Nat.one_mul frameSize]
    exact .low hr hf hc
  | lowNone hr =>
    rcases reserveLowFrame_eq_ok hr with ⟨_, _, hm⟩ | ⟨_, _, ha, _⟩
    · exact hm ▸ .none _
    · cases ha
  | release ha hr =>
    have ⟨⟨_, hw⟩, hm⟩ := deallocateFrame_eq_ok hr
    exact hm ▸ .release ha hw
  | touch hw => exact .touch hw

end

theorem step (e : Step s call t) (h : Sound s) : Sound t := by
  cases h.effect e with
  | pop hn => exact (h.pop hn).2
  | single hr hf => exact h.single hr hf
  | contiguous hr hf => exact h.hold hr hf
  | low hr hf => exact h.hold hr hf
  | none n => exact ⟨h.bump, h.owned, h.spans, h.linked, h.used⟩
  | release ha => exact h.release ha
  | touch hw => exact h.touch hw

end Sound

theorem exclusive_of_run {a : BootInfoFrameAllocator} (hi : init regions = .ok a)
    (e : Execution Step (Ledger.boot a words physOffset) calls t) : Exclusive t :=
  (e.invariant (fun e h => Sound.step e h) (Sound.boot words physOffset hi)).exclusive

-- One region of two frames: a frame goes out, comes back, and goes out again.
def twoFrames (bumpNext freeHead used freed : Nat) (words : Nat → Nat) (singles free : List Nat) : Ledger :=
  { memoryRegions := [⟨0x1000, 0x3000, .usable⟩], bumpNext, freeHead, total := 2, used, freed, oom := 0, words,
    physOffset := 1, singles, held := [], free }

theorem exclusive_after_reuse :
    Exclusive (twoFrames 0x2000 0 1 1 (Function.update (fun _ => 7) 0x1000 0) [0x1000] []) := by
  have hi : init [⟨0x1000, 0x3000, .usable⟩] =
      .ok (twoFrames 0 0 0 0 (fun _ => 7) [] []).toBootInfoFrameAllocator := by with_unfolding_all rfl
  have hr1 : allocateFrame.run (twoFrames 0 0 0 0 (fun _ => 7) [] []).toPhysical =
      (.ok (some 0x1000), (twoFrames 0x2000 0 1 0 (fun _ => 7) [] []).toPhysical) := by with_unfolding_all rfl
  have hr2 : (deallocateFrame 0x1000).run (twoFrames 0x2000 0 1 0 (fun _ => 7) [] []).toPhysical =
      (.ok (), (twoFrames 0x2000 0x1000 0 1 (Function.update (fun _ => 7) 0x1000 0) [] []).toPhysical) := by
    with_unfolding_all rfl
  have hr3 : allocateFrame.run (twoFrames 0x2000 0x1000 0 1 (Function.update (fun _ => 7) 0x1000 0) [] []).toPhysical =
      (.ok (some 0x1000), (twoFrames 0x2000 0 1 1 (Function.update (fun _ => 7) 0x1000 0) [] []).toPhysical) := by
    with_unfolding_all rfl
  have e1 : Step (twoFrames 0 0 0 0 (fun _ => 7) [] []) .allocate (twoFrames 0x2000 0 1 0 (fun _ => 7) [0x1000] []) :=
    .allocate hr1
  have e2 : Step (twoFrames 0x2000 0 1 0 (fun _ => 7) [0x1000] []) (.release 0x1000)
      (twoFrames 0x2000 0x1000 0 1 (Function.update (fun _ => 7) 0x1000 0) [] [0x1000]) :=
    .release (.head _) hr2
  have e3 : Step (twoFrames 0x2000 0x1000 0 1 (Function.update (fun _ => 7) 0x1000 0) [] [0x1000]) .allocate
      (twoFrames 0x2000 0 1 1 (Function.update (fun _ => 7) 0x1000 0) [0x1000] []) :=
    .allocate hr3
  exact exclusive_of_run hi (.step e1 (.step e2 (.step e3 .refl)))

end Memory
