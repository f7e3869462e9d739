import Onyx.Memory.Exclusive

-- Where no frame is lost: the cursor only moves up, and jumps over no whole frame.

namespace Memory

open Lib
open List hiding sum

def Whole (regions : List MemoryRegion) (a : Nat) : Prop :=
  a % frameSize = 0 ∧ ∃ r ∈ regions, r.Holds a 1

-- The frames that further calls of `allocate_frame` hand out, until none does.
inductive HandsOut : Physical → List Nat → Prop
  | done : (∀ a t, allocateFrame.run s ≠ (.ok (some a), t)) → HandsOut s []
  | more : allocateFrame.run s = (.ok (some a), t) → HandsOut t as → HandsOut s (a :: as)

structure Lossless (s : Ledger) : Prop where
  complete : ∀ m, allocateFrame.run s.toPhysical = (.ok none, m) → ∀ a, Whole s.memoryRegions a → a ∈ s.outstanding
  accounted : ∃ as, HandsOut s.toPhysical as ∧ as.length = s.stats.2.1 - s.stats.1 ∧ s.stats.1 ≤ s.stats.2.1

def MemoryRegion.left (r : MemoryRegion) (b : Nat) : Nat := (r.stop - max (roundUp r.start) b) / frameSize

def Disjoint (regions : List MemoryRegion) : Prop :=
  regions.Pairwise fun r q => ∀ x, ¬((r.start ≤ x ∧ x < r.stop) ∧ (q.start ≤ x ∧ x < q.stop))

structure Orderly (regions : List MemoryRegion) : Prop where
  ascending : regions.Pairwise fun r q =>
    r.kind = .usable → q.kind = .usable → 0 < r.left 0 → 0 < q.left 0 → r.start ≤ q.start
  counted : ∀ r ∈ regions, r.kind = .usable → r.left 0 = (r.stop - r.start) / frameSize
  addressable : ∀ r ∈ regions, r.kind = .usable → r.stop ≤ 2 ^ 52

def Ledger.frontier (s : Ledger) : Option MemoryRegion :=
  s.memoryRegions.find? fun r => r.kind = .usable ∧ 0 < r.left s.bumpNext

def Careful (s : Ledger) : Call → Prop
  | .contiguous n =>
    ∀ r ∈ s.frontier, n ≤ r.left s.bumpNext ∨ ∀ q ∈ s.memoryRegions, q.kind = .usable → q.left s.bumpNext < n
  | .low =>
    s.bumpNext = 0 → Whole s.memoryRegions 0 → ∀ a, Whole s.memoryRegions a → a + frameSize ≤ 0x100000 → a = 0
  | .release a => a ≠ 0
  | _ => True

namespace MemoryRegion

variable {r q : MemoryRegion} {b c n : Nat}

theorem le_left (hn : 0 < n) : n ≤ r.left b ↔ max (roundUp r.start) b + n * frameSize ≤ r.stop := by
  have hf := frameSize_eq
  rw [left, Nat.le_div_iff_mul_le (by omega)]
  have : 1 * frameSize ≤ n * frameSize := Nat.mul_le_mul_right _ hn
  omega

theorem left_pos : 0 < r.left b ↔ max (roundUp r.start) b + frameSize ≤ r.stop := by
  rw [Nat.lt_iff_add_one_le, Nat.zero_add, le_left Nat.one_pos, Nat.one_mul]

theorem left_le (h : b ≤ c) : r.left c ≤ r.left b :=
  Nat.div_le_div_right (by omega)

theorem left_zero_of_le (h : b ≤ c) (hb : r.left b = 0) : r.left c = 0 :=
  Nat.le_zero.mp (hb ▸ left_le h)

theorem left_pos_of_holds (hb : b ≤ a) (ha : a % frameSize = 0) (h : r.Holds a 1) : 0 < r.left b := by
  have := roundUp_le h.2.1 ha
  have := h.2.2
  rw [left_pos]
  omega

theorem left_take (h : max (roundUp r.start) b + n * frameSize ≤ r.stop) :
    r.left (max (roundUp r.start) b + n * frameSize) + n = r.left b := by
  have hf := frameSize_eq
  have hm : max (roundUp r.start) (max (roundUp r.start) b + n * frameSize) =
      max (roundUp r.start) b + n * frameSize := Nat.max_eq_right (by omega)
  have hs : r.stop - max (roundUp r.start) b =
      r.stop - (max (roundUp r.start) b + n * frameSize) + n * frameSize := by omega
  rw [left, left, hm, hs, Nat.add_mul_div_right _ _ (by omega)]

theorem left_eq (hb : b ≤ r.start) (hc : c ≤ r.start) : r.left b = r.left c := by
  have := @le_roundUp r.start
  rw [left, left, max_eq_left (by omega), max_eq_left (by omega)]

end MemoryRegion

def remaining (regions : List MemoryRegion) (b : Nat) : Nat :=
  ((regions.filter (·.kind = .usable)).map (·.left b)).sum

section Remaining

variable {rs pre post : List MemoryRegion} {r q : MemoryRegion} {b c n : Nat}

theorem remaining_append : remaining (rs ++ post) b = remaining rs b + remaining post b := by
  simp [remaining]

theorem remaining_cons (h : r.kind = .usable) : remaining (r :: rs) b = r.left b + remaining rs b := by
  simp [remaining, h]

theorem remaining_cons_of_ne (h : r.kind ≠ .usable) : remaining (r :: rs) b = remaining rs b := by
  simp [remaining, h]

theorem remaining_congr (h : ∀ r ∈ rs, r.kind = .usable → r.left b = r.left c) : remaining rs b = remaining rs c := by
  induction rs with
  | nil => rfl
  | cons r rs hi =>
    have hrs := hi fun q hq => h q (.tail _ hq)
    by_cases hr : r.kind = .usable
    · rw [remaining_cons hr, remaining_cons hr, h r (.head _) hr, hrs]
    · rw [remaining_cons_of_ne hr, remaining_cons_of_ne hr, hrs]

theorem remaining_eq_zero (h : ∀ r ∈ rs, r.kind = .usable → r.left b = 0) : remaining rs b = 0 := by
  induction rs with
  | nil => rfl
  | cons r rs hi =>
    have hrs := hi fun q hq => h q (.tail _ hq)
    by_cases hr : r.kind = .usable
    · rw [remaining_cons hr, h r (.head _) hr, hrs]
    · rw [remaining_cons_of_ne hr, hrs]

theorem left_le_remaining (h : r ∈ rs) (hu : r.kind = .usable) : r.left b ≤ remaining rs b := by
  have ⟨pre, post, hrs⟩ := append_of_mem h
  rw [hrs, remaining_append, remaining_cons hu]
  omega

end Remaining

-- Ascending and disjoint, so one region ends before the next begins.
def Stacked (regions : List MemoryRegion) : Prop :=
  regions.Pairwise fun r q =>
    r.kind = .usable → q.kind = .usable → 0 < r.left 0 → 0 < q.left 0 → r.stop ≤ q.start

theorem stacked_of_orderly (hd : Disjoint regions) (ho : Orderly regions) : Stacked regions := by
  refine (hd.and ho.ascending).imp fun {r q} ⟨hd, ha⟩ hr hq hrl hql => ?_
  have hle := ha hr hq hrl hql
  have hql := MemoryRegion.left_pos.mp hql
  have hn := hd q.start
  have := @le_roundUp q.start
  have := frameSize_eq
  omega

namespace Stacked

variable {pre post : List MemoryRegion} {r q : MemoryRegion} {b c n : Nat}

-- `r` is the first region with frames left, and `n` of them are taken from its bottom.
structure Front (pre : List MemoryRegion) (r : MemoryRegion) (post : List MemoryRegion) (b c n : Nat) : Prop where
  usable : r.kind = .usable
  base : c = max (roundUp r.start) b
  room : c + n * frameSize ≤ r.stop
  pos : 0 < n
  passed : ∀ q ∈ pre, q.kind = .usable → q.left b = 0

namespace Front

theorem pos_left (h : Front pre r post b c n) : 0 < r.left b := by
  have hr := h.room
  rw [h.base] at hr
  have := (MemoryRegion.le_left h.pos).mpr hr
  have := h.pos
  omega

section

variable (h : Front pre r post b c n) (hs : Stacked (pre ++ r :: post))
include h hs

theorem stop_le (hq : q ∈ post) (hu : q.kind = .usable) (hl : 0 < q.left b) : r.stop ≤ q.start := by
  have hs := (pairwise_append.mp hs).2.1
  have hs := (pairwise_cons.mp hs).1 q hq
  have h1 := @MemoryRegion.left_le r 0 b (Nat.zero_le _)
  have h2 := @MemoryRegion.left_le q 0 b (Nat.zero_le _)
  have := h.pos_left
  exact hs h.usable hu (by omega) (by omega)

theorem remaining_eq : remaining (pre ++ r :: post) (c + n * frameSize) + n = remaining (pre ++ r :: post) b := by
  have hbc : b ≤ c + n * frameSize := by
    have := h.base
    omega
  have hpre := remaining_eq_zero h.passed
  have hpre' := remaining_eq_zero fun q hq hu => MemoryRegion.left_zero_of_le hbc (h.passed q hq hu)
  have hr : r.left (c + n * frameSize) + n = r.left b := by
    have hroom := h.room
    rw [h.base] at hroom ⊢
    exact MemoryRegion.left_take hroom
  have hpost : remaining post (c + n * frameSize) = remaining post b := by
    refine remaining_congr fun q hq hu => ?_
    rcases eq_zero_or_pos (q.left b) with hl | hl
    · rw [hl, MemoryRegion.left_zero_of_le hbc hl]
    have := h.stop_le hs hq hu hl
    have := h.room
    exact MemoryRegion.left_eq (by omega) (by omega)
  rw [remaining_append, remaining_append, remaining_cons h.usable, remaining_cons h.usable, hpre, hpre', hpost]
  omega

theorem covers (hb : b % frameSize = 0) (ha : Whole (pre ++ r :: post) a) (hba : b ≤ a) (hac : a < c + n * frameSize) :
    a ∈ Grant.frames ⟨c, n⟩ := by
  have ⟨hal, q, hq, hh⟩ := ha
  have hl := MemoryRegion.left_pos_of_holds hba hal hh
  rcases mem_append.mp hq with hq | hq
  · have := h.passed q hq hh.1
    omega
  cases hq with
  | head =>
    have hca : c ≤ a := by
      have := roundUp_le hh.2.1 hal
      have := h.base
      omega
    have hc : c % frameSize = 0 := h.base ▸ max_mod roundUp_mod hb
    have := frameSize_eq
    refine Owned.mem_frames.mpr ⟨(a - c) / frameSize, ?_, ?_⟩
    · rw [Nat.div_lt_iff_lt_mul (by omega)]
      omega
    · rw [Nat.div_mul_cancel]
      · omega
      · exact Nat.dvd_sub (Nat.dvd_of_mod_eq_zero hal) (Nat.dvd_of_mod_eq_zero hc)
  | tail _ hq =>
    have := h.stop_le hs hq hh.1 hl
    have := h.room
    have := hh.2.1
    omega

end

end Front
end Stacked

open Stacked (Front)

section Fronts

variable {rs : List MemoryRegion} {b c n : Nat} {s : Ledger}

theorem framePlace_none_iff (h : framePlace b r = .ok none) : r.left b = 0 := by
  have ho := (exact_framePlace.eq_ok.mp h).2
  split at ho
  case isTrue => cases ho
  case isFalse hn => exact Nat.eq_zero_of_not_pos (mt MemoryRegion.left_pos.mp hn)

theorem front_of_framePlace (h : scan (framePlace b) rs = .ok (some c)) :
    ∃ pre r post, rs = pre ++ r :: post ∧ Front pre r post b c 1 := by
  have ⟨r, pre, post, hrs, hu, hp, hn⟩ := scan_eq_some h
  have ho := (exact_framePlace.eq_ok.mp hp).2
  split at ho
  case isFalse => cases ho
  case isTrue hle =>
    cases ho
    exact ⟨pre, r, post, hrs, hu, rfl, by omega, one_pos, fun q hq hu => framePlace_none_iff (hn q hq hu)⟩

-- Regions before the one that serves a careful request have nothing left.
theorem front_of_spanPlace (hn : n ≠ 0) (hc : Careful s (.contiguous n))
    (h : scan (spanPlace (n * frameSize) s.bumpNext) s.memoryRegions = .ok (some c)) :
    ∃ pre r post, s.memoryRegions = pre ++ r :: post ∧ Front pre r post s.bumpNext c n := by
  have ⟨r, pre, post, hrs, hu, hp, hpre⟩ := scan_eq_some h
  have hpos := Nat.pos_of_ne_zero hn
  have ho := (exact_spanPlace.eq_ok.mp hp).2
  split at ho
  case isFalse => cases ho
  case isTrue hle =>
    cases ho
    have hroom : max (roundUp r.start) s.bumpNext + n * frameSize ≤ r.stop := by omega
    refine ⟨pre, r, post, hrs, hu, rfl, hroom, hpos, ?_⟩
    have hsmall : ∀ q ∈ pre, q.kind = .usable → q.left s.bumpNext < n := by
      intro q hq hqu
      have hq := (exact_spanPlace.eq_ok.mp (hpre q hq hqu)).2
      split at hq
      case isTrue => cases hq
      case isFalse hle =>
        refine Nat.lt_of_not_le fun hl => hle ?_
        have := (MemoryRegion.le_left hpos).mp hl
        omega
    have hnone : pre.find? (fun q => q.kind = .usable ∧ 0 < q.left s.bumpNext) = none := by
      match hf : pre.find? (fun q => q.kind = .usable ∧ 0 < q.left s.bumpNext) with
      | none => exact hf
      | some q =>
        have hfr : s.frontier = some q := by rw [Ledger.frontier, hrs, find?_append, hf, Option.some_or]
        have hq := mem_of_find?_eq_some hf
        have hqu : q.kind = .usable := by
          have := find?_some hf
          simp only [decide_eq_true_eq] at this
          exact this.1
        rcases hc q hfr with hl | hl
        · exact absurd (hsmall q hq hqu) (by omega)
        have := hl r (by simp [hrs]) hu
        have := (MemoryRegion.le_left hpos).mpr hroom
        omega
    intro q hq hqu
    have := find?_eq_none.mp hnone q hq
    simp only [decide_eq_true_eq] at this
    exact Nat.eq_zero_of_not_pos fun hl => this ⟨hqu, hl⟩

theorem low_le {r : MemoryRegion} (hb : b % frameSize = 0) (h : max (roundUp r.start) b ≠ 0) :
    max (roundUp (max r.start 0x1000)) (roundUp b) ≤ max (roundUp r.start) b := by
  have hf := frameSize_eq
  have hm : max (roundUp r.start) b % frameSize = 0 := max_mod roundUp_mod hb
  have hle := @le_roundUp r.start
  have : 0x1000 ≤ max (roundUp r.start) b := by
    rw [hf] at hm
    omega
  have := roundUp_le (show max r.start 0x1000 ≤ max (roundUp r.start) b by omega) hm
  rw [roundUp_of_mod hb]
  omega

theorem lowPlace_none {r : MemoryRegion} (hb : b % frameSize = 0) (h : lowPlace b r = .ok none)
    (hl : 0 < r.left b) (hs : r.stop ≤ 0x100000) : max (roundUp r.start) b = 0 := by
  have ho := lowPlace_eq_ok h
  split at ho
  case isTrue => cases ho
  case isFalse hn =>
    have hl := MemoryRegion.left_pos.mp hl
    refine Decidable.byContradiction fun hz => hn ?_
    have := low_le hb hz
    omega

theorem whole_zero (hr : r ∈ rs) (hu : r.kind = .usable) (hl : 0 < r.left b)
    (hz : max (roundUp r.start) b = 0) : b = 0 ∧ Whole rs 0 := by
  have hl := MemoryRegion.left_pos.mp hl
  have := @le_roundUp r.start
  exact ⟨by omega, Nat.zero_mod _, r, hr, hu, by omega, by omega⟩

theorem front_of_lowPlace (hs : Stacked s.memoryRegions) (hb : s.bumpNext % frameSize = 0)
    (hc : Careful s .low) (h : scan (lowPlace s.bumpNext) s.memoryRegions = .ok (some c)) :
    ∃ pre r post, s.memoryRegions = pre ++ r :: post ∧ Front pre r post s.bumpNext c 1 := by
  have ⟨r, pre, post, hrs, hu, hp, hpre⟩ := scan_eq_some h
  have ho := lowPlace_eq_ok hp
  split at ho
  case isFalse => cases ho
  case isTrue hle =>
    have ho := Option.some.inj ho
    rw [← ho] at hle
    have hr : r ∈ s.memoryRegions := by simp [hrs]
    have hcs := @le_roundUp (max r.start 0x1000)
    have hcb := @le_roundUp s.bumpNext
    have hcw : Whole s.memoryRegions c := ⟨ho ▸ max_mod roundUp_mod roundUp_mod, r, hr, hu, by omega, by omega⟩
    -- While frame `0` is still there, a careful request is not served at all.
    have hzero : ∀ q ∈ s.memoryRegions, q.kind = .usable → 0 < q.left s.bumpNext →
        max (roundUp q.start) s.bumpNext ≠ 0 := by
      intro q hq hqu hql hz
      have ⟨hb0, hw⟩ := whole_zero hq hqu hql hz
      have := hc hb0 hw c hcw hle.2
      omega
    have hrl : 0 < r.left s.bumpNext := MemoryRegion.left_pos_of_holds (by omega) hcw.1 ⟨hu, by omega, by omega⟩
    have hbase : c = max (roundUp r.start) s.bumpNext := by
      have h1 := low_le hb (hzero r hr hu hrl)
      have h2 := @roundUp_le r.start _ (by omega) hcw.1
      omega
    refine ⟨pre, r, post, hrs, hu, hbase, by omega, Nat.one_pos, fun q hq hqu => ?_⟩
    refine Nat.eq_zero_of_not_pos fun hql => ?_
    rw [hrs] at hs
    have hstop := (pairwise_append.mp hs).2.2 q hq r (.head _) hqu hu
      (Nat.lt_of_lt_of_le hql (MemoryRegion.left_le (Nat.zero_le _)))
      (Nat.lt_of_lt_of_le hrl (MemoryRegion.left_le (Nat.zero_le _)))
    exact hzero q (by simp [hrs, hq]) hqu hql (lowPlace_none hb (hpre q hq hqu) hql (by omega))

end Fronts

-- A frame is outstanding, on the list, or still ahead of the cursor.
structure Accounted (s : Ledger) : Prop where
  sound : Sound s
  stacked : Stacked s.memoryRegions
  addressable : ∀ r ∈ s.memoryRegions, r.kind = .usable → r.start ≤ r.stop ∧ r.stop ≤ 2 ^ 52
  bump_le : s.bumpNext ≤ 2 ^ 52
  nonzero : 0 ∉ s.free
  covered : ∀ a, Whole s.memoryRegions a → a < s.bumpNext → a ∈ s.outstanding ++ s.free
  count : s.used + s.free.length + remaining s.memoryRegions s.bumpNext = s.total
  total_lt : s.total < 2 ^ 64
  reachable : ∀ a ∈ s.free, ∃ w, window s.physOffset a = .ok w

theorem countFrames_eq_ok (h : countFrames sum rs = .ok total) (hs : sum < 2 ^ 64)
    (hc : ∀ r ∈ rs, r.kind = .usable → r.left 0 = (r.stop - r.start) / frameSize) :
    total = sum + remaining rs 0 ∧ total < 2 ^ 64 ∧ ∀ r ∈ rs, r.kind = .usable → r.start ≤ r.stop := by
  induction rs generalizing sum with
  | nil =>
    cases h
    exact ⟨rfl, hs, by simp⟩
  | cons r rs hi =>
    have hc' := fun q hq => hc q (.tail _ hq)
    rw [countFrames] at h
    split at h
    case isTrue hr =>
      have ⟨bytes, hb, h⟩ := Result.bind_eq_ok.mp h
      have ⟨sum', hs', h⟩ := Result.bind_eq_ok.mp h
      have hb : r.start ≤ r.stop ∧ bytes = r.stop - r.start := by
        unfold checkedSub at hb
        split at hb
        case isTrue hle => exact ⟨hle, (Except.ok.inj hb).symm⟩
        case isFalse => cases hb
      have ⟨hs', hlt⟩ := checked_eq_ok.mp hs'
      have ⟨ht, hlt, hle⟩ := hi h (hs' ▸ hlt) hc'
      refine ⟨?_, hlt, fun q hq hu => ?_⟩
      · rw [remaining_cons hr, hc r (.head _) hr, ht, hs', hb.2, add_assoc]
      · cases hq with
        | head => exact hb.1
        | tail _ hq => exact hle q hq hu
    case isFalse hr =>
      have ⟨ht, hlt, hle⟩ := hi h hs hc'
      refine ⟨by rw [remaining_cons_of_ne hr, ht], hlt, fun q hq hu => ?_⟩
      cases hq with
      | head => exact absurd hu hr
      | tail _ hq => exact hle q hq hu

namespace Accounted

variable {s t : Ledger} {a c n : Nat} {pre post : List MemoryRegion} {r : MemoryRegion} {m : Physical}

theorem boot {a : BootInfoFrameAllocator} (words : Nat → Nat) (physOffset : Nat) (hd : Disjoint regions)
    (ho : Orderly regions) (hi : init regions = .ok a) : Accounted (Ledger.boot a words physOffset) := by
  have hs := Sound.boot words physOffset hi
  have ⟨total, ht, hi⟩ := Result.bind_eq_ok.mp hi
  cases hi
  have ⟨ht, hlt, hle⟩ := countFrames_eq_ok ht (by decide) ho.counted
  exact {
    sound := hs
    stacked := stacked_of_orderly hd ho
    addressable := fun r hr hu => ⟨hle r hr hu, ho.addressable r hr hu⟩
    bump_le := Nat.zero_le _
    nonzero := not_mem_nil
    covered := fun a _ ha => absurd ha (Nat.not_lt_zero a)
    count := ht.symm
    total_lt := hlt
    reachable := by simp [Ledger.boot]
  }

section

variable (h : Accounted s)
include h

theorem advance (hrs : s.memoryRegions = pre ++ r :: post)
    (hf : Front pre r post s.bumpNext c n) (ht : Sound t) (hr : t.memoryRegions = s.memoryRegions)
    (hb : t.bumpNext = c + n * frameSize) (hu : t.used = s.used + n) (hfr : t.free = s.free)
    (htot : t.total = s.total) (hoff : t.physOffset = s.physOffset)
    (ho : ∀ a, a ∈ Grant.frames ⟨c, n⟩ ∨ a ∈ s.outstanding → a ∈ t.outstanding) : Accounted t where
  sound := ht
  stacked := hr ▸ h.stacked
  addressable := hr ▸ h.addressable
  bump_le := by
    have := (h.addressable r (by simp [hrs]) hf.usable).2
    have := hf.room
    omega
  nonzero := hfr ▸ h.nonzero
  covered := by
    intro a ha hlt
    rw [hr] at ha
    rw [hb] at hlt
    rcases lt_or_ge a s.bumpNext with hs | hs
    · rcases mem_append.mp (h.covered a ha hs) with hm | hm
      · exact mem_append_left _ (ho a (.inr hm))
      · exact mem_append_right _ (hfr ▸ hm)
    · exact mem_append_left _ (ho a (.inl (hf.covers (hrs ▸ h.stacked) h.sound.bump (hrs ▸ ha) hs hlt)))
  count := by
    have hc := h.count
    have hrem := hf.remaining_eq (hrs ▸ h.stacked)
    rw [← hrs] at hrem
    rw [hr, hb, hu, hfr, htot]
    omega
  total_lt := htot ▸ h.total_lt
  reachable := by
    rw [hfr, hoff]
    exact h.reachable

theorem takeWhile_free : s.free.takeWhile (· ≠ 0) = s.free := by
  refine takeWhile_eq_self_iff.mpr fun a ha => ?_
  exact decide_eq_true fun hz => h.nonzero (hz ▸ ha)

theorem linked : FreeList s.words s.freeHead s.free :=
  h.takeWhile_free ▸ h.sound.linked

theorem pop (hn : s.freeHead ≠ 0) : s.freeHead ∈ s.free ∧ Accounted s.pop := by
  have ⟨bs, hbs, _⟩ := h.linked.eq_cons hn
  have hm : s.freeHead ∈ s.free := hbs ▸ .head _
  refine ⟨hm, {
    sound := (h.sound.pop hn).2
    stacked := h.stacked
    addressable := h.addressable
    bump_le := h.bump_le
    nonzero := fun hz => h.nonzero (mem_of_mem_erase hz)
    covered := fun a ha hlt => ?_
    count := ?_
    total_lt := h.total_lt
    reachable := fun a ha => h.reachable a (mem_of_mem_erase ha)
  }⟩
  · have hc := h.covered a ha hlt
    show a ∈ (s.freeHead :: s.outstanding) ++ s.free.erase s.freeHead
    rw [hbs] at hc ⊢
    rw [erase_cons_head]
    exact perm_middle.mem_iff.mp hc
  · have := h.count
    have := length_pos_of_mem hm
    show s.used + 1 + (s.free.erase s.freeHead).length + remaining s.memoryRegions s.bumpNext = s.total
    rw [length_erase_of_mem hm]
    omega

theorem release (ha : a ∈ s.singles) (hz : a ≠ 0) (hw : window s.physOffset a = .ok w) : Accounted (s.release a) where
  sound := h.sound.release ha
  stacked := h.stacked
  addressable := h.addressable
  bump_le := h.bump_le
  nonzero := not_mem_cons_of_ne_of_not_mem hz.symm h.nonzero
  covered := fun b hb hlt => (s.release_perm ha).mem_iff.mp (h.covered b hb hlt)
  count := by
    have hc := h.count
    have hu := h.sound.used
    have := length_pos_of_mem ha
    rw [Ledger.outstanding, length_append] at hu
    show s.used - 1 + (a :: s.free).length + remaining s.memoryRegions s.bumpNext = s.total
    rw [length_cons]
    omega
  total_lt := h.total_lt
  reachable := by
    intro b hb
    cases hb with
    | head => exact ⟨w, hw⟩
    | tail _ hb => exact h.reachable b hb

theorem congr (ht : Sound { s with oom := n, words }) : Accounted { s with oom := n, words } :=
  { h with sound := ht }

theorem single (hrs : s.memoryRegions = pre ++ r :: post) (hf : Front pre r post s.bumpNext c 1)
    (ht : Sound (s.single c)) : Accounted (s.single c) := by
  have hne : c ∉ s.free := fun hc => by
    have := h.sound.owned.below c (mem_append_right _ hc)
    have := hf.base
    have := frameSize_eq
    omega
  refine h.advance hrs hf ht rfl (by rw [one_mul]; rfl) rfl (erase_of_not_mem hne) rfl rfl fun b hb => ?_
  rcases hb with hb | hb
  · have ⟨i, hi, hb⟩ := Owned.mem_frames.mp hb
    rw [Nat.lt_one_iff.mp hi, Nat.zero_mul, Nat.add_zero] at hb
    exact hb ▸ .head _
  · exact .tail _ hb

theorem hold (hrs : s.memoryRegions = pre ++ r :: post)
    (hf : Front pre r post s.bumpNext c n) (ht : Sound (s.hold c n)) : Accounted (s.hold c n) := by
  refine h.advance hrs hf ht rfl rfl rfl rfl rfl rfl fun a ha => ?_
  show a ∈ s.singles ++ (Grant.frames ⟨c, n⟩ ++ s.held.flatMap Grant.frames)
  simp only [Ledger.outstanding, mem_append] at ha ⊢
  tauto

end

theorem step (e : Guarded Step Careful s call t) (h : Accounted s) : Accounted t := by
  have ⟨hg, e⟩ := e
  have ht := h.sound.step e
  cases h.sound.effect e with
  | pop hn => exact (h.pop hn).2
  | single _ _ hc =>
    have ⟨_, _, _, hrs, hf⟩ := front_of_framePlace hc
    exact h.single hrs hf ht
  | contiguous _ _ hn hc =>
    have ⟨_, _, _, hrs, hf⟩ := front_of_spanPlace hn hg hc
    exact h.hold hrs hf ht
  | low _ _ hc =>
    have ⟨_, _, _, hrs, hf⟩ := front_of_lowPlace h.stacked h.sound.bump hg hc
    exact h.hold hrs hf ht
  | none => exact h.congr ht
  | release ha hw => exact h.release ha hg hw
  | touch => exact h.congr ht

theorem allocate_isSome (h : Accounted s) (hp : 0 < s.free.length + remaining s.memoryRegions s.bumpNext) :
    ∃ a m, allocateFrame.run s.toPhysical = (.ok (some a), m) := by
  have hused : s.used + 1 < 2 ^ 64 := by
    have := h.count
    have := h.total_lt
    omega
  rw [allocateFrame_run]
  split
  case isTrue hn =>
    have hm := (h.pop hn).1
    have ⟨w, hw⟩ := h.reachable _ hm
    have ⟨r, hr, hu, _, hle⟩ := h.sound.owned.inside _ (mem_append_right _ hm)
    have hlt : s.freeHead < 2 ^ 52 := by
      have := (h.addressable r hr hu).2
      have := frameSize_eq
      omega
    exact ⟨_, _, (exact_popFree hw).of_good ⟨hused, hlt⟩⟩
  case isFalse hn =>
    have hf : s.free = [] := h.linked.eq_nil (Decidable.not_not.mp hn)
    have ⟨o, ho⟩ : ∃ o, scan (framePlace s.bumpNext) s.memoryRegions = .ok o := by
      refine scan_isOk fun r hr hu => ⟨_, framePlace_of_le ?_ h.bump_le⟩
      have := h.addressable r hr hu
      omega
    cases o with
    | none =>
      have := remaining_eq_zero fun r hr hu => framePlace_none_iff (scan_eq_none ho r hr hu)
      simp [hf, this] at hp
    | some c =>
      have ⟨pre, r, post, hrs, hfr⟩ := front_of_framePlace ho
      have hroom := hfr.room
      have := (h.addressable r (by simp [hrs]) hfr.usable).2
      have := frameSize_eq
      exact ⟨_, _, bumpFrame_run ho (by omega) hused⟩

theorem handsOut (h : Accounted s) : ∃ as, HandsOut s.toPhysical as ∧ s.used + as.length = s.total := by
  have hg : ∀ {s}, Careful s .allocate := trivial
  have hle : ∀ {s}, Accounted s → s.used ≤ s.total := fun h => by
    have := h.count
    omega
  generalize hk : s.total - s.used = k
  induction k generalizing s with
  | zero =>
    have := hle h
    refine ⟨[], .done fun a m hr => ?_, by rw [length_nil]; omega⟩
    have ⟨hu, ht⟩ := allocateFrame_counts hr
    have hm : m.used ≤ m.total := hle (h.step ⟨hg, .allocate hr⟩)
    omega
  | succ k hi =>
    have hc := h.count
    have ⟨a, m, hr⟩ := h.allocate_isSome (by omega)
    have ⟨hu, ht⟩ := allocateFrame_counts hr
    have hk' : m.total - m.used = k := by omega
    have ⟨as, has, hl⟩ := hi (h.step ⟨hg, .allocate hr⟩) hk'
    have hl : m.used + as.length = m.total := hl
    exact ⟨a :: as, .more hr has, by rw [length_cons]; omega⟩

theorem lossless (h : Accounted s) : Lossless s where
  complete := by
    intro m hr a ha
    have hz : s.free.length + remaining s.memoryRegions s.bumpNext = 0 := by
      refine Nat.eq_zero_of_not_pos fun hp => ?_
      have ⟨b, m', hr'⟩ := h.allocate_isSome hp
      rw [hr] at hr'
      cases hr'
    have hf : s.free = [] := eq_nil_of_length_eq_zero (by omega)
    have hlt : a < s.bumpNext := by
      refine Nat.lt_of_not_le fun hle => ?_
      have ⟨hal, r, hr, hh⟩ := ha
      have := MemoryRegion.left_pos_of_holds hle hal hh
      have := @left_le_remaining s.memoryRegions r s.bumpNext hr hh.1
      omega
    have hc := h.covered a ha hlt
    rwa [hf, append_nil] at hc
  accounted := by
    have ⟨as, has, hl⟩ := h.handsOut
    dsimp only [BootInfoFrameAllocator.stats]
    exact ⟨as, has, by omega, by omega⟩

end Accounted

theorem lossless_of_careful_run {a : BootInfoFrameAllocator} (hd : Disjoint regions) (ho : Orderly regions)
    (hi : init regions = .ok a)
    (e : Execution (Guarded Step Careful) (Ledger.boot a words physOffset) calls t) : Lossless t :=
  (e.invariant (fun e h => Accounted.step e h) (Accounted.boot words physOffset hd ho hi)).lossless

def fresh (memoryRegions : List MemoryRegion) (total bumpNext used : Nat) (held : List Grant) : Ledger :=
  { memoryRegions, bumpNext, freeHead := 0, total, used, freed := 0, oom := 0, words := fun _ => 0, physOffset := 1,
    singles := [], held, free := [] }

def frameBelowPair : List MemoryRegion := [⟨0x1000, 0x2000, .usable⟩, ⟨0x10000, 0x12000, .usable⟩]

theorem disjoint_frameBelowPair : Disjoint frameBelowPair := by
  refine .cons (fun r hr x => ?_) (.cons (by simp) .nil)
  rw [mem_singleton.mp hr]
  show ¬((0x1000 ≤ x ∧ x < 0x2000) ∧ 0x10000 ≤ x ∧ x < 0x12000)
  omega

theorem init_frameBelowPair : init frameBelowPair = .ok (fresh frameBelowPair 3 0 0 []).toBootInfoFrameAllocator := by
  with_unfolding_all rfl

theorem orderly_frameBelowPair : Orderly frameBelowPair := by
  refine ⟨.cons (fun r hr _ _ _ _ => ?_) (.cons (by simp) .nil), fun r hr _ => ?_, fun r hr _ => ?_⟩
  · rw [mem_singleton.mp hr]
    decide
  · rcases mem_pair.mp hr with rfl | rfl <;> with_unfolding_all rfl
  · rcases mem_pair.mp hr with rfl | rfl <;> decide

def lowerBack : Ledger :=
  { fresh frameBelowPair 3 0x12000 2 [⟨0x10000, 2⟩] with
    freeHead := 0x1000, freed := 1, words := Function.update (fun _ => 0) 0x1000 0, free := [0x1000] }

theorem lossless_lowerBack : Lossless lowerBack := by
  have hr1 : allocateFrame.run (fresh frameBelowPair 3 0 0 []).toPhysical =
      (.ok (some 0x1000), (fresh frameBelowPair 3 0x2000 1 []).toPhysical) := by with_unfolding_all rfl
  have hr2 : (allocateContiguous 2).run (fresh frameBelowPair 3 0x2000 1 []).toPhysical =
      (.ok (some 0x10000), (fresh frameBelowPair 3 0x12000 3 []).toPhysical) := by with_unfolding_all rfl
  have hr3 : (deallocateFrame 0x1000).run (fresh frameBelowPair 3 0x12000 3 []).toPhysical =
      (.ok (), lowerBack.toPhysical) := by with_unfolding_all rfl
  have hg : Careful { fresh frameBelowPair 3 0x2000 1 [] with singles := [0x1000] } (.contiguous 2) := by
    intro r hr
    have hf : Ledger.frontier { fresh frameBelowPair 3 0x2000 1 [] with singles := [0x1000] } =
        some ⟨0x10000, 0x12000, .usable⟩ := by with_unfolding_all rfl
    cases hf.symm.trans hr
    have hl : (⟨0x10000, 0x12000, .usable⟩ : MemoryRegion).left 0x2000 = 2 := by with_unfolding_all rfl
    exact .inl hl.ge
  have e : Execution (Guarded Step Careful) (fresh frameBelowPair 3 0 0 []) [.allocate, .contiguous 2, .release 0x1000]
      lowerBack :=
    .step ⟨trivial, .allocate hr1⟩ (.step ⟨hg, .contiguous hr2⟩ (.step ⟨(by decide : 0x1000 ≠ 0), .release (.head _) hr3⟩ .refl))
  exact lossless_of_careful_run disjoint_frameBelowPair orderly_frameBelowPair init_frameBelowPair e

theorem frame_lost_below_pair : Disjoint frameBelowPair ∧ ∃ a t, init frameBelowPair = .ok a ∧
      Execution Step (Ledger.boot a (fun _ => 0) 1) [.contiguous 2] t ∧ ¬Lossless t := by
  have hr : (allocateContiguous 2).run (fresh frameBelowPair 3 0 0 []).toPhysical =
      (.ok (some 0x10000), (fresh frameBelowPair 3 0x12000 2 []).toPhysical) := by with_unfolding_all rfl
  have hn : allocateFrame.run (fresh frameBelowPair 3 0x12000 2 [⟨0x10000, 2⟩]).toPhysical =
      (.ok none, { fresh frameBelowPair 3 0x12000 2 [] with oom := 1 }.toPhysical) := by with_unfolding_all rfl
  have e : Step (fresh frameBelowPair 3 0 0 []) (.contiguous 2) (fresh frameBelowPair 3 0x12000 2 [⟨0x10000, 2⟩]) :=
    .contiguous hr
  refine ⟨disjoint_frameBelowPair, _, _, init_frameBelowPair, .step e .refl, fun hl => ?_⟩
  have hw : Whole frameBelowPair 0x1000 := by
    refine ⟨by rw [frameSize_eq], _, .head _, rfl, le_refl _, ?_⟩
    rw [frameSize_eq]
  have hm : 0x1000 ∈ Grant.frames ⟨0x10000, 2⟩ ++ [] := hl.complete _ hn 0x1000 hw
  rw [append_nil, Owned.mem_frames] at hm
  have ⟨i, _, hm⟩ := hm
  omega

end Memory
