import Onyx.Block.Coherence
import Onyx.Lib.Exact

-- When a read through the cache panics: all addresses are computed in 64 bits.

open Lib Prog

namespace Blkcache

open AtaDrive (sectorSize)

variable {s s' : Layer} {lba rem : Nat}

section safe

theorem not_panics_inRange : ¬Panics (s.inRange lba n) := by
  rw [Layer.inRange]
  split_ifs <;> simp

theorem readSectorsRaw_out (h0 : n ≠ 0) (hroom : n * sectorSize ≤ room) (hr : ¬s.drive.InRange lba n) :
    (readSectorsRaw lba n room).run s = (fail .outOfRange, s) := by
  rw [readSectorsRaw, if_neg (by omega), read_bind_run, Layer.inRange, if_neg hr]
  rfl

theorem not_panics_readSectorsRaw (h0 : n ≠ 0) (hr : n * sectorSize ≤ room) : ¬(readSectorsRaw lba n room).Panics s := by
  unfold readSectorsRaw
  rw [if_neg (by omega)]
  refine not_panics_read_bind not_panics_inRange fun _ _ => not_panics_bind nofun fun fault _ _ => ?_
  cases fault <;> nofun

theorem not_panics_writeSectorsRaw (h0 : n ≠ 0) (hl : n * sectorSize ≤ buf.length) : ¬(writeSectorsRaw lba n buf).Panics s := by
  unfold writeSectorsRaw
  rw [if_neg (by omega)]
  refine not_panics_read_bind not_panics_inRange fun _ _ => not_panics_bind nofun fun fault _ _ => ?_
  cases fault <;> nofun

theorem exact_coalesce :
    Exact (coalesce s lba rem) (2 ^ 64 ≤ lba + min (misses s.cache.entries (lba + 1) (rem - 1) + 1) (rem - 1))
      (lba + min (misses s.cache.entries (lba + 1) (rem - 1) + 1) (rem - 1) < 2 ^ 64)
      (misses s.cache.entries (lba + 1) (rem - 1)) := by
  have hle := misses_le s.cache.entries (lba + 1) (rem - 1)
  refine .congr (.bind .checked fun _ => .ok) ?_ ?_
  all_goals
    simp only [and_false, or_false, and_true]
    split_ifs <;> omega

theorem contains_misses (h : misses c lba rem < rem) : c.contains (lba + misses c lba rem) = true := by
  induction rem generalizing lba with
  | zero => exact absurd h (Nat.not_lt_zero _)
  | succ rem hi =>
    rw [misses] at h ⊢
    split_ifs at h ⊢ with hk
    · exact hk
    · rw [show lba + (misses c (lba + 1) rem + 1) = lba + 1 + misses c (lba + 1) rem by omega]
      exact hi (by omega)

theorem Coherent.inRange (h : Coherent s) (hk : s.cache.entries.contains lba = true) : s.drive.InRange lba 1 := by
  have ⟨i, hi⟩ := Option.isSome_iff_exists.mp hk
  have ⟨hv, hkey⟩ := Clock.locate_eq_some hi
  exact inRange_of_raw (h.device ⟨i, hv, hkey, rfl⟩)

theorem coalesce_cut (h : Coherent s) (hlt : 2 ^ 64 < lba + rem)
    (hlast : lba + min (misses s.cache.entries (lba + 1) (rem - 1) + 1) (rem - 1) < 2 ^ 64) :
    s.drive.InRange lba (misses s.cache.entries (lba + 1) (rem - 1) + 1) := by
  have hcut : misses s.cache.entries (lba + 1) (rem - 1) < rem - 1 := by omega
  exact (h.inRange (contains_misses hcut)).mono (by omega) (by omega)

theorem not_panics_find : ¬(find lba).Panics s := by
  cases hf : s.cache.entries.find lba with
  | none => simp [Prog.Panics, find_run_none hf]
  | some q => simp [Prog.Panics, find_run_some hf]

theorem not_panics_readLoop (h : lba + rem ≤ 2 ^ 64) : ¬(readLoop lba rem).Panics s := by
  induction rem using Nat.strongRecOn generalizing s lba with | ind rem hi
  rw [readLoop]
  split_ifs with h0
  · exact not_panics_pure
  refine not_panics_bind (by rw [panics_lift, panics_checked]; omega) fun _ s1 _ => ?_
  refine Prog.not_panics_bind not_panics_find fun found s2 _ => ?_
  cases found with
  | some data => exact not_panics_bind (hi (rem - 1) (by omega) (by omega)) fun _ _ _ => not_panics_pure
  | none =>
    refine not_panics_read_bind (by rw [exact_coalesce.panics]; omega) fun more hm => ?_
    have hle := coalesce_le hm h0
    refine not_panics_bind (not_panics_readSectorsRaw (by omega) (le_refl _)) fun b s3 _ => ?_
    refine not_panics_bind not_panics_modify fun _ s4 _ => ?_
    exact not_panics_bind (hi (rem - (more + 1)) (by omega) (by omega)) fun _ _ _ => not_panics_pure

theorem not_panics_prefetchRun : ¬(prefetchRun lba (n + 1)).Panics s := by
  refine not_panics_bind ?_ fun found _ _ => ?_
  · exact panics_attempt.not.mpr (not_panics_readSectorsRaw (by omega) (le_refl _))
  · cases found <;> nofun

theorem not_panics_prefetch (h : lba + rem ≤ 2 ^ 64) : ¬(prefetch lba rem).Panics s := by
  induction rem using Nat.strongRecOn generalizing s lba with | ind rem hi
  rw [prefetch]
  split_ifs with h0
  · exact not_panics_pure
  refine not_panics_bind (by rw [panics_lift, panics_checked]; omega) fun _ s1 _ => ?_
  refine not_panics_read_bind not_panics_ok fun cached _ => ?_
  split_ifs
  · exact hi (rem - 1) (by omega) (by omega)
  refine not_panics_read_bind (by rw [exact_coalesce.panics]; omega) fun more hm => ?_
  have hle := coalesce_le hm h0
  exact not_panics_bind not_panics_prefetchRun fun _ _ _ => hi (rem - (more + 1)) (by omega) (by omega)

structure Fits (d : AtaDrive) (sequential : Prop) (lba count : Nat) : Prop where
  own : lba + count ≤ 2 ^ 64
  ahead : d.InRange lba count → sequential → lba + count + readAhead ≤ 2 ^ 64

-- The read at this address would continue the last one.
def Layer.Continues (s : Layer) (lba : Nat) : Prop := s.cache.seqValid = true ∧ lba = s.cache.lastSeqEnd

instance (s : Layer) (lba : Nat) : Decidable (s.Continues lba) := inferInstanceAs (Decidable (_ ∧ _))

variable {count : UInt8} {room : Nat}

theorem read_eq (h0 : count ≠ 0) (hroom : count.toNat * sectorSize ≤ room) :
    (read lba count room).run s = (do
      let b ← readLoop lba count.toNat
      let stop ← lift (checked 64 (lba + count.toNat))
      finishRead (s.Continues lba) stop
      return b : BlkM Bytes).run s := by
  rw [read, if_neg (not_or.mpr ⟨h0, not_lt.mpr hroom⟩), read_bind_run, lift_ok_bind_run]
  have hs : (s.cache.seqValid && lba == s.cache.lastSeqEnd) = decide (s.Continues lba) := by
    rw [Bool.eq_iff_iff, decide_eq_true_eq]
    simp [Layer.Continues]
  rw [hs]

theorem finishRead_true : (finishRead true stop).run s =
    (prefetch stop readAhead).run { s with cache := { s.cache with lastSeqEnd := stop, seqValid := true } } :=
  rfl

theorem finishRead_false : (finishRead false stop).run s =
    (.ok (), { s with cache := { s.cache with lastSeqEnd := stop, seqValid := true } }) :=
  rfl

theorem not_panics_read (h : Coherent s) (hreach : s.drive.Reached lba count.toNat) (h0 : count ≠ 0)
    (hroom : count.toNat * sectorSize ≤ room) (hf : Fits s.drive (s.Continues lba) lba count.toNat) : ¬(read lba count room).Panics s := by
  rw [Prog.Panics, read_eq h0 hroom]
  refine Prog.not_panics_bind (not_panics_readLoop hf.own) fun b s1 hb => ?_
  -- the read has succeeded, so all its sectors are in range
  obtain ⟨_, hbacked⟩ := (readLoop_ensures h lba count.toNat hreach).of_run hb
  have hr : s.drive.InRange lba count.toNat :=
    ((hbacked b rfl).direct.resolve_left fun hc => h0 (UInt8.toNat_inj.mp hc)).inRange
  refine Prog.not_panics_bind (by rw [Prog.panics_lift, panics_checked]; exact not_le.mpr hr.1) fun stop s2 hs => ?_
  obtain ⟨hs, _⟩ := checked_eq_ok.mp (congrArg Prod.fst hs)
  refine Prog.not_panics_bind (Prog.not_panics_bind Prog.not_panics_modify fun _ s3 _ => ?_) fun _ _ _ => Prog.not_panics_pure
  split_ifs with hq
  · exact not_panics_prefetch (hs ▸ hf.ahead hr (of_decide_eq_true hq))
  · exact Prog.not_panics_pure

end safe

section calm

-- No transfer will fail for reasons of the hardware.
def Layer.Calm (s : Layer) : Prop := s.faults = fun _ => none

variable (hc : s.Calm)

include hc

theorem nextFault_calm : nextFault.run s = (.ok none, s) := by
  cases s
  cases hc
  rfl

theorem readSectorsRaw_calm (h0 : n ≠ 0) (hroom : n * sectorSize ≤ room) (hr : s.drive.InRange lba n) :
    (readSectorsRaw lba n room).run s = (.ok (s.drive.content (AtaDrive.reach lba n * sectorSize) (n * sectorSize)), s) := by
  rw [readSectorsRaw, if_neg (by omega), read_bind_run, Layer.inRange, if_pos hr, lift_ok_bind_run,
    bind_run_ok (nextFault_calm hc)]
  rfl

theorem readLoop_calm (h : Coherent s) (hreach : s.drive.Reached lba rem) (hle : lba ≤ 2 ^ 64)
    (hr : rem = 0 ∨ s.drive.InRange lba rem ∨ 2 ^ 64 < lba + rem) :
    (readLoop lba rem).Decides s (2 ^ 64 < lba + rem) fun _ s' => ∃ c, s' = s.withEntries c := by
  induction rem using Nat.strongRecOn generalizing s lba with | ind rem hi
  rw [readLoop]
  split_ifs with h0
  · exact .of_run (by omega) rfl ⟨s.cache.entries, rfl⟩
  have hr := hr.resolve_left h0
  have hrest {m : Nat} (h0 : m ≠ 0) (hm : m ≤ rem) :
      rem - m = 0 ∨ s.drive.InRange (lba + m) (rem - m) ∨ 2 ^ 64 < lba + m + (rem - m) := by
    by_cases hz : rem - m = 0
    · exact .inl hz
    · exact .inr (hr.imp (fun hr => hr.mono (by omega) (by omega)) fun hlt => by omega)
  refine .lift_bind .checked (by omega) (by omega) fun hlba => ?_
  cases hf : s.cache.entries.find lba with
  | some q =>
    have hq := (find_ensures h lba).of_run (find_run_some hf)
    have hnext := hi (rem - 1) (by omega) (s := s.withEntries q.2) hc hq.1.coherent
      (hreach.mono (by omega) (by omega)) hlba (hrest (by decide) (by omega))
    exact .run_bind (find_run_some hf) (.bind hnext (by omega) fun hn _ _ hs => .of_run (by omega) rfl hs)
  | none =>
    refine .run_bind (find_run_none hf) (.read_bind exact_coalesce (by omega) (by omega) fun hlast => ?_)
    have hmore := misses_le s.cache.entries (lba + 1) (rem - 1)
    have hin : s.drive.InRange lba (misses s.cache.entries (lba + 1) (rem - 1) + 1) :=
      hr.elim (fun hr => hr.mono (by omega) (by omega)) fun hlt => coalesce_cut h hlt hlast
    generalize misses s.cache.entries (lba + 1) (rem - 1) = more at hlast hmore hin
    have hraw := readSectorsRaw_calm hc (by omega) (le_refl _) hin
    obtain ⟨_, hb⟩ := (readSectorsRaw_ensures h lba (more + 1) _).of_run hraw
    have hb : Backed s.drive lba (more + 1) _ := .of_raw (hreach.mono (le_refl _) (by omega)) (by omega) (hb _ rfl)
    have hnext := hi (rem - (more + 1)) (by omega) (s := s.withEntries (insertAll s.cache.entries lba _ (more + 1))) hc
      (Quiet.insertAll h hb).coherent (hreach.mono (by omega) (by omega)) (le_of_lt hin.1) (hrest (by omega) (by omega))
    exact .run_bind hraw (.run_bind modify_run (.bind hnext (by omega) fun hn _ _ hs => .of_run (by omega) rfl hs))

theorem prefetchRun_calm : ∃ c, (prefetchRun lba (n + 1)).run s = (.ok (), s.withEntries c) := by
  by_cases hr : s.drive.InRange lba (n + 1)
  case pos =>
    have hraw := readSectorsRaw_calm hc (by omega) (le_refl _) hr
    exact ⟨_, by rw [prefetchRun, bind_run_ok (attempt_run_ok hraw)]; rfl⟩
  case neg =>
    have hraw := readSectorsRaw_out (s := s) (by omega) (le_refl _) hr
    exact ⟨s.cache.entries, by rw [prefetchRun, bind_run_ok (attempt_run_err hraw)]; rfl⟩

theorem prefetch_calm (hle : lba ≤ 2 ^ 64) :
    (prefetch lba rem).Decides s (2 ^ 64 < lba + rem) fun _ s' => ∃ c, s' = s.withEntries c := by
  induction rem using Nat.strongRecOn generalizing s lba with | ind rem hi
  rw [prefetch]
  split_ifs with h0
  · exact .of_run (by omega) rfl ⟨s.cache.entries, rfl⟩
  refine .lift_bind .checked (by omega) (by omega) fun hlba => .read_bind .ok False.elim (fun _ => trivial) fun _ => ?_
  split_ifs
  · have hnext := hi (rem - 1) (by omega) hc hlba
    rwa [show lba + 1 + (rem - 1) = lba + rem by omega] at hnext
  refine .read_bind exact_coalesce (by omega) (by omega) fun hlast => ?_
  have hmore := misses_le s.cache.entries (lba + 1) (rem - 1)
  generalize misses s.cache.entries (lba + 1) (rem - 1) = more at hlast hmore
  obtain ⟨c, (hrun : (prefetchRun lba (more + 1)).run s = _)⟩ := prefetchRun_calm hc
  have hlt : lba + (more + 1) ≤ 2 ^ 64 := by omega
  have hnext := hi (rem - (more + 1)) (by omega) (s := s.withEntries c) hc hlt
  rw [show lba + (more + 1) + (rem - (more + 1)) = lba + rem by omega] at hnext
  exact .run_bind hrun hnext

theorem read_calm (h : Coherent s) (hreach : s.drive.Reached lba count.toNat) (h0 : count ≠ 0)
    (hroom : count.toNat * sectorSize ≤ room) (hlba : lba < 2 ^ 64)
    (hr : s.drive.InRange lba count.toNat ∨ ¬Fits s.drive (s.Continues lba) lba count.toNat) :
    (read lba count room).Decides s (¬Fits s.drive (s.Continues lba) lba count.toNat) fun _ s' =>
      ∃ c, s' = { s with cache := ⟨c, lba + count.toNat, true⟩ } := by
  have hin (hown : lba + count.toNat ≤ 2 ^ 64) : s.drive.InRange lba count.toNat :=
    hr.elim id fun hf => by_contra fun hno => hf ⟨hown, fun hr => absurd hr hno⟩
  refine .congr (read_eq h0 hroom) (.bind (readLoop_calm hc h hreach (by omega) ?_) (fun hlt hf => ?_) fun hown b s1 hs1 => ?_)
  · by_cases hown : lba + count.toNat ≤ 2 ^ 64
    · exact .inr (.inl (hin hown))
    · exact .inr (.inr (by omega))
  · have := hf.own
    omega
  obtain ⟨c, rfl⟩ := hs1
  have hr := hin (by omega)
  refine .lift_bind .checked (fun hbig => absurd hr.1 (by omega)) (by omega) fun _ => ?_
  by_cases hq : s.Continues lba
  case pos =>
    rw [decide_eq_true hq]
    refine .bind (.congr finishRead_true (prefetch_calm hc (le_of_lt hr.1))) (fun hlt hf => ?_)
      fun hlt _ _ ⟨c', hs⟩ => ?_
    · have := hf.ahead hr hq
      omega
    · exact .of_run (not_not.mpr ⟨by omega, fun _ _ => by omega⟩) rfl ⟨c', hs⟩
  case neg =>
    rw [decide_eq_false hq]
    exact .run_bind finishRead_false (.of_run (not_not.mpr ⟨by omega, fun _ hq' => absurd hq' hq⟩) rfl ⟨c, rfl⟩)

end calm

end Blkcache
