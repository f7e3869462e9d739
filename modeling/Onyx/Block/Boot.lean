import Onyx.Block.Overflow
import Onyx.Block.Partition

-- The scan of the partition tables, whatever is on the disk: when it panics, and what it reports.

open Lib Prog

namespace Blkcache

theorem Fits.mono (h : Fits d p lba n) (hq : q → p) : Fits d q lba n :=
  ⟨h.own, fun hr hc => h.ahead hr (hq hc)⟩

section seq

def Layer.SameSeq (s : Layer) (_ : Bool) (s' : Layer) : Prop :=
  s'.cache.lastSeqEnd = s.cache.lastSeqEnd ∧ s'.cache.seqValid = s.cache.seqValid

instance : Transit Layer.SameSeq where
  refl := ⟨rfl, rfl⟩
  trans := fun h1 h2 => ⟨h2.1.trans h1.1, h2.2.trans h1.2⟩

theorem readSectorsRaw_sameSeq : (readSectorsRaw lba n room).Within Layer.SameSeq := by
  rw [readSectorsRaw]
  split_ifs
  · exact .lift
  refine .read_bind fun _ => .bind (fun _ => ⟨rfl, rfl⟩) fun fault => ?_
  cases fault with
  | none => exact .read
  | some e => exact .lift

theorem prefetch_sameSeq : (prefetch lba rem).Within Layer.SameSeq := by
  induction rem using Nat.strongRecOn generalizing lba with | ind rem hi
  rw [prefetch]
  split_ifs with h0
  · exact .pure
  refine .lift_bind fun _ => .read_bind fun cached => ?_
  split_ifs
  · exact hi (rem - 1) (by omega)
  refine .read_bind fun more => .bind (.bind ?_ fun found => ?_) fun _ => ?_
  · exact .attempt readSectorsRaw_sameSeq
  · cases found with
    | none => exact .pure
    | some b => exact fun _ => ⟨rfl, rfl⟩
  · exact hi (rem - (more + 1)) (by omega)

theorem continues_of_read (h0 : count ≠ 0) (hroom : count.toNat * AtaDrive.sectorSize ≤ room)
    (hr : (read lba count room).run s = (.ok b, s')) : s'.Continues next → next = lba + count.toNat := by
  rw [read_eq h0 hroom] at hr
  have ⟨_, s1, _, hr⟩ := bind_eq_ok.mp hr
  have ⟨stop, s2, hs, hr⟩ := bind_eq_ok.mp hr
  have ⟨_, s3, hf, hr⟩ := bind_eq_ok.mp hr
  have ⟨hstop, _⟩ := checked_eq_ok.mp (congrArg Prod.fst hs)
  cases hr
  intro ⟨_, hn⟩
  by_cases hq : s.Continues lba
  case pos =>
    rw [decide_eq_true hq, finishRead_true] at hf
    have ⟨hlast, _⟩ := prefetch_sameSeq.of_run hf
    rw [hn, hlast, hstop]
  case neg =>
    rw [decide_eq_false hq, finishRead_false] at hf
    cases hf
    rw [hn, hstop]

end seq
end Blkcache

namespace Block

open AtaDrive (sectorSize)
open Blkcache (Layer Coherent Quiet Backed Fits BlkM readAhead)

variable {s : Layer} {d : AtaDrive} {lba rem : Nat}

def TableFits (d : AtaDrive) (sequential : Prop) (lba rem : Nat) : Prop :=
  if rem = 0 then True
  else
    Fits d sequential lba (min rem 255) ∧
    (d.InRange lba (min rem 255) → TableFits d True (lba + min rem 255) (rem - min rem 255))
termination_by rem

theorem tableFits_two : TableFits d (lba = 2) lba rem ↔ TableFits d False lba rem := by
  rw [TableFits.eq_def d (lba = 2), TableFits.eq_def d False]
  split_ifs
  · rfl
  refine and_congr_left fun _ => ⟨fun h => h.mono False.elim, fun h => ⟨h.own, fun _ hl => ?_⟩⟩
  simp only [hl, Blkcache.readAhead]
  omega

section table

theorem toNat_chunk : (UInt8.ofNat (min rem 255)).toNat = min rem 255 :=
  UInt8.toNat_ofNat_of_lt' (by simp only [UInt8.size]; omega)

theorem chunk_ne_zero (h : rem ≠ 0) : UInt8.ofNat (min rem 255) ≠ 0 := by
  intro hc
  have := congrArg UInt8.toNat hc
  rw [toNat_chunk] at this
  simp only [UInt8.toNat_zero] at this
  omega

theorem room_chunk : (UInt8.ofNat (min rem 255)).toNat * sectorSize ≤ min rem 255 * sectorSize :=
  le_of_eq (by rw [toNat_chunk])

theorem reached_chunk (h : d.Reached lba (min rem 255 + readAhead)) : d.Reached lba (UInt8.ofNat (min rem 255)).toNat := by
  rw [toNat_chunk]
  exact h.mono (Nat.le_refl _) (Nat.add_le_add_left (Nat.le_add_right ..) _)

theorem read_backed (h : Coherent s) (hreach : s.drive.Reached lba (min rem 255 + readAhead))
    (hr : (Blkcache.read lba (.ofNat (min rem 255)) (min rem 255 * sectorSize)).run s = (r, s')) :
    Quiet s s' ∧ ∀ b, r = .ok b → Backed s.drive lba (min rem 255) b := by
  have hread := Blkcache.read_ensures h lba (.ofNat (min rem 255)) (min rem 255 * sectorSize)
  rw [toNat_chunk] at hread
  exact (hread hreach).of_run hr

theorem readTable_ensures (h : Coherent s) (lba rem : Nat) (hreach : s.drive.Reached lba (rem + readAhead)) :
    (readTable lba rem).Ensures s fun r s' => Quiet s s' ∧ ∀ b, r = .ok b → Backed s.drive lba rem b := by
  induction rem using Nat.strongRecOn generalizing s lba with | ind rem hi
  rw [readTable]
  split_ifs with h0
  · subst h0
    exact ⟨.refl h, fun b hb => Except.ok.inj hb ▸ .nil⟩
  have hchunk : s.drive.Reached lba (min rem 255 + readAhead) := hreach.mono (le_refl _) (by omega)
  refine .bind (Q := fun r s' => (Blkcache.read lba (.ofNat (min rem 255)) (min rem 255 * sectorSize)).run s = (r, s'))
    rfl (fun b s1 hr => ?_) fun e s1 hr => ⟨(read_backed h hchunk hr).1, nofun⟩
  have ⟨hq1, hb⟩ := read_backed h hchunk hr
  refine .lift_bind (fun next hn => ?_) fun _ _ => ⟨hq1, nofun⟩
  cases (checked_eq_ok.mp hn).1
  have hnext := hi (rem - min rem 255) (by omega) hq1.coherent (lba + min rem 255)
    (hq1.drive ▸ hreach.mono (by omega) (by omega))
  refine .bind hnext ?_ fun _ _ hq => ⟨hq1.trans hq.1, nofun⟩
  intro rest s2 ⟨hq2, hrest⟩
  refine ⟨hq1.trans hq2, fun b' hb' => ?_⟩
  have hl : min rem 255 + (rem - min rem 255) = rem := by omega
  exact Except.ok.inj hb' ▸ hl ▸ (hb b rfl).append (hq1.drive ▸ hrest rest rfl)

theorem not_panics_readTable (h : Coherent s) (hreach : s.drive.Reached lba (rem + readAhead)) (hs : s.Continues lba → q)
    (hf : TableFits s.drive q lba rem) : ¬(readTable lba rem).Panics s := by
  induction rem using Nat.strongRecOn generalizing s lba q with | ind rem hi
  rw [readTable]
  rw [TableFits] at hf
  split_ifs at hf ⊢ with h0
  · exact not_panics_pure
  have hfits := hf.1.mono hs
  rw [← toNat_chunk] at hfits
  have hchunk : s.drive.Reached lba (min rem 255 + readAhead) := hreach.mono (le_refl _) (by omega)
  have hread := Blkcache.not_panics_read h (reached_chunk hchunk) (chunk_ne_zero h0) room_chunk hfits
  refine not_panics_bind hread fun b s1 hr => ?_
  have ⟨hq, hb⟩ := read_backed h hchunk hr
  have hin := ((hb b rfl).direct.resolve_left (by omega)).inRange
  rw [checked_of_lt hin.1, panics_bind_of_run (lift_run _)]
  refine not_panics_bind ?_ fun _ _ _ => not_panics_pure
  exact hi (rem - min rem 255) (by omega) hq.coherent (hq.drive ▸ hreach.mono (by omega) (by omega)) (fun _ => trivial)
    (hq.drive ▸ hf.2 hin)

variable (hc : s.Calm)

include hc

theorem read_chunk_calm (h : Coherent s) (hreach : s.drive.Reached lba (min rem 255 + readAhead)) (h0 : rem ≠ 0)
    (hlba : lba < 2 ^ 64)
    (hr : s.drive.InRange lba (min rem 255) ∨ ¬Fits s.drive (s.Continues lba) lba (min rem 255)) :
    (Blkcache.read lba (.ofNat (min rem 255)) (min rem 255 * sectorSize)).Decides s
      (¬Fits s.drive (s.Continues lba) lba (min rem 255)) fun _ s' =>
        ∃ c, s' = { s with cache := ⟨c, lba + min rem 255, true⟩ } ∧ Coherent s' := by
  have hread := Blkcache.read_calm hc h (reached_chunk hreach) (chunk_ne_zero h0) room_chunk hlba
  rw [toNat_chunk] at hread
  refine ⟨(hread hr).panics, fun hf => ?_⟩
  obtain ⟨b, s', hrun, c, hs⟩ := (hread hr).value hf
  exact ⟨b, s', hrun, c, hs, (read_backed h hreach hrun).1.coherent⟩

theorem readTable_calm (h : Coherent s) (hreach : s.drive.Reached lba (rem + readAhead)) (hlba : lba < 2 ^ 64)
    (hin : rem = 0 ∨ s.drive.InRange lba rem ∨ ¬TableFits s.drive (s.Continues lba) lba rem) :
    (readTable lba rem).Decides s (¬TableFits s.drive (s.Continues lba) lba rem) fun _ s' => ∃ c, s' = { s with cache := c } := by
  induction rem using Nat.strongRecOn generalizing s lba with | ind rem hi
  rw [readTable]
  rw [TableFits] at hin ⊢
  split_ifs at hin ⊢ with h0
  · exact .of_run (not_not.mpr trivial) rfl ⟨s.cache, rfl⟩
  have hin := hin.resolve_left h0
  have hchunk : s.drive.InRange lba (min rem 255) ∨ ¬Fits s.drive (s.Continues lba) lba (min rem 255) := by
    by_cases hr : s.drive.InRange lba (min rem 255)
    · exact .inl hr
    · refine .inr fun hf => hin.elim (fun hall => hr (hall.mono (by omega) (by omega))) fun hn => ?_
      exact hn ⟨hf, fun hr' => absurd hr' hr⟩
  refine .bind (read_chunk_calm hc h (hreach.mono (le_refl _) (by omega)) h0 hlba hchunk) (fun hf hn => hf hn.1) fun hf b s1 ⟨c, hs1, h1⟩ => ?_
  have hr := hchunk.resolve_right hf
  subst hs1
  refine .lift_bind .checked (fun hbig => absurd hr.1 (by omega)) (by omega) fun hlt => ?_
  have hcont : Layer.Continues { s with cache := ⟨c, lba + min rem 255, true⟩ } (lba + min rem 255) := ⟨rfl, rfl⟩
  have hrest : rem - min rem 255 = 0 ∨ s.drive.InRange (lba + min rem 255) (rem - min rem 255) ∨
      ¬TableFits s.drive True (lba + min rem 255) (rem - min rem 255) := by
    by_cases hz : rem - min rem 255 = 0
    · exact .inl hz
    · exact .inr (hin.imp (fun hall => hall.mono (by omega) (by omega)) fun hn ht => hn ⟨not_not.mp hf, fun _ => ht⟩)
  have hnext := hi (rem - min rem 255) (by omega) (s := { s with cache := ⟨c, lba + min rem 255, true⟩ }) hc h1
    (hreach.mono (by omega) (by omega)) hlt
  simp only [hcont] at hnext
  refine .bind (hnext hrest) (fun hn ht => hn (ht.2 hr)) fun ht _ _ hs => .of_run ?_ rfl hs
  exact not_not.mpr ⟨not_not.mp hf, fun _ => not_not.mp ht⟩

end table

structure Partition.Bounded (p : Partition) : Prop where
  stop : p.startLba + p.sectors < 2 ^ 64
  bytes : p.sectors * 512 < 2 ^ 64

-- What is asked of the addresses in an entry in use.
structure EntryFits (e : Bytes) : Prop where
  ordered : e.slice 0 16 ≠ .replicate 16 0 → e.u64At 32 ≤ e.u64At 40 →
    e.u64At 40 + 1 < 2 ^ 64 ∧ (e.u64At 40 - e.u64At 32 + 1) * 512 < 2 ^ 64
  reversed : e.slice 0 16 ≠ .replicate 16 0 → e.u64At 40 < e.u64At 32 → e.u64At 32 + 1 < 2 ^ 64

theorem entryFits_iff : EntryFits e ↔ ∀ p, gptEntry e = some p → p.Bounded := by
  have hlast := e.u64At_lt 40
  have hfirst := e.u64At_lt 32
  unfold gptEntry
  split_ifs with hz
  case pos => exact ⟨nofun, fun _ => ⟨fun hn => absurd hz hn, fun hn => absurd hz hn⟩⟩
  case neg =>
    simp only [Option.some.injEq, forall_eq']
    constructor
    · intro hf
      by_cases hle : e.u64At 32 ≤ e.u64At 40
      · have := hf.ordered hz hle
        constructor <;> simp only <;> omega
      · have := hf.reversed hz (not_le.mp hle)
        constructor <;> simp only <;> omega
    · intro ⟨hstop, hbytes⟩
      simp only at hstop hbytes
      constructor
      · intro _ hle
        omega
      · intro _ hlt
        omega

theorem scanMbr_bounded (h : p ∈ scanMbr b) : p.Bounded := by
  have ⟨i, _, hp⟩ := List.mem_filterMap.mp h
  simp only [mbrEntry] at hp
  split_ifs at hp
  cases hp
  have h1 := (b.slice (446 + i * 16) 16).u32At_lt 8
  have h2 := (b.slice (446 + i * 16) 16).u32At_lt 12
  constructor <;> simp only <;> omega

section disk

def sector0 (d : AtaDrive) : Bytes := d.content 0 sectorSize
def header (d : AtaDrive) : Bytes := d.content sectorSize sectorSize

def entryLba (d : AtaDrive) : Nat := (header d).u64At 72
def entryCount (d : AtaDrive) : Nat := (header d).u32At 80
def entrySize (d : AtaDrive) : Nat := (header d).u32At 84
def tableSectors (d : AtaDrive) : Nat := wantSectors (entrySize d) (entryCount d)

def diskEntry (d : AtaDrive) (i : Nat) : Bytes := d.content (entryLba d * sectorSize + i * entrySize d) (entrySize d)

-- The entry lies in the sectors of the array that are read, all of which the drive has.
structure EntryRead (d : AtaDrive) (i : Nat) : Prop where
  count : i < entryCount d
  within : i * entrySize d + entrySize d ≤ tableSectors d * sectorSize
  inRange : d.InRange (entryLba d) (tableSectors d)

-- A disk with a GPT header that the scan follows.
structure Followed (d : AtaDrive) : Prop where
  inRange : d.InRange 1 1
  signature : (sector0 d).getD 510 0 = 0x55 ∧ (sector0 d).getD 511 0 = 0xAA
  protective : (sector0 d).getD (446 + 4) 0 = 0xEE
  magic : (header d).slice 0 8 = efiPart
  geometry : validateGptGeometry (entrySize d) (entryCount d) = .ok ()

def TableReached (d : AtaDrive) : Prop := Followed d → d.Reached (entryLba d) (tableSectors d + readAhead)

def Decoded (d : AtaDrive) (p : Partition) : Prop :=
  p ∈ scanMbr (sector0 d) ∨ Followed d ∧ ∃ i, EntryRead d i ∧ gptEntry (diskEntry d i) = some p

end disk

theorem geometry_eq_ok (h : validateGptGeometry size count = .ok u) : gptEntryMin ≤ size := by
  unfold validateGptGeometry at h
  split_ifs at h with h1
  exact not_lt.mp h1

theorem mem_takeWhile_range (hP : ∀ {i j}, i ≤ j → P j = true → P i = true) :
    i ∈ (List.range n).takeWhile P ↔ i < n ∧ P i = true := by
  constructor
  · intro hi
    exact ⟨List.mem_range.mp ((List.takeWhile_prefix P).subset hi), List.mem_takeWhile_imp hi⟩
  · intro ⟨hn, hi⟩
    have hsplit : List.range n = List.range (i + 1) ++ (List.range (n - (i + 1))).map (i + 1 + ·) := by
      rw [← List.range_add]
      congr 1
      omega
    have hall : ∀ j ∈ List.range (i + 1), P j = true := fun j hj => hP (Nat.le_of_lt_succ (List.mem_range.mp hj)) hi
    rw [hsplit, List.takeWhile_append_of_pos hall]
    exact List.mem_append_left _ List.self_mem_range_succ

theorem mem_gptEntries (hs : gptEntryMin ≤ entrySize d) (hb : Backed d (entryLba d) (tableSectors d) table) :
    p ∈ gptEntries table (entrySize d) (entryCount d) ↔ ∃ i, EntryRead d i ∧ gptEntry (diskEntry d i) = some p := by
  have hlen : table.length = tableSectors d * sectorSize := by simp [hb.bytes]
  have hmono {i j : Nat} (hij : i ≤ j) (hj : decide (j * entrySize d + entrySize d ≤ table.length) = true) :
      decide (i * entrySize d + entrySize d ≤ table.length) = true := by
    have := Nat.mul_le_mul_right (entrySize d) hij
    simp only [decide_eq_true_eq] at hj ⊢
    omega
  have hread (i : Nat) : (i < entryCount d ∧ decide (i * entrySize d + entrySize d ≤ table.length) = true) ↔ EntryRead d i := by
    rw [decide_eq_true_eq, hlen]
    refine ⟨fun ⟨h1, h2⟩ => ⟨h1, h2, (hb.direct.resolve_left fun hz => ?_).inRange⟩, fun h => ⟨h.count, h.within⟩⟩
    simp only [hz, gptEntryMin] at h2 hs
    omega
  unfold gptEntries
  rw [List.mem_filterMap]
  refine exists_congr fun i => ?_
  rw [mem_takeWhile_range hmono, hread]
  refine and_congr_right fun hi => ?_
  rw [hb.bytes, AtaDrive.slice_content hi.within]
  rfl

section scan

-- How a scan ends: not in a panic, the drive as it was, and with partitions that are on it.
structure Scanned (d : AtaDrive) (s : Layer) (r : Result AtaError (Layout × List Partition × Text)) (s' : Layer) : Prop where
  quiet : Quiet s s'
  not_panics : ¬Panics r
  decoded : ∀ x, r = .ok x → ∀ p ∈ x.2.1, Decoded d p

theorem Scanned.found (hq : Quiet s s') (hp : ∀ p ∈ ps, Decoded d p) : Scanned d s (.ok (layout, ps, guid)) s' :=
  ⟨hq, not_panics_ok, fun _ hx => Except.ok.inj hx ▸ hp⟩

theorem Scanned.nothing (hq : Quiet s s') : Scanned d s (.ok (layout, [], guid)) s' :=
  .found hq nofun

theorem one_sector : (1 : UInt8).toNat * sectorSize ≤ sectorSize := by decide

variable (h : Coherent s)

include h

theorem readSector0 (hr : (Blkcache.readSectorsRaw 0 1 sectorSize).run s = (r, s')) :
    Quiet s s' ∧ ∀ a, r = .ok a → a = sector0 s.drive := by
  have ⟨hq, hb⟩ := (Blkcache.readSectorsRaw_ensures h _ _ _).of_run hr
  refine ⟨hq, fun a ha => ?_⟩
  simpa [sector0] using (Backed.of_raw (.of_low (by decide)) (by decide) (hb a ha)).bytes

theorem readVerify_ensures : readVerify.Ensures s fun r s' =>
    Quiet s s' ∧ ¬Panics r ∧ ∀ a, r = .ok (some a) → a = sector0 s.drive := by
  have hraw {s : Layer} : ¬(Blkcache.readSectorsRaw 0 1 sectorSize).Panics s :=
    Blkcache.not_panics_readSectorsRaw (by decide) (le_refl _)
  refine .attempt_bind_of_not_panics hraw (fun a s1 hr1 => ?_) fun e s1 hr1 => ?_
  case refine_2 => exact ⟨(readSector0 h hr1).1, not_panics_ok, nofun⟩
  have ⟨hq1, ha⟩ := readSector0 h hr1
  refine .attempt_bind_of_not_panics hraw (fun b s2 hr2 => ?_) fun e s2 hr2 => ?_
  all_goals have ⟨hq2, _⟩ := readSector0 hq1.coherent hr2
  · refine ⟨hq1.trans hq2, not_panics_ok, fun a' ha' => ?_⟩
    have ha' : (if a = b then some a else none) = some a' := Except.ok.inj ha'
    split_ifs at ha'
    cases ha'
    exact ha a rfl
  · exact ⟨hq1.trans hq2, not_panics_ok, nofun⟩

theorem followHeader_ensures (hd : s.drive = d) (hs : s.Continues (entryLba d) → entryLba d = 2)
    (hd' : (header d).slice 0 8 = efiPart → validateGptGeometry (entrySize d) (entryCount d) = .ok () → Followed d)
    (hf : Followed d → TableFits d False (entryLba d) (tableSectors d)) (hreach : TableReached d) :
    (followHeader (sector0 d) (header d)).Ensures s (Scanned d s) := by
  subst hd
  have hquiet : Quiet s s := .refl h
  rw [followHeader]
  split_ifs with hm
  · exact .nothing hquiet
  split
  case h_1 => exact .nothing hquiet
  case h_2 hg =>
    have hd' := hd' (Classical.not_not.mp hm) hg
    refine .attempt_bind_of_not_panics (not_panics_readTable h (hreach hd') hs (tableFits_two.mpr (hf hd')))
      (fun table s1 hr => ?_) fun e s1 hr => ?_
    all_goals have ⟨hq, hb⟩ := (readTable_ensures h _ _ (hreach hd')).of_run hr
    · refine .found hq fun p hp => ?_
      cases List.mem_append.mp hp with
      | inl hp => exact .inr ⟨hd', (mem_gptEntries (geometry_eq_ok hg) (hb table rfl)).mp hp⟩
      | inr hp => exact .inl hp
    · exact .nothing hq

theorem scan_ensures (hd : s.drive = d) (hsig : (sector0 d).getD 510 0 = 0x55 ∧ (sector0 d).getD 511 0 = 0xAA)
    (hf : Followed d → TableFits d False (entryLba d) (tableSectors d)) (hreach : TableReached d) :
    (scan (sector0 d)).Ensures s (Scanned d s) := by
  rw [scan]
  split_ifs with hee
  case neg => exact .found (.refl h) fun p hp => .inl hp
  have hfits : Fits s.drive (s.Continues 1) 1 (1 : UInt8).toNat := ⟨by decide, fun _ _ => by decide⟩
  have hp := Blkcache.not_panics_read h (.of_low (by decide)) (by decide) one_sector hfits
  refine .attempt_bind_of_not_panics hp (fun hdr s1 hr1 => ?_) fun e s1 hr1 => ?_
  all_goals have ⟨hq1, hb⟩ := (Blkcache.read_ensures h _ _ _ (.of_low (by decide))).of_run hr1
  case refine_2 => exact .nothing hq1
  have hhdr : hdr = header d := by simpa [header, hd] using (hb hdr rfl).bytes
  have hin := ((hb hdr rfl).direct.resolve_left (by decide)).inRange
  have hcont : s1.Continues (entryLba d) → entryLba d = 2 := Blkcache.continues_of_read (by decide) one_sector hr1
  rw [hhdr]
  refine (followHeader_ensures hq1.coherent (hq1.drive.trans hd) hcont (fun hm hg => ?_) hf hreach).mono fun r s' hs => ?_
  · exact ⟨hd ▸ hin, hsig, hee, hm, hg⟩
  · exact ⟨hq1.trans hs.quiet, hs.not_panics, hs.decoded⟩

end scan

section init

theorem report_eq (ps : List Partition) : report ps = if ∀ p ∈ ps, p.startLba + p.sectors < 2 ^ 64 then .ok () else abort := by
  induction ps with
  | nil => simp [report]
  | cons p ps hi =>
    rw [report, hi, checked]
    by_cases hp : p.startLba + p.sectors < 2 ^ 64
    · simp only [List.forall_mem_cons, hp, true_and]
      rfl
    have hall : ¬∀ p' ∈ p :: ps, p'.startLba + p'.sectors < 2 ^ 64 := fun h => hp (h p (.head _))
    rw [if_neg hp, if_neg hall]
    rfl

theorem not_panics_selectPartition (h : ∀ p ∈ ps, p.Bounded) : ¬Panics (Vfs.selectPartition ps) := by
  induction ps with
  | nil => exact not_panics_ok
  | cons p ps hi =>
    have hi := hi fun q hq => h q (.tail _ hq)
    rw [Vfs.selectPartition, checked_of_lt (h p (.head _)).bytes, ok_bind]
    split_ifs
    · exact not_panics_ok
    · exact hi
    · exact hi

theorem writeVerify_ensures (h : Coherent s) : writeVerify.Ensures s fun r _ => ∃ ok, r = .ok ok := by
  have hraw (s : Layer) (lba : Nat) : ¬(Blkcache.readSectorsRaw lba 1 sectorSize).Panics s :=
    Blkcache.not_panics_readSectorsRaw (by decide) (le_refl _)
  refine .read_bind (fun total _ => ?_) nofun
  split_ifs
  · exact ⟨_, rfl⟩
  refine .attempt_bind_of_not_panics (hraw _ _) (fun before s1 hr1 => ?_) fun _ _ _ => ⟨_, rfl⟩
  have ⟨_, hb⟩ := (Blkcache.readSectorsRaw_ensures h _ _ _).of_run hr1
  have hlen : 1 * sectorSize ≤ before.length := (Blkcache.length_raw (hb before rfl)).ge
  refine .attempt_bind_of_not_panics (Blkcache.not_panics_writeSectorsRaw (by decide) hlen) (fun _ s2 _ => ?_) fun _ _ _ => ⟨_, rfl⟩
  exact .attempt_bind_of_not_panics (hraw _ _) (fun _ _ _ => ⟨_, rfl⟩) fun _ _ _ => ⟨_, rfl⟩

def ScanSafe (d : AtaDrive) : Prop :=
  ∀ faults, init.Ensures ⟨.new, d, faults⟩ fun r _ =>
    ¬Panics r ∧ ∀ disk, r = .ok (some disk) →
      ¬Panics (Vfs.selectPartition disk.partitions) ∧ ∀ p ∈ disk.partitions, p.Bounded ∧ Decoded d p

structure Plausible (d : AtaDrive) : Prop where
  table : TableFits d False (entryLba d) (tableSectors d)
  entries : ∀ i, EntryRead d i → EntryFits (diskEntry d i)

theorem Decoded.bounded (hp : Followed d → Plausible d) (h : Decoded d p) : p.Bounded := by
  cases h with
  | inl h => exact scanMbr_bounded h
  | inr h =>
    have ⟨hd, i, hi, he⟩ := h
    exact entryFits_iff.mp ((hp hd).entries i hi) p he

theorem init_ensures (h : Coherent s) (hd : s.drive = d) (hreach : TableReached d) (hp : Followed d → Plausible d) :
    init.Ensures s fun r _ => ¬Panics r ∧ ∀ disk, r = .ok (some disk) → ∀ p ∈ disk.partitions, p.Bounded ∧ Decoded d p := by
  refine .bind (readVerify_ensures h) (fun found s1 ⟨hq1, _, ha⟩ => ?_) fun e s1 ⟨_, he, _⟩ => ⟨panics_error.not.mpr (panics_error.not.mp he), nofun⟩
  cases found with
  | none => exact ⟨not_panics_ok, nofun⟩
  | some a =>
    have ha : a = sector0 d := hd ▸ ha a rfl
    rw [ha]
    simp only
    split_ifs with hsig
    · exact ⟨not_panics_ok, nofun⟩
    have hsig : (sector0 d).getD 510 0 = 0x55 ∧ (sector0 d).getD 511 0 = 0xAA := by simpa using hsig
    refine .bind (scan_ensures hq1.coherent (hq1.drive.trans hd) hsig (fun hd => (hp hd).table) hreach) (fun x s2 hs => ?_)
      fun e _ hs => ⟨panics_error.not.mpr (panics_error.not.mp hs.not_panics), nofun⟩
    have hx : ∀ p ∈ x.2.1, p.Bounded ∧ Decoded d p := fun p hmem =>
      have hdec := hs.decoded x rfl p hmem
      ⟨hdec.bounded hp, hdec⟩
    have hreport : report x.2.1 = .ok () := by rw [report_eq, if_pos fun p hmem => (hx p hmem).1.stop]
    refine .bind (Q := fun r s' => r = .ok () ∧ s' = s2) ⟨hreport, rfl⟩ (fun _ s3 ⟨_, hs3⟩ => ?_) nofun
    refine .bind (hs3 ▸ writeVerify_ensures hs.quiet.coherent) (fun _ _ _ => ?_) nofun
    exact ⟨not_panics_ok, fun disk hdisk => by cases hdisk; exact hx⟩

def atBoot (d : AtaDrive) : Layer := ⟨.new, d, fun _ => none⟩

def withHeader (d : AtaDrive) (c : Blkcache.Entries) : Layer := ⟨⟨c, 2, true⟩, d, fun _ => none⟩

theorem ScanSafe.not_panics (hs : ScanSafe d) : ¬init.Panics (atBoot d) :=
  (hs fun _ => none).1

theorem readVerify_calm (hd : Followed d) : readVerify.run (atBoot d) = (.ok (some (sector0 d)), atBoot d) := by
  have hc : (atBoot d).Calm := rfl
  have hraw : (Blkcache.readSectorsRaw 0 1 sectorSize).run (atBoot d) = (.ok (sector0 d), atBoot d) :=
    Blkcache.readSectorsRaw_calm hc (by decide) (le_refl _) (hd.inRange.mono (by decide) (by decide))
  rw [readVerify, bind_run_ok (attempt_run_ok hraw)]
  simp only
  rw [bind_run_ok (attempt_run_ok hraw)]
  simp

theorem scan_calm (hd : Followed d) : ∃ c, Coherent (withHeader d c) ∧
    (scan (sector0 d)).run (atBoot d) = (followHeader (sector0 d) (header d)).run (withHeader d c) := by
  have h : Coherent (atBoot d) := Blkcache.coherent_new d fun _ => none
  have hc : (atBoot d).Calm := rfl
  have hfits : Fits d ((atBoot d).Continues 1) 1 (1 : UInt8).toNat := ⟨by decide, fun _ _ => by decide⟩
  obtain ⟨hdr, _, hr, c, rfl⟩ :=
    (Blkcache.read_calm hc h (.of_low (by decide)) (by decide) one_sector (by decide) (.inl hd.inRange)).value
      (not_not.mpr hfits)
  have ⟨hq, hb⟩ := (Blkcache.read_ensures h _ _ _ (.of_low (by decide))).of_run hr
  have hhdr : hdr = header d := by
    simpa [header, atBoot] using (hb hdr rfl).bytes
  have hr : (Blkcache.read 1 1 sectorSize).run (atBoot d) = (.ok (header d), withHeader d c) := hhdr ▸ hr
  refine ⟨c, hq.coherent, ?_⟩
  rw [scan, if_pos hd.protective, scanGpt, bind_run_ok (attempt_run_ok hr)]

theorem init_calm (hd : Followed d) : ∃ c, Coherent (withHeader d c) ∧
    init.run (atBoot d) = (followHeader (sector0 d) (header d) >>= finish).run (withHeader d c) := by
  have ⟨c, h, hscan⟩ := scan_calm hd
  have hsig : ¬((sector0 d).getD 510 0 ≠ 0x55 ∨ (sector0 d).getD 511 0 ≠ 0xAA) := by simpa using hd.signature
  refine ⟨c, h, ?_⟩
  rw [init, bind_run_ok (readVerify_calm hd)]
  dsimp only
  rw [if_neg hsig, bind_run_congr hscan]

theorem followHeader_of_followed (hd : Followed d) : followHeader a (header d) = (do
    match ← (readTable (entryLba d) (tableSectors d)).attempt with
    | none => return (.gpt, [], [])
    | some table =>
      return (.gpt, gptEntries table (entrySize d) (entryCount d) ++ scanMbr a, fmtGuid ((header d).slice 56 16))) := by
  rw [followHeader, if_neg (Classical.not_not.mpr hd.magic)]
  have hg := hd.geometry
  simp only [entrySize, entryCount] at hg
  rw [hg]
  rfl

theorem tableFits_of_safe (hreach : TableReached d) (hd : Followed d) (hp : ¬init.Panics (atBoot d)) :
    TableFits d False (entryLba d) (tableSectors d) := by
  have ⟨c, h, hinit⟩ := init_calm hd
  have hcont : (withHeader d c).Continues (entryLba d) ↔ entryLba d = 2 := by simp [withHeader, Layer.Continues]
  rw [Prog.Panics, hinit, followHeader_of_followed hd] at hp
  by_contra hf
  rw [← tableFits_two, ← propext hcont] at hf
  have hpanic := (readTable_calm (s := withHeader d c) rfl h (hreach hd) ((header d).u64At_lt 72) (.inr (.inr hf))).panics hf
  exact hp (Prog.panics_bind.mpr (.inl (Prog.panics_bind.mpr (.inl (Prog.panics_attempt.mpr hpanic)))))

theorem init_table (hreach : TableReached d) (hd : Followed d) (hf : TableFits d False (entryLba d) (tableSectors d))
    (hin : d.InRange (entryLba d) (tableSectors d)) : ∃ table s', Backed d (entryLba d) (tableSectors d) table ∧ Coherent s' ∧
    init.run (atBoot d) = (finish (.gpt, gptEntries table (entrySize d) (entryCount d) ++ scanMbr (sector0 d),
      fmtGuid ((header d).slice 56 16))).run s' := by
  obtain ⟨c, h, hinit⟩ := init_calm hd
  have hcont : (withHeader d c).Continues (entryLba d) ↔ entryLba d = 2 := by simp [withHeader, Layer.Continues]
  rw [← tableFits_two, ← propext hcont] at hf
  obtain ⟨table, _, hr, c', rfl⟩ :=
    (readTable_calm (s := withHeader d c) rfl h (hreach hd) ((header d).u64At_lt 72) (.inr (.inl hin))).value (not_not.mpr hf)
  obtain ⟨hq, hb⟩ := (readTable_ensures h _ _ (hreach hd)).of_run hr
  refine ⟨table, { withHeader d c with cache := c' }, hb table rfl, hq.coherent, ?_⟩
  rw [hinit, followHeader_of_followed hd, bind_run_ok (bind_run_ok (attempt_run_ok hr))]

theorem finish_run (h : Coherent s) (hr : report ps = .ok ()) (layout : Layout) (guid : Text) :
    ∃ s', (finish (layout, ps, guid)).run s = (.ok (some ⟨layout, ps, guid⟩), s') := by
  have ⟨ok, hok⟩ := writeVerify_ensures h
  exact ⟨(writeVerify.run s).2, by rw [finish, hr, lift_ok_bind_run, bind_run_ok (Prod.ext hok rfl)]; rfl⟩

theorem finish_panics (hr : report ps ≠ .ok ()) : (finish (layout, ps, guid)).Panics s := by
  rw [report_eq] at hr
  split_ifs at hr with hb
  · exact absurd rfl hr
  refine panics_lift_bind.mpr (.inl ?_)
  rw [report_eq, if_neg hb]
  exact panics_abort

theorem entries_of_safe (hreach : TableReached d) (hd : Followed d) (hs : ScanSafe d) (hi : EntryRead d i) : EntryFits (diskEntry d i) := by
  have hp := hs.not_panics
  obtain ⟨_, hdisk⟩ := hs fun _ => none
  obtain ⟨table, s', hb, h, hinit⟩ := init_table hreach hd (tableFits_of_safe hreach hd hp) hi.inRange
  by_cases hr : report (gptEntries table (entrySize d) (entryCount d) ++ scanMbr (sector0 d)) = .ok ()
  case neg =>
    rw [Prog.Panics, hinit] at hp
    exact absurd (finish_panics hr) hp
  case pos =>
    obtain ⟨s'', hrun⟩ := finish_run h hr .gpt (fmtGuid ((header d).slice 56 16))
    have hbounded := (hdisk _ (congrArg Prod.fst (hinit.trans hrun))).2
    refine entryFits_iff.mpr fun p he => (hbounded p (List.mem_append_left _ ?_)).1
    exact (mem_gptEntries (geometry_eq_ok hd.geometry) hb).mpr ⟨i, hi, he⟩

end init

-- A table of one entry, in sector 2, for the sectors from 1 on.
def gptDrive (last : Bytes) : AtaDrive where
  totalSectors := 3
  lba48 := false
  bytes x :=
    let fields := [(450, 0xEE), (510, 0x55), (511, 0xAA), (512, 0x45), (513, 0x46), (514, 0x49), (515, 0x20), (516, 0x50),
      (517, 0x41), (518, 0x52), (519, 0x54), (584, 2), (592, 1), (596, 128), (1024, 1), (1056, 1)]
    if 1064 ≤ x ∧ x < 1072 then last.getD (x - 1064) 0 else (fields.lookup x).getD 0

-- The entry ends at the last address there is.
def fullDrive : AtaDrive := gptDrive (.replicate 8 0xFF)

section gptDrive

variable {last : Bytes} (h : last ∈ [List.replicate 8 0xFF, [2]])

include h

theorem gptDrive_followed : Followed (gptDrive last) where
  inRange := ⟨by decide, (by decide : 1 < 3), .inl (by decide)⟩
  signature := by revert last; decide +kernel
  protective := by revert last; decide +kernel
  magic := by revert last; decide +kernel
  geometry := by
    have hs : entrySize (gptDrive last) = 128 ∧ entryCount (gptDrive last) = 1 := by revert last; decide +kernel
    rw [hs.1, hs.2]
    rfl

theorem gptDrive_table : entryLba (gptDrive last) = 2 ∧ tableSectors (gptDrive last) = 1 := by
  revert last
  decide +kernel

theorem gptDrive_entry : EntryRead (gptDrive last) 0 where
  count := by revert last; decide +kernel
  within := by revert last; decide +kernel
  inRange := by
    rw [(gptDrive_table h).1, (gptDrive_table h).2]
    exact ⟨by decide, (by decide : 2 < 3), .inl (by decide)⟩

theorem gptDrive_fits : TableFits (gptDrive last) False (entryLba (gptDrive last)) (tableSectors (gptDrive last)) := by
  rw [(gptDrive_table h).1, (gptDrive_table h).2, TableFits, if_neg (by decide)]
  refine ⟨⟨by decide, fun _ => False.elim⟩, fun _ => ?_⟩
  rw [TableFits, if_pos (by decide)]
  trivial

end gptDrive

end Block
