import Onyx.Block.Cache

-- The cache is transparent as long as the writes succeed and no sector beyond 28 bits is asked for.

open Lib Bytes

namespace AtaDrive

theorem content_append (d : AtaDrive) (a m n : Nat) : d.content a (m + n) = d.content a m ++ d.content (a + m) n := by
  simp [content, List.range_add, Function.comp_def, add_assoc]

theorem store_nil (d : AtaDrive) (a : Nat) : d.store a [] = d := by
  have h (x : Nat) : ¬ (a ≤ x ∧ x < a) := by omega
  simp [store, h]

end AtaDrive

namespace Blkcache

open AtaDrive (sectorSize reach lba28Max reach_of_low)

variable {s s' : Layer} {c : Entries} {d : AtaDrive} {lba run k n m : Nat} {b b' v : Bytes}

structure Backed (d : AtaDrive) (lba n : Nat) (b : Bytes) : Prop where
  bytes : b = d.content (lba * sectorSize) (n * sectorSize)
  direct : n = 0 ∨ d.Direct lba n

namespace Backed

theorem nil : Backed d lba 0 [] :=
  ⟨by simp [AtaDrive.content], .inl rfl⟩

theorem of_raw (hr : d.Reached lba n) (hn : n ≠ 0) (h : d.readSectorsRaw lba n = .ok b) : Backed d lba n b := by
  rw [AtaDrive.readSectorsRaw] at h
  split_ifs at h with hin
  have hd := hr.direct hn hin
  rw [reach_of_low hd.low] at h
  exact ⟨(Except.ok.inj h).symm, .inr hd⟩

theorem append (h₁ : Backed d lba m b) (h2 : Backed d (lba + m) n b') : Backed d lba (m + n) (b ++ b') where
  bytes := by rw [h₁.bytes, h2.bytes, add_mul, add_mul, AtaDrive.content_append]
  direct := by
    cases h2.direct with
    | inl h => simpa [h] using h₁.direct
    | inr h =>
      by_cases h0 : m + n = 0
      · exact .inl h0
      · exact .inr (h.mono (by omega) (by omega))

theorem raw (h : Backed d lba n b) (hn : n ≠ 0) : d.readSectorsRaw lba n = .ok b := by
  have hd := h.direct.resolve_left hn
  rw [AtaDrive.readSectorsRaw, if_pos hd.inRange, reach_of_low hd.low, h.bytes]

theorem sector (h : Backed d lba n b) (hk : k < n) : Backed d (lba + k) 1 (sector b k) := by
  have hle : k * sectorSize + sectorSize ≤ n * sectorSize := by
    rw [← Nat.succ_mul]
    exact Nat.mul_le_mul_right _ hk
  refine ⟨?_, .inr ((h.direct.resolve_left (by omega)).mono (by omega) (by decide))⟩
  rw [h.bytes, Blkcache.sector, AtaDrive.slice_content hle, add_mul, one_mul]

end Backed

section insertAll

theorem insertAll_zero : insertAll c lba b 0 = c :=
  rfl

theorem insertAll_succ : insertAll c lba b (run + 1) = (insertAll c lba b run).insert (lba + run) (sector b run) := by
  simp [insertAll, List.range_succ]

theorem unique_insertAll (hu : c.Unique) : (insertAll c lba b run).Unique := by
  induction run with
  | zero => exact hu
  | succ run hi => rw [insertAll_succ]; exact Clock.unique_insert hi _ _

theorem holds_insertAll (hu : c.Unique) (h : (insertAll c lba b run).Holds k v) :
    (∃ j < run, k = lba + j ∧ v = sector b j) ∨ ¬ (lba ≤ k ∧ k < lba + run) ∧ c.Holds k v := by
  induction run with
  | zero => exact .inr ⟨by omega, h⟩
  | succ run hi =>
    rw [insertAll_succ] at h
    cases Clock.holds_of_holds_insert (unique_insertAll hu) h with
    | inl h => exact .inl ⟨run, Nat.lt_succ_self _, h⟩
    | inr h =>
      cases hi h.2 with
      | inl hj =>
        have ⟨j, hlt, hj⟩ := hj
        exact .inl ⟨j, Nat.lt_succ_of_lt hlt, hj⟩
      | inr hj => exact .inr ⟨by omega, hj.2⟩

end insertAll

theorem entries_withEntries : (s.withEntries c).cache.entries = c :=
  rfl

theorem drive_withEntries : (s.withEntries c).drive = s.drive :=
  rfl

theorem faults_withEntries : (s.withEntries c).faults = s.faults :=
  rfl

-- Every valid entry is what the drive holds at its address, and no address has two.
structure Coherent (s : Layer) : Prop where
  unique : s.cache.entries.Unique
  device : ∀ {k v}, s.cache.entries.Holds k v → s.drive.readSectorsRaw k 1 = .ok v

-- Only sectors that their addresses reach are cached.
def Layer.Low (s : Layer) : Prop := ∀ {k v}, s.cache.entries.Holds k v → k ≤ lba28Max

theorem coherent_new (d : AtaDrive) (faults : Nat → Option (Nat × AtaError)) : Coherent ⟨.new, d, faults⟩ where
  unique := fun i _ hi => by simp [Cache.new] at hi
  device := fun ⟨i, hi, _⟩ => by simp [Cache.new] at hi

theorem low_new (d : AtaDrive) (faults : Nat → Option (Nat × AtaError)) : Layer.Low ⟨.new, d, faults⟩ :=
  fun ⟨i, hi, _⟩ => by simp [Cache.new] at hi

-- What a read leaves behind, whether it succeeds or not.
structure Quiet (s s' : Layer) : Prop where
  coherent : Coherent s'
  drive : s'.drive = s.drive
  low : s.Low → s'.Low

namespace Quiet

theorem congr (h : Coherent s) (he : s'.cache.entries = s.cache.entries) (hd : s'.drive = s.drive) : Quiet s s' where
  coherent := ⟨he ▸ h.unique, fun hk => hd ▸ h.device (he ▸ hk)⟩
  drive := hd
  low := fun hl {_ _} hk => hl (he ▸ hk)

theorem refl (h : Coherent s) : Quiet s s := .congr h rfl rfl

theorem trans (h₁ : Quiet s s1) (h2 : Quiet s1 s') : Quiet s s' :=
  ⟨h2.coherent, h2.drive.trans h₁.drive, fun hl => h2.low (h₁.low hl)⟩

theorem alike (h : Coherent s) (ha : s.cache.entries.Alike c) : Quiet s (s.withEntries c) :=
  ⟨⟨ha.unique h.unique, fun hk => h.device (ha.holds.mp hk)⟩, rfl, fun hl {_ _} hk => hl (ha.holds.mp hk)⟩

theorem insertAll (h : Coherent s) (hb : Backed s.drive lba run b) :
    Quiet s (s.withEntries (insertAll s.cache.entries lba b run)) where
  coherent := by
    refine ⟨unique_insertAll h.unique, fun hk => ?_⟩
    rcases holds_insertAll h.unique hk with ⟨j, hlt, rfl, rfl⟩ | ⟨_, hk⟩
    · exact (hb.sector hlt).raw (by decide)
    · exact h.device hk
  drive := rfl
  low := by
    intro hl k v hk
    rcases holds_insertAll h.unique hk with ⟨j, hlt, rfl, rfl⟩ | ⟨_, hk⟩
    · exact ((hb.sector hlt).direct.resolve_left (by decide)).low
    · exact hl hk

end Quiet

theorem inRange_of_raw (h : d.readSectorsRaw lba n = .ok b) : d.InRange lba n := by
  rw [AtaDrive.readSectorsRaw] at h
  split_ifs at h with hr
  exact hr

theorem length_raw (h : d.readSectorsRaw lba n = .ok b) : b.length = n * sectorSize := by
  rw [AtaDrive.readSectorsRaw] at h
  split_ifs at h
  rw [← Except.ok.inj h, AtaDrive.length_content]

theorem inRange_eq_ok : s.inRange lba n = .ok u → s.drive.InRange lba n := by
  intro h
  rw [Layer.inRange] at h
  split_ifs at h with hr
  · exact hr
  · cases h

theorem readSectorsRaw_ensures (h : Coherent s) (lba n room : Nat) : (readSectorsRaw lba n room).Ensures s fun r s' =>
      Quiet s s' ∧ ∀ b, r = .ok b → s.drive.readSectorsRaw lba n = .ok b := by
  unfold readSectorsRaw
  split_ifs
  · exact ⟨.refl h, nofun⟩
  refine .read_bind (fun _ hr => ?_) fun _ _ => ⟨.refl h, nofun⟩
  refine .bind (Q := fun _ s' => Quiet s s') (.congr h rfl rfl) ?_ fun _ _ hq => ⟨hq, nofun⟩
  intro fault s' hq
  cases fault with
  | none =>
    refine ⟨hq, fun b hb => ?_⟩
    rw [AtaDrive.readSectorsRaw, if_pos (inRange_eq_ok hr), ← hq.drive]
    exact congrArg Except.ok (Except.ok.inj hb)
  | some e => exact ⟨hq, nofun⟩

theorem find_run_none (h : s.cache.entries.find lba = none) : (find lba).run s = (.ok none, s) := by
  simp only [find, h]

theorem find_run_some (h : s.cache.entries.find lba = some (v, c)) :
    (find lba).run s = (.ok (some v), s.withEntries c) := by
  simp only [find, h]

theorem find_ensures (h : Coherent s) (lba : Nat) : (find lba).Ensures s fun r s' =>
      Quiet s s' ∧ ∃ found, r = .ok found ∧ ∀ data ∈ found, s.drive.readSectorsRaw lba 1 = .ok data := by
  unfold Prog.Ensures
  cases hf : s.cache.entries.find lba with
  | none =>
    rw [find_run_none hf]
    exact ⟨.refl h, _, rfl, nofun⟩
  | some q =>
    have ⟨hk, ha⟩ := Clock.find_eq_some hf
    rw [find_run_some hf]
    exact ⟨.alike h ha, _, rfl, fun _ hd => Option.some.inj hd ▸ h.device hk⟩

theorem misses_le (c : Entries) (lba rem : Nat) : misses c lba rem ≤ rem := by
  induction rem generalizing lba with
  | zero => exact le_refl _
  | succ rem hi =>
    rw [misses]
    split_ifs
    · exact Nat.zero_le _
    · exact Nat.succ_le_succ (hi _)

theorem coalesce_le (h : coalesce s lba rem = .ok more) (h0 : rem ≠ 0) : more + 1 ≤ rem := by
  have hm := misses_le s.cache.entries (lba + 1) (rem - 1)
  have ⟨_, _, he⟩ := Result.bind_eq_ok.mp h
  have := Except.ok.inj he
  omega

theorem readLoop_ensures (h : Coherent s) (lba rem : Nat) (hr : s.drive.Reached lba rem) :
    (readLoop lba rem).Ensures s fun r s' => Quiet s s' ∧ ∀ b, r = .ok b → Backed s.drive lba rem b := by
  induction rem using Nat.strongRecOn generalizing s lba with | ind rem hi
  rw [readLoop]
  split_ifs with h0
  · subst h0
    exact ⟨.refl h, fun b hb => Except.ok.inj hb ▸ .nil⟩
  refine .lift_bind (fun _ _ => ?_) fun _ _ => ⟨.refl h, nofun⟩
  refine .bind (find_ensures h lba) ?_ fun _ _ hq => ⟨hq.1, nofun⟩
  intro found s1 ⟨hq1, found', hf, hdata⟩
  cases hf
  cases found with
  | some data =>
    have hb1 := Backed.of_raw (hr.mono (le_refl _) (by omega)) (by decide) (hdata data rfl)
    have hnext := hi (rem - 1) (by omega) hq1.coherent (lba + 1) (hq1.drive ▸ hr.mono (by omega) (by omega))
    refine .bind hnext ?_ fun _ _ hq => ⟨hq1.trans hq.1, nofun⟩
    intro rest s2 ⟨hq2, hrest⟩
    refine ⟨hq1.trans hq2, fun b hb => ?_⟩
    have hb2 := hq1.drive ▸ hrest rest rfl
    have hl : 1 + (rem - 1) = rem := by omega
    exact Except.ok.inj hb ▸ hl ▸ hb1.append hb2
  | none =>
    refine .read_bind (fun more hmore => ?_) fun _ _ => ⟨hq1, nofun⟩
    have hle := coalesce_le hmore h0
    refine .bind (readSectorsRaw_ensures hq1.coherent lba (more + 1) _) ?_ fun _ _ hq => ⟨hq1.trans hq.1, nofun⟩
    intro b s2 ⟨hq2, hraw⟩
    have hd2 := hq2.drive.trans hq1.drive
    have hb1 : Backed s.drive lba (more + 1) b :=
      .of_raw (hr.mono (le_refl _) (by omega)) (by omega) (hq1.drive ▸ hraw b rfl)
    have hq3 := (hq1.trans hq2).trans (.insertAll hq2.coherent (hd2 ▸ hb1))
    refine .modify_bind ?_
    have hnext := hi (rem - (more + 1)) (by omega) hq3.coherent (lba + (more + 1))
      (hq3.drive ▸ hr.mono (by omega) (by omega))
    refine .bind hnext ?_ fun _ _ hq => ⟨hq3.trans hq.1, nofun⟩
    intro rest s4 ⟨hq4, hrest⟩
    refine ⟨hq3.trans hq4, fun b' hb' => ?_⟩
    have hb2 := hq3.drive ▸ hrest rest rfl
    have hl : more + 1 + (rem - (more + 1)) = rem := by omega
    exact Except.ok.inj hb' ▸ hl ▸ hb1.append hb2

theorem prefetchRun_ensures (h : Coherent s) (lba run : Nat) (h0 : run ≠ 0) (hr : s.drive.Reached lba run) :
    (prefetchRun lba run).Ensures s fun _ s' => Quiet s s' := by
  refine .attempt_bind (readSectorsRaw_ensures h lba run _) ?_ (fun _ _ hq => hq.1) fun _ hq => hq.1
  intro b s' ⟨hq, hb⟩
  exact hq.trans (.insertAll hq.coherent (hq.drive ▸ .of_raw hr h0 (hb b rfl)))

theorem prefetch_ensures (h : Coherent s) (lba rem : Nat) (hr : s.drive.Reached lba rem) :
    (prefetch lba rem).Ensures s fun _ s' => Quiet s s' := by
  induction rem using Nat.strongRecOn generalizing s lba with | ind rem hi
  rw [prefetch]
  split_ifs with h0
  · exact .refl h
  refine .lift_bind (fun _ _ => ?_) fun _ _ => .refl h
  refine .read_bind (fun cached _ => ?_) fun _ _ => .refl h
  split_ifs
  · exact hi (rem - 1) (by omega) h _ (hr.mono (by omega) (by omega))
  refine .read_bind (fun more hm => ?_) fun _ _ => .refl h
  have hle := coalesce_le hm h0
  refine .bind (prefetchRun_ensures h lba (more + 1) (by omega) (hr.mono (le_refl _) (by omega))) ?_ fun _ _ hq => hq
  intro _ s1 hq1
  have hnext := hi (rem - (more + 1)) (by omega) hq1.coherent (lba + (more + 1))
    (hq1.drive ▸ hr.mono (by omega) (by omega))
  exact hnext.mono fun _ _ hq => hq1.trans hq

theorem finishRead_ensures (h : Coherent s) (sequential : Bool) (stop : Nat) (hr : s.drive.Reached stop readAhead) :
    (finishRead sequential stop).Ensures s fun _ s' => Quiet s s' := by
  refine .modify_bind ?_
  have hq : Quiet s { s with cache := { s.cache with lastSeqEnd := stop, seqValid := true } } := .congr h rfl rfl
  split_ifs
  · exact (prefetch_ensures hq.coherent stop readAhead hr).mono fun _ _ => hq.trans
  · exact hq

theorem read_ensures (h : Coherent s) (lba : Nat) (count : UInt8) (room : Nat)
    (hr : s.drive.Reached lba (count.toNat + readAhead)) :
    (read lba count room).Ensures s fun r s' => Quiet s s' ∧ ∀ b, r = .ok b → Backed s.drive lba count.toNat b := by
  unfold read
  split_ifs with h0
  · -- The assertions of the raw read fail.
    have h0' : count.toNat = 0 ∨ room < count.toNat * sectorSize := h0.imp_left fun hc => by rw [hc]; rfl
    rw [readSectorsRaw, if_pos h0']
    exact ⟨.refl h, nofun⟩
  refine .read_bind (fun sequential _ => ?_) fun _ _ => ⟨.refl h, nofun⟩
  refine .bind (readLoop_ensures h lba count.toNat (hr.mono (le_refl _) (by omega))) ?_ fun _ _ hq => ⟨hq.1, nofun⟩
  intro b s1 ⟨hq1, hb⟩
  refine .lift_bind (fun stop hs => ?_) fun _ _ => ⟨hq1, nofun⟩
  have hstop := (checked_eq_ok.mp hs).1
  have hahead : s1.drive.Reached stop readAhead := hq1.drive ▸ hstop ▸ hr.mono (by omega) (by omega)
  refine .bind (finishRead_ensures hq1.coherent sequential stop hahead) ?_ fun _ _ hq => ⟨hq1.trans hq, nofun⟩
  intro _ s2 hq2
  exact ⟨hq1.trans hq2, fun b' hb' => Except.ok.inj hb' ▸ hb b rfl⟩

theorem Coherent.read (h : Coherent s) (hr : s.drive.Reached lba (count.toNat + readAhead))
    (hrun : (Blkcache.read lba count room).run s = (.ok b, s')) : s.drive.readSectorsRaw lba count.toNat = .ok b := by
  have hb := ((read_ensures h lba count room hr).of_run hrun).2 b rfl
  refine hb.raw fun h0 => ?_
  rw [Blkcache.read, if_pos (.inl (UInt8.toNat_inj.mp h0)), readSectorsRaw, if_pos (.inl h0)] at hrun
  cases hrun

section persist

variable {buf : Bytes} {p j : Nat}

theorem sector_take (hj : j < m) : sector (buf.take (m * sectorSize)) j = sector buf j := by
  have hle : j * sectorSize + sectorSize ≤ m * sectorSize := by
    rw [← Nat.succ_mul]
    exact Nat.mul_le_mul_right _ hj
  refine slice_congr fun i _ hi => ?_
  rw [List.getElem?_take_of_lt (by omega)]

theorem inRange_persist : (s.persist p b).drive.InRange lba n ↔ s.drive.InRange lba n :=
  Iff.rfl

theorem raw_persist_of_mem (hr : s.drive.InRange k 1) (hl : m * sectorSize ≤ buf.length) (hj : j < m)
    (hk : reach k 1 = p + j) :
    (s.persist p (buf.take (m * sectorSize))).drive.readSectorsRaw k 1 = .ok (sector buf j) := by
  have hle : j * sectorSize + sectorSize ≤ m * sectorSize := by
    rw [← Nat.succ_mul]
    exact Nat.mul_le_mul_right _ hj
  have hlen : (buf.take (m * sectorSize)).length = m * sectorSize := by simp; omega
  have hself : (s.drive.store (p * sectorSize) (buf.take (m * sectorSize))).content (p * sectorSize)
      (buf.take (m * sectorSize)).length = _ := AtaDrive.content_store_self
  rw [hlen] at hself
  have hread : (s.persist p (buf.take (m * sectorSize))).drive.content ((p + j) * sectorSize) sectorSize = sector buf j := by
    rw [add_mul, ← AtaDrive.slice_content hle, ← sector_take hj]
    exact congrArg (slice · _ _) hself
  rw [AtaDrive.readSectorsRaw, if_pos (inRange_persist.mpr hr), hk, one_mul, hread]

theorem raw_persist_of_not_mem (hk : ¬(p ≤ reach k 1 ∧ reach k 1 < p + m)) :
    (s.persist p (buf.take (m * sectorSize))).drive.readSectorsRaw k 1 = s.drive.readSectorsRaw k 1 := by
  have hlen : (buf.take (m * sectorSize)).length ≤ m * sectorSize := by simp
  unfold AtaDrive.readSectorsRaw
  generalize reach k 1 = q at hk ⊢
  have h : (s.persist p (buf.take (m * sectorSize))).drive.content (q * sectorSize) (1 * sectorSize) =
      s.drive.content (q * sectorSize) (1 * sectorSize) := by
    apply AtaDrive.content_store_of_disjoint
    by_cases hlt : p ≤ q
    · have : (p + m) * sectorSize ≤ q * sectorSize := Nat.mul_le_mul_right _ (by omega)
      rw [add_mul] at this
      omega
    · have : (q + 1) * sectorSize ≤ p * sectorSize := Nat.mul_le_mul_right _ (by omega)
      rw [add_mul] at this
      omega
  rw [h]
  rfl

def Layer.tick (s : Layer) : Layer := { s with faults := fun i => s.faults (i + 1) }

theorem writeSectorsRaw_run (h0 : n ≠ 0) (hl : n * sectorSize ≤ buf.length) (hr : s.drive.InRange lba n) :
    (writeSectorsRaw lba n buf).run s = match s.faults 0 with
      | none => (.ok (), s.tick.persist (reach lba n) (buf.take (n * sectorSize)))
      | some (k, e) => (fail e, s.tick.persist (reach lba n) (buf.take (min k n * sectorSize))) := by
  have hin : s.inRange lba n = .ok () := if_pos hr
  have hnext : nextFault.run s = (.ok (s.faults 0), s.tick) := rfl
  rw [writeSectorsRaw, if_neg (by omega), read_bind_run, hin, lift_ok_bind_run, bind_run_ok hnext]
  cases s.faults 0 <;> rfl

theorem writeSectorsRaw_cases (h : (writeSectorsRaw lba n buf).run s = (r, s')) (hp : r ≠ abort) :
    (¬ s.drive.InRange lba n ∧ r = fail .outOfRange ∧ s' = s) ∨
      n ≠ 0 ∧ n * sectorSize ≤ buf.length ∧ s.drive.InRange lba n := by
  by_cases h0 : n = 0 ∨ buf.length < n * sectorSize
  · rw [writeSectorsRaw, if_pos h0] at h
    exact absurd (Prod.mk.inj h).1.symm hp
  by_cases hr : s.drive.InRange lba n
  · exact .inr ⟨by omega, by omega, hr⟩
  have hin : s.inRange lba n = fail .outOfRange := if_neg hr
  rw [writeSectorsRaw, if_neg h0, read_bind_run, hin] at h
  exact .inl ⟨hr, (Prod.mk.inj h).1.symm, (Prod.mk.inj h).2.symm⟩

end persist

section write

variable {count : UInt8} {buf : Bytes}

def Layer.written (s : Layer) (lba : Nat) (buf : Bytes) (n : Nat) : Layer :=
  { s.tick.persist (reach lba n) (buf.take (n * sectorSize)) with
    cache := { s.cache with entries := insertAll s.cache.entries lba buf n, seqValid := false } }

theorem entries_written : (s.written lba buf n).cache.entries = insertAll s.cache.entries lba buf n :=
  rfl

theorem drive_written :
    (s.written lba buf n).drive = (s.persist (reach lba n) (buf.take (n * sectorSize))).drive :=
  rfl

theorem write_run (h0 : count.toNat ≠ 0) (hl : count.toNat * sectorSize ≤ buf.length)
    (hr : s.drive.InRange lba count.toNat) (hf : s.faults 0 = none) :
    (write lba count buf).run s = (.ok (), s.written lba buf count.toNat) := by
  have h := writeSectorsRaw_run h0 hl hr
  rw [hf] at h
  rw [write, bind_run_ok h]
  rfl

theorem write_eq_ok (h : (write lba count buf).run s = (.ok u, s')) :
    count.toNat ≠ 0 ∧ count.toNat * sectorSize ≤ buf.length ∧ s.drive.InRange lba count.toNat ∧
      s' = s.written lba buf count.toNat := by
  obtain ⟨_, s1, h₁, h2⟩ := bind_eq_ok.mp h
  cases writeSectorsRaw_cases h₁ (by simp [abort]) with
  | inl hc => exact absurd hc.2.1 (by simp [fail])
  | inr hc =>
    obtain ⟨h0, hl, hr⟩ := hc
    have hrun := writeSectorsRaw_run h0 hl hr
    cases hf : s.faults 0 with
    | some q =>
      rw [hf, h₁] at hrun
      exact absurd (Prod.mk.inj hrun).1 (by simp [fail])
    | none =>
      rw [write_run h0 hl hr hf] at h
      exact ⟨h0, hl, hr, (Prod.mk.inj h).2.symm⟩

theorem low_written (h : Coherent s) (hlow : s.Low) (hd : s.drive.Direct lba n) : (s.written lba buf n).Low := by
  intro k v hk
  rcases holds_insertAll h.unique hk with ⟨j, hlt, rfl, rfl⟩ | ⟨_, hk⟩
  · have := hd.low
    omega
  · exact hlow hk

-- Among the sectors that their addresses reach, a write changes those that it names.
theorem Coherent.written (h : Coherent s) (hlow : s.Low) (hl : n * sectorSize ≤ buf.length) (hd : s.drive.Direct lba n) :
    Coherent (s.written lba buf n) := by
  refine ⟨unique_insertAll h.unique, fun {k v} hk => ?_⟩
  have hk0 : k ≤ lba28Max := low_written h hlow hd hk
  have hreach : reach k 1 = k := reach_of_low (by omega)
  rw [drive_written, reach_of_low hd.low]
  rcases holds_insertAll h.unique hk with ⟨j, hlt, rfl, rfl⟩ | ⟨hout, hk⟩
  · exact raw_persist_of_mem (hd.inRange.mono (by omega) (by decide)) hl hlt hreach
  · rw [raw_persist_of_not_mem (by rwa [hreach])]
    exact h.device hk

theorem flush_quiet : Coherent (flush.run s).2 ∧ (flush.run s).2.Low :=
  ⟨⟨Clock.unique_clear, fun hk => absurd hk Clock.holds_clear⟩, fun hk => absurd hk Clock.holds_clear⟩

end write

inductive Call
  | read (lba : Nat) (count : UInt8) (room : Nat)
  | write (lba : Nat) (count : UInt8) (buf : Bytes)
  | flush

-- A call that does not panic; writes succeed.
def Step (s : Layer) (c : Call) (s' : Layer) : Prop :=
  match c with
  | .read lba count room => ∃ r, (read lba count room).run s = (r, s') ∧ r ≠ abort
  | .write lba count buf => (write lba count buf).run s = (.ok (), s')
  | .flush => flush.run s = (.ok (), s')

def Call.Reached (d : AtaDrive) : Call → Prop
  | .read lba count _ => d.Reached lba (count.toNat + readAhead)
  | .write lba count _ => d.Reached lba count.toNat
  | .flush => True

-- The same calls on the drive alone.
def uncached (d : AtaDrive) : Call → AtaDrive
  | .write lba count buf =>
    match d.writeSectorsRaw lba count.toNat buf with
    | .ok d' => d'
    | .error _ => d
  | _ => d

theorem uncached_eq (d : AtaDrive) (c : Call) : ∃ bytes, uncached d c = { d with bytes } := by
  cases c with
  | write lba count buf =>
    rw [uncached, AtaDrive.writeSectorsRaw]
    split_ifs
    · exact ⟨_, rfl⟩
    · exact ⟨d.bytes, rfl⟩
  | read => exact ⟨d.bytes, rfl⟩
  | flush => exact ⟨d.bytes, rfl⟩

theorem Call.reached_uncached {c c' : Call} : c.Reached (uncached d c') ↔ c.Reached d := by
  have ⟨bytes, hb⟩ := uncached_eq d c'
  rw [hb]
  cases c <;> exact Iff.rfl

theorem Coherent.step {c : Call} (h : Coherent s) (hl : s.Low) (hc : c.Reached s.drive) (hs : Step s c s') :
    (Coherent s' ∧ s'.Low) ∧ s'.drive = uncached s.drive c := by
  cases c with
  | read lba count room =>
    have ⟨r, hr, _⟩ := hs
    have hq := ((read_ensures h lba count room hc).of_run hr).1
    exact ⟨⟨hq.coherent, hq.low hl⟩, hq.drive⟩
  | write lba count buf =>
    have ⟨h0, hlen, hr, he⟩ := write_eq_ok hs
    have hd := AtaDrive.Reached.direct hc h0 hr
    refine he ▸ ⟨⟨h.written hl hlen hd, low_written h hl hd⟩, ?_⟩
    rw [uncached, AtaDrive.writeSectorsRaw, if_pos hr]
    rfl
  | flush =>
    have he : (flush.run s).2 = s' := congrArg Prod.snd hs
    exact he ▸ ⟨flush_quiet, rfl⟩

theorem Coherent.execution (h : Coherent s) (hl : s.Low) (hc : ∀ c ∈ calls, c.Reached s.drive)
    (e : Execution Step s calls s') : Coherent s' ∧ s'.drive = calls.foldl uncached s.drive := by
  induction e with
  | refl => exact ⟨h, rfl⟩
  | step hs _ hi =>
    have ⟨⟨h₁, hl1⟩, hd⟩ := h.step hl (hc _ (.head _)) hs
    rw [List.foldl_cons, ← hd]
    exact hi h₁ hl1 fun c hmem => hd ▸ Call.reached_uncached.mpr (hc c (.tail _ hmem))

theorem transparent {d : AtaDrive} (hc : ∀ c ∈ calls, c.Reached d) (e : Execution Step ⟨.new, d, faults⟩ calls s) :
    s.drive = calls.foldl uncached d ∧
      (∀ {lba count room b s'}, s.drive.Reached lba (count.toNat + readAhead) →
        (read lba count room).run s = (.ok b, s') → s.drive.readSectorsRaw lba count.toNat = .ok b) ∧
      s.cache.entries.Unique ∧
      (∀ {lba data}, s.cache.entries.Holds lba data → s.drive.readSectorsRaw lba 1 = .ok data) ∧
      ∀ lba data, s.cache.entries.insertWithin (cacheEntries + 1) lba data =
        some (s.cache.entries.insert lba data) := by
  have ⟨h, hd⟩ := (coherent_new d faults).execution (low_new d faults) hc e
  exact ⟨hd, fun hr hrun => h.read hr hrun, h.unique, h.device, fun lba data => Clock.insertWithin_succ _ _ _⟩

def twoSectors : AtaDrive := { totalSectors := 2, lba48 := false, bytes := fun _ => 0 }

theorem holds_insertAll_one (hu : c.Unique) (h : b.length = sectorSize) : (insertAll c lba b 1).Holds lba b := by
  have hb : sector b 0 = b := by rw [sector, zero_mul, slice_zero h]
  have hk := Clock.holds_insert_self hu lba b
  rwa [insertAll_succ, hb]

theorem write_one (h : Coherent s) (hr : s.drive.InRange lba 1) (hf : s.faults 0 = none) (hl : b.length = sectorSize) :
    ∃ s', (write lba 1 b).run s = (.ok (), s') ∧ s'.cache.entries.Holds lba b := by
  have hle : (1 : UInt8).toNat * sectorSize ≤ b.length := by
    rw [hl]
    decide
  refine ⟨_, write_run (by decide) hle hr hf, ?_⟩
  have h1 : (1 : UInt8).toNat = 1 := rfl
  rw [entries_written, h1]
  exact holds_insertAll_one h.unique hl

theorem transparent_after_write :
    ∃ s, Execution Step ⟨.new, twoSectors, fun _ => none⟩ [.write 0 1 (List.replicate sectorSize 1)] s ∧
      s.drive.readSectorsRaw 0 1 = .ok (List.replicate sectorSize 1) := by
  have ⟨s, hw, hk⟩ := write_one (b := List.replicate sectorSize 1) (coherent_new twoSectors fun _ => none)
    (show twoSectors.InRange 0 1 by decide) rfl List.length_replicate
  have e : Execution Step _ [.write 0 1 (List.replicate sectorSize 1)] s := .step hw .refl
  have hc : Call.Reached twoSectors (.write 0 1 (List.replicate sectorSize 1)) := nofun
  exact ⟨s, e, (transparent (List.forall_mem_singleton.mpr hc) e).2.2.2.1 hk⟩

def wideDrive : AtaDrive := { totalSectors := 2 ^ 32, lba48 := true, bytes := fun _ => 0 }

-- Two addresses of one sector: the second write leaves the entry of the first as it is.
theorem write_aliased (hu : s.cache.entries.Unique) (hf : s.faults = fun _ => none) (hr : s.drive.InRange lba 1)
    (hr' : s.drive.InRange lba' 1) (hne : lba ≠ lba') (hreach : reach lba 1 = reach lba' 1)
    (hroom : (insertAll s.cache.entries lba b 1).HasRoom)
    (hb : b.length = sectorSize) (hb' : b'.length = sectorSize) :
    ∃ s', Execution Step s [.write lba 1 b, .write lba' 1 b'] s' ∧ s'.cache.entries.Holds lba b ∧
      s'.drive.readSectorsRaw lba 1 = .ok b' := by
  have hlen {b : Bytes} (hb : b.length = sectorSize) : 1 * sectorSize ≤ b.length := by rw [hb, one_mul]
  have hw1 : (write lba 1 b).run s = (.ok (), s.written lba b 1) := write_run (by decide) (hlen hb) hr (congrFun hf 0)
  have hin {k : Nat} (hr : s.drive.InRange k 1) : (s.written lba b 1).drive.InRange k 1 := by
    rw [drive_written]
    exact inRange_persist.mpr hr
  have hw2 : (write lba' 1 b').run (s.written lba b 1) = (.ok (), (s.written lba b 1).written lba' b' 1) :=
    write_run (by decide) (hlen hb') (hin hr') (congrFun hf 1)
  refine ⟨_, .step hw1 (.step hw2 .refl), ?_, ?_⟩
  · rw [entries_written, insertAll_succ, insertAll_zero, add_zero, entries_written]
    exact hroom.holds_insert hne (holds_insertAll_one hu hb)
  · have hone : sector b' 0 = b' := by rw [sector, zero_mul, slice_zero hb']
    rw [drive_written, raw_persist_of_mem (hin hr) (hlen hb') one_pos (hreach.trans (add_zero _).symm), hone]

theorem hasRoom_new : (insertAll Cache.new.entries lba b 1).HasRoom := by
  rw [insertAll_succ, insertAll_zero]
  exact Clock.hasRoom_insert (fun i => by simp [Cache.new]) (by decide)

-- Both addresses reach sector 0: the cache shows zeros where the drive has ones.
theorem stale_beyond_28_bits : ∃ s, Execution Step ⟨.new, wideDrive, fun _ => none⟩
      [.write 0x10000000 1 (List.replicate sectorSize 0), .write 0x11000000 1 (List.replicate sectorSize 1)] s ∧
    s.cache.entries.Holds 0x10000000 (List.replicate sectorSize 0) ∧
    s.drive.readSectorsRaw 0x10000000 1 = .ok (List.replicate sectorSize 1) :=
  write_aliased (coherent_new ..).unique rfl (show wideDrive.InRange _ _ by decide) (show wideDrive.InRange _ _ by decide)
    (by decide) (by decide) hasRoom_new List.length_replicate List.length_replicate

section failed

variable {count : UInt8} {buf : Bytes}

-- The number of sectors the drive takes from a write before the transfer ends.
def Layer.taken (s : Layer) (lba n : Nat) : Nat :=
  if s.drive.InRange lba n then
    match s.faults 0 with
    | some (k, _) => min k n
    | none => n
  else 0

theorem write_eq_error (h : (write lba count buf).run s = (.error (.err e), s')) :
    s'.cache = s.cache ∧ s.taken lba count.toNat * sectorSize ≤ buf.length ∧
      s'.drive = (s.persist (reach lba count.toNat) (buf.take (s.taken lba count.toNat * sectorSize))).drive := by
  obtain ⟨r, s1, h₁⟩ : ∃ r s1, (writeSectorsRaw lba count.toNat buf).run s = (r, s1) := ⟨_, _, rfl⟩
  obtain ⟨hr, hs⟩ : r = .error (.err e) ∧ s1 = s' := by
    cases r with
    | ok u =>
      rw [write, bind_run_ok h₁] at h
      exact absurd (Prod.mk.inj h).1 (by simp)
    | error e' =>
      rw [write, bind_run_error h₁] at h
      exact ⟨congrArg _ (Except.error.inj (Prod.mk.inj h).1), (Prod.mk.inj h).2⟩
  subst hs
  cases writeSectorsRaw_cases h₁ (by simp [hr, abort]) with
  | inl hc =>
    obtain ⟨hin, _, hs⟩ := hc
    subst hs
    have ht : s1.taken lba count.toNat = 0 := if_neg hin
    rw [ht]
    refine ⟨rfl, by omega, ?_⟩
    rw [zero_mul, List.take_zero, Layer.persist, AtaDrive.store_nil]
  | inr hc =>
    obtain ⟨h0, hl, hin⟩ := hc
    have hrun := writeSectorsRaw_run h0 hl hin
    rw [h₁] at hrun
    cases hf : s.faults 0 with
    | none =>
      rw [hf] at hrun
      exact absurd (hr.symm.trans (Prod.mk.inj hrun).1) (by simp)
    | some q =>
      have ht : s.taken lba count.toNat = min q.1 count.toNat := by
        rw [Layer.taken, if_pos hin, hf]
      rw [hf] at hrun
      have hle : min q.1 count.toNat * sectorSize ≤ count.toNat * sectorSize :=
        Nat.mul_le_mul_right _ (Nat.min_le_right ..)
      rw [ht, (Prod.mk.inj hrun).2]
      exact ⟨rfl, by omega, rfl⟩

-- Valid entries are what the drive holds, and reads return what is on it.
structure Honest (s : Layer) : Prop where
  device : ∀ {k v}, s.cache.entries.Holds k v → s.drive.readSectorsRaw k 1 = .ok v
  reads : ∀ {lba count room b s'}, s.drive.Reached lba (count.toNat + readAhead) →
    (read lba count room).run s = (.ok b, s') → s.drive.readSectorsRaw lba count.toNat = .ok b

theorem Coherent.honest (h : Coherent s) : Honest s :=
  ⟨h.device, fun hr hrun => h.read hr hrun⟩

theorem write_run_error (h0 : count.toNat ≠ 0) (hl : count.toNat * sectorSize ≤ buf.length)
    (hr : s.drive.InRange lba count.toNat) (hf : s.faults 0 = some (k, e)) :
    ∃ s', (write lba count buf).run s = (.error (.err e), s') := by
  have h := writeSectorsRaw_run h0 hl hr
  rw [hf] at h
  exact ⟨_, bind_run_error h⟩

theorem Honest.eq_sector (h : Honest s') (hw : (write lba count buf).run s = (.error (.err e), s'))
    (hj : j < s.taken lba count.toNat) (hv : s.cache.entries.Holds k v) (hk : reach k 1 = reach lba count.toNat + j) :
    v = sector buf j := by
  have ⟨hc, hl, hd⟩ := write_eq_error hw
  have hv' := h.device (hc ▸ hv)
  rw [hd] at hv'
  rw [raw_persist_of_mem (inRange_persist.mp (inRange_of_raw hv')) hl hj hk] at hv'
  exact (Except.ok.inj hv').symm

theorem honest_after_failed_write (h : Coherent s) (hw : (write lba count buf).run s = (.error (.err e), s')) :
    Honest s' ↔ ∀ k v, s.cache.entries.Holds k v → ∀ j < s.taken lba count.toNat,
      reach k 1 = reach lba count.toNat + j → v = sector buf j := by
  have ⟨hc, hl, hd⟩ := write_eq_error hw
  constructor
  · exact fun hh k v hv j hj hk => hh.eq_sector hw hj hv hk
  · intro hcond
    refine Coherent.honest ⟨hc ▸ h.unique, fun {k v} hk => ?_⟩
    rw [hc] at hk
    have hdev := h.device hk
    rw [hd]
    by_cases hm : reach lba count.toNat ≤ reach k 1 ∧ reach k 1 < reach lba count.toNat + s.taken lba count.toNat
    · have hj : reach k 1 = reach lba count.toNat + (reach k 1 - reach lba count.toNat) := by omega
      rw [raw_persist_of_mem (inRange_of_raw hdev) hl (by omega) hj, hcond k v hk _ (by omega) hj]
    · rw [raw_persist_of_not_mem hm, hdev]

def twoOnes : Bytes := List.replicate (2 * sectorSize) 1

theorem length_twoOnes : (2 : UInt8).toNat * sectorSize ≤ twoOnes.length := by
  rw [twoOnes, List.length_replicate]
  decide

theorem honest_with_empty_cache : ∃ s', (write 0 2 twoOnes).run ⟨.new, twoSectors, fun _ => some (1, .timeout)⟩ =
        (.error (.err .timeout), s') ∧ Honest s' := by
  have h := coherent_new twoSectors fun _ => some (1, .timeout)
  have ⟨s', hw⟩ := write_run_error (s := ⟨.new, twoSectors, fun _ => some (1, .timeout)⟩) (by decide)
    length_twoOnes (show twoSectors.InRange 0 2 by decide) rfl
  refine ⟨s', hw, (honest_after_failed_write h hw).mpr fun k v ⟨i, hi, _⟩ => ?_⟩
  simp [Cache.new] at hi

theorem Coherent.cached (h : Coherent s) (hb : Backed s.drive lba 1 b) :
    ∃ s', Coherent s' ∧ s'.drive = s.drive ∧ s'.faults = s.faults ∧ s'.cache.entries.Holds lba b := by
  refine ⟨_, (Quiet.insertAll h hb).coherent, drive_withEntries, faults_withEntries, ?_⟩
  rw [entries_withEntries]
  exact holds_insertAll_one h.unique (by rw [hb.bytes, AtaDrive.length_content, one_mul])

-- The first sector is written when the transfer fails, but the cache goes on showing zeros.
theorem stale_after_failed_write :
    ∃ s s', Coherent s ∧ (write 0 2 twoOnes).run s = (.error (.err .timeout), s') ∧ ¬ Honest s' := by
  have hb : Backed twoSectors 0 1 (List.replicate sectorSize 0) :=
    ⟨by simp [AtaDrive.content, twoSectors], .inr ⟨by decide, by decide⟩⟩
  obtain ⟨s, h, hd, hf, hk⟩ := (coherent_new twoSectors fun _ => some (1, .timeout)).cached hb
  have hr : s.drive.InRange 0 (2 : UInt8).toNat := by
    rw [hd]
    decide
  have ht : s.taken 0 (2 : UInt8).toNat = 1 := by
    rw [Layer.taken, if_pos hr, hf]
    rfl
  obtain ⟨s', hw⟩ := write_run_error (by decide) length_twoOnes hr (congrFun hf 0)
  refine ⟨s, s', h, hw, fun hh => ?_⟩
  have hz := hh.eq_sector hw (ht ▸ one_pos) hk rfl
  have hget : (List.replicate sectorSize (0 : UInt8))[0]? = (sector twoOnes 0)[0]? := by rw [hz]
  rw [sector, getElem?_slice, if_pos (by decide), twoOnes, List.getElem?_replicate, List.getElem?_replicate,
    if_pos (by decide), if_pos (by decide)] at hget
  cases hget

end failed

end Blkcache
