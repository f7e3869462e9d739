import Mathlib

-- The latency histograms of the profiler (kernel/src/perf.rs): counters for buckets of durations, and what is read off them.

open List

namespace Histogram

def histBuckets : Nat := 17

-- BUCKET_LO: the lower edges.
def bucketLo : List Nat :=
  [0, 100, 250, 500, 1000, 2000, 5000, 10000, 25000, 50000, 100000, 250000, 500000, 1000000, 2000000, 5000000, 10000000]

structure Hist where
  buckets : List Nat
  count : Nat
  sumNs : Nat

def Hist.new : Hist := { buckets := replicate histBuckets 0, count := 0, sumNs := 0 }

-- The loop of `record`, over the lower edges of the buckets behind bucket `i`.
def slotFrom (ns : Nat) : List Nat → Nat → Nat
  | [], i        => i
  | lo :: los, i => if ns ≥ lo then slotFrom ns los (i + 1) else i

def slot (ns : Nat) : Nat := slotFrom ns bucketLo.tail 0

def fetchAdd (counter n : Nat) : Nat := (counter + n) % 2 ^ 64

-- An index out of range and an overflow of checked arithmetic are `none`.
def Hist.record (h : Hist) (ns : Nat) : Option Hist := do
  let c ← h.buckets[slot ns]?
  return { buckets := h.buckets.set (slot ns) (fetchAdd c 1), count := fetchAdd h.count 1, sumNs := fetchAdd h.sumNs ns }

def hi (i : Nat) : Option Nat :=
  if i + 1 < histBuckets then do return (← bucketLo[i + 1]?) - 1
  else some (2 ^ 64 - 1)

-- The first bucket with which `target` samples are reached.
def reach (target : Nat) : List Nat → Nat → Nat → Option (Option Nat)
  | [], _, _        => some none
  | c :: cs, i, cum =>
    if cum + c ≥ 2 ^ 64 then none
    else if cum + c ≥ target then some (some i)
    else reach target cs (i + 1) (cum + c)

-- The 99th percentile, as a number of samples.
def target (count : Nat) : Nat := max (count - count / 100) 1

def Hist.summary (h : Hist) : Option (Nat × Nat × Nat × Nat × Nat) := do
  if h.count = 0 then return (0, 0, 0, 0, 0)
  let min ← match h.buckets.zipIdx.find? (·.1 > 0) with
    | some (_, i) => bucketLo[i]?
    | none        => bucketLo[histBuckets - 1]?
  let max ← match h.buckets.zipIdx.reverse.find? (·.1 > 0) with
    | some (_, i) => hi i
    | none        => some 0
  let avg := h.sumNs / h.count
  let p99 ← match ← reach (target h.count) h.buckets 0 0 with
    | some i => hi i
    | none   => some max
  return (h.count, min, avg, p99, max)

def recordAll (ns : List Nat) : Option Hist := ns.foldlM Hist.record .new

structure Bounds (ns : List Nat) (min avg p99 max : Nat) : Prop where
  mean : avg = ns.sum / ns.length
  within : ∀ n ∈ ns, min ≤ n ∧ n ≤ max
  ordered : min ≤ avg ∧ avg ≤ max ∧ p99 ≤ max
  most : ns.length - ns.length / 100 ≤ ns.countP (· ≤ p99)

def Summarised (ns : List Nat) : Prop :=
  ∃ h min avg p99 max, recordAll ns = some h ∧ h.summary = some (ns.length, min, avg, p99, max) ∧ Bounds ns min avg p99 max

theorem slotFrom_ge : i ≤ slotFrom n los i := by
  induction los generalizing i with
  | nil => exact le_rfl
  | cons lo los ih =>
    rw [slotFrom]
    split
    · exact (Nat.le_succ i).trans ih
    · exact le_rfl

theorem slotFrom_le_iff (hs : los.Pairwise (· ≤ ·)) : slotFrom n los i ≤ i + k ↔ ∀ lo, los[k]? = some lo → n < lo := by
  induction los generalizing i k with
  | nil => simp [slotFrom]
  | cons lo los ih =>
    rw [pairwise_cons] at hs
    rw [slotFrom]
    split
    case isTrue hge =>
      cases k with
      | zero =>
        have : i + 1 ≤ slotFrom n los (i + 1) := slotFrom_ge
        simp
        omega
      | succ k => simpa [Nat.add_right_comm i 1 k, Nat.add_assoc] using ih (i := i + 1) (k := k) hs.2
    case isFalse hlt =>
      refine iff_of_true (Nat.le_add_right i k) fun lo' h => ?_
      rcases mem_cons.mp (mem_of_getElem? h) with rfl | hm
      · omega
      · have := hs.1 lo' hm
        omega

theorem slot_le_iff : slot n ≤ k ↔ ∀ lo, bucketLo[k + 1]? = some lo → n < lo := by
  have hs : bucketLo.tail.Pairwise (· ≤ ·) := by decide
  simpa [slot] using slotFrom_le_iff (n := n) (i := 0) (k := k) hs

theorem slot_lt : slot n < histBuckets :=
  Nat.lt_succ_of_le (slot_le_iff.mpr (by simp [bucketLo]))

-- The edges of a bucket tell which samples lie in it or below, and in it or above.
theorem hi_spec (k) : ∃ v < 2 ^ 64, hi k = some v ∧ ∀ n < 2 ^ 64, slot n ≤ k ↔ n ≤ v := by
  unfold hi
  split
  case isTrue h =>
    obtain ⟨lo, hlo⟩ : ∃ lo, bucketLo[k + 1]? = some lo := ⟨_, getElem?_eq_getElem h⟩
    have hpos : 0 < lo ∧ lo < 2 ^ 64 :=
      (by decide : ∀ lo ∈ bucketLo.tail, 0 < lo ∧ lo < 2 ^ 64) lo (mem_of_getElem? (by simpa using hlo))
    refine ⟨lo - 1, by omega, by simp [hlo], fun n _ => ?_⟩
    simp only [slot_le_iff, hlo, Option.some.injEq, forall_eq']
    omega
  case isFalse h =>
    refine ⟨_, by omega, rfl, fun n hn => iff_of_true (slot_le_iff.mpr fun lo hlo => ?_) (by omega)⟩
    exact absurd (List.getElem?_eq_some_iff.mp hlo).1 h

theorem lo_spec (hk : k < histBuckets) : ∃ v, bucketLo[k]? = some v ∧ ∀ n, k ≤ slot n → v ≤ n := by
  refine ⟨_, getElem?_eq_getElem hk, fun n hn => ?_⟩
  cases k with
  | zero => exact Nat.zero_le n
  | succ k =>
    by_contra hlt
    have : slot n ≤ k := slot_le_iff.mpr fun lo hlo => by
      rw [getElem?_eq_getElem hk] at hlo
      cases hlo
      omega
    omega

-- What the counters hold after the samples `ns`: everything modulo the width of an atomic.
structure Counts (ns : List Nat) (h : Hist) : Prop where
  buckets : h.buckets = (range histBuckets).map fun i => ns.countP (slot · = i) % 2 ^ 64
  count : h.count = ns.length % 2 ^ 64
  sumNs : h.sumNs = ns.sum % 2 ^ 64

theorem counts_record (h : Counts ns h1) : ∃ h2, h1.record n = some h2 ∧ Counts (ns ++ [n]) h2 := by
  have hget : h1.buckets[slot n]? = some (ns.countP (slot · = slot n) % 2 ^ 64) := by
    simp [h.buckets, slot_lt]
  refine ⟨_, by rw [Hist.record, hget]; rfl, ?_, ?_, ?_⟩
  · refine ext_getElem? fun i => ?_
    by_cases hi : slot n = i
    · subst hi
      simp [h.buckets, fetchAdd, slot_lt]
    · by_cases hb : i < histBuckets <;> simp [h.buckets, hi, hb]
  · simp [h.count, fetchAdd]
  · simp [h.sumNs, fetchAdd]

theorem counts_recordAll (ns) : ∃ h, recordAll ns = some h ∧ Counts ns h := by
  induction ns using reverseRecOn with
  | nil => exact ⟨_, rfl, rfl, rfl, rfl⟩
  | append_singleton ns n ih =>
    obtain ⟨h1, hr, hc⟩ := ih
    obtain ⟨h2, hn, hc2⟩ := counts_record (n := n) hc
    unfold recordAll at hr ⊢
    exact ⟨h2, by simp [foldlM_append, hr, hn], hc2⟩

def filled (ns : List Nat) (i : Nat) : Nat := ns.countP (slot · = i)

theorem filled_pos_iff : 0 < filled ns i ↔ ∃ n ∈ ns, slot n = i := by
  simp [filled, countP_pos_iff]

theorem countP_slot_succ : ns.countP (slot · < i + 1) = ns.countP (slot · < i) + filled ns i := by
  unfold filled
  induction ns with
  | nil => rfl
  | cons n ns ih =>
    simp only [countP_cons, ih, decide_eq_true_eq]
    grind

theorem zipIdx_map_range : ((range m).map f).zipIdx = (range m).map fun i => (f i, i) := by
  refine ext_getElem? fun i => ?_
  by_cases h : i < m <;> simp [h]

-- A search over the buckets in either direction stops at the outermost one with a sample.
theorem find_filled {l : List Nat} {r} (hp : l.Pairwise r) (hl : ∀ i < histBuckets, i ∈ l) (hn : n ∈ ns) :
    ∃ k ∈ l, (l.map fun i => (filled ns i, i)).find? (·.1 > 0) = some (filled ns k, k) ∧
      ∀ n ∈ ns, slot n = k ∨ r k (slot n) := by
  obtain ⟨k, hk⟩ : ∃ k, l.find? (filled ns · > 0) = some k :=
    Option.isSome_iff_exists.mp (find?_isSome.mpr
      ⟨slot n, hl _ slot_lt, decide_eq_true (filled_pos_iff.mpr ⟨n, hn, rfl⟩)⟩)
  refine ⟨k, mem_of_find?_eq_some hk, by rw [find?_map]; exact congrArg _ hk, fun x hx => ?_⟩
  obtain ⟨-, as, bs, rfl, has⟩ := find?_eq_some_iff_append.mp hk
  have hpos := filled_pos_iff.mpr ⟨x, hx, rfl⟩
  have hafter := (pairwise_cons.mp (pairwise_append.mp hp).2.1).1
  rcases mem_append.mp (hl (slot x) slot_lt) with h | h
  · simpa [hpos] using has _ h
  · exact (mem_cons.mp h).imp id (hafter _)

theorem reach_spec (hl : ns.length < 2 ^ 64) (hlo : ns.countP (slot · < i) < t) (hhi : t ≤ ns.countP (slot · < i + m)) :
    ∃ k, reach t ((range' i m).map (filled ns)) i (ns.countP (slot · < i)) = some (some k) ∧
      ns.countP (slot · < k) < t ∧ t ≤ ns.countP (slot · < k + 1) := by
  induction m generalizing i with
  | zero => exact absurd hhi (not_le.mpr hlo)
  | succ m ih =>
    have hfit : ns.countP (slot · < i + 1) < 2 ^ 64 := (countP_le_length).trans_lt hl
    rw [range'_succ, map_cons, reach, ← countP_slot_succ, if_neg (not_le.mpr hfit)]
    split
    case isTrue h => exact ⟨i, rfl, hlo, h⟩
    case isFalse h => exact ih (not_le.mp h) (by rwa [Nat.add_right_comm i 1 m])

theorem mean_between {ns : List Nat} (hpos : 0 < ns.length) (h : ∀ n ∈ ns, a ≤ n ∧ n ≤ b) :
    a ≤ ns.sum / ns.length ∧ ns.sum / ns.length ≤ b := by
  have hlow : ns.length * a ≤ ns.sum := card_nsmul_le_sum ns a fun n hn => (h n hn).1
  have hhigh : ns.sum ≤ ns.length * b := sum_le_card_nsmul ns b fun n hn => (h n hn).2
  exact ⟨(Nat.le_div_iff_mul_le hpos).mpr (by rwa [Nat.mul_comm]), Nat.div_le_of_le_mul hhigh⟩

theorem summarised (hne : ns ≠ []) (hs : ns.sum < 2 ^ 64) (hl : ns.length < 2 ^ 64) : Summarised ns := by
  obtain ⟨h, hr, hc⟩ := counts_recordAll ns
  obtain ⟨x, hx⟩ := exists_mem_of_ne_nil ns hne
  have hpos : 0 < ns.length := length_pos_of_mem hx
  have hcount : h.count = ns.length := hc.count.trans (Nat.mod_eq_of_lt hl)
  have hsum : h.sumNs = ns.sum := hc.sumNs.trans (Nat.mod_eq_of_lt hs)
  have hbuckets : h.buckets = (range histBuckets).map (filled ns) :=
    hc.buckets.trans (map_congr_left fun i _ => Nat.mod_eq_of_lt (countP_le_length.trans_lt hl))
  have hsmall : ∀ n ∈ ns, n < 2 ^ 64 := fun n hn => (le_sum_of_mem hn).trans_lt hs
  -- The outermost buckets with a sample, and the one the percentile stops at.
  obtain ⟨k1, hk1, hf1, hmin⟩ := find_filled pairwise_lt_range (fun i => mem_range.mpr) hx
  obtain ⟨k2, -, hf2, hmax⟩ := find_filled (pairwise_reverse.mpr pairwise_lt_range)
    (fun i hi => mem_reverse.mpr (mem_range.mpr hi)) hx
  have htarget : ns.length - ns.length / 100 ≤ target ns.length ∧ target ns.length ≤ ns.length := by
    unfold target
    omega
  obtain ⟨k3, hf3, hbelow, henough⟩ := reach_spec (i := 0) (m := histBuckets) hl
    (t := target ns.length) (by simp [target]) (by simp [slot_lt]; omega)
  obtain ⟨v1, hv1, hlo⟩ := lo_spec (mem_range.mp hk1)
  obtain ⟨v2, -, hv2, hhi⟩ := hi_spec k2
  obtain ⟨v3, hv3, hv3', hhi3⟩ := hi_spec k3
  have hle2 : ∀ n ∈ ns, slot n ≤ k2 := fun n hn => (hmax n hn).elim le_of_eq le_of_lt
  have hwithin : ∀ n ∈ ns, v1 ≤ n ∧ n ≤ v2 := fun n hn =>
    ⟨hlo n ((hmin n hn).elim (fun h => h.ge) le_of_lt), (hhi n (hsmall n hn)).mp (hle2 n hn)⟩
  have hk : k3 ≤ k2 := by
    by_contra hlt
    have hall : ns.countP (slot · < k3) = ns.length :=
      countP_eq_length.mpr fun n hn => decide_eq_true ((hle2 n hn).trans_lt (not_le.mp hlt))
    omega
  have hmean := mean_between hpos hwithin
  refine ⟨h, v1, ns.sum / ns.length, v3, v2, hr, ?_, rfl, hwithin, ⟨hmean.1, hmean.2, ?_⟩, ?_⟩
  · rw [← zipIdx_map_range] at hf1
    rw [map_reverse, ← zipIdx_map_range] at hf2
    have hnone : ns.countP (slot · < 0) = 0 := by simp
    rw [hnone, ← range_eq_range'] at hf3
    simp [Hist.summary, hcount, hbuckets, hsum, hpos.ne', hf1, hf2, hf3, hv1, hv2, hv3']
  · exact (hhi v3 hv3).mp (((hhi3 v3 hv3).mpr le_rfl).trans hk)
  · have hsame : ns.countP (slot · < k3 + 1) = ns.countP (· ≤ v3) :=
      countP_congr fun n hn => by simp [hhi3 n (hsmall n hn)]
    omega

theorem summarised_two : Summarised [5, 700] := summarised (by decide) (by decide) (by decide)

-- The counter of the samples can wrap before their sum does.
theorem not_summarised_of_wraps (hl : ns.length = 2 ^ 64) : ¬Summarised ns := by
  rintro ⟨h, mn, avg, p99, mx, hr, hsum, -⟩
  obtain ⟨h', hr', hc⟩ := counts_recordAll ns
  cases hr.symm.trans hr'
  have hcount : h.count = 0 := by
    rw [hc.count, hl, Nat.mod_self]
  simp [Hist.summary, hcount] at hsum
  omega

theorem sum_zeros (n : Nat) : (replicate n 0).sum = 0 := by
  simp

theorem zeros_not_summarised :
    replicate (2 ^ 64) 0 ≠ [] ∧ (replicate (2 ^ 64) 0).sum < 2 ^ 64 ∧ ¬Summarised (replicate (2 ^ 64) 0) :=
  ⟨ne_nil_of_length_pos (length_replicate.symm ▸ Nat.two_pow_pos 64), (sum_zeros _).symm ▸ Nat.two_pow_pos 64,
    not_summarised_of_wraps length_replicate⟩

-- The atomic additions that `record` is made of.
inductive Add
  | bucket (ns : Nat)
  | count
  | sum (ns : Nat)
  deriving DecidableEq

def adds (ns : Nat) : List Add := [.bucket ns, .count, .sum ns]

def Hist.add (h : Hist) : Add → Hist
  | .bucket ns => { h with buckets := h.buckets.modify (slot ns) (fetchAdd · 1) }
  | .count     => { h with count := fetchAdd h.count 1 }
  | .sum ns    => { h with sumNs := fetchAdd h.sumNs ns }

theorem fetchAdd_right_comm : fetchAdd (fetchAdd c m) n = fetchAdd (fetchAdd c n) m := by
  simp only [fetchAdd]
  omega

instance : RightCommutative Hist.add where
  right_comm h a b := by
    cases a <;> cases b <;> simp only [Hist.add, Hist.mk.injEq, true_and, and_true]
    case bucket.bucket m n =>
      refine ext_getElem? fun i => ?_
      simp only [getElem?_modify]
      grind
    case sum.sum => exact fetchAdd_right_comm

theorem record_eq (hl : h.buckets.length = histBuckets) : h.record ns = some ((adds ns).foldl Hist.add h) := by
  have hlt : slot ns < h.buckets.length := hl ▸ slot_lt
  simp [Hist.record, adds, Hist.add, hlt, modify_eq_set_getElem?]

theorem recordAll_eq (ns) : recordAll ns = some ((ns.flatMap adds).foldl Hist.add .new) := by
  induction ns using reverseRecOn with
  | nil => rfl
  | append_singleton ns n ih =>
    obtain ⟨h, hr, hc⟩ := counts_recordAll ns
    have hlen : h.buckets.length = histBuckets := by simp [hc.buckets]
    rw [hr, Option.some_inj] at ih
    unfold recordAll at hr ⊢
    simp [foldlM_append, hr, record_eq hlen, ← ih]

-- However the additions of any number of CPUs are interleaved, none of them is lost.
theorem recorded_of_perm {steps : List Add} (h : steps.Perm (ns.flatMap adds)) :
    recordAll ns = some (steps.foldl Hist.add .new) := by
  rw [recordAll_eq, h.foldl_eq]

theorem recorded_two : recordAll [5, 700] = some ([.bucket 5, .bucket 700, .sum 700, .count, .count, .sum 5].foldl Hist.add .new) :=
  recorded_of_perm (by decide)

end Histogram
