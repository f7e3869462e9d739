import Onyx.Userspace.Scan
import Onyx.Userspace.Pages
import Onyx.Userspace.Load

-- The segment loop of `load_elf`: which headers it refuses and which pages it maps.

open Lib List

namespace Userspace

namespace Image

variable (elf : Image)

def base : Nat := if elf.Dyn then lnxPieLoadBase - elf.lowest else 0

def start (i : Nat) : Nat := elf.base + elf.low i

def stop (i : Nat) : Nat := elf.base + elf.high i

def Holds (i p : Nat) : Prop := elf.start i / pageSize ≤ p ∧ p < elf.stop i / pageSize

instance : Decidable (elf.Holds i p) := inferInstanceAs (Decidable (_ ∧ _))

def InFile (i : Nat) : Prop := elf.ph i + 56 ≤ elf.len

-- What the loader asks of header `i` beyond the scan.
structure Sound (i : Nat) : Prop where
  inFile : elf.InFile i
  data : elf.IsLoad i → elf.offset i + elf.filesz i ≤ elf.len
  sizes : elf.IsLoad i → elf.filesz i ≤ elf.memsz i
  nonempty : elf.IsLoad i → elf.low i < elf.high i

def segment (i : Nat) : Segment where
  flags := elf.flags i
  offset := elf.offset i
  filesz := elf.filesz i
  memsz := elf.memsz i
  mapVa := elf.base + elf.vaddr i
  start := elf.start i
  stop := elf.stop i

-- The address of the program header table once header `i` was looked at.
def phdrAfter (known : Option Nat) (i : Nat) : Option Nat :=
  if known = none ∧ elf.offset i ≤ elf.phoff ∧ elf.phoff - elf.offset i < elf.filesz i then
    some (elf.base + elf.vaddr i + (elf.phoff - elf.offset i))
  else known

-- An image that is let through and whose preferred base is not above the load region.
structure Placeable : Prop extends elf.Placed where
  pie : elf.Dyn → elf.lowest ≤ lnxPieLoadBase

end Image

variable {elf : Image} {s : Space}

namespace Image

theorem Placed.lowest_mod (h : elf.Placed) : elf.lowest % pageSize = 0 := by
  have ⟨i, _, _, hm⟩ := lowest_mem h.some
  exact (congrArg (· % pageSize) hm).trans (pageDown_mod _)

namespace Placeable

variable (h : elf.Placeable)

include h

theorem base_mod : elf.base % pageSize = 0 := by
  have hl := h.lowest_mod
  unfold base lnxPieLoadBase
  rw [pageSize_eq] at *
  split <;> omega

theorem bounds (hi : i < elf.phnum) (hl : elf.IsLoad i) : userTextBase ≤ elf.start i ∧ elf.stop i ≤ userMaxAddr := by
  have hlow := lowest_le hi hl
  have hhigh := high_le_highest hi hl
  have habove := h.above
  have hbelow := h.below
  have hpie := h.pie
  unfold start stop base
  unfold region at habove hbelow
  by_cases hd : elf.Dyn
  · simp only [hd, if_true] at habove hbelow ⊢
    have := hpie hd
    omega
  · simp only [hd, if_false] at habove hbelow ⊢
    omega

theorem pageDown_base (a : Nat) : pageDown (elf.base + a) = elf.base + pageDown a := by
  have hb := h.base_mod
  unfold pageDown
  rw [pageSize_eq] at *
  omega

theorem pageDown_mapVa : pageDown (elf.base + elf.vaddr i) = elf.start i := h.pageDown_base _

theorem pageDown_top : pageDown (elf.base + elf.vaddr i + (elf.memsz i + pageMask)) = elf.stop i := by
  rw [Nat.add_assoc, h.pageDown_base, ← Nat.add_assoc (elf.vaddr i)]
  rfl

theorem start_mod : elf.start i % pageSize = 0 := h.pageDown_mapVa ▸ pageDown_mod _

theorem stop_mod : elf.stop i % pageSize = 0 := h.pageDown_top ▸ pageDown_mod _

theorem mapVa_bounds : elf.start i ≤ elf.base + elf.vaddr i ∧ elf.base + elf.vaddr i + elf.memsz i ≤ elf.stop i := by
  have hb := h.base_mod
  unfold start low stop high pageDown
  rw [pageMask_eq]
  rw [pageSize_eq] at *
  omega

end Placeable

theorem exact_programHeader :
    Exact (programHeader elf elf.phoff elf.phentsize i) (elf.ph i < 2 ^ 64 ∧ 2 ^ 64 ≤ elf.ph i + 56) (elf.InFile i) (elf.ph i) := by
  have := elf.len_lt
  exact .congr (.bind exact_tableEntry fun _ => .bind .checked fun _ => .ite (fun _ => .fail) fun _ => .ok) (by grind [ph])
    (by grind [ph, InFile])

theorem exact_placeSegment : Exact (placeSegment elf b fl o v f m) False
    (o + f ≤ elf.len ∧ f ≤ m ∧ b + v + (m + pageMask) < 2 ^ 64 ∧ pageDown (b + v) < pageDown (b + v + (m + pageMask)) ∧
      userTextBase ≤ pageDown (b + v) ∧ pageDown (b + v + (m + pageMask)) ≤ userMaxAddr)
    ⟨fl, o, f, m, b + v, pageDown (b + v), pageDown (b + v + (m + pageMask))⟩ := by
  have := elf.len_lt
  exact .congr (.bind exact_fits fun _ => .ite (fun _ => .fail) fun _ => .ite (fun _ => .fail) fun _ => .bind exact_fits fun _ =>
    .bind exact_fits fun _ => .bind exact_fits fun _ => .ite (fun _ => .fail) fun _ => .ok) (by simp) (by grind)

theorem exact_readSegment (hk : elf.InFile i → elf.IsLoad i →
      Exact (phdrVaddr known b elf.phoff (elf.offset i) (elf.vaddr i) (elf.filesz i)) bad good k) :
    Exact (readSegment elf elf.phoff elf.phentsize b known i)
      (elf.ph i < 2 ^ 64 ∧ 2 ^ 64 ≤ elf.ph i + 56 ∨ elf.InFile i ∧ elf.IsLoad i ∧ bad)
      (elf.InFile i ∧ (elf.IsLoad i → good ∧ elf.offset i + elf.filesz i ≤ elf.len ∧ elf.filesz i ≤ elf.memsz i ∧
        b + elf.vaddr i + (elf.memsz i + pageMask) < 2 ^ 64 ∧
        pageDown (b + elf.vaddr i) < pageDown (b + elf.vaddr i + (elf.memsz i + pageMask)) ∧
        userTextBase ≤ pageDown (b + elf.vaddr i) ∧ pageDown (b + elf.vaddr i + (elf.memsz i + pageMask)) ≤ userMaxAddr))
      (if elf.IsLoad i then some (k, ⟨elf.flags i, elf.offset i, elf.filesz i, elf.memsz i, b + elf.vaddr i,
        pageDown (b + elf.vaddr i), pageDown (b + elf.vaddr i + (elf.memsz i + pageMask))⟩) else none) := by
  have := elf.len_lt
  refine .congr (.bind exact_programHeader fun hf => .bind exact_rd fun _ => .cases (fun hl => .bind exact_field fun _ =>
    .bind exact_field fun _ => .bind exact_field fun _ => .bind exact_field fun _ => .bind exact_field fun _ =>
      .bind (hk hf hl) fun _ => .bind exact_placeSegment fun _ => .ok) fun _ => .ok) ?_ ?_
  · grind [InFile, IsLoad]
  · grind [InFile, IsLoad, offset, filesz, memsz, vaddr]

namespace Placeable

variable (h : elf.Placeable) (hi : i < elf.phnum) (hl : elf.IsLoad i)

include h hi hl

private theorem vaddr_le : elf.base + elf.vaddr i ≤ userMaxAddr := by
  have := (h.mapVa_bounds (i := i)).2
  have := (h.bounds hi hl).2
  omega

theorem phdrVaddr_eq (hf : elf.InFile i) :
    phdrVaddr known elf.base elf.phoff (elf.offset i) (elf.vaddr i) (elf.filesz i) = .ok (elf.phdrAfter known i) := by
  have hva := h.vaddr_le hi hl
  have hoff : elf.phoff < 2 ^ 63 := by
    have := elf.len_lt
    unfold InFile ph at hf
    omega
  unfold userMaxAddr at hva
  have h1 : elf.base + elf.vaddr i < 2 ^ 64 := by omega
  have h2 : elf.base + elf.vaddr i + (elf.phoff - elf.offset i) < 2 ^ 64 := by omega
  unfold phdrVaddr phdrAfter
  split
  · rw [checked_of_lt h1, ok_bind, checked_of_lt h2]
    rfl
  · rfl

omit hl in
theorem exact_readSegment : Exact (readSegment elf elf.phoff elf.phentsize elf.base known i) False (elf.Sound i)
    (if elf.IsLoad i then some (elf.phdrAfter known i, elf.segment i) else none) := by
  have hlen := elf.len_lt
  have htype := (h.scannable hi).type
  have hseg : elf.segment i = ⟨elf.flags i, elf.offset i, elf.filesz i, elf.memsz i, elf.base + elf.vaddr i,
      pageDown (elf.base + elf.vaddr i), pageDown (elf.base + elf.vaddr i + (elf.memsz i + pageMask))⟩ := by
    rw [h.pageDown_mapVa, h.pageDown_top]
    rfl
  have hplace (hl : elf.IsLoad i) : (elf.base + elf.vaddr i + (elf.memsz i + pageMask) < 2 ^ 64 ∧ elf.start i < elf.stop i ∧
      userTextBase ≤ elf.start i ∧ elf.stop i ≤ userMaxAddr) ↔ elf.low i < elf.high i := by
    have ⟨hlo, hhi⟩ := h.bounds hi hl
    have hb := (h.mapVa_bounds (i := i)).2
    rw [pageMask_eq]
    unfold userMaxAddr start stop at *
    omega
  rw [hseg]
  refine (Image.exact_readSegment fun hf hl => .of_eq (h.phdrVaddr_eq hi hl hf)).congr (by grind) ?_
  rw [h.pageDown_mapVa, h.pageDown_top]
  constructor
  · exact fun ⟨hf, hload⟩ => ⟨hf, by grind, by grind, fun hl => (hplace hl).mp (hload hl).2.2.2⟩
  · exact fun hs => ⟨hs.inFile, fun hl => ⟨trivial, hs.data hl, hs.sizes hl, (hplace hl).mpr (hs.nonempty hl)⟩⟩

end Placeable

def withSegment (elf : Image) (i : Nat) (s : Space) : Space :=
  let seg := elf.segment i
  ((s.setPages (seg.start / pageSize) seg.pageCount seg.finalFlags).setMemory seg.mapVa
    (elf.bytes.slice seg.offset seg.filesz)).setMemory (seg.mapVa + seg.filesz) (replicate (seg.memsz - seg.filesz) 0)

theorem pages_withSegment : (elf.withSegment i s).pages p =
    if elf.start i / pageSize ≤ p ∧ p < elf.start i / pageSize + (elf.segment i).pageCount then
      some (elf.segment i).finalFlags else s.pages p :=
  rfl

namespace Placeable

variable (h : elf.Placeable) (hi : i < elf.phnum) (hl : elf.IsLoad i) (hs : elf.Sound i)

include h hi hl hs

private theorem page_range : elf.start i + (elf.segment i).pageCount * pageSize ≤ 2 ^ 47 ∧
    elf.start i / pageSize + (elf.segment i).pageCount = elf.stop i / pageSize := by
  have h1 := h.start_mod (i := i)
  have h2 := h.stop_mod (i := i)
  have h3 := (h.bounds hi hl).2
  have h4 : elf.start i ≤ elf.stop i := by
    have := hs.nonempty hl
    unfold start stop
    omega
  show _ + (elf.stop i - elf.start i) / pageSize * pageSize ≤ _ ∧ _ + (elf.stop i - elf.start i) / pageSize = _
  unfold userMaxAddr at h3
  rw [pageSize_eq] at *
  omega

theorem pages_withSegment :
    (elf.withSegment i s).pages p = if elf.Holds i p then some (elf.segment i).finalFlags else s.pages p := by
  rw [Image.pages_withSegment, (h.page_range hi hl hs).2]
  rfl

theorem holds_iff : elf.Holds i p ↔ ∃ k, k < (elf.segment i).pageCount ∧ p = elf.start i / pageSize + k := by
  have ⟨_, hcount⟩ := h.page_range hi hl hs
  unfold Holds
  constructor
  · exact fun ⟨h1, h2⟩ => ⟨p - elf.start i / pageSize, by omega, by omega⟩
  · rintro ⟨k, hk, rfl⟩
    omega

omit hi hl hs in
theorem holds_byte (hj : j < elf.memsz i) : elf.Holds i ((elf.base + elf.vaddr i + j) / pageSize) := by
  have h1 := h.start_mod (i := i)
  have h2 := h.stop_mod (i := i)
  have ⟨h3, h4⟩ := h.mapVa_bounds (i := i)
  unfold Holds
  rw [pageSize_eq] at *
  omega

theorem exact_mapSegment : (mapSegment elf (elf.segment i)).Exact s (∃ p, elf.Holds i p ∧ s.Mapped p)
    (∀ p, elf.Holds i p → ¬s.Mapped p) () (elf.withSegment i s) := by
  have ⟨hend, hcount⟩ := h.page_range hi hl hs
  have hholds (p : Nat) := h.holds_iff (p := p) hi hl hs
  -- The pages just mapped are writable, whatever was written to them since.
  have hw : ∀ {p}, elf.Holds i p →
      (s.setPages (elf.start i / pageSize) (elf.segment i).pageCount (elf.segment i).mapFlags).Writable p := by
    intro p hp
    obtain ⟨k, hk, rfl⟩ := (hholds p).mp hp
    have hin : elf.start i / pageSize ≤ elf.start i / pageSize + k ∧
        elf.start i / pageSize + k < elf.start i / pageSize + (elf.segment i).pageCount := by omega
    rw [Space.Writable, Space.pages_setPages, if_pos hin]
    rfl
  have hfile : (elf.bytes.slice (elf.offset i) (elf.filesz i)).length = elf.filesz i := by
    have hdata : elf.offset i + elf.filesz i ≤ elf.bytes.length := hs.data hl
    rw [Bytes.length_slice]
    omega
  have hsizes := hs.sizes hl
  have hcopy : ∀ j, j < (elf.bytes.slice (elf.offset i) (elf.filesz i)).length →
      elf.Holds i ((elf.base + elf.vaddr i + j) / pageSize) := by
    intro j hj
    rw [hfile] at hj
    exact h.holds_byte (by omega)
  have hclear : ∀ j, j < (replicate (elf.memsz i - elf.filesz i) (0 : UInt8)).length →
      elf.Holds i ((elf.base + elf.vaddr i + elf.filesz i + j) / pageSize) := by
    intro j hj
    rw [length_replicate] at hj
    rw [Nat.add_assoc]
    exact h.holds_byte (by omega)
  have htaken : (∃ k, k < (elf.segment i).pageCount ∧ s.Mapped ((elf.segment i).start / pageSize + k)) ↔
      ∃ p, elf.Holds i p ∧ s.Mapped p := by
    simp only [hholds]
    exact ⟨fun ⟨k, hk, hm⟩ => ⟨_, ⟨k, hk, rfl⟩, hm⟩, fun ⟨_, ⟨k, hk, hp⟩, hm⟩ => ⟨k, hk, hp ▸ hm⟩⟩
  refine .congr (.bind (exact_mapRange h.start_mod hend) fun _ => .of_run ?_) (by simpa using htaken) (by simpa using not_congr htaken)
  refine (bind_run_ok (exact_store.of_good fun j hj => hw (hcopy j hj))).trans ?_
  refine (bind_run_ok (exact_store.of_good fun j hj => Space.writable_setMemory.mpr (hw (hclear j hj)))).trans ?_
  by_cases hf : (elf.segment i).finalFlags ≠ (elf.segment i).mapFlags
  · rw [if_pos hf]
    refine (protectRange_run (ε := String) h.start_mod hend fun k hk => ?_).trans ?_
    · exact Space.mapped_setPages.mpr (.inl ⟨by omega, by omega⟩)
    · exact congrArg (fun t => (Except.ok (), Space.setMemory (Space.setMemory t _ _) _ _)) Space.setPages_setPages
  · rw [if_neg hf, withSegment, Decidable.not_not.mp hf]
    rfl

end Placeable

def Free (elf : Image) (s : Space) (k : Nat) : Prop :=
  ∀ p, elf.Holds k p → ¬s.Mapped p ∧ ∀ j, j < k → elf.IsLoad j → ¬elf.Holds j p

-- Round `k` of the segment loop maps no page twice.
def Clear (elf : Image) (s : Space) (k : Nat) : Prop :=
  elf.Sound k → elf.IsLoad k → elf.Free s k

-- The mapped bounds of the PT_LOAD segments among the first `k` headers.
def extents (elf : Image) (k : Nat) : List (Nat × Nat) :=
  ((range k).filter fun j => decide (elf.IsLoad j)).map fun j => (elf.start j, elf.stop j)

-- Where the segment loop stands before round `k`, if it began in `s`.
structure Progress (elf : Image) (s : Space) (k : Nat) (l : Loading) (t : Space) : Prop where
  placed : ∀ {j p : Nat}, j < k → elf.IsLoad j → elf.Holds j p → t.pages p = some (elf.segment j).finalFlags
  others : ∀ {p : Nat}, (∀ j, j < k → elf.IsLoad j → ¬elf.Holds j p) → t.pages p = s.pages p
  extents : l.extents = elf.extents k
  loaded : l.loaded = l.extents.length

namespace Progress

variable {l : Loading} {t : Space}

theorem init : elf.Progress s 0 ⟨0, none, []⟩ s :=
  ⟨nofun, fun _ => rfl, rfl, rfl⟩

theorem free_iff (hp : elf.Progress s k l t) : elf.Free s k ↔ ∀ p, elf.Holds k p → ¬t.Mapped p := by
  refine forall₂_congr fun p _ => ?_
  by_cases hj : ∀ j, j < k → elf.IsLoad j → ¬elf.Holds j p
  · rw [Space.Mapped, Space.Mapped, hp.others hj]
    exact and_iff_left hj
  have hm : t.Mapped p := by
    simp only [not_forall, not_not] at hj
    obtain ⟨j, hj, hl, hh⟩ := hj
    rw [Space.Mapped, hp.placed hj hl hh]
    rfl
  exact iff_of_false (fun h => hj h.2) (not_not_intro hm)

theorem skip (hp : elf.Progress s k l t) (hl : ¬elf.IsLoad k) : elf.Progress s (k + 1) l t where
  placed := by
    intro j p hj hlj hh
    rcases Nat.lt_succ_iff_lt_or_eq.mp hj with hj | rfl
    · exact hp.placed hj hlj hh
    · exact absurd hlj hl
  others := fun hj => hp.others fun j hjk => hj j (by omega)
  extents := by
    rw [hp.extents, Image.extents, Image.extents, range_succ, filter_append]
    simp [hl]
  loaded := hp.loaded

theorem place (hp : elf.Progress s k l t) (h : elf.Placeable) (hk : k < elf.phnum) (hl : elf.IsLoad k) (hs : elf.Sound k)
    (hf : elf.Free s k) :
    elf.Progress s (k + 1) ⟨l.loaded + 1, known, l.extents ++ [(elf.start k, elf.stop k)]⟩ (elf.withSegment k t) where
  placed := by
    intro j p hj hlj hh
    rw [h.pages_withSegment hk hl hs]
    rcases Nat.lt_succ_iff_lt_or_eq.mp hj with hj | rfl
    · rw [if_neg fun hheld => (hf p hheld).2 j hj hlj hh]
      exact hp.placed hj hlj hh
    · exact if_pos hh
  others := by
    intro p hj
    rw [h.pages_withSegment hk hl hs, if_neg (hj k (Nat.lt_succ_self k) hl)]
    exact hp.others fun j hjk => hj j (by omega)
  extents := by
    rw [hp.extents, Image.extents, Image.extents, range_succ, filter_append]
    simp [hl]
  loaded := by
    simp [hp.loaded]

end Progress

theorem Placeable.exact_loadSegment (h : elf.Placeable) (hk : k < elf.phnum) (hp : elf.Progress s k l t) :
    (loadSegment elf elf.phoff elf.phentsize elf.base l k).Exact t (¬elf.Clear s k) (elf.Sound k ∧ elf.Clear s k)
      (if elf.IsLoad k then ⟨l.loaded + 1, elf.phdrAfter l.phdrVaddr k, l.extents ++ [(elf.start k, elf.stop k)]⟩ else l)
      (if elf.IsLoad k then elf.withSegment k t else t) := by
  have hfree := hp.free_iff
  have hread : Exact (readSegment elf elf.phoff elf.phentsize elf.base l.phdrVaddr k) _ _ _ := h.exact_readSegment hk
  by_cases hl : elf.IsLoad k
  · rw [if_pos hl, if_pos hl]
    rw [if_pos hl] at hread
    exact .congr (.bind (.lift hread) fun hs => .bind (h.exact_mapSegment hk hl hs) fun _ => .pure) (by grind [Clear])
      (by grind [Clear])
  · rw [if_neg hl, if_neg hl]
    rw [if_neg hl] at hread
    exact .congr (.bind (.lift hread) fun _ => .pure) (by grind [Clear]) (by grind [Clear])

theorem Placeable.rounds (h : elf.Placeable) :
    Rounds (loadSegment elf elf.phoff elf.phentsize elf.base) elf.phnum (elf.Progress s)
      (fun k => elf.Sound k ∧ elf.Clear s k) fun k => ¬elf.Clear s k where
  next := by
    intro k l t l' t' hk hp hrun
    obtain ⟨⟨hs, hclear⟩, rfl, rfl⟩ := (h.exact_loadSegment hk hp).eq_ok.mp hrun
    by_cases hl : elf.IsLoad k
    · rw [if_pos hl, if_pos hl]
      exact hp.place h hk hl hs (hclear hs hl)
    · rw [if_neg hl, if_neg hl]
      exact hp.skip hl
  good := fun hk hp => (h.exact_loadSegment hk hp).completes
  bad := fun hk hp => (h.exact_loadSegment hk hp).panics

end Image
end Userspace
