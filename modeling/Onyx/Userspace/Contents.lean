import Onyx.Userspace.Fixups
import Onyx.Userspace.Growth

-- What the loader leaves in memory: the image, inside the region that `elf_region` announced.

open Lib List Bytes Result

namespace Userspace

variable {elf : Image} {s t : Space}

def PageInside (r : Nat × Nat) (p : Nat) : Prop := r.1 ≤ p * pageSize ∧ (p + 1) * pageSize ≤ r.2

-- Segment `i` is in memory: its file bytes, then zeros.
structure SegmentFilled (elf : Image) (base : Nat) (t : Space) (i : Nat) : Prop where
  data : ∀ b, b < elf.filesz i → elf.bytes[elf.offset i + b]? = some (t.memory (base + elf.vaddr i + b))
  zeros : ∀ b, elf.filesz i ≤ b → b < elf.memsz i → t.memory (base + elf.vaddr i + b) = 0

-- The loader has turned `s` into `t` inside `r`: pages, bytes, and segments in memory.
structure RegionSound (elf : Image) (r : Nat × Nat) (s t : Space) : Prop where
  pages : ∀ p, t.pages p ≠ s.pages p → PageInside r p
  bytes : ∀ a, ¬(r.1 ≤ a ∧ a < r.2) → ∀ v, ∃ info t', (loadElf elf).run (s.poke a v) = (.ok info, t') ∧ t'.memory a = v
  image : ∃ base l t0, loadBase elf elf.eType elf.phoff elf.phentsize elf.phnum = .ok base ∧
    ((range elf.phnum).foldlM (loadSegment elf elf.phoff elf.phentsize base) ⟨0, none, []⟩).run s = (.ok l, t0) ∧
    (relocate elf elf.eType base l.extents).run t0 = (.ok (), t) ∧
    ∀ i, i < elf.phnum → elf.IsLoad i → SegmentFilled elf base t0 i

namespace Image

theorem Placeable.inside (h : elf.Placeable) (hi : i < elf.phnum) (hl : elf.IsLoad i) :
    elf.region.1 ≤ elf.start i ∧ elf.stop i ≤ elf.region.2 := by
  have hlow := lowest_le hi hl
  have hhigh := high_le_highest hi hl
  have hpie := h.pie
  unfold region start stop base
  by_cases hd : elf.Dyn
  · have := hpie hd
    simp only [hd, if_true]
    omega
  · simp only [hd, if_false]
    omega

theorem Placeable.pageInside (h : elf.Placeable) (hi : i < elf.phnum) (hl : elf.IsLoad i) (hp : elf.Holds i p) :
    PageInside elf.region p := by
  have ⟨hlo, hhi⟩ := h.inside hi hl
  have h1 := h.start_mod (i := i)
  have h2 := h.stop_mod (i := i)
  unfold Holds at hp
  unfold PageInside
  rw [pageSize_eq] at *
  omega

theorem memory_withSegment (hs : elf.Sound i) (hl : elf.IsLoad i) : (elf.withSegment i s).memory a =
    if elf.base + elf.vaddr i + elf.filesz i ≤ a ∧ a < elf.base + elf.vaddr i + elf.memsz i then 0
    else if elf.base + elf.vaddr i ≤ a ∧ a < elf.base + elf.vaddr i + elf.filesz i then
      elf.bytes.getD (elf.offset i + (a - (elf.base + elf.vaddr i))) 0 else s.memory a := by
  have hsizes := hs.sizes hl
  have hdata : elf.offset i + elf.filesz i ≤ elf.bytes.length := hs.data hl
  have hlen : (elf.bytes.slice (elf.offset i) (elf.filesz i)).length = elf.filesz i := by
    rw [length_slice]
    omega
  have hwith : (elf.withSegment i s).memory a =
      if elf.base + elf.vaddr i + elf.filesz i ≤ a ∧
          a < elf.base + elf.vaddr i + elf.filesz i + (replicate (elf.memsz i - elf.filesz i) (0 : UInt8)).length then
        (replicate (elf.memsz i - elf.filesz i) 0).getD (a - (elf.base + elf.vaddr i + elf.filesz i)) 0
      else if elf.base + elf.vaddr i ≤ a ∧ a < elf.base + elf.vaddr i + (elf.bytes.slice (elf.offset i) (elf.filesz i)).length then
        (elf.bytes.slice (elf.offset i) (elf.filesz i)).getD (a - (elf.base + elf.vaddr i)) 0
      else s.memory a := rfl
  have hend : elf.base + elf.vaddr i + elf.filesz i + (elf.memsz i - elf.filesz i) = elf.base + elf.vaddr i + elf.memsz i := by omega
  rw [hwith, hlen, length_replicate, hend]
  split
  · rw [getD_eq_getElem?_getD, getElem?_replicate]
    split <;> rfl
  split
  case isTrue hin =>
    rw [getD_eq_getElem?_getD, getD_eq_getElem?_getD, slice, getElem?_take_of_lt (by omega), getElem?_drop]
  case isFalse => rfl

-- The memory before round `k` of the segment loop.
structure Filled (elf : Image) (s : Space) (k : Nat) (t : Space) : Prop where
  sizes : ∀ {j : Nat}, j < k → elf.IsLoad j → elf.filesz j ≤ elf.memsz j
  segments : ∀ {j : Nat}, j < k → elf.IsLoad j → SegmentFilled elf elf.base t j
  others : ∀ {a : Nat}, (∀ j, j < k → elf.IsLoad j → ¬elf.Holds j (a / pageSize)) → t.memory a = s.memory a

namespace Filled

theorem init : elf.Filled s 0 s := ⟨nofun, nofun, fun _ => rfl⟩

theorem skip (h : elf.Filled s k t) (hl : ¬elf.IsLoad k) : elf.Filled s (k + 1) t := by
  have hearlier {j : Nat} (hj : j < k + 1) (hlj : elf.IsLoad j) : j < k :=
    (Nat.lt_succ_iff_lt_or_eq.mp hj).resolve_right fun hjk => hl (hjk ▸ hlj)
  exact ⟨fun hj hlj => h.sizes (hearlier hj hlj) hlj, fun hj hlj => h.segments (hearlier hj hlj) hlj,
    fun hj => h.others fun j hjk => hj j (by omega)⟩

theorem segmentFilled_withSegment (hl : elf.IsLoad k) (hs : elf.Sound k) : SegmentFilled elf elf.base (elf.withSegment k t) k := by
  have hdata : elf.offset k + elf.filesz k ≤ elf.bytes.length := hs.data hl
  constructor
  · intro b hb
    rw [memory_withSegment hs hl, if_neg (by omega), if_pos (by omega), Nat.add_sub_cancel_left, getD_eq_getElem?_getD,
      getElem?_eq_getElem (by omega), Option.getD_some]
  · intro b hb hlt
    rw [memory_withSegment hs hl, if_pos (by omega)]

theorem place (h : elf.Filled s k t) (hp : elf.Placeable) (hl : elf.IsLoad k) (hs : elf.Sound k) (hf : elf.Free s k) :
    elf.Filled s (k + 1) (elf.withSegment k t) := by
  have hsizes := hs.sizes hl
  have hother {a : Nat} (ha : ¬elf.Holds k (a / pageSize)) : (elf.withSegment k t).memory a = t.memory a := by
    have hout : ¬(elf.base + elf.vaddr k ≤ a ∧ a < elf.base + elf.vaddr k + elf.memsz k) := by
      intro ⟨hlo, hhi⟩
      have hb := hp.holds_byte (i := k) (j := a - (elf.base + elf.vaddr k)) (by omega)
      rw [Nat.add_sub_cancel' hlo] at hb
      exact ha hb
    rw [memory_withSegment hs hl, if_neg (by omega), if_neg (by omega)]
  refine ⟨fun {j} hj hlj => ?_, fun {j} hj hlj => ?_, fun {a} ha => ?_⟩
  · rcases Nat.lt_succ_iff_lt_or_eq.mp hj with hj | rfl
    · exact h.sizes hj hlj
    · exact hsizes
  · rcases Nat.lt_succ_iff_lt_or_eq.mp hj with hj | rfl
    · -- the bytes of an earlier segment are on pages of its own
      have hkept {b : Nat} (hb : b < elf.memsz j) :
          (elf.withSegment k t).memory (elf.base + elf.vaddr j + b) = t.memory (elf.base + elf.vaddr j + b) :=
        hother fun hk => (hf _ hk).2 j hj hlj (hp.holds_byte hb)
      have hold := h.segments hj hlj
      have hle := h.sizes hj hlj
      exact ⟨fun b hb => (hold.data b hb).trans (congrArg some (hkept (by omega)).symm),
        fun b hb hlt => (hkept hlt).trans (hold.zeros b hb hlt)⟩
    · exact segmentFilled_withSegment hl hs
  · rw [hother (ha k (Nat.lt_succ_self k) hl)]
    exact h.others fun j hjk => ha j (by omega)

theorem round (h : elf.Filled s k t) (hprog : elf.Progress s k l t) (hp : elf.Placeable) (hk : k < elf.phnum)
    (hrun : (loadSegment elf elf.phoff elf.phentsize elf.base l k).run t = (.ok l', t')) : elf.Filled s (k + 1) t' := by
  obtain ⟨⟨hs, hclear⟩, _, rfl⟩ := (hp.exact_loadSegment hk hprog).eq_ok.mp hrun
  by_cases hl : elf.IsLoad k
  · rw [if_pos hl]
    exact h.place hp hl hs (hclear hs hl)
  · rw [if_neg hl]
    exact h.skip hl

end Filled

theorem Placeable.filled_loop (h : elf.Placeable)
    (hrun : ((range elf.phnum).foldlM (loadSegment elf elf.phoff elf.phentsize elf.base) ⟨0, none, []⟩).run s = (.ok l, t)) :
    elf.Filled s elf.phnum t := by
  have hrounds : Rounds (loadSegment elf elf.phoff elf.phentsize elf.base) elf.phnum
      (fun k l t => elf.Progress s k l t ∧ elf.Filled s k t) (fun k => elf.Sound k ∧ elf.Clear s k) fun k => ¬elf.Clear s k := {
    next := fun hk hi hr => ⟨h.rounds.next hk hi.1 hr, hi.2.round hi.1 h hk hr⟩
    good := fun hk hi => h.rounds.good hk hi.1
    bad := fun hk hi => h.rounds.bad hk hi.1 }
  exact (hrounds.run ⟨Progress.init, Filled.init⟩ hrun).2

theorem Placeable.target_inside (h : elf.Placeable)
    (hr : relocation elf tab elf.base (elf.extents elf.phnum) off = .ok (some (target, word))) :
    elf.region.1 ≤ target ∧ target + 8 ≤ elf.region.2 := by
  have ⟨_, _, hr⟩ := bind_eq_ok.mp hr
  have ⟨_, _, hr⟩ := bind_eq_ok.mp hr
  have ⟨_, _, hr⟩ := bind_eq_ok.mp hr
  have ⟨v, _, htarget⟩ := bind_eq_ok.mp hr
  cases v with
  | none => cases htarget
  | some v =>
    rcases h.relocationTarget_cases h.extents_ne_nil v (elf.base + _) with ⟨e, he, _⟩ | ⟨hp, _⟩ | ⟨he, _, j, hj, hl, hlo, hhi⟩
    · rw [he] at htarget
      cases htarget
    · rw [hp] at htarget
      cases htarget
    rw [he] at htarget
    cases htarget
    have ⟨h1, h2⟩ := h.inside hj hl
    exact ⟨Nat.le_trans h1 hlo, Nat.le_trans hhi h2⟩

-- A run writes to no byte outside a range.
def Spares (r : Nat × Nat) (s : Space) (_ : Bool) (t : Space) : Prop := ∀ a, ¬(r.1 ≤ a ∧ a < r.2) → t.memory a = s.memory a

instance (r : Nat × Nat) : Transit (Spares r) where
  refl := fun _ _ => rfl
  trans := fun h1 h2 a ha => (h2 a ha).trans (h1 a ha)

theorem spares_store (hlo : r.1 ≤ addr) (hhi : addr + data.length ≤ r.2) :
    (store addr data : LoadM Unit).Within (Spares r) := by
  refine .read_bind fun _ s a ha => ?_
  exact (Space.memory_setMemory (s := s)).trans (if_neg (by omega))

theorem Placeable.spares_relocate (h : elf.Placeable) :
    (relocate elf elf.eType elf.base (elf.extents elf.phnum)).Within (Spares elf.region) := by
  refine within_relocate_of fun tab n off s => ?_
  cases hr : relocation elf tab elf.base (elf.extents elf.phnum) off with
  | error e =>
    rw [applyRelocation, hr]
    exact fun _ _ => rfl
  | ok w =>
    rw [applyRelocation, hr, lift_ok_bind_run]
    match w with
    | none => exact fun _ _ => rfl
    | some (target, word) =>
      have ⟨hlo, hhi⟩ := h.target_inside hr
      have hend : target + (toLe 8 word).length ≤ elf.region.2 := by rwa [length_toLe]
      exact Prog.Within.bind (.lift_bind fun _ => spares_store hlo hend) (fun _ => .lift) s

theorem Placed.loadElf_memory (h : elf.Placed) (hrun : (loadElf elf).run s = (.ok info, t))
    (ha : ¬(elf.region.1 ≤ a ∧ a < elf.region.2)) : t.memory a = s.memory a := by
  have ⟨hl, hload⟩ := h.loadElf_run hrun
  have hp : elf.Placeable := ⟨h, hl.pie⟩
  have ⟨l, t0, hloop, hprog, hrel, _⟩ := hp.load_stages hload
  rw [hprog.extents] at hrel
  have hfilled := hp.filled_loop hloop
  rw [hp.spares_relocate.of_run hrel a ha]
  refine hfilled.others fun j hj hlj hh => ha ?_
  have ⟨hlo, hhi⟩ := hp.pageInside hj hlj hh
  rw [pageSize_eq] at *
  omega

end Image

-- The loader stays inside the announced region, and leaves the image of the file there.
theorem loadElf_regionSound (elf : Image) (r : Nat × Nat) (s t : Space) (info : ElfLoadInfo) (hregion : elfRegion elf = .ok r)
    (hrun : (loadElf elf).run s = (.ok info, t)) : RegionSound elf r s t := by
  obtain ⟨hplaced, rfl⟩ := Image.exact_elfRegion.eq_ok.mp hregion
  have ⟨hl, hload⟩ := hplaced.loadElf_run hrun
  have hp : elf.Placeable := ⟨hplaced, hl.pie⟩
  refine ⟨fun p hne => ?_, fun a ha v => ?_, ?_⟩
  · refine Classical.byContradiction fun hout => hne (hplaced.loadElf_pages hrun fun j hj hlj hh => hout ?_)
    exact hp.pageInside hj hlj hh
  · have hmapped : ∀ p, p < userMaxAddr / pageSize → ((s.poke a v).Mapped p ↔ s.Mapped p) := fun _ _ => Iff.rfl
    have ⟨info', t', hrun'⟩ := hplaced.loadElf_completes.mpr ((hplaced.loads_congr hmapped).mpr hl)
    refine ⟨info', t', hrun', (hplaced.loadElf_memory hrun' ha).trans ?_⟩
    exact if_pos rfl
  · have ⟨l, t0, hloop, hprog, hrel, _⟩ := hp.load_stages hload
    have hf : elf.HeadersInFile := fun i hi => (hl.sound i hi).inFile
    exact ⟨elf.base, l, t0, hplaced.exact_loadBase.of_good fun hd => ⟨hf, hl.pie hd⟩, hloop, hrel,
      fun i hi => (hp.filled_loop hloop).segments hi⟩

theorem loadElf_run_of_fst (h : ((loadElf elf).run s).1 = .ok info) : (loadElf elf).run s = (.ok info, ((loadElf elf).run s).2) :=
  Prod.ext h rfl

theorem fixup_region_sound :
    RegionSound (fixupImage 6 0x80 0) (0x2000000, 0x2001000) .blank ((loadElf (fixupImage 6 0x80 0)).run .blank).2 :=
  loadElf_regionSound _ _ _ _ ⟨0x2000000, 1, some 0x2000040, 0x2000000⟩ (by decide +kernel) (loadElf_run_of_fst (by decide +kernel))

end Userspace
