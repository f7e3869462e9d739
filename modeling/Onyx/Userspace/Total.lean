import Onyx.Userspace.Relocs
import Onyx.Userspace.Stack

-- The exact set of images and states on which `spawn_bytes` panics.

open Lib List

namespace Userspace

variable {elf : Image} {s t : Space}

namespace Image

def Typed (elf : Image) : Prop := elf.eType = etExec ∨ elf.eType = etDyn

def header (elf : Image) : Header where
  statedEntry := elf.statedEntry
  phoff := elf.phoff
  phentsize := elf.phentsize
  phnum := elf.phnum
  eType := elf.eType

def EntryInRange (elf : Image) : Prop :=
  userTextBase ≤ elf.base + elf.statedEntry ∧ elf.base + elf.statedEntry < userMaxAddr

def HeadersInFile (elf : Image) : Prop := ∀ i, i < elf.phnum → elf.InFile i

theorem exact_readHeader : Exact (readHeader elf) False (elf.Elf64 ∧ 56 ≤ elf.phentsize ∧ elf.Typed) elf.header := by
  refine .congr (.ite (fun _ => .fail) fun _ => .ite (fun _ => .fail) fun _ => .ite (fun _ => .fail) fun _ => .ite (fun _ => .fail)
    fun _ => .bind exact_rd fun _ => .bind exact_rd fun _ => .bind exact_rd fun _ => .bind exact_rd fun _ => .bind exact_rd fun _ =>
    .ite (fun _ => .fail) fun _ => .ite (fun _ => .fail) fun _ => .ok) (by simp) ?_
  grind [Elf64, Typed, eType, phentsize]

theorem exact_prefStep :
    Exact (prefStep elf elf.phoff elf.phentsize pref i) (elf.ph i < 2 ^ 64 ∧ 2 ^ 64 ≤ elf.ph i + 56) (elf.InFile i)
      (if elf.IsLoad i then min pref (elf.low i) else pref) := by
  have hlen := elf.len_lt
  exact .congr (.bind exact_programHeader fun _ => .bind exact_rd fun _ => .cases (fun _ => .bind exact_field fun _ => .ok)
    fun _ => .ok) (by grind [InFile]) (by grind [InFile])

theorem exact_pref : Exact ((range elf.phnum).foldlM (prefStep elf elf.phoff elf.phentsize) (2 ^ 64 - 1))
      (∃ k, k < elf.phnum ∧ (∀ j, j < k → elf.InFile j) ∧ elf.ph k < 2 ^ 64 ∧ 2 ^ 64 ≤ elf.ph k + 56) elf.HeadersInFile
      elf.lowest :=
  .foldlM_range fun _ _ _ => exact_prefStep

theorem exact_loadBase : Exact (loadBase elf elf.eType elf.phoff elf.phentsize elf.phnum)
      (elf.Dyn ∧ ((∃ k, k < elf.phnum ∧ (∀ j, j < k → elf.InFile j) ∧ elf.ph k < 2 ^ 64 ∧ 2 ^ 64 ≤ elf.ph k + 56) ∨
        elf.HeadersInFile ∧ elf.lowest ≠ 2 ^ 64 - 1 ∧ lnxPieLoadBase < elf.lowest))
      (elf.Dyn → elf.HeadersInFile ∧ elf.lowest ≠ 2 ^ 64 - 1 ∧ elf.lowest ≤ lnxPieLoadBase) elf.base :=
  .congr (.cases (fun _ => .bind exact_pref fun _ => .ite (fun _ => .fail) fun _ => .checkedSub) fun _ => .ok) (by simp [Dyn])
    (by grind [Dyn])

theorem exact_entryPoint : Exact (entryPoint elf.base elf.statedEntry) (2 ^ 64 ≤ elf.base + elf.statedEntry) elf.EntryInRange
    (elf.base + elf.statedEntry) := by
  have hmax : userMaxAddr < 2 ^ 64 := by decide
  exact .congr (.bind .checked fun _ => .ite (fun _ => .ok) fun _ => .fail) (by grind) (by grind [EntryInRange])

theorem Placed.extents_ne_nil (h : elf.Placed) : elf.extents elf.phnum ≠ [] := by
  have ⟨i, hi, hl, _⟩ := lowest_mem h.some
  exact ne_nil_of_mem (mem_extents.mpr ⟨i, hi, hl, rfl⟩)

structure LoadSafe (elf : Image) (t : Space) : Prop where
  pie : elf.Dyn → elf.HeadersInFile → elf.lowest ≤ lnxPieLoadBase
  entry : elf.Typed → (elf.Dyn → elf.HeadersInFile) → elf.base + elf.statedEntry < 2 ^ 64
  pages : elf.Typed → (elf.Dyn → elf.HeadersInFile) → elf.EntryInRange →
    ∀ k, k < elf.phnum → (∀ j, j < k → elf.Sound j) → elf.Clear t k
  relocs : elf.EntryInRange → (∀ k, k < elf.phnum → elf.Sound k) → elf.Relocates → elf.TableSafe

structure Loads (elf : Image) (t : Space) : Prop where
  typed : elf.Typed
  pie : elf.Dyn → elf.lowest ≤ lnxPieLoadBase
  entry : elf.EntryInRange
  sound : ∀ k, k < elf.phnum → elf.Sound k
  clear : ∀ k, k < elf.phnum → elf.Clear t k
  relocs : elf.Relocates → elf.TableAccepted ∧ elf.TableSafe

-- The part of the loader that maps, at the base and the entry point of the image.
def load (elf : Image) : LoadM ElfLoadInfo := mapImage elf elf.header elf.base (elf.base + elf.statedEntry)

theorem load_eq : elf.load = (do
    let l ← (range elf.phnum).foldlM (loadSegment elf elf.phoff elf.phentsize elf.base) ⟨0, none, []⟩
    if l.loaded = 0 then
      Prog.lift (fail "no PT_LOAD segments")
    else do
      relocate elf elf.eType elf.base l.extents
      pure {
        entry := elf.base + elf.statedEntry
        phnum := elf.phnum
        phdrVaddr := l.phdrVaddr
        atBase := if elf.eType = etDyn then lnxPieLoadBase else 0 }) :=
  rfl

theorem Progress.laid (hp : elf.Progress t elf.phnum l t') : elf.Laid t' :=
  fun _ hj hl _ hh => hp.placed hj hl hh

namespace Placeable

variable (h : elf.Placeable)

include h

private theorem loaded_ne_zero (hp : elf.Progress t elf.phnum l t') : l.loaded ≠ 0 := by
  rw [hp.loaded, hp.extents]
  exact fun hz => h.extents_ne_nil (length_eq_zero_iff.mp hz)

private theorem relocates (hrun : ((range elf.phnum).foldlM (loadSegment elf elf.phoff elf.phentsize elf.base)
      ⟨0, none, []⟩).run t = (.ok l, t')) : l.loaded ≠ 0 ∧ Step (relocate elf elf.eType elf.base l.extents) t'
        (elf.Relocates → elf.TableAccepted) (elf.Relocates → elf.TableSafe) () := by
  have hprog := h.rounds.run Progress.init hrun
  exact ⟨h.loaded_ne_zero hprog, hprog.extents ▸ Laid.relocate h h.extents_ne_nil hprog.laid⟩

theorem panics_load : elf.load.Panics t ↔ ¬((∀ k, k < elf.phnum → (∀ j, j < k → elf.Sound j) → elf.Clear t k) ∧
      ((∀ k, k < elf.phnum → elf.Sound k) → elf.Relocates → elf.TableSafe)) := by
  have hloop := (h.rounds (s := t)).not_panics Progress.init
  have hdone := (h.rounds (s := t)).completes Progress.init
  rw [load_eq, Prog.panics_bind]
  by_cases hpages : ∀ k, k < elf.phnum → (∀ j, j < k → elf.Sound j) → elf.Clear t k
  · rw [or_iff_right (hloop.mpr hpages), and_iff_right hpages]
    constructor
    · rintro ⟨l, t', hrun, hp⟩ hsafe
      obtain ⟨hne, hstep⟩ := h.relocates hrun
      have hgood := hdone.mp ⟨_, _, hrun⟩
      rw [if_neg hne, Prog.panics_bind] at hp
      rcases hp with hp | ⟨_, _, _, hp⟩
      · exact hstep.panics.mp hp (hsafe fun k hk => (hgood k hk).1)
      · exact Prog.not_panics_pure hp
    · intro hbad
      simp only [not_forall] at hbad
      obtain ⟨hs, hr, hbad⟩ := hbad
      have ⟨l, t', hrun⟩ := hdone.mpr fun k hk => ⟨hs k hk, hpages k hk fun j hj => hs j (by omega)⟩
      obtain ⟨hne, hstep⟩ := h.relocates hrun
      refine ⟨l, t', hrun, ?_⟩
      rw [if_neg hne, Prog.panics_bind]
      exact .inl (hstep.panics.mpr fun hsafe => hbad (hsafe hr))
  · exact iff_of_true (.inl (Classical.not_not.mp fun hnp => hpages (hloop.mp hnp))) fun hh => hpages hh.1

theorem load_completes : elf.load.Completes t ↔
    (∀ k, k < elf.phnum → elf.Sound k ∧ elf.Clear t k) ∧ (elf.Relocates → elf.TableAccepted ∧ elf.TableSafe) := by
  have hdone := (h.rounds (s := t)).completes Progress.init
  rw [load_eq, Prog.completes_bind]
  constructor
  · rintro ⟨l, t', hrun, hc⟩
    obtain ⟨hne, hstep⟩ := h.relocates hrun
    rw [if_neg hne, Prog.completes_bind] at hc
    obtain ⟨_, _, hrel, _⟩ := hc
    have ⟨ha, hs⟩ := hstep.completes.mp ⟨_, _, hrel⟩
    exact ⟨hdone.mp ⟨_, _, hrun⟩, fun hr => ⟨ha hr, hs hr⟩⟩
  · rintro ⟨hgood, hrel⟩
    have ⟨l, t', hrun⟩ := hdone.mpr hgood
    obtain ⟨hne, hstep⟩ := h.relocates hrun
    refine ⟨l, t', hrun, ?_⟩
    rw [if_neg hne, Prog.completes_bind]
    have ⟨_, t2, hr⟩ := hstep.completes.mpr ⟨fun hr => (hrel hr).1, fun hr => (hrel hr).2⟩
    exact ⟨_, t2, hr, Prog.completes_pure⟩

section

variable (hrun : elf.load.run t = (.ok info, t'))
include hrun

theorem load_stages : ∃ l t1,
    ((range elf.phnum).foldlM (loadSegment elf elf.phoff elf.phentsize elf.base) ⟨0, none, []⟩).run t = (.ok l, t1) ∧
    elf.Progress t elf.phnum l t1 ∧ (relocate elf elf.eType elf.base l.extents).run t1 = (.ok (), t') ∧ t'.pages = t1.pages := by
  rw [load_eq] at hrun
  have ⟨l, t1, hloop, hrest⟩ := bind_eq_ok.mp hrun
  have ⟨hne, hstep⟩ := h.relocates hloop
  rw [if_neg hne] at hrest
  have ⟨_, t2, hrel, hpure⟩ := bind_eq_ok.mp hrest
  cases hpure
  exact ⟨l, t1, hloop, h.rounds.run Progress.init hloop, hrel, hstep.pages hrel⟩

theorem load_laid : elf.Laid t' := by
  have ⟨_, _, _, hprog, _, hpages⟩ := h.load_stages hrun
  exact fun j hj hl p hp => (congrFun hpages p).trans (hprog.laid j hj hl p hp)

theorem load_pages (hp : ∀ j, j < elf.phnum → elf.IsLoad j → ¬elf.Holds j p) : t'.pages p = t.pages p := by
  have ⟨_, _, _, hprog, _, hpages⟩ := h.load_stages hrun
  rw [hpages, hprog.others hp]

end

end Placeable

namespace Placed

variable (h : elf.Placed)

include h

theorem exact_readHeader : Exact (readHeader elf) False elf.Typed elf.header :=
  Image.exact_readHeader.congr Iff.rfl ⟨fun hg => hg.2.2, fun ht => ⟨h.elf64, h.phentsize, ht⟩⟩

theorem exact_loadBase :
    Exact (loadBase elf elf.eType elf.phoff elf.phentsize elf.phnum) (elf.Dyn ∧ elf.HeadersInFile ∧ lnxPieLoadBase < elf.lowest)
      (elf.Dyn → elf.HeadersInFile ∧ elf.lowest ≤ lnxPieLoadBase) elf.base := by
  have htable : ¬∃ k, k < elf.phnum ∧ (∀ j, j < k → elf.InFile j) ∧ elf.ph k < 2 ^ 64 ∧ 2 ^ 64 ≤ elf.ph k + 56 := by
    rintro ⟨k, hk, _, _, hbig⟩
    have := (h.scannable hk).type
    have := elf.len_lt
    omega
  have hsome := h.some
  exact Image.exact_loadBase.congr (by simp only [htable, hsome, ne_eq, not_false_eq_true, true_and, false_or])
    (by simp only [hsome, ne_eq, not_false_eq_true, true_and])

theorem panics_loadElf : (loadElf elf).Panics t ↔ elf.Typed ∧
    (elf.Dyn ∧ elf.HeadersInFile ∧ lnxPieLoadBase < elf.lowest ∨
      (elf.Dyn → elf.HeadersInFile ∧ elf.lowest ≤ lnxPieLoadBase) ∧
        (2 ^ 64 ≤ elf.base + elf.statedEntry ∨ elf.EntryInRange ∧ elf.load.Panics t)) := by
  rw [loadElf, (Prog.Exact.lift h.exact_readHeader).panics_bind, false_or]
  dsimp only [header]
  rw [(Prog.Exact.lift h.exact_loadBase).panics_bind, (Prog.Exact.lift exact_entryPoint).panics_bind]
  rfl

theorem loadElf_eq_ok : (loadElf elf).run t = (.ok info, t') ↔ elf.Typed ∧
    (elf.Dyn → elf.HeadersInFile ∧ elf.lowest ≤ lnxPieLoadBase) ∧ elf.EntryInRange ∧ elf.load.run t = (.ok info, t') := by
  rw [loadElf, (Prog.Exact.lift h.exact_readHeader).bind_eq_ok]
  dsimp only [header]
  rw [(Prog.Exact.lift h.exact_loadBase).bind_eq_ok, (Prog.Exact.lift exact_entryPoint).bind_eq_ok]
  rfl

theorem not_panics_loadElf : ¬(loadElf elf).Panics t ↔ elf.LoadSafe t := by
  have hload : (elf.Dyn → elf.HeadersInFile ∧ elf.lowest ≤ lnxPieLoadBase) → _ :=
    fun hready => Placeable.panics_load (t := t) ⟨h, fun hd => (hready hd).2⟩
  have htyped : elf.Dyn → elf.Typed := .inr
  have hfile : (∀ k, k < elf.phnum → elf.Sound k) → elf.HeadersInFile := fun hs k hk => (hs k hk).inFile
  have hdyn : elf.Relocates → elf.Dyn := And.left
  rw [h.panics_loadElf]
  constructor
  · intro hnp
    exact ⟨by grind, by grind, by grind, by grind⟩
  · rintro ⟨hpie, hentry, hpages, hrelocs⟩
    grind

theorem loadElf_completes : (loadElf elf).Completes t ↔ elf.Loads t := by
  simp only [Prog.Completes, h.loadElf_eq_ok]
  constructor
  · rintro ⟨info, t', ht, hready, hrange, hrun⟩
    obtain ⟨hgood, hrel⟩ := (Placeable.load_completes ⟨h, fun hd => (hready hd).2⟩).mp ⟨info, t', hrun⟩
    exact ⟨ht, fun hd => (hready hd).2, hrange, fun k hk => (hgood k hk).1, fun k hk => (hgood k hk).2, hrel⟩
  · intro hl
    have hplace : elf.Placeable := ⟨h, hl.pie⟩
    obtain ⟨info, t', hrun⟩ := hplace.load_completes.mpr ⟨fun k hk => ⟨hl.sound k hk, hl.clear k hk⟩, hl.relocs⟩
    exact ⟨info, t', hl.typed, fun hd => ⟨fun k hk => (hl.sound k hk).inFile, hl.pie hd⟩, hl.entry, hrun⟩

section

variable (hrun : (loadElf elf).run t = (.ok info, t'))
include hrun

theorem loadElf_run : elf.Loads t ∧ elf.load.run t = (.ok info, t') :=
  ⟨h.loadElf_completes.mp ⟨_, _, hrun⟩, (h.loadElf_eq_ok.mp hrun).2.2.2⟩

theorem loadElf_laid : elf.Laid t' := by
  have ⟨hl, hload⟩ := h.loadElf_run hrun
  exact Placeable.load_laid ⟨h, hl.pie⟩ hload

theorem loadElf_pages (hp : ∀ j, j < elf.phnum → elf.IsLoad j → ¬elf.Holds j p) : t'.pages p = t.pages p := by
  have ⟨hl, hload⟩ := h.loadElf_run hrun
  exact Placeable.load_pages ⟨h, hl.pie⟩ hload hp

end

end Placed

theorem Placeable.clear_congr (h : elf.Placeable) (hk : k < elf.phnum)
    (hm : ∀ p, p < userMaxAddr / pageSize → (t.Mapped p ↔ s.Mapped p)) : elf.Clear t k ↔ elf.Clear s k := by
  refine forall₂_congr fun _ hl => forall₂_congr fun p hp => and_congr_left fun _ => not_congr (hm p ?_)
  have := (h.bounds hk hl).2
  have := Nat.div_le_div_right (c := pageSize) this
  unfold Holds at hp
  omega

section

variable (h : elf.Placed)
include h

theorem Placed.loadSafe_congr (hm : ∀ p, p < userMaxAddr / pageSize → (t.Mapped p ↔ s.Mapped p)) :
    elf.LoadSafe t ↔ elf.LoadSafe s := by
  have himp {t s : Space} (hm : ∀ p, p < userMaxAddr / pageSize → (t.Mapped p ↔ s.Mapped p)) (hs : elf.LoadSafe t) : elf.LoadSafe s :=
    ⟨hs.pie, hs.entry, fun ht hf he k hk hj =>
      (Placeable.clear_congr ⟨h, fun hd => hs.pie hd (hf hd)⟩ hk hm).mp (hs.pages ht hf he k hk hj), hs.relocs⟩
  exact ⟨himp hm, himp fun p hp => (hm p hp).symm⟩

theorem Placed.loads_congr (hm : ∀ p, p < userMaxAddr / pageSize → (t.Mapped p ↔ s.Mapped p)) :
    elf.Loads t ↔ elf.Loads s := by
  have himp {t s : Space} (hm : ∀ p, p < userMaxAddr / pageSize → (t.Mapped p ↔ s.Mapped p)) (hl : elf.Loads t) : elf.Loads s :=
    ⟨hl.typed, hl.pie, hl.entry, hl.sound, fun k hk => (Placeable.clear_congr ⟨h, hl.pie⟩ hk hm).mp (hl.clear k hk), hl.relocs⟩
  exact ⟨himp hm, himp fun p hp => (hm p hp).symm⟩

end

-- The image passes the checks that are made before anything changes.
structure Admitted (elf : Image) (s : Space) : Prop where
  placed : elf.Placed
  apart : overlaps elf.region s.regions = false

structure Harmless (elf : Image) (argv : List Bytes) (s : Space) : Prop where
  -- The program header table does not begin in the last four bytes of the address space.
  table : elf.Elf64 → 56 ≤ elf.phentsize → 0 < elf.phnum → elf.phoff + 4 < 2 ^ 64
  -- The segments of a position-independent image reach less than 2^64 - 32 MiB far.
  extent : elf.Elf64 → 56 ≤ elf.phentsize → (∀ i, i < elf.phnum → elf.Scannable i) → elf.lowest ≠ 2 ^ 64 - 1 →
    elf.Dyn → lnxPieLoadBase + (elf.highest - elf.lowest) < 2 ^ 64
  -- The next stack slot has an address, and its pages are free.
  stack : elf.Admitted s → stackTop s.slots < 2 ^ 64 ∧ ∀ k, k < userStackPages → StackFree s (stackTop s.slots) k
  load : elf.Admitted s → elf.LoadSafe s
  -- The lengths of the arguments can be added up.
  args : elf.Admitted s → elf.Loads s → budget argv < 2 ^ 64

end Image

theorem exact_checkRegion : Exact (checkRegion elf s.regions) (Panics (elfRegion elf)) (elf.Admitted s) elf.region := by
  have hnot {f} (hr : elfRegion elf = .error f) : ¬elf.Placed :=
    fun hp => nomatch hr.symm.trans (Image.exact_elfRegion.of_good hp)
  unfold checkRegion
  match hr : elfRegion elf with
  | .error .panic => exact ⟨iff_of_true rfl rfl, iff_of_false nofun fun ha => hnot hr ha.1.placed⟩
  | .error (.err _) => exact ⟨iff_of_false nofun nofun, iff_of_false nofun fun ha => hnot hr ha.1.placed⟩
  | .ok region =>
    obtain ⟨hp, rfl⟩ := Image.exact_elfRegion.eq_ok.mp hr
    refine .congr (.ite (fun _ => .fail) fun _ => .ok) (by simp [Panics]) ?_
    simp only [and_false, and_true, false_or, Bool.not_eq_true]
    exact ⟨fun ho => ⟨hp, ho⟩, Image.Admitted.apart⟩

theorem stackTop_mod16 (slot : Nat) : stackTop slot % 16 = 0 := by
  unfold stackTop
  omega

theorem stackTop_ge' (slot : Nat) : 65536 ≤ stackTop slot := by
  unfold stackTop
  omega

def Space.withStack (s : Space) : Space :=
  s.nextSlot.setPages (stackPage (stackTop s.slots)) userStackPages dataFlags

theorem Space.doubled_nextSlot : s.nextSlot.doubled = s.doubled :=
  rfl

theorem Space.doubled_setPages : (s.setPages first n flags).doubled = s.doubled :=
  rfl

theorem Space.doubled_withStack : s.withStack.doubled = s.doubled := by
  rw [withStack, doubled_setPages, doubled_nextSlot]

theorem stackPage_ge (slot : Nat) : userMaxAddr / pageSize ≤ stackPage (stackTop slot) := by
  unfold stackPage stackTop userStackPages userMaxAddr
  rw [pageSize_eq]
  omega

theorem mapped_withStack (hp : p < userMaxAddr / pageSize) : s.withStack.Mapped p ↔ s.Mapped p := by
  have := stackPage_ge s.slots
  rw [Space.withStack, Space.mapped_setPages, or_iff_right (by omega)]
  exact Iff.rfl

theorem spawnBytes_of_not_admitted (ha : ¬elf.Admitted s) :
    ∃ f, ∀ tsc argv, (spawnBytes tsc elf argv).run s = (.error f, s) := by
  match hr : checkRegion elf s.regions with
  | .ok r => exact absurd (exact_checkRegion.eq_ok.mp hr).1 ha
  | .error f =>
    refine ⟨f, fun tsc argv => ?_⟩
    rw [spawnBytes, read_bind_run, hr]
    rfl

theorem spawnBytes_of_stack (ha : elf.Admitted s) (htop : stackTop s.slots < 2 ^ 64)
    (hfree : ∀ k, k < userStackPages → StackFree s (stackTop s.slots) k) :
    (spawnBytes tsc elf argv).run s = (do
      let info ← loadElf elf
      let rsp ← buildInitialStack tsc (stackTop s.slots) argv info
      Prog.modify fun t => { t with regions := t.regions ++ [elf.region] }
      registerTask info.entry rsp elf.linuxAbi).run s.withStack := by
  have hmap : (mapStack (stackTop s.slots) : LoadM Unit).run s.nextSlot = (.ok (), s.withStack) :=
    (exact_mapStack (stackTop_mod _) (stackTop_ge _)).of_good hfree
  rw [spawnBytes, read_bind_run, exact_checkRegion.of_good ha, lift_ok_bind_run, bind_run_ok takeSlot_run,
    exact_userStackTop.of_good htop, lift_ok_bind_run, bind_run_ok hmap]

theorem stackReady_of_loadElf (hp : elf.Placed) (hrun : (loadElf elf).run s.withStack = (.ok info, t')) :
    StackReady t' (stackTop s.slots) := by
  intro a hlo hhi
  have hin : stackPage (stackTop s.slots) ≤ a / pageSize ∧
      a / pageSize < stackPage (stackTop s.slots) + userStackPages := by
    have h1 := stackTop_mod s.slots
    have h2 := stackTop_ge s.slots
    unfold stackPage
    rw [pageSize_eq] at *
    unfold userStackPages at *
    omega
  have hout : ∀ j, j < elf.phnum → elf.IsLoad j → ¬elf.Holds j (a / pageSize) := by
    intro j hj hl hh
    have hplace : elf.Placeable := ⟨hp, (hp.loadElf_completes.mp ⟨_, _, hrun⟩).pie⟩
    have hb := Nat.div_le_div_right (c := pageSize) (hplace.bounds hj hl).2
    have := stackPage_ge s.slots
    unfold Image.Holds at hh
    omega
  rw [Space.Writable, hp.loadElf_pages hrun hout, Space.withStack, Space.pages_setPages, if_pos hin]
  rfl

theorem panics_spawnBytes : (spawnBytes tsc elf argv).Panics s ↔ Panics (elfRegion elf) ∨ elf.Admitted s ∧
    (2 ^ 64 ≤ stackTop s.slots ∨ stackTop s.slots < 2 ^ 64 ∧
      ((∃ k, k < userStackPages ∧ ¬StackFree s (stackTop s.slots) k) ∨
        (∀ k, k < userStackPages → StackFree s (stackTop s.slots) k) ∧
          (¬elf.LoadSafe s ∨ elf.Loads s ∧ 2 ^ 64 ≤ budget argv))) := by
  have hcheck : (Prog.read fun s => checkRegion elf s.regions : LoadM _).Exact s _ _ _ _ := .read exact_checkRegion
  rw [spawnBytes, hcheck.panics_bind]
  refine or_congr_right (and_congr_right fun ha => ?_)
  rw [(Prog.Exact.of_run takeSlot_run).panics_bind, false_or, true_and, (Prog.Exact.lift exact_userStackTop).panics_bind,
    (exact_mapStack (stackTop_mod _) (stackTop_ge _)).panics_bind, Prog.panics_bind]
  refine or_congr_right (and_congr_right fun _ => or_congr_right (and_congr_right fun _ => or_congr ?_ ?_))
  · rw [← ha.placed.loadSafe_congr fun p => mapped_withStack, ← ha.placed.not_panics_loadElf, not_not]
    rfl
  · rw [← ha.placed.loads_congr fun p => mapped_withStack, ← ha.placed.loadElf_completes, Prog.Completes]
    simp only [← exists_and_right]
    refine exists_congr fun info => exists_congr fun t' => and_congr_right fun hrun => ?_
    rw [Prog.panics_bind, (stackReady_of_loadElf ha.placed hrun).panics_buildInitialStack (stackTop_mod16 _) (stackTop_ge' _)]
    exact or_iff_left (by rintro ⟨_, _, _, ⟨⟩⟩)

theorem not_panics_spawnBytes : ¬(spawnBytes tsc elf argv).Panics s ↔ elf.Harmless argv s := by
  have hbase : lnxPieLoadBase < 2 ^ 64 := by decide
  rw [panics_spawnBytes, Image.exact_elfRegion.panics]
  constructor
  · intro hnp
    exact ⟨by grind, by grind, by grind, by grind, by grind⟩
  · rintro ⟨htable, hextent, hstack, hload, hargs⟩
    grind

-- `spawn_bytes` ends in Ok or Err iff the image is harmless there.
theorem spawnBytes_total_iff (tsc : UInt64) (elf : Image) (argv : List Bytes) (s : Space) :
    ((∃ pid, ((spawnBytes tsc elf argv).run s).1 = .ok pid) ∨ ∃ e, ((spawnBytes tsc elf argv).run s).1 = fail e) ↔
      elf.Harmless argv s := by
  have hiff : ¬(spawnBytes tsc elf argv).Panics s ↔ elf.Harmless argv s := not_panics_spawnBytes
  rw [← hiff]
  unfold Prog.Panics
  match ((spawnBytes tsc elf argv).run s).1 with
  | .ok pid => exact iff_of_true (.inl ⟨pid, rfl⟩) not_panics_ok
  | .error (.err e) => exact iff_of_true (.inr ⟨e, rfl⟩) not_panics_err
  | .error .panic => exact iff_of_false (fun h => h.elim (fun ⟨_, h⟩ => nomatch h) fun ⟨_, h⟩ => nomatch h) (not_not_intro rfl)

def Space.blank : Space where
  pages := fun _ => none
  memory := fun _ => 0
  regions := []
  slots := 0
  linuxMem := []
  nextPid := 1
  tasks := []
  doubled := false

def linuxImage (mib : UInt8) : Image where
  bytes := [0x7F, 0x45, 0x4C, 0x46, 2, 1, 1, 0, 0, 0, 0, 0, 0, 0, 0, 0, 2, 0, 0x3E, 0, 1, 0, 0, 0, 0, 0, mib, 0, 0, 0, 0, 0,
    64, 0, 0, 0, 0, 0, 0, 0, 0, 0, 0, 0, 0, 0, 0, 0, 0, 0, 0, 0, 64, 0, 56, 0, 1, 0, 64, 0, 0, 0, 0, 0,
    1, 0, 0, 0, 5, 0, 0, 0, 0, 0, 0, 0, 0, 0, 0, 0, 0, 0, mib, 0, 0, 0, 0, 0, 0, 0, mib, 0, 0, 0, 0, 0,
    128, 0, 0, 0, 0, 0, 0, 0, 128, 0, 0, 0, 0, 0, 0, 0, 0, 0x10, 0, 0, 0, 0, 0, 0,
    0x4F, 0x4E, 0x59, 0x58, 0x4C, 0x4E, 0x58, 0x00]
  small := by simp

-- A header whose program header table starts one byte below the end of the address space.
def farTable : Image where
  bytes := [0x7F, 0x45, 0x4C, 0x46, 2, 1, 1, 0, 0, 0, 0, 0, 0, 0, 0, 0, 2, 0, 0x3E, 0, 1, 0, 0, 0, 0x10, 0, 0x40, 0, 0, 0, 0, 0,
    0xFF, 0xFF, 0xFF, 0xFF, 0xFF, 0xFF, 0xFF, 0xFF, 0, 0, 0, 0, 0, 0, 0, 0, 0, 0, 0, 0, 64, 0, 56, 0, 1, 0, 64, 0, 0, 0, 0, 0]
  small := by decide

theorem spawnBytes_panics_on_farTable : ¬((∃ pid, ((spawnBytes 0 farTable []).run .blank).1 = .ok pid) ∨
      ∃ e, ((spawnBytes 0 farTable []).run .blank).1 = fail e) := by
  have hpanic : ((spawnBytes 0 farTable []).run .blank).1 = .error .panic := by
    with_unfolding_all rfl
  rw [hpanic]
  rintro (⟨_, h⟩ | ⟨_, h⟩) <;> cases h

end Userspace
