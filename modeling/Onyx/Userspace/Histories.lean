import Onyx.Lib.Execution
import Onyx.Userspace.Contents
import Onyx.Userspace.Owners

-- Which histories are safe: sound programs below the Linux arenas, and one task that uses each of the two arenas.

open Lib List

namespace Userspace

variable {elf : Image} {s t : Space} {argv : List Bytes} {w : World} {cursor : LinuxMem → Nat}

-- A program that the loader takes wherever its pages are free: its segments share no page and end below the arenas.
structure Image.Orderly (elf : Image) (argv : List Bytes) : Prop where
  typed : elf.Typed
  pie : elf.Dyn → elf.lowest ≤ lnxPieLoadBase
  entry : elf.EntryInRange
  sound : ∀ k, k < elf.phnum → elf.Sound k
  relocs : elf.Relocates → elf.TableAccepted ∧ elf.TableSafe
  apart : ∀ k, k < elf.phnum → elf.IsLoad k → ∀ p, elf.Holds k p → ∀ j, j < k → elf.IsLoad j → ¬elf.Holds j p
  below : elf.region.2 ≤ linuxHeapBase
  args : budget argv ≤ 65536

namespace Call

def Orderly (heap mmap : Nat) : Call → Prop
  | spawn _ elf argv => elf.Placed → elf.Orderly argv
  | brk pid addr => linuxHeapBase < addr → addr < linuxMmapBase → pid = heap
  | .mmap pid len => len ≠ 0 → pid = mmap
  | _ => True

def isSpawn : Call → Bool
  | spawn .. => true
  | _ => false

end Call

def Space.Live (s : Space) (pid : Nat) : Prop := ∃ x ∈ s.tasks, x.pid = pid

-- The page is below the cursor of the task, as long as the task is there.
def Space.Under (s : Space) (pid : Nat) (cursor : LinuxMem → Nat) (p : Nat) : Prop :=
  pid < s.nextPid ∧ (s.Live pid → p * pageSize < cursor (s.entry pid))

-- what the only task that maps memory has mapped, or in one of the stacks.
def Space.Taken (s : Space) (heap mmap p : Nat) : Prop :=
  (∃ r ∈ s.regions, r.2 ≤ linuxHeapBase ∧ r.1 ≤ p * pageSize ∧ p * pageSize < r.2) ∨
  linuxHeapBase ≤ p * pageSize ∧ p * pageSize < linuxMmapBase ∧ s.Under heap LinuxMem.brk p ∨
  linuxMmapBase ≤ p * pageSize ∧ p * pageSize < linuxMmapEnd ∧ s.Under mmap LinuxMem.mmap p ∨
  linuxMmapEnd ≤ p * pageSize ∧ p * pageSize + userStackPages * pageSize < stackTop s.slots

structure Served (heap mmap spawned : Nat) (s : Space) (granted : List (Owner × List Nat)) (t : Space) : Prop where
  mapped : ∀ {p}, t.Mapped p ↔ s.Mapped p ∨ ∃ g ∈ granted, p ∈ g.2
  fresh : ∀ g ∈ granted, ∀ p ∈ g.2, ¬s.Mapped p ∧ t.Taken heap mmap p
  apart : granted.Pairwise fun a b => a.2.Disjoint b.2
  cursors : t.CursorsPlaced
  mapOnce : t.doubled = s.doubled
  regions : ∀ r ∈ s.regions, r ∈ t.regions
  slots : s.slots ≤ t.slots ∧ t.slots ≤ s.slots + spawned
  nextPid : s.nextPid ≤ t.nextPid
  tasks : ∀ {pid}, t.Live pid → s.nextPid ≤ pid ∧ pid < t.nextPid ∨
    s.Live pid ∧ (s.entry pid).brk ≤ (t.entry pid).brk ∧ (s.entry pid).mmap ≤ (t.entry pid).mmap

structure World.Settled (w : World) (heap mmap limit : Nat) : Prop where
  taken : ∀ p, userTextBase ≤ p * pageSize → p * pageSize < limit → w.space.Mapped p → w.space.Taken heap mmap p
  owned : ∀ g ∈ w.given, ∀ p ∈ g.2, w.space.Mapped p
  apart : w.given.Pairwise fun a b => a.2.Disjoint b.2
  cursors : w.space.CursorsPlaced
  mapOnce : w.space.doubled = false
  pids : ∀ {pid}, w.space.Live pid → pid < w.space.nextPid

theorem stackTop_mono (h : m ≤ n) : stackTop m ≤ stackTop n :=
  Nat.add_le_add_left (Nat.mul_le_mul_right _ h) _

theorem mem_stackPages : p ∈ stackPages slot ↔
    stackTop slot ≤ p * pageSize + userStackPages * pageSize ∧ p * pageSize < stackTop slot := by
  unfold stackPages stackPage stackTop userStackPages
  rw [mem_range'_1, pageSize_eq]
  omega

theorem mmapEnd_le_stack (slot : Nat) : linuxMmapEnd + userStackPages * pageSize ≤ stackTop slot := by
  unfold linuxMmapEnd userStackPages stackTop
  rw [pageSize_eq]
  omega

theorem stack_below_next (h : a < stackTop slot) : a + userStackPages * pageSize < stackTop (slot + 1) := by
  unfold userStackPages stackTop at *
  rw [pageSize_eq]
  omega

theorem arenas : userTextBase ≤ linuxHeapBase ∧ linuxHeapBase ≤ linuxMmapBase ∧ linuxMmapBase ≤ linuxMmapEnd := by decide

namespace Space

theorem find_enlist : ∃ e, (s.enlist q).linuxMem.find? (·.pid = q) = some e := by
  unfold enlist
  dsimp only
  split
  case h_1 e hf => exact ⟨e, hf⟩
  case h_2 hf => exact ⟨s.entry q, by simp [find?_append, hf, Space.entry]⟩

theorem entry_enlist : (s.enlist q).entry pid = s.entry pid := by
  unfold enlist Space.entry
  dsimp only
  split
  case h_1 => rfl
  case h_2 hf =>
    rw [find?_append]
    by_cases hp : pid = q
    · simp [hp, hf]
    · simp [hf, Ne.symm hp]

theorem find_setFirst {l : List LinuxMem} : (setFirst q brk mmap l).find? (·.pid = pid) =
    if pid = q then (l.find? (·.pid = q)).map fun _ => ⟨q, brk, mmap⟩ else l.find? (·.pid = pid) := by
  induction l with
  | nil => simp [setFirst]
  | cons e l ih =>
    unfold setFirst
    by_cases he : e.pid = q
    · by_cases hp : pid = q
      · simp [he, hp]
      · simp [he, hp, Ne.symm hp]
    · by_cases hp : e.pid = pid
      · have hne : pid ≠ q := hp ▸ he
        simp [hp, hne]
      · simp [he, hp, ih]

theorem entry_served : (s.served q first n brk mmap).entry pid = if pid = q then ⟨q, brk, mmap⟩ else s.entry pid := by
  have ⟨e, he⟩ := find_enlist (s := s) (q := q)
  have hfind : (s.served q first n brk mmap).linuxMem.find? (·.pid = pid) =
      if pid = q then some ⟨q, brk, mmap⟩ else (s.enlist q).linuxMem.find? (·.pid = pid) := by
    refine find_setFirst.trans ?_
    split
    · exact congrArg (Option.map _) he
    · rfl
  rw [Space.entry, hfind]
  split
  · rfl
  · exact entry_enlist

theorem entry_of_filter (hne : pid ≠ q) :
    Space.entry { s with linuxMem := s.linuxMem.filter (·.pid ≠ q), tasks := ts } pid = s.entry pid := by
  unfold Space.entry
  rw [find?_filter]
  congr 2
  ext e
  by_cases hp : e.pid = pid
  · simp [hp, hne]
  · simp [hp]

end Space

theorem mem_setFirst : ∀ {l : List LinuxMem}, e ∈ setFirst pid brk mmap l → e ∈ l ∨ e = ⟨pid, brk, mmap⟩
  | [], he => .inl he
  | e' :: l, he => by
    rw [setFirst] at he
    split at he
    · rcases mem_cons.mp he with he | he
      · exact .inr he
      · exact .inl (mem_cons_of_mem _ he)
    · rcases mem_cons.mp he with he | he
      · exact .inl (he ▸ mem_cons_self ..)
      · exact (mem_setFirst he).imp_left (mem_cons_of_mem _)

namespace Served

variable {heap mmap : Nat}

theorem under (h : Served heap mmap k s granted t) (hu : s.Under pid cursor p)
    (hc : ∀ {e e' : LinuxMem}, e.brk ≤ e'.brk → e.mmap ≤ e'.mmap → cursor e ≤ cursor e') : t.Under pid cursor p := by
  refine ⟨hu.1.trans_le h.nextPid, fun hl => ?_⟩
  rcases h.tasks hl with ⟨hnew, _⟩ | ⟨hold, hb, hm⟩
  · exact absurd hu.1 (Nat.not_lt_of_le hnew)
  · exact (hu.2 hold).trans_le (hc hb hm)

theorem taken (h : Served heap mmap k s granted t) : s.Taken heap mmap p → t.Taken heap mmap p := by
  rintro (⟨r, hr, hin⟩ | ⟨hlo, hhi, hu⟩ | ⟨hlo, hhi, hu⟩ | ⟨hlo, hhi⟩)
  · exact .inl ⟨r, h.regions r hr, hin⟩
  · exact .inr (.inl ⟨hlo, hhi, h.under hu fun hb _ => hb⟩)
  · exact .inr (.inr (.inl ⟨hlo, hhi, h.under hu fun _ hm => hm⟩))
  · exact .inr (.inr (.inr ⟨hlo, hhi.trans_le (stackTop_mono h.slots.1)⟩))

-- A call that changes cursors and tasks only, and gives nothing to anybody.
theorem still (h : ∀ e ∈ l, LinuxMem.Placed e) (hg : ∀ g ∈ granted, g.2 = [])
    (hl : ∀ {pid}, Space.Live { s with linuxMem := l, tasks := ts } pid →
      s.Live pid ∧ Space.entry { s with linuxMem := l, tasks := ts } pid = s.entry pid) :
    Served heap mmap k s granted { s with linuxMem := l, tasks := ts } where
  mapped := by
    refine (or_iff_left ?_).symm
    rintro ⟨g, hmem, hp⟩
    rw [hg g hmem] at hp
    cases hp
  fresh g hmem p hp := by
    rw [hg g hmem] at hp
    cases hp
  apart := by
    refine pairwise_of_forall_mem_list fun a ha b _ => ?_
    rw [hg a ha]
    exact disjoint_nil_left _
  cursors := h
  mapOnce := rfl
  regions _ := id
  slots := ⟨Nat.le_refl _, Nat.le_add_right ..⟩
  nextPid := Nat.le_refl _
  tasks hlive := .inr ⟨(hl hlive).1, (hl hlive).2 ▸ ⟨Nat.le_refl _, Nat.le_refl _⟩⟩

theorem enlist (h : s.CursorsPlaced) (hg : ∀ g ∈ granted, g.2 = []) : Served heap mmap k s granted (s.enlist q) :=
  .still h.enlist hg fun hl => ⟨hl, Space.entry_enlist⟩

theorem of_range (h : s.CursorsPlaced) (he : LinuxMem.Placed ⟨q, brk, top⟩) (hfree : ∀ p ∈ range' first n, ¬s.Mapped p)
    (hle : (s.entry q).brk ≤ brk ∧ (s.entry q).mmap ≤ top)
    (hat : ∀ p ∈ range' first n, (s.served q first n brk top).Taken heap mmap p) :
    Served heap mmap k s [(owner, range' first n)] (s.served q first n brk top) where
  mapped := by
    refine Space.mapped_setPages.trans (or_comm.trans (or_congr Iff.rfl ?_))
    simp [mem_range'_1]
  fresh := by
    simp only [mem_singleton, forall_eq]
    exact fun p hp => ⟨hfree p hp, hat p hp⟩
  apart := pairwise_singleton ..
  cursors := by
    intro e hmem
    rcases mem_setFirst hmem with hmem | rfl
    · exact h.enlist e hmem
    · exact he
  mapOnce := rfl
  regions _ := id
  slots := ⟨Nat.le_refl _, Nat.le_add_right ..⟩
  nextPid := Nat.le_refl _
  tasks hlive := by
    refine .inr ⟨hlive, ?_⟩
    rw [Space.entry_served]
    split_ifs with heq
    · exact heq ▸ hle
    · exact ⟨Nat.le_refl _, Nat.le_refl _⟩

end Served

theorem Image.Placed.mapped_loadElf (h : elf.Placed) (hrun : (loadElf elf).run s = (.ok info, t)) :
    t.Mapped p ↔ s.Mapped p ∨ p ∈ elf.pages := by
  by_cases hp : p ∈ elf.pages
  · have ⟨j, hj, hl, hh⟩ := Image.mem_pages.mp hp
    rw [Space.Mapped, h.loadElf_laid hrun j hj hl p hh]
    exact iff_of_true rfl (.inr hp)
  · rw [Space.Mapped, h.loadElf_pages hrun fun j hj hl hh => hp (Image.mem_pages.mpr ⟨j, hj, hl, hh⟩)]
    exact (or_iff_left hp).symm

-- An orderly program is loaded if its pages and its stack are free.
theorem served_spawn (h : s.CursorsPlaced) (ha : elf.Admitted s) (ho : elf.Orderly argv) (htop : stackTop s.slots ≤ 2 ^ 47)
    (himage : ∀ p ∈ elf.pages, ¬s.Mapped p) (hstack : ∀ p ∈ stackPages s.slots, ¬s.Mapped p) :
    ∃ pid t, (spawnBytes tsc elf argv).run s = (.ok pid, t) ∧
      Served heap mmap 1 s [(.image n, elf.pages), (.stack n, stackPages s.slots)] t := by
  have hfree (k : Nat) (hk : k < userStackPages) : StackFree s (stackTop s.slots) k := by
    refine ⟨.inl ?_, hstack _ (mem_range'_1.mpr ?_)⟩
    · rw [pageSize_eq]
      omega
    · have := userStackPages_le s.slots
      unfold stackPage
      omega
  have hloads : elf.Loads s := ⟨ho.typed, ho.pie, ho.entry, ho.sound, fun k hk _ hl p hh =>
    ⟨himage p (Image.mem_pages.mpr ⟨k, hk, hl, hh⟩), ho.apart k hk hl p hh⟩, ho.relocs⟩
  obtain ⟨info, t, hload⟩ := ha.placed.loadElf_completes.mpr
    ((ha.placed.loads_congr fun p => mapped_withStack).mpr hloads)
  have hready := stackReady_of_loadElf ha.placed hload
  have hbooks : t.books = s.withStack.books := booked_loadElf.of_run hload
  rw [Space.withStack, Space.books_setPages] at hbooks
  simp only [Space.books, Prod.mk.injEq] at hbooks
  obtain ⟨hregions, hslots, hnext, htasks, hcursors⟩ := hbooks
  have hslot : t.slots = s.slots + 1 := by
    refine hslots.trans (Nat.mod_eq_of_lt ?_)
    unfold stackTop at htop
    omega
  obtain ⟨m, hm⟩ : ∃ m, t.withStart tsc (stackTop s.slots) argv info = { t with memory := m } := by
    unfold Space.withStart Space.setMemory
    exact ⟨_, rfl⟩
  rw [spawnBytes_of_stack ha (by omega) hfree, bind_run_ok hload,
    bind_run_ok (hready.buildInitialStack_run (stackTop_mod16 _) (stackTop_ge' _) ho.args), hm]
  refine ⟨_, _, rfl, ?_⟩
  have hinside {p : Nat} (hp : p ∈ elf.pages) : elf.region.1 ≤ p * pageSize ∧ p * pageSize < elf.region.2 := by
    obtain ⟨j, hj, hl, hh⟩ := Image.mem_pages.mp hp
    obtain ⟨h1, h2⟩ := Image.Placeable.pageInside ⟨ha.placed, ho.pie⟩ hj hl hh
    rw [pageSize_eq] at *
    omega
  have habove := mmapEnd_le_stack s.slots
  constructor
  case mapped =>
    intro p
    refine (ha.placed.mapped_loadElf hload).trans ?_
    rw [Space.withStack, Space.mapped_setPages, ← mem_range'_1]
    simp only [mem_cons, not_mem_nil, or_false, exists_eq_or_imp, exists_eq_left]
    exact or_assoc.trans (or_comm.trans or_assoc)
  case fresh =>
    simp only [mem_cons, not_mem_nil, or_false, forall_eq_or_imp, forall_eq]
    constructor
    · exact fun p hp => ⟨himage p hp, .inl ⟨_, mem_append_right _ (mem_singleton_self _), ho.below, hinside hp⟩⟩
    · intro p hp
      obtain ⟨hlo, hhi⟩ := mem_stackPages.mp hp
      exact ⟨hstack p hp, .inr (.inr (.inr ⟨by omega, hslot ▸ stack_below_next hhi⟩))⟩
  case apart =>
    refine pairwise_pair.mpr fun p hi hs => ?_
    have hlt := (hinside hi).2.trans_le ho.below
    have hle := (mem_stackPages.mp hs).1
    have := arenas
    omega
  case cursors => exact h.congr hcursors
  case mapOnce => exact ((grows_loadElf.of_run hload).doubled.resolve_right (by rintro ⟨⟩)).trans Space.doubled_withStack
  case regions => exact fun r hr => mem_append_left _ (hregions ▸ hr)
  case slots => exact ⟨(Nat.le_succ _).trans hslot.ge, hslot.le⟩
  case nextPid => exact hnext.ge.trans (Nat.le_succ _)
  case tasks =>
    rintro pid ⟨x, hx, rfl⟩
    rcases mem_append.mp hx with hx | hx
    · have hentry : t.entry x.pid = s.entry x.pid := by
        rw [Space.entry, hcursors]
        rfl
      exact .inr ⟨⟨x, htasks ▸ hx, rfl⟩, (congrArg LinuxMem.brk hentry).ge, (congrArg LinuxMem.mmap hentry).ge⟩
    · rw [mem_singleton.mp hx]
      exact .inl ⟨hnext.ge, Nat.lt_succ_self _⟩

theorem mem_pages_from (ha : a % pageSize = 0) (hp : p ∈ range' (a / pageSize) n) :
    a ≤ p * pageSize ∧ p * pageSize < a + n * pageSize := by
  have := mem_range'_1.mp hp
  rw [pageSize_eq] at *
  omega

theorem mem_heapPages (he : (s.entry pid).Placed) (hp : p ∈ heapPages s pid addr) : linuxHeapBase < addr ∧
    addr < linuxMmapBase ∧ (s.entry pid).brk ≤ p * pageSize ∧ p * pageSize < linuxMmapBase := by
  unfold heapPages at hp
  split at hp
  · cases hp
  case isFalse hn =>
  have ⟨h1, h2⟩ := mem_range'_1.mp hp
  have ⟨hmod, _, hlo, _, _, _⟩ := he
  unfold pageDown at h2
  rw [pageMask_eq] at h2
  rw [pageSize_eq] at *
  unfold linuxHeapBase linuxMmapBase at *
  omega

theorem mem_mmapPages (he : (s.entry pid).Placed) (hp : p ∈ mmapPages s pid len) :
    len ≠ 0 ∧ (s.entry pid).mmap ≤ p * pageSize ∧ p * pageSize < linuxMmapEnd := by
  unfold mmapPages at hp
  split at hp
  · cases hp
  case isFalse hn =>
  have ⟨h1, h2⟩ := mem_range'_1.mp hp
  have hmod := he.mmap
  rw [pageSize_eq] at *
  omega

namespace World.Settled

variable {heap mmap limit : Nat}

theorem of_fresh (h : w.Fresh limit) : w.Settled heap mmap limit where
  taken p hlo hhi hm := absurd hm (h.pages p hlo hhi)
  owned := by rw [h.given]; nofun
  apart := by rw [h.given]; exact .nil
  cursors := by unfold Space.CursorsPlaced; rw [h.cursors]; nofun
  mapOnce := h.mapOnce
  pids := by
    rintro pid ⟨x, hx, _⟩
    rw [h.tasks] at hx
    cases hx

variable (h : w.Settled heap mmap limit)

include h

theorem extend (hs : Served heap mmap k w.space granted t) : Settled ⟨t, w.given ++ granted⟩ heap mmap limit where
  taken p hlo hhi hm := by
    rcases hs.mapped.mp hm with hm | ⟨g, hg, hp⟩
    · exact hs.taken (h.taken p hlo hhi hm)
    · exact (hs.fresh g hg p hp).2
  owned g hg p hp := by
    rcases mem_append.mp hg with hg | hg
    · exact hs.mapped.mpr (.inl (h.owned g hg p hp))
    · exact hs.mapped.mpr (.inr ⟨g, hg, hp⟩)
  apart := by
    refine pairwise_append.mpr ⟨h.apart, hs.apart, fun a ha b hb p hpa hpb => ?_⟩
    exact (hs.fresh b hb p hpb).1 (h.owned a ha p hpa)
  cursors := hs.cursors
  mapOnce := hs.mapOnce.trans h.mapOnce
  pids hl := by
    rcases hs.tasks hl with ⟨_, hlt⟩ | ⟨hold, _⟩
    · exact hlt
    · exact (h.pids hold).trans_le hs.nextPid

theorem disjoint : w.Disjoint where
  owners := by
    intro a ha b hb hne
    have : Std.Symm fun a b : Owner × List Nat => a.2.Disjoint b.2 := ⟨fun _ _ => disjoint_symm⟩
    exact h.apart.forall ha hb fun heq => hne (congrArg Prod.fst heq)
  mapOnce := h.mapOnce

theorem after_ok (hrun : c.exec.run w.space = (.ok v, t))
    (hs : Served heap mmap c.isSpawn.toNat w.space (c.grants w.space w.given.length) t) :
    (w.after c).Settled heap mmap limit ∧ (w.after c).space.slots ≤ w.space.slots + c.isSpawn.toNat := by
  rw [World.after, hrun]
  exact ⟨h.extend hs, hs.slots.2⟩

theorem after_error (hrun : c.exec.run w.space = (.error f, t)) (hs : Served heap mmap c.isSpawn.toNat w.space [] t) :
    (w.after c).Settled heap mmap limit ∧ (w.after c).space.slots ≤ w.space.slots + c.isSpawn.toNat := by
  rw [World.after, hrun]
  exact ⟨append_nil w.given ▸ h.extend hs, hs.slots.2⟩

variable (hroom : stackTop w.space.slots ≤ limit)

include hroom

theorem free_stack (hp : p ∈ stackPages w.space.slots) : ¬w.space.Mapped p := by
  have ⟨hlo, hhi⟩ := mem_stackPages.mp hp
  have habove := mmapEnd_le_stack w.space.slots
  have := arenas
  intro hm
  rcases h.taken p (by omega) (by omega) hm with ⟨r, _, hr, _, hin⟩ | ⟨_, hin, _⟩ | ⟨_, hin, _⟩ | ⟨_, hin⟩ <;> omega

theorem free_image (ha : elf.Admitted w.space) (hbelow : elf.region.2 ≤ linuxHeapBase) (hp : PageInside elf.region p) :
    ¬w.space.Mapped p := by
  have ⟨hlo, hhi⟩ := hp
  have hstart := ha.placed.above
  have habove := mmapEnd_le_stack w.space.slots
  have := arenas
  have hsize := pageSize_eq
  rw [add_mul] at hhi
  intro hm
  rcases h.taken p (by omega) (by omega) hm with ⟨r, hr, _, hin⟩ | ⟨hin, _⟩ | ⟨hin, _⟩ | ⟨hin, _⟩
  · have hno := any_eq_false.mp ha.apart r hr
    rw [decide_eq_true_eq] at hno
    omega
  all_goals omega

theorem free_heap (hl : w.space.Live heap) (hp : p ∈ heapPages w.space heap addr) : ¬w.space.Mapped p := by
  have he : (w.space.entry heap).Placed := h.cursors.entry
  have ⟨_, _, hlo, hhi⟩ := mem_heapPages he hp
  have hstart := he.brk_ge
  have habove := mmapEnd_le_stack w.space.slots
  have := arenas
  intro hm
  rcases h.taken p (by omega) (by omega) hm with ⟨r, _, hr, _, hin⟩ | ⟨_, _, hu⟩ | ⟨hin, _⟩ | ⟨hin, _⟩
  case inr.inl => exact absurd (hu.2 hl) (Nat.not_lt_of_le hlo)
  all_goals omega

theorem free_mmap (hl : w.space.Live mmap) (hp : p ∈ mmapPages w.space mmap len) : ¬w.space.Mapped p := by
  have he : (w.space.entry mmap).Placed := h.cursors.entry
  have ⟨_, hlo, hhi⟩ := mem_mmapPages he hp
  have hstart := he.mmap_ge
  have habove := mmapEnd_le_stack w.space.slots
  have := arenas
  intro hm
  rcases h.taken p (by omega) (by omega) hm with ⟨r, _, hr, _, hin⟩ | ⟨_, hin, _⟩ | ⟨_, _, hu⟩ | ⟨hin, _⟩
  case inr.inr.inl => exact absurd (hu.2 hl) (Nat.not_lt_of_le hlo)
  all_goals omega

-- Every call keeps the world settled, and only a spawn takes a stack.
theorem after (hlimit : limit ≤ 2 ^ 47) (hc : c.Orderly heap mmap) (ha : c.Allowed w.space) :
    (w.after c).Settled heap mmap limit ∧ (w.after c).space.slots ≤ w.space.slots + c.isSpawn.toNat := by
  cases c with
  | spawn tsc elf argv =>
    by_cases hadm : elf.Admitted w.space
    · have ho := hc hadm.placed
      have himage (p : Nat) (hp : p ∈ elf.pages) : ¬w.space.Mapped p := by
        have ⟨j, hj, hl, hh⟩ := Image.mem_pages.mp hp
        exact h.free_image hroom hadm ho.below (Image.Placeable.pageInside ⟨hadm.placed, ho.pie⟩ hj hl hh)
      obtain ⟨_, _, hrun, hs⟩ := served_spawn h.cursors hadm ho (hroom.trans hlimit) himage fun p => h.free_stack hroom
      exact h.after_ok hrun hs
    · obtain ⟨f, hrun⟩ := spawnBytes_of_not_admitted hadm
      exact h.after_error (hrun ..) (.still h.cursors nofun fun hl => ⟨hl, rfl⟩)
  | brk pid addr =>
    obtain ⟨x, hx, hpid, _⟩ := ha
    have hlive : w.space.Live pid := ⟨x, hx, hpid⟩
    have he : (w.space.entry pid).Placed := h.cursors.entry
    have hmine {p : Nat} (hp : p ∈ heapPages w.space pid addr) : pid = heap :=
      hc (mem_heapPages he hp).1 (mem_heapPages he hp).2.1
    have hfree (p : Nat) (hp : p ∈ heapPages w.space pid addr) : ¬w.space.Mapped p := by
      obtain rfl := hmine hp
      exact h.free_heap hroom hlive hp
    obtain ⟨v, ⟨hnone, hrun⟩ | ⟨n, hpages, hle, hrun⟩⟩ := brk_cases h.cursors hfree
    · exact h.after_ok hrun (.enlist h.cursors (by simp [Call.grants, hnone]))
    refine h.after_ok hrun ?_
    rw [hpages] at hfree hmine
    rw [Call.grants, hpages]
    refine .of_range h.cursors (he.with_brk hle) hfree ⟨Nat.le_add_right .., Nat.le_refl _⟩ fun p hp => .inr (.inl ?_)
    have ⟨hlo, hhi⟩ := mem_pages_from he.brk hp
    obtain rfl := hmine hp
    refine ⟨he.brk_ge.trans hlo, hhi.trans_le hle, h.pids hlive, fun _ => ?_⟩
    rwa [Space.entry_served, if_pos rfl]
  | mmap pid len =>
    obtain ⟨x, hx, hpid, _⟩ := ha
    have hlive : w.space.Live pid := ⟨x, hx, hpid⟩
    have he : (w.space.entry pid).Placed := h.cursors.entry
    have hmine {p : Nat} (hp : p ∈ mmapPages w.space pid len) : pid = mmap := hc (mem_mmapPages he hp).1
    have hfree (p : Nat) (hp : p ∈ mmapPages w.space pid len) : ¬w.space.Mapped p := by
      obtain rfl := hmine hp
      exact h.free_mmap hroom hlive hp
    rcases mmap_cases h.cursors hfree with ⟨hnone, v, t, hrun, ht⟩ | hrun | ⟨v, n, hpages, hle, hrun⟩
    · refine h.after_ok hrun ?_
      rw [Call.grants, hnone]
      rcases ht with rfl | rfl
      · exact .still h.cursors (by simp) fun hl => ⟨hl, rfl⟩
      · exact .enlist h.cursors (by simp)
    · exact h.after_error hrun (.enlist h.cursors nofun)
    refine h.after_ok hrun ?_
    rw [hpages] at hfree hmine
    rw [Call.grants, hpages]
    refine .of_range h.cursors (he.with_mmap hle) hfree ⟨Nat.le_refl _, Nat.le_add_right ..⟩ fun p hp =>
      .inr (.inr (.inl ?_))
    have ⟨hlo, hhi⟩ := mem_pages_from he.mmap hp
    obtain rfl := hmine hp
    refine ⟨he.mmap_ge.trans hlo, hhi.trans_le hle, h.pids hlive, fun _ => ?_⟩
    rwa [Space.entry_served, if_pos rfl]
  | exit pid =>
    refine h.after_ok rfl (.still (fun e he => h.cursors e (mem_filter.mp he).1) nofun ?_)
    rintro q ⟨x, hx, rfl⟩
    have ⟨hmem, hne⟩ := mem_filter.mp hx
    exact ⟨⟨x, hmem, rfl⟩, Space.entry_of_filter (of_decide_eq_true hne)⟩
  | kill pid =>
    refine h.after_ok rfl (.still h.cursors nofun ?_)
    rintro q ⟨x, hx, rfl⟩
    exact ⟨⟨x, (mem_filter.mp hx).1, rfl⟩, rfl⟩

end World.Settled

-- The number of stacks that the run still needs bounds how high they reach.
theorem World.Settled.run {w0 : World} (e : Execution World.Step w0 cs w) (h : w0.Settled heap mmap limit)
    (hlimit : limit ≤ 2 ^ 47) (hc : ∀ c ∈ cs, c.Orderly heap mmap)
    (hroom : stackTop (w0.space.slots + cs.countP Call.isSpawn) ≤ limit) : w.Settled heap mmap limit := by
  induction e with
  | refl => exact h
  | @step w0 c _ cs _ e _ ih =>
    obtain ⟨ha, rfl⟩ := e
    have hcount : (c :: cs).countP Call.isSpawn = c.isSpawn.toNat + cs.countP Call.isSpawn := by
      rw [countP_cons, add_comm]
      cases c.isSpawn <;> rfl
    rw [hcount, ← add_assoc] at hroom
    have hroom0 : stackTop w0.space.slots ≤ limit :=
      (stackTop_mono ((Nat.le_add_right ..).trans (Nat.le_add_right ..))).trans hroom
    have ⟨hs, hslots⟩ := h.after hroom0 hlimit (hc c (mem_cons_self ..)) ha
    exact ih hs (fun c hmem => hc c (mem_cons_of_mem _ hmem)) ((stackTop_mono (Nat.add_le_add_right hslots _)).trans hroom)

theorem owners_disjoint_of_orderly_run (w0 w : World) (cs : List Call) (limit heap mmap : Nat) (h0 : w0.Fresh limit)
    (hlimit : limit ≤ 2 ^ 47) (hroom : stackTop (cs.countP Call.isSpawn) ≤ limit) (hc : ∀ c ∈ cs, c.Orderly heap mmap)
    (e : Execution World.Step w0 cs w) : w.Disjoint := by
  refine (World.Settled.run e (.of_fresh h0) hlimit hc ?_).disjoint
  rwa [h0.slots, zero_add]

theorem orderly_linuxImage (hm : mib ∈ [(0x40 : UInt8), 0x50, 0x60]) : (linuxImage mib).Orderly [] := by
  have hexec : (linuxImage mib).eType = etExec := rfl
  have hone : (linuxImage mib).phnum = 1 := rfl
  have hdyn : ¬(linuxImage mib).Dyn := by
    rw [Image.Dyn, hexec]
    decide
  refine ⟨.inl hexec, fun hd => absurd hd hdyn, ?_, fun k hk => ?_, fun hr => absurd hr.1 hdyn, fun k hk _ p _ j hj => ?_, ?_, ?_⟩
  · revert mib
    unfold Image.EntryInRange
    decide +kernel
  · obtain rfl : k = 0 := by omega
    have hsound : (linuxImage mib).InFile 0 ∧ (linuxImage mib).offset 0 + (linuxImage mib).filesz 0 ≤ (linuxImage mib).len ∧
        (linuxImage mib).filesz 0 ≤ (linuxImage mib).memsz 0 ∧ (linuxImage mib).low 0 < (linuxImage mib).high 0 := by
      revert mib
      unfold Image.InFile
      decide +kernel
    exact ⟨hsound.1, fun _ => hsound.2.1, fun _ => hsound.2.2.1, fun _ => hsound.2.2.2⟩
  · omega
  · revert mib
    decide +kernel
  · decide

def World.blank : World := ⟨.blank, []⟩

theorem World.fresh_blank : World.blank.Fresh (2 ^ 47) := ⟨rfl, rfl, rfl, rfl, rfl, rfl, nofun⟩

def twoPrograms : List Call :=
  [.spawn 0 (linuxImage 0x40) [], .brk 1 0x4001000, .spawn 0 (linuxImage 0x50) [], .mmap 2 0x3000, .brk 1 0x4002800,
    .exit 1, .spawn 0 (linuxImage 0x60) [], .kill 2]

theorem twoPrograms_disjoint : World.blank.Fresh (2 ^ 47) ∧ (twoPrograms.foldl World.after World.blank).Disjoint := by
  refine ⟨World.fresh_blank, owners_disjoint_of_orderly_run World.blank _ twoPrograms (2 ^ 47) 1 2 World.fresh_blank (le_refl _)
    (by decide) ?_ ?_⟩
  · intro c hc
    simp only [twoPrograms, mem_cons, not_mem_nil, or_false] at hc
    rcases hc with rfl | rfl | rfl | rfl | rfl | rfl | rfl | rfl
    · exact fun _ => orderly_linuxImage (by decide)
    · exact fun _ _ => rfl
    · exact fun _ => orderly_linuxImage (by decide)
    · exact fun _ => rfl
    · exact fun _ _ => rfl
    · trivial
    · exact fun _ => orderly_linuxImage (by decide)
    · trivial
  · refine .step ⟨trivial, rfl⟩ (.step ⟨?_, rfl⟩ (.step ⟨trivial, rfl⟩ (.step ⟨?_, rfl⟩ (.step ⟨?_, rfl⟩ (.step ⟨trivial, rfl⟩
      (.step ⟨trivial, rfl⟩ (.step ⟨trivial, rfl⟩ .refl)))))))
    · decide +kernel
    · decide +kernel
    · decide +kernel

theorem second_heap_not_disjoint : ∃ w, World.blank.Fresh (2 ^ 47) ∧
    Execution World.Step World.blank [.spawn 0 (linuxImage 0x40) [], .spawn 0 (linuxImage 0x50) [],
      .brk 1 0x4001000, .brk 2 0x4001000] w ∧ ¬w.Disjoint := by
  refine ⟨_, World.fresh_blank, .step ⟨trivial, rfl⟩ (.step ⟨trivial, rfl⟩ (.step ⟨?_, rfl⟩ (.step ⟨?_, rfl⟩ .refl))), ?_⟩
  · decide +kernel
  · decide +kernel
  · intro hd
    have hdoubled : ((((World.blank.after (.spawn 0 (linuxImage 0x40) [])).after (.spawn 0 (linuxImage 0x50) [])).after
        (.brk 1 0x4001000)).after (.brk 2 0x4001000)).space.doubled = true := by
      decide +kernel
    rw [hd.mapOnce] at hdoubled
    cases hdoubled

end Userspace
