import Onyx.Userspace.Growth

-- Who the pages were given to, over runs of spawns, brk and mmap calls, exits and kills.

open Lib List

namespace Userspace

variable {ε : Type} {s t : Space}

inductive Owner
  | image (n : Nat)
  | stack (n : Nat)
  | heap (pid : Nat)
  | mmap (n : Nat)
  deriving DecidableEq, Repr

inductive Call
  | spawn (tsc : UInt64) (elf : Image) (argv : List Bytes)
  | brk (pid addr : Nat)
  | mmap (pid len : Nat)
  | exit (pid : Nat)
  | kill (pid : Nat)

-- The task is gone from the scheduler's point of view.
def retire (pid : Nat) : LoadM Unit :=
  Prog.modify fun s => { s with tasks := s.tasks.filter (·.pid ≠ pid) }

namespace Call

-- `sys_exit` drops the cursors of the task, `sys_kill` does not.
def exec : Call → LoadM Nat
  | spawn tsc elf argv => spawnBytes tsc elf argv
  | brk pid addr => linuxBrk pid addr
  | mmap pid len => linuxMmapAnon pid len
  | exit pid => do
    linuxMemDrop pid
    retire pid
    pure 0
  | kill pid => do
    retire pid
    pure 0

-- Only a live Linux task gets to brk and mmap.
def Allowed (s : Space) : Call → Prop
  | brk pid _ => ∃ t ∈ s.tasks, t.pid = pid ∧ t.linuxAbi
  | mmap pid _ => ∃ t ∈ s.tasks, t.pid = pid ∧ t.linuxAbi
  | _ => True

instance {s : Space} : (c : Call) → Decidable (c.Allowed s)
  | brk pid _ => inferInstanceAs (Decidable (∃ t ∈ s.tasks, t.pid = pid ∧ t.linuxAbi))
  | mmap pid _ => inferInstanceAs (Decidable (∃ t ∈ s.tasks, t.pid = pid ∧ t.linuxAbi))
  | spawn _ _ _ => .isTrue trivial
  | exit _ => .isTrue trivial
  | kill _ => .isTrue trivial

end Call

def Image.pages (elf : Image) : List Nat :=
  ((range elf.phnum).filter fun j => decide (elf.IsLoad j)).flatMap fun j =>
    range' (elf.start j / pageSize) (elf.stop j / pageSize - elf.start j / pageSize)

def stackPages (slot : Nat) : List Nat := range' (stackPage (stackTop slot)) userStackPages

def heapPages (s : Space) (pid addr : Nat) : List Nat :=
  if addr = 0 ∨ addr ≤ (s.entry pid).brk ∨ linuxMmapBase ≤ addr then []
  else range' ((s.entry pid).brk / pageSize) (pageDown (addr + pageMask) / pageSize - (s.entry pid).brk / pageSize)

-- The pages an mmap call asks for: none, unless the region fits into the arena.
def mmapPages (s : Space) (pid len : Nat) : List Nat :=
  if len = 0 ∨ linuxMmapEnd < (s.entry pid).mmap + (len + pageMask) / pageSize * pageSize then []
  else range' ((s.entry pid).mmap / pageSize) ((len + pageMask) / pageSize)

-- What a call that returns gives to whom; `n` numbers the grants.
def Call.grants (s : Space) (n : Nat) : Call → List (Owner × List Nat)
  | .spawn _ elf _ => [(.image n, elf.pages), (.stack n, stackPages s.slots)]
  | .brk pid addr => [(.heap pid, heapPages s pid addr)]
  | .mmap pid len => [(.mmap n, mmapPages s pid len)]
  | _ => []

structure World where
  space : Space
  given : List (Owner × List Nat)

namespace World

-- One call, however it ends. Only a call that returns a value has given pages to somebody.
def after (w : World) (c : Call) : World :=
  match c.exec.run w.space with
  | (.ok _, s) => ⟨s, w.given ++ c.grants w.space w.given.length⟩
  | (.error _, s) => ⟨s, w.given⟩

def Step (w : World) (c : Call) (w' : World) : Prop := c.Allowed w.space ∧ w' = w.after c

-- Different owners have different pages, and no page was ever mapped a second time.
structure Disjoint (w : World) : Prop where
  owners : ∀ a ∈ w.given, ∀ b ∈ w.given, a.1 ≠ b.1 → a.2.Disjoint b.2
  mapOnce : w.space.doubled = false

structure Fresh (w : World) (limit : Nat) : Prop where
  given : w.given = []
  cursors : w.space.linuxMem = []
  mapOnce : w.space.doubled = false
  regions : w.space.regions = []
  tasks : w.space.tasks = []
  slots : w.space.slots = 0
  pages : ∀ p, userTextBase ≤ p * pageSize → p * pageSize < limit → ¬w.space.Mapped p

end World

-- The cursors of a task stand on page boundaries inside their arenas.
structure LinuxMem.Placed (e : LinuxMem) : Prop where
  brk : e.brk % pageSize = 0
  mmap : e.mmap % pageSize = 0
  brk_ge : linuxHeapBase ≤ e.brk
  brk_le : e.brk ≤ linuxMmapBase
  mmap_ge : linuxMmapBase ≤ e.mmap
  mmap_le : e.mmap ≤ linuxMmapEnd

theorem LinuxMem.Placed.with_brk {e : LinuxMem} {pid : Nat} (h : e.Placed) (hle : e.brk + n * pageSize ≤ linuxMmapBase) :
    Placed ⟨pid, e.brk + n * pageSize, e.mmap⟩ :=
  ⟨(Nat.add_mul_mod_self_right ..).trans h.brk, h.mmap, Nat.le_add_right_of_le h.brk_ge, hle, h.mmap_ge, h.mmap_le⟩

theorem LinuxMem.Placed.with_mmap {e : LinuxMem} {pid : Nat} (h : e.Placed) (hle : e.mmap + n * pageSize ≤ linuxMmapEnd) :
    Placed ⟨pid, e.brk, e.mmap + n * pageSize⟩ :=
  ⟨h.brk, (Nat.add_mul_mod_self_right ..).trans h.mmap, h.brk_ge, h.brk_le, Nat.le_add_right_of_le h.mmap_ge, hle⟩

def Space.CursorsPlaced (s : Space) : Prop := ∀ e ∈ s.linuxMem, e.Placed

-- The state in which the task has an entry in LINUX_MEM.
def Space.enlist (s : Space) (pid : Nat) : Space :=
  { s with linuxMem := match s.linuxMem.find? (·.pid = pid) with
    | some _ => s.linuxMem
    | none => s.linuxMem ++ [s.entry pid] }

theorem linuxMemEntry_run : (linuxMemEntry pid : UserM ε LinuxMem).run s = (.ok (s.entry pid), s.enlist pid) := by
  cases hf : s.linuxMem.find? (·.pid = pid) with
  | none => simp only [linuxMemEntry, Space.enlist, hf]
  | some e => simp [linuxMemEntry, Space.enlist, Space.entry, hf]

namespace Space.CursorsPlaced

variable (h : s.CursorsPlaced)

include h

theorem congr (heq : t.linuxMem = s.linuxMem) : t.CursorsPlaced := by
  rwa [Space.CursorsPlaced, heq]

theorem entry : (s.entry pid).Placed := by
  cases hf : s.linuxMem.find? (·.pid = pid) with
  | some e =>
    rw [Space.entry, hf]
    exact h e (mem_of_find?_eq_some hf)
  | none =>
    rw [Space.entry, hf]
    refine ⟨?_, ?_, Nat.le_refl _, ?_, Nat.le_refl _, ?_⟩
    · show linuxHeapBase % pageSize = 0
      rw [pageSize_eq]
      decide
    · show linuxMmapBase % pageSize = 0
      rw [pageSize_eq]
      decide
    · show linuxHeapBase ≤ linuxMmapBase
      decide
    · show linuxMmapBase ≤ linuxMmapEnd
      decide

theorem enlist : (s.enlist pid).CursorsPlaced := by
  intro e he
  unfold Space.enlist at he
  split at he
  · exact h e he
  rcases mem_append.mp he with he | he
  · exact h e he
  · rw [mem_singleton.mp he]
    exact h.entry

end Space.CursorsPlaced

-- The state after `n` pages were mapped for a Linux task and its cursors were moved.
def Space.served (s : Space) (pid first n brk mmap : Nat) : Space :=
  let t := (s.enlist pid).setPages first n dataFlags
  { t with linuxMem := setFirst pid brk mmap t.linuxMem }

theorem linuxMapPages_run (hs : start % pageSize = 0) (hn : start + n * pageSize ≤ 2 ^ 47)
    (hfree : ∀ p ∈ range' (start / pageSize) n, ¬s.Mapped p) :
    (linuxMapPages start n : UserM ε Unit).run (s.enlist pid) =
      (.ok (), (s.enlist pid).setPages (start / pageSize) n dataFlags) := by
  exact (exact_mapRange hs hn).of_good fun k hk => hfree _ (mem_range'_1.mpr ⟨by omega, by omega⟩)

-- What a call that maps pages ends with: pages from `start` on, and the new cursors.
def mapAndSet (pid start n brk mmap v : Nat) : UserM ε Nat := do
  linuxMapPages start n
  linuxMemSet pid brk mmap
  pure v

def BrkMoves (s : Space) (pid addr : Nat) : Prop :=
  addr ≠ 0 ∧ ¬(addr ≤ (s.entry pid).brk ∨ linuxMmapBase ≤ addr)

theorem linuxBrk_still (h : ¬BrkMoves s pid addr) :
    (linuxBrk pid addr : UserM ε Nat).run s = (.ok (s.entry pid).brk, s.enlist pid) ∧ heapPages s pid addr = [] := by
  unfold linuxBrk
  rw [bind_run_ok linuxMemEntry_run]
  by_cases h0 : addr = 0
  · rw [if_pos h0]
    exact ⟨rfl, if_pos (.inl h0)⟩
  have hr : addr ≤ (s.entry pid).brk ∨ linuxMmapBase ≤ addr := not_not.mp fun hr => h ⟨h0, hr⟩
  rw [if_neg h0, if_pos hr]
  exact ⟨rfl, if_pos (.inr hr)⟩

theorem BrkMoves.run (h : BrkMoves s pid addr) : ∃ n top, 0 < n ∧ (s.entry pid).brk + n * pageSize ≤ 2 ^ 47 ∧
    ((s.entry pid).brk % pageSize = 0 → top = (s.entry pid).brk + n * pageSize) ∧ top ≤ linuxMmapBase ∧
    ((s.entry pid).brk % pageSize = 0 → heapPages s pid addr = range' ((s.entry pid).brk / pageSize) n) ∧
    (linuxBrk pid addr : UserM ε Nat).run s =
      (mapAndSet pid (s.entry pid).brk n top (s.entry pid).mmap top).run (s.enlist pid) := by
  obtain ⟨h0, hr⟩ := h
  unfold linuxBrk heapPages
  rw [bind_run_ok linuxMemEntry_run, if_neg h0, if_neg hr, if_neg (not_or.mpr ⟨h0, hr⟩)]
  generalize (s.entry pid).brk = brk at *
  have h1 : addr + pageMask < 2 ^ 64 := by
    rw [pageMask_eq]
    unfold linuxMmapBase at *
    omega
  have hnew : brk < pageDown (addr + pageMask) ∧ pageDown (addr + pageMask) % pageSize = 0 ∧
      pageDown (addr + pageMask) ≤ linuxMmapBase := by
    unfold pageDown
    rw [pageMask_eq]
    rw [pageSize_eq] at *
    unfold linuxMmapBase at *
    omega
  rw [checked_of_lt h1, lift_ok_bind_run]
  dsimp only
  generalize pageDown (addr + pageMask) = top at *
  obtain ⟨hlt, hmod, htop⟩ := hnew
  have h2 : top - brk + pageMask < 2 ^ 64 := by
    rw [pageMask_eq]
    unfold linuxMmapBase at *
    omega
  rw [checkedSub_of_le (Nat.le_of_lt hlt), lift_ok_bind_run, checked_of_lt h2, lift_ok_bind_run]
  refine ⟨(top - brk + pageMask) / pageSize, top, ?_, ?_, fun ha => ?_, htop, fun ha => ?_, rfl⟩
  · rw [pageMask_eq, pageSize_eq]
    omega
  · rw [pageMask_eq, pageSize_eq]
    unfold linuxMmapBase at *
    omega
  · rw [pageMask_eq]
    rw [pageSize_eq] at *
    omega
  · rw [pageMask_eq]
    rw [pageSize_eq] at *
    congr 1
    omega

theorem brk_cases (h : s.CursorsPlaced) (hfree : ∀ p ∈ heapPages s pid addr, ¬s.Mapped p) :
    ∃ v, heapPages s pid addr = [] ∧ (linuxBrk pid addr : UserM ε Nat).run s = (.ok v, s.enlist pid) ∨
      ∃ n, heapPages s pid addr = range' ((s.entry pid).brk / pageSize) n ∧
        (s.entry pid).brk + n * pageSize ≤ linuxMmapBase ∧ (linuxBrk pid addr : UserM ε Nat).run s = (.ok v,
          s.served pid ((s.entry pid).brk / pageSize) n ((s.entry pid).brk + n * pageSize) (s.entry pid).mmap) := by
  have he : (s.entry pid).Placed := h.entry
  by_cases hm : BrkMoves s pid addr
  · obtain ⟨n, top, _, hend, htop, hle, hpages, hrun⟩ := hm.run
    rw [hpages he.brk] at hfree ⊢
    rw [htop he.brk] at hle
    rw [hrun, mapAndSet, bind_run_ok (linuxMapPages_run he.brk hend hfree), htop he.brk]
    exact ⟨_, .inr ⟨n, rfl, hle, rfl⟩⟩
  · obtain ⟨hrun, hnone⟩ := linuxBrk_still hm
    exact ⟨_, .inl ⟨hnone, hrun⟩⟩

-- The end of the region an mmap call asks for, and whether it can be computed.
def mmapStop (s : Space) (pid len : Nat) : Nat := (s.entry pid).mmap + (len + pageMask) / pageSize * pageSize

def MmapFits (s : Space) (pid len : Nat) : Prop := len + pageMask < 2 ^ 64 ∧ mmapStop s pid len < 2 ^ 64

theorem linuxMmapAnon_of_not_fits (h0 : len ≠ 0) (h : ¬MmapFits s pid len) :
    (linuxMmapAnon pid len : UserM ε Nat).run s = (.error .panic, s.enlist pid) := by
  unfold linuxMmapAnon
  rw [if_neg h0, bind_run_ok linuxMemEntry_run]
  by_cases h1 : len + pageMask < 2 ^ 64
  · have h2 : (len + pageMask) / pageSize * pageSize < 2 ^ 64 := Nat.lt_of_le_of_lt (Nat.div_mul_le_self _ _) h1
    have h3 : ¬(s.entry pid).mmap + (len + pageMask) / pageSize * pageSize < 2 ^ 64 := fun h3 => h ⟨h1, h3⟩
    rw [checked_of_lt h1, lift_ok_bind_run, checked_of_lt h2, lift_ok_bind_run, checked_of_not_lt h3]
    rfl
  · rw [checked_of_not_lt h1]
    rfl

theorem linuxMmapAnon_of_fits (h0 : len ≠ 0) (h : MmapFits s pid len) : (linuxMmapAnon pid len : UserM ε Nat).run s =
      if linuxMmapEnd < mmapStop s pid len then (.ok (negative enomem), s.enlist pid)
      else (mapAndSet pid (s.entry pid).mmap ((len + pageMask) / pageSize) (s.entry pid).brk (mmapStop s pid len)
        (s.entry pid).mmap).run (s.enlist pid) := by
  have h2 : (len + pageMask) / pageSize * pageSize < 2 ^ 64 := Nat.lt_of_le_of_lt (Nat.div_mul_le_self _ _) h.1
  unfold linuxMmapAnon
  rw [if_neg h0, bind_run_ok linuxMemEntry_run, checked_of_lt h.1, lift_ok_bind_run, checked_of_lt h2, lift_ok_bind_run]
  have h3 := h.2
  unfold mmapStop at h3 ⊢
  rw [checked_of_lt h3, lift_ok_bind_run]
  split <;> rfl

theorem mmap_cases (h : s.CursorsPlaced) (hfree : ∀ p ∈ mmapPages s pid len, ¬s.Mapped p) :
    mmapPages s pid len = [] ∧ (∃ v t, (linuxMmapAnon pid len : UserM ε Nat).run s = (.ok v, t) ∧ (t = s ∨ t = s.enlist pid)) ∨
    (linuxMmapAnon pid len : UserM ε Nat).run s = (.error .panic, s.enlist pid) ∨
    ∃ v n, mmapPages s pid len = range' ((s.entry pid).mmap / pageSize) n ∧
      (s.entry pid).mmap + n * pageSize ≤ linuxMmapEnd ∧ (linuxMmapAnon pid len : UserM ε Nat).run s = (.ok v,
        s.served pid ((s.entry pid).mmap / pageSize) n (s.entry pid).brk ((s.entry pid).mmap + n * pageSize)) := by
  have he : (s.entry pid).Placed := h.entry
  unfold mmapPages at *
  by_cases h0 : len = 0
  · rw [linuxMmapAnon, if_pos h0, if_pos (.inl h0)]
    exact .inl ⟨rfl, _, _, rfl, .inl rfl⟩
  by_cases hfit : MmapFits s pid len
  case neg => exact .inr (.inl (linuxMmapAnon_of_not_fits h0 hfit))
  rw [linuxMmapAnon_of_fits h0 hfit]
  unfold mmapStop
  by_cases hbig : linuxMmapEnd < (s.entry pid).mmap + (len + pageMask) / pageSize * pageSize
  · rw [if_pos hbig, if_pos (.inr hbig)]
    exact .inl ⟨rfl, _, _, rfl, .inr rfl⟩
  rw [if_neg hbig]
  rw [if_neg (not_or.mpr ⟨h0, hbig⟩)] at hfree ⊢
  have hend : (s.entry pid).mmap + (len + pageMask) / pageSize * pageSize ≤ 2 ^ 47 := by
    unfold linuxMmapEnd at hbig
    omega
  rw [mapAndSet, bind_run_ok (linuxMapPages_run he.mmap hend hfree)]
  exact .inr (.inr ⟨_, _, rfl, Nat.le_of_not_lt hbig, rfl⟩)

theorem Image.mem_pages {elf : Image} : p ∈ elf.pages ↔ ∃ j, j < elf.phnum ∧ elf.IsLoad j ∧ elf.Holds j p := by
  simp only [Image.pages, mem_flatMap, mem_filter, mem_range, decide_eq_true_eq, mem_range'_1,
    Image.Holds]
  constructor
  · rintro ⟨j, ⟨hj, hl⟩, h1, h2⟩
    exact ⟨j, hj, hl, h1, by omega⟩
  · rintro ⟨j, hj, hl, h1, h2⟩
    exact ⟨j, ⟨hj, hl⟩, h1, by omega⟩

end Userspace
