import Onyx.Userspace.Total

-- What a program finds on its stack, read the way the System V ABI lays it out.

open Lib List Bytes

namespace Userspace

variable {t t' : Space}

namespace Space

def bytesAt (t : Space) (a n : Nat) : Bytes := (List.range n).map fun i => t.memory (a + i)

def word (t : Space) (a : Nat) : Nat := ofLe (t.bytesAt a 8)

-- A string is read up to its NUL, and over `n` bytes at most.
def readString (t : Space) (a : Nat) : Nat → Option Bytes
  | 0 => none
  | n + 1 => if t.memory a = 0 then some [] else (t.readString (a + 1) n).map (t.memory a :: ·)

def Has (t : Space) (a : Nat) (data : Bytes) : Prop := t.bytesAt a data.length = data

def HasWords (t : Space) (a : Nat) : List Nat → Prop
  | [] => True
  | w :: ws => t.word a = w ∧ t.HasWords (a + 8) ws

theorem length_bytesAt : (t.bytesAt a n).length = n := by
  rw [bytesAt, length_map, length_range]

theorem getElem?_bytesAt (h : i < n) : (t.bytesAt a n)[i]? = some (t.memory (a + i)) := by
  rw [bytesAt, getElem?_map, getElem?_range h]
  rfl

theorem bytesAt_add : t.bytesAt a (n + m) = t.bytesAt a n ++ t.bytesAt (a + n) m := by
  simp [bytesAt, range_add, Function.comp_def, Nat.add_assoc]

theorem bytesAt_congr (h : ∀ i, i < n → t.memory (a + i) = t'.memory (a + i)) : t.bytesAt a n = t'.bytesAt a n :=
  map_congr_left fun i hi => h i (mem_range.mp hi)

theorem has_setMemory : (t.setMemory a data).Has a data := by
  refine ext_getElem? fun i => ?_
  by_cases hi : i < data.length
  · rw [getElem?_bytesAt hi, memory_setMemory, if_pos (by omega), Nat.add_sub_cancel_left, getD_eq_getElem?_getD,
      getElem?_eq_getElem hi, Option.getD_some]
  · rw [getElem?_eq_none (by rw [length_bytesAt]; omega), getElem?_eq_none (by omega)]

theorem Has.setMemory (h : t.Has a data) (hd : a + data.length ≤ b ∨ b + data'.length ≤ a) :
    (t.setMemory b data').Has a data := by
  refine (bytesAt_congr fun i hi => ?_).trans h
  rw [memory_setMemory, if_neg (by omega)]

theorem has_append : t.Has a (l ++ l') ↔ t.Has a l ∧ t.Has (a + l.length) l' := by
  rw [Has, length_append, bytesAt_add]
  exact append_eq_append_iff_of_size_eq_left length_bytesAt

theorem Has.word (h : t.Has a (toLe 8 w)) (hw : w < 2 ^ 64) : t.word a = w := by
  have hbytes : t.bytesAt a 8 = toLe 8 w := h
  rw [Space.word, hbytes, ofLe_toLe 8 w hw]

theorem Has.words (h : t.Has a (wordBytes ws)) (hw : ∀ w ∈ ws, w < 2 ^ 64) : t.HasWords a ws := by
  induction ws generalizing a with
  | nil => trivial
  | cons w ws ih =>
    have ⟨hfirst, hrest⟩ := has_append.mp h
    exact ⟨hfirst.word (hw w mem_cons_self), ih hrest fun w' h' => hw w' (mem_cons_of_mem w h')⟩

theorem hasWords_append :
    t.HasWords a (ws ++ ws') ↔ t.HasWords a ws ∧ t.HasWords (a + 8 * ws.length) ws' := by
  induction ws generalizing a with
  | nil => exact (true_and _).symm.to_iff
  | cons w ws ih =>
    have haddr : a + 8 + 8 * ws.length = a + 8 * (w :: ws).length := by
      rw [length_cons]
      omega
    rw [cons_append, HasWords, ih, haddr, HasWords, and_assoc]

theorem HasWords.get (h : t.HasWords a ws) (hi : ws[i]? = some w) : t.word (a + 8 * i) = w := by
  induction ws generalizing a i with
  | nil => cases hi
  | cons w' ws ih =>
    cases i with
    | zero =>
      cases hi
      exact h.1
    | succ i =>
      have := ih h.2 hi
      rwa [Nat.mul_succ, Nat.add_comm (8 * i), ← Nat.add_assoc]

theorem HasWords.pair {l : List (Nat × Nat)} (h : t.HasWords a (l.flatMap fun (k, v) => [k, v])) (hi : l[i]? = some kv) :
    (t.word (a + 16 * i), t.word (a + 16 * i + 8)) = kv := by
  induction l generalizing a i with
  | nil => cases hi
  | cons kv' l ih =>
    have ⟨hk, hv, hrest⟩ := h
    cases i with
    | zero =>
      cases hi
      exact Prod.ext hk hv
    | succ i =>
      have haddr : a + 8 + 8 + 16 * i = a + 16 * (i + 1) := by omega
      have hpair := ih hrest hi
      rwa [haddr] at hpair

theorem Has.readString (h : t.Has a (str ++ [0])) (hz : (0 : UInt8) ∉ str) (hn : str.length < n) :
    t.readString a n = some str := by
  induction str generalizing a n with
  | nil =>
    obtain ⟨n, rfl⟩ := Nat.exists_eq_add_one_of_ne_zero (Nat.ne_of_gt hn)
    have hstop : t.memory a = 0 := List.cons.inj h |>.1
    rw [Space.readString, if_pos hstop]
  | cons b str ih =>
    obtain ⟨n, rfl⟩ := Nat.exists_eq_add_one_of_ne_zero (Nat.ne_of_gt (Nat.lt_of_le_of_lt (Nat.zero_le _) hn))
    have ⟨hfirst, hrest⟩ := (has_append (l := [b])).mp h
    have hb : t.memory a = b := List.cons.inj hfirst |>.1
    have hne : b ≠ 0 := fun hb => hz (hb ▸ mem_cons_self)
    have htail : t.readString (a + 1) n = some str := ih hrest (fun hm => hz (mem_cons_of_mem b hm)) (Nat.lt_of_succ_lt_succ hn)
    rw [Space.readString, hb, if_neg hne, htail]
    rfl

end Space

-- The stack as `map_user_stack` leaves it: the pages below a page-aligned top.
structure StackMapped (t : Space) (top : Nat) : Prop where
  aligned : top % pageSize = 0
  room : userStackPages * pageSize ≤ top
  range : top < 2 ^ 64
  pages : ∀ k, k < userStackPages → t.Writable (top / pageSize - 1 - k)

theorem stackBytes_eq : userStackPages * pageSize = 65536 := by
  rw [pageSize_eq]
  rfl

theorem StackMapped.ready (h : StackMapped t top) : StackReady t top := by
  intro a hlo hhi
  have hroom := h.room
  have hmod := h.aligned
  rw [stackBytes_eq] at hroom
  rw [pageSize_eq] at hmod
  have hpage := h.pages (top / pageSize - 1 - a / pageSize) (show _ < 16 by rw [pageSize_eq]; omega)
  have hk : top / pageSize - 1 - (top / pageSize - 1 - a / pageSize) = a / pageSize := by
    rw [pageSize_eq]
    omega
  rwa [hk] at hpage

theorem StackMapped.mod16 (h : StackMapped t top) : top % 16 = 0 := by
  have hmod := h.aligned
  rw [pageSize_eq] at hmod
  omega

-- The numbers that `load_elf` reports are u64s.
structure ElfLoadInfo.InRange (info : ElfLoadInfo) : Prop where
  entry : info.entry < 2 ^ 64
  phnum : info.phnum < 2 ^ 64
  phdrVaddr : info.phdrVaddr.getD 0 < 2 ^ 64
  atBase : info.atBase < 2 ^ 64

-- Pair `i` of the auxiliary vector, behind argc, the pointers and their two terminators.
def Space.auxAt (t : Space) (rsp argc i : Nat) : Nat × Nat :=
  (t.word (rsp + 8 * (3 + argc) + 16 * i), t.word (rsp + 8 * (3 + argc) + 16 * i + 8))

def Space.argAt (t : Space) (rsp i : Nat) : Nat := t.word (rsp + 8 * (1 + i))

-- The value of AT_RANDOM, which is the pair with number 6.
def Space.randomAt (t : Space) (rsp argc : Nat) : Nat := (t.auxAt rsp argc 6).2

-- What is found from `rsp` on.
structure StartLayout (tsc : UInt64) (top : Nat) (argv : List Bytes) (info : ElfLoadInfo) (t : Space) (rsp : Nat) : Prop where
  aligned : rsp % 16 = 0
  argc : t.word rsp = argv.length
  args : ∀ i str, argv[i]? = some str → ∀ n, str.length < n → t.readString (t.argAt rsp i) n = some str
  argvEnd : t.argAt rsp argv.length = 0
  envEnd : t.argAt rsp (argv.length + 1) = 0
  pairs : (List.range 9).map (t.auxAt rsp argv.length) =
    auxv info (t.randomAt rsp argv.length) (if argv = [] then 0 else t.argAt rsp 0)
  random : t.bytesAt (t.randomAt rsp argv.length) 16 = atRandomBytes tsc
  -- The random bytes end the stack; the block and the strings end before them.
  last : t.randomAt rsp argv.length + 16 = top
  block : rsp + 8 * (3 + argv.length) + 16 * 9 ≤ t.randomAt rsp argv.length
  strings : ∀ i str, argv[i]? = some str → t.argAt rsp i + str.length + 1 ≤ t.randomAt rsp argv.length

-- A byte outside the stack is left as it is, whatever it is.
def StackOnly (tsc : UInt64) (top : Nat) (argv : List Bytes) (info : ElfLoadInfo) (t : Space) (rsp : Nat) : Prop :=
  ∀ a, ¬(top - userStackPages * pageSize ≤ a ∧ a < top) → ∀ v, ∃ t',
    (buildInitialStack tsc top argv info).run (t.poke a v) = (.ok rsp, t') ∧ t'.memory a = v ∧ t'.pages = t.pages

theorem Space.HasWords.start (h : t.HasWords a (startWords argc ptrs [] info r e)) :
    t.word a = argc ∧ t.HasWords (a + 8) ptrs ∧ t.word (a + 8 * (1 + ptrs.length)) = 0 ∧ t.word (a + 8 * (2 + ptrs.length)) = 0 ∧
    t.HasWords (a + 8 * (3 + ptrs.length)) ((auxv info r e).flatMap fun (k, v) => [k, v]) := by
  have ⟨h1, haux⟩ := Space.hasWords_append.mp h
  have ⟨h2, henv, _⟩ := Space.hasWords_append.mp h1
  have ⟨h3, _⟩ := Space.hasWords_append.mp h2
  have ⟨⟨hargc, hptrs⟩, hnull, _⟩ := Space.hasWords_append.mp h3
  simp only [length_append, length_cons, length_nil, Nat.add_zero, Nat.zero_add] at haux henv hnull
  have h1 : 1 + ptrs.length = ptrs.length + 1 := by omega
  have h2 : 2 + ptrs.length = ptrs.length + 1 + 1 := by omega
  have h3 : 3 + ptrs.length = ptrs.length + 1 + 1 + 1 := by omega
  rw [h1, h2, h3]
  exact ⟨hargc, hptrs, hnull, henv, haux⟩

theorem Space.Has.args {strs : List Bytes} {i : Nat} (h : t.Has a (argBytes strs)) (hi : strs[i]? = some str) :
    ∃ p, (argAddrs a strs)[i]? = some p ∧ t.Has p (str ++ [0]) ∧ p + str.length + 1 ≤ a + (argBytes strs).length := by
  induction strs generalizing a i with
  | nil => cases hi
  | cons b strs ih =>
    have ⟨hfirst, hrest⟩ := Space.has_append.mp h
    have hcons : (argBytes (b :: strs)).length = b.length + 1 + (argBytes strs).length := by
      rw [length_argBytes, length_argBytes, map_cons, sum_cons]
    have hlen : (b ++ [0]).length = b.length + 1 := by simp
    cases i with
    | zero =>
      cases hi
      exact ⟨a, rfl, hfirst, by omega⟩
    | succ i =>
      have ⟨p, hp, hhas, hend⟩ := ih hrest hi
      rw [hlen] at hp hend
      exact ⟨p, hp, hhas, by omega⟩

theorem argAddrs_lt (hp : p ∈ argAddrs a strs) : p < a + (argBytes strs).length := by
  induction strs generalizing a with
  | nil => cases hp
  | cons b strs ih =>
    have hcons : (argBytes (b :: strs)).length = b.length + 1 + (argBytes strs).length := by
      rw [length_argBytes, length_argBytes, map_cons, sum_cons]
    cases hp with
    | head => omega
    | tail _ hp =>
      have := ih hp
      omega

section built

variable {argv : List Bytes} (h : StackMapped t top) (hb : budget argv ≤ 65536)

include h hb

theorem StackMapped.parts : blockStart top argv % 16 = 0 ∧ top ≤ blockStart top argv + 65536 ∧
    blockStart top argv + 8 * (3 + argv.length) + 144 ≤ argsStart top argv ∧
    argsStart top argv + (argBytes argv).length = top - 16 ∧ 65536 ≤ top := by
  have hbud : 16 + (argBytes argv).length + (8 * (3 + argv.length) + 144) + 64 ≤ 65536 := by rwa [length_argBytes]
  have hroom := h.room
  rw [stackBytes_eq] at hroom
  simp only [blockStart, argsStart]
  omega

theorem StackMapped.blockWords_lt (hi : info.InRange) : ∀ w ∈ blockWords top argv info, w < 2 ^ 64 := by
  have ⟨_, hlow, hblock, hend, htop⟩ := h.parts hb
  have hrange := h.range
  have hargc : argv.length < 2 ^ 64 := by omega
  have haddr {p : Nat} (hp : p ∈ argAddrs (argsStart top argv) argv) : p < 2 ^ 64 := by
    have := argAddrs_lt hp
    omega
  have hhead : (argAddrs (argsStart top argv) argv).headD 0 < 2 ^ 64 := by
    cases hl : argAddrs (argsStart top argv) argv with
    | nil => exact Nat.two_pow_pos 64
    | cons p l =>
      have hp : p ∈ argAddrs (argsStart top argv) argv := hl ▸ mem_cons_self
      exact haddr hp
  have ⟨hentry, hphnum, hphdr, hbase⟩ := hi
  intro w hw
  simp only [blockWords, startWords, auxv, append_nil, mem_append, mem_cons, not_mem_nil, or_false,
    flatMap_cons, flatMap_nil, atPhdr, atPhent, atPhnum, atPagesz, Userspace.atBase, atEntry, atRandom, atExecfn, atNull] at hw
  rcases hw with (((hw | hw) | hw) | hw) | hw
  · omega
  · exact haddr hw
  · omega
  · omega
  · omega

theorem StackMapped.has_parts (tsc : UInt64) (info : ElfLoadInfo) :
    (t.withStart tsc top argv info).Has (top - 16) (atRandomBytes tsc) ∧
    (t.withStart tsc top argv info).Has (argsStart top argv) (argBytes argv) ∧
    (t.withStart tsc top argv info).Has (blockStart top argv) (wordBytes (blockWords top argv info)) := by
  have ⟨_, _, hblock, hend, _⟩ := h.parts hb
  have hlen : (wordBytes (blockWords top argv info)).length = 8 * (3 + argv.length) + 144 := by
    rw [length_wordBytes, length_blockWords]
    omega
  refine ⟨?_, ?_, Space.has_setMemory⟩
  · exact (Space.has_setMemory.setMemory (.inr (by omega))).setMemory (.inr (by omega))
  · exact Space.has_setMemory.setMemory (.inr (by omega))

theorem StackMapped.layout (hi : info.InRange) (hz : ∀ str ∈ argv, (0 : UInt8) ∉ str) :
    StartLayout tsc top argv info (t.withStart tsc top argv info) (blockStart top argv) := by
  have ⟨hmod, _, hblock, hend, htop⟩ := h.parts hb
  have ⟨hrandom, hargs, hwords⟩ := h.has_parts hb tsc info
  generalize t.withStart tsc top argv info = t' at hrandom hargs hwords
  have hlen : (argAddrs (argsStart top argv) argv).length = argv.length := length_argAddrs
  have ⟨hargc, haddrs, hnull, henv, haux⟩ := (hwords.words (h.blockWords_lt hb hi)).start
  rw [hlen] at hnull henv haux
  have hpair {i : Nat} {kv : Nat × Nat} (hi : _ = some kv) : t'.auxAt (blockStart top argv) argv.length i = kv := haux.pair hi
  have hptr : t'.randomAt (blockStart top argv) argv.length = top - 16 := congrArg Prod.snd (hpair (i := 6) rfl)
  -- The pointer to a string.
  have harg {i : Nat} {str : Bytes} (hi : argv[i]? = some str) : ∃ p, t'.argAt (blockStart top argv) i = p ∧
      t'.Has p (str ++ [0]) ∧ p + str.length + 1 ≤ top - 16 := by
    have ⟨p, hp, hhas, hle⟩ := hargs.args hi
    have hword := haddrs.get hp
    have haddr : blockStart top argv + 8 + 8 * i = blockStart top argv + 8 * (1 + i) := by omega
    rw [haddr] at hword
    exact ⟨p, hword, hhas, hend ▸ hle⟩
  have hexec : (argAddrs (argsStart top argv) argv).headD 0 = if argv = [] then 0 else t'.argAt (blockStart top argv) 0 := by
    cases argv with
    | nil => rfl
    | cons str strs => exact haddrs.1.symm
  refine ⟨hmod, hargc, fun i str hi n hn => ?_, hnull, ?_, ?_, ?_, ?_, ?_, ?_⟩
  · have ⟨p, hp, hhas, _⟩ := harg hi
    rw [hp]
    exact hhas.readString (hz str (mem_of_getElem? hi)) hn
  · have haddr : 1 + (argv.length + 1) = 2 + argv.length := by omega
    rw [Space.argAt, haddr]
    exact henv
  · rw [hptr, ← hexec]
    refine ext_getElem (by rw [length_map, length_range]; rfl) fun i hi hi' => ?_
    rw [getElem_map, getElem_range]
    exact hpair (getElem?_eq_getElem hi')
  · rw [hptr, ← length_atRandomBytes tsc]
    exact hrandom
  · omega
  · omega
  · intro i str hi
    have ⟨p, hp, _, hle⟩ := harg hi
    omega

omit h hb in
theorem pages_withStart : (t.withStart tsc top argv info).pages = t.pages := by
  rw [Space.withStart, Space.pages_setMemory, Space.pages_setMemory, Space.pages_setMemory]

theorem StackMapped.stackOnly (tsc : UInt64) (info : ElfLoadInfo) : StackOnly tsc top argv info t (blockStart top argv) := by
  intro a ha v
  have ⟨_, hlow, hblock, hend, htop⟩ := h.parts hb
  have hready : StackReady (t.poke a v) top := h.ready.of_pages rfl
  refine ⟨_, hready.buildInitialStack_run h.mod16 htop hb, ?_, pages_withStart⟩
  have hlen : (wordBytes (blockWords top argv info)).length = 8 * (3 + argv.length) + 144 := by
    rw [length_wordBytes, length_blockWords]
    omega
  have hrand : (atRandomBytes tsc).length = 16 := length_atRandomBytes tsc
  rw [stackBytes_eq] at ha
  rw [Space.withStart, Space.memory_setMemory, if_neg (by omega), Space.memory_setMemory, if_neg (by omega),
    Space.memory_setMemory, if_neg (by omega)]
  exact if_pos rfl

end built

theorem buildInitialStack_layout (tsc : UInt64) (top : Nat) (argv : List Bytes) (info : ElfLoadInfo) (t t' : Space) (rsp : Nat)
    (h : StackMapped t top) (hi : info.InRange) (hz : ∀ str ∈ argv, (0 : UInt8) ∉ str)
    (hrun : (buildInitialStack tsc top argv info).run t = (.ok rsp, t')) :
    StartLayout tsc top argv info t' rsp ∧ StackOnly tsc top argv info t rsp := by
  have ⟨_, hbudget, _⟩ := read_bind_eq_ok.mp hrun
  have hb := (exact_stackBudget.eq_ok.mp hbudget).1
  have ⟨_, _, _, _, htop⟩ := h.parts hb
  rw [h.ready.buildInitialStack_run h.mod16 htop hb] at hrun
  have ⟨hrsp, ht⟩ := Prod.mk.inj hrun
  obtain rfl := Except.ok.inj hrsp
  subst ht
  exact ⟨h.layout hb hi hz, h.stackOnly hb tsc info⟩

def Space.allMapped : Space := { Space.blank with pages := fun _ => some ⟨true, true, true⟩ }

theorem startStack_two : StartLayout 7 0x20000 [[0x6C, 0x73], [0x2F]] ⟨0x400000, 3, none, 0⟩
      (Space.allMapped.withStart 7 0x20000 [[0x6C, 0x73], [0x2F]] ⟨0x400000, 3, none, 0⟩) (blockStart 0x20000 [[0x6C, 0x73], [0x2F]]) ∧
    StackOnly 7 0x20000 [[0x6C, 0x73], [0x2F]] ⟨0x400000, 3, none, 0⟩ .allMapped (blockStart 0x20000 [[0x6C, 0x73], [0x2F]]) := by
  have hmapped : StackMapped .allMapped 0x20000 := ⟨by decide +kernel, by decide +kernel, by decide, fun _ _ => rfl⟩
  have hrun : (buildInitialStack 7 0x20000 [[0x6C, 0x73], [0x2F]] ⟨0x400000, 3, none, 0⟩).run .allMapped = _ :=
    hmapped.ready.buildInitialStack_run hmapped.mod16 (by decide) (by decide)
  exact buildInitialStack_layout _ _ _ _ _ _ _ hmapped ⟨by decide, by decide, by decide, by decide⟩ (by decide) hrun

end Userspace
