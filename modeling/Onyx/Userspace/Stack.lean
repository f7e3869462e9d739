import Onyx.Userspace.Pages
import Onyx.Userspace.Spawn

-- `build_initial_stack` panics only on a budget that does not fit into 64 bits.

open Lib List

namespace Userspace

variable {t t' : Space}

-- The bytes `build_initial_stack` budgets for: the random bytes, the strings, the block and a reserve.
def budget (argv : List Bytes) : Nat :=
  16 + (argv.map fun a => a.length + 1).sum + (8 * (3 + argv.length) + 144) + 64

theorem exact_stringBytes (hn : n < 2 ^ 64) :
    Exact (stringBytes n strs) (2 ^ 64 ≤ n + (strs.map fun a => a.length + 1).sum)
      (n + (strs.map fun a => a.length + 1).sum < 2 ^ 64) (n + (strs.map fun a => a.length + 1).sum) := by
  unfold stringBytes
  induction strs generalizing n with
  | nil => exact .congr .ok (by simpa using hn) (by simpa using hn)
  | cons a strs ih =>
    rw [map_cons, sum_cons, ← Nat.add_assoc]
    refine .congr (.bind (.bind .checked fun _ => .checked) fun h => ih h.2) ?_ ?_
    · omega
    · omega

theorem exact_blockBytes :
    Exact (blockBytes argc 0) (2 ^ 64 ≤ 8 * (3 + argc) + 144) (8 * (3 + argc) + 144 < 2 ^ 64) (8 * (3 + argc) + 144) :=
  .congr (.bind .checked fun _ => .bind .checked fun _ => .bind .checked fun _ => .checked) (by omega) (by omega)

theorem exact_stackBudget :
    Exact (stackBudget argv []) (2 ^ 64 ≤ budget argv) (budget argv ≤ 65536) (8 * (3 + argv.length) + 144) := by
  have hpages : userStackPages * 0x1000 = 65536 := rfl
  refine .congr (.bind (exact_stringBytes (by decide)) fun h => .bind (@exact_stringBytes _ [] h) fun _ =>
    .bind exact_blockBytes fun _ => .bind .checked fun _ => .bind .checked fun _ => .ite (fun _ => .fail) fun _ => .ok) ?_ ?_
  · simp only [map_nil, sum_nil, budget]
    grind
  · simp only [map_nil, sum_nil, budget]
    grind

def StackReady (t : Space) (top : Nat) : Prop := ∀ a, top ≤ a + 65536 → a < top → t.Writable (a / pageSize)

theorem StackReady.of_pages (h : StackReady t top) (hp : t'.pages = t.pages) : StackReady t' top := by
  intro a h1 h2
  rw [Space.Writable, hp]
  exact h a h1 h2

theorem StackReady.store_run (h : StackReady t top) (hlo : top ≤ addr + 65536) (hhi : addr + data.length ≤ top) :
    (store addr data : LoadM Unit).run t = (.ok (), t.setMemory addr data) :=
  exact_store.of_good fun i hi => h (addr + i) (by omega) (by omega)

theorem StackReady.writeBytesDown (h : StackReady t top) (hsp : sp ≤ top)
    (hroom : top + bytes.length ≤ sp + 65536) (hlen : bytes.length ≤ sp) :
    (writeBytesDown sp bytes).run t = (.ok (sp - bytes.length), t.setMemory (sp - bytes.length) bytes) := by
  rw [Userspace.writeBytesDown, checkedSub_of_le hlen, lift_ok_bind_run,
    bind_run_ok (h.store_run (by omega) (by omega))]
  rfl

-- The strings as they lie in memory, each with its NUL, and where each of them begins.
def argBytes (strs : List Bytes) : Bytes := strs.flatMap (· ++ [0])

def argAddrs (start : Nat) : List Bytes → List Nat
  | [] => []
  | str :: strs => start :: argAddrs (start + (str.length + 1)) strs

theorem length_argBytes : (argBytes strs).length = (strs.map fun a => a.length + 1).sum := by
  simp [argBytes, length_flatMap]

theorem length_argAddrs : (argAddrs start strs).length = strs.length := by
  induction strs generalizing start with
  | nil => rfl
  | cons a strs ih => exact congrArg (· + 1) ih

theorem StackReady.pushString (h : StackReady t top) (hsp : sp ≤ top)
    (hroom : top + (argBytes strs).length ≤ sp + 65536) (hlen : (argBytes strs).length ≤ sp) :
    (strs.reverse.foldlM pushString (sp, [])).run t =
      (.ok (sp - (argBytes strs).length, (argAddrs (sp - (argBytes strs).length) strs).reverse),
        t.setMemory (sp - (argBytes strs).length) (argBytes strs)) := by
  induction strs with
  | nil => exact congrArg (Prod.mk _) (Space.setMemory_nil t).symm
  | cons a strs ih =>
    have hbytes : argBytes (a :: strs) = (a ++ [0]) ++ argBytes strs := rfl
    have hcons : (argBytes (a :: strs)).length = a.length + 1 + (argBytes strs).length := by
      rw [hbytes, length_append, length_append, length_singleton]
    rw [hcons] at hroom hlen
    have hrest := ih (by omega) (by omega)
    have hready : StackReady (t.setMemory (sp - (argBytes strs).length) (argBytes strs)) top := h.of_pages rfl
    have hlen' : (a ++ [0]).length = a.length + 1 := by simp
    have hwrite : (Userspace.writeBytesDown (sp - (argBytes strs).length) (a ++ [0])).run _ = _ :=
      hready.writeBytesDown (by omega) (by omega) (by omega)
    have hstart : sp - (argBytes strs).length - (a ++ [0]).length = sp - (argBytes (a :: strs)).length := by omega
    have hnext : sp - (argBytes (a :: strs)).length + (a.length + 1) = sp - (argBytes strs).length := by omega
    rw [hstart, Space.setMemory_append (by omega), ← hbytes] at hwrite
    have hpush : (Userspace.pushString (sp - (argBytes strs).length, (argAddrs (sp - (argBytes strs).length) strs).reverse) a).run
        (t.setMemory (sp - (argBytes strs).length) (argBytes strs)) =
        (.ok (sp - (argBytes (a :: strs)).length, (argAddrs (sp - (argBytes (a :: strs)).length) (a :: strs)).reverse),
          t.setMemory (sp - (argBytes (a :: strs)).length) (argBytes (a :: strs))) := by
      rw [Userspace.pushString, bind_run_ok hwrite, argAddrs, hnext, reverse_cons]
      rfl
    rw [reverse_cons, Prog.foldlM_append_run hrest, foldlM_cons, bind_run_ok hpush]
    rfl

theorem StackReady.pushStrings (h : StackReady t top) (hsp : sp ≤ top)
    (hroom : top + (argBytes strs).length ≤ sp + 65536) (hlen : (argBytes strs).length ≤ sp) :
    (pushStrings sp strs).run t = (.ok (sp - (argBytes strs).length, argAddrs (sp - (argBytes strs).length) strs),
      t.setMemory (sp - (argBytes strs).length) (argBytes strs)) := by
  rw [Userspace.pushStrings, bind_run_ok (h.pushString hsp hroom hlen), reverse_reverse]
  rfl

theorem length_wordBytes : (wordBytes words).length = 8 * words.length := by
  induction words with
  | nil => rfl
  | cons w ws ih =>
    have : (Bytes.toLe 8 w).length = 8 := Bytes.length_toLe 8 w
    simp only [wordBytes, flatMap_cons, length_append, length_cons] at ih ⊢
    omega

-- Where the strings begin, and where the block does: at a multiple of 16 below them.
def argsStart (top : Nat) (argv : List Bytes) : Nat := top - 16 - (argBytes argv).length

def blockStart (top : Nat) (argv : List Bytes) : Nat :=
  let below := argsStart top argv - (8 * (3 + argv.length) + 144)
  below - below % 16

def blockWords (top : Nat) (argv : List Bytes) (info : ElfLoadInfo) : List Nat :=
  startWords argv.length (argAddrs (argsStart top argv) argv) [] info (top - 16) ((argAddrs (argsStart top argv) argv).headD 0)

theorem length_blockWords : (blockWords top argv info).length = 3 + argv.length + 18 := by
  simp only [blockWords, startWords, auxv, length_append, length_cons, length_nil, flatMap_cons,
    flatMap_nil, length_argAddrs]
  omega

theorem length_atRandomBytes (tsc : UInt64) : (atRandomBytes tsc).length = 16 := by
  simp [atRandomBytes, Bytes.length_toLe]

-- The stack in the end: the block below the strings, and these below the random bytes.
def Space.withStart (t : Space) (tsc : UInt64) (top : Nat) (argv : List Bytes) (info : ElfLoadInfo) : Space :=
  ((t.setMemory (top - 16) (atRandomBytes tsc)).setMemory (argsStart top argv) (argBytes argv)).setMemory
    (blockStart top argv) (wordBytes (blockWords top argv info))

section

variable (h : StackReady t top) (hmod : top % 16 = 0) (htop : 65536 ≤ top)
include h hmod htop

theorem StackReady.buildInitialStack_run (hb : budget argv ≤ 65536) :
    (buildInitialStack tsc top argv info).run t = (.ok (blockStart top argv), t.withStart tsc top argv info) := by
  have hbud : 16 + (argBytes argv).length + (8 * (3 + argv.length) + 144) + 64 ≤ 65536 := by rwa [length_argBytes]
  have hrand : (atRandomBytes tsc).length = 16 := length_atRandomBytes tsc
  have hstart : top - top % 16 = top := by omega
  have hwritten : StackReady (t.setMemory (top - 16) (atRandomBytes tsc)) top := h.of_pages rfl
  have hready : StackReady ((t.setMemory (top - 16) (atRandomBytes tsc)).setMemory (argsStart top argv) (argBytes argv)) top :=
    h.of_pages rfl
  have hargs : (Userspace.pushStrings (top - 16) argv).run _ = _ := hwritten.pushStrings (by omega) (by omega) (by omega)
  have hbelow : blockStart top argv + (8 * (3 + argv.length) + 144) ≤ top ∧ top ≤ blockStart top argv + 65536 := by
    simp only [blockStart, argsStart]
    omega
  have hblock : 8 * (3 + argv.length) + 144 ≤ argsStart top argv := by
    unfold argsStart
    omega
  have henv (t' : Space) : (Userspace.pushStrings (argsStart top argv) []).run t' = (.ok (argsStart top argv, []), t') := rfl
  have hwords : (store (blockStart top argv) (wordBytes (blockWords top argv info)) : LoadM Unit).run _ = _ :=
    hready.store_run (by omega) (by rw [length_wordBytes, length_blockWords]; omega)
  rw [buildInitialStack, exact_stackBudget.of_good hb, lift_ok_bind_run, hstart,
    bind_run_ok (h.writeBytesDown (Nat.le_refl top) (by omega) (by omega)), hrand, bind_run_ok hargs]
  refine (bind_run_ok (henv _)).trans ?_
  rw [checkedSub_of_le hblock, lift_ok_bind_run]
  exact bind_run_ok hwords

theorem StackReady.buildInitialStack
    (hb : budget argv ≤ 65536) : (buildInitialStack tsc top argv info).Completes t :=
  ⟨_, _, h.buildInitialStack_run hmod htop hb⟩

theorem StackReady.panics_buildInitialStack : (Userspace.buildInitialStack tsc top argv info).Panics t ↔ 2 ^ 64 ≤ budget argv := by
  by_cases hb : budget argv ≤ 65536
  · refine iff_of_false (h.buildInitialStack hmod htop hb).not_panics (by omega)
  rw [Userspace.buildInitialStack, Prog.panics_lift_bind, exact_stackBudget.panics]
  refine or_iff_left ?_
  rintro ⟨_, hok, _⟩
  exact hb (exact_stackBudget.eq_ok.mp hok).1

end

end Userspace
