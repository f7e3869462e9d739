import Onyx.Userspace.Space

-- What the page table operations do to a range of pages, and when they panic.

open Lib

namespace Userspace

variable {ε : Type} {s : Space} {flags : PageFlags}

namespace Space

def setPages (s : Space) (first n : Nat) (flags : PageFlags) : Space :=
  { s with pages := fun p => if first ≤ p ∧ p < first + n then some flags else s.pages p }

@[simp]
theorem setPages_zero : s.setPages first 0 flags = s := by
  have : ∀ p, ¬(first ≤ p ∧ p < first + 0) := by
    intro p
    omega
  simp only [setPages, this, if_false]

theorem setPages_succ : (s.setPages first n flags).setPage (first + n) flags = s.setPages first (n + 1) flags := by
  have : ∀ p, (if p = first + n then some flags else if first ≤ p ∧ p < first + n then some flags else s.pages p) =
      if first ≤ p ∧ p < first + (n + 1) then some flags else s.pages p := by
    intro p
    split_ifs <;> first | rfl | omega
  simp [setPage, setPages, this]

theorem pages_setPages :
    (s.setPages first n flags).pages p = if first ≤ p ∧ p < first + n then some flags else s.pages p :=
  rfl

theorem mapped_setPages : (s.setPages first n flags).Mapped p ↔ (first ≤ p ∧ p < first + n) ∨ s.Mapped p := by
  by_cases h : first ≤ p ∧ p < first + n <;> simp [Mapped, pages_setPages, h]

theorem mapped_above : (s.setPages first n flags).Mapped (first + n) ↔ s.Mapped (first + n) := by
  rw [mapped_setPages, or_iff_right (by omega)]

theorem writable_setMemory : (s.setMemory addr data).Writable p ↔ s.Writable p :=
  Iff.rfl

theorem setPages_setPages : (s.setPages first n flags).setPages first n flags' = s.setPages first n flags' := by
  have : ∀ p, (if first ≤ p ∧ p < first + n then some flags' else
      if first ≤ p ∧ p < first + n then some flags else s.pages p) =
      if first ≤ p ∧ p < first + n then some flags' else s.pages p := by
    intro p
    split_ifs <;> rfl
  simp [setPages, this]

end Space

theorem mapTo_run (h : ¬s.Mapped page) : (mapTo page flags : UserM ε Unit).run s = (.ok (), s.setPage page flags) := by
  have : s.pages page = none := by
    simpa [Space.Mapped] using h
  simp [mapTo, this]

theorem mapTo_run_mapped (h : s.Mapped page) :
    (mapTo page flags : UserM ε Unit).run s = (abort, { s with doubled := true }) := by
  obtain ⟨f, hf⟩ := Option.isSome_iff_exists.mp h
  simp only [mapTo, hf]

theorem exact_mapTo :
    (mapTo page flags : UserM ε Unit).Exact s (s.Mapped page) (¬s.Mapped page) () (s.setPage page flags) := by
  by_cases hm : s.Mapped page
  · constructor <;> simp [Prog.Panics, mapTo_run_mapped hm, hm, abort, Panics]
  · constructor <;> simp [Prog.Panics, mapTo_run hm, hm, eq_comm]

theorem exact_mapPage : (mapPage vaddr flags : UserM ε Unit).Exact s
    (¬(vaddr % pageSize = 0 ∧ Canonical vaddr ∧ ¬s.Mapped (vaddr / pageSize)))
    (vaddr % pageSize = 0 ∧ Canonical vaddr ∧ ¬s.Mapped (vaddr / pageSize)) () (s.setPage (vaddr / pageSize) flags) :=
  .congr (.bind (.lift .require) fun _ => .bind (.lift .require) fun _ => exact_mapTo) (by grind) Iff.rfl

theorem exact_updateFlags : (updateFlags vaddr flags : UserM ε Unit).Exact s
    (¬(Canonical vaddr ∧ s.Mapped (vaddr / pageSize))) (Canonical vaddr ∧ s.Mapped (vaddr / pageSize)) ()
    (s.setPage (vaddr / pageSize) flags) :=
  .congr (.bind (.lift .require) fun _ => .bind (.read .require) fun _ => .modify) (by grind) (by simp)

section range

variable (hs : start % pageSize = 0) (hn : start + n * pageSize ≤ 2 ^ 47)
include hs hn

private theorem page_of_range (hk : k < n) :
    start + k * pageSize < 2 ^ 64 ∧ (start + k * pageSize) % pageSize = 0 ∧ Canonical (start + k * pageSize) ∧
    (start + k * pageSize) / pageSize = start / pageSize + k := by
  have hle : (k + 1) * pageSize ≤ n * pageSize := Nat.mul_le_mul_right _ hk
  rw [pageSize_eq] at *
  unfold Canonical
  omega

-- An action that asks of a page only what the pages below it do not change.
private theorem exact_eachPage {act : Nat → UserM ε Unit} (Good : Space → Nat → Prop)
    (hact : ∀ {va t}, va % pageSize = 0 → Canonical va →
      (act va).Exact t (¬Good t (va / pageSize)) (Good t (va / pageSize)) () (t.setPage (va / pageSize) flags))
    (hgood : ∀ {k}, Good (s.setPages (start / pageSize) k flags) (start / pageSize + k) ↔ Good s (start / pageSize + k)) :
    (eachPage act start n).Exact s (∃ k, k < n ∧ ¬Good s (start / pageSize + k))
      (∀ k, k < n → Good s (start / pageSize + k)) () (s.setPages (start / pageSize) n flags) := by
  refine .foldlM_range _ (fun k => s.setPages (start / pageSize) k flags) Space.setPages_zero fun k hk => ?_
  have ⟨h64, ha, hc, hp⟩ := page_of_range hs hn hk
  have hround := hact (t := s.setPages (start / pageSize) k flags) ha hc
  rw [hp, Space.setPages_succ, hgood] at hround
  exact .congr (.bind (.lift .checked) fun _ => hround) (by grind) (by grind)

theorem exact_mapRange : (eachPage (mapPage · flags) start n : UserM ε Unit).Exact s
    (∃ k, k < n ∧ s.Mapped (start / pageSize + k)) (∀ k, k < n → ¬s.Mapped (start / pageSize + k)) ()
    (s.setPages (start / pageSize) n flags) := by
  refine .congr (exact_eachPage hs hn (fun t p => ¬t.Mapped p) (fun ha hc => ?_) Space.mapped_above.not)
    (by simp only [not_not]) Iff.rfl
  exact exact_mapPage.congr (by simp [ha, hc]) (by simp [ha, hc])

theorem protectRange_run (hm : ∀ k, k < n → s.Mapped (start / pageSize + k)) :
    (eachPage (updateFlags · flags) start n : UserM ε Unit).run s = (.ok (), s.setPages (start / pageSize) n flags) := by
  refine (exact_eachPage hs hn Space.Mapped (fun _ hc => ?_) Space.mapped_above).of_good hm
  exact exact_updateFlags.congr (by simp [hc]) (by simp [hc])

end range

section stack

def stackTop (slot : Nat) : Nat := 0x40000000 + slot * 0x10000000

theorem stackTop_mod (slot : Nat) : stackTop slot % pageSize = 0 := by
  rw [stackTop, pageSize_eq]
  omega

theorem exact_userStackTop :
    Exact (userStackTop slot : Result ε Nat) (2 ^ 64 ≤ stackTop slot) (stackTop slot < 2 ^ 64) (stackTop slot) := by
  unfold stackTop
  exact .congr (.bind .checked fun _ => .checked) (by omega) (by omega)

theorem stackTop_ge (slot : Nat) : userStackPages * pageSize ≤ stackTop slot := by
  rw [stackTop, pageSize_eq, userStackPages]
  omega

theorem userStackPages_le (slot : Nat) : userStackPages ≤ stackTop slot / pageSize :=
  (Nat.le_div_iff_mul_le (by rw [pageSize_eq]; decide)).mpr (stackTop_ge slot)

def stackPage (top : Nat) : Nat := top / pageSize - userStackPages

-- Page `k` of a stack, counted from its top, can be mapped.
def StackFree (s : Space) (top k : Nat) : Prop :=
  Canonical (top - (k + 1) * pageSize) ∧ ¬s.Mapped (top / pageSize - (k + 1))

private theorem page_of_stack (ha : top % pageSize = 0) (ht : userStackPages * pageSize ≤ top) (hk : k < userStackPages) :
    (k + 1) * pageSize ≤ top ∧ (top - (k + 1) * pageSize) % pageSize = 0 ∧
    (top - (k + 1) * pageSize) / pageSize = top / pageSize - (k + 1) ∧ userStackPages ≤ top / pageSize := by
  rw [pageSize_eq] at *
  unfold userStackPages at *
  omega

private theorem setPages_down :
    (s.setPages (first + 1) n flags).setPage first flags = s.setPages first (n + 1) flags := by
  have : ∀ p, (if p = first then some flags else if first + 1 ≤ p ∧ p < first + 1 + n then some flags else s.pages p) =
      if first ≤ p ∧ p < first + (n + 1) then some flags else s.pages p := by
    intro p
    split_ifs <;> first | rfl | omega
  simp only [Space.setPage, Space.setPages, this]

variable (ha : top % pageSize = 0) (ht : userStackPages * pageSize ≤ top)

include ha ht

theorem exact_mapStack : (mapStack top : UserM ε Unit).Exact s (∃ k, k < userStackPages ∧ ¬StackFree s top k)
    (∀ k, k < userStackPages → StackFree s top k) () (s.setPages (stackPage top) userStackPages dataFlags) := by
  refine .foldlM_range _ (fun k => s.setPages (top / pageSize - k) k dataFlags) Space.setPages_zero fun k hk => ?_
  have ⟨hle, hal, hp, hpages⟩ := page_of_stack ha ht hk
  have hdown : top / pageSize - k = top / pageSize - (k + 1) + 1 := by omega
  have hround : (mapPage (top - (k + 1) * pageSize) dataFlags : UserM ε Unit).Exact (s.setPages (top / pageSize - k) k dataFlags)
    _ _ _ _ := exact_mapPage
  rw [hp, Space.mapped_setPages, or_iff_right (by omega), hdown, setPages_down] at hround
  rw [hdown]
  exact .congr (.bind (.lift .checkedSub) fun _ => hround) (by simp [hle, hal, StackFree]) (by simp [hle, hal, StackFree])

end stack

theorem exact_store : (store addr data : UserM ε Unit).Exact s
    (¬∀ i, i < data.length → s.Writable ((addr + i) / pageSize)) (∀ i, i < data.length → s.Writable ((addr + i) / pageSize)) ()
    (s.setMemory addr data) :=
  .congr (.bind (.read .require) fun _ => .modify) (by simp) (by simp)

end Userspace
