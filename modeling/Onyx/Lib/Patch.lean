import Mathlib

-- Memory as a function of the address, and lists of writes to it.

open List

namespace Lib

variable {α : Type} {m : Nat → α} {l : List (Nat × List α)} {a i : Nat} {b : List α}

def peek (m : Nat → α) (i n : Nat) : List α := (range n).map fun k => m (i + k)

def patch (m : Nat → α) (i : Nat) (b : List α) : Nat → α :=
  fun a => if i ≤ a then (b[a - i]?).getD (m a) else m a

def patches (m : Nat → α) (l : List (Nat × List α)) : Nat → α := l.foldl (fun m w => patch m w.1 w.2) m

-- The write reaches the address.
def Reaches (w : Nat × List α) (a : Nat) : Prop := w.1 ≤ a ∧ a < w.1 + w.2.length

@[simp]
theorem length_peek : (peek m i n).length = n := by
  simp [peek]

theorem getElem?_peek (h : k < n) : (peek m i n)[k]? = some (m (i + k)) := by
  simp [peek, h]

theorem patch_of_not_reaches (h : ¬Reaches (i, b) a) : patch m i b a = m a := by
  unfold patch
  split
  case isTrue hi =>
    have hlen : b.length ≤ a - i := by
      by_contra hlt
      exact h ⟨hi, by dsimp only; omega⟩
    rw [getElem?_eq_none hlen]
    rfl
  case isFalse => rfl

theorem patch_of_reaches (h : b[k]? = some v) : patch m i b (i + k) = v := by
  rw [patch, if_pos (by omega), Nat.add_sub_cancel_left, h]
  rfl

theorem patches_append : patches m (l ++ l') = patches (patches m l) l' :=
  foldl_append

theorem patches_congr (h : m a = m' a) : patches m l a = patches m' l a := by
  induction l generalizing m m' with
  | nil => exact h
  | cons w l hi =>
    refine hi ?_
    simp only [patch, h]

theorem patches_of_not_reaches (h : ∀ w ∈ l, ¬Reaches w a) : patches m l a = m a := by
  induction l generalizing m with
  | nil => rfl
  | cons w l hi =>
    rw [patches, foldl_cons]
    exact (hi fun w' hw => h w' (.tail _ hw)).trans (patch_of_not_reaches (h w (.head _)))

theorem patches_of_reaches (hv : ∀ w ∈ l, Reaches w a → w.2[a - w.1]? = some v) (hr : ∃ w ∈ l, Reaches w a) :
    patches m l a = v := by
  induction l generalizing m with
  | nil => exact absurd hr nofun
  | cons w l hi =>
    rw [patches, foldl_cons]
    by_cases hl : ∃ w' ∈ l, Reaches w' a
    · exact hi (fun w' hw => hv w' (.tail _ hw)) hl
    have hw : Reaches w a := by
      obtain ⟨w', hmem, hw'⟩ := hr
      cases hmem with
      | head => exact hw'
      | tail _ h => exact absurd ⟨w', h, hw'⟩ hl
    have hval := hv w (.head _) hw
    have hput : patch m w.1 w.2 (w.1 + (a - w.1)) = v := patch_of_reaches hval
    rw [Nat.add_sub_cancel' hw.1] at hput
    exact (patches_of_not_reaches fun w' hmem h => hl ⟨w', hmem, h⟩).trans hput

theorem patches_eq_self (h : ∀ w ∈ l, ∀ w' ∈ l, ∀ a, Reaches w a → Reaches w' a → w = w') :
    patches m l = m ↔ ∀ w ∈ l, peek m w.1 w.2.length = w.2 := by
  constructor
  · intro heq w hw
    refine ext_getElem length_peek fun k _ hk => ?_
    have hr : Reaches w (w.1 + k) := ⟨Nat.le_add_right .., Nat.add_lt_add_left hk _⟩
    have hv : patches m l (w.1 + k) = w.2[k] := by
      refine patches_of_reaches (fun w' hw' hr' => ?_) ⟨w, hw, hr⟩
      obtain rfl := h w hw w' hw' _ hr hr'
      rw [Nat.add_sub_cancel_left, getElem?_eq_getElem hk]
    simp [peek, ← hv, heq]
  · intro hpeek
    funext a
    by_cases hr : ∃ w ∈ l, Reaches w a
    · refine patches_of_reaches (fun w hw ⟨hlo, hhi⟩ => ?_) hr
      rw [← hpeek w hw, getElem?_peek (by omega), Nat.add_sub_cancel' hlo]
    · exact patches_of_not_reaches fun w hw hra => hr ⟨w, hw, hra⟩

end Lib
