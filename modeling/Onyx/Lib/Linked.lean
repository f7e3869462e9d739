import Mathlib

-- `link a` is `none` without a link, `some none` at the end and `some (some b)` before `b`.

open List

namespace Lib

inductive Linked {α : Type*} (link : α → Option (Option α)) : α → List α → Prop
  | last : link a = some none → Linked link a [a]
  | cons : link a = some (some b) → Linked link b bs → Linked link a (a :: bs)

namespace Linked

variable {α : Type*} {link link' : α → Option (Option α)} {a b c : α} {as bs : List α}

theorem head?_eq : Linked link a as → as.head? = some a
  | last _ | cons _ _ => rfl

theorem ne_nil (h : Linked link a as) : as ≠ [] := by
  cases h <;> simp

theorem mem_head (h : Linked link a as) : a ∈ as :=
  mem_of_mem_head? h.head?_eq

theorem unique (h1 : Linked link a as) (h2 : Linked link a bs) : as = bs := by
  induction h1 generalizing bs with
  | last h =>
    cases h2 with
    | last _ => rfl
    | cons h' _ => simp [h] at h'
  | cons h _ hi =>
    cases h2 with
    | last h' => simp [h] at h'
    | cons h' hb =>
      rw [h, Option.some.injEq, Option.some.injEq] at h'
      rw [hi (h' ▸ hb)]

section

variable (h : Linked link a as)
include h

theorem suffix_of_mem (hb : b ∈ as) : ∃ bs, Linked link b bs ∧ bs <:+ as := by
  induction h with
  | last h =>
    cases mem_singleton.mp hb
    exact ⟨_, .last h, suffix_refl _⟩
  | cons h h' hi =>
    cases hb with
    | head => exact ⟨_, .cons h h', suffix_refl _⟩
    | tail _ hb =>
      have ⟨bs, hbs, hs⟩ := hi hb
      exact ⟨bs, hbs, hs.trans (suffix_cons ..)⟩

theorem link_ne_none (hb : b ∈ as) : link b ≠ none := by
  have ⟨_, hbs, _⟩ := h.suffix_of_mem hb
  cases hbs <;> simp [*]

theorem nodup : as.Nodup := by
  induction h with
  | last => simp
  | cons h h' hi =>
    rename_i a _ bs
    refine nodup_cons.mpr ⟨fun ha => ?_, hi⟩
    have ⟨cs, hcs, hs⟩ := h'.suffix_of_mem ha
    have := hs.length_le
    rw [hcs.unique (.cons h h'), length_cons] at this
    omega

theorem congr (hl : ∀ b ∈ as, link' b = link b) : Linked link' a as := by
  induction h with
  | last h => exact .last (by simp [hl, h])
  | cons h _ hi =>
    refine .cons (by simp [hl, h]) (hi fun b hb => hl b (.tail _ hb))

theorem snoc (hn : ∀ b ∈ as, b ∉ as.getLast? → link' b = link b)
    (hl : ∀ b ∈ as.getLast?, link' b = some (some c)) (hc : link' c = some none) : Linked link' a (as ++ [c]) := by
  induction h with
  | last _ => exact .cons (hl _ rfl) (.last hc)
  | cons h h' hi =>
    rename_i a b bs
    have hg : (a :: bs).getLast? = bs.getLast? := getLast?_cons_of_ne_nil h'.ne_nil
    have hnd := (Linked.cons h h').nodup
    have ha : a ∉ bs.getLast? := fun hm =>
      (nodup_cons.mp hnd).1 (mem_of_mem_getLast? hm)
    rw [hg] at hn hl
    exact .cons (by rw [hn a (.head _) ha, h]) (hi (fun b hb => hn b (.tail _ hb)) hl)

theorem take (hk : k < as.length) (hn : ∀ b ∈ as.take k, link' b = link b) (hl : ∀ b ∈ as[k]?, link' b = some none) :
    Linked link' a (as.take (k + 1)) := by
  induction h generalizing k with
  | last _ =>
    cases k with
    | zero => exact .last (hl _ rfl)
    | succ _ => simp at hk
  | cons h h' hi =>
    cases k with
    | zero => exact .last (hl _ rfl)
    | succ k =>
      refine .cons (by rw [hn _ (.head _), h]) (hi (by simpa using hk) (fun b hb => ?_) hl)
      exact hn b (.tail _ hb)

end

end Linked
end Lib
