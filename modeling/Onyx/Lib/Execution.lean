import Mathlib

-- Labelled transition systems and their finite runs: from `s` the label `a` can lead to `t` if `next s a t`.

namespace Lib

inductive Execution {σ α : Type*} (next : σ → α → σ → Prop) : σ → List α → σ → Prop
  | refl : Execution next s [] s
  | step : next s a t → Execution next t as u → Execution next s (a :: as) u

-- The steps of a system that also satisfy a condition on the state before the step and its label.
def Guarded {σ α : Type*} (next : σ → α → σ → Prop) (good : σ → α → Prop) (s : σ) (a : α) (t : σ) :
    Prop :=
  good s a ∧ next s a t

namespace Execution

variable {σ α : Type*} {next : σ → α → σ → Prop} {s t u : σ}

-- The invariant rule: what every step preserves holds wherever a run ends.
theorem invariant {inv : σ → Prop} (hs : ∀ {s a t}, next s a t → inv s → inv t)
    (e : Execution next s as t) (h : inv s) : inv t := by
  induction e with
  | refl => exact h
  | step e _ hi => exact hi (hs e h)

theorem trans (e1 : Execution next s as t) (e2 : Execution next t bs u) : Execution next s (as ++ bs) u := by
  induction e1 with
  | refl => exact e2
  | step e _ hi => exact .step e (hi e2)

theorem of_foldl (f : σ → α → σ) (s : σ) (as : List α) : Execution (fun s a t => t = f s a) s as (as.foldl f s) := by
  induction as generalizing s with
  | nil => exact .refl
  | cons a as hi => exact .step rfl (hi _)

end Execution

-- A law holds after every step exactly if every step is good.
theorem foldl_law_iff {σ α : Type*} {s : σ} {f : σ → α → σ} {law : σ → Prop} {good : σ → α → Prop} (inv : σ → Prop)
    (hlaw : ∀ {s}, inv s → law s) (hstep : ∀ {s a}, inv s → good s a → inv (f s a))
    (hgood : ∀ {s a}, inv s → law (f s a) → good s a) (h : inv s) (as : List α) :
    (∀ n, law ((as.take n).foldl f s)) ↔ ∀ n a, as[n]? = some a → good ((as.take n).foldl f s) a := by
  have hnext {n : Nat} {a : α} (ha : as[n]? = some a) : (as.take (n + 1)).foldl f s = f ((as.take n).foldl f s) a := by
    rw [List.take_add_one, ha, Option.toList_some, List.foldl_append]
    rfl
  have hinv {n : Nat} (hg : ∀ k < n, ∀ a, as[k]? = some a → good ((as.take k).foldl f s) a) : inv ((as.take n).foldl f s) := by
    induction n with
    | zero => exact h
    | succ n ih =>
      have hn := ih fun k hk => hg k (Nat.lt_succ_of_lt hk)
      cases ha : as[n]? with
      | some a =>
        rw [hnext ha]
        exact hstep hn (hg n (Nat.lt_succ_self n) a ha)
      | none => rwa [List.take_add_one, ha, Option.toList_none, List.append_nil]
  constructor
  · intro hl n
    induction n using Nat.strongRecOn with
    | ind n ih => exact fun a ha => hgood (hinv ih) (hnext ha ▸ hl (n + 1))
  · exact fun hg n => hlaw (hinv fun k _ => hg k)

end Lib
