import Mathlib

-- Tables as lists of entries at stable indices, and relations between two versions of one.

open List

namespace Lib

-- The second table has the same indices, and each of its entries is related to the one it replaces.
structure Evolves {α : Type*} (r : α → α → Prop) (l l' : List α) : Prop where
  length : l'.length = l.length
  entry : ∀ {i : Nat} {a' : α}, l'[i]? = some a' → ∃ a, l[i]? = some a ∧ r a a'

namespace Evolves

variable {α : Type*} {r : α → α → Prop} {l l' l1 l2 l3 : List α} {a : α} {i : Nat}

theorem refl (hr : ∀ a, r a a) : Evolves r l l where
  length := rfl
  entry h := ⟨_, h, hr _⟩

theorem trans (ht : ∀ {a b c}, r a b → r b c → r a c) (h1 : Evolves r l1 l2) (h2 : Evolves r l2 l3) :
    Evolves r l1 l3 where
  length := h2.length.trans h1.length
  entry h := by
    have ⟨_, h', hr'⟩ := h2.entry h
    have ⟨_, h'', hr''⟩ := h1.entry h'
    exact ⟨_, h'', ht hr'' hr'⟩

theorem modify (hr : ∀ a, r a a) (hf : ∀ a, l[i]? = some a → r a (f a)) : Evolves r l (l.modify i f) where
  length := by simp
  entry {j a'} h := by
    rw [getElem?_modify] at h
    split at h
    case isTrue hi =>
      subst hi
      have ⟨a, ha, ha'⟩ := Option.map_eq_some_iff.mp h
      exact ⟨a, ha, ha' ▸ hf a ha⟩
    case isFalse => exact ⟨a', by simpa using h, hr a'⟩

theorem foldl (hr : ∀ a, r a a) (ht : ∀ {a b c}, r a b → r b c → r a c)
    {g : List α → β → List α} (hg : ∀ l b, Evolves r l (g l b)) (bs : List β) : Evolves r l (bs.foldl g l) := by
  induction bs generalizing l with
  | nil => exact .refl hr
  | cons b bs hi => exact .trans ht (hg l b) hi

theorem entry_of_old (h : Evolves r l l') (ha : l[i]? = some a) : ∃ a', l'[i]? = some a' ∧ r a a' := by
  have hi : i < l'.length := h.length ▸ (List.getElem?_eq_some_iff.mp ha).1
  have ⟨_, h1, h2⟩ := h.entry (getElem?_eq_getElem hi)
  rw [ha] at h1
  cases h1
  exact ⟨_, getElem?_eq_getElem hi, h2⟩

theorem map_eq (h : Evolves r l l') (hf : ∀ {a b}, r a b → f b = f a) : l'.map f = l.map f := by
  apply ext_getElem?
  intro i
  simp only [getElem?_map]
  cases ha : l[i]? with
  | none =>
    rw [getElem?_eq_none_iff] at ha
    rw [getElem?_eq_none_iff.mpr (h.length ▸ ha)]
  | some a =>
    have ⟨a', ha', hr⟩ := h.entry_of_old ha
    simp [ha', hf hr]

end Evolves
end Lib
