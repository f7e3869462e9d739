import Onyx.Lib.Panic

-- Computations of which it is known when they panic and what their value is.

open List

namespace Lib

variable {σ ε α β : Type} {bad bad' good good' c : Prop}

-- It panics if and only if `bad`, and it has a value, namely `a`, if and only if `good`.
structure Exact (r : Result ε α) (bad good : Prop) (a : α) : Prop where
  panics : Panics r ↔ bad
  eq_ok : ∀ {b}, r = .ok b ↔ good ∧ b = a

namespace Exact

variable {r r' : Result ε α} {f : α → Result ε β} {a : α} {b : β}

theorem congr (h : Exact r bad good a) (hb : bad ↔ bad') (hg : good ↔ good') : Exact r bad' good' a :=
  ⟨h.panics.trans hb, h.eq_ok.trans (and_congr_left' hg)⟩

theorem of_good (h : Exact r bad good a) (hg : good) : r = .ok a := h.eq_ok.mpr ⟨hg, rfl⟩

theorem ok : Exact (.ok a : Result ε α) False True a := by
  constructor <;> simp [eq_comm]

theorem of_eq (h : r = .ok a) : Exact r False True a := h ▸ ok

theorem fail : Exact (Lib.fail e : Result ε α) False False a := by
  constructor <;> simp [Lib.fail]

theorem abort : Exact (Lib.abort : Result ε α) True False a := by
  constructor <;> simp [Lib.abort, Panics]

theorem checked : Exact (Lib.checked width n : Result ε Nat) (2 ^ width ≤ n) (n < 2 ^ width) n :=
  ⟨panics_checked, checked_eq_ok.trans and_comm⟩

theorem checkedSub : Exact (Lib.checkedSub m n : Result ε Nat) (m < n) (n ≤ m) (m - n) :=
  ⟨panics_checkedSub, checkedSub_eq_ok⟩

theorem require [Decidable c] : Exact (Lib.require c : Result ε Unit) (¬c) c () :=
  ⟨panics_require, require_eq_ok.trans (and_iff_left rfl).symm⟩

theorem ite [Decidable c] (h : c → Exact r bad good a) (h' : ¬c → Exact r' bad' good' a) :
    Exact (if c then r else r') (c ∧ bad ∨ ¬c ∧ bad') (c ∧ good ∨ ¬c ∧ good') a := by
  split
  case isTrue hc => exact (h hc).congr (by simp [hc]) (by simp [hc])
  case isFalse hc => exact (h' hc).congr (by simp [hc]) (by simp [hc])

theorem cases [Decidable c] (h : c → Exact r bad good a) (h' : ¬c → Exact r' bad' good' a') :
    Exact (if c then r else r') (c ∧ bad ∨ ¬c ∧ bad') (c ∧ good ∨ ¬c ∧ good') (if c then a else a') := by
  refine ite (fun hc => ?_) fun hc => ?_
  · rw [if_pos hc]
    exact h hc
  · rw [if_neg hc]
    exact h' hc

theorem panics_bind (h : Exact r bad good a) : Panics (r >>= f) ↔ bad ∨ good ∧ Panics (f a) := by
  rw [Lib.panics_bind, h.panics]
  refine or_congr_right ⟨?_, fun ⟨hg, hp⟩ => ⟨a, h.of_good hg, hp⟩⟩
  rintro ⟨_, ha, hp⟩
  obtain ⟨hg, rfl⟩ := h.eq_ok.mp ha
  exact ⟨hg, hp⟩

theorem bind (h : Exact r bad good a) (hf : good → Exact (f a) bad' good' b) :
    Exact (r >>= f) (bad ∨ good ∧ bad') (good ∧ good') b := by
  constructor
  · rw [h.panics_bind]
    exact or_congr_right (and_congr_right fun hg => (hf hg).panics)
  · intro b'
    rw [Result.bind_eq_ok, and_assoc]
    refine ⟨?_, fun ⟨hg, hb⟩ => ⟨a, h.of_good hg, (hf hg).eq_ok.mpr hb⟩⟩
    rintro ⟨_, ha, hb⟩
    obtain ⟨hg, rfl⟩ := h.eq_ok.mp ha
    exact ⟨hg, (hf hg).eq_ok.mp hb⟩

theorem foldlM_range {f : β → Nat → Result ε β} {g : β → Nat → β} {Good Bad : Nat → Prop}
    (h : ∀ b k, k < n → Exact (f b k) (Bad k) (Good k) (g b k)) :
    Exact ((range n).foldlM f b) (∃ k, k < n ∧ (∀ j, j < k → Good j) ∧ Bad k) (∀ k, k < n → Good k)
      ((range n).foldl g b) := by
  induction n with
  | zero => exact ok.congr (by simp) (by simp)
  | succ n ih =>
    rw [range_succ, foldlM_append, foldl_append]
    simp only [foldlM_cons, foldlM_nil, bind_pure]
    refine ((ih fun b k hk => h b k (by omega)).bind fun _ => h _ n (Nat.lt_succ_self n)).congr ?_ ?_
    · simp only [Nat.lt_succ_iff_lt_or_eq, or_and_right, exists_or, exists_eq_left]
    · simp only [Nat.lt_succ_iff_lt_or_eq, or_imp, forall_and, forall_eq]

end Exact

namespace Prog

variable {p p' : Prog σ ε α} {f : α → Prog σ ε β} {r : Result ε α} {g : σ → Result ε α} {s s1 s' : σ} {a : α} {b : β}

-- The same of a program that is started in `s`, with the state in which it ends.
structure Exact (p : Prog σ ε α) (s : σ) (bad good : Prop) (a : α) (s' : σ) : Prop where
  panics : p.Panics s ↔ bad
  eq_ok : ∀ {b t}, p.run s = (.ok b, t) ↔ good ∧ b = a ∧ t = s'

namespace Exact

theorem congr (h : p.Exact s bad good a s') (hb : bad ↔ bad') (hg : good ↔ good') : p.Exact s bad' good' a s' :=
  ⟨h.panics.trans hb, h.eq_ok.trans (and_congr_left' hg)⟩

theorem of_good (h : p.Exact s bad good a s') (hg : good) : p.run s = (.ok a, s') := h.eq_ok.mpr ⟨hg, rfl, rfl⟩

theorem completes (h : p.Exact s bad good a s') : p.Completes s ↔ good :=
  ⟨fun ⟨_, _, hr⟩ => (h.eq_ok.mp hr).1, fun hg => ⟨_, _, h.of_good hg⟩⟩

theorem of_run (h : p.run s = (.ok a, s')) : p.Exact s False True a s' := by
  constructor <;> simp [Panics, h, eq_comm]

theorem pure : (Pure.pure a : Prog σ ε α).Exact s False True a s := of_run rfl

theorem read (h : Lib.Exact (g s) bad good a) : (Prog.read g).Exact s bad good a s := by
  refine ⟨h.panics, fun {b t} => ?_⟩
  rw [read_run, Prod.mk.injEq, h.eq_ok, and_assoc, eq_comm (a := s)]

theorem lift (h : Lib.Exact r bad good a) : (Prog.lift r : Prog σ ε α).Exact s bad good a s :=
  read (g := fun _ => r) h

theorem modify {g : σ → σ} : (Prog.modify g : Prog σ ε Unit).Exact s False True () (g s) := of_run rfl

theorem panics_bind (h : p.Exact s bad good a s1) : (p >>= f).Panics s ↔ bad ∨ good ∧ (f a).Panics s1 := by
  rw [Prog.panics_bind, h.panics]
  refine or_congr_right ⟨?_, fun ⟨hg, hb⟩ => ⟨a, s1, h.of_good hg, hb⟩⟩
  rintro ⟨_, _, hr, hp⟩
  obtain ⟨hg, rfl, rfl⟩ := h.eq_ok.mp hr
  exact ⟨hg, hp⟩

theorem bind_eq_ok (h : p.Exact s bad good a s1) : (p >>= f).run s = (.ok b, s') ↔ good ∧ (f a).run s1 = (.ok b, s') := by
  rw [Prog.bind_eq_ok]
  refine ⟨?_, fun ⟨hg, hb⟩ => ⟨a, s1, h.of_good hg, hb⟩⟩
  rintro ⟨_, _, hr, hb⟩
  obtain ⟨hg, rfl, rfl⟩ := h.eq_ok.mp hr
  exact ⟨hg, hb⟩

theorem bind (h : p.Exact s bad good a s1) (hf : good → (f a).Exact s1 bad' good' b s') :
    (p >>= f).Exact s (bad ∨ good ∧ bad') (good ∧ good') b s' := by
  constructor
  · rw [h.panics_bind]
    exact or_congr_right (and_congr_right fun hg => (hf hg).panics)
  · intro b' t
    rw [h.bind_eq_ok, and_assoc]
    exact and_congr_right fun hg => (hf hg).eq_ok

theorem modify_bind {g : σ → σ} {f : Unit → Prog σ ε α} (h : (f ()).Exact (g s) bad good a s') :
    (Prog.modify g >>= f).Exact s bad good a s' :=
  ⟨h.panics, h.eq_ok⟩

-- A loop whose rounds depend on their number only; `S k` is the state before round `k`.
theorem foldlM_range {body : Unit → Nat → Prog σ ε Unit} (Good : Nat → Prop) (S : Nat → σ) (h0 : S 0 = s)
    (h : ∀ k, k < n → (body () k).Exact (S k) (¬Good k) (Good k) () (S (k + 1))) :
    ((range n).foldlM body ()).Exact s (∃ k, k < n ∧ ¬Good k) (∀ k, k < n → Good k) () (S n) := by
  subst h0
  induction n with
  | zero => exact pure.congr (by simp) (by simp)
  | succ n ih =>
    rw [range_succ, foldlM_append]
    simp only [foldlM_cons, foldlM_nil, bind_pure]
    refine ((ih fun k hk => h k (by omega)).bind fun _ => h n (Nat.lt_succ_self n)).congr ?_ ?_
    · simp only [Nat.lt_succ_iff_lt_or_eq, or_and_right, exists_or, exists_eq_left]
      exact ⟨fun h => h.imp_right And.right, fun h => by
        by_cases hall : ∀ k, k < n → Good k
        · exact h.imp_right (⟨hall, ·⟩)
        · simp only [not_forall, exists_prop] at hall
          exact .inl hall⟩
    · simp only [Nat.lt_succ_iff_lt_or_eq, or_imp, forall_and, forall_eq]

end Exact

-- The program panics if `bad`, and otherwise it ends with a value and a state as `Q` says.
structure Decides (p : Prog σ ε α) (s : σ) (bad : Prop) (Q : α → σ → Prop) : Prop where
  panics : bad → p.Panics s
  value : ¬bad → ∃ a s', p.run s = (.ok a, s') ∧ Q a s'

namespace Decides

variable {Q : α → σ → Prop} {R : β → σ → Prop}

theorem of_run (hb : ¬bad) (h : p.run s = (.ok a, s')) (hq : Q a s') : p.Decides s bad Q :=
  ⟨fun h => absurd h hb, fun _ => ⟨a, s', h, hq⟩⟩

theorem congr (hp : p.run s = p'.run s') (h : p'.Decides s' bad Q) : p.Decides s bad Q := by
  refine ⟨fun hb => ?_, fun hb => ?_⟩
  · rw [Panics, hp]
    exact h.panics hb
  · rw [hp]
    exact h.value hb

theorem bind (h : p.Decides s bad' Q) (hb : bad' → bad) (hf : ¬bad' → ∀ a s', Q a s' → (f a).Decides s' bad R) :
    (p >>= f).Decides s bad R := by
  by_cases hp : bad'
  · exact ⟨fun _ => Prog.panics_bind.mpr (.inl (h.panics hp)), fun hn => absurd (hb hp) hn⟩
  · obtain ⟨a, s', hr, hq⟩ := h.value hp
    exact congr (bind_run_ok hr) (hf hp a s' hq)

theorem run_bind (h : p.run s = (.ok a, s')) (hf : (f a).Decides s' bad R) : (p >>= f).Decides s bad R :=
  congr (bind_run_ok h) hf

theorem read_bind (h : Lib.Exact (g s) bad' good a) (hb : bad' → bad) (hg : ¬bad' → good) (hf : good → (f a).Decides s bad R) :
    (Prog.read g >>= f).Decides s bad R := by
  by_cases hp : bad'
  · exact ⟨fun _ => panics_read_bind.mpr (.inl (h.panics.mpr hp)), fun hn => absurd (hb hp) hn⟩
  · exact run_bind (by rw [read_run, h.of_good (hg hp)]) (hf (hg hp))

theorem lift_bind (h : Lib.Exact r bad' good a) (hb : bad' → bad) (hg : ¬bad' → good) (hf : good → (f a).Decides s bad R) :
    (Prog.lift r >>= f).Decides s bad R :=
  read_bind (g := fun _ => r) h hb hg hf

end Decides
end Prog
end Lib
