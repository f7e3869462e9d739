import Onyx.Lib.Simulation

-- Two runs of the same program, from states that are related but need not be the same.

namespace Lib.Prog

variable {σ τ ε α β κ : Type} {R : σ → σ → Prop} {p : Prog σ ε α} {f : α → Prog σ ε β}
variable {g : σ → Result ε α} {s s' t t' : σ} {r : Result ε α}

-- Both runs end in the same way, and in related states unless that way is a panic.
def Agrees (R : σ → σ → Prop) (p : Prog σ ε α) (s t : σ) : Prop :=
  ∃ r s' t', p.run s = (r, s') ∧ p.run t = (r, t') ∧ (r ≠ abort → R s' t')

namespace Agrees

theorem pure (h : R s t) : Agrees R (Pure.pure a : Prog σ ε α) s t :=
  ⟨_, _, _, rfl, rfl, fun _ => h⟩

theorem lift (h : R s t) : Agrees R (lift r) s t :=
  ⟨_, _, _, rfl, rfl, fun _ => h⟩

theorem bind (h : Agrees R p s t)
    (hf : ∀ a s' t', p.run s = (.ok a, s') → p.run t = (.ok a, t') → R s' t' → Agrees R (f a) s' t') :
    Agrees R (p >>= f) s t := by
  have ⟨r, s', t', hs, ht, hR⟩ := h
  cases r with
  | error e =>
    refine ⟨.error e, s', t', bind_run_error hs, bind_run_error ht, fun he => hR ?_⟩
    simpa [abort] using he
  | ok a =>
    rw [Agrees, bind_run_ok hs, bind_run_ok ht]
    exact hf a s' t' hs ht (hR (by simp [abort]))

theorem read_bind (h : R s t) (hg : g s = g t) (hf : ∀ a, g s = .ok a → Agrees R (f a) s t) :
    Agrees R (Prog.read g >>= f) s t := by
  refine .bind ⟨g s, s, t, rfl, by rw [read_run, hg], fun _ => h⟩ fun a s' t' hs ht _ => ?_
  simp only [read_run, Prod.mk.injEq] at hs ht
  exact hs.2 ▸ ht.2 ▸ hf a hs.1

theorem of_simulates (hs : S s x) (ht : S t y)
    (hx : Simulates S p x r x') (hy : Simulates S p y r y')
    (hR : ∀ {s' t'}, S s' x' → S t' y' → r ≠ abort → R s' t') : Agrees R p s t := by
  have ⟨s', h1, hs'⟩ := hx s hs
  have ⟨t', h2, ht'⟩ := hy t ht
  exact ⟨r, s', t', h1, h2, hR hs' ht'⟩

end Agrees

def replies (exec : κ → Prog σ ε α) : List κ → σ → List (Result ε α)
  | [], _ => []
  | c :: cs, s =>
    match (exec c).run s with
    | (.error .panic, _) => [abort]
    | (r, s') => r :: replies exec cs s'

-- A condition on the states of two runs and the next call holds all the way.
def Throughout (exec : κ → Prog σ ε α) (good : σ → σ → κ → Prop) : List κ → σ → σ → Prop
  | [], _, _ => True
  | c :: cs, s, t =>
    good s t c ∧ Throughout exec good cs ((exec c).run s).2 ((exec c).run t).2

theorem replies_eq
    (hstep : ∀ {c s t}, R s t → good s t c → Agrees R (exec c) s t) (h : R s t)
    (hg : Throughout exec good cs s t) : replies exec cs s = replies exec cs t := by
  induction cs generalizing s t with
  | nil => rfl
  | cons c cs hi =>
    have ⟨r, s', t', hs, ht, hR⟩ := hstep h hg.1
    have hg' := hg.2
    rw [hs, ht] at hg'
    simp only [replies, hs, ht]
    match r with
    | .error .panic => rfl
    | .error (.err _) => simp only [hi (hR (by simp [abort])) hg']
    | .ok _ => simp [hi (hR (by simp [abort])) hg']

end Lib.Prog
