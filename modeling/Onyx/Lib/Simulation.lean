import Onyx.Lib.Prog

-- From any state that abstracts to `t`, `p` ends with `r` in one that abstracts to `t'`.

namespace Lib.Prog

variable {σ τ ε α β : Type} {R : σ → τ → Prop} {p : Prog σ ε α} {f : α → Prog σ ε β}
variable {g : σ → Result ε α} {t t1 t2 t' : τ} {r : Result ε α} {a : α} {e : Fault ε}

def Simulates (R : σ → τ → Prop) (p : Prog σ ε α) (t : τ) (r : Result ε α) (t' : τ) : Prop :=
  ∀ s, R s t → ∃ s', p.run s = (r, s') ∧ R s' t'

namespace Simulates

theorem pure : Simulates R (Pure.pure a : Prog σ ε α) t (.ok a) t :=
  fun _ h => ⟨_, rfl, h⟩

theorem lift : Simulates R (lift r) t r t :=
  fun _ h => ⟨_, rfl, h⟩

theorem read (hg : ∀ s, R s t → g s = r) : Simulates R (read g) t r t :=
  fun s h => ⟨_, by simp [hg s h], h⟩

theorem bind {r : Result ε β} (h1 : Simulates R p t (.ok a) t1) (h2 : Simulates R (f a) t1 r t2) :
    Simulates R (p >>= f) t r t2 := by
  intro s h
  have ⟨s1, hp, h⟩ := h1 s h
  have ⟨s2, hf, h⟩ := h2 s1 h
  exact ⟨s2, by rw [bind_run_ok hp, hf], h⟩

theorem bind_error (h : Simulates R p t (.error e) t') : Simulates R (p >>= f) t (.error e) t' := by
  intro s hs
  have ⟨s', hp, hs'⟩ := h s hs
  exact ⟨s', bind_run_error hp, hs'⟩

theorem read_bind {r : Result ε β} (hg : ∀ s, R s t → g s = .ok a)
    (h : Simulates R (f a) t r t') : Simulates R (Prog.read g >>= f) t r t' :=
  bind (read hg) h

theorem read_bind_error (hg : ∀ s, R s t → g s = .error e) : Simulates R (Prog.read g >>= f) t (.error e) t :=
  bind_error (read hg)

theorem prod {υ : Type} {R' : σ → υ → Prop} {u u' : υ} (h1 : Simulates R p t r t') (h2 : Simulates R' p u r u') :
    Simulates (fun s w => R s w.1 ∧ R' s w.2) p (t, u) r (t', u') := by
  intro s ⟨ht, hu⟩
  have ⟨s1, hp1, ht'⟩ := h1 s ht
  have ⟨s2, hp2, hu'⟩ := h2 s hu
  cases hp1.symm.trans hp2
  exact ⟨s1, hp1, ht', hu'⟩

theorem run_eq (h : Simulates R p t r t') (hs : R s t) (hp : p.run s = (r', s')) : r' = r ∧ R s' t' := by
  have ⟨s1, h1, h2⟩ := h s hs
  rw [h1, Prod.mk.injEq] at hp
  exact ⟨hp.1.symm, hp.2 ▸ h2⟩

end Simulates
end Lib.Prog
