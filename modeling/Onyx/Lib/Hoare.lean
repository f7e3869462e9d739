import Onyx.Lib.Prog

-- `p.Ensures s Q`: started in `s`, `p` ends with a result, failing or not, and in a state that satisfy `Q`.

namespace Lib.Prog

variable {σ ε α β : Type} {p : Prog σ ε α} {f : α → Prog σ ε β} {g : σ → Result ε α} {s s' : σ}
variable {Q Q' : Result ε α → σ → Prop} {R : Result ε β → σ → Prop}

def Ensures (p : Prog σ ε α) (s : σ) (Q : Result ε α → σ → Prop) : Prop := Q (p.run s).1 (p.run s).2

-- A program whose errors are taken as an answer; a panic stays a panic.
def attempt (p : Prog σ ε α) : Prog σ ε (Option α) :=
  ⟨fun s => match p.run s with
    | (.ok a, s') => (.ok (some a), s')
    | (.error (.err _), s') => (.ok none, s')
    | (.error .panic, s') => (.error .panic, s')⟩

theorem attempt_run_ok (h : p.run s = (.ok a, s')) : p.attempt.run s = (.ok (some a), s') := by
  simp only [attempt, h]

theorem attempt_run_err (h : p.run s = (.error (.err e), s')) : p.attempt.run s = (.ok none, s') := by
  simp only [attempt, h]

theorem attempt_run_panic (h : p.run s = (.error .panic, s')) : p.attempt.run s = (.error .panic, s') := by
  simp only [attempt, h]

namespace Ensures

theorem of_run (h : p.Ensures s Q) (hr : p.run s = (r, s')) : Q r s' := by
  rw [Ensures, hr] at h
  exact h

theorem mono (h : p.Ensures s Q) (hq : ∀ r s', Q r s' → Q' r s') : p.Ensures s Q' :=
  hq _ _ h

theorem with_run (h : p.Ensures s Q) : p.Ensures s fun r s' => p.run s = (r, s') ∧ Q r s' := ⟨rfl, h⟩

theorem bind (h : p.Ensures s Q) (hok : ∀ a s', Q (.ok a) s' → (f a).Ensures s' R)
    (herr : ∀ e s', Q (.error e) s' → R (.error e) s') : (p >>= f).Ensures s R := by
  unfold Ensures at h ⊢
  match hp : p.run s with
  | (.ok a, s') =>
    rw [hp] at h
    rw [bind_run_ok hp]
    exact hok a s' h
  | (.error e, s') =>
    rw [hp] at h
    rw [bind_run_error hp]
    exact herr e s' h

theorem read_bind (hok : ∀ a, g s = .ok a → (f a).Ensures s R) (herr : ∀ e, g s = .error e → R (.error e) s) :
    (read g >>= f).Ensures s R :=
  bind (Q := fun r s' => s' = s ∧ g s = r) ⟨rfl, rfl⟩ (fun a _ ⟨hs, ha⟩ => hs ▸ hok a ha)
    fun e _ ⟨hs, he⟩ => hs ▸ herr e he

theorem lift_bind (hok : ∀ a, r = .ok a → (f a).Ensures s R)
    (herr : ∀ e, r = .error e → R (.error e) s) : (lift r >>= f).Ensures s R :=
  read_bind (g := fun _ => r) hok herr

theorem modify_bind {g : σ → σ} {f : Unit → Prog σ ε β} (h : (f ()).Ensures (g s) R) : (modify g >>= f).Ensures s R :=
  h

theorem attempt_bind {f : Option α → Prog σ ε β} (h : p.Ensures s Q)
    (hok : ∀ a s', Q (.ok a) s' → (f (some a)).Ensures s' R)
    (herr : ∀ e s', Q (.error (.err e)) s' → (f none).Ensures s' R)
    (hpanic : ∀ s', Q (.error .panic) s' → R (.error .panic) s') : (p.attempt >>= f).Ensures s R := by
  unfold Ensures at h
  match hp : p.run s with
  | (.ok a, s') =>
    rw [hp] at h
    rw [Ensures, bind_run_ok (attempt_run_ok hp)]
    exact hok a s' h
  | (.error (.err e), s') =>
    rw [hp] at h
    rw [Ensures, bind_run_ok (attempt_run_err hp)]
    exact herr e s' h
  | (.error .panic, s') =>
    rw [hp] at h
    rw [Ensures, bind_run_error (attempt_run_panic hp)]
    exact hpanic s' h

end Ensures

-- A condition on the state before every call of a sequence, in which calls may fail.
def Along (exec : κ → Prog σ ε α) (good : σ → κ → Prop) : List κ → σ → Prop
  | [], _ => True
  | c :: cs, s => good s c ∧ Along exec good cs ((exec c).run s).2

theorem Along.mono (h : ∀ {s c}, good s c → good' s c)
    (ha : Along exec good cs s) : Along exec good' cs s := by
  induction cs generalizing s with
  | nil => trivial
  | cons c cs hi => exact ⟨h ha.1, hi ha.2⟩

end Lib.Prog
