import Mathlib

-- Programs over an explicit state that can fail; what a failed call has already written is kept.

namespace Lib

-- How a call can end without a value: with an error of the program's own, or in a panic.
inductive Fault (ε : Type)
  | err (e : ε)
  | panic
  deriving DecidableEq, Repr

abbrev Result (ε α : Type) := Except (Fault ε) α

def fail {ε α : Type} (e : ε) : Result ε α := .error (.err e)

def abort {ε α : Type} : Result ε α := .error .panic

def checked {ε : Type} (width n : Nat) : Result ε Nat :=
  if n < 2 ^ width then .ok n else abort

def checkedSub {ε : Type} (a b : Nat) : Result ε Nat :=
  if b ≤ a then .ok (a - b) else abort

namespace Result

variable {ε α β : Type} {f : α → Result ε β}

@[simp]
theorem ok_bind (a : α) : ((Except.ok a : Result ε α) >>= f) = f a :=
  rfl

@[simp]
theorem error_bind (e : Fault ε) : ((Except.error e : Result ε α) >>= f) = .error e :=
  rfl

theorem bind_eq_ok : (r >>= f) = .ok b ↔ ∃ a, r = .ok a ∧ f a = .ok b := by
  cases r <;> simp

end Result

theorem checked_of_lt (h : n < 2 ^ width) : (checked width n : Result ε Nat) = .ok n :=
  if_pos h

theorem checked_of_not_lt (h : ¬n < 2 ^ width) : (checked width n : Result ε Nat) = .error .panic :=
  if_neg h

theorem checked_eq_ok : (checked width n : Result ε Nat) = .ok m ↔ m = n ∧ n < 2 ^ width := by
  by_cases h : n < 2 ^ width <;> simp [checked, h, abort, eq_comm]

theorem checked_ne_err : (checked width n : Result ε Nat) ≠ .error (.err e) := by
  by_cases h : n < 2 ^ width <;> simp [checked, h, abort]

theorem checkedSub_of_le (h : b ≤ a) : (checkedSub a b : Result ε Nat) = .ok (a - b) :=
  if_pos h

structure Prog (σ ε α : Type) where
  run : σ → Result ε α × σ

namespace Prog

variable {σ ε α β : Type}

def pure (a : α) : Prog σ ε α := ⟨fun s => (.ok a, s)⟩

def bind (p : Prog σ ε α) (f : α → Prog σ ε β) : Prog σ ε β :=
  ⟨fun s => match p.run s with
    | (.ok a, s') => (f a).run s'
    | (.error e, s') => (.error e, s')⟩

instance : Monad (Prog σ ε) where
  pure := pure
  bind := bind

def lift (r : Result ε α) : Prog σ ε α := ⟨fun s => (r, s)⟩

def read (f : σ → Result ε α) : Prog σ ε α := ⟨fun s => (f s, s)⟩

def modify (f : σ → σ) : Prog σ ε Unit := ⟨fun s => (.ok (), f s)⟩

variable {p : Prog σ ε α} {f : α → Prog σ ε β} {g : σ → Result ε α} {s s' : σ}

@[simp]
theorem pure_run (a : α) : (Pure.pure a : Prog σ ε α).run s = (.ok a, s) :=
  rfl

@[simp]
theorem lift_run (r : Result ε α) : (lift r : Prog σ ε α).run s = (r, s) :=
  rfl

@[simp]
theorem read_run : (read g).run s = (g s, s) :=
  rfl

@[simp]
theorem modify_run {g : σ → σ} : (modify g : Prog σ ε Unit).run s = (.ok (), g s) :=
  rfl

theorem bind_run_ok (h : p.run s = (.ok a, s')) : (p >>= f).run s = (f a).run s' := by
  show (bind p f).run s = _
  simp [bind, h]

theorem bind_run_error (h : p.run s = (.error e, s')) : (p >>= f).run s = (.error e, s') := by
  show (bind p f).run s = _
  simp [bind, h]

theorem bind_run_congr (h : p.run s = q.run s') : (p >>= f).run s = (q >>= f).run s' := by
  show (bind p f).run s = (bind q f).run s'
  simp only [bind, h]

theorem read_bind_run : (read g >>= f).run s = (lift (g s) >>= f).run s :=
  rfl

@[simp]
theorem lift_ok_bind_run (a : α) : (lift (.ok a) >>= f).run s = (f a).run s :=
  rfl

@[simp]
theorem lift_error_bind_run (e : Fault ε) : ((lift (.error e) : Prog σ ε α) >>= f).run s = (.error e, s) :=
  rfl

theorem bind_eq_ok : (p >>= f).run s = (.ok b, s') ↔ ∃ a s1, p.run s = (.ok a, s1) ∧ (f a).run s1 = (.ok b, s') := by
  show (bind p f).run s = _ ↔ _
  simp only [bind]
  split
  case h_1 a s1 h =>
    constructor
    · exact fun hf => ⟨a, s1, h, hf⟩
    · intro ⟨a', s1', h', hf⟩
      rw [h, Prod.mk.injEq, Except.ok.injEq] at h'
      exact h'.1 ▸ h'.2 ▸ hf
  case h_2 e s1 h => simp [h]

theorem read_bind_eq_ok : (read g >>= f).run s = (.ok b, s') ↔ ∃ a, g s = .ok a ∧ (f a).run s = (.ok b, s') := by
  rw [bind_eq_ok]
  constructor
  · intro ⟨a, s1, hg, hf⟩
    simp only [read_run, Prod.mk.injEq] at hg
    exact ⟨a, hg.1, hg.2 ▸ hf⟩
  · intro ⟨a, hg, hf⟩
    exact ⟨a, s, by rw [read_run, hg], hf⟩

theorem foldlM_append_run {l l' : List γ} {body : β → γ → Prog σ ε β} (h : (l.foldlM body b).run s = (.ok b', s')) :
    ((l ++ l').foldlM body b).run s = (l'.foldlM body b').run s' := by
  induction l generalizing b s with
  | nil =>
    cases h
    rfl
  | cons a l ih =>
    have ⟨b1, s1, ha, hl⟩ := bind_eq_ok.mp h
    rw [List.cons_append, List.foldlM_cons, bind_run_ok ha]
    exact ih hl

theorem bind_eq_error (h : (p >>= f).run s = (.error e, s')) :
    p.run s = (.error e, s') ∨ ∃ a s1, p.run s = (.ok a, s1) ∧ (f a).run s1 = (.error e, s') := by
  match hp : p.run s with
  | (.ok a, s1) => exact .inr ⟨a, s1, rfl, bind_run_ok hp ▸ h⟩
  | (.error e', s1) =>
    cases (bind_run_error hp).symm.trans h
    exact .inl rfl

theorem read_bind_cases (h : (read g >>= f).run s = (r, s')) :
    (∃ e, g s = .error e ∧ r = .error e ∧ s' = s) ∨ ∃ a, g s = .ok a ∧ (f a).run s = (r, s') := by
  rw [read_bind_run] at h
  cases hg : g s with
  | ok a =>
    rw [hg] at h
    exact .inr ⟨a, rfl, h⟩
  | error e =>
    rw [hg] at h
    cases h
    exact .inl ⟨e, rfl, rfl, rfl⟩

private theorem run_eta (h : ∀ s, p.run s = q.run s) : p = q := congrArg Prog.mk (funext h)

instance : LawfulMonad (Prog σ ε) := .mk' _
  (fun p => run_eta fun s => by
    cases h : p.run s with
    | mk r s' => cases r <;> simp [Functor.map, bind, pure, h])
  (fun _ _ => rfl)
  (fun p _ _ => run_eta fun s => by
    cases h : p.run s with
    | mk r s' => cases r <;> simp [Bind.bind, bind, h])

end Prog

export Result (ok_bind)
export Prog (bind_run_ok bind_run_error lift_ok_bind_run read_bind_run modify_run bind_eq_ok read_bind_eq_ok read_bind_cases)

end Lib
