import Onyx.Lib.Hoare

-- When a program panics, by equivalences that follow its parts.

open List

namespace Lib

variable {σ ε α β : Type}

def Panics (r : Result ε α) : Prop := r = .error .panic

@[simp]
theorem not_panics_ok : ¬Panics (.ok a : Result ε α) := nofun

@[simp]
theorem not_panics_err : ¬Panics (.error (.err e) : Result ε α) := nofun

@[simp]
theorem not_panics_fail : ¬Panics (fail e : Result ε α) := nofun

@[simp]
theorem panics_abort : Panics (abort : Result ε α) := rfl

theorem panics_error : Panics (.error e : Result ε α) ↔ e = .panic := by
  simp [Panics]

theorem panics_bind :
    Panics (r >>= f) ↔ Panics r ∨ ∃ a, r = .ok a ∧ Panics (f a) := by
  cases r <;> simp [Panics]

theorem panics_bind_of_not (h : ¬Panics r) :
    Panics (r >>= f) ↔ ∃ a, r = .ok a ∧ Panics (f a) := by
  rw [panics_bind, or_iff_right h]

theorem not_panics_bind (h : ¬Panics r) (hf : ∀ a, r = .ok a → ¬Panics (f a)) :
    ¬Panics (r >>= f) := by
  rw [panics_bind_of_not h]
  exact fun ⟨a, ha, hp⟩ => hf a ha hp

theorem panics_checked : Panics (checked width n : Result ε Nat) ↔ 2 ^ width ≤ n := by
  by_cases h : n < 2 ^ width <;> simp [checked, h, Nat.le_of_not_lt]

theorem checkedSub_eq_ok : (checkedSub a b : Result ε Nat) = .ok c ↔ b ≤ a ∧ c = a - b := by
  by_cases h : b ≤ a <;> simp [checkedSub, h, abort, eq_comm]

theorem panics_checkedSub : Panics (checkedSub a b : Result ε Nat) ↔ a < b := by
  by_cases h : b ≤ a <;> simp [checkedSub, h, Nat.lt_of_not_le]

def require (c : Prop) [Decidable c] : Result ε Unit := if c then .ok () else abort

theorem require_eq_ok [Decidable c] : (require c : Result ε Unit) = .ok () ↔ c := by
  by_cases h : c <;> simp [require, h, abort]

theorem panics_require [Decidable c] : Panics (require c : Result ε Unit) ↔ ¬c := by
  by_cases h : c <;> simp [require, h]

-- The computation does not panic, and if it gives a value, the value is as `Q` says.
structure Gives (r : Result ε α) (Q : α → Prop) : Prop where
  not_panics : ¬Panics r
  value : ∀ a, r = .ok a → Q a

namespace Gives

variable {r : Result ε α} {f : α → Result ε β} {Q Q' : α → Prop} {R : β → Prop}

theorem mono (h : Gives r Q) (hq : ∀ a, Q a → Q' a) : Gives r Q' :=
  ⟨h.not_panics, fun a ha => hq a (h.value a ha)⟩

theorem ok (h : Q a) : Gives (.ok a : Result ε α) Q :=
  ⟨not_panics_ok, fun _ hb => Except.ok.inj hb ▸ h⟩

theorem fail : Gives (Lib.fail e : Result ε α) Q :=
  ⟨not_panics_fail, nofun⟩

theorem of_not_panics (h : ¬Panics r) : Gives r (r = .ok ·) :=
  ⟨h, fun _ ha => ha⟩

theorem and_eq (h : Gives r Q) : Gives r fun a => r = .ok a ∧ Q a :=
  ⟨h.not_panics, fun a ha => ⟨ha, h.value a ha⟩⟩

theorem checked (h : n < 2 ^ width) : Gives (Lib.checked width n : Result ε Nat) (· = n) := by
  rw [checked_of_lt h]
  exact .ok rfl

theorem ite [Decidable c] (h : c → Gives r Q) (h' : ¬c → Gives r' Q) : Gives (if c then r else r') Q := by
  split
  case isTrue hc => exact h hc
  case isFalse hc => exact h' hc

theorem bind (h : Gives r Q) (hf : ∀ a, Q a → Gives (f a) R) : Gives (r >>= f) R := by
  refine ⟨not_panics_bind h.not_panics fun a ha => (hf a (h.value a ha)).not_panics, fun b hb => ?_⟩
  obtain ⟨a, ha, hb⟩ := Result.bind_eq_ok.mp hb
  exact (hf a (h.value a ha)).value b hb

end Gives

namespace Prog

variable {p : Prog σ ε α} {f : α → Prog σ ε β} {g : σ → Result ε α} {s s' : σ}

def Panics (p : Prog σ ε α) (s : σ) : Prop := Lib.Panics (p.run s).1

def Completes (p : Prog σ ε α) (s : σ) : Prop := ∃ a s', p.run s = (.ok a, s')

@[simp]
theorem not_panics_pure : ¬(Pure.pure a : Prog σ ε α).Panics s := nofun

@[simp]
theorem completes_pure : (Pure.pure a : Prog σ ε α).Completes s := ⟨a, s, rfl⟩

@[simp]
theorem panics_lift : (lift r : Prog σ ε α).Panics s ↔ Lib.Panics r := Iff.rfl

@[simp]
theorem not_panics_modify {g : σ → σ} : ¬(modify g : Prog σ ε Unit).Panics s := nofun

theorem panics_attempt : p.attempt.Panics s ↔ p.Panics s := by
  unfold Panics
  match hp : p.run s with
  | (.ok _, _) => simp [attempt_run_ok hp]
  | (.error (.err _), _) => simp [attempt_run_err hp]
  | (.error .panic, _) => simp [attempt_run_panic hp, Lib.Panics]

theorem Ensures.attempt_bind_of_not_panics {f : Option α → Prog σ ε β} (hp : ¬p.Panics s)
    (hok : ∀ a s', p.run s = (.ok a, s') → (f (some a)).Ensures s' R)
    (herr : ∀ e s', p.run s = (.error (.err e), s') → (f none).Ensures s' R) : (p.attempt >>= f).Ensures s R :=
  .attempt_bind (Q := fun r s' => p.run s = (r, s')) rfl hok herr fun _ hr => absurd (congrArg Prod.fst hr) hp

theorem Completes.not_panics (h : p.Completes s) : ¬p.Panics s := by
  obtain ⟨a, s', h⟩ := h
  simp [Panics, h]

theorem panics_bind : (p >>= f).Panics s ↔ p.Panics s ∨ ∃ a s', p.run s = (.ok a, s') ∧ (f a).Panics s' := by
  unfold Panics
  match hp : p.run s with
  | (.ok a, s1) =>
    rw [bind_run_ok hp]
    constructor
    · exact fun h => .inr ⟨a, s1, rfl, h⟩
    · rintro (h | ⟨_, _, heq, h⟩)
      · exact absurd h not_panics_ok
      · cases heq
        exact h
  | (.error e, s1) =>
    rw [bind_run_error hp]
    constructor
    · exact fun h => .inl (panics_error.mpr (panics_error.mp h))
    · rintro (h | ⟨_, _, heq, _⟩)
      · exact panics_error.mpr (panics_error.mp h)
      · cases heq

theorem not_panics_bind (h : ¬p.Panics s) (hf : ∀ a s', p.run s = (.ok a, s') → ¬(f a).Panics s') : ¬(p >>= f).Panics s := by
  rw [panics_bind]
  rintro (hp | ⟨a, s', hr, hp⟩)
  · exact h hp
  · exact hf a s' hr hp

theorem panics_bind_of_run (h : p.run s = (.ok a, s')) : (p >>= f).Panics s ↔ (f a).Panics s' := by
  rw [Panics, bind_run_ok h, Panics]

theorem panics_lift_bind :
    (lift r >>= f).Panics s ↔ Lib.Panics r ∨ ∃ a, r = .ok a ∧ (f a).Panics s := by
  cases r <;> simp [Panics, Lib.Panics]

theorem panics_read_bind : (read g >>= f).Panics s ↔ Lib.Panics (g s) ∨ ∃ a, g s = .ok a ∧ (f a).Panics s :=
  panics_lift_bind (r := g s)

theorem not_panics_read_bind (h : ¬Lib.Panics (g s)) (hf : ∀ a, g s = .ok a → ¬(f a).Panics s) :
    ¬(read g >>= f).Panics s := by
  rw [panics_read_bind]
  rintro (hp | ⟨a, ha, hp⟩)
  · exact h hp
  · exact hf a ha hp

structure Returns (p : Prog σ ε α) (s : σ) (Q : α → σ → Prop) : Prop where
  not_panics : ¬p.Panics s
  value : ∀ a s', p.run s = (.ok a, s') → Q a s'

namespace Returns

variable {Q Q' : α → σ → Prop} {R : β → σ → Prop}

theorem mono (h : p.Returns s Q) (hq : ∀ a s', Q a s' → Q' a s') : p.Returns s Q' :=
  ⟨h.not_panics, fun a s' hr => hq a s' (h.value a s' hr)⟩

theorem pure (h : Q a s) : (Pure.pure a : Prog σ ε α).Returns s Q := by
  refine ⟨not_panics_pure, fun b s' hr => ?_⟩
  cases hr
  exact h

theorem read (h : Gives (g s) (Q · s)) : (Prog.read g).Returns s Q := by
  refine ⟨h.not_panics, fun a s' hr => ?_⟩
  obtain ⟨ha, rfl⟩ := Prod.mk.inj hr
  exact h.value a ha

theorem lift (h : Gives r (Q · s)) : (Prog.lift r).Returns s Q :=
  read (g := fun _ => r) h

theorem fail : (Prog.lift (Lib.fail e) : Prog σ ε α).Returns s Q :=
  lift .fail

theorem ite [Decidable c] (h : c → p.Returns s Q) (h' : ¬c → p'.Returns s Q) :
    (if c then p else p').Returns s Q := by
  split
  case isTrue hc => exact h hc
  case isFalse hc => exact h' hc

theorem bind (h : p.Returns s Q) (hf : ∀ a s', Q a s' → (f a).Returns s' R) : (p >>= f).Returns s R := by
  refine ⟨not_panics_bind h.not_panics fun a s' hr => (hf a s' (h.value a s' hr)).not_panics, ?_⟩
  · intro b s' hr
    have ⟨a, s1, ha, hb⟩ := bind_eq_ok.mp hr
    exact (hf a s1 (h.value a s1 ha)).value b s' hb

theorem read_bind {Q : α → Prop} (h : Gives (g s) Q) (hf : ∀ a, Q a → (f a).Returns s R) : (Prog.read g >>= f).Returns s R :=
  bind (Q := fun a s' => s' = s ∧ Q a) (read (h.mono fun _ ha => ⟨rfl, ha⟩)) fun a _ ⟨hs, ha⟩ => hs ▸ hf a ha

theorem get_bind {f : σ → Prog σ ε β} (h : (f s).Returns s R) : (Prog.read .ok >>= f).Returns s R :=
  ⟨h.not_panics, h.value⟩

theorem modify_bind {g : σ → σ} {f : Unit → Prog σ ε β} (h : (f ()).Returns (g s) R) : (Prog.modify g >>= f).Returns s R :=
  ⟨h.not_panics, h.value⟩

theorem lift_bind {r : Result ε α} {Q : α → Prop} (h : Gives r Q) (hf : ∀ a, Q a → (f a).Returns s R) :
    (Prog.lift r >>= f).Returns s R :=
  read_bind (g := fun _ => r) h hf

end Returns

theorem completes_bind : (p >>= f).Completes s ↔ ∃ a s', p.run s = (.ok a, s') ∧ (f a).Completes s' := by
  constructor
  · intro ⟨b, s2, h⟩
    have ⟨a, s1, ha, hf⟩ := bind_eq_ok.mp h
    exact ⟨a, s1, ha, b, s2, hf⟩
  · intro ⟨a, s1, ha, b, s2, hf⟩
    exact ⟨b, s2, bind_eq_ok.mpr ⟨a, s1, ha, hf⟩⟩

end Prog

structure Rounds (body : β → Nat → Prog σ ε β) (n : Nat) (Inv : Nat → β → σ → Prop) (Good Bad : Nat → Prop) :
    Prop where
  next : ∀ {k b s b' s'}, k < n → Inv k b s → (body b k).run s = (.ok b', s') → Inv (k + 1) b' s'
  good : ∀ {k b s}, k < n → Inv k b s → ((body b k).Completes s ↔ Good k)
  bad : ∀ {k b s}, k < n → Inv k b s → ((body b k).Panics s ↔ Bad k)

namespace Rounds

variable {body : β → Nat → Prog σ ε β} {Inv : Nat → β → σ → Prop} {Good Bad : Nat → Prop}

private theorem upTo (h : Rounds body n Inv Good Bad) (hi : Inv 0 b s) (hm : m ≤ n) :
    (((range m).foldlM body b).Completes s ↔ ∀ k, k < m → Good k) ∧
    (((range m).foldlM body b).Panics s ↔ ∃ k, k < m ∧ (∀ j, j < k → Good j) ∧ Bad k) ∧
    ∀ {b' s'}, ((range m).foldlM body b).run s = (.ok b', s') → Inv m b' s' := by
  induction m with
  | zero =>
    refine ⟨iff_of_true Prog.completes_pure nofun, iff_of_false Prog.not_panics_pure nofun, fun hr => ?_⟩
    cases hr
    exact hi
  | succ m ih =>
    have ⟨hc, hp, hr⟩ := ih (by omega)
    rw [range_succ, foldlM_append]
    simp only [foldlM_cons, foldlM_nil, bind_pure]
    refine ⟨Prog.completes_bind.trans ⟨?_, ?_⟩, Prog.panics_bind.trans ⟨?_, ?_⟩, fun hrun => ?_⟩
    · rintro ⟨a, s', hrun, hlast⟩ k hk
      rcases Nat.lt_succ_iff_lt_or_eq.mp hk with hk | rfl
      · exact hc.mp ⟨a, s', hrun⟩ k hk
      · exact (h.good hm (hr hrun)).mp hlast
    · intro hg
      have ⟨a, s', hrun⟩ := hc.mpr fun k hk => hg k (by omega)
      exact ⟨a, s', hrun, (h.good hm (hr hrun)).mpr (hg m (by omega))⟩
    · rintro (hbefore | ⟨a, s', hrun, hlast⟩)
      · have ⟨k, hk, hg, hb⟩ := hp.mp hbefore
        exact ⟨k, by omega, hg, hb⟩
      · exact ⟨m, by omega, hc.mp ⟨a, s', hrun⟩, (h.bad hm (hr hrun)).mp hlast⟩
    · rintro ⟨k, hk, hg, hb⟩
      rcases Nat.lt_succ_iff_lt_or_eq.mp hk with hk | rfl
      · exact .inl (hp.mpr ⟨k, hk, hg, hb⟩)
      · have ⟨a, s', hrun⟩ := hc.mpr hg
        exact .inr ⟨a, s', hrun, (h.bad hm (hr hrun)).mpr hb⟩
    · have ⟨a, s1, hrun, hlast⟩ := bind_eq_ok.mp hrun
      exact h.next hm (hr hrun) hlast

theorem completes (h : Rounds body n Inv Good Bad) (hi : Inv 0 b s) :
    ((range n).foldlM body b).Completes s ↔ ∀ k, k < n → Good k :=
  (h.upTo hi (le_refl n)).1

theorem panics (h : Rounds body n Inv Good Bad) (hi : Inv 0 b s) :
    ((range n).foldlM body b).Panics s ↔ ∃ k, k < n ∧ (∀ j, j < k → Good j) ∧ Bad k :=
  (h.upTo hi (le_refl n)).2.1

section safe

variable {Accepted Safe : Nat → Prop}

theorem not_panics (h : Rounds body n Inv (fun k => Accepted k ∧ Safe k) fun k => ¬Safe k) (hi : Inv 0 b s) :
    ¬((range n).foldlM body b).Panics s ↔ ∀ k, k < n → (∀ j, j < k → Accepted j) → Safe k := by
  rw [h.panics hi]
  constructor
  · intro hnone k
    induction k using Nat.strongRecOn with | ind k ih
    intro hk hacc
    apply Classical.byContradiction
    intro hsafe
    exact hnone ⟨k, hk, fun j hj => ⟨hacc j hj, ih j hj (by omega) fun i hi => hacc i (by omega)⟩, hsafe⟩
  · rintro hall ⟨k, hk, hgood, hbad⟩
    exact hbad (hall k hk fun j hj => (hgood j hj).1)

end safe

theorem run (h : Rounds body n Inv Good Bad) (hi : Inv 0 b s)
    (hr : ((range n).foldlM body b).run s = (.ok b', s')) : Inv n b' s' :=
  (h.upTo hi (le_refl n)).2.2 hr

end Rounds

theorem Prog.completes_of_foldlM {body : β → κ → Prog σ ε β} {l : List κ} (h : (l.foldlM body b).run s = (.ok b', s')) :
    ∀ a ∈ l, ∃ b1 s1, (body b1 a).Completes s1 := by
  induction l generalizing b s with
  | nil => exact nofun
  | cons c l ih =>
    rw [foldlM_cons] at h
    have ⟨b1, s1, hc, hrest⟩ := bind_eq_ok.mp h
    intro a ha
    cases ha with
    | head => exact ⟨b, s, _, _, hc⟩
    | tail _ ha => exact ih hrest a ha

-- A condition on the state before every round of a loop that ends with its first failure.
def Prog.Before (body : β → κ → Prog σ ε β) (good : β → κ → σ → Prop) : β → List κ → σ → Prop
  | _, [], _ => True
  | b, c :: cs, s => good b c s ∧ ∀ b' s', (body b c).run s = (.ok b', s') → Before body good b' cs s'

namespace Rounds

variable {body : β → Nat → Prog σ ε β} {Inv : Nat → β → σ → Prop} {Good Bad Fit : Nat → Prop} {good : β → Nat → σ → Prop}

private theorem before_rest (h : Rounds body n Inv Good Bad) (hg : ∀ {k b s}, k < n → Inv k b s → (good b k s ↔ Fit k))
    (hk : k + m = n) (hi : Inv k b s) : Prog.Before body good b (range' k m) s ↔
      ∀ j, k ≤ j → j < n → (∀ i, k ≤ i → i < j → Good i) → Fit j := by
  induction m generalizing k b s with
  | zero => exact iff_of_true trivial fun j h1 h2 => absurd h2 (by omega)
  | succ m ih =>
    have hlt : k < n := by omega
    rw [range'_succ, Prog.Before, hg hlt hi]
    constructor
    · intro ⟨hfit, hrest⟩ j h1 h2 hgood
      rcases eq_or_lt_of_le h1 with rfl | h1
      · exact hfit
      · have ⟨b', s', hrun⟩ := (h.good hlt hi).mpr (hgood k (le_refl k) h1)
        exact (ih (by omega) (h.next hlt hi hrun)).mp (hrest b' s' hrun) j h1 h2 fun i h3 h4 => hgood i (by omega) h4
    · intro hall
      refine ⟨hall k (le_refl k) hlt fun i h1 h2 => absurd h2 (by omega), fun b' s' hrun => ?_⟩
      refine (ih (by omega) (h.next hlt hi hrun)).mpr fun j h1 h2 hgood => hall j (by omega) h2 fun i h3 h4 => ?_
      rcases eq_or_lt_of_le h3 with rfl | h3
      · exact (h.good hlt hi).mp ⟨_, _, hrun⟩
      · exact hgood i h3 h4

theorem before (h : Rounds body n Inv Good Bad) (hg : ∀ {k b s}, k < n → Inv k b s → (good b k s ↔ Fit k))
    (hi : Inv 0 b s) :
    Prog.Before body good b (range n) s ↔ ∀ k, k < n → (∀ j, j < k → Good j) → Fit k := by
  rw [range_eq_range', h.before_rest hg (zero_add n) hi]
  constructor
  · exact fun hall k hk hgood => hall k (Nat.zero_le k) hk fun i _ hik => hgood i hik
  · exact fun hall k _ hk hgood => hall k hk fun i hik => hgood i (Nat.zero_le i) hik

end Rounds

def panicked : Result ε α → Bool
  | .error .panic => true
  | _ => false

theorem panicked_eq_true : panicked r = true ↔ Panics r := by
  match r with
  | .ok _ => simp [panicked]
  | .error (.err _) => simp [panicked]
  | .error .panic => simp [panicked, Panics]

class Transit (R : σ → Bool → σ → Prop) : Prop where
  refl : ∀ {s : σ} {c : Bool}, R s c s
  trans : ∀ {s s1 s2 : σ} {c : Bool}, R s false s1 → R s1 c s2 → R s c s2

namespace Prog

def Within (R : σ → Bool → σ → Prop) (p : Prog σ ε α) : Prop :=
  ∀ s, R s (panicked (p.run s).1) (p.run s).2

namespace Within

variable {R : σ → Bool → σ → Prop} {p : Prog σ ε α} {f : α → Prog σ ε β} {s s' : σ}

theorem of_run (h : p.Within R) (hrun : p.run s = (r, s')) : R s (panicked r) s' := by
  have := h s
  rwa [hrun] at this

theorem ite [Decidable c] (hp : p.Within R) (hq : q.Within R) : (if c then p else q).Within R := by
  split
  · exact hp
  · exact hq

section

variable [Transit R]

theorem pure : (Pure.pure a : Prog σ ε α).Within R := fun _ => Transit.refl

theorem lift : (Prog.lift r : Prog σ ε α).Within R := fun _ => Transit.refl

theorem read : (Prog.read g).Within R := fun _ => Transit.refl

theorem bind (hp : p.Within R) (hf : ∀ a, (f a).Within R) : (p >>= f).Within R := by
  intro s
  match hrun : p.run s with
  | (.ok a, s1) =>
    rw [bind_run_ok hrun]
    exact Transit.trans (hp.of_run hrun) (hf a s1)
  | (.error (.err e), s1) =>
    rw [bind_run_error hrun]
    exact hp.of_run hrun
  | (.error .panic, s1) =>
    rw [bind_run_error hrun]
    exact hp.of_run hrun

theorem lift_bind (hf : ∀ a, (f a).Within R) : (Prog.lift r >>= f).Within R := .bind .lift hf

theorem read_bind (hf : ∀ a, (f a).Within R) : (Prog.read g >>= f).Within R := .bind .read hf

theorem foldlM {γ : Type} {body : β → γ → Prog σ ε β} (hb : ∀ b a, (body b a).Within R) :
    ∀ {l : List γ} {b : β}, (l.foldlM body b).Within R
  | [], _ => .pure
  | a :: _, b => .bind (hb b a) fun _ => foldlM hb

end

theorem attempt (hp : p.Within R) : p.attempt.Within R := by
  intro s
  match hrun : p.run s with
  | (.ok a, s1) => rw [attempt_run_ok hrun]; exact hp.of_run hrun
  | (.error (.err e), s1) => rw [attempt_run_err hrun]; exact hp.of_run hrun
  | (.error .panic, s1) => rw [attempt_run_panic hrun]; exact hp.of_run hrun

end Within
end Prog
end Lib
