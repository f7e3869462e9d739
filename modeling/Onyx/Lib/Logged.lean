import Onyx.Lib.Panic

-- Programs that keep a record of what they touch beside their state.

namespace Lib.Prog

variable {σ ι ε α β : Type}

-- A program that records nothing.
def quiet (p : Prog σ ε α) : Prog (σ × List ι) ε α := ⟨fun s => ((p.run s.1).1, ((p.run s.1).2, s.2))⟩

def note (x : ι) : Prog (σ × List ι) ε Unit := modify fun s => (s.1, s.2 ++ [x])

-- Without its record, `q` is `p`.
structure Records (q : Prog (σ × List ι) ε α) (p : Prog σ ε α) : Prop where
  run_eq : ∀ s l, ∃ l', q.run (s, l) = ((p.run s).1, ((p.run s).2, l'))

namespace Records

variable {p : Prog σ ε α} {q : Prog (σ × List ι) ε α} {f : α → Prog σ ε β} {g : α → Prog (σ × List ι) ε β} {s : σ}

theorem pure (a : α) : Records (Pure.pure a : Prog (σ × List ι) ε α) (Pure.pure a : Prog σ ε α) :=
  ⟨fun _ l => ⟨l, rfl⟩⟩

theorem lift (r : Result ε α) : Records (Prog.lift r : Prog (σ × List ι) ε α) (Prog.lift r) :=
  ⟨fun _ l => ⟨l, rfl⟩⟩

theorem quiet : Records (p.quiet : Prog (σ × List ι) ε α) p :=
  ⟨fun _ l => ⟨l, rfl⟩⟩

theorem ite [Decidable c] (h : Records q p) (h' : Records q' p') :
    Records (if c then q else q') (if c then p else p') := by
  split
  · exact h
  · exact h'

theorem bind (h : Records q p) (hf : ∀ a, Records (g a) (f a)) : Records (q >>= g) (p >>= f) := by
  refine ⟨fun s l => ?_⟩
  have ⟨l1, hq⟩ := h.run_eq s l
  match hp : p.run s with
  | (.ok a, s') =>
    rw [hp] at hq
    rw [bind_run_ok hq, bind_run_ok hp]
    exact (hf a).run_eq s' l1
  | (.error e, s') =>
    rw [hp] at hq
    rw [bind_run_error hq, bind_run_error hp]
    exact ⟨l1, rfl⟩

theorem note_bind {x : ι} {g : Unit → Prog (σ × List ι) ε α} (h : Records (g ()) p) : Records (note x >>= g) p :=
  ⟨fun s l => h.run_eq s (l ++ [x])⟩

theorem read_ite [Decidable c] (h : Records q (Prog.read r))
    (h' : Records q' (Prog.read r')) : Records (if c then q else q') (Prog.read fun s => if c then r s else r' s) := by
  split
  · exact h
  · exact h'

theorem read_bind {r : σ → Result ε α} {f : α → σ → Result ε β} (h : Records q (Prog.read r))
    (hf : ∀ a, Records (g a) (Prog.read (f a))) : Records (q >>= g) (Prog.read fun s => r s >>= (f · s)) := by
  refine ⟨fun s l => ?_⟩
  have ⟨l', hrun⟩ := (h.bind hf).run_eq s l
  rw [hrun]
  refine ⟨l', ?_⟩
  rw [read_bind_run]
  cases hr : r s with
  | ok a => simp [hr]
  | error e => simp [hr]

end Records

-- `p` does not panic and touches only what is in `S`; if it succeeds, it ends as `Q` says.
def Safe (S : ι → Prop) (p : Prog (σ × List ι) ε α) (s : σ) (Q : α → σ → Prop) : Prop :=
  ∀ l, (∀ x ∈ l, S x) → p.Ensures (s, l) fun r t => (∀ x ∈ t.2, S x) ∧ ¬Lib.Panics r ∧ ∀ a, r = .ok a → Q a t.1

namespace Safe

variable {S : ι → Prop} {p : Prog σ ε α} {q : Prog (σ × List ι) ε α} {g : α → Prog (σ × List ι) ε β} {s : σ}
variable {Q Q' : α → σ → Prop} {R : β → σ → Prop}

theorem mono (h : Safe S q s Q) (hq : ∀ a t, Q a t → Q' a t) : Safe S q s Q' :=
  fun l hl => (h l hl).mono fun _ _ ⟨h1, h2, h3⟩ => ⟨h1, h2, fun a ha => hq a _ (h3 a ha)⟩

theorem pure (h : Q a s) : Safe S (Pure.pure a : Prog (σ × List ι) ε α) s Q := by
  refine fun l hl => ⟨hl, not_panics_ok, fun b hb => ?_⟩
  cases hb
  exact h

theorem lift (h : Gives r (Q · s)) : Safe S (Prog.lift r) s Q :=
  fun _ hl => ⟨hl, h.not_panics, h.value⟩

theorem fail : Safe S (Prog.lift (Lib.fail e) : Prog (σ × List ι) ε α) s Q :=
  lift .fail

theorem quiet (h : p.Returns s Q) : Safe S p.quiet s Q :=
  fun _ hl => ⟨hl, h.not_panics, fun a ha => h.value a _ (Prod.ext ha rfl)⟩

theorem bind (h : Safe S q s Q) (hg : ∀ a t, Q a t → Safe S (g a) t R) : Safe S (q >>= g) s R := by
  intro l hl
  refine Ensures.bind (h l hl) (fun a t ⟨ht, _, hq⟩ => ?_) fun e t ⟨ht, hp, _⟩ => ?_
  · exact hg a t.1 (hq a rfl) t.2 ht
  · exact ⟨ht, fun h => hp (panics_error.mpr (panics_error.mp h)), nofun⟩

-- The rule for a program that leaves the state as it is.
theorem keep {P : α → Prop} (h : Safe S q s fun a t => t = s ∧ P a) (hg : ∀ a, P a → Safe S (g a) s R) : Safe S (q >>= g) s R :=
  h.bind fun a _ ht => ht.1 ▸ hg a ht.2

theorem lift_bind {P : α → Prop} (h : Gives r P) (hg : ∀ a, P a → Safe S (g a) s R) : Safe S (Prog.lift r >>= g) s R :=
  keep (lift (h.mono fun _ ha => ⟨rfl, ha⟩)) hg

theorem ends {f : α → β} (h : Safe S q s Q) : Safe S (q >>= fun a => Pure.pure (f a)) s fun _ _ => True :=
  h.bind fun _ _ _ => .pure trivial

theorem note_bind {x : ι} {g : Unit → Prog (σ × List ι) ε α} (hx : S x) (h : Safe S (g ()) s Q) :
    Safe S (note x >>= g) s Q := by
  intro l hl
  refine h (l ++ [x]) fun y hy => ?_
  rcases List.mem_append.mp hy with hy | hy
  · exact hl y hy
  · exact List.mem_singleton.mp hy ▸ hx

theorem records (h : Safe S q s Q) (hr : Records q p) : Safe S q s fun a t => Q a t ∧ p.run s = (.ok a, t) := by
  intro l hl
  have ⟨h1, h2, h3⟩ := h l hl
  refine ⟨h1, h2, fun a ha => ⟨h3 a ha, ?_⟩⟩
  have ⟨l', hrun⟩ := hr.run_eq s l
  rw [hrun] at ha ⊢
  exact Prod.ext ha rfl

theorem of_reads {r : σ → Result ε α} (h : Safe S q s fun _ t => t = s) (hr : Records q (Prog.read r)) :
    Safe S q s fun a t => t = s ∧ r s = .ok a :=
  (h.records hr).mono fun _ _ ht => ⟨ht.1, (Prod.mk.inj ht.2).1⟩

end Safe
end Lib.Prog
