import Mathlib

-- The busiest syscalls of the performance snapshot: the three slots that one pass over the counters fills.

open List

namespace Perf

-- A number and how often it was called.
structure Slot where
  nr : Nat
  count : Nat
  deriving DecidableEq, Repr

def displace (rest : Slot) : List Slot → List Slot
  | []            => []
  | slot :: slots => if slot.count < rest.count then rest :: slots else slot :: displace rest slots

-- The new entry goes to the first slot that holds less; the inner loop starts at slot 1.
def insert (tops : List Slot) (new : Slot) : List Slot :=
  match tops.findIdx? (·.count < new.count) with
  | none   => tops
  | some i =>
    let tops' := tops.set i new
    tops'.take 1 ++ displace (tops.getD i new) (tops'.drop 1)

def count (tops : List Slot) (counter : Nat × Nat) : List Slot :=
  if counter.1 = 0 then tops else insert tops ⟨counter.2, counter.1⟩

-- The three slots of `render_lines`, from the counters in the order of their numbers.
def tops (counters : List Nat) : List Slot :=
  counters.zipIdx.foldl count (replicate 3 ⟨2 ^ 64 - 1, 0⟩)

def calls (counters : List Nat) (nr : Nat) : Nat := counters.getD nr 0

structure Busiest (counters : List Nat) (tops : List Slot) : Prop where
  three : tops.length = 3
  counted : ∀ s ∈ tops, s.count ≠ 0 → calls counters s.nr = s.count
  descending : tops.Pairwise fun s t => t.count ≤ s.count
  once : tops.Pairwise fun s t => t.count ≠ 0 → s.nr ≠ t.nr
  largest : ∀ nr, (∀ s ∈ tops, s.count ≠ 0 → s.nr ≠ nr) → ∀ s ∈ tops, calls counters nr ≤ s.count

-- The three largest counts differ from all others, and the largest of them is met last.
def LargestLast (counters : List Nat) : Prop :=
  ∃ a b c, b < a ∧ c < a ∧ calls counters c < calls counters b ∧ calls counters b < calls counters a ∧
    ∀ nr, nr ≠ a → nr ≠ b → nr ≠ c → calls counters nr < calls counters c

variable {l : List Nat} {a b c s : Slot}

theorem calls_append : calls (l ++ [x]) nr = if nr = l.length then x else calls l nr := by
  unfold calls
  grind

theorem calls_ge (h : l.length ≤ nr) : calls l nr = 0 := by
  unfold calls
  grind

-- Slots that hold counts of different numbers, in order.
structure Ranked (l : List Nat) (a b c : Slot) : Prop where
  first : a.count ≠ 0 → calls l a.nr = a.count
  second : b.count ≠ 0 → calls l b.nr = b.count ∧ a.nr ≠ b.nr
  third : c.count ≠ 0 → calls l c.nr = c.count ∧ a.nr ≠ c.nr ∧ b.nr ≠ c.nr
  le : b.count ≤ a.count ∧ c.count ≤ b.count

def Unranked (a b c : Slot) (nr : Nat) : Prop :=
  (a.count ≠ 0 → a.nr ≠ nr) ∧ (b.count ≠ 0 → b.nr ≠ nr) ∧ (c.count ≠ 0 → c.nr ≠ nr)

structure Kept (l : List Nat) (a b c : Slot) : Prop extends Ranked l a b c where
  rest : ∀ nr, Unranked a b c nr → calls l nr ≤ c.count
  early : c.count ≠ 0 → c.count < b.count → b.count < a.count → b.nr < a.nr → c.nr < a.nr →
    ∃ nr, Unranked a b c nr ∧ calls l nr = c.count

-- The third largest count was dropped.
structure Dropped (l : List Nat) (a b c : Slot) (lost : Nat) : Prop extends Ranked l a b c where
  strict : c.count < calls l lost ∧ calls l lost < b.count ∧ b.count < a.count
  late : b.nr < a.nr ∧ lost < a.nr
  others : ∀ nr, nr ≠ a.nr → nr ≠ b.nr → nr ≠ lost → calls l nr < calls l lost

theorem insert_eq (hc : c.count ≤ b.count) : insert [a, b, c] s = if a.count < s.count then
      if b.count < a.count then [s, a, c] else if c.count < a.count then [s, b, a] else [s, b, c]
    else if b.count < s.count then if c.count < b.count then [a, s, b] else [a, s, c]
    else if c.count < s.count then [a, b, s] else [a, b, c] := by
  simp only [insert, findIdx?_cons, findIdx?_nil]
  grind [displace]

theorem Ranked.nr_lt (h : Ranked l a b c) : (a.count ≠ 0 → a.nr < l.length) ∧ (b.count ≠ 0 → b.nr < l.length) ∧
    (c.count ≠ 0 → c.nr < l.length) := by
  have hlt {s : Slot} (hs : s.count ≠ 0) (he : calls l s.nr = s.count) : s.nr < l.length := by
    grind [calls_ge]
  exact ⟨fun ha => hlt ha (h.first ha), fun hb => hlt hb (h.second hb).1, fun hc => hlt hc (h.third hc).1⟩

variable {x : Nat}

def Inv (l : List Nat) (tops : List Slot) : Prop :=
  ∃ a b c, tops = [a, b, c] ∧ (Kept l a b c ∨ ∃ lost, Dropped l a b c lost)

section step

variable {x : Nat}

theorem Kept.skip (h : Kept l a b c) (hx : x ≤ c.count) : Kept (l ++ [x]) a b c := by
  have ⟨ha, hb, hc⟩ := h.nr_lt
  have hnew := calls_ge (le_refl l.length)
  obtain ⟨⟨h1, h2, h3, h4⟩, h5, h6⟩ := h
  refine ⟨⟨?_, ?_, ?_, h4⟩, ?_, ?_⟩ <;> grind [calls_append, Unranked]

theorem Dropped.skip (h : Dropped l a b c j) (hx : x < calls l j) : Dropped (l ++ [x]) a b c j := by
  have ⟨ha, hb, hc⟩ := h.nr_lt
  have hnew := calls_ge (le_refl l.length)
  obtain ⟨⟨h1, h2, h3, h4⟩, h5, h6, h7⟩ := h
  refine ⟨⟨?_, ?_, ?_, h4⟩, ?_, ?_, ?_⟩ <;> grind [calls_append]

theorem Kept.step (h : Kept l a b c) (hx : x ≠ 0) : Inv (l ++ [x]) (insert [a, b, c] ⟨l.length, x⟩) := by
  have ⟨ha, hb, hc⟩ := h.nr_lt
  have hnew := calls_ge (le_refl l.length)
  obtain ⟨⟨h1, h2, h3, h4⟩, h5, h6⟩ := h
  rw [insert_eq h4.2]
  split_ifs with _ hab
  · refine ⟨_, _, _, rfl, ?_⟩
    -- the entry of slot 1 is dropped; that matters if slot 2 holds less
    by_cases hbc : c.count < b.count
    · refine .inr ⟨b.nr, ⟨?_, ?_, ?_, ?_⟩, ?_, ?_, ?_⟩ <;> grind [calls_append, Unranked]
    · refine .inl ⟨⟨?_, ?_, ?_, ?_⟩, ?_, fun _ _ _ _ _ => ⟨b.nr, ?_⟩⟩ <;> grind [calls_append, Unranked]
  all_goals
    refine ⟨_, _, _, rfl, .inl ⟨⟨?_, ?_, ?_, ?_⟩, ?_, ?_⟩⟩ <;> grind [calls_append, Unranked]

theorem Dropped.step (h : Dropped l a b c j) (hx : x ≠ 0) : Inv (l ++ [x]) (insert [a, b, c] ⟨l.length, x⟩) := by
  have ⟨ha, hb, hc⟩ := h.nr_lt
  have hnew := calls_ge (le_refl l.length)
  have hskip := h.skip (x := x)
  obtain ⟨⟨h1, h2, h3, h4⟩, h5, h6, h7⟩ := h
  rw [insert_eq h4.2, if_pos h5.2.2, if_pos (c := c.count < b.count) (by omega)]
  split_ifs with _ _ hx3
  · refine ⟨_, _, _, rfl, .inr ⟨b.nr, ⟨?_, ?_, ?_, ?_⟩, ?_, ?_, ?_⟩⟩ <;> grind [calls_append]
  · refine ⟨_, _, _, rfl, .inl ⟨⟨?_, ?_, ?_, ?_⟩, ?_, ?_⟩⟩ <;> grind [calls_append, Unranked]
  · refine ⟨_, _, _, rfl, ?_⟩
    -- the new count takes the place of the dropped one unless it is smaller
    by_cases hlt : x < calls l j
    · refine .inr ⟨j, ⟨?_, ?_, ?_, ?_⟩, ?_, ?_, ?_⟩ <;> grind [calls_append]
    · refine .inl ⟨⟨?_, ?_, ?_, ?_⟩, ?_, ?_⟩ <;> grind [calls_append, Unranked]
  · exact ⟨_, _, _, rfl, .inr ⟨j, hskip (Nat.lt_of_le_of_lt (Nat.le_of_not_lt hx3) h5.1)⟩⟩

end step

theorem inv_tops (counters : List Nat) : Inv counters (tops counters) := by
  induction counters using reverseRecOn with
  | nil => exact ⟨_, _, _, rfl, .inl ⟨⟨nofun, nofun, nofun, by decide⟩, fun nr _ => le_refl 0, nofun⟩⟩
  | append_singleton l x ih =>
    have htops : tops (l ++ [x]) = count (tops l) (x, l.length) := by
      simp [tops, zipIdx_append]
    obtain ⟨a, b, c, heq, h⟩ := ih
    rw [htops, heq, count]
    split
    case isTrue hx =>
      have hx : x = 0 := hx
      subst hx
      refine ⟨a, b, c, rfl, h.imp (fun h => h.skip (Nat.zero_le _)) fun ⟨j, h⟩ => ⟨j, h.skip ?_⟩⟩
      exact Nat.lt_of_le_of_lt (Nat.zero_le _) h.strict.1
    case isFalse hx =>
      rcases h with h | ⟨j, h⟩
      · exact h.step hx
      · exact h.step hx

theorem Kept.busiest (h : Kept l a b c) : Busiest l [a, b, c] ∧ ¬LargestLast l := by
  obtain ⟨⟨h1, h2, h3, h4⟩, h5, h6⟩ := h
  constructor
  · refine ⟨rfl, ?_, ?_, ?_, ?_⟩ <;> simp <;> grind [Unranked]
  · rintro ⟨i, j, k, hij, hik, hkj, hji, hall⟩
    -- a number beyond the three is called less often than each of them
    have hpos : 0 < calls l k := Nat.lt_of_le_of_lt (Nat.zero_le _) (hall (i + j + k + 1) (by omega) (by omega) (by omega))
    have := h5 i
    have := h5 j
    have := h5 k
    grind [Unranked]

theorem Dropped.not_busiest (h : Dropped l a b c j) : ¬Busiest l [a, b, c] ∧ LargestLast l := by
  obtain ⟨⟨h1, h2, h3, h4⟩, h5, h6, h7⟩ := h
  constructor
  · intro hb
    have := hb.largest j
    grind
  · exact ⟨a.nr, b.nr, j, h6.1, h6.2, by grind, by grind, h7⟩

-- The report is right unless the largest of the three largest counts is met last.
theorem busiest_iff (counters : List Nat) : Busiest counters (tops counters) ↔ ¬LargestLast counters := by
  obtain ⟨a, b, c, heq, h | ⟨j, h⟩⟩ := inv_tops counters
  · rw [heq]
    exact iff_of_true h.busiest.1 h.busiest.2
  · rw [heq]
    exact iff_of_false h.not_busiest.1 (not_not_intro h.not_busiest.2)

-- One `write`, two `exit` and three `open`: the snapshot shows two of them.
def threeCalled : List Nat := [1, 2, 3] ++ replicate 29 0

theorem third_not_reported : tops threeCalled = [⟨2, 3⟩, ⟨1, 2⟩, ⟨2 ^ 64 - 1, 0⟩] ∧ ¬Busiest threeCalled (tops threeCalled) := by
  have heq : tops threeCalled = [⟨2, 3⟩, ⟨1, 2⟩, ⟨2 ^ 64 - 1, 0⟩] := by decide
  refine ⟨heq, fun h => ?_⟩
  rw [heq] at h
  have hle : calls threeCalled 0 ≤ 0 := h.largest 0 (by decide) ⟨2 ^ 64 - 1, 0⟩ (by decide)
  exact absurd hle (by decide)

end Perf
