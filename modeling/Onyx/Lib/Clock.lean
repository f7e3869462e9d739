import Mathlib

-- Second-chance caches: a hand takes the marks of used slots, and gives away the first without one.

namespace Lib

structure Slot (κ ν : Type) where
  key : κ
  valid : Bool
  dwell : Bool
  data : ν

structure Clock (κ ν : Type) (n : Nat) where
  slots : Vector (Slot κ ν) n
  hand : Fin n

namespace Clock

variable {κ ν : Type} {n : Nat} {c c' : Clock κ ν n} {k k' : κ} {v v' : ν} {i j : Fin n}

def put (c : Clock κ ν n) (i : Fin n) (e : Slot κ ν) : Clock κ ν n := { c with slots := c.slots.set i e }

theorem getElem_put_self (c : Clock κ ν n) (e : Slot κ ν) : (c.put i e).slots[i] = e :=
  Vector.getElem_set_self i.isLt

theorem getElem_put_of_ne (c : Clock κ ν n) (e : Slot κ ν) (h : j ≠ i) : (c.put i e).slots[j] = c.slots[j] :=
  Vector.getElem_set_ne i.isLt j.isLt fun he => h (Fin.ext he.symm)

def clear (c : Clock κ ν n) : Clock κ ν n :=
  { c with slots := c.slots.map fun e => { e with valid := false, dwell := false } }

def Slot.Shows (e : Slot κ ν) (k : κ) (v : ν) : Prop := e.valid = true ∧ e.key = k ∧ e.data = v

def Holds (c : Clock κ ν n) (k : κ) (v : ν) : Prop := ∃ i : Fin n, Slot.Shows c.slots[i] k v

def Unique (c : Clock κ ν n) : Prop :=
  ∀ i j : Fin n, c.slots[i].valid = true → c.slots[j].valid = true → c.slots[i].key = c.slots[j].key → i = j

-- Two caches that differ at most in marks and hand.
def Alike (c c' : Clock κ ν n) : Prop :=
  ∀ i : Fin n, c'.slots[i].valid = c.slots[i].valid ∧ c'.slots[i].key = c.slots[i].key ∧
    c'.slots[i].data = c.slots[i].data

namespace Alike

theorem refl (c : Clock κ ν n) : c.Alike c :=
  fun _ => ⟨rfl, rfl, rfl⟩

theorem trans (h1 : c.Alike c') (h2 : c'.Alike c'') : c.Alike c'' := by
  intro i
  have ⟨hv1, hk1, hd1⟩ := h1 i
  have ⟨hv2, hk2, hd2⟩ := h2 i
  exact ⟨hv2.trans hv1, hk2.trans hk1, hd2.trans hd1⟩

theorem holds (h : c.Alike c') : c'.Holds k v ↔ c.Holds k v := by
  refine exists_congr fun i => ?_
  have ⟨hv, hk, hd⟩ := h i
  rw [Slot.Shows, Slot.Shows, hv, hk, hd]

theorem unique (h : c.Alike c') (hu : c.Unique) : c'.Unique := by
  intro i j hi hj hk
  have ⟨hvi, hki, _⟩ := h i
  have ⟨hvj, hkj, _⟩ := h j
  exact hu i j (hvi ▸ hi) (hvj ▸ hj) (by rw [← hki, ← hkj, hk])

theorem put (c : Clock κ ν n) (i : Fin n) (b : Bool) : c.Alike (c.put i { c.slots[i] with dwell := b }) := by
  intro j
  by_cases h : j = i
  · subst h
    rw [getElem_put_self]
    exact ⟨rfl, rfl, rfl⟩
  · rw [getElem_put_of_ne _ _ h]
    exact ⟨rfl, rfl, rfl⟩

end Alike

theorem holds_clear : ¬ c.clear.Holds k v := by
  intro ⟨i, hi, _⟩
  simp [clear] at hi

theorem unique_clear : c.clear.Unique := by
  intro i _ hi
  simp [clear] at hi

theorem holds_put (hv : e.valid = true)
    (hk : ∀ j, j ≠ i → c.slots[j].valid = true → c.slots[j].key ≠ e.key) : (c.put i e).Holds k v ↔
      (k = e.key ∧ v = e.data) ∨ k ≠ e.key ∧ ∃ j, j ≠ i ∧ Slot.Shows c.slots[j] k v := by
  constructor
  · intro ⟨j, hj⟩
    by_cases h : j = i
    · subst h
      rw [getElem_put_self] at hj
      exact .inl ⟨hj.2.1.symm, hj.2.2.symm⟩
    · rw [getElem_put_of_ne _ _ h] at hj
      exact .inr ⟨hj.2.1 ▸ hk j h hj.1, j, h, hj⟩
  · intro h
    cases h with
    | inl h => exact ⟨i, by rw [getElem_put_self]; exact ⟨hv, h.1.symm, h.2.symm⟩⟩
    | inr h =>
      have ⟨_, j, hne, hj⟩ := h
      exact ⟨j, by rwa [getElem_put_of_ne _ _ hne]⟩

theorem unique_put (hu : c.Unique)
    (hk : ∀ j, j ≠ i → c.slots[j].valid = true → c.slots[j].key ≠ e.key) : (c.put i e).Unique := by
  intro a b ha hb he
  by_cases hai : a = i <;> by_cases hbi : b = i
  · rw [hai, hbi]
  · subst hai
    rw [getElem_put_of_ne _ _ hbi] at hb he
    rw [getElem_put_self] at he
    exact absurd he.symm (hk b hbi hb)
  · subst hbi
    rw [getElem_put_of_ne _ _ hai] at ha he
    rw [getElem_put_self] at he
    exact absurd he (hk a hai ha)
  · rw [getElem_put_of_ne _ _ hai] at ha he
    rw [getElem_put_of_ne _ _ hbi] at hb he
    exact hu a b ha hb he

section sweep

variable [NeZero n]

def spared (e : Slot κ ν) : Bool := e.valid && e.dwell

-- The hand takes the mark of the slot under it.
def pass (c : Clock κ ν n) : Clock κ ν n :=
  { c.put c.hand { c.slots[c.hand] with dwell := false } with hand := c.hand + 1 }

def replace (c : Clock κ ν n) (k : κ) (v : ν) : Clock κ ν n :=
  { c.put c.hand { key := k, valid := true, dwell := true, data := v } with hand := c.hand + 1 }

def chances (c : Clock κ ν n) : Nat := c.slots.countP spared

theorem chances_pass (h : spared c.slots[c.hand] = true) : c.pass.chances < c.chances := by
  have hpos : 0 < c.slots.countP spared := Vector.countP_pos_iff.mpr ⟨_, Vector.getElem_mem c.hand.isLt, h⟩
  have hset : (c.slots.set c.hand { c.slots[c.hand] with dwell := false }).countP spared = _ :=
    Vector.countP_set c.hand.isLt
  have hold : (if spared c.slots[c.hand.val] = true then 1 else 0) = 1 := if_pos h
  have hnew : spared { c.slots[c.hand] with dwell := false } = false := by simp [spared]
  rw [hold, hnew] at hset
  show (c.slots.set c.hand _).countP spared < c.slots.countP spared
  rw [hset, if_neg (by decide)]
  omega

-- Every pass uses up a second chance.
def sweep (c : Clock κ ν n) (k : κ) (v : ν) : Clock κ ν n :=
  if spared c.slots[c.hand] then c.pass.sweep k v else c.replace k v
termination_by c.chances
decreasing_by exact chances_pass ‹_›

-- The same loop with a bound on the number of its iterations.
def sweepWithin (k : κ) (v : ν) : Nat → Clock κ ν n → Option (Clock κ ν n)
  | 0, _ => none
  | m + 1, c => if spared c.slots[c.hand] then sweepWithin k v m c.pass else some (c.replace k v)

theorem sweepWithin_eq (h : c.chances < m) : sweepWithin k v m c = some (c.sweep k v) := by
  induction m generalizing c with
  | zero => exact absurd h (Nat.not_lt_zero _)
  | succ m hi =>
    rw [sweepWithin, sweep]
    split_ifs with hs
    · exact hi (Nat.lt_of_lt_of_le (chances_pass hs) (Nat.le_of_lt_succ h))
    · rfl

theorem sweepWithin_succ (c : Clock κ ν n) : sweepWithin k v (n + 1) c = some (c.sweep k v) :=
  sweepWithin_eq (Nat.lt_succ_of_le Vector.countP_le_size)

theorem sweep_eq (c : Clock κ ν n) (k : κ) (v : ν) : ∃ c', c.Alike c' ∧ c.sweep k v = c'.replace k v := by
  induction c using sweep.induct with
  | case1 c h hi =>
    have ⟨c', ha, he⟩ := hi
    refine ⟨c', (Alike.put c c.hand false).trans ha, ?_⟩
    rw [sweep, if_pos h, he]
  | case2 c h => exact ⟨c, .refl c, by rw [sweep, if_neg h]⟩

-- The next key that is new finds an empty slot.
def HasRoom (c : Clock κ ν n) : Prop := c.slots[c.hand].valid = false

theorem HasRoom.sweep (h : c.HasRoom) : c.sweep k v = c.replace k v := by
  have hspared : spared c.slots[c.hand] = false := by rw [spared, h, Bool.false_and]
  rw [Clock.sweep, if_neg (Bool.not_eq_true _ ▸ hspared)]

end sweep

section lookup

variable [DecidableEq κ]

def locate (c : Clock κ ν n) (k : κ) : Option (Fin n) :=
  (List.finRange n).find? fun i => c.slots[i].valid ∧ c.slots[i].key = k

-- A lookup marks the slot as used.
def find (c : Clock κ ν n) (k : κ) : Option (ν × Clock κ ν n) :=
  (c.locate k).map fun i => (c.slots[i].data, c.put i { c.slots[i] with dwell := true })

def contains (c : Clock κ ν n) (k : κ) : Bool := (c.locate k).isSome

theorem locate_eq_some (h : c.locate k = some i) : c.slots[i].valid = true ∧ c.slots[i].key = k := by
  simpa using List.find?_some h

theorem locate_eq_none (h : c.locate k = none) (i : Fin n) (hv : c.slots[i].valid = true) : c.slots[i].key ≠ k := by
  have := List.find?_eq_none.mp h i (List.mem_finRange i)
  simp only [decide_eq_true_eq, not_and] at this
  exact this hv

theorem find_eq_some (h : c.find k = some (v, c')) : c.Holds k v ∧ c.Alike c' := by
  have ⟨i, hi, he⟩ := Option.map_eq_some_iff.mp h
  have ⟨hv, hk⟩ := locate_eq_some hi
  have ⟨hd, hc⟩ := Prod.mk.inj he
  exact ⟨⟨i, hv, hk, hd⟩, hc ▸ Alike.put c i true⟩

variable [NeZero n]

-- A key that is there keeps its slot, so that no second one can arise.
def insert (c : Clock κ ν n) (k : κ) (v : ν) : Clock κ ν n :=
  match c.locate k with
  | some i => c.put i { c.slots[i] with data := v, dwell := true }
  | none => c.sweep k v

def insertWithin (m : Nat) (c : Clock κ ν n) (k : κ) (v : ν) : Option (Clock κ ν n) :=
  match c.locate k with
  | some i => some (c.put i { c.slots[i] with data := v, dwell := true })
  | none => sweepWithin k v m c

theorem insertWithin_succ (c : Clock κ ν n) (k : κ) (v : ν) : insertWithin (n + 1) c k v = some (c.insert k v) := by
  unfold insertWithin insert
  split
  · rfl
  · exact sweepWithin_succ c

theorem insert_eq (hu : c.Unique) (k : κ) (v : ν) : ∃ (c' : Clock κ ν n) (i : Fin n) (e : Slot κ ν), c.Alike c' ∧
      (c.insert k v).slots = (c'.put i e).slots ∧ e.valid = true ∧ e.key = k ∧ e.data = v ∧
      ∀ j, j ≠ i → c'.slots[j].valid = true → c'.slots[j].key ≠ k := by
  unfold insert
  split
  case h_1 i hi =>
    have ⟨hv, hk⟩ := locate_eq_some hi
    exact ⟨c, i, _, .refl c, rfl, hv, hk, rfl, fun j hne hj he => hne (hu j i hj hv (he.trans hk.symm))⟩
  case h_2 hn =>
    have ⟨c', ha, he⟩ := sweep_eq c k v
    refine ⟨c', c'.hand, ⟨k, true, true, v⟩, ha, by rw [he]; rfl, rfl, rfl, rfl, fun j _ hj hk => ?_⟩
    have ⟨hv', hk', _⟩ := ha j
    exact locate_eq_none hn j (hv' ▸ hj) (hk' ▸ hk)

theorem unique_insert (hu : c.Unique) (k : κ) (v : ν) : (c.insert k v).Unique := by
  have ⟨c', i, e, ha, hs, _, hk, _, hne⟩ := insert_eq hu k v
  have h := unique_put (i := i) (ha.unique hu) (hk.symm ▸ hne)
  unfold Unique at h ⊢
  rwa [hs]

theorem holds_insert_self (hu : c.Unique) (k : κ) (v : ν) : (c.insert k v).Holds k v := by
  have ⟨c', i, e, _, hs, hv, hk, hd, hne⟩ := insert_eq hu k v
  have h := (holds_put (k := k) (v := v) hv (hk.symm ▸ hne)).mpr (.inl ⟨hk.symm, hd.symm⟩)
  unfold Holds at h ⊢
  rwa [hs]

theorem holds_of_holds_insert (hu : c.Unique) (h : (c.insert k v).Holds k' v') :
    (k' = k ∧ v' = v) ∨ k' ≠ k ∧ c.Holds k' v' := by
  have ⟨c', i, e, ha, hs, hv, hk, hd, hne⟩ := insert_eq hu k v
  unfold Holds at h
  rw [hs] at h
  cases (holds_put hv (hk.symm ▸ hne)).mp h with
  | inl h => exact .inl ⟨h.1.trans hk, h.2.trans hd⟩
  | inr h =>
    have ⟨hkne, j, _, hj⟩ := h
    exact .inr ⟨hk ▸ hkne, ha.holds.mp ⟨j, hj⟩⟩

-- An empty slot costs no other key its place.
theorem HasRoom.holds_insert (h : c.HasRoom) (hne : k' ≠ k) (hk : c.Holds k' v') : (c.insert k v).Holds k' v' := by
  obtain ⟨j, hj⟩ := hk
  have hput {i : Fin n} {e : Slot κ ν} (hji : j ≠ i) : (c.put i e).Holds k' v' :=
    ⟨j, by rwa [getElem_put_of_ne _ _ hji]⟩
  unfold insert
  split
  case h_1 i hi => exact hput fun hji => hne (hj.2.1.symm.trans (hji ▸ (locate_eq_some hi).2))
  case h_2 =>
    rw [h.sweep]
    refine hput fun hji => ?_
    subst hji
    exact Bool.noConfusion (Eq.trans h.symm hj.1)

-- In an empty cache with more than one slot there is room for a second key.
theorem hasRoom_insert (hempty : ∀ i : Fin n, c.slots[i].valid = false) (hn : c.hand + 1 ≠ c.hand) : (c.insert k v).HasRoom := by
  have hnone : c.locate k = none := by
    refine List.find?_eq_none.mpr fun i _ => ?_
    rw [decide_eq_true_eq]
    exact fun hi => Bool.noConfusion ((hempty i).symm.trans hi.1)
  have hroom : c.HasRoom := hempty c.hand
  rw [insert, hnone, hroom.sweep]
  refine Eq.trans (congrArg Slot.valid ?_) (hempty (c.hand + 1))
  exact getElem_put_of_ne c _ hn

end lookup

end Clock
end Lib
