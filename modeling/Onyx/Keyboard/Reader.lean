import Onyx.Keyboard.Discipline
import Onyx.Scheduler.Wakeup

-- A reader that waits for a line, and the keys that arrive while it waits.

open Lib Scheduler List

namespace Keyboard

def DecodedKey.IsEnter (k : DecodedKey) : Prop := k = .unicode '\n' ∨ k = .unicode '\r'

def Terminal.type (t : Terminal) (keys : List DecodedKey) : Terminal := keys.foldl .push t

def Waits (s : Sched) (i : Nat) : Prop :=
  ∃ task, s.tasks[i]? = some task ∧ task.state = .blocked ∧ task.blockedOnInput

-- If there is an Enter among the keys, the next wake pass finds a line pending.
def WakeLaw (s : Sched) (i : Nat) (t : Terminal) (keys : List DecodedKey) : Prop :=
  (∃ k ∈ keys, k.IsEnter) → (t.type keys).linePending ∧ ∀ env : Env, env.linePending = (t.type keys).linePending →
    ∃ task, (s.wakeStateLocked env).tasks[i]? = some task ∧ task.state = .ready

theorem isEnter_iff {k : DecodedKey} : k.IsEnter ↔ Input.ofValue k.value = .enter := by
  rw [Input.ofValue_value]
  cases k with
  | rawKey _ => exact iff_of_false (by simp [DecodedKey.IsEnter]) nofun
  | unicode c =>
    simp only [DecodedKey.IsEnter, DecodedKey.unicode.injEq, Input.ofChar]
    split_ifs with h <;> simp [h]

namespace Terminal

variable {t : Terminal}

theorem pendingFrom_advance : pendingFrom r.advance n i = pendingFrom r n i := by
  induction n generalizing i with
  | zero => rfl
  | succ n ih =>
    simp only [pendingFrom, ih]
    rfl

theorem pendingFrom_iff (hc : r.contents = vs) (hn : vs.length < n) :
    pendingFrom r n r.tail ↔ ∃ v ∈ vs, Input.ofValue v = .enter := by
  induction n generalizing r vs with
  | zero => cases hn
  | succ n ih =>
    cases vs with
    | nil => simp [pendingFrom, Ring.contents_eq_nil.mp hc]
    | cons v vs =>
      have hne : r.tail ≠ r.head := fun h => cons_ne_nil v vs (hc ▸ Ring.contents_eq_nil.mpr h)
      have ⟨hv, hr⟩ := cons.inj ((Ring.contents_eq_cons hne).symm.trans hc)
      have hrest := ih hr (Nat.lt_of_succ_lt_succ hn)
      rw [pendingFrom_advance] at hrest
      have hnext : pendingFrom r n (Ring.next ringLen r.tail) = pendingFrom r n r.advance.tail := rfl
      simp [pendingFrom, hne, hv, hnext, hrest]

theorem linePending_iff : t.linePending ↔ ∃ v ∈ t.ring.contents, Input.ofValue v = .enter :=
  pendingFrom_iff rfl (Ring.length_contents.trans_lt Ring.size_lt)

theorem ring_type (t : Terminal) (keys : List DecodedKey) : (t.type keys).ring = (keys.map DecodedKey.value).foldl .push t.ring := by
  induction keys generalizing t with
  | nil => rfl
  | cons k keys ih => exact ih (t.push k)

theorem linePending_type (t : Terminal) (keys : List DecodedKey) :
    (t.type keys).linePending ↔ t.linePending ∨ ∃ k ∈ keys.take (ringLen - 1 - t.ring.contents.length), k.IsEnter := by
  simp [linePending_iff, ring_type, Ring.contents_pushes, or_and_right, exists_or, ← map_take, isEnter_iff]

end Terminal

theorem wakes_of_linePending (h : Waits s i) (hp : env.linePending) :
    ∃ task, (s.wakeStateLocked env).tasks[i]? = some task ∧ task.state = .ready := by
  have ⟨task, ht, hs, hi⟩ := h
  refine ⟨_, wakePass_getElem? env ht, ?_⟩
  simp [wakeTask, hs, hi, hp]

-- The reader is woken exactly if an Enter comes before the ring is full.
theorem reader_woken_iff {s : Sched} (h : Waits s i) (t : Terminal) (keys : List DecodedKey) :
    WakeLaw s i t keys ↔ ((∃ k ∈ keys, k.IsEnter) →
      t.linePending ∨ ∃ k ∈ keys.take (ringLen - 1 - t.ring.contents.length), k.IsEnter) := by
  refine forall_congr' fun _ => ?_
  rw [← t.linePending_type keys]
  exact ⟨And.left, fun hp => ⟨hp, fun _ henv => wakes_of_linePending h (henv.trans hp)⟩⟩

-- The shell as the only task, parked in its read.
def parked : Sched :=
  { Sched.boot with tasks := [{ Sched.boot.newTask 0 prioNormal 0 with state := .blocked, blockedOnInput := true }] }

theorem parked_waits : Waits parked 0 := ⟨_, rfl, rfl, rfl⟩

theorem reader_woken_by_enter : Waits parked 0 ∧ WakeLaw parked 0 .init [.unicode 'l', .unicode 's', .unicode '\n'] := by
  refine ⟨parked_waits, (reader_woken_iff parked_waits _ _).mpr fun _ => .inr ⟨.unicode '\n', ?_, .inl rfl⟩⟩
  decide

-- Behind 255 characters there is no room for the Enter.
theorem enter_dropped : ¬WakeLaw parked 0 .init (.replicate 255 (.unicode 'a') ++ [.unicode '\n']) := by
  intro h
  have ⟨hp, _⟩ := h ⟨.unicode '\n', mem_append_right _ (mem_singleton_self _), .inl rfl⟩
  rcases (Terminal.linePending_type _ _).mp hp with hp | ⟨k, hk, hke⟩
  · cases hp
  have hfirst : k ∈ take 255 (.replicate 255 (.unicode 'a') ++ [.unicode '\n']) := hk
  rw [take_left' (length_replicate ..)] at hfirst
  rw [eq_of_mem_replicate hfirst] at hke
  rcases hke with h | h <;> cases h

end Keyboard
