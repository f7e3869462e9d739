import Onyx.Fat.Chain
import Onyx.Fat.Dir

-- What a directory scan finds, in terms of the list of all slots of the directory.

open Lib Fat List

namespace Fat

-- A slot with a short entry in it.
def isLive (slot : Bytes) : Bool :=
  slotMark slot ≠ slotEnd ∧ slotMark slot ≠ slotDeleted ∧ slotAttr slot ≠ attrLfn ∧ slotAttr slot &&& attrVolume = 0

def entriesOf (dirCluster : Nat) (slots : List Bytes) : List RawEntry :=
  (scanSlots dirCluster 0 .empty slots).1

-- Slot indices are `u32`s.
def checkIndices (es : List RawEntry) : Result FsError (List RawEntry) :=
  if es.any fun e => 2 ^ 32 ≤ e.dirIndex then abort else .ok es

theorem checkIndices_eq_ok : checkIndices es = .ok es' ↔ es' = es ∧ ∀ e ∈ es, e.dirIndex < 2 ^ 32 := by
  unfold checkIndices
  split_ifs with h
  · simp only [any_eq_true, decide_eq_true_eq] at h
    obtain ⟨e, he, hi⟩ := h
    unfold abort
    simp only [reduceCtorEq, false_iff]
    exact fun ⟨_, h'⟩ => absurd (h' e he) (by omega)
  · simp only [any_eq_true, decide_eq_true_eq, not_exists, not_and, not_le] at h
    simp only [Except.ok.injEq]
    exact ⟨fun he => ⟨he.symm, h⟩, fun he => he.1.symm⟩

theorem checkIndices_append :
    checkIndices (es ++ es') =
      if es.any fun e => 2 ^ 32 ≤ e.dirIndex then abort
      else do return es ++ (← checkIndices es') := by
  unfold checkIndices
  rw [any_append]
  cases es.any _ <;> cases es'.any _ <;> rfl

variable {h idx : Nat} {run : LfnRun} {slots slots' : List Bytes} {slot : Bytes}

theorem length_slotsOf (b : Bytes) : (slotsOf b).length = b.length / 32 := by
  simp [slotsOf]

-- The pending long-name run after a slot, and after several.
def nextRun (run : LfnRun) (slot : Bytes) : LfnRun :=
  if slotMark slot ≠ slotDeleted ∧ slotAttr slot = attrLfn then run.add slot else .empty

def pendingRun (run : LfnRun) (slots : List Bytes) : LfnRun := slots.foldl nextRun run

theorem scanSlots_cons :
    scanSlots h idx run (slot :: slots) =
      if slotMark slot = slotEnd then ([], none)
      else
        let rest := scanSlots h (idx + 1) (nextRun run slot) slots
        ((if isLive slot then [entryOf h run slot idx] else []) ++ rest.1, rest.2) := by
  rw [scanSlots]
  split_ifs <;> simp_all [isLive, nextRun]

-- No slot ends the directory.
def Endless (slots : List Bytes) : Prop := ∀ s ∈ slots, slotMark s ≠ slotEnd

theorem endless_cons : Endless (slot :: slots) ↔ slotMark slot ≠ slotEnd ∧ Endless slots := by
  simp [Endless]

theorem scanSlots_append (he : Endless slots) :
    scanSlots h idx run (slots ++ slots') =
      let rest := scanSlots h (idx + slots.length) (pendingRun run slots) slots'
      ((scanSlots h idx run slots).1 ++ rest.1, rest.2) := by
  induction slots generalizing idx run with
  | nil => rfl
  | cons slot slots hi =>
    have ⟨h1, h2⟩ := endless_cons.mp he
    have hl : idx + 1 + slots.length = idx + (slots.length + 1) := by omega
    simp only [cons_append, scanSlots_cons, h1, if_false, hi h2, length_cons, hl, append_assoc]
    rfl

theorem scanSlots_append_of_end (he : ¬ Endless slots) :
    scanSlots h idx run (slots ++ slots') = scanSlots h idx run slots := by
  induction slots generalizing idx run with
  | nil => simp [Endless] at he
  | cons slot slots hi =>
    simp only [cons_append, scanSlots_cons]
    by_cases h1 : slotMark slot = slotEnd
    · simp [h1]
    · have h2 : ¬ Endless slots := fun h2 => he (endless_cons.mpr ⟨h1, h2⟩)
      simp [h1, hi h2]

theorem scanSlots_run (he : Endless slots) : (scanSlots h idx run slots).2 = some (pendingRun run slots) := by
  rw [← append_nil slots, scanSlots_append he, append_nil]
  rfl

theorem scanSlots_run_of_end (he : ¬ Endless slots) : (scanSlots h idx run slots).2 = none := by
  induction slots generalizing idx run with
  | nil => simp [Endless] at he
  | cons slot slots hi =>
    rw [scanSlots_cons]
    by_cases h1 : slotMark slot = slotEnd
    · simp [h1]
    · simp only [h1, if_false]
      exact hi fun h2 => he (endless_cons.mpr ⟨h1, h2⟩)

theorem mem_scanSlots : e ∈ (scanSlots h idx run slots).1 ↔
      ∃ k slot, slots[k]? = some slot ∧ isLive slot = true ∧ Endless (slots.take k) ∧
        e = entryOf h (pendingRun run (slots.take k)) slot (idx + k) := by
  induction slots generalizing idx run with
  | nil => simp [scanSlots]
  | cons slot slots hi =>
    rw [scanSlots_cons]
    have hl (hs : isLive slot = true) : slotMark slot ≠ slotEnd := by
      simp only [isLive, decide_eq_true_eq] at hs
      exact hs.1
    constructor
    · intro he
      by_cases hm : slotMark slot = slotEnd
      · simp [hm] at he
      rw [if_neg hm] at he
      cases mem_append.mp he with
      | inl he =>
        split_ifs at he with hs
        · exact ⟨0, slot, rfl, hs, by simp [Endless], by simpa [pendingRun] using he⟩
        · simp at he
      | inr he =>
        have ⟨k, s, hk, hs, hk', he⟩ := hi.mp he
        refine ⟨k + 1, s, hk, hs, endless_cons.mpr ⟨hm, hk'⟩, ?_⟩
        rw [he, add_assoc, add_comm 1]
        rfl
    · intro ⟨k, s, hk, hs, hk', he⟩
      cases k with
      | zero =>
        cases hk
        simp [hl hs, hs, he, pendingRun]
      | succ k =>
        have ⟨hm, hk'⟩ := endless_cons.mp hk'
        rw [if_neg hm]
        refine mem_append_right _ (hi.mpr ⟨k, s, hk, hs, hk', ?_⟩)
        rw [he, add_assoc, add_comm 1]
        rfl

end Fat

def Vol.slots (V : Vol) (cs : List Nat) : List Bytes := cs.flatMap fun c => slotsOf (V.data c)

namespace Fat32

variable {v : Fat32} {d : AtaDrive} {V : Vol} {c h : Nat} {cs : List Nat}

theorem Shows.length_slotsOf (hs : v.Shows d V) (hc : v.Valid c) : (slotsOf (V.data c)).length = v.slotsPerCluster := by
  rw [Fat.length_slotsOf, hs.length_data hc, slotsPerCluster]

theorem Shows.scanClusters (hs : v.Shows d V) (hv : ∀ c ∈ cs, v.Valid c) : v.scanClusters d h ci run cs =
      checkIndices (scanSlots h (ci * v.slotsPerCluster) run (V.slots cs)).1 := by
  induction cs generalizing ci run with
  | nil => rfl
  | cons c cs hi =>
    have hc := hv c (.head _)
    have hcs : ∀ c ∈ cs, v.Valid c := fun c hc => hv c (.tail _ hc)
    have hidx : ci * v.slotsPerCluster + v.slotsPerCluster = (ci + 1) * v.slotsPerCluster := (Nat.succ_mul ..).symm
    simp only [Fat32.scanClusters, hs.readCluster hc, ok_bind, Vol.slots, flatMap_cons]
    by_cases he : Endless (slotsOf (V.data c))
    · rw [scanSlots_run he, scanSlots_append he, hs.length_slotsOf hc, hidx]
      simp only [hi hcs, checkIndices_append]
      rfl
    · rw [scanSlots_run_of_end he, scanSlots_append_of_end he]
      rfl

theorem Shows.scanDir (hs : v.Shows d V) (hl : V.Chain h cs) (hv : ∀ c ∈ cs, v.Valid c) :
    v.scanDir d h = checkIndices (entriesOf h (V.slots cs)) := by
  rw [Fat32.scanDir, hs.walkChain hl hv, ok_bind, hs.scanClusters hv, zero_mul]
  rfl

end Fat32
