import Onyx.Lib.Bytes
import Onyx.Lib.Patch

-- The walk over the entries of the MADT: which bytes it reads and which LAPIC ids it caches.

open Lib List

namespace Acpi

abbrev Memory := Nat → UInt8

def rdU32 (mem : Memory) (off : Nat) : Nat := Bytes.ofLe (peek mem off 4)

def checksumOk (mem : Memory) (len : Nat) : Bool := (List.range len).foldl (fun s i => s + mem i) 0 = 0

-- The length of the table that starts at the base of `mem`.
def tableHeaderOk (mem : Memory) : Option Nat :=
  let len := rdU32 mem 4
  if len < 36 then none else if checksumOk mem len then some len else none

-- A table that was let through. The memory goes on after it.
structure Table where
  mem : Memory
  len : Nat
  ok : tableHeaderOk mem = some len

def lapicMax : Nat := 8

-- What `parse_madt` keeps, and the offsets of the bytes that it has read.
structure Madt where
  reads : List Nat := []
  lapicIds : List UInt8 := []
  ioapicAddr : Nat := 0
  gsiBase : Nat := 0
  lapics : Nat := 0
  ioapics : Nat := 0
  overrides : Nat := 0

def Madt.read (m : Madt) (off n : Nat) : Madt := { m with reads := m.reads ++ List.range' off n }

namespace Table

variable (t : Table)

def type (off : Nat) : Nat := (t.mem off).toNat

def entryLen (off : Nat) : Nat := (t.mem (off + 1)).toNat

def lapicId (off : Nat) : UInt8 := t.mem (off + 3)

def Enabled (off : Nat) : Prop := rdU32 t.mem (off + 4) % 2 = 1

instance (off : Nat) : Decidable (t.Enabled off) := inferInstanceAs (Decidable (_ = _))

def decode (m : Madt) (off : Nat) : Madt :=
  match t.type off with
  | 0 =>
    { ((m.read (off + 2) 1).read (off + 3) 1).read (off + 4) 4 with
      lapicIds :=
        if t.Enabled off then
          if m.lapicIds.length < lapicMax then m.lapicIds ++ [t.lapicId off] else m.lapicIds
        else m.lapicIds
      lapics := m.lapics + 1 }
  | 1 =>
    { ((m.read (off + 2) 1).read (off + 4) 4).read (off + 8) 4 with
      ioapicAddr := rdU32 t.mem (off + 4)
      gsiBase := rdU32 t.mem (off + 8)
      ioapics := m.ioapics + 1 }
  | 2 => { (m.read (off + 3) 1).read (off + 4) 4 with overrides := m.overrides + 1 }
  | _ => m

-- The entry has its two bytes of header and declares a length that keeps it in the table.
def Entry (off : Nat) : Prop := off + 2 ≤ t.len ∧ ¬(t.entryLen off < 2 ∨ t.len < off + t.entryLen off)

instance (off : Nat) : Decidable (t.Entry off) := inferInstanceAs (Decidable (_ ∧ _))

def walk (m : Madt) (off : Nat) : Madt :=
  if off + 2 ≤ t.len then
    let m := (m.read off 1).read (off + 1) 1
    if t.entryLen off < 2 ∨ t.len < off + t.entryLen off then m
    else walk (t.decode m off) (off + t.entryLen off)
  else m
termination_by t.len - off

def parseMadt : Madt :=
  if t.len < 44 then {}
  else t.walk ((Madt.read {} 36 4).read 40 4) 44

def entriesFrom (off : Nat) : List Nat :=
  if h : t.Entry off then
    have : t.len - (off + t.entryLen off) < t.len - off := by
      unfold Entry at h
      omega
    off :: entriesFrom (off + t.entryLen off)
  else []
termination_by t.len - off

def entries : List Nat := t.entriesFrom 44

def needed (off : Nat) : Nat :=
  match t.type off with
  | 0 => 8
  | 1 => 12
  | 2 => 8
  | _ => 0

def lapics (offs : List Nat) : List Nat := offs.filter fun off => t.type off = 0 ∧ t.Enabled off

end Table

def Madt.Inside (m : Madt) (len : Nat) : Prop := ∀ r ∈ m.reads, r < len

structure MadtLaw (t : Table) : Prop where
  inside : t.parseMadt.Inside t.len
  cached : t.parseMadt.lapicIds = (((t.lapics t.entries).filter fun off => 8 ≤ t.entryLen off).map t.lapicId).take lapicMax

variable {t : Table} {m : Madt}

namespace Madt

theorem inside_read : (m.read off (n + 1)).Inside len ↔ m.Inside len ∧ off + (n + 1) ≤ len := by
  simp only [Inside, read, mem_append, mem_range'_1, or_imp, forall_and]
  refine and_congr_right fun _ => ⟨fun h => ?_, fun h r hr => by omega⟩
  have := h (off + n) (by omega)
  omega

end Madt

namespace Table

theorem inside_decode (hoff : off ≤ t.len) : (t.decode m off).Inside t.len ↔ m.Inside t.len ∧ off + t.needed off ≤ t.len := by
  unfold decode needed
  split
  · change (((m.read (off + 2) 1).read (off + 3) 1).read (off + 4) 4).Inside t.len ↔ _
    rw [Madt.inside_read, Madt.inside_read, Madt.inside_read]
    grind
  · change (((m.read (off + 2) 1).read (off + 4) 4).read (off + 8) 4).Inside t.len ↔ _
    rw [Madt.inside_read, Madt.inside_read, Madt.inside_read]
    grind
  · change ((m.read (off + 3) 1).read (off + 4) 4).Inside t.len ↔ _
    rw [Madt.inside_read, Madt.inside_read]
    grind
  · grind

theorem lapicIds_decode (h : m.lapicIds = ids.take lapicMax) :
    (t.decode m off).lapicIds = (ids ++ (t.lapics [off]).map t.lapicId).take lapicMax := by
  have hadd (id : UInt8) : (if m.lapicIds.length < lapicMax then m.lapicIds ++ [id] else m.lapicIds) = (ids ++ [id]).take lapicMax := by
    rw [h, take_append, length_take]
    split
    case isTrue hlt => rw [take_of_length_le (l := [id]) (Nat.le_sub_of_add_le (by rw [length_singleton]; omega))]
    case isFalse hge => rw [Nat.sub_eq_zero_of_le (by omega), take_zero, append_nil]
  unfold decode lapics
  split
  case h_1 ht =>
    dsimp only
    rw [hadd]
    by_cases hen : t.Enabled off <;> simp [ht, hen, h]
  case h_2 ht => simp [ht, h, Madt.read]
  case h_3 ht => simp [ht, h, Madt.read]
  case h_4 ht _ _ => simp [h, show t.type off ≠ 0 from ht]

theorem entriesFrom_of_not (h : ¬t.Entry off) : t.entriesFrom off = [] := by
  rw [entriesFrom, dif_neg h]

theorem entriesFrom_of_entry (h : t.Entry off) : t.entriesFrom off = off :: t.entriesFrom (off + t.entryLen off) := by
  rw [entriesFrom, dif_pos h]

theorem inside_walk : (t.walk m off).Inside t.len ↔ m.Inside t.len ∧ ∀ e ∈ t.entriesFrom off, e + t.needed e ≤ t.len := by
  fun_induction walk t m off with
  | case1 m off hoff m' hbad =>
    rw [entriesFrom_of_not fun h => h.2 hbad, Madt.inside_read, Madt.inside_read]
    grind
  | case2 m off hoff m' hgood ih =>
    rw [ih, entriesFrom_of_entry ⟨hoff, hgood⟩, inside_decode (by omega), Madt.inside_read, Madt.inside_read]
    simp only [forall_mem_cons]
    grind
  | case3 m off hoff =>
    rw [entriesFrom_of_not fun h => hoff h.1]
    simp

theorem lapicIds_walk (h : m.lapicIds = ids.take lapicMax) :
    (t.walk m off).lapicIds = (ids ++ (t.lapics (t.entriesFrom off)).map t.lapicId).take lapicMax := by
  fun_induction walk t m off generalizing ids with
  | case1 =>
    rename_i hbad
    rw [entriesFrom_of_not fun h => h.2 hbad, lapics, filter_nil, map_nil, append_nil]
    exact h
  | case2 =>
    rename_i off hoff _ hgood ih
    have hids : t.lapics (off :: t.entriesFrom (off + t.entryLen off)) =
        t.lapics [off] ++ t.lapics (t.entriesFrom (off + t.entryLen off)) := filter_append [off] _
    rw [entriesFrom_of_entry ⟨hoff, hgood⟩, hids, map_append, ← append_assoc]
    exact ih (lapicIds_decode h)
  | case3 m off hoff =>
    rw [entriesFrom_of_not fun h => hoff h.1]
    simpa [lapics] using h

theorem inside_parseMadt : t.parseMadt.Inside t.len ↔ ∀ e ∈ t.entries, e + t.needed e ≤ t.len := by
  unfold parseMadt entries
  split
  case isTrue h =>
    rw [entriesFrom_of_not fun he => by have := he.1; omega]
    simp [Madt.Inside]
  case isFalse h =>
    rw [inside_walk, Madt.inside_read, Madt.inside_read]
    simp only [Madt.Inside, not_mem_nil, false_implies, implies_true, true_and]
    grind

theorem lapicIds_parseMadt : t.parseMadt.lapicIds = ((t.lapics t.entries).map t.lapicId).take lapicMax := by
  unfold parseMadt entries
  split
  case isTrue h =>
    rw [entriesFrom_of_not fun he => by have := he.1; omega]
    rfl
  case isFalse h => exact lapicIds_walk (show _ = [].take lapicMax from rfl)

end Table

variable {α β : Type} {l : List α} {p : α → Bool}

theorem take_filter (h : ∀ a ∈ l.take n, p a) : (l.filter p).take n = l.take n := by
  induction l generalizing n with
  | nil => rfl
  | cons a l ih =>
    cases n with
    | zero => rfl
    | succ n =>
      have ⟨ha, hl⟩ := forall_mem_cons.mp h
      rw [filter_cons_of_pos ha, take_succ_cons, take_succ_cons, ih hl]

theorem forall_of_take_filter (hn : (l.map f).Nodup) (h : (l.map f).take n = ((l.filter p).map f).take n) :
    ∀ a ∈ l.take n, p a := by
  induction l generalizing n with
  | nil => simp
  | cons a l ih =>
    cases n with
    | zero => exact nofun
    | succ n =>
      have ⟨hfresh, hn⟩ := nodup_cons.mp hn
      by_cases ha : p a
      · rw [filter_cons_of_pos ha] at h
        exact forall_mem_cons.mpr ⟨ha, ih hn (cons.inj h).2⟩
      -- The id in the place of the dropped one is that of a later entry.
      rw [filter_cons_of_neg ha] at h
      have hmem : f a ∈ ((l.filter p).map f).take (n + 1) := h ▸ mem_cons_self ..
      obtain ⟨b, hb, heq⟩ := mem_map.mp (mem_of_mem_take hmem)
      exact absurd (heq ▸ mem_map_of_mem (mem_of_mem_filter hb)) hfresh

structure Complete (t : Table) : Prop where
  inside : ∀ e ∈ t.entries, e + t.needed e ≤ t.len
  lapics : ∀ e ∈ (t.lapics t.entries).take lapicMax, 8 ≤ t.entryLen e

theorem madtLaw_of_complete (t : Table) : (Complete t → MadtLaw t) ∧
    (((t.lapics t.entries).map t.lapicId).Nodup → MadtLaw t → Complete t) := by
  constructor
  · intro h
    refine ⟨Table.inside_parseMadt.mpr h.inside, ?_⟩
    rw [Table.lapicIds_parseMadt, ← map_take, ← map_take, take_filter (by simpa using h.lapics)]
  · intro hn h
    refine ⟨Table.inside_parseMadt.mp h.inside, fun e he => ?_⟩
    exact of_decide_eq_true (forall_of_take_filter hn (Table.lapicIds_parseMadt ▸ h.cached) e he)

-- The entries of two CPUs with the ids 0 and 1.
set_option maxRecDepth 2000 in
def twoCpus : Table where
  mem := fun i => [0, 60, 0, 0, 0, 0, 176].getD (i - 3) 0 + [0, 8, 0, 0, 1, 0, 0, 0, 0, 8, 1, 1, 1].getD (i - 44) 0
  len := 60
  ok := by decide

theorem twoCpus_entries : twoCpus.entries = [44, 52] := by
  rw [Table.entries, Table.entriesFrom_of_entry (by decide), Table.entriesFrom_of_entry (by decide),
    Table.entriesFrom_of_not (by decide)]
  rfl

theorem twoCpus_lawful : MadtLaw twoCpus :=
  (madtLaw_of_complete twoCpus).1 ⟨by rw [twoCpus_entries]; decide, by rw [twoCpus_entries]; decide⟩

def shortEntry : Table where
  mem := fun i => if i = 4 then 46 else if i = 9 then 208 else if i = 45 then 2 else 0
  len := 46
  ok := by decide

theorem shortEntry_read_beyond : ¬MadtLaw shortEntry := by
  intro h
  have hentry : shortEntry.Entry 44 := by decide
  have hin := Table.inside_parseMadt.mp h.inside 44
  rw [Table.entries, Table.entriesFrom_of_entry hentry] at hin
  exact absurd (hin (mem_cons_self ..)) (by decide)

end Acpi
