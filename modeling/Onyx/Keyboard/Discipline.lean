import Onyx.Keyboard.Terminal
import Onyx.Lib.Execution

-- What the reads return against what was typed.

open Lib List

namespace Keyboard

variable {t t' : Terminal}

theorem Input.ofValue_value (k : DecodedKey) : Input.ofValue k.value = match k with
    | .unicode c => .ofChar c
    | .rawKey _ => .ignored := by
  cases k with
  | rawKey k =>
    have hk : k.toNat < 256 := k.toNat_lt
    exact if_pos (show (2 ^ 32 + k.toNat) / 2 ^ 32 % 2 = 1 by omega)
  | unicode c =>
    have hvalid : c.toNat.isValidChar := c.valid
    have hlt : c.toNat < 2 ^ 32 := c.val.toNat_lt
    have hraw : ¬c.toNat / flagRaw % 2 = 1 := show ¬c.toNat / 2 ^ 32 % 2 = 1 by omega
    simp only [DecodedKey.value, Input.ofValue, if_neg hraw, Nat.mod_eq_of_lt hlt, fromU32, if_pos hvalid, Char.ofNat_toNat]

def held (line : Bytes) : List Nat → List Bytes × Bytes
  | [] => ([], line)
  | v :: vs =>
    match Input.ofValue v with
    | .enter => (line :: (held [] vs).1, (held [] vs).2)
    | i => held (editLine line i) vs

def Terminal.held (t : Terminal) : List Bytes × Bytes := Keyboard.held t.line t.ring.contents

def heldNext (h : List Bytes × Bytes) : Input → List Bytes × Bytes
  | .enter => (h.1 ++ [h.2], [])
  | i => (h.1, editLine h.2 i)

theorem held_append : held line (vs ++ [v]) = heldNext (held line vs) (.ofValue v) := by
  induction vs generalizing line with
  | nil =>
    simp only [nil_append, held]
    cases Input.ofValue v <;> rfl
  | cons w vs ih =>
    rw [cons_append, held, held]
    cases Input.ofValue w with
    | enter =>
      simp only [ih]
      cases Input.ofValue v <;> rfl
    | erase => exact ih
    | text c => exact ih
    | ignored => exact ih

theorem length_held (h : line.length ≤ lineMax) : ∀ l ∈ (held line vs).1, l.length ≤ lineMax := by
  induction vs generalizing line with
  | nil => exact nofun
  | cons v vs ih =>
    rw [held]
    have hedit {i : Input} := length_editLine (i := i) h
    cases Input.ofValue v with
    | enter =>
      intro l hl
      cases hl with
      | head => exact h
      | tail _ hl => exact ih (Nat.zero_le _) l hl
    | erase => exact ih hedit
    | text c => exact ih hedit
    | ignored => exact ih hedit

theorem drain_eq (out : Nat) (hc : t.ring.contents = vs) (hn : vs.length < n) :
    ∃ t', t.drain out n = ((held t.line vs).1.head?.map (·.take out), t') ∧ t'.held = ((held t.line vs).1.tail, (held t.line vs).2) := by
  induction n generalizing t vs with
  | zero => cases hn
  | succ n ih =>
    cases vs with
    | nil =>
      refine ⟨t, ?_, ?_⟩
      · rw [Terminal.drain, Ring.pop_of_empty hc]
        rfl
      · rw [Terminal.held, hc]
        rfl
    | cons v vs =>
      have ⟨hpop, hr⟩ := Ring.pop_of_contents hc
      have hlt : vs.length < n := Nat.lt_of_succ_lt_succ hn
      simp only [Terminal.drain, hpop, held]
      cases Input.ofValue v with
      | enter =>
        refine ⟨_, rfl, ?_⟩
        rw [Terminal.held, hr]
        rfl
      | erase => exact ih hr hlt
      | text c => exact ih hr hlt
      | ignored => exact ih hr hlt

theorem takeLine_eq (t : Terminal) (out : Nat) : ∃ t', t.takeLine out = ((t.held.1.head?.map (·.take out)).getD [], t') ∧
    t'.held = (t.held.1.tail, t.held.2) := by
  have hn : t.ring.contents.length < ringLen := by
    rw [Ring.length_contents]
    exact Ring.size_lt
  have ⟨t', hdrain, hheld⟩ := drain_eq out rfl hn
  refine ⟨t', ?_, hheld⟩
  rw [Terminal.takeLine, hdrain]
  rfl

theorem held_push (t : Terminal) (k : DecodedKey) (h : ¬t.ring.full) : (t.push k).held = heldNext t.held (.ofValue k.value) := by
  rw [Terminal.held, Terminal.push, Ring.contents_push h, held_append]
  rfl

structure Console where
  lines : List Bytes
  typed : List Char

def encodeLine (cs : List Char) : Bytes := cs.flatMap encodeUtf8

namespace Console

def type (c : Console) : Input → Console
  | .enter => ⟨c.lines ++ [encodeLine c.typed], []⟩
  | .erase => { c with typed := c.typed.dropLast }
  | .text ch => { c with typed := c.typed ++ [ch] }
  | .ignored => c

def key (c : Console) : DecodedKey → Console
  | .unicode ch => c.type (.ofChar ch)
  | .rawKey _ => c

-- A read returns the first line, and the next one goes on with what did not fit.
def read (c : Console) (len : Nat) : Option (Bytes × Console) :=
  match c.lines with
  | [] => none
  | l :: ls => if l.length ≤ len then some (l, { c with lines := ls }) else some (l.take len, { c with lines := l.drop len :: ls })

end Console

-- The lengths of the buffers, the first one of the read that waits, and what was returned.
structure Calls where
  lens : List Nat
  returned : List Bytes
  deriving DecidableEq

-- The terminal with its reads, next to what was typed with the reads that this calls for.
structure Session where
  terminal : Terminal
  calls : Calls
  console : Console
  due : Calls

inductive Act
  | key (k : DecodedKey)
  | poll
  deriving DecidableEq, Repr

-- A round of the read that waits.
def Calls.poll (c : Calls) (t : Terminal) : Calls × Terminal :=
  match c.lens with
  | [] => (c, t)
  | len :: lens =>
    match sysRead t len with
    | (.done data, t') => (⟨lens, c.returned ++ [data]⟩, t')
    | (_, t') => (c, t')

def Calls.serve (c : Calls) (con : Console) : Calls × Console :=
  match c.lens with
  | [] => (c, con)
  | len :: lens =>
    if len = 0 then (⟨lens, c.returned ++ [[]]⟩, con)
    else match con.read len with
      | some (data, con') => (⟨lens, c.returned ++ [data]⟩, con')
      | none => (c, con)

namespace Session

def init (lens : List Nat) : Session := ⟨.init, ⟨lens, []⟩, ⟨[], []⟩, ⟨lens, []⟩⟩

-- A key that finds the ring full is not accepted, and then it was not typed.
def step (s : Session) : Act → Session
  | .key k => { s with
      terminal := s.terminal.push k
      console := if s.terminal.ring.full then s.console else s.console.key k }
  | .poll => {
      terminal := (s.calls.poll s.terminal).2
      calls := (s.calls.poll s.terminal).1
      console := (s.due.serve s.console).2
      due := (s.due.serve s.console).1 }

-- The reads have returned what was typed, and the terminal holds what is still to come.
structure Law (s : Session) : Prop where
  returned : s.calls = s.due
  held : s.terminal.held = (s.console.lines, encodeLine s.console.typed)

-- The law holds at every moment of a run.
def Lawful (lens : List Nat) (acts : List Act) : Prop := ∀ n, (((acts.take n).foldl step (init lens))).Law

end Session

-- A character fits the line, and a backspace finds a character of one byte or nothing.
def InputFits (typed : List Char) : Input → Prop
  | .text c => (encodeLine typed).length + (encodeUtf8 c).length ≤ lineMax
  | .erase => ∀ c ∈ typed.getLast?, (encodeUtf8 c).length = 1
  | _ => True

-- A read finds a line that is not empty and fits into its buffer.
def ReadFits (lens : List Nat) (lines : List Bytes) : Prop :=
  ∀ len ∈ lens.head?, len ≠ 0 → ∀ l ∈ lines.head?, l ≠ [] ∧ l.length ≤ len

namespace Session

def Fits (s : Session) : Act → Prop
  | .key (.unicode c) => ¬s.terminal.ring.full → InputFits s.console.typed (.ofChar c)
  | .key (.rawKey _) => True
  | .poll => ReadFits s.due.lens s.console.lines

end Session

theorem encodeUtf8_ne_nil : encodeUtf8 c ≠ [] := by
  have := c.utf8Size_pos
  rw [encodeUtf8, ← length_pos_iff, String.length_utf8EncodeChar]
  exact this

theorem encodeLine_append : encodeLine (cs ++ [c]) = encodeLine cs ++ encodeUtf8 c := by
  simp [encodeLine]

theorem dropLast_encodeLine : (encodeLine cs).dropLast = encodeLine cs.dropLast ↔ InputFits cs .erase := by
  rcases eq_nil_or_concat cs with rfl | ⟨cs, c, rfl⟩
  · exact iff_of_true rfl nofun
  have hfits : InputFits (cs ++ [c]) .erase ↔ (encodeUtf8 c).length = 1 := by
    refine ⟨fun h => h c getLast?_concat, fun h d hd => ?_⟩
    cases getLast?_concat.symm.trans hd
    exact h
  have hpos := length_pos_iff.mpr (encodeUtf8_ne_nil (c := c))
  rw [concat_eq_append, hfits, encodeLine_append, dropLast_append_of_ne_nil encodeUtf8_ne_nil, dropLast_concat,
    append_right_eq_self, ← length_eq_zero_iff, length_dropLast]
  omega

theorem heldNext_iff (c : Console) (i : Input) :
    heldNext (c.lines, encodeLine c.typed) i = ((c.type i).lines, encodeLine (c.type i).typed) ↔ InputFits c.typed i := by
  cases i with
  | enter => exact iff_of_true rfl trivial
  | ignored => exact iff_of_true rfl trivial
  | erase =>
    rw [← dropLast_encodeLine]
    exact ⟨fun h => (Prod.mk.inj h).2, fun h => congrArg (Prod.mk _) h⟩
  | text ch =>
    show (_, editLine _ _) = (_, encodeLine (_ ++ [ch])) ↔ _
    rw [Prod.mk.injEq, encodeLine_append, editLine]
    by_cases hfit : (encodeLine c.typed).length + (encodeUtf8 ch).length ≤ lineMax
    · rw [if_pos hfit]
      exact iff_of_true ⟨rfl, rfl⟩ hfit
    rw [if_neg hfit]
    refine iff_of_false (fun h => ?_) hfit
    exact encodeUtf8_ne_nil (append_right_eq_self.mp h.2.symm)

theorem Calls.poll_of_nil {c : Calls} {lens : List Nat} (hl : c.lens = len :: lens) (h0 : len ≠ 0) (ht : t.takeLine (min len 4096) = ([], t')) :
    c.poll t = (c, t') := by
  rw [Calls.poll, hl]
  simp only [sysRead, if_neg h0, ht, ne_eq, not_true_eq_false, if_false]
  cases t'.linePending <;> rfl

theorem Calls.poll_of_data {c : Calls} {lens : List Nat} (hl : c.lens = len :: lens) (h0 : len ≠ 0) (ht : t.takeLine (min len 4096) = (data, t'))
    (hd : data ≠ []) : c.poll t = (⟨lens, c.returned ++ [data]⟩, t') := by
  rw [Calls.poll, hl]
  simp [sysRead, if_neg h0, ht, if_pos hd]

namespace Session

variable {s : Session}

theorem law_key_iff (h : s.Law) (k : DecodedKey) : (s.step (.key k)).Law ↔ s.Fits (.key k) := by
  by_cases hfull : s.terminal.ring.full
  · have hsame : s.step (.key k) = s := by
      rw [step, Terminal.push, Ring.push_of_full hfull, if_pos hfull]
    rw [hsame]
    refine iff_of_true h ?_
    cases k with
    | rawKey _ => trivial
    | unicode c => exact fun hroom => absurd hfull hroom
  · have hheld : (s.step (.key k)).terminal.held = heldNext (s.console.lines, encodeLine s.console.typed) (.ofValue k.value) := by
      rw [← h.held]
      exact held_push _ _ hfull
    have hconsole : (s.step (.key k)).console = s.console.key k := if_neg hfull
    have hlaw : (s.step (.key k)).Law ↔ heldNext (s.console.lines, encodeLine s.console.typed) (.ofValue k.value) =
        ((s.console.key k).lines, encodeLine (s.console.key k).typed) := by
      rw [← hheld, ← hconsole]
      exact ⟨fun h' => h'.held, fun h' => ⟨h.returned, h'⟩⟩
    rw [hlaw, Input.ofValue_value]
    cases k with
    | rawKey _ => exact iff_of_true rfl trivial
    | unicode c => exact (heldNext_iff s.console (.ofChar c)).trans ⟨fun hf _ => hf, fun hf => hf hfull⟩

theorem law_poll_of (hp : s.calls.poll s.terminal = (c, t')) (hs : s.due.serve s.console = (d, con)) :
    (s.step .poll).Law ↔ c = d ∧ t'.held = (con.lines, encodeLine con.typed) := by
  have hstep : s.step .poll = ⟨t', c, con, d⟩ := by rw [step, hp, hs]
  rw [hstep]
  exact ⟨fun h => ⟨h.returned, h.held⟩, fun h => ⟨h.1, h.2⟩⟩

theorem law_read_iff (h : s.Law) (hl : s.due.lens = len :: lens) (h0 : len ≠ 0) :
    (s.step .poll).Law ↔ ∀ l ∈ s.console.lines.head?, l ≠ [] ∧ l.length ≤ len := by
  have ⟨hcalls, hheld⟩ := h
  have hl' : s.calls.lens = len :: lens := by rw [hcalls, hl]
  have ⟨t', ht, hheld'⟩ := takeLine_eq s.terminal (min len 4096)
  have hserve {data : Bytes} {con : Console} (hr : s.console.read len = some (data, con)) :
      s.due.serve s.console = (⟨lens, s.due.returned ++ [data]⟩, con) := by
    simp [Calls.serve, hl, if_neg h0, hr]
  rw [hheld] at ht hheld'
  cases hlines : s.console.lines with
  | nil =>
    rw [hlines] at ht hheld'
    have hnone : s.due.serve s.console = (s.due, s.console) := by
      simp [Calls.serve, hl, if_neg h0, Console.read, hlines]
    rw [law_poll_of (Calls.poll_of_nil hl' h0 ht) hnone, hlines]
    exact iff_of_true ⟨hcalls, hheld'⟩ nofun
  | cons l ls =>
    have hmax : l.length ≤ lineMax := length_held s.terminal.fits l (by rw [← Terminal.held, hheld, hlines]; exact mem_cons_self)
    rw [hlines] at ht hheld'
    have hhead : (∀ l' ∈ (l :: ls).head?, l' ≠ [] ∧ l'.length ≤ len) ↔ l ≠ [] ∧ l.length ≤ len := by simp
    rw [hhead]
    by_cases hnil : l = []
    · -- the read does not return, although Enter was pressed
      subst hnil
      have hread : s.console.read len = some ([], { s.console with lines := ls }) := by
        rw [Console.read, hlines]
        exact if_pos (Nat.zero_le _)
      rw [law_poll_of (Calls.poll_of_nil hl' h0 (by simpa using ht)) (hserve hread)]
      refine iff_of_false (fun ⟨hc, _⟩ => ?_) (fun ⟨hne, _⟩ => hne rfl)
      have hlens : len :: lens = lens := by rw [← hl', hc]
      exact absurd hlens (cons_ne_self len lens)
    · have hdata : l.take (min len 4096) ≠ [] := by
        rw [ne_eq, take_eq_nil_iff]
        exact fun h => h.elim (by omega) hnil
      have hpoll := Calls.poll_of_data hl' h0 ht hdata
      by_cases hfit : l.length ≤ len
      · have hread : s.console.read len = some (l, { s.console with lines := ls }) := by
          rw [Console.read, hlines]
          exact if_pos hfit
        have htake : l.take (min len 4096) = l := by
          have h128 : lineMax = 128 := rfl
          exact take_of_length_le (by omega)
        rw [law_poll_of hpoll (hserve hread)]
        refine iff_of_true ⟨?_, hheld'⟩ ⟨hnil, hfit⟩
        rw [← hcalls]
        exact congrArg (fun d => Calls.mk lens (s.calls.returned ++ [d])) htake
      · -- the rest of the line is lost
        have hread : s.console.read len = some (l.take len, { s.console with lines := l.drop len :: ls }) := by
          rw [Console.read, hlines]
          exact if_neg hfit
        rw [law_poll_of hpoll (hserve hread)]
        refine iff_of_false (fun ⟨_, hh⟩ => ?_) (fun ⟨_, hle⟩ => hfit hle)
        rw [hheld'] at hh
        exact cons_ne_self _ _ (Prod.mk.inj hh).1.symm

theorem law_poll_iff (h : s.Law) : (s.step .poll).Law ↔ s.Fits .poll := by
  have ⟨hcalls, hheld⟩ := h
  cases hlens : s.due.lens with
  | nil =>
    have hp : s.calls.poll s.terminal = (s.calls, s.terminal) := by rw [Calls.poll, hcalls, hlens]
    have hs : s.due.serve s.console = (s.due, s.console) := by rw [Calls.serve, hlens]
    rw [law_poll_of hp hs]
    refine iff_of_true ⟨hcalls, hheld⟩ ?_
    rw [Fits, ReadFits, hlens]
    exact nofun
  | cons len lens =>
    have hfits : s.Fits .poll ↔ (len ≠ 0 → ∀ l ∈ s.console.lines.head?, l ≠ [] ∧ l.length ≤ len) := by
      rw [Fits, ReadFits, hlens]
      simp
    rw [hfits]
    by_cases h0 : len = 0
    · subst h0
      have hp : s.calls.poll s.terminal = (⟨lens, s.calls.returned ++ [[]]⟩, s.terminal) := by rw [Calls.poll, hcalls, hlens]; rfl
      have hs : s.due.serve s.console = (⟨lens, s.due.returned ++ [[]]⟩, s.console) := by rw [Calls.serve, hlens]; rfl
      rw [law_poll_of hp hs, hcalls]
      exact iff_of_true ⟨rfl, hheld⟩ fun h => absurd rfl h
    · rw [law_read_iff h hlens h0]
      exact ⟨fun h _ => h, fun h => h h0⟩

theorem law_step_iff (h : s.Law) (a : Act) : (s.step a).Law ↔ s.Fits a := by
  cases a with
  | key k => exact law_key_iff h k
  | poll => exact law_poll_iff h

theorem law_init (lens : List Nat) : (init lens).Law := ⟨rfl, rfl⟩

-- A run is lawful exactly if every key that is accepted and every read fits.
theorem lawful_iff_fits (lens : List Nat) (acts : List Act) :
    Lawful lens acts ↔ ∀ n a, acts[n]? = some a → ((acts.take n).foldl step (init lens)).Fits a :=
  foldl_law_iff Law id (fun h => (law_step_iff h _).mpr) (fun h => (law_step_iff h _).mp) (law_init lens) acts

end Session

-- The keys of a text with a line end for every newline, and a number of polls.
def typing (text : List Char) (polls : Nat) : List Act := text.map (fun c => .key (.unicode c)) ++ List.replicate polls .poll

def outcome (lens : List Nat) (acts : List Act) : List Bytes × List Bytes :=
  ((acts.foldl Session.step (.init lens)).calls.returned, (acts.foldl Session.step (.init lens)).due.returned)

-- The second letter read into one byte is lost, and a backspace leaves half a character.
theorem typed_lines_lost :
    outcome [1, 1] (typing ['a', 'b', '\n', 'c', '\n'] 2) = ([[0x61], [0x63]], [[0x61], [0x62]]) ∧
    outcome [8] (typing ['\n'] 1) = ([], [[]]) ∧
    outcome [8] (typing ['a', 'é', '\x08', '\n'] 1) = ([[0x61, 0xC3]], [[0x61]]) ∧
    ¬Session.Lawful [1, 1] (typing ['a', 'b', '\n', 'c', '\n'] 2) := by
  refine ⟨by decide, by decide, by decide, fun h => ?_⟩
  have hcalls := (h 7).returned
  revert hcalls
  decide

end Keyboard
