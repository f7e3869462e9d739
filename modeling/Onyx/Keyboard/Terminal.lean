import Onyx.Lib.Bytes
import Onyx.Lib.Ring

-- The key ring and the line discipline of the keyboard driver, and the console side of `sys_read`.

open Lib

namespace Keyboard

def ringLen : Nat := 256

def flagRaw : Nat := 2 ^ 32

def lineMax : Nat := 128

-- A key as the decoder reports it: a character, or the discriminant of a `KeyCode`.
inductive DecodedKey
  | unicode (c : Char)
  | rawKey (code : UInt8)
  deriving DecidableEq, Repr

-- The ring entry for a key.
def DecodedKey.value : DecodedKey → Nat
  | unicode c => c.toNat
  | rawKey k => flagRaw + k.toNat

-- `char::from_u32`
def fromU32 (n : Nat) : Option Char := if n.isValidChar then some (Char.ofNat n) else none

-- `char::is_control`
def isControl (c : Char) : Bool := c.toNat < 0x20 || (0x7F ≤ c.toNat && c.toNat < 0xA0)

-- `c.encode_utf8`
def encodeUtf8 (c : Char) : Bytes := String.utf8EncodeChar c

-- What a key is to the line discipline.
inductive Input
  | enter
  | erase
  | text (c : Char)
  | ignored
  deriving DecidableEq, Repr

def Input.ofChar (c : Char) : Input :=
  if c = '\n' ∨ c = '\r' then .enter
  else if c = '\x08' ∨ c = '\x7f' then .erase
  else if isControl c then .ignored
  else .text c

def Input.ofValue (v : Nat) : Input :=
  if v / flagRaw % 2 = 1 then .ignored
  else match fromU32 (v % 2 ^ 32) with
    | none => .ignored
    | some c => .ofChar c

-- RING with HEAD and TAIL, and LINE up to LINE_LEN.
structure Terminal where
  ring : Ring Nat ringLen
  line : Bytes
  fits : line.length ≤ lineMax

def editLine (line : Bytes) : Input → Bytes
  | .erase => line.dropLast
  | .text c => if line.length + (encodeUtf8 c).length ≤ lineMax then line ++ encodeUtf8 c else line
  | _ => line

theorem length_editLine (h : line.length ≤ lineMax) : (editLine line i).length ≤ lineMax := by
  cases i with
  | enter => exact h
  | ignored => exact h
  | erase =>
    rw [editLine, List.length_dropLast]
    omega
  | text c =>
    rw [editLine]
    split
    case isTrue hfit => rwa [List.length_append]
    case isFalse => exact h

namespace Terminal

-- The driver's statics at boot.
def init : Terminal := ⟨⟨fun _ => 0, 0, 0, by decide, by decide⟩, [], by decide⟩

-- The end of `handle_irq`.
def push (t : Terminal) (k : DecodedKey) : Terminal := { t with ring := t.ring.push k.value }

-- The loop of `take_line`; a round for every slot is enough.
def drain (out : Nat) : Nat → Terminal → Option Bytes × Terminal
  | 0, t => (none, t)
  | n + 1, t =>
    match t.ring.pop with
    | none => (none, t)
    | some (v, r) =>
      match Input.ofValue v with
      | .enter => (some (t.line.take out), ⟨r, [], by decide⟩)
      | i => drain out n ⟨r, editLine t.line i, length_editLine t.fits⟩

-- `completed.unwrap_or(0)`: no line and an empty line look the same.
def takeLine (t : Terminal) (out : Nat) : Bytes × Terminal :=
  ((t.drain out ringLen).1.getD [], (t.drain out ringLen).2)

def pendingFrom (r : Ring Nat ringLen) : Nat → Nat → Bool
  | 0, _ => false
  | n + 1, i => i != r.head && (Input.ofValue (r.slots i) == .enter || pendingFrom r n (Ring.next ringLen i))

def linePending (t : Terminal) : Bool := pendingFrom t.ring ringLen t.ring.tail

end Terminal

-- How a round of the loop in `sys_read` ends.
inductive Round
  | done (data : Bytes)
  | yield
  | block
  deriving DecidableEq, Repr

-- `SYS_READ(0)` with a buffer that can be written: the bytes that end up in it.
def sysRead (t : Terminal) (len : Nat) : Round × Terminal :=
  if len = 0 then (.done [], t)
  else
    let (data, t') := t.takeLine (min len 4096)
    if data ≠ [] then (.done data, t')
    else if t'.linePending then (.yield, t')
    else (.block, t')

end Keyboard
