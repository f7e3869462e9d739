import Onyx.Input

-- The packet assembly of the PS/2 mouse driver (kernel/src/mouse.rs), and the streams it is given.

open Lib InputRing

namespace Mouse

structure Packet where
  dx : Int16
  dy : Int16
  left : Bool
  right : Bool
  deriving DecidableEq, Repr

-- IDX, FLAGS, DX, PACKET and PREV_LEFT.
structure State where
  idx : Nat
  flags : UInt8
  dx : Int16
  packet : Packet
  prevLeft : Bool
  deriving DecidableEq, Repr

def State.init : State := ⟨0, 0, 0, ⟨0, 0, false, false⟩, false⟩

def extend (sign : Bool) (byte : UInt8) : Int16 :=
  if sign then (byte.toUInt16 ||| 0xFF00).toInt16 else byte.toUInt16.toInt16

def handleIrq (s : State) (byte : UInt8) : Option (Int16 × Int16 × UInt8 × Bool) × State :=
  match s.idx with
  | 0 => if byte &&& 0x08 ≠ 0 then (none, { s with flags := byte, idx := 1 }) else (none, s)
  | 1 => (none, { s with dx := extend (s.flags &&& 0x10 ≠ 0) byte, idx := 2 })
  | 2 =>
    let dy := extend (s.flags &&& 0x20 ≠ 0) byte
    let left : Bool := s.flags &&& 0x01 ≠ 0
    let right : Bool := s.flags &&& 0x02 ≠ 0
    let buttons := (if left then btnLeft else 0) ||| (if right then btnRight else 0)
    (some (s.dx, dy, buttons, s.prevLeft), { s with packet := ⟨s.dx, dy, left, right⟩, prevLeft := left, idx := 0 })
  | _ => (none, { s with idx := 0 })

-- The arguments of `push_mouse`. PS/2 counts upwards, the screen downwards.
abbrev Report := Int32 × Int32 × UInt8

def reports (s : State) : List UInt8 → List Report × State
  | [] => ([], s)
  | byte :: bytes =>
    let (done, s) := handleIrq s byte
    let (rs, s) := reports s bytes
    (done.toList.map (fun (dx, dy, buttons, _) => (dx.toInt32, -dy.toInt32, buttons)) ++ rs, s)

-- `init` talks to the controller and leaves the packet assembly as it is.
def recoverStreaming (s : State) : State := s

-- A packet, or the beginning of one and then nothing until the watchdog steps in.
inductive Chunk
  | packet (b0 b1 b2 : UInt8) (sync : b0 &&& 0x08 ≠ 0)
  | stall (bytes : List UInt8) (cut : bytes.length < 3)

def receive (s : State) : List Chunk → List Report × State
  | [] => ([], s)
  | .packet b0 b1 b2 _ :: cs => ((reports s [b0, b1, b2]).1 ++ (receive (reports s [b0, b1, b2]).2 cs).1,
    (receive (reports s [b0, b1, b2]).2 cs).2)
  | .stall bytes _ :: cs => ((reports s bytes).1 ++ (receive (recoverStreaming (reports s bytes).2) cs).1,
    (receive (recoverStreaming (reports s bytes).2) cs).2)

-- A delta of nine bits, the sign first.
def delta (sign : Bool) (byte : UInt8) : Int := byte.toNat - if sign then 256 else 0

structure Decodes (b0 b1 b2 : UInt8) (r : Report) : Prop where
  dx : r.1.toInt = delta (b0 &&& 0x10 ≠ 0) b1
  dy : r.2.1.toInt = -delta (b0 &&& 0x20 ≠ 0) b2
  left : r.2.2 &&& btnLeft ≠ 0 ↔ b0 &&& 0x01 ≠ 0
  right : r.2.2 &&& btnRight ≠ 0 ↔ b0 &&& 0x02 ≠ 0
  middle : r.2.2 &&& btnMiddle ≠ 0 ↔ b0 &&& 0x04 ≠ 0

-- The events of a stream, one for every packet and none for the cut ones.
inductive Decoded : List Chunk → List Report → Prop
  | nil : Decoded [] []
  | packet : Decodes b0 b1 b2 r → Decoded cs rs → Decoded (.packet b0 b1 b2 h :: cs) (r :: rs)
  | stall : Decoded cs rs → Decoded (.stall bytes h :: cs) rs

def Chunk.Plain : Chunk → Prop
  | .packet b0 _ _ _ => b0 &&& 0x04 = 0
  | .stall bytes _ => bytes = []

theorem toInt_extend (sign : Bool) (byte : UInt8) : (extend sign byte).toInt32.toInt = delta sign byte ∧
    (-(extend sign byte).toInt32).toInt = -delta sign byte := by
  revert byte
  apply Bytes.forall_byte
  cases sign <;> decide +kernel

def buttons (b : UInt8) : UInt8 :=
  (if (b &&& 0x01 ≠ 0 : Bool) then btnLeft else 0) ||| (if (b &&& 0x02 ≠ 0 : Bool) then btnRight else 0)

theorem buttons_bits (b : UInt8) (h : b &&& 0x04 = 0) : (buttons b &&& btnLeft ≠ 0 ↔ b &&& 0x01 ≠ 0) ∧
    (buttons b &&& btnRight ≠ 0 ↔ b &&& 0x02 ≠ 0) ∧ (buttons b &&& btnMiddle ≠ 0 ↔ b &&& 0x04 ≠ 0) := by
  revert b
  apply Bytes.forall_byte
  decide +kernel

theorem reports_packet (hs : s.idx = 0) (hb : b0 &&& 0x08 ≠ 0) (b1 b2 : UInt8) :
    ∃ s', reports s [b0, b1, b2] = ([((extend (b0 &&& 0x10 ≠ 0) b1).toInt32, -(extend (b0 &&& 0x20 ≠ 0) b2).toInt32, buttons b0)], s') ∧
      s'.idx = 0 := by
  obtain ⟨idx, flags, dx, packet, prevLeft⟩ := s
  subst hs
  simp only [reports, handleIrq, if_pos hb]
  exact ⟨_, rfl, rfl⟩

-- Between two parts of the stream, the next byte is expected to begin a packet.
theorem receive_decoded (hcs : ∀ c ∈ cs, Chunk.Plain c) (hs : s.idx = 0) : Decoded cs (receive s cs).1 := by
  induction cs generalizing s with
  | nil => exact .nil
  | cons c cs ih =>
    have ⟨hc, hrest⟩ := List.forall_mem_cons.mp hcs
    cases c with
    | packet b0 b1 b2 hb =>
      have ⟨s', hrep, hs'⟩ := reports_packet hs hb b1 b2
      have ⟨hl, hr, hm⟩ := buttons_bits b0 hc
      rw [receive, hrep]
      exact .packet ⟨(toInt_extend ..).1, (toInt_extend ..).2, hl, hr, hm⟩ (ih hrest hs')
    | stall bytes hb =>
      cases show bytes = [] from hc
      exact .stall (ih hrest hs)

theorem stream_decoded (hcs : ∀ c ∈ cs, Chunk.Plain c) : Decoded cs (receive .init cs).1 := receive_decoded hcs rfl

def drag : List Chunk := [.packet 0x19 0xFB 3 (by decide), .stall [] (by decide), .packet 0x28 2 0xFE (by decide)]

theorem stream_decoded_drag : (∀ c ∈ drag, Chunk.Plain c) ∧ Decoded drag [(-5, -3, 1), (2, 2, 0)] := by
  have hplain : ∀ c ∈ drag, Chunk.Plain c := by
    intro c hc
    rcases hc with _ | ⟨_, _ | ⟨_, _ | ⟨_, ⟨⟩⟩⟩⟩ <;> rfl
  exact ⟨hplain, stream_decoded hplain⟩

theorem stream_misread : ¬Decoded [.stall [0x08] (by decide), .packet 0x08 5 3 (by decide)]
      (receive .init [.stall [0x08] (by decide), .packet 0x08 5 3 (by decide)]).1 ∧
    ¬Decoded [.packet 0x0C 0 0 (by decide)] (receive .init [.packet 0x0C 0 0 (by decide)]).1 := by
  constructor
  · rintro (_ | _ | h)
    cases h with
    | packet hd _ => exact absurd hd.dx (by decide)
  · intro h
    cases h with
    | packet hd _ => exact absurd hd.middle (by decide)

end Mouse
