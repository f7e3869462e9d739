import Onyx.Lib.Bytes
import Onyx.Lib.Panic
import Onyx.Lib.Ring

-- The ring of raw input events (kernel/src/input.rs), and the bounded queue that it is.

open Lib List Bytes

namespace InputRing

def ringLen : Nat := 256

def evSize : Nat := 24

def btnLeft : UInt8 := 1
def btnRight : UInt8 := 2
def btnMiddle : UInt8 := 4

structure InputEvent where
  kind : UInt8
  flags : UInt8
  code : UInt16
  x : Int32
  y : Int32
  tsNs : UInt64
  deriving DecidableEq, Repr

def encode (e : InputEvent) : Bytes :=
  [e.kind, e.flags] ++ toLe 2 e.code.toNat ++ toLe 4 e.x.toUInt32.toNat ++ toLe 4 e.y.toUInt32.toNat ++
    [0, 0, 0, 0] ++ toLe 8 e.tsNs.toNat

-- RING with HEAD, TAIL and COUNT, and the counters TOTAL and DROPPED.
structure State where
  ring : Fifo InputEvent ringLen
  total : Nat
  dropped : Nat

namespace State

def init : State := ⟨⟨fun _ => ⟨0, 0, 0, 0, 0, 0⟩, 0, 0, 0, by decide, by decide, rfl⟩, 0, 0⟩

-- Both counters are of 64 bits, and their additions are checked.
def push (s : State) (e : InputEvent) : Result Empty State :=
  if h : s.ring.count < ringLen then do
    let total ← checked 64 (s.total + 1)
    return { s with ring := s.ring.push e h, total }
  else do
    let dropped ← checked 64 (s.dropped + 1)
    return { s with dropped }

-- The loop of `drain` with `room` bytes left; COUNT rounds are enough.
def drainLoop : Nat → Nat → State → Bytes × State
  | 0, _, s => ([], s)
  | n + 1, room, s =>
    if h : 0 < s.ring.count ∧ evSize ≤ room then
      let (out, s') := drainLoop n (room - evSize) { s with ring := s.ring.advance h.1 }
      (encode (s.ring.slots s.ring.tail) ++ out, s')
    else ([], s)

def drain (s : State) (len : Nat) : Bytes × State := drainLoop s.ring.count len s

def clear (s : State) : Nat × State := (s.ring.count, { s with ring := s.ring.clear })

end State

inductive Act
  | push (e : InputEvent)
  | drain (len : Nat)
  | clear
  deriving DecidableEq, Repr

-- The ring and all bytes that were drained so far.
def step : Bytes × State → Act → Result Empty (Bytes × State)
  | (out, s), .push e => do
    let s ← s.push e
    return (out, s)
  | (out, s), .drain len => .ok (out ++ (s.drain len).1, (s.drain len).2)
  | (out, s), .clear => .ok (out, s.clear.2)

def run (as : List Act) : Result Empty (Bytes × State) := as.foldlM step ([], .init)

structure Queue where
  events : List InputEvent
  accepted : List InputEvent
  gone : List (InputEvent × Bool)
  rejected : List InputEvent

namespace Queue

def leave (q : Queue) (k : Nat) (drained : Bool) : Queue :=
  { q with events := q.events.drop k, gone := q.gone ++ (q.events.take k).map (·, drained) }

def step (q : Queue) : Act → Queue
  | .push e =>
    if q.events.length < ringLen then { q with events := q.events ++ [e], accepted := q.accepted ++ [e] }
    else { q with rejected := q.rejected ++ [e] }
  | .drain len => q.leave (len / evSize) true
  | .clear => q.leave q.events.length false

def run (as : List Act) : Queue := as.foldl step ⟨[], [], [], []⟩

def drained (q : Queue) : List InputEvent := (q.gone.filter (·.2)).map (·.1)

def cleared (q : Queue) : List InputEvent := (q.gone.filter (!·.2)).map (·.1)

def Counted (q : Queue) : Prop := q.accepted.length < 2 ^ 64 ∧ q.rejected.length < 2 ^ 64

end Queue

structure Shows (o : Bytes × State) (q : Queue) : Prop where
  events : o.2.ring.contents = q.events
  count : o.2.ring.count = q.events.length ∧ q.events.length ≤ ringLen
  order : q.gone.map (·.1) ++ q.events = q.accepted
  output : o.1 = q.drained.flatMap encode
  total : o.2.total = q.drained.length + q.cleared.length + o.2.ring.count
  dropped : o.2.dropped = q.rejected.length

-- The fields of an event from its 24 bytes.
def decode (b : Bytes) : InputEvent :=
  ⟨b.getD 0 0, b.getD 1 0, .ofNat (b.u16At 2), (UInt32.ofNat (b.u32At 4)).toInt32, (UInt32.ofNat (b.u32At 8)).toInt32, .ofNat (b.u64At 16)⟩

theorem length_encode (e : InputEvent) : (encode e).length = evSize := by
  simp [encode, evSize]

theorem decode_encode (e : InputEvent) : decode (encode e) = e := by
  have hcode : (encode e).u16At 2 = e.code.toNat := ofLe_toLe 2 _ e.code.toNat_lt
  have hx : (encode e).u32At 4 = e.x.toUInt32.toNat := ofLe_toLe 4 _ e.x.toUInt32.toNat_lt
  have hy : (encode e).u32At 8 = e.y.toUInt32.toNat := ofLe_toLe 4 _ e.y.toUInt32.toNat_lt
  have hts : (encode e).u64At 16 = e.tsNs.toNat := ofLe_toLe 8 _ e.tsNs.toNat_lt
  rw [decode, hcode, hx, hy, hts, UInt16.ofNat_toNat, UInt32.ofNat_toNat, UInt32.ofNat_toNat, UInt64.ofNat_toNat]
  rfl

theorem drainLoop_eq (hn : s.ring.count = n) (room : Nat) : ∃ s', State.drainLoop n room s =
      ((s.ring.contents.take (room / evSize)).flatMap encode, s') ∧
    s'.ring.contents = s.ring.contents.drop (room / evSize) ∧ s'.total = s.total ∧ s'.dropped = s.dropped := by
  induction n generalizing s room with
  | zero =>
    have hnil : s.ring.contents = [] := eq_nil_of_length_eq_zero (Fifo.length_contents.trans hn)
    exact ⟨s, by simp [State.drainLoop, hnil], by simp [hnil], rfl, rfl⟩
  | succ n ih =>
    have hpos : 0 < s.ring.count := hn ▸ Nat.succ_pos n
    rw [State.drainLoop]
    by_cases hroom : evSize ≤ room
    · have ⟨s', hrun, hc, ht, hd⟩ := ih (s := { s with ring := s.ring.advance hpos }) (Nat.sub_eq_of_eq_add hn) (room - evSize)
      rw [dif_pos ⟨hpos, hroom⟩, hrun, Fifo.contents_eq_cons hpos, Nat.div_eq_sub_div (by decide) hroom]
      exact ⟨s', rfl, hc, ht, hd⟩
    · have hzero : room / evSize = 0 := Nat.div_eq_of_lt (Nat.lt_of_not_le hroom)
      rw [dif_neg (hroom ·.2), hzero]
      exact ⟨s, rfl, rfl, rfl, rfl⟩

theorem Queue.drained_leave (q : Queue) (d : Bool) : (q.leave k d).drained = q.drained ++ if d then q.events.take k else [] := by
  rw [Queue.drained, Queue.leave, filter_append, map_append, filter_map, map_map, Queue.drained]
  cases d <;> simp [Function.comp_def]

theorem Queue.cleared_leave (q : Queue) (d : Bool) : (q.leave k d).cleared = q.cleared ++ if d then [] else q.events.take k := by
  rw [Queue.cleared, Queue.leave, filter_append, map_append, filter_map, map_map, Queue.cleared]
  cases d <;> simp [Function.comp_def]

namespace Shows

variable {o : Bytes × State} {q : Queue}

-- The first `k` events leave.
theorem leave (h : Shows o q) (k : Nat) (drained : Bool) (hc : o'.2.ring.contents = q.events.drop k)
    (hout : o'.1 = o.1 ++ if drained then (q.events.take k).flatMap encode else []) (ht : o'.2.total = o.2.total)
    (hd : o'.2.dropped = o.2.dropped) : Shows o' (q.leave k drained) := by
  have ⟨hcount, hle⟩ := h.count
  have hcount' : o'.2.ring.count = q.events.length - k := by rw [← Fifo.length_contents, hc, length_drop]
  refine ⟨hc, ⟨by rw [hcount', Queue.leave, length_drop], ?_⟩, ?_, ?_, ?_, hd.trans h.dropped⟩
  · exact (length_drop ..).trans_le ((Nat.sub_le ..).trans hle)
  · simp only [Queue.leave, map_append, map_map, append_assoc]
    rw [← h.order]
    exact congrArg (_ ++ ·) ((congrArg (· ++ _) (map_id _)).trans (take_append_drop ..))
  · rw [hout, h.output, q.drained_leave, flatMap_append]
    cases drained <;> rfl
  · rw [ht, h.total, hcount', hcount, q.drained_leave, q.cleared_leave, length_append, length_append]
    cases drained <;> simp <;> omega

theorem total_eq (h : Shows o q) : o.2.total = q.accepted.length := by
  rw [h.total, h.count.1, ← h.order, length_append, Queue.drained, Queue.cleared, length_map, length_map, length_map]
  exact congrArg (· + _) (length_eq_length_filter_add _).symm

-- A call gives what the queue shows next, or it is an event more than a counter holds.
def Next (r : Result Empty (Bytes × State)) (q : Queue) : Prop :=
  (∃ o, r = .ok o ∧ Shows o q ∧ q.Counted) ∨ r = .error .panic ∧ ¬q.Counted

theorem push (h : Shows (out, s) q) (hq : q.Counted) (e : InputEvent) :
    Next (InputRing.step (out, s) (.push e)) (q.step (.push e)) := by
  have ⟨hcount, hle⟩ := h.count
  simp only [InputRing.step, State.push, Queue.step]
  by_cases hroom : s.ring.count < ringLen
  · rw [dif_pos hroom, if_pos (hcount ▸ hroom)]
    have htotal : s.total + 1 = (q.accepted ++ [e]).length := by rw [length_append, ← h.total_eq]; rfl
    by_cases hlt : s.total + 1 < 2 ^ 64
    · rw [checked_of_lt hlt]
      refine .inl ⟨_, rfl, ⟨?_, ⟨?_, ?_⟩, ?_, h.output, ?_, h.dropped⟩, htotal ▸ hlt, hq.2⟩
      · rw [Fifo.contents_push, h.events]
      · rw [length_append, ← hcount]
        rfl
      · rw [length_append, ← hcount]
        exact hroom
      · rw [← append_assoc, h.order]
      · show s.total + 1 = _
        rw [h.total]
        rfl
    · rw [checked_of_not_lt hlt]
      exact .inr ⟨rfl, fun hc => hlt (htotal ▸ hc.1)⟩
  · rw [dif_neg hroom, if_neg (hcount ▸ hroom)]
    have hdropped : s.dropped + 1 = (q.rejected ++ [e]).length := by rw [length_append, ← h.dropped]; rfl
    by_cases hlt : s.dropped + 1 < 2 ^ 64
    · rw [checked_of_lt hlt]
      exact .inl ⟨_, rfl, ⟨h.events, h.count, h.order, h.output, h.total, hdropped⟩, hq.1, hdropped ▸ hlt⟩
    · rw [checked_of_not_lt hlt]
      exact .inr ⟨rfl, fun hc => hlt (hdropped ▸ hc.2)⟩

theorem step (h : Shows o q) (hq : q.Counted) (a : Act) : Next (InputRing.step o a) (q.step a) := by
  cases a with
  | push e => exact h.push hq e
  | drain len =>
    have ⟨s', hrun, hc, ht, hd⟩ := drainLoop_eq (s := o.2) rfl len
    have hdrain : o.2.drain len = _ := hrun
    refine .inl ⟨_, rfl, h.leave _ true ?_ ?_ ?_ ?_, hq⟩ <;> simp only [hdrain, ← h.events]
    · exact hc
    · rfl
    · exact ht
    · exact hd
  | clear =>
    refine .inl ⟨_, rfl, h.leave _ false ?_ (append_nil _).symm rfl rfl, hq⟩
    rw [drop_length]
    rfl

end Shows

-- The queue forgets neither what it took nor what it did not take.
theorem Queue.counted_of_foldl {as : List Act} (h : (as.foldl step q).Counted) : q.Counted := by
  induction as generalizing q with
  | nil => exact h
  | cons a as ih =>
    have ⟨ha, hr⟩ := ih h
    cases a with
    | push e =>
      simp only [step] at ha hr
      split at ha <;> simp_all [Counted] <;> omega
    | drain len => exact ⟨ha, hr⟩
    | clear => exact ⟨ha, hr⟩

theorem shows_run_iff (as : List Act) : (∃ o, run as = .ok o ∧ Shows o (Queue.run as)) ↔ (Queue.run as).Counted := by
  have hinit : Shows ([], .init) ⟨[], [], [], []⟩ := ⟨rfl, ⟨rfl, Nat.zero_le _⟩, rfl, rfl, rfl, rfl⟩
  have hzero : (⟨[], [], [], []⟩ : Queue).Counted := ⟨Nat.two_pow_pos 64, Nat.two_pow_pos 64⟩
  unfold run Queue.run
  generalize (([], .init) : Bytes × State) = o, (⟨[], [], [], []⟩ : Queue) = q at hinit hzero ⊢
  induction as generalizing o q with
  | nil => exact ⟨fun _ => hzero, fun _ => ⟨o, rfl, hinit⟩⟩
  | cons a as ih =>
    rw [foldlM_cons, foldl_cons]
    rcases hinit.step hzero a with ⟨o', hok, h', hq⟩ | ⟨hpanic, hq⟩
    · rw [hok]
      exact ih o' _ h' hq
    · rw [hpanic]
      exact ⟨nofun, fun h => absurd (Queue.counted_of_foldl h) hq⟩

-- The ring is the queue for as long as its counters can count, and no longer.
theorem ring_refines_queue (as : List Act) :
    ((∃ o, run as = .ok o ∧ Shows o (Queue.run as)) ↔ (Queue.run as).Counted) ∧
    ∀ e, (encode e).length = evSize ∧ decode (encode e) = e :=
  ⟨shows_run_iff as, fun e => ⟨length_encode e, decode_encode e⟩⟩

theorem Queue.length_pushes (q : Queue) (e : InputEvent) (n : Nat) :
    ((replicate n (.push e)).foldl step q).accepted.length + ((replicate n (.push e)).foldl step q).rejected.length =
      q.accepted.length + q.rejected.length + n := by
  induction n generalizing q with
  | zero => rfl
  | succ n ih =>
    rw [replicate_succ, foldl_cons, ih]
    simp only [step]
    split <;> simp only [length_append, length_singleton] <;> omega

theorem pushes_overflow : ¬∃ o, run (replicate (2 ^ 65) (.push ⟨1, 1, 30, 0, 0, 0⟩)) = .ok o ∧
    Shows o (Queue.run (replicate (2 ^ 65) (.push ⟨1, 1, 30, 0, 0, 0⟩))) := by
  rw [shows_run_iff]
  intro ⟨ha, hr⟩
  have hlen := Queue.length_pushes ⟨[], [], [], []⟩ ⟨1, 1, 30, 0, 0, 0⟩ (2 ^ 65)
  simp only [length_nil] at hlen
  unfold Queue.run at ha hr
  omega

end InputRing
