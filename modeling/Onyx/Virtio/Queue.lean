import Onyx.Lib.Bytes
import Onyx.Lib.Execution

-- The control queue of kernel/src/virtio.rs, with a device that completes requests in order.

open Lib

namespace Virtio.Queue

def cmdBufLen : Nat := 512

def cmdHdrLen : Nat := 24

def cmdTimeoutMs : Nat := 500

def gpuRespOk : Nat := 0x1100

-- `cmd_len_for`
def cmdLenFor (ty : Nat) : Nat :=
  if ty = 0x0101 then 40        -- RESOURCE_CREATE_2D
  else if ty = 0x0106 then 48   -- RESOURCE_ATTACH_BACKING
  else if ty = 0x0103 then 48   -- SET_SCANOUT
  else if ty = 0x0105 then 56   -- TRANSFER_TO_HOST_2D
  else if ty = 0x0104 then 48   -- RESOURCE_FLUSH
  else cmdHdrLen

structure Command where
  ty : Nat
  writes : List (Nat × Bytes)
  inside : ∀ w ∈ writes, w.1 + w.2.length ≤ cmdBufLen

-- The request buffer after `cmd_begin`.
def cmdHeader (ty : Nat) : Bytes := overwrite (List.replicate cmdBufLen 0) 0 (Bytes.toLe 4 ty)

def writeField (buf : Bytes) (w : Nat × Bytes) : Bytes := overwrite buf w.1 w.2

-- The bytes a command is made of: what the buffer would hold if nobody else wrote to it.
def Command.bytes (c : Command) : Bytes := (c.writes.foldl writeField (cmdHeader c.ty)).take (cmdLenFor c.ty)

-- Where a call is. From `described` on it holds the queue lock.
inductive Phase
  | building (rest : List (Nat × Bytes))   -- between `cmd_begin` and `submit`
  | described                              -- the descriptors are written
  | polling (deadline : Nat)
  | looked (deadline : Nat)                -- it has read used.idx, and nothing had arrived
  | arrived                                -- it has read used.idx, and something had
  | fetched                                -- it has read the element, and that was good
  deriving DecidableEq

structure Call where
  id : Nat
  cmd : Command
  phase : Phase

structure Completion where
  id : Nat
  bytes : Bytes
  resp : Bytes
  deriving DecidableEq

structure Answer where
  id : Nat
  cmd : Command
  word : Nat

structure State where
  size : Nat
  request : Bytes
  response : Bytes
  reqLen    : Nat                  -- the length in descriptor 0
  ring      : Nat → Nat × Nat      -- the used ring: id and length
  availIdx  : UInt16               -- q.avail_idx, and avail.idx in the ring
  usedIdx   : UInt16               -- used.idx, which the device moves
  cursor    : UInt16               -- q.used_idx
  now       : Nat                  -- milliseconds since boot
  lock      : Option Nat           -- the task that holds QUEUE across a step
  calls     : Nat → Option Call    -- by task
  begun : Nat
  published : List Nat
  completed : List Completion
  collected : Nat
  returned : List Answer

inductive Event
  | cmdBegin (task : Nat) (cmd : Command)
  | build (task : Nat)
  | describe (task : Nat)
  | publish (task : Nat)
  | look (task : Nat)
  | checkDeadline (task : Nat)
  | collect (task : Nat)
  | finish (task : Nat)
  | complete (resp : Bytes)        -- the device
  | tick (ms : Nat)

namespace State

def setCall (s : State) (task : Nat) (call : Option Call) : State :=
  { s with calls := fun t => if t = task then call else s.calls t }

def setPhase (s : State) (task : Nat) (call : Call) (phase : Phase) : State :=
  s.setCall task (some { call with phase })

-- The call is over and lets go of the queue.
def leave (s : State) (task : Nat) : State := { s.setCall task none with lock := none }

-- `avail.idx` goes up and the doorbell is rung.
def publish (s : State) (id : Nat) : State :=
  { s with availIdx := s.availIdx + 1, published := s.published ++ [id] }

-- The device reads the request and writes the response, the element and the index.
def complete (s : State) (id : Nat) (resp : Bytes) : State :=
  { s with
    response := overwrite s.response 0 resp
    ring := fun i => if i = s.usedIdx.toNat % s.size then (0, resp.length) else s.ring i
    usedIdx := s.usedIdx + 1
    completed := s.completed ++ [⟨id, s.request.take s.reqLen, resp⟩] }

def element (s : State) : Nat × Nat := s.ring (s.cursor.toNat % s.size)

def collect (s : State) : State := { s with cursor := s.cursor + 1, collected := s.collected + 1 }

def word (s : State) : Nat := Bytes.ofLe (s.response.take 4)

-- `cmd_begin` for a call that is new.
def cmdBegin (s : State) (task : Nat) (cmd : Command) : State :=
  { s.setCall task (some ⟨s.begun, cmd, .building cmd.writes⟩) with request := cmdHeader cmd.ty, begun := s.begun + 1 }

-- The response is Ok or an error of the device.
def answer (s : State) (call : Call) : State :=
  if s.word = gpuRespOk then { s with returned := s.returned ++ [⟨call.id, call.cmd, s.word⟩] } else s

end State

-- The steps of a call, by where it is.
inductive CallStep (s : State) (task : Nat) (call : Call) : Phase → Event → State → Prop
  | build : CallStep s task call (.building (w :: rest)) (.build task)
      ({ s with request := writeField s.request w }.setPhase task call (.building rest))
  | describe : s.lock = none → CallStep s task call (.building []) (.describe task)
      ({ s with reqLen := cmdLenFor call.cmd.ty, lock := some task }.setPhase task call .described)
  | publish : CallStep s task call .described (.publish task)
      ((s.publish call.id).setPhase task call (.polling (s.now + cmdTimeoutMs)))
  | arrived : s.usedIdx ≠ s.cursor → CallStep s task call (.polling d) (.look task) (s.setPhase task call .arrived)
  | nothing : s.usedIdx = s.cursor → CallStep s task call (.polling d) (.look task) (s.setPhase task call (.looked d))
  | timeout : d ≤ s.now → CallStep s task call (.looked d) (.checkDeadline task) (s.leave task)
  | again : s.now < d → CallStep s task call (.looked d) (.checkDeadline task) (s.setPhase task call (.polling d))
  -- An element with another id, or too short for a response word, is an error.
  | refused : ¬(s.element.1 = 0 ∧ 4 ≤ s.element.2) → CallStep s task call .arrived (.collect task) (s.collect.leave task)
  | collect : s.element.1 = 0 → 4 ≤ s.element.2 →
      CallStep s task call .arrived (.collect task) (s.collect.setPhase task call .fetched)
  | finish : CallStep s task call .fetched (.finish task) ((s.answer call).leave task)

inductive Step : State → Event → State → Prop
  | cmdBegin : s.lock = none → s.calls task = none → Step s (.cmdBegin task cmd) (s.cmdBegin task cmd)
  | call : s.calls task = some call → CallStep s task call call.phase event t → Step s event t
  | complete {id : Nat} : s.published[s.completed.length]? = some id → resp.length ≤ cmdBufLen → Step s (.complete resp) (s.complete id resp)
  | tick : Step s (.tick ms) { s with now := s.now + ms }

def fresh (size now : Nat) : State where
  size := size
  request := List.replicate cmdBufLen 0
  response := List.replicate cmdBufLen 0
  reqLen := 0
  ring := fun _ => (0, 0)
  availIdx := 0
  usedIdx := 0
  cursor := 0
  now := now
  lock := none
  calls := fun _ => none
  begun := 0
  published := []
  completed := []
  collected := 0
  returned := []

end Virtio.Queue
