import Mathlib

-- The task table (kernel/src/scheduler.rs) and the sections under its lock; `MAIN_INDEX` is `none`.

namespace Scheduler

def prioRt : Nat := 0
def prioNormal : Nat := 1

def freshSlice (prio : Nat) : Nat :=
  if prio = prioRt then 1
  else if prio = prioNormal then 8
  else 1

inductive State
  | running
  | ready
  | sleeping
  | blocked
  | dead
  deriving DecidableEq, Repr

-- The machine context and the kernel entry point are left out: no decision reads them.
structure Task where
  id : Nat
  state : State
  ownerCpu : Nat
  priority : Nat
  sliceLeft : Nat
  sleepUntilMs : Nat
  sleepUntilNs : Nat
  blockedOnInput : Bool
  blockedOnRaw : Bool
  wakeDiag : Bool
  parentId : Nat
  exitCode : Nat
  reaped : Bool
  blockedOnChild : Bool
  linuxAbi : Bool
  deriving DecidableEq, Repr

@[ext]
structure Sched where
  tasks : List Task
  nextId : Nat
  current : Nat → Option Nat
  pendingPrev : Nat → Option Nat

structure Env where
  nowMs : Nat
  nowNs : Nat
  linePending : Bool
  rawPending : Bool

namespace Sched

def boot : Sched where
  tasks := []
  nextId := 1
  current _ := none
  pendingPrev _ := none

def update (s : Sched) (i : Nat) (f : Task → Task) : Sched :=
  { s with tasks := s.tasks.modify i f }

-- The shape of every section that only touches the task running on `cpu`.
def updateCurrent (s : Sched) (cpu : Nat) (f : Task → Task) : Sched :=
  match s.current cpu with
  | none => s
  | some cur => s.update cur f

def currentTask (s : Sched) (cpu : Nat) : Option Task :=
  s.current cpu |>.bind (s.tasks[·]?)

def newTask (s : Sched) (cpu priority parentId : Nat) : Task where
  id := s.nextId
  state := .ready
  ownerCpu := cpu % 2 ^ 8
  priority := priority
  sliceLeft := freshSlice priority
  sleepUntilMs := 0
  sleepUntilNs := 0
  blockedOnInput := false
  blockedOnRaw := false
  wakeDiag := false
  parentId := parentId
  exitCode := 0
  reaped := false
  blockedOnChild := false
  linuxAbi := false

def push (s : Sched) (t : Task) : Sched :=
  { s with tasks := s.tasks ++ [t], nextId := s.nextId + 1 }

def spawn (s : Sched) (cpu : Nat) : Sched :=
  s.push (s.newTask cpu prioNormal 0)

def spawnPrio (s : Sched) (cpu priority : Nat) : Sched :=
  s.push (s.newTask cpu priority 0)

def spawnWithParent (s : Sched) (cpu priority parentId : Nat) : Sched :=
  s.push (s.newTask cpu priority parentId)

def spawnUserWithParent (s : Sched) (cpu parentId : Nat) : Sched :=
  s.push (s.newTask cpu prioNormal parentId)

def spawnOnCpu (s : Sched) (me priority cpu : Nat) : Sched :=
  s.push { s.newTask me priority 0 with ownerCpu := cpu % 2 ^ 8 }

def findTask (s : Sched) (pid : Nat) : Option Nat :=
  s.tasks.findIdx? (·.id = pid)

def setLinuxAbi (s : Sched) (id : Nat) : Sched :=
  match s.findTask id with
  | none => s
  | some i => s.update i ({ · with linuxAbi := true })

def markCurrentDead (s : Sched) (cpu : Nat) : Sched :=
  s.updateCurrent cpu ({ · with state := .dead, exitCode := 0, reaped := false })

def recordExit (s : Sched) (cpu code : Nat) : Sched :=
  s.updateCurrent cpu ({ · with state := .dead, exitCode := code, reaped := false })

-- `kill` never takes the calling CPU's task; one running on another CPU is marked dead.
def kill (s : Sched) (cpu pid : Nat) : Sched × Bool :=
  let victim := (List.range s.tasks.length).find? fun i =>
    s.tasks[i]?.any fun t => t.id = pid ∧ s.current cpu ≠ some i ∧ t.state ≠ .dead
  match victim with
  | none => (s, false)
  | some i => (s.update i ({ · with state := .dead, exitCode := 137, reaped := false }), true)

def childWaitable (s : Sched) (cpu pid : Nat) : Bool :=
  match s.currentTask cpu with
  | none => false
  | some t => s.tasks.any fun c =>
      c.parentId = t.id ∧ (pid = 0 ∨ c.id = pid) ∧ (c.state ≠ .dead ∨ !c.reaped)

def tryReap (s : Sched) (cpu pid : Nat) : Sched × Option (Nat × Nat) :=
  match s.currentTask cpu with
  | none => (s, none)
  | some t =>
    let zombie := s.tasks.findIdx? fun c =>
      c.parentId = t.id ∧ (pid = 0 ∨ c.id = pid) ∧ c.state = .dead ∧ !c.reaped
    match zombie with
    | none => (s, none)
    | some i => (s.update i ({ · with reaped := true }), s.tasks[i]?.map fun c => (c.id, c.exitCode))

def blockOnChild (s : Sched) (cpu : Nat) : Sched :=
  s.updateCurrent cpu ({ · with state := .blocked, blockedOnChild := true })

def blockCurrentOnInput (s : Sched) (cpu : Nat) : Sched :=
  s.updateCurrent cpu ({ · with state := .blocked, blockedOnInput := true })

def blockCurrentOnRawInput (s : Sched) (cpu : Nat) : Sched :=
  s.updateCurrent cpu ({ · with state := .blocked, blockedOnRaw := true })

def sleepCurrent (s : Sched) (cpu wakeMs : Nat) : Sched :=
  s.updateCurrent cpu ({ · with
    state := .sleeping, sleepUntilMs := wakeMs, blockedOnInput := false, blockedOnRaw := false })

def sleepCurrentNs (s : Sched) (env : Env) (cpu delayNs : Nat) : Sched :=
  s.updateCurrent cpu ({ · with
    state := .sleeping
    sleepUntilMs := env.nowMs + delayNs / 1000000 * 10 + 10
    sleepUntilNs := (env.nowNs + delayNs) % 2 ^ 64
    blockedOnInput := false
    blockedOnRaw := false })

def wakeTaskNow (s : Sched) (id : Nat) : Sched :=
  match s.findTask id with
  | none => s
  | some i => s.update i fun t => if t.state = .sleeping then { t with state := .ready } else t

-- The locked half of `yield_current`; the call goes on into `preempt`.
def yieldCurrent (s : Sched) (cpu : Nat) : Sched :=
  s.updateCurrent cpu fun t => if t.state = .running then { t with state := .ready } else t

def setPriority (s : Sched) (id priority : Nat) : Sched :=
  match s.tasks.findIdx? (fun t => t.id = id ∧ t.state ≠ .dead) with
  | none => s
  | some i => s.update i ({ · with priority := priority })

end Sched
end Scheduler
