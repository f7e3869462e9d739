import Onyx.Lib.Table
import Onyx.Scheduler.Switch

-- The scheduler as a transition system: one event for every section its lock protects.

namespace Scheduler

-- One critical section of the scheduler, with the CPU that runs it and what it reads.
inductive Event
  | spawn (cpu : Nat)
  | spawnPrio (cpu priority : Nat)
  | spawnWithParent (cpu priority parentId : Nat)
  | spawnUserWithParent (cpu parentId : Nat)
  | spawnOnCpu (me priority cpu : Nat)
  | setLinuxAbi (id : Nat)
  | markCurrentDead (cpu : Nat)
  | recordExit (cpu code : Nat)
  | kill (cpu pid : Nat)
  | tryReap (cpu pid : Nat)
  | blockOnChild (cpu : Nat)
  | blockCurrentOnInput (cpu : Nat)
  | blockCurrentOnRawInput (cpu : Nat)
  | sleepCurrent (cpu wakeMs : Nat)
  | sleepCurrentNs (env : Env) (cpu delayNs : Nat)
  | wakeTaskNow (id : Nat)
  | yieldCurrent (cpu : Nat)
  | setPriority (id priority : Nat)
  | preempt (env : Env) (cpu : Nat)
  | userEntryTrampoline (cpu : Nat)

def Sched.apply (s : Sched) : Event → Sched
  | .spawn cpu => s.spawn cpu
  | .spawnPrio cpu priority => s.spawnPrio cpu priority
  | .spawnWithParent cpu priority parentId => s.spawnWithParent cpu priority parentId
  | .spawnUserWithParent cpu parentId => s.spawnUserWithParent cpu parentId
  | .spawnOnCpu me priority cpu => s.spawnOnCpu me priority cpu
  | .setLinuxAbi id => s.setLinuxAbi id
  | .markCurrentDead cpu => s.markCurrentDead cpu
  | .recordExit cpu code => s.recordExit cpu code
  | .kill cpu pid => (s.kill cpu pid).1
  | .tryReap cpu pid => (s.tryReap cpu pid).1
  | .blockOnChild cpu => s.blockOnChild cpu
  | .blockCurrentOnInput cpu => s.blockCurrentOnInput cpu
  | .blockCurrentOnRawInput cpu => s.blockCurrentOnRawInput cpu
  | .sleepCurrent cpu wakeMs => s.sleepCurrent cpu wakeMs
  | .sleepCurrentNs env cpu delayNs => s.sleepCurrentNs env cpu delayNs
  | .wakeTaskNow id => s.wakeTaskNow id
  | .yieldCurrent cpu => s.yieldCurrent cpu
  | .setPriority id priority => s.setPriority id priority
  | .preempt env cpu => (s.preempt env cpu).1
  | .userEntryTrampoline cpu => s.releasePendingPrev cpu

end Scheduler
