import Onyx.Scheduler.Task

-- The wake pass and the choice of the next context (`wake_state_locked`, `plan_switch`, `preempt`).

namespace Scheduler

def hasDeadUnreapedChild (tasks : List Task) (parent : Nat) : Bool :=
  tasks.any fun c => c.parentId = parent ∧ c.state = .dead ∧ !c.reaped

-- A zombie whose parent is the kernel, is dead itself, or is gone.
def autoReap (tasks : List Task) (t : Task) : Bool :=
  t.parentId == 0 ||
    match tasks.find? (·.id = t.parentId) with
    | some p => p.state = .dead
    | none => true

def wakeTask (env : Env) (tasks : List Task) (t : Task) : Task :=
  match t.state with
  | .sleeping =>
    if (t.sleepUntilNs ≠ 0 ∧ t.sleepUntilNs ≤ env.nowNs) ∨ t.sleepUntilMs ≤ env.nowMs then
      { t with state := .ready, sleepUntilNs := 0 }
    else if t.sleepUntilMs + 3000 < env.nowMs ∧ !t.wakeDiag then
      { t with wakeDiag := true }
    else t
  | .blocked =>
    -- The guards in this order; which flag the last blocking call set is not recorded.
    if t.blockedOnInput then
      if env.linePending then { t with state := .ready } else t
    else if t.blockedOnRaw then
      if env.rawPending then { t with state := .ready } else t
    else if t.blockedOnChild then
      if hasDeadUnreapedChild tasks t.id then { t with state := .ready } else t
    else t
  | .dead => if !t.reaped ∧ autoReap tasks t then { t with reaped := true } else t
  | .running | .ready => t

def wakeAt (env : Env) (tasks : List Task) (i : Nat) : List Task :=
  tasks.modify i (wakeTask env tasks)

-- The table after the first `k` iterations of the wake pass.
def wakeUpTo (env : Env) (tasks : List Task) (k : Nat) : List Task :=
  (List.range k).foldl (wakeAt env) tasks

def wakePass (env : Env) (tasks : List Task) : List Task :=
  wakeUpTo env tasks tasks.length

-- The running choice of the scan over the Ready tasks: `best`, `best_prio`, `best_local`.
structure Pick where
  best : Option Nat
  bestPrio : Nat
  bestLocal : Bool

def Pick.start : Pick := { best := none, bestPrio := 2 ^ 32 - 1, bestLocal := false }

def Pick.offer (me : Nat) (tasks : List Task) (p : Pick) (idx : Nat) : Pick :=
  match tasks[idx]? with
  | none => p
  | some t =>
    if t.state ≠ .ready ∨ t.ownerCpu ≠ me then p
    else if t.priority < p.bestPrio ∨ (t.priority = p.bestPrio ∧ !p.bestLocal ∧ p.best.isSome) then
      { best := some idx, bestPrio := t.priority, bestLocal := true }
    else p

-- Only Ready tasks of this CPU are ever picked.
def Pick.Ready (me : Nat) (tasks : List Task) (p : Pick) : Prop :=
  ∀ i ∈ p.best, ∃ t, tasks[i]? = some t ∧ t.state = .ready ∧ t.ownerCpu = me

theorem Pick.Ready.offer (h : Pick.Ready me tasks p) (idx : Nat) : Pick.Ready me tasks (p.offer me tasks idx) := by
  unfold Pick.offer
  split
  case h_1 => exact h
  case h_2 t ht =>
    split_ifs with hr hb
    · exact h
    · intro i hi
      cases hi
      exact ⟨t, ht, by_contra fun hs => hr (.inl hs), by_contra fun ho => hr (.inr ho)⟩
    · exact h

namespace Sched

def wakeStateLocked (env : Env) (s : Sched) : Sched :=
  { s with tasks := wakePass env s.tasks }

def releasePendingPrev (s : Sched) (me : Nat) : Sched :=
  let s' := { s with pendingPrev := Function.update s.pendingPrev me none }
  match s.pendingPrev me with
  | none => s'
  | some prev =>
    if s.current me = some prev then s'
    else s'.update prev fun t =>
      if t.state = .running ∧ t.ownerCpu = me then { t with state := .ready } else t

def tickSlice (s : Sched) (me : Nat) : Sched :=
  s.updateCurrent me fun t => if t.state = .running then { t with sliceLeft := t.sliceLeft - 1 } else t

-- The scan starts right after the current task and wraps around.
def bestReady (s : Sched) (me : Nat) : Pick :=
  let n := s.tasks.length
  let start := match s.current me with
    | none => 0
    | some cur => cur + 1
  (List.range n).foldl (fun p k => p.offer me s.tasks ((start + k) % n)) .start

theorem bestReady_ready (s : Sched) (me : Nat) : (s.bestReady me).Ready me s.tasks := by
  have hf : ∀ (ks : List Nat) (p : Pick) (f : Nat → Nat), p.Ready me s.tasks →
      (ks.foldl (fun p k => p.offer me s.tasks (f k)) p).Ready me s.tasks := by
    intro ks
    induction ks with
    | nil => exact fun _ _ h => h
    | cons k ks hi => exact fun p f h => hi _ f (h.offer _)
  exact hf _ _ _ fun _ hi => by cases hi

def keepsCurrent (s : Sched) (me : Nat) (p : Pick) : Bool :=
  match s.currentTask me with
  | none => p.best.isNone
  | some cur => cur.state = .running ∧
      (p.best.isNone ∨ cur.priority = prioRt ∨ (cur.sliceLeft > 0 ∧ cur.priority ≤ p.bestPrio))

def switchTo (s : Sched) (me : Nat) (next : Option Nat) : Sched :=
  let curRunning := (s.currentTask me).any (·.state = .running)
  let pending := if curRunning then s.current me else s.pendingPrev me
  let s' := match next with
    | none => s
    | some i => s.update i fun t => { t with sliceLeft := freshSlice t.priority, state := .running }
  { s' with
    pendingPrev := Function.update s.pendingPrev me pending
    current := Function.update s.current me next }

-- The pair is the outgoing and the incoming context of the switch `preempt` performs.
def planSwitch (s : Sched) (env : Env) (me : Nat) : Sched × Option (Option Nat × Option Nat) :=
  if s.tasks = [] then (s, none)
  else
    let s := (s.wakeStateLocked env).tickSlice me
    let p := s.bestReady me
    if s.keepsCurrent me p ∨ p.best = s.current me then (s, none)
    else (s.switchTo me p.best, some (s.current me, p.best))

def preempt (s : Sched) (env : Env) (me : Nat) : Sched × Option (Option Nat × Option Nat) :=
  (s.releasePendingPrev me).planSwitch env me

end Sched
end Scheduler
