import Onyx.Lib.Execution
import Onyx.Scheduler.Priority

-- Sleeping tasks against real time: the tick counter has a phase of its own, and there are two deadlines.

open List Option

namespace Scheduler

-- The tick that `sys_sleep` asks for.
def sleepTick (nowMs ns : Nat) : Nat := min (nowMs + max (ns / 1000000) 1) (2 ^ 64 - 1)

-- The argument that `nanosleep` hands to `sys_sleep`.
def nanosleepNs (sec nsec : Nat) : Nat := min (min (sec * 1000000000) (2 ^ 64 - 1) + nsec) (2 ^ 64 - 1)

inductive Act
  | pass (ns : Nat)
  | sysSleep (cpu ns : Nat)
  | nanosleep (cpu sec nsec : Nat)
  | locked (e : Event)

structure Sleep where
  due : Nat
  syscall : Bool

-- The scheduler in time, with the latest sleep call of every task.
structure Watch where
  sched : Sched
  now : Nat
  phase : Fin 1000000
  latest : Nat → Option Sleep

namespace Watch

def boot (phase : Fin 1000000) : Watch where
  sched := .boot
  now := 0
  phase := phase
  latest _ := none

def nowMs (h : Watch) : Nat := (h.now + h.phase) / 1000000 % 2 ^ 64

def nowNs (h : Watch) : Nat := h.now % 2 ^ 64

end Watch

-- The section that an act consists of. The `preempt` of a sleep call is an act of its own.
def Act.event (h : Watch) : Act → Option Event
  | .pass _ => none
  | .sysSleep cpu ns => some (.sleepCurrent cpu (sleepTick h.nowMs ns))
  | .nanosleep cpu sec nsec => some (.sleepCurrent cpu (sleepTick h.nowMs (nanosleepNs sec nsec)))
  | .locked e => some e

def Act.sleep (h : Watch) : Act → Option (Nat × Sleep)
  | .sysSleep cpu ns => some (cpu, ⟨h.now + ns, true⟩)
  | .nanosleep cpu sec nsec => some (cpu, ⟨h.now + (sec * 1000000000 + nsec), true⟩)
  | .locked (.sleepCurrent cpu wakeMs) => some (cpu, ⟨wakeMs * 1000000 - h.phase, false⟩)
  | .locked (.sleepCurrentNs _ cpu delayNs) => some (cpu, ⟨h.now + delayNs, false⟩)
  | _ => none

def Event.Reads (h : Watch) : Event → Prop
  | .preempt env _ | .sleepCurrentNs env _ _ => env.nowMs = h.nowMs ∧ env.nowNs = h.nowNs
  | _ => True

def Act.duration : Act → Nat
  | .pass ns => ns
  | _ => 0

namespace Watch

def apply (h : Watch) (a : Act) : Watch where
  sched := (a.event h).elim h.sched h.sched.apply
  now := h.now + a.duration
  phase := h.phase
  latest := (a.sleep h).elim h.latest fun (cpu, z) =>
    (h.sched.current cpu).elim h.latest fun c => Function.update h.latest c (some z)

structure Next (h : Watch) (a : Act) (h' : Watch) : Prop where
  next : h' = h.apply a
  reads : ∀ e ∈ a.event h, e.Reads h

end Watch

structure Wakes (h : Watch) (i : Nat) (h' : Watch) (t t' : Task) (z : Sleep) : Prop where
  before : h.sched.tasks[i]? = some t
  after : h'.sched.tasks[i]? = some t'
  asleep : t.state = .sleeping
  awake : t'.state = .ready ∨ t'.state = .running
  call : h.latest i = some z

structure SleepLaw (h : Watch) (a : Act) (h' : Watch) : Prop where
  syscall : ∀ {i t t' z}, Wakes h i h' t t' z → z.syscall = true → z.due ≤ h.now
  early : ∀ {i t t' z}, Wakes h i h' t t' z → z.due ≤ h.now ∨ a = .locked (.wakeTaskNow t.id)
  parked : ∀ {env cpu i t'}, a = .locked (.preempt env cpu) → h'.sched.current cpu = some i → h'.sched.tasks[i]? = some t' →
    t'.state ≠ .sleeping

def Spared (h : Watch) (cpu due : Nat) : Prop :=
  ∀ t, h.sched.currentTask cpu = some t → t.sleepUntilNs = 0 ∨ due ≤ t.sleepUntilNs

structure FitsTicks (h : Watch) (ns : Nat) : Prop where
  uptime : h.now < 2 ^ 64
  word : ns < 2 ^ 64
  ticks : (h.now + h.phase) % 1000000 + ns ≤ max (ns / 1000000) 1 * 1000000

def Act.Fits (h : Watch) : Act → Prop
  | .pass _ => True
  | .sysSleep cpu ns => Spared h cpu (h.now + ns) ∧ FitsTicks h ns
  | .nanosleep cpu sec nsec => Spared h cpu (h.now + (sec * 1000000000 + nsec)) ∧ FitsTicks h (sec * 1000000000 + nsec)
  | .locked (.sleepCurrent cpu wakeMs) => Spared h cpu (wakeMs * 1000000 - h.phase)
  | .locked (.sleepCurrentNs _ _ delayNs) => h.now + delayNs < 2 ^ 64
  | .locked (.wakeTaskNow id) =>
    ∀ i t z, h.sched.tasks[i]? = some t → t.id = id → t.state = .sleeping → h.latest i = some z → z.syscall = true → z.due ≤ h.now
  | .locked _ => True

section deadlines

-- The deadlines of a task do not come before the end of a sleep.
structure Deadlines (phase : Nat) (t : Task) (z : Sleep) : Prop where
  ns : t.sleepUntilNs = 0 ∨ z.due ≤ t.sleepUntilNs
  ticks : z.due ≤ t.sleepUntilMs * 1000000 - phase

def Watch.Rested (h : Watch) : Prop :=
  ∀ i t, h.sched.tasks[i]? = some t → t.state = .sleeping → ∃ z, h.latest i = some z ∧ Deadlines h.phase t z

-- When the wake pass takes a sleeper for due.
def Due (env : Env) (t : Task) : Prop := (t.sleepUntilNs ≠ 0 ∧ t.sleepUntilNs ≤ env.nowNs) ∨ t.sleepUntilMs ≤ env.nowMs

theorem Deadlines.due_le {h : Watch} (hd : Deadlines h.phase t z) (hms : env.nowMs = h.nowMs) (hns : env.nowNs = h.nowNs) (hdue : Due env t) :
    z.due ≤ h.now := by
  have hnow : h.nowNs ≤ h.now := Nat.mod_le ..
  have hticks : h.nowMs ≤ (h.now + h.phase) / 1000000 := Nat.mod_le ..
  obtain ⟨hne, hle⟩ | hle := hdue
  · have := hd.ns.resolve_left hne
    omega
  · have := hd.ticks
    omega

-- A task that sleeps is the one that slept before.
def Slept (t t' : Task) : Prop :=
  t'.state = .sleeping → t.state = .sleeping ∧ t'.sleepUntilMs = t.sleepUntilMs ∧ t'.sleepUntilNs = t.sleepUntilNs

theorem respects_slept : Respects Slept where
  refl _ := fun h => ⟨h, rfl, rfl⟩
  trans h1 h2 := fun h => by
    have ⟨h', hm, hn⟩ := h2 h
    have ⟨h'', hm', hn'⟩ := h1 h'
    exact ⟨h'', hm.trans hm', hn.trans hn'⟩
  change h := by
    cases h with
    | adjust => exact fun h => ⟨h, rfl, rfl⟩
    | ready => exact nofun
    | run => exact nofun
    | reap h => exact fun h' => absurd (h.symm.trans h') (by decide)
    | kill => exact nofun

variable {h h' : Watch}

theorem Event.effect_slept {cpu : Nat} (he : e.effect = some (cpu, f)) (hs : (Act.locked e).sleep h = none) (t : Task) : Slept t (f t) := by
  cases e <;> cases he
  case sleepCurrent.refl | sleepCurrentNs.refl => cases hs
  all_goals exact nofun

theorem Watch.Rested.locked (hr : h.Rested) (hs : (Act.locked e).sleep h = none) : (h.apply (.locked e)).Rested := by
  have hlatest : (h.apply (.locked e)).latest = h.latest := by rw [Watch.apply, hs, elim_none]
  obtain ⟨t, hpush, _, hready, _⟩ | ⟨hev, _⟩ := h.sched.apply_cases respects_slept e fun cpu f he t _ => Event.effect_slept he hs t
  · intro i t' ht' hsleep
    have ht' : (h.sched.tasks ++ [t])[i]? = some t' := hpush ▸ ht'
    rw [hlatest]
    by_cases hi : i < h.sched.tasks.length
    · rw [getElem?_append_left hi] at ht'
      exact hr i t' ht' hsleep
    rw [getElem?_append_right (Nat.le_of_not_lt hi)] at ht'
    cases mem_singleton.mp (mem_of_getElem? ht')
    cases hready.symm.trans hsleep
  · intro i t' ht' hsleep
    have ⟨t, ht, hslept⟩ := hev.entry ht'
    have ⟨hst, hms, hns⟩ := hslept hsleep
    have ⟨z, hz, hd⟩ := hr i t ht hst
    rw [hlatest]
    exact ⟨z, hz, ⟨hns ▸ hd.ns, hms ▸ hd.ticks⟩⟩

theorem Watch.Rested.sleep (hr : h.Rested) (hf : ∀ t, h.sched.currentTask cpu = some t → Deadlines h.phase (f t) z)
    (ht : h'.sched = h.sched.updateCurrent cpu f)
    (hl : h'.latest = (h.sched.current cpu).elim h.latest fun c => Function.update h.latest c (some z)) (hp : h'.phase = h.phase) :
    h'.Rested := by
  intro i t' ht' hsleep
  rw [hl, hp]
  rw [ht, Sched.updateCurrent] at ht'
  cases hc : h.sched.current cpu with
  | none =>
    rw [hc] at ht'
    exact hr i t' ht' hsleep
  | some c =>
    rw [hc] at ht'
    simp only [Sched.update, getElem?_modify] at ht'
    simp only [elim_some]
    split_ifs at ht' with hi
    · subst hi
      obtain ⟨t, hold, hnew⟩ := map_eq_some_iff.mp ht'
      subst hnew
      exact ⟨z, Function.update_self .., hf t (by simp [Sched.currentTask, hc, hold])⟩
    · have hold : h.sched.tasks[i]? = some t' := by simpa using ht'
      obtain ⟨z', hz', hd⟩ := hr i t' hold hsleep
      exact ⟨z', (Function.update_of_ne (Ne.symm hi) ..).trans hz', hd⟩

theorem FitsTicks.le_sleepTick (hf : FitsTicks h ns) : h.now + ns ≤ sleepTick h.nowMs ns * 1000000 - h.phase := by
  have ⟨hup, hword, hticks⟩ := hf
  have hms : h.nowMs = (h.now + h.phase) / 1000000 := Nat.mod_eq_of_lt (by omega)
  have hfits : h.nowMs + max (ns / 1000000) 1 ≤ 2 ^ 64 - 1 := by omega
  rw [sleepTick, min_eq_left hfits, add_mul, hms]
  omega

theorem nanosleepNs_of_lt (h : sec * 1000000000 + nsec < 2 ^ 64) : nanosleepNs sec nsec = sec * 1000000000 + nsec := by
  rw [nanosleepNs, Nat.min_eq_left (a := sec * 1000000000) (by omega), Nat.min_eq_left (by omega)]

theorem deadlines_sleepNs {env : Env} (hnow : h.now + delayNs < 2 ^ 64) (hms : env.nowMs = h.nowMs) (hns : env.nowNs = h.nowNs)
    (htms : t.sleepUntilMs = env.nowMs + delayNs / 1000000 * 10 + 10) (htns : t.sleepUntilNs = (env.nowNs + delayNs) % 2 ^ 64) (u : Bool) :
    Deadlines h.phase t ⟨h.now + delayNs, u⟩ := by
  have hphase := h.phase.isLt
  have hticks : h.nowMs = (h.now + h.phase) / 1000000 := Nat.mod_eq_of_lt (by omega)
  have hnano : h.nowNs = h.now := Nat.mod_eq_of_lt (by omega)
  constructor
  · rw [htns, hns, hnano, Nat.mod_eq_of_lt hnow]
    exact .inr (le_refl _)
  · rw [htms, hms, hticks]
    dsimp only
    omega

theorem Watch.Rested.next (hr : h.Rested) (hn : Next h a h') (ha : a.Fits h) : h'.Rested := by
  have hreads := hn.reads
  cases hn.next
  cases a with
  | pass ns => exact hr
  | sysSleep cpu ns =>
    exact hr.sleep (fun t ht => ⟨ha.1 t ht, ha.2.le_sleepTick⟩) rfl rfl rfl
  | nanosleep cpu sec nsec =>
    have hticks := ha.2.le_sleepTick
    refine hr.sleep (fun t ht => ⟨ha.1 t ht, ?_⟩) rfl rfl rfl
    rw [nanosleepNs_of_lt ha.2.word]
    exact hticks
  | locked e =>
    cases e with
    | sleepCurrent cpu ms => exact hr.sleep (fun t ht => ⟨ha t ht, le_refl _⟩) rfl rfl rfl
    | sleepCurrentNs env cpu ns =>
      have hclock := hreads _ rfl
      refine hr.sleep ?_ rfl rfl rfl
      exact fun t _ => deadlines_sleepNs ha hclock.1 hclock.2 rfl rfl false
    | _ => exact hr.locked rfl

theorem Watch.Rested.boot (phase : Fin 1000000) : (Watch.boot phase).Rested := nofun

end deadlines

section law

-- What ends a sleep in a round of `preempt`: nothing but a deadline.
structure Rouses (env : Env) (t t' : Task) : Prop where
  slept : Slept t t'
  due : t.state = .sleeping → t'.state = .sleeping ∨ Due env t

theorem polls_rouses (env : Env) : Polls env (Rouses env) where
  refl t := ⟨respects_slept.refl t, .inl⟩
  trans h1 h2 := by
    refine ⟨respects_slept.trans h1.slept h2.slept, fun hs => ?_⟩
    refine (h1.due hs).elim (fun hs' => ?_) .inr
    have ⟨_, hms, hns⟩ := h1.slept hs'
    refine (h2.due hs').imp_right fun hd => ?_
    rwa [Due, hms, hns] at hd
  wake tasks t := by
    refine ⟨respects_slept.change (.wakeTask ..), fun hs => ?_⟩
    unfold wakeTask
    rw [hs]
    dsimp only
    split_ifs with hdue
    · exact .inr hdue
    · exact .inl rfl
    · exact .inl hs
  release hrun := ⟨nofun, fun hs => absurd (hrun.symm.trans hs) (by decide)⟩
  tick hrun := ⟨respects_slept.change .adjust, fun hs => absurd (hrun.symm.trans hs) (by decide)⟩
  run hready := ⟨nofun, fun hs => absurd (hready.symm.trans hs) (by decide)⟩

-- A change after which the task still is not to go on, except for a cause.
def Stirs (cause : Task → Prop) (t t' : Task) : Prop :=
  t.state = .sleeping → t'.state = .ready ∨ t'.state = .running → cause t

theorem Stirs.of_same (h : t'.state = t.state) : Stirs cause t t' := by
  intro hs hr
  rw [h, hs] at hr
  exact absurd hr (by decide)

theorem Stirs.refl (cause : Task → Prop) (t : Task) : Stirs cause t t := of_same rfl

theorem Stirs.of_state (h : t'.state ≠ .ready) (h' : t'.state ≠ .running) : Stirs cause t t' :=
  fun _ hr => absurd hr (not_or.mpr ⟨h, h'⟩)

theorem Event.effect_stirs {e : Event} {cpu : Nat} (he : e.effect = some (cpu, f)) (t : Task) : Stirs cause t (f t) := by
  cases e <;> cases he
  all_goals exact .of_state nofun nofun

theorem Sched.apply_stirs (s : Sched) {e : Event} (hp : ∀ env cpu, e ≠ .preempt env cpu) :
    (∃ t, (s.apply e).tasks = s.tasks ++ [t]) ∨ Lib.Evolves (Stirs fun t => e = .wakeTaskNow t.id) s.tasks (s.apply e).tasks := by
  cases hf : e.effect with
  | some p =>
    obtain ⟨cpu, f⟩ := p
    rw [s.apply_of_effect hf]
    exact .inr (Polls.updateCurrent (Stirs.refl _) s cpu fun t _ => Event.effect_stirs hf t)
  | none =>
    have hr (cause : Task → Prop) : Lib.Evolves (Stirs cause) s.tasks s.tasks := .refl (Stirs.refl cause)
    cases e <;> simp only [Event.effect, reduceCtorEq] at hf <;> simp only [apply]
    case preempt env cpu => exact absurd rfl (hp env cpu)
    case spawn | spawnPrio | spawnWithParent | spawnUserWithParent | spawnOnCpu => exact .inl ⟨_, rfl⟩
    all_goals apply Or.inr
    case userEntryTrampoline cpu =>
      exact Polls.releasePendingPrev (Stirs.refl _) (fun hrun hs => absurd (hrun.symm.trans hs) (by decide)) s cpu
    case yieldCurrent cpu =>
      refine Polls.updateCurrent (Stirs.refl _) s cpu fun t _ => ?_
      split_ifs with h
      · exact fun hs => absurd (h.symm.trans hs) (by decide)
      · exact Stirs.refl _ t
    case setLinuxAbi | setPriority =>
      simp only [setLinuxAbi, setPriority]
      split
      · exact hr _
      · exact .modify (Stirs.refl _) fun t _ => .of_same rfl
    case wakeTaskNow id =>
      simp only [wakeTaskNow]
      split
      case h_1 => exact hr _
      case h_2 i hi =>
        refine .modify (Stirs.refl _) fun t ht => ?_
        obtain ⟨hlt, hid, _⟩ := findIdx?_eq_some_iff_getElem.mp hi
        rw [getElem?_eq_getElem hlt] at ht
        cases ht
        exact fun _ _ => congrArg Event.wakeTaskNow (of_decide_eq_true hid).symm
    case kill =>
      unfold kill
      simp only
      split
      · exact hr _
      · exact .modify (Stirs.refl _) fun t _ => .of_state (by rintro ⟨⟩) (by rintro ⟨⟩)
    case tryReap =>
      unfold tryReap
      simp only
      split
      · exact hr _
      split
      · exact hr _
      · exact .modify (Stirs.refl _) fun t _ => .of_same rfl

variable {h h' : Watch}

theorem Wakes.cause (hr : h.Rested) (hn : Watch.Next h a h') (hw : Wakes h i h' t t' z) :
    z.due ≤ h.now ∨ a = .locked (.wakeTaskNow t.id) := by
  have ⟨z', hz', hd⟩ := hr i t hw.before hw.asleep
  cases hz'.symm.trans hw.call
  have hreads := hn.reads
  have hafter := hw.after
  cases hn.next
  cases he : a.event h with
  | none =>
    have hsame : (h.apply a).sched = h.sched := by rw [Watch.apply, he, elim_none]
    rw [hsame] at hafter
    cases hw.before.symm.trans hafter
    exact absurd hw.awake (by rw [hw.asleep]; decide)
  | some e =>
    have hsched : (h.apply a).sched = h.sched.apply e := by rw [Watch.apply, he, elim_some]
    rw [hsched] at hafter
    by_cases hp : ∃ env cpu, e = .preempt env cpu
    · obtain ⟨env, cpu, rfl⟩ := hp
      have hclock := hreads _ he
      have ⟨t0, ht0, hrouse⟩ := ((polls_rouses env).preempt h.sched cpu).entry hafter
      cases hw.before.symm.trans ht0
      refine .inl (hd.due_le hclock.1 hclock.2 ((hrouse.due hw.asleep).resolve_left fun hs => ?_))
      exact absurd hw.awake (by rw [hs]; decide)
    · have hp : ∀ env cpu, e ≠ .preempt env cpu := fun env cpu heq => hp ⟨env, cpu, heq⟩
      obtain ⟨u, hpush⟩ | hev := h.sched.apply_stirs hp
      · have hlt := (List.getElem?_eq_some_iff.mp hw.before).1
        rw [hpush, getElem?_append_left hlt] at hafter
        cases hw.before.symm.trans hafter
        exact absurd hw.awake (by rw [hw.asleep]; decide)
      · have ⟨t0, ht0, hstir⟩ := hev.entry hafter
        cases hw.before.symm.trans ht0
        have hcause := hstir hw.asleep hw.awake
        subst hcause
        cases a <;> simp only [Act.event, some.injEq, reduceCtorEq] at he
        case locked => exact .inr (congrArg Act.locked he)

theorem preempt_not_sleeping {s : Sched} (hc : (s.preempt env cpu).1.current cpu = some i) (ht : (s.preempt env cpu).1.tasks[i]? = some t) :
    t.state ≠ .sleeping := by
  unfold Sched.preempt at hc ht
  generalize s.releasePendingPrev cpu = s at hc ht
  by_cases hnil : s.tasks = []
  · rw [Sched.planSwitch, if_pos hnil, hnil] at ht
    cases ht
  obtain hrun | ⟨hcur, hbest⟩ := running_of_planSwitch hnil hc ht
  · rw [hrun]
    decide
  obtain ⟨hstay, _⟩ | ⟨_, _, hother⟩ := planSwitch_cases env cpu hnil
  · rw [hstay] at ht
    obtain ⟨u, hu, _⟩ := best_some hbest
    cases ht.symm.trans (candidate_polled.mpr hu).entry
    rw [hu.ready]
    decide
  · exact absurd (hbest.trans hcur.symm) hother

-- In a run whose acts all meet the condition, every step keeps the law.
theorem sleep_law_of_fits (e : Lib.Execution (Lib.Guarded Watch.Next fun h a => a.Fits h) (.boot phase) as h) (hn : Watch.Next h a h') (ha : a.Fits h) :
    SleepLaw h a h' := by
  have hrested : h.Rested := e.invariant (fun ⟨hf, hn⟩ hr => hr.next hn hf) (.boot phase)
  refine ⟨fun hw hs => ?_, fun hw => hw.cause hrested hn, fun hp hc ht => ?_⟩
  · refine (hw.cause hrested hn).elim id fun hwake => ?_
    subst hwake
    exact ha _ _ _ hw.before rfl hw.asleep hw.call hs
  · subst hp
    cases hn.next
    exact preempt_not_sleeping hc ht

def clock (ms ns : Nat) : Env where
  nowMs := ms
  nowNs := ns
  linePending := false
  rawPending := false

def started : List Act := [.locked (.spawn 0), .locked (.preempt (clock 0 0) 0)]

def after (as : List Act) : Watch := as.foldl Watch.apply (.boot 0)

theorem started_run : Lib.Execution (Lib.Guarded Watch.Next fun h a => a.Fits h) (.boot 0) started (after started) := by
  refine .step ⟨trivial, rfl, ?_⟩ (.step ⟨trivial, rfl, ?_⟩ .refl)
  · rintro _ ⟨⟩
    trivial
  · rintro _ ⟨⟩
    exact ⟨rfl, rfl⟩

theorem one_tick_law : SleepLaw (after (started ++ [.sysSleep 0 1000000, .pass 1000000])) (.locked (.preempt (clock 1 1000000) 0))
    (after (started ++ [.sysSleep 0 1000000, .pass 1000000, .locked (.preempt (clock 1 1000000) 0)])) := by
  have hsleep : (Act.sysSleep 0 1000000).Fits (after started) := by
    refine ⟨fun t ht => ?_, by decide, by decide, by decide⟩
    have hzero : ((after started).sched.currentTask 0).all (·.sleepUntilNs = 0) = true := by decide
    rw [ht] at hzero
    exact .inl (of_decide_eq_true hzero)
  have hpass : (Act.pass 1000000).Fits (after (started ++ [.sysSleep 0 1000000])) := trivial
  refine sleep_law_of_fits (started_run.trans (.step ⟨hsleep, rfl, ?_⟩ (.step ⟨hpass, rfl, nofun⟩ .refl))) ⟨rfl, ?_⟩ trivial
  · rintro _ ⟨⟩
    trivial
  · rintro _ ⟨⟩
    exact ⟨by decide, by decide⟩

def late : List Act := started ++ [.pass 999999, .sysSleep 0 1000000, .locked (.preempt (clock 0 999999) 0), .pass 1]

-- A sleep of 20 ms after one of 5 ms that was cut short.
def stale : List Act :=
  started ++ [.locked (.sleepCurrentNs (clock 0 0) 0 5000000), .locked (.preempt (clock 0 0) 0), .locked (.wakeTaskNow 1),
    .locked (.preempt (clock 0 0) 0), .sysSleep 0 20000000, .locked (.preempt (clock 0 0) 0), .pass 5000000]

theorem run_late : Lib.Execution Watch.Next (.boot 0) late (after late) := by
  refine .step ⟨rfl, ?_⟩ (.step ⟨rfl, ?_⟩ (.step ⟨rfl, nofun⟩ (.step ⟨rfl, ?_⟩ (.step ⟨rfl, ?_⟩ (.step ⟨rfl, nofun⟩ .refl)))))
  all_goals
    rintro _ ⟨⟩
    trivial

theorem run_stale : Lib.Execution Watch.Next (.boot 0) stale (after stale) := by
  refine .step ⟨rfl, ?_⟩ (.step ⟨rfl, ?_⟩ (.step ⟨rfl, ?_⟩ (.step ⟨rfl, ?_⟩ (.step ⟨rfl, ?_⟩ (.step ⟨rfl, ?_⟩ (.step ⟨rfl, ?_⟩
    (.step ⟨rfl, ?_⟩ (.step ⟨rfl, nofun⟩ .refl))))))))
  all_goals
    rintro _ ⟨⟩
    trivial

theorem not_law (ht : (h.sched.tasks[i]?).any (·.state = .sleeping) = true) (ht' : (h'.sched.tasks[i]?).any (·.state = .running) = true)
    (hz : (h.latest i).any (fun z => z.syscall ∧ h.now < z.due) = true) : ¬SleepLaw h a h' := by
  intro law
  cases hold : h.sched.tasks[i]? with
  | none => simp [hold] at ht
  | some t =>
    cases hnew : h'.sched.tasks[i]? with
    | none => simp [hnew] at ht'
    | some t' =>
      cases hcall : h.latest i with
      | none => simp [hcall] at hz
      | some z =>
        rw [hold, any_some, decide_eq_true_eq] at ht
        rw [hnew, any_some, decide_eq_true_eq] at ht'
        rw [hcall, any_some, decide_eq_true_eq] at hz
        have hle := law.syscall ⟨hold, hnew, ht, .inr ht', hcall⟩ hz.1
        omega

theorem sleep_too_short : (Lib.Execution Watch.Next (.boot 0) late (after late) ∧
      Watch.Next (after late) (.locked (.preempt (clock 1 1000000) 0)) (after (late ++ [.locked (.preempt (clock 1 1000000) 0)])) ∧
      ¬SleepLaw (after late) (.locked (.preempt (clock 1 1000000) 0)) (after (late ++ [.locked (.preempt (clock 1 1000000) 0)]))) ∧
    (Lib.Execution Watch.Next (.boot 0) stale (after stale) ∧
      Watch.Next (after stale) (.locked (.preempt (clock 5 5000000) 0)) (after (stale ++ [.locked (.preempt (clock 5 5000000) 0)])) ∧
      ¬SleepLaw (after stale) (.locked (.preempt (clock 5 5000000) 0)) (after (stale ++ [.locked (.preempt (clock 5 5000000) 0)]))) := by
  refine ⟨⟨run_late, ⟨rfl, ?_⟩, ?_⟩, ⟨run_stale, ⟨rfl, ?_⟩, ?_⟩⟩
  · rintro _ ⟨⟩
    exact ⟨by decide, by decide⟩
  · exact not_law (i := 0) (by decide) (by decide) (by decide)
  · rintro _ ⟨⟩
    exact ⟨by decide, by decide⟩
  · exact not_law (i := 0) (by decide) (by decide) (by decide)

end law

end Scheduler
