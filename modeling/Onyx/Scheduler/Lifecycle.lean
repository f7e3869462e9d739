import Onyx.Scheduler.Wakeup

-- Death, exit codes and reaping; sections do not look whether the calling task was killed meanwhile.

open List

namespace Scheduler

-- A status handed out by `try_reap`: the id of the caller, that of the child, and its exit code.
structure Handout where
  caller : Nat
  child : Nat
  code : Nat
  deriving DecidableEq, Repr

-- A scheduler state together with the statuses handed out so far, the latest first.
structure Log where
  sched : Sched
  handed : List Handout

namespace Log

def boot : Log := { sched := .boot, handed := [] }

def handout (l : Log) : Event → List Handout
  | .tryReap cpu pid =>
    match l.sched.currentTask cpu, (l.sched.tryReap cpu pid).2 with
    | some t, some (child, code) => [⟨t.id, child, code⟩]
    | _, _ => []
  | _ => []

def apply (l : Log) (e : Event) : Log where
  sched := l.sched.apply e
  handed := l.handout e ++ l.handed

def next (l : Log) (e : Event) (l' : Log) : Prop := l' = l.apply e

end Log

-- What the life cycle promises between an earlier and a later state.
structure LifeCycle (l l' : Log) : Prop where
  dead : ∀ {i : Nat} {t : Task}, l.sched.tasks[i]? = some t → t.state = .dead →
    ∃ t', l'.sched.tasks[i]? = some t' ∧ t'.id = t.id ∧ t'.state = .dead ∧ t'.exitCode = t.exitCode
  once : (l'.handed.map Handout.child).Nodup
  parent : ∀ r ∈ l'.handed, ∃ t ∈ l'.sched.tasks, t.id = r.child ∧ t.parentId = r.caller ∧ t.exitCode = r.code
  never : ∃ new, l'.handed = new ++ l.handed ∧
    ∀ t ∈ l.sched.tasks, t.state = .dead → t.reaped = true → ∀ r ∈ new, r.child ≠ t.id

-- No section parks a dead caller, and none records another exit for it.
def Event.SparesDead (l : Log) : Event → Prop
  | .markCurrentDead cpu =>
    ∀ t, l.sched.currentTask cpu = some t → t.state = .dead → t.exitCode = 0 ∧ t.reaped = false
  | .recordExit cpu code =>
    ∀ t, l.sched.currentTask cpu = some t → t.state = .dead → t.exitCode = code ∧ t.reaped = false
  | .blockOnChild cpu | .blockCurrentOnInput cpu | .blockCurrentOnRawInput cpu | .sleepCurrent cpu _
  | .sleepCurrentNs _ cpu _ =>
    ∀ t, l.sched.currentTask cpu = some t → t.state ≠ .dead
  | _ => True

-- A change that leaves a dead task as it is, except that it may come to be reaped.
structure Lasting (t t' : Task) : Prop where
  id : t'.id = t.id
  parent : t'.parentId = t.parentId
  dead : t.state = .dead → t'.state = .dead ∧ t'.exitCode = t.exitCode ∧ (t.reaped = true → t'.reaped = true)

namespace Lasting

theorem refl (t : Task) : Lasting t t :=
  ⟨rfl, rfl, fun h => ⟨h, rfl, fun hr => hr⟩⟩

theorem trans (h1 : Lasting t1 t2) (h2 : Lasting t2 t3) : Lasting t1 t3 where
  id := h2.id.trans h1.id
  parent := h2.parent.trans h1.parent
  dead h := by
    have ⟨hs, hc, hr⟩ := h1.dead h
    have ⟨hs', hc', hr'⟩ := h2.dead hs
    exact ⟨hs', hc'.trans hc, fun h => hr' (hr h)⟩

theorem of_alive (hi : t'.id = t.id) (hp : t'.parentId = t.parentId) (hs : t.state ≠ .dead) : Lasting t t' :=
  ⟨hi, hp, fun h => absurd h hs⟩

theorem change (h : Change t t') : Lasting t t' := by
  cases h with
  | adjust => exact ⟨rfl, rfl, fun h => ⟨h, rfl, fun hr => hr⟩⟩
  | ready hs => exact .of_alive rfl rfl hs
  | run hs => exact .of_alive rfl rfl (by simp [hs])
  | reap => exact ⟨rfl, rfl, fun h => ⟨h, rfl, fun _ => rfl⟩⟩
  | kill hs => exact .of_alive rfl rfl hs

theorem respects : Respects Lasting :=
  ⟨refl, trans, change⟩

end Lasting

theorem Event.SparesDead.effect {l : Log} {e : Event} {cpu : Nat} (h : e.SparesDead l)
    (he : e.effect = some (cpu, f)) (ht : l.sched.currentTask cpu = some t) : Lasting t (f t) := by
  cases e <;> simp only [Event.effect, reduceCtorEq, Option.some.injEq, Prod.mk.injEq] at he
  all_goals
    cases he.1
    cases he.2
  case markCurrentDead | recordExit =>
    refine ⟨rfl, rfl, fun hd => ⟨rfl, (h t ht hd).1.symm, fun hr => ?_⟩⟩
    rw [(h t ht hd).2] at hr
    cases hr
  all_goals exact .of_alive rfl rfl (h t ht)

theorem Log.apply_lasting (l : Log) {e : Event} (h : e.SparesDead l) :
    (∃ t, (l.sched.apply e).tasks = l.sched.tasks ++ [t]) ∨
    Lib.Evolves Lasting l.sched.tasks (l.sched.apply e).tasks := by
  cases l.sched.apply_cases Lasting.respects e fun _ _ he _ ht => h.effect he ht with
  | inl hp =>
    have ⟨t, ht, _⟩ := hp
    exact .inl ⟨t, ht⟩
  | inr he => exact .inr he.1

theorem Sched.tryReap_eq_some {s : Sched} (hp : s.currentTask cpu = some p)
    (h : (s.tryReap cpu pid).2 = some (child, code)) :
    ∃ (i : Nat) (t : Task), s.tasks[i]? = some t ∧ t.id = child ∧ t.parentId = p.id ∧ t.exitCode = code ∧
      t.state = .dead ∧ t.reaped = false ∧ (s.tryReap cpu pid).1.tasks[i]? = some { t with reaped := true } := by
  simp only [tryReap, hp] at h ⊢
  split at h
  case h_1 => cases h
  case h_2 i hi =>
    obtain ⟨hlt, hz, _⟩ := findIdx?_eq_some_iff_getElem.mp hi
    have ht : s.tasks[i]? = some s.tasks[i] := getElem?_eq_getElem hlt
    simp only [decide_eq_true_eq, Bool.not_eq_true'] at hz
    simp only [ht, Option.map_some, Option.some.injEq, Prod.mk.injEq] at h
    refine ⟨i, s.tasks[i], ht, h.1, hz.1, h.2, hz.2.2.1, hz.2.2.2, ?_⟩
    simp [Sched.update, ht]

theorem Log.mem_handout {l : Log} (h : r ∈ l.handout e) :
    ∃ (i : Nat) (t : Task), l.sched.tasks[i]? = some t ∧ t.id = r.child ∧ t.parentId = r.caller ∧
      t.exitCode = r.code ∧ t.state = .dead ∧ t.reaped = false ∧
      (l.sched.apply e).tasks[i]? = some { t with reaped := true } ∧ l.handout e = [r] := by
  cases e <;> simp only [handout, not_mem_nil] at h
  case tryReap cpu pid =>
    split at h
    case h_2 => simp at h
    case h_1 p child code hp hr =>
      have ⟨i, t, ht, hi, hpa, hc, hd, hre, ht'⟩ := Sched.tryReap_eq_some hp hr
      cases mem_singleton.mp h
      exact ⟨i, t, ht, hi, hpa, hc, hd, hre, ht', by simp [handout, hp, hr]⟩

-- Every status handed out is that of a reaped zombie, no two of the same one.
structure Log.Kept (l : Log) : Prop where
  ids : l.sched.IdsOk
  handed : ∀ r ∈ l.handed, ∃ t ∈ l.sched.tasks, t.id = r.child ∧ t.parentId = r.caller ∧ t.exitCode = r.code ∧
    t.state = .dead ∧ t.reaped = true
  once : (l.handed.map Handout.child).Nodup

-- How the log has grown since an earlier state.
structure Log.Since (l l' : Log) : Prop where
  kept : l'.Kept
  tasks : ∀ {i : Nat} {t : Task}, l.sched.tasks[i]? = some t → ∃ t', l'.sched.tasks[i]? = some t' ∧ Lasting t t'
  never : ∃ new, l'.handed = new ++ l.handed ∧
    ∀ t ∈ l.sched.tasks, t.state = .dead → t.reaped = true → ∀ r ∈ new, r.child ≠ t.id

namespace Log

theorem apply_entry (l : Log) {i : Nat} (h : e.SparesDead l) (ht : l.sched.tasks[i]? = some t) :
    ∃ t', (l.sched.apply e).tasks[i]? = some t' ∧ Lasting t t' := by
  cases l.apply_lasting h with
  | inl hp =>
    have ⟨u, hu⟩ := hp
    have hlt := (List.getElem?_eq_some_iff.mp ht).1
    exact ⟨t, by rw [hu, getElem?_append_left hlt, ht], .refl t⟩
  | inr he => exact he.entry_of_old ht

theorem unique_id {l : Log} (h : l.Kept) (ht : t ∈ l.sched.tasks) (ht' : t' ∈ l.sched.tasks) (hi : t.id = t'.id) :
    t = t' :=
  inj_on_of_nodup_map h.ids.nodup ht ht' hi

theorem Kept.apply {l : Log} (h : l.Kept) (hs : e.SparesDead l) : (l.apply e).Kept where
  ids := h.ids.apply e
  handed := by
    intro r hr
    rcases mem_append.mp hr with hr | hr
    · have ⟨i, t, _, hi, hp, hc, hd, _, ht', _⟩ := mem_handout hr
      exact ⟨_, mem_of_getElem? ht', hi, hp, hc, hd, rfl⟩
    have ⟨t, ht, hi, hp, hc, hd, hre⟩ := h.handed r hr
    have ⟨i, ht⟩ := mem_iff_getElem?.mp ht
    have ⟨t', ht', hl⟩ := l.apply_entry hs ht
    have ⟨hd', hc', hr'⟩ := hl.dead hd
    exact ⟨t', mem_of_getElem? ht', hl.id.trans hi, hl.parent.trans hp, hc'.trans hc, hd', hr' hre⟩
  once := by
    show ((l.handout e ++ l.handed).map Handout.child).Nodup
    match hh : l.handout e with
    | [] => exact h.once
    | r :: rs =>
      have hr : r ∈ l.handout e := hh ▸ .head _
      have ⟨i, t, ht, hi, _, _, _, hre, _, hone⟩ := mem_handout hr
      rw [← hh, hone]
      refine nodup_cons.mpr ⟨fun hm => ?_, h.once⟩
      have ⟨q, hq, hqr⟩ := mem_map.mp hm
      have ⟨t', ht', hi', _, _, _, hre'⟩ := h.handed q hq
      rw [unique_id h (mem_of_getElem? ht) ht' (by rw [hi, hi', hqr])] at hre
      rw [hre] at hre'
      cases hre'

theorem Since.apply {l l' : Log} (h : Since l l') (hs : e.SparesDead l') : Since l (l'.apply e) where
  kept := h.kept.apply hs
  tasks ht := by
    have ⟨t', ht', hl⟩ := h.tasks ht
    have ⟨t'', ht'', hl'⟩ := l'.apply_entry hs ht'
    exact ⟨t'', ht'', hl.trans hl'⟩
  never := by
    have ⟨new, hn, hne⟩ := h.never
    refine ⟨l'.handout e ++ new, by rw [append_assoc, ← hn]; rfl, fun t ht hd hr r hm => ?_⟩
    rcases mem_append.mp hm with hm | hm
    · intro hrt
      have ⟨i, ht⟩ := mem_iff_getElem?.mp ht
      have ⟨t', ht', hl⟩ := h.tasks ht
      have ⟨j, u, hu, hi, _, _, _, hre, _⟩ := mem_handout hm
      have := unique_id h.kept (mem_of_getElem? hu) (mem_of_getElem? ht') (by rw [hi, hrt, hl.id])
      rw [this, (hl.dead hd).2.2 hr] at hre
      cases hre
    · exact hne t ht hd hr r hm

end Log

theorem Log.Kept.boot : Log.boot.Kept :=
  ⟨⟨nodup_nil, by simp [Sched.ids, Log.boot, Sched.boot], Nat.one_pos⟩, by simp [Log.boot], nodup_nil⟩

theorem lifecycle_of_spares_dead (e : Lib.Execution (Lib.Guarded Log.next fun l e => e.SparesDead l) .boot events l)
    (e' : Lib.Execution (Lib.Guarded Log.next fun l e => e.SparesDead l) l events' l') : LifeCycle l l' := by
  have hk : l.Kept := e.invariant (fun ⟨hs, hn⟩ hk => hn ▸ hk.apply hs) .boot
  have hl : Log.Since l l := ⟨hk, fun ht => ⟨_, ht, .refl _⟩, [], rfl, by simp⟩
  have hs : Log.Since l l' := e'.invariant (fun ⟨hs, hn⟩ h => hn ▸ h.apply hs) hl
  refine ⟨fun ht hd => ?_, hs.kept.once, fun r hr => ?_, hs.never⟩
  · have ⟨t', ht', hl⟩ := hs.tasks ht
    exact ⟨t', ht', hl.id, (hl.dead hd).1, (hl.dead hd).2.1⟩
  · have ⟨t, ht, hi, hp, hc, _⟩ := hs.kept.handed r hr
    exact ⟨t, ht, hi, hp, hc⟩

-- Parent and child, each running on a CPU of its own.
def parentAndChild : List Event :=
  let quiet : Env := { nowMs := 0, nowNs := 0, linePending := false, rawPending := false }
  [.spawn 0, .spawnWithParent 1 prioNormal 1, .preempt quiet 0, .preempt quiet 1]

def childExits : List Event := parentAndChild ++ [.recordExit 1 7]

def parentReaps : List Event := [.tryReap 0 0, .tryReap 0 0]

theorem lifecycle_of_exit_and_reap :
    LifeCycle (childExits.foldl Log.apply .boot) (parentReaps.foldl Log.apply (childExits.foldl Log.apply .boot)) := by
  have exits : Lib.Execution (Lib.Guarded Log.next fun l e => e.SparesDead l) .boot childExits
      (childExits.foldl Log.apply .boot) := by
    repeat' apply Lib.Execution.step
    all_goals first
      | exact .refl
      | exact ⟨trivial, rfl⟩
      | refine ⟨fun t ht hd => ?_, rfl⟩
        cases ht
        cases hd
  have reaps : Lib.Execution (Lib.Guarded Log.next fun l e => e.SparesDead l) (childExits.foldl Log.apply .boot)
      parentReaps (parentReaps.foldl Log.apply (childExits.foldl Log.apply .boot)) :=
    .step ⟨trivial, rfl⟩ (.step ⟨trivial, rfl⟩ .refl)
  exact lifecycle_of_spares_dead exits reaps

theorem lifecycle_fails_after_kill : (∃ l l', Lib.Execution Log.next .boot (parentAndChild ++ [.kill 0 2]) l ∧
      Lib.Execution Log.next l [.sleepCurrent 1 5] l' ∧ ¬LifeCycle l l') ∧
    ∃ l l', Lib.Execution Log.next .boot (parentAndChild ++ [.kill 0 2, .tryReap 0 0]) l ∧
      Lib.Execution Log.next l [.recordExit 1 0, .tryReap 0 0] l' ∧
      l'.handed = [⟨1, 2, 0⟩, ⟨1, 2, 137⟩] ∧ ¬LifeCycle l l' := by
  refine ⟨⟨_, _, .of_foldl Log.apply .boot _, .of_foldl Log.apply _ _, fun h => ?_⟩,
    _, _, .of_foldl Log.apply .boot _, .of_foldl Log.apply _ _, rfl, fun h => ?_⟩
  · have ⟨t, ht, _, hd, _⟩ := h.dead (i := 1) rfl rfl
    cases ht
    cases hd
  · have : [2, 2].Nodup := h.once
    revert this
    decide

end Scheduler
