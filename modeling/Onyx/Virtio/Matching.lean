import Onyx.Virtio.Queue

-- Which answers are answers to one's own request.

open Lib List Bytes

namespace Virtio.Queue

-- Every call that returned Ok had its own bytes processed and got the answer to them.
def Matched (s : State) : Prop :=
  ∀ a ∈ s.returned, ∃ c ∈ s.completed, c.id = a.id ∧ c.bytes = a.cmd.bytes ∧ a.word = ofLe (c.resp.take 4)

-- A command is begun only when no call is under way and every completion is collected.
def Orderly (s : State) : Event → Prop
  | .cmdBegin _ _ => (∀ t, s.calls t = none) ∧ s.collected = s.published.length
  | _ => True

-- The device has nothing to do, and the driver has seen all it has done.
def Settled (s : State) : Prop := s.collected = s.published.length

-- The call's request is the only one that has no completion collected.
structure Pending (s : State) (call : Call) : Prop where
  built : s.request.take s.reqLen = call.cmd.bytes
  last : s.published.getLast? = some call.id
  count : s.published.length = s.collected + 1
  element : s.completed.length = s.published.length → ∃ resp,
    s.completed.getLast? = some ⟨call.id, call.cmd.bytes, resp⟩ ∧ s.element = (0, resp.length) ∧
      (4 ≤ resp.length → s.response.take 4 = resp.take 4)

-- What is known of the queue from where a call is.
def Knows (s : State) (call : Call) : Phase → Prop
  | .building rest => Settled s ∧ (rest.foldl writeField s.request).take (cmdLenFor call.cmd.ty) = call.cmd.bytes
  | .described => Settled s ∧ s.request.take s.reqLen = call.cmd.bytes
  | .polling _ => Pending s call
  | .looked _ => Pending s call
  | .arrived => Pending s call ∧ s.completed.length = s.published.length
  | .fetched => Settled s ∧ ∃ resp,
    s.completed.getLast? = some ⟨call.id, call.cmd.bytes, resp⟩ ∧ s.response.take 4 = resp.take 4

structure Counted (s : State) : Prop where
  cursor : s.cursor = UInt16.ofNat s.collected
  usedIdx : s.usedIdx = UInt16.ofNat s.completed.length
  collected : s.collected ≤ s.completed.length
  completed : s.completed.length ≤ s.published.length

-- At most one call is under way, and the queue is as that call expects it.
structure InOrder (s : State) : Prop where
  counted : Counted s
  matched : Matched s
  one : ∀ t t', s.calls t ≠ none → s.calls t' ≠ none → t = t'
  knows : ∀ t call, s.calls t = some call → Knows s call call.phase

variable {s : State} {call : Call} {id : Nat}

theorem inOrder_fresh : InOrder (fresh size now) where
  counted := ⟨rfl, rfl, le_refl _, le_refl _⟩
  matched := nofun
  one := fun _ _ h => absurd rfl h
  knows := nofun

theorem setCall_self : (s.setCall task o).calls task = o := if_pos rfl

theorem setCall_other (h : t' ≠ task) : (s.setCall task o).calls t' = s.calls t' := if_neg h

theorem Counted.setCall (h : Counted s) : Counted (s.setCall task o) := ⟨h.cursor, h.usedIdx, h.collected, h.completed⟩

theorem Counted.leave (h : Counted s) : Counted (s.leave task) := ⟨h.cursor, h.usedIdx, h.collected, h.completed⟩

theorem Pending.setPhase (h : Pending s call) : Pending (s.setPhase task call phase) { call with phase } :=
  ⟨h.built, h.last, h.count, h.element⟩

theorem Knows.setPhase (h : Knows s call phase) : Knows (s.setPhase task call phase) { call with phase } phase := by
  cases phase with
  | building rest => exact h
  | described => exact h
  | polling d => exact Pending.setPhase h
  | looked d => exact Pending.setPhase h
  | arrived => exact ⟨Pending.setPhase h.1, h.2⟩
  | fetched => exact h

theorem InOrder.goOn (h : InOrder s) (hc : s.calls task = some call) (hcalls : t.calls = s.calls) (hcounted : Counted t)
    (hmatched : Matched t) (hknows : Knows t call phase) : InOrder (t.setPhase task call phase) := by
  have hnone : ∀ t', t' ≠ task → (t.setPhase task call phase).calls t' = none := by
    intro t' hne
    rw [State.setPhase, setCall_other hne, hcalls]
    exact Classical.not_not.mp fun hsome => hne (h.one t' task hsome (by rw [hc]; nofun))
  have hself : (t.setPhase task call phase).calls task = some { call with phase } := setCall_self
  refine ⟨hcounted.setCall, hmatched, fun t1 t2 h1 h2 => ?_, fun t1 c h1 => ?_⟩
  · have ht1 : t1 = task := Classical.not_not.mp fun hne => h1 (hnone t1 hne)
    have ht2 : t2 = task := Classical.not_not.mp fun hne => h2 (hnone t2 hne)
    rw [ht1, ht2]
  · by_cases hne : t1 = task
    · rw [hne, hself] at h1
      cases h1
      exact hknows.setPhase
    · rw [hnone t1 hne] at h1
      cases h1

theorem InOrder.leave (h : InOrder s) (hc : s.calls task = some call) (hcalls : t.calls = s.calls) (hcounted : Counted t)
    (hmatched : Matched t) : InOrder (t.leave task) := by
  have hnone : ∀ t', (t.leave task).calls t' = none := by
    intro t'
    by_cases hne : t' = task
    · rw [hne]
      exact setCall_self
    refine (setCall_other hne).trans ?_
    rw [hcalls]
    exact Classical.not_not.mp fun hsome => hne (h.one t' task hsome (by rw [hc]; nofun))
  exact ⟨hcounted.leave, hmatched, fun t1 _ h1 => absurd (hnone t1) h1, fun t1 c h1 => by rw [hnone t1] at h1; cases h1⟩

theorem Counted.collect (h : Counted s) (hlt : s.collected < s.completed.length) : Counted s.collect where
  cursor := by
    rw [State.collect, h.cursor]
    exact (UInt16.ofNat_add ..).symm
  usedIdx := h.usedIdx
  collected := hlt
  completed := h.completed

theorem Counted.complete (h : Counted s) (hlt : s.completed.length < s.published.length) : Counted (s.complete id resp) where
  cursor := h.cursor
  usedIdx := by
    rw [State.complete, h.usedIdx, length_append]
    exact (UInt16.ofNat_add ..).symm
  collected := by
    rw [State.complete, length_append]
    exact Nat.le_succ_of_le h.collected
  completed := by
    rw [State.complete, length_append]
    exact hlt

theorem Matched.complete (h : Matched s) : Matched (s.complete id resp) := fun a ha =>
  have ⟨c, hc, hac⟩ := h a ha
  ⟨c, mem_append_left _ hc, hac⟩

theorem Matched.answer (h : Matched s) (hlast : s.completed.getLast? = some ⟨call.id, call.cmd.bytes, resp⟩)
    (hresp : s.response.take 4 = resp.take 4) : Matched (s.answer call) := by
  unfold State.answer
  split
  · intro a ha
    rcases mem_append.mp ha with ha | ha
    · exact h a ha
    · rw [mem_singleton.mp ha]
      exact ⟨_, mem_of_getLast? hlast, rfl, rfl, congrArg ofLe hresp⟩
  · exact h

theorem Pending.complete (h : Pending s call) (hc : Counted s) (hid : s.published[s.completed.length]? = some id) :
    Pending (s.complete id resp) call where
  built := h.built
  last := h.last
  count := h.count
  element := by
    intro _
    have hlt : s.completed.length < s.published.length := (List.getElem?_eq_some_iff.mp hid).1
    have hsame : s.completed.length = s.collected := by
      have := hc.collected
      have := h.count
      omega
    have hown : id = call.id := by
      have hlast := h.last
      rw [getLast?_eq_getElem?, h.count, Nat.add_sub_cancel, ← hsame, hid] at hlast
      exact Option.some.inj hlast
    refine ⟨resp, ?_, ?_, fun hlen => ?_⟩
    · rw [State.complete, getLast?_append, getLast?_singleton, hown, h.built]
      rfl
    · rw [State.element, State.complete]
      dsimp only
      rw [if_pos (by rw [hc.cursor, hc.usedIdx, hsame])]
    · rw [State.complete, overwrite]
      simp [take_append_of_le_length hlen]

theorem InOrder.cmdBegin (h : InOrder s) (hcalls : ∀ t, s.calls t = none) (hsettled : Settled s) :
    InOrder (s.cmdBegin task cmd) := by
  have hnone : ∀ t', t' ≠ task → (s.cmdBegin task cmd).calls t' = none :=
    fun t' hne => (setCall_other hne).trans (hcalls t')
  have hcounted := h.counted
  refine ⟨⟨hcounted.cursor, hcounted.usedIdx, hcounted.collected, hcounted.completed⟩, h.matched, fun t1 t2 h1 h2 => ?_,
    fun t1 c h1 => ?_⟩
  · have ht1 : t1 = task := Classical.not_not.mp fun hne => h1 (hnone t1 hne)
    have ht2 : t2 = task := Classical.not_not.mp fun hne => h2 (hnone t2 hne)
    rw [ht1, ht2]
  · by_cases hne : t1 = task
    · rw [hne] at h1
      cases setCall_self.symm.trans h1
      exact ⟨hsettled, rfl⟩
    · rw [hnone t1 hne] at h1
      cases h1

theorem InOrder.callStep (h : InOrder s) (hc : s.calls task = some call) (hphase : Knows s call phase)
    (hs : CallStep s task call phase event t) : InOrder t := by
  have hcounted := h.counted
  cases hs with
  | build => exact h.goOn hc rfl ⟨hcounted.cursor, hcounted.usedIdx, hcounted.collected, hcounted.completed⟩ h.matched hphase
  | describe _ => exact h.goOn hc rfl ⟨hcounted.cursor, hcounted.usedIdx, hcounted.collected, hcounted.completed⟩ h.matched hphase
  | publish =>
    obtain ⟨hsettled, hbuilt⟩ := hphase
    have hlen : (s.publish call.id).published.length = s.collected + 1 := by
      rw [State.publish, length_append, hsettled]
      rfl
    refine h.goOn hc rfl ⟨hcounted.cursor, hcounted.usedIdx, hcounted.collected, ?_⟩ h.matched ⟨hbuilt, ?_, hlen, fun heq => ?_⟩
    · rw [hlen, hsettled]
      exact Nat.le_succ_of_le hcounted.completed
    · exact getLast?_concat
    · have := hcounted.completed
      have hlen' : s.completed.length = s.collected + 1 := heq.trans hlen
      rw [Settled] at hsettled
      omega
  | arrived hne =>
    have hpending : Pending s call := hphase
    refine h.goOn hc rfl hcounted h.matched ⟨hpending, ?_⟩
    have hdiff : s.completed.length ≠ s.collected := fun heq => hne (by rw [hcounted.cursor, hcounted.usedIdx, heq])
    have := hcounted.collected
    have := hcounted.completed
    have := hpending.count
    omega
  | nothing _ => exact h.goOn hc rfl hcounted h.matched hphase
  | timeout _ => exact h.leave hc rfl hcounted h.matched
  | again _ => exact h.goOn hc rfl hcounted h.matched hphase
  | refused _ =>
    have hlt : s.collected < s.completed.length := by
      rw [hphase.2, hphase.1.count]
      exact Nat.lt_succ_self _
    exact h.leave hc rfl (hcounted.collect hlt) h.matched
  | collect hid hl =>
    obtain ⟨hpending, hdone⟩ := hphase
    obtain ⟨resp, hlast, helem, hresp⟩ := hpending.element hdone
    have hlt : s.collected < s.completed.length := by
      rw [hdone, hpending.count]
      exact Nat.lt_succ_self _
    rw [helem] at hl
    exact h.goOn hc rfl (hcounted.collect hlt) h.matched ⟨hpending.count.symm, resp, hlast, hresp hl⟩
  | finish =>
    obtain ⟨_, resp, hlast, hresp⟩ := hphase
    have hcalls : (s.answer call).calls = s.calls := by
      unfold State.answer
      split <;> rfl
    have hsame : Counted (s.answer call) := by
      unfold State.answer
      split
      · exact ⟨hcounted.cursor, hcounted.usedIdx, hcounted.collected, hcounted.completed⟩
      · exact hcounted
    exact h.leave hc hcalls hsame (h.matched.answer hlast hresp)

theorem InOrder.complete (h : InOrder s) (hid : s.published[s.completed.length]? = some id) : InOrder (s.complete id resp) := by
  have hlt : s.completed.length < s.published.length := (List.getElem?_eq_some_iff.mp hid).1
  have hcounted := h.counted
  refine ⟨hcounted.complete hlt, h.matched.complete, h.one, fun t call hc => ?_⟩
  have hknows := h.knows t call hc
  -- A call that has nothing pending leaves the device nothing to complete.
  have hunsettled : ¬Settled s := by
    have := hcounted.collected
    unfold Settled
    omega
  revert hknows
  cases call.phase with
  | building rest => exact fun hk => absurd hk.1 hunsettled
  | described => exact fun hk => absurd hk.1 hunsettled
  | polling d => exact fun hk => Pending.complete hk hcounted hid
  | looked d => exact fun hk => Pending.complete hk hcounted hid
  | arrived => exact fun hk => absurd hk.2 (ne_of_lt hlt)
  | fetched => exact fun hk => absurd hk.1 hunsettled

theorem InOrder.step (h : InOrder s) (hs : Guarded Step Orderly s event t) : InOrder t := by
  obtain ⟨hgood, hstep⟩ := hs
  cases hstep with
  | cmdBegin _ _ => exact h.cmdBegin hgood.1 hgood.2
  | call hc hs => exact h.callStep hc (h.knows _ _ hc) hs
  | complete hid _ => exact h.complete hid
  | tick =>
    have hcounted := h.counted
    refine ⟨⟨hcounted.cursor, hcounted.usedIdx, hcounted.collected, hcounted.completed⟩, h.matched, h.one, fun t call hc => ?_⟩
    have hknows := h.knows t call hc
    revert hknows
    cases call.phase with
    | building rest => exact id
    | described => exact id
    | polling d => exact fun hk => ⟨hk.built, hk.last, hk.count, hk.element⟩
    | looked d => exact fun hk => ⟨hk.built, hk.last, hk.count, hk.element⟩
    | arrived => exact fun hk => ⟨⟨hk.1.built, hk.1.last, hk.1.count, hk.1.element⟩, hk.2⟩
    | fetched => exact id

-- RESOURCE_FLUSH of a rectangle of resource 1, as `flush_rect` builds it.
def flushRect (x y w h : Nat) : Command where
  ty := 0x0104
  writes := [(24, toLe 4 x), (28, toLe 4 y), (32, toLe 4 w), (36, toLe 4 h), (40, toLe 4 1),
    (44, toLe 4 0)]
  inside := by
    intro w hw
    simp only [mem_cons, not_mem_nil, or_false] at hw
    rcases hw with rfl | rfl | rfl | rfl | rfl | rfl <;> simp [length_toLe, cmdBufLen]

def respOk : Bytes := toLe 4 gpuRespOk

def sends (task : Nat) (cmd : Command) : List Event :=
  .cmdBegin task cmd :: (cmd.writes.map (fun _ => .build task) ++ [.describe task, .publish task])

theorem Step.own (task : Nat) (hc : s.calls task = some call) (hs : CallStep s task call call.phase event t) :
    Step s event t := .call hc hs

theorem matched_of_orderly (e : Execution (Guarded Step Orderly) (fresh size now) events t) : Matched t :=
  (e.invariant (fun hs h => InOrder.step h hs) inOrder_fresh).matched

-- The device answers two tasks in time, the second one at its second look.
def promptTrace : List Event :=
  sends 0 (flushRect 0 0 8 8) ++ [.complete respOk, .look 0, .collect 0, .finish 0] ++
    sends 1 (flushRect 8 8 8 8) ++
    [.look 1, .tick 3, .checkDeadline 1, .complete respOk, .look 1, .collect 1, .finish 1]

theorem matched_promptTrace : ∃ t, Execution (Guarded Step Orderly) (fresh 64 0) promptTrace t ∧
    t.returned.map Answer.id = [0, 1] ∧ Matched t := by
  suffices h : ∃ t, Execution (Guarded Step Orderly) (fresh 64 0) promptTrace t ∧ t.returned.map Answer.id = [0, 1] from
    have ⟨t, hrun, hret⟩ := h
    ⟨t, hrun, hret, matched_of_orderly hrun⟩
  apply Exists.intro
  apply And.intro
  · apply Execution.step ⟨⟨fun _ => rfl, rfl⟩, .cmdBegin rfl rfl⟩
    iterate 6 apply Execution.step ⟨trivial, .own 0 rfl .build⟩
    apply Execution.step ⟨trivial, .own 0 rfl (.describe rfl)⟩
    apply Execution.step ⟨trivial, .own 0 rfl .publish⟩
    apply Execution.step ⟨trivial, .complete (show _ = some 0 from rfl) (by decide)⟩
    apply Execution.step ⟨trivial, .own 0 rfl (.arrived (by decide))⟩
    apply Execution.step ⟨trivial, .own 0 rfl (.collect rfl (by decide))⟩
    apply Execution.step ⟨trivial, .own 0 rfl .finish⟩
    apply Execution.step ⟨⟨fun | 0 => rfl | _ + 1 => rfl, rfl⟩, .cmdBegin rfl rfl⟩
    iterate 6 apply Execution.step ⟨trivial, .own 1 rfl .build⟩
    apply Execution.step ⟨trivial, .own 1 rfl (.describe rfl)⟩
    apply Execution.step ⟨trivial, .own 1 rfl .publish⟩
    apply Execution.step ⟨trivial, .own 1 rfl (.nothing rfl)⟩
    apply Execution.step ⟨trivial, .tick⟩
    apply Execution.step ⟨trivial, .own 1 rfl (.again (by decide))⟩
    apply Execution.step ⟨trivial, .complete (show _ = some 1 from rfl) (by decide)⟩
    apply Execution.step ⟨trivial, .own 1 rfl (.arrived (by decide))⟩
    apply Execution.step ⟨trivial, .own 1 rfl (.collect rfl (by decide))⟩
    apply Execution.step ⟨trivial, .own 1 rfl .finish⟩
    exact .refl
  · rfl

-- The second call takes the late completion of the first, timed-out one for its own.
def lateTrace : List Event :=
  sends 0 (flushRect 0 0 8 8) ++ [.tick 500, .look 0, .checkDeadline 0, .complete respOk] ++
    sends 0 (flushRect 8 8 8 8) ++ [.look 0, .collect 0, .finish 0]

theorem unmatched_after_timeout : ∃ t, Execution Step (fresh 64 0) lateTrace t ∧ ¬Matched t := by
  apply Exists.intro
  apply And.intro
  · apply Execution.step (.cmdBegin rfl rfl)
    iterate 6 apply Execution.step (.own 0 rfl .build)
    apply Execution.step (.own 0 rfl (.describe rfl))
    apply Execution.step (.own 0 rfl .publish)
    apply Execution.step .tick
    apply Execution.step (.own 0 rfl (.nothing rfl))
    apply Execution.step (.own 0 rfl (.timeout (le_refl _)))
    apply Execution.step (.complete (show _ = some 0 from rfl) (by decide))
    apply Execution.step (.cmdBegin rfl rfl)
    iterate 6 apply Execution.step (.own 0 rfl .build)
    apply Execution.step (.own 0 rfl (.describe rfl))
    apply Execution.step (.own 0 rfl .publish)
    apply Execution.step (.own 0 rfl (.arrived (by decide)))
    apply Execution.step (.own 0 rfl (.collect rfl (by decide)))
    apply Execution.step (.own 0 rfl .finish)
    exact .refl
  · intro hm
    obtain ⟨c, hc, hid, _⟩ := hm ⟨1, flushRect 8 8 8 8, gpuRespOk⟩ (mem_singleton.mpr rfl)
    rw [mem_singleton.mp hc] at hid
    cases hid

end Virtio.Queue
