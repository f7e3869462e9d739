import Onyx.Syscall.Descriptors

-- `writev` against the rule that its answer counts the bytes output.

open Lib List

namespace Syscall

open Userspace (Space)
open Errno

variable {φ : Type} {env : Env φ} {k k' : Kernel φ} {sp : Space}

-- All that was output so far; a failed file write may have written some of its buffer.
structure Outlet (env : Env φ) where
  out : φ → Bytes
  serial : ∀ {buf s}, (env.serialWrite buf s).1 = buf.length ∧ out (env.serialWrite buf s).2 = out s ++ buf
  console : ∀ {buf s}, out (env.consoleBytes buf s) = out s
  stored : ∀ {path off buf s n}, (env.vfs.writeAt path off buf s).1 = .ok n →
    n = buf.length ∧ out (env.vfs.writeAt path off buf s).2 = out s ++ buf
  refused : ∀ {path off buf s e}, (env.vfs.writeAt path off buf s).1 = .error e → out s <+: out (env.vfs.writeAt path off buf s).2

structure Vec where
  addr : Nat
  base : Nat
  len : Nat

def vecAt (sp : Space) (iovs i : Nat) : Vec where
  addr := iovec iovs i
  base := Bytes.ofLe (bytesOf sp (iovec iovs i) 8)
  len := Bytes.ofLe (bytesOf sp (iovec iovs i + 8) 8)

def vecs (sp : Space) (iovs i n : Nat) : List Vec := (List.range' i n).map (vecAt sp iovs)

def chunk (sp : Space) (v : Vec) : Bytes := bytesOf sp v.base (min v.len 4096)

-- Nothing is written for an empty vector.
def chunks (sp : Space) (vs : List Vec) : List Bytes := (vs.filter (·.len ≠ 0)).map (chunk sp)

def concat (sp : Space) (vs : List Vec) : Bytes := vs.flatMap fun v => bytesOf sp v.base v.len

def PrefixLaw (o : Outlet env) (k : Kernel φ) (fd iovs cnt : Nat) : Prop :=
  ∀ n k', (linuxWritev env fd iovs cnt).run k = (.ok n, k') →
    (n < 2 ^ 63 → o.out k'.rest = o.out k.rest ++ (concat k.space (vecs k.space iovs 0 cnt)).take n) ∧
    (2 ^ 63 ≤ n → o.out k'.rest = o.out k.rest)

-- The record and the part of the buffer that is read are in the caller's memory.
structure Vec.Readable (sp : Space) (v : Vec) : Prop where
  record : UserBuf sp v.addr 16 false
  buffer : v.len ≠ 0 → UserBuf sp v.base (min v.len 4096) false

-- The file takes the writes, one after the other.
def storesAll (env : Env φ) : FdEntry → φ → List Bytes → Prop
  | _, _, [] => True
  | e, s, d :: ds => (∃ n, (env.vfs.writeAt e.name e.pos d s).1 = .ok n) ∧
      storesAll env (e.moved d.length) (env.vfs.writeAt e.name e.pos d s).2 ds

def TakesAll (env : Env φ) (k : Kernel φ) (fd : Nat) (ds : List Bytes) : Prop :=
  ds = [] ∨ fd = 1 ∨ fd = 2 ∨ 3 ≤ fd ∧ ∃ e, k.slot k.pid fd = some e ∧ storesAll env e k.rest ds

-- A vector of which nothing is output.
def Refuses (o : Outlet env) (k : Kernel φ) (fd : Nat) (v : Vec) : Prop :=
  ¬UserBuf k.space v.base (min v.len 4096) false ∨ fd = 0 ∨
    3 ≤ fd ∧ ∀ e, k.slot k.pid fd = some e → ∃ f, (env.vfs.writeAt e.name e.pos (chunk k.space v) k.rest).1 = .error f ∧
      o.out (env.vfs.writeAt e.name e.pos (chunk k.space v) k.rest).2 = o.out k.rest

-- The first vector that is not empty cannot be written.
def FailsFirst (o : Outlet env) (k : Kernel φ) (fd : Nat) : List Vec → Prop
  | [] => False
  | v :: vs => UserBuf k.space v.addr 16 false → if v.len = 0 then FailsFirst o k fd vs else Refuses o k fd v

section write

theorem checkBuf_good (h : UserBuf k.space ptr len write) : (checkBuf ptr len write bad good).run k = good.run k := by
  rw [checkBuf, read_bind_run, userBufOk_eq, decide_eq_true (.inr h)]
  rfl

theorem checkBuf_bad (hlen : len ≠ 0) (h : ¬UserBuf k.space ptr len write) :
    (checkBuf ptr len write bad good).run k = bad.run k := by
  rw [checkBuf, read_bind_run, userBufOk_eq, decide_eq_false (not_or.mpr ⟨hlen, h⟩)]
  rfl

theorem length_chunk : (chunk sp v).length = min v.len 4096 := by
  rw [chunk, bytesOf, length_map, length_range]

theorem takesAll_nil : TakesAll env k fd [] := .inl rfl

-- What a write leaves as it is.
structure Untouched (k k' : Kernel φ) : Prop where
  space : k'.space = k.space
  pid : k'.pid = k.pid

-- A write that succeeds has output what it was given, and leaves the descriptor behind it.
structure Sent (o : Outlet env) (fd : Nat) (d : Bytes) (k k' : Kernel φ) : Prop where
  same : Untouched k k'
  out : o.out k'.rest = o.out k.rest ++ d
  rest : ∀ ds, TakesAll env k fd (d :: ds) ↔ TakesAll env k' fd ds

theorem sysWrite_console (o : Outlet env) (hfd : fd = 1 ∨ fd = 2) (hlen : v.len ≠ 0) (hbuf : UserBuf k.space v.base (min v.len 4096) false) :
    ∃ k', (sysWrite env fd v.base v.len).run k = (.ok (chunk k.space v).length, k') ∧ Sent o fd (chunk k.space v) k k' := by
  rw [sysWrite, if_neg hlen, checkBuf_good hbuf, if_pos hfd, bind_run_ok (loadUser_run hbuf)]
  obtain ⟨hn, hout⟩ := @Outlet.serial _ _ o (chunk k.space v) k.rest
  have hcall : (callOut (env.serialWrite (chunk k.space v))).run (k.touch false v.base (min v.len 4096)) =
      (.ok (chunk k.space v).length, { k.touch false v.base (min v.len 4096) with rest := (env.serialWrite (chunk k.space v) k.rest).2 }) :=
    Prod.ext (congrArg Except.ok hn) rfl
  refine ⟨_, (bind_run_ok hcall).trans rfl, ⟨rfl, rfl⟩, ?_, fun ds => ?_⟩
  · exact o.console.trans hout
  · have htakes : ∀ {k : Kernel φ} {ds}, TakesAll env k fd ds := .inr (hfd.imp_right .inl)
    exact iff_of_true htakes htakes

section file

variable {d : Bytes}

theorem fdWriteAt_open (env : Env φ) (d : Bytes) (he : k.entry fd = some e) : ∃ k1 : Kernel φ, k1.entry fd = some e ∧ k1.space = k.space ∧ k1.pid = k.pid ∧
    k1.rest = (env.vfs.writeAt e.name e.pos d k.rest).2 ∧ (fdWriteAt env fd d).run k =
      (match (env.vfs.writeAt e.name e.pos d k.rest).1 with
        | .ok n => advance fd n >>= fun _ => pure n
        | .error _ => pure (err eio) : SysM φ Nat).run k1 := by
  refine ⟨{ k with fds := setFdTable k.pid (fdTable k.pid k.fds) k.fds, rest := (env.vfs.writeAt e.name e.pos d k.rest).2 },
    ?_, rfl, rfl, rfl, ?_⟩
  · rw [Kernel.entry, fdTable_setFdTable]
    exact he
  · rw [fdWriteAt, bind_run_ok fdEntry_run, he]
    rfl

theorem fdWriteAt_stored (he : k.entry fd = some e) (hok : (env.vfs.writeAt e.name e.pos d k.rest).1 = .ok n) :
    ∃ k', (fdWriteAt env fd d).run k = (.ok n, k') ∧ k'.slot k.pid fd = some (e.moved n) ∧ k'.space = k.space ∧ k'.pid = k.pid ∧
      k'.rest = (env.vfs.writeAt e.name e.pos d k.rest).2 := by
  have ⟨k1, he1, hspace, hpid, hrest, hrun⟩ := fdWriteAt_open env d he
  have ⟨k', hadv, hslot, hspace', hrest', hpid'⟩ := advance_run he1 (env.vfs.written hok).2
  refine ⟨k', ?_, hpid ▸ hslot, hspace'.trans hspace, hpid'.trans hpid, hrest'.trans hrest⟩
  rw [hrun, hok]
  exact bind_run_ok hadv

theorem fdWriteAt_refused (he : k.entry fd = some e) (herr : (env.vfs.writeAt e.name e.pos d k.rest).1 = .error f) :
    ∃ k', (fdWriteAt env fd d).run k = (.ok (err eio), k') ∧ k'.rest = (env.vfs.writeAt e.name e.pos d k.rest).2 := by
  have ⟨k1, _, _, _, hrest, hrun⟩ := fdWriteAt_open env d he
  refine ⟨k1, ?_, hrest⟩
  rw [hrun, herr]
  rfl

theorem fdWriteAt_closed (env : Env φ) (d : Bytes) (he : k.entry fd = none) : ∃ k', (fdWriteAt env fd d).run k = (.ok (err ebadf), k') ∧ k'.rest = k.rest := by
  rw [fdWriteAt, bind_run_ok fdEntry_run, he]
  exact ⟨_, rfl, rfl⟩

end file

theorem sysWrite_file (hfd : 3 ≤ fd) (hlen : v.len ≠ 0) (hbuf : UserBuf k.space v.base (min v.len 4096) false) :
    (sysWrite env fd v.base v.len).run k = (fdWriteAt env fd (chunk k.space v)).run (k.touch false v.base (min v.len 4096)) := by
  rw [sysWrite, if_neg hlen, checkBuf_good hbuf, if_neg (by omega), if_pos hfd, bind_run_ok (loadUser_run hbuf)]
  rfl

theorem takesAll_file (hfd : 3 ≤ fd) (he : k.slot k.pid fd = some e) : TakesAll env k fd ds ↔ storesAll env e k.rest ds := by
  constructor
  · rintro (rfl | h | h | ⟨_, e', he', h⟩)
    · trivial
    · omega
    · omega
    · cases he.symm.trans he'
      exact h
  · exact fun h => .inr (.inr (.inr ⟨hfd, e, he, h⟩))

theorem sysWrite_stored (o : Outlet env) (hfd : 3 ≤ fd) (hlen : v.len ≠ 0) (hbuf : UserBuf k.space v.base (min v.len 4096) false)
    (he : k.slot k.pid fd = some e) (hok : (env.vfs.writeAt e.name e.pos (chunk k.space v) k.rest).1 = .ok n) :
    ∃ k', (sysWrite env fd v.base v.len).run k = (.ok (chunk k.space v).length, k') ∧ Sent o fd (chunk k.space v) k k' := by
  have he1 : (k.touch false v.base (min v.len 4096)).entry fd = some e := he
  have ⟨k', hrun, hslot, hspace, hpid, hrest⟩ := fdWriteAt_stored he1 hok
  obtain ⟨rfl, hout⟩ := o.stored hok
  refine ⟨k', (sysWrite_file hfd hlen hbuf).trans hrun, ⟨hspace, hpid⟩, (congrArg o.out hrest).trans hout, fun ds => ?_⟩
  have hslot' : k'.slot k'.pid fd = some (e.moved (chunk k.space v).length) := hpid ▸ hslot
  rw [takesAll_file hfd he, takesAll_file hfd hslot', hrest]
  exact and_iff_right ⟨_, hok⟩

theorem sysWrite_refused (o : Outlet env) (hlen : v.len ≠ 0)
    (h : ¬(UserBuf k.space v.base (min v.len 4096) false ∧ TakesAll env k fd [chunk k.space v])) :
    ∃ n k', (sysWrite env fd v.base v.len).run k = (.ok n, k') ∧ 2 ^ 63 ≤ n ∧ o.out k.rest <+: o.out k'.rest ∧
      (o.out k'.rest = o.out k.rest ↔ Refuses o k fd v) := by
  by_cases hbuf : UserBuf k.space v.base (min v.len 4096) false
  swap
  · refine ⟨err efault, k, ?_, err_ge (by decide), prefix_rfl, iff_of_true rfl (.inl hbuf)⟩
    unfold sysWrite
    rw [if_neg hlen, checkBuf_bad (by omega) hbuf]
    rfl
  have htakes := fun ht => h ⟨hbuf, ht⟩
  by_cases hfd : 3 ≤ fd
  swap
  · -- the console takes every write
    have hzero : fd = 0 := by
      by_contra h0
      exact htakes (.inr (by omega))
    refine ⟨err ebadf, k, ?_, err_ge (by decide), prefix_rfl, iff_of_true rfl (.inr (.inl hzero))⟩
    unfold sysWrite
    rw [if_neg hlen, checkBuf_good hbuf, if_neg (by omega), if_neg hfd]
    rfl
  rw [sysWrite_file hfd hlen hbuf]
  match he : k.slot k.pid fd with
  | none =>
    obtain ⟨k', hrun, hrest⟩ := fdWriteAt_closed env (chunk k.space v)
      (show (k.touch false v.base (min v.len 4096)).entry fd = none from he)
    have hout : o.out k'.rest = o.out k.rest := congrArg o.out hrest
    refine ⟨_, k', hrun, err_ge (by decide), hout ▸ prefix_rfl, iff_of_true hout (.inr (.inr ⟨hfd, fun e he' => ?_⟩))⟩
    cases he.symm.trans he'
  | some e =>
    match hw : (env.vfs.writeAt e.name e.pos (chunk k.space v) k.rest).1 with
    | .ok n =>
      have hstores : storesAll env e k.rest [chunk k.space v] := ⟨⟨n, hw⟩, trivial⟩
      exact absurd ((takesAll_file hfd he).mpr hstores) htakes
    | .error f =>
      obtain ⟨k', hrun, hrest⟩ := fdWriteAt_refused (show (k.touch false v.base (min v.len 4096)).entry fd = some e from he) hw
      have hout : o.out k'.rest = o.out (env.vfs.writeAt e.name e.pos (chunk k.space v) k.rest).2 := congrArg o.out hrest
      refine ⟨_, k', hrun, err_ge (by decide), hout ▸ o.refused hw, ?_⟩
      rw [hout]
      constructor
      · intro h
        refine .inr (.inr ⟨hfd, fun e' he' => ?_⟩)
        cases he.symm.trans he'
        exact ⟨f, hw, h⟩
      · rintro (hbad | h0 | ⟨_, h⟩)
        · exact absurd hbuf hbad
        · omega
        · obtain ⟨_, _, h⟩ := h e he
          exact h

theorem sysWrite_sent (o : Outlet env) (hlen : v.len ≠ 0) (hbuf : UserBuf k.space v.base (min v.len 4096) false)
    (h : TakesAll env k fd [chunk k.space v]) :
    ∃ k', (sysWrite env fd v.base v.len).run k = (.ok (chunk k.space v).length, k') ∧ Sent o fd (chunk k.space v) k k' := by
  obtain h | h | h | ⟨hfd, e, he, ⟨n, hok⟩, _⟩ := h
  · cases h
  · exact sysWrite_console o (.inl h) hlen hbuf
  · exact sysWrite_console o (.inr h) hlen hbuf
  · exact sysWrite_stored o hfd hlen hbuf he hok

end write

section loop

theorem chunks_cons_of_zero (h : v.len = 0) : chunks sp (v :: vs) = chunks sp vs := by
  rw [chunks, filter_cons_of_neg (by simp [h]), chunks]

theorem chunks_cons (h : v.len ≠ 0) : chunks sp (v :: vs) = chunk sp v :: chunks sp vs := by
  rw [chunks, filter_cons_of_pos (by simp [h]), map_cons, chunks]

theorem vecs_succ : vecs sp iovs i (left + 1) = vecAt sp iovs i :: vecs sp iovs (i + 1) left := rfl

def writeVec (env : Env φ) (fd : Nat) (next : Nat → SysM φ Nat) (total : Nat) (v : Vec) : SysM φ Nat :=
  if v.len = 0 then next total
  else do
    let r ← sysWrite env fd v.base v.len
    if 2 ^ 63 ≤ r then pure r
    else do
      let sum ← Prog.lift (checked 64 (total + r))
      next sum

theorem writevLoop_succ (ha : iovs % 8 = 0) (hrec : UserBuf k.space (iovec iovs i) 16 false) :
    (writevLoop env fd iovs (left + 1) i total).run k =
      (writeVec env fd (writevLoop env fd iovs left (i + 1)) total (vecAt k.space iovs i)).run
        ((k.touch false (iovec iovs i) 8).touch false (iovec iovs i + 8) 8) := by
  have halign := iovec_aligned ha hrec
  have hsecond : UserBuf (k.touch false (iovec iovs i) 8).space (iovec iovs i + 8) 8 false := hrec.sub (by decide)
  have hbase : (readVolatile 8 (iovec iovs i)).run k = (.ok (vecAt k.space iovs i).base, k.touch false (iovec iovs i) 8) :=
    readVolatile_value (hrec.take (by decide)) halign
  have hlen : (readVolatile 8 (iovec iovs i + 8)).run (k.touch false (iovec iovs i) 8) = (.ok (vecAt k.space iovs i).len, _) :=
    readVolatile_value hsecond (by omega)
  rw [writevLoop, checkBuf_good hrec, bind_run_ok hbase, bind_run_ok hlen, writeVec]

theorem takesAll_head (h : TakesAll env k fd (d :: ds)) : TakesAll env k fd [d] := by
  obtain h | h | h | ⟨hfd, e, he, h, _⟩ := h
  · cases h
  · exact .inr (.inl h)
  · exact .inr (.inr (.inl h))
  · exact .inr (.inr (.inr ⟨hfd, e, he, h, trivial⟩))

theorem not_refuses (o : Outlet env) (hbuf : UserBuf k.space v.base (min v.len 4096) false)
    (h : TakesAll env k fd [chunk k.space v]) : ¬Refuses o k fd v := by
  rintro (hbad | h0 | ⟨hfd, hr⟩)
  · exact hbad hbuf
  · obtain h | h | h | ⟨hfd, _⟩ := h
    · cases h
    all_goals omega
  · obtain h | h | h | ⟨_, e, he, ⟨n, hok⟩, _⟩ := h
    · cases h
    · omega
    · omega
    · have ⟨f, herr, _⟩ := hr e he
      cases hok.symm.trans herr

theorem failsFirst_touch (o : Outlet env) : FailsFirst o (k.touch write a n) fd vs ↔ FailsFirst o k fd vs := by
  induction vs with
  | nil => exact Iff.rfl
  | cons v vs hi =>
    unfold FailsFirst
    by_cases hlen : v.len = 0
    · rw [if_pos hlen, if_pos hlen, hi]
      exact Iff.rfl
    · rw [if_neg hlen, if_neg hlen]
      exact Iff.rfl

def Goes (env : Env φ) (k : Kernel φ) (fd : Nat) (vs : List Vec) : Prop :=
  (∀ v ∈ vs, v.Readable k.space) ∧ TakesAll env k fd (chunks k.space vs)

structure Ending (o : Outlet env) (k : Kernel φ) (fd total : Nat) (vs : List Vec) (n : Nat) (k' : Kernel φ) : Prop where
  whole : Goes env k fd vs → n = total + (chunks k.space vs).flatten.length ∧ o.out k'.rest = o.out k.rest ++ (chunks k.space vs).flatten
  part : ¬Goes env k fd vs → 2 ^ 63 ≤ n ∧ o.out k.rest <+: o.out k'.rest ∧ (o.out k'.rest = o.out k.rest ↔ FailsFirst o k fd vs)

theorem Ending.skip {o : Outlet env} (hrec : UserBuf k.space v.addr 16 false) (hlen : v.len = 0) (h : Ending o k fd total vs n k') :
    Ending o k fd total (v :: vs) n k' := by
  have hgoes : Goes env k fd (v :: vs) ↔ Goes env k fd vs := by
    unfold Goes
    rw [chunks_cons_of_zero hlen, forall_mem_cons]
    have hread : v.Readable k.space := ⟨hrec, fun h => absurd hlen h⟩
    rw [and_iff_right hread]
  constructor
  · rw [hgoes, chunks_cons_of_zero hlen]
    exact h.whole
  · rw [hgoes, FailsFirst, forall_prop_of_true hrec, if_pos hlen]
    exact h.part

theorem Ending.send {o : Outlet env} (hrec : UserBuf k.space v.addr 16 false) (hlen : v.len ≠ 0)
    (hbuf : UserBuf k.space v.base (min v.len 4096) false) (htake : TakesAll env k fd [chunk k.space v])
    (hs : Sent o fd (chunk k.space v) k k1) (h : Ending o k1 fd (total + (chunk k.space v).length) vs n k') :
    Ending o k fd total (v :: vs) n k' := by
  have hgoes : Goes env k fd (v :: vs) ↔ Goes env k1 fd vs := by
    unfold Goes
    rw [chunks_cons hlen, forall_mem_cons, hs.rest, hs.same.space]
    have hread : v.Readable k.space := ⟨hrec, fun _ => hbuf⟩
    rw [and_iff_right hread]
  constructor
  · intro hg
    have ⟨hn, hout⟩ := h.whole (hgoes.mp hg)
    rw [hs.same.space] at hn hout
    rw [chunks_cons hlen, flatten_cons, length_append, ← append_assoc, ← hs.out]
    exact ⟨by omega, hout⟩
  · intro hg
    have ⟨hn, hout, _⟩ := h.part (mt hgoes.mpr hg)
    rw [hs.out] at hout
    refine ⟨hn, (prefix_append _ _).trans hout, ?_⟩
    rw [FailsFirst, forall_prop_of_true hrec, if_neg hlen, iff_false_right (not_refuses o hbuf htake)]
    intro heq
    have := hout.length_le
    rw [heq, length_append, length_chunk] at this
    omega

theorem Ending.unreadable (h : ¬UserBuf k.space v.addr 16 false) : Ending o k fd total (v :: vs) (err efault) k where
  whole hg := absurd (hg.1 v (.head _)).record h
  part _ := by
    refine ⟨err_ge (by decide), prefix_rfl, iff_of_true rfl ?_⟩
    rw [FailsFirst]
    exact fun hrec => absurd hrec h

theorem Ending.touched (h : Ending o (k.touch write a m) fd total vs n k') : Ending o k fd total vs n k' where
  whole := h.whole
  part := by
    rw [← failsFirst_touch o]
    exact h.part

theorem writeVec_ending (o : Outlet env) {next : Nat → SysM φ Nat} (hrec : UserBuf k.space v.addr 16 false) (htotal : total + 4096 < 2 ^ 64)
    (hnext : ∀ sum k1, sum ≤ total + 4096 → k1.space = k.space → ∃ n k', (next sum).run k1 = (.ok n, k') ∧ Ending o k1 fd sum vs n k') :
    ∃ n k', (writeVec env fd next total v).run k = (.ok n, k') ∧ Ending o k fd total (v :: vs) n k' := by
  unfold writeVec
  by_cases hlen : v.len = 0
  · rw [if_pos hlen]
    have ⟨n, k', hrun, he⟩ := hnext total k (by omega) rfl
    exact ⟨n, k', hrun, he.skip hrec hlen⟩
  rw [if_neg hlen]
  by_cases hgood : UserBuf k.space v.base (min v.len 4096) false ∧ TakesAll env k fd [chunk k.space v]
  · have ⟨hbuf, htake⟩ := hgood
    have ⟨k1, hwrite, hs⟩ := sysWrite_sent o hlen hbuf htake
    have hle : (chunk k.space v).length ≤ 4096 := by
      rw [length_chunk]
      omega
    have ⟨n, k', hrun, he⟩ := hnext (total + (chunk k.space v).length) k1 (by omega) hs.same.space
    refine ⟨n, k', ?_, he.send hrec hlen hbuf htake hs⟩
    rw [bind_run_ok hwrite, if_neg (by omega), checked_of_lt (by omega), lift_ok_bind_run]
    exact hrun
  · have ⟨n, k', hrun, hn, hout, hiff⟩ := sysWrite_refused o hlen hgood
    refine ⟨n, k', ?_, fun hg => absurd ?_ hgood, fun _ => ⟨hn, hout, ?_⟩⟩
    · rw [bind_run_ok hrun, if_pos hn]
      rfl
    · have htake := hg.2
      rw [chunks_cons hlen] at htake
      exact ⟨(hg.1 v (.head _)).buffer hlen, takesAll_head htake⟩
    · rw [hiff, FailsFirst, forall_prop_of_true hrec, if_neg hlen]

theorem writevLoop_ending (o : Outlet env) (k : Kernel φ) (fd total : Nat) (ha : iovs % 8 = 0) (hleft : i + left ≤ 64) (htotal : total ≤ i * 4096) :
    ∃ n k', (writevLoop env fd iovs left i total).run k = (.ok n, k') ∧ Ending o k fd total (vecs k.space iovs i left) n k' := by
  induction left generalizing i total k with
  | zero => exact ⟨total, k, rfl, fun _ => ⟨rfl, (append_nil _).symm⟩, fun h => absurd ⟨nofun, takesAll_nil⟩ h⟩
  | succ left hi =>
    rw [vecs_succ]
    by_cases hrec : UserBuf k.space (iovec iovs i) 16 false
    · rw [writevLoop_succ ha hrec]
      have hnext : ∀ sum (k1 : Kernel φ), sum ≤ total + 4096 → k1.space = k.space →
          ∃ n k', (writevLoop env fd iovs left (i + 1) sum).run k1 = (.ok n, k') ∧ Ending o k1 fd sum (vecs k.space iovs (i + 1) left) n k' := by
        intro sum k1 hsum hspace
        rw [← hspace]
        exact hi k1 sum (by omega) (by omega)
      have ⟨n, k', hrun, he⟩ := writeVec_ending o (v := vecAt k.space iovs i)
        (k := (k.touch false (iovec iovs i) 8).touch false (iovec iovs i + 8) 8) hrec (by omega) hnext
      exact ⟨n, k', hrun, he.touched.touched⟩
    · refine ⟨err efault, k, ?_, .unreadable hrec⟩
      rw [writevLoop, checkBuf_bad (by decide) hrec, Prog.pure_run]

end loop

section law

variable (o : Outlet env)

theorem length_chunks_le (sp : Space) (vs : List Vec) : (chunks sp vs).flatten.length ≤ vs.length * 4096 := by
  induction vs with
  | nil => exact Nat.zero_le _
  | cons v vs hi =>
    rw [length_cons, Nat.succ_mul]
    by_cases hlen : v.len = 0
    · rw [chunks_cons_of_zero hlen]
      exact Nat.le_add_right_of_le hi
    have hchunk : (chunk sp v).length ≤ 4096 := length_chunk.trans_le (min_le_right ..)
    rw [chunks_cons hlen, flatten_cons, length_append, add_comm]
    exact add_le_add hi hchunk

theorem not_failsFirst (h : Goes env k fd vs) : ¬FailsFirst o k fd vs := by
  induction vs with
  | nil => exact id
  | cons v vs hi =>
    have ⟨hread, htake⟩ := h
    have hv := hread v (.head _)
    rw [FailsFirst, forall_prop_of_true hv.record]
    by_cases hlen : v.len = 0
    · rw [if_pos hlen]
      rw [chunks_cons_of_zero hlen] at htake
      exact hi ⟨fun v' hv' => hread v' (.tail _ hv'), htake⟩
    · rw [if_neg hlen]
      rw [chunks_cons hlen] at htake
      exact not_refuses o (hv.buffer hlen) (takesAll_head htake)

theorem prefixLaw_misaligned (ha : iovs % 8 ≠ 0) : PrefixLaw o k fd iovs cnt := by
  intro n k' hrun
  unfold linuxWritev at hrun
  match hm : min cnt 64 with
  | 0 =>
    rw [hm] at hrun
    cases hrun
    exact ⟨fun _ => (append_nil _).symm, fun h => absurd h (by decide)⟩
  | left + 1 =>
    rw [hm, writevLoop] at hrun
    by_cases hrec : UserBuf k.space (iovec iovs 0) 16 false
    · have hmis : iovec iovs 0 % 8 ≠ 0 := by
        have hhigh := hrec.high
        unfold iovec userPtrMax at *
        split
        · omega
        rename_i hbig
        rw [if_neg hbig] at hhigh
        omega
      rw [checkBuf_good hrec, misaligned_read hmis] at hrun
      cases hrun
    · rw [checkBuf_bad (by decide) hrec] at hrun
      cases hrun
      exact ⟨fun h => absurd (err_ge (by decide : efault ≤ 2 ^ 63)) (by omega), fun _ => rfl⟩

theorem writev_prefix_iff (env : Env φ) (o : Outlet env) (k : Kernel φ) (fd iovs cnt : Nat) :
    PrefixLaw o k fd iovs cnt ↔ iovs % 8 ≠ 0 ∨ FailsFirst o k fd (vecs k.space iovs 0 (min cnt 64)) ∨
      (∀ v ∈ vecs k.space iovs 0 (min cnt 64), v.Readable k.space) ∧ TakesAll env k fd (chunks k.space (vecs k.space iovs 0 (min cnt 64))) ∧
        (chunks k.space (vecs k.space iovs 0 (min cnt 64))).flatten <+: concat k.space (vecs k.space iovs 0 cnt) := by
  by_cases ha : iovs % 8 = 0
  swap
  · exact iff_of_true (prefixLaw_misaligned o ha) (.inl ha)
  rw [or_iff_right (not_not.mpr ha)]
  have ⟨n, k', hrun, he⟩ := writevLoop_ending o k fd 0 ha (i := 0)
    (Nat.zero_add (min cnt 64) ▸ Nat.min_le_right cnt 64) (Nat.zero_le _)
  have hlaw : PrefixLaw o k fd iovs cnt ↔ (n < 2 ^ 63 → o.out k'.rest = o.out k.rest ++ (concat k.space (vecs k.space iovs 0 cnt)).take n) ∧
      (2 ^ 63 ≤ n → o.out k'.rest = o.out k.rest) := by
    refine ⟨fun h => h n k' hrun, fun h n1 k1 hrun1 => ?_⟩
    cases hrun.symm.trans hrun1
    exact h
  have hlen : (vecs k.space iovs 0 (min cnt 64)).length ≤ 64 := by
    rw [vecs, length_map, length_range']
    exact min_le_right ..
  rw [hlaw]
  generalize vecs k.space iovs 0 (min cnt 64) = vs at *
  by_cases hg : Goes env k fd vs
  · have ⟨hn, hout⟩ := he.whole hg
    have hle := length_chunks_le k.space vs
    rw [zero_add] at hn
    rw [or_iff_right (not_failsFirst o hg), and_iff_right hg.1, and_iff_right hg.2, hout, append_cancel_left_eq, hn]
    constructor
    · intro ⟨h, _⟩
      rw [h (by omega)]
      exact take_prefix ..
    · intro h
      exact ⟨fun _ => prefix_iff_eq_take.mp h, fun hbig => by omega⟩
  · have ⟨hn, _, hiff⟩ := he.part hg
    rw [← hiff]
    constructor
    · exact fun ⟨_, h⟩ => .inl (h hn)
    · rintro (h | ⟨hread, htake, _⟩)
      · exact ⟨fun hsmall => by omega, fun _ => h⟩
      · exact absurd ⟨hread, htake⟩ hg

-- A console that keeps what it is given.
def recordEnv : Env Bytes :=
  { bareEnv with
    serialWrite := fun b s => (b.length, s ++ b)
    serialWritten := le_refl _ }

def recordOutlet : Outlet recordEnv where
  out s := s
  serial := ⟨rfl, rfl⟩
  console := rfl
  stored := nofun
  refused := fun _ => prefix_rfl

-- Two vectors of one byte each; the second one has a null pointer.
def gatherer : Kernel Bytes :=
  { linuxTask [] with
    space := { (linuxTask ()).space with
      pages := fun p => if p = 0x200 then some ⟨true, true, false⟩ else none
      memory := fun a => if a = 0x200002 then 0x20 else if a = 0x200008 ∨ a = 0x200018 then 1 else 0 } }

theorem writev_error_after_output : ¬PrefixLaw recordOutlet gatherer 1 0x200000 2 := by
  intro h
  have hrun : ((linuxWritev recordEnv 1 0x200000 2).run gatherer).1 = .ok (err efault) := by decide +kernel
  have hout : ((linuxWritev recordEnv 1 0x200000 2).run gatherer).2.rest = [0] := by decide +kernel
  have hnone := (h _ _ (Prod.ext hrun rfl)).2 (err_ge (by decide))
  cases hout.symm.trans hnone

end law

end Syscall
