import Onyx.Syscall.Kernel
import Onyx.Userspace.Pages

-- What the pointer checks guarantee, and what the accesses behind them do.

open Lib List

namespace Syscall

open Userspace (Space PageFlags pageSize pageSize_eq pageDown Canonical)

variable {φ α β : Type} {k k' k1 : Kernel φ} {s : Space}

instance {pages : Nat → Option PageFlags} : Decidable (UserPage pages write p) :=
  decidable_of_iff ((pages p).any fun f => f.user && (!write || f.writable)) (by
    unfold UserPage
    cases pages p <;> cases write <;> simp)

theorem userPage_iff (hf : pages p = some f) :
    UserPage pages write p ↔ ¬(!f.user || (write && !f.writable)) = true := by
  unfold UserPage
  rw [hf]
  cases write <;> simp

structure Spans (pages : Nat → Option PageFlags) (ptr len : Nat) (write : Bool) : Prop where
  low : 0x1000 ≤ ptr
  high : ptr + len ≤ userPtrMax
  pages : ∀ i, i < len → UserPage pages write ((ptr + i) / pageSize)

abbrev UserBuf (s : Space) : Nat → Nat → Bool → Prop := Spans s.pages

theorem walkPages_eq (h : (p + n) * pageSize ≤ 2 ^ 46) :
    walkPages (fun p => .ok (pages p)) write n (p * pageSize) = .ok (decide (∀ i, i < n → UserPage pages write (p + i))) := by
  induction n generalizing p with
  | zero => simp [walkPages]
  | succ n hi =>
    have hpage : p * pageSize / pageSize = p := Nat.mul_div_cancel _ (by rw [pageSize_eq]; decide)
    have hnext : (p + 1 + n) * pageSize ≤ 2 ^ 46 := by rwa [add_assoc, add_comm 1 n]
    have hcan : Canonical (p * pageSize) := .inl (by rw [pageSize_eq] at *; omega)
    have hsum : p * pageSize + pageSize < 2 ^ 64 := by rw [pageSize_eq] at *; omega
    rw [walkPages, require_eq_ok.mpr hcan, ok_bind, hpage, ok_bind]
    simp only [Nat.forall_lt_succ_left, Nat.add_zero, ← Nat.add_assoc, Nat.add_right_comm p _ 1, Bool.decide_and]
    -- The loop stops at the first page that is not good.
    cases hf : pages p with
    | none => rw [decide_eq_false (by simp [UserPage, hf]), Bool.false_and]
    | some f =>
      dsimp only
      split
      case isTrue hbad => rw [decide_eq_false fun hu => (userPage_iff hf).mp hu hbad, Bool.false_and]
      case isFalse hgood =>
        rw [decide_eq_true ((userPage_iff hf).mpr hgood), Bool.true_and, checked_of_lt hsum, ok_bind, ← Nat.succ_mul]
        exact hi hnext

instance {pages : Nat → Option PageFlags} : Decidable (Spans pages ptr len write) :=
  decidable_of_iff (0x1000 ≤ ptr ∧ ptr + len ≤ userPtrMax ∧ ∀ i, i < len → UserPage pages write ((ptr + i) / pageSize))
    ⟨fun ⟨h1, h2, h3⟩ => ⟨h1, h2, h3⟩, fun h => ⟨h.low, h.high, h.pages⟩⟩

theorem pages_of_bytes {P : Nat → Prop} (h : len ≠ 0) :
    (∀ i, i < (ptr + len - 1) / pageSize - ptr / pageSize + 1 → P (ptr / pageSize + i)) ↔
      ∀ i, i < len → P ((ptr + i) / pageSize) := by
  have hpos : 0 < pageSize := by rw [pageSize_eq]; decide
  constructor
  · intro hp i hi
    have h1 : ptr / pageSize ≤ (ptr + i) / pageSize := Nat.div_le_div_right (by omega)
    have h2 : (ptr + i) / pageSize ≤ (ptr + len - 1) / pageSize := Nat.div_le_div_right (by omega)
    have := hp ((ptr + i) / pageSize - ptr / pageSize) (by omega)
    rwa [Nat.add_sub_cancel' h1] at this
  · intro hp i hi
    have h1 : ptr / pageSize ≤ (ptr + len - 1) / pageSize := Nat.div_le_div_right (by omega)
    -- A byte of the page: the last byte of the buffer or the first byte of the page.
    rcases eq_zero_or_pos i with rfl | hi0
    · exact hp 0 (by omega)
    have h2 : (ptr / pageSize + i) * pageSize ≤ ptr + len - 1 :=
      Nat.le_trans (Nat.mul_le_mul_right _ (by omega)) (Nat.div_mul_le_self _ _)
    have h3 : ptr < (ptr / pageSize + 1) * pageSize := Nat.mul_comm .. ▸ Nat.lt_mul_div_succ ptr hpos
    have h4 : (ptr / pageSize + 1) * pageSize ≤ (ptr / pageSize + i) * pageSize := Nat.mul_le_mul_right _ (by omega)
    have := hp ((ptr / pageSize + i) * pageSize - ptr) (by omega)
    rwa [Nat.add_sub_cancel' (by omega), Nat.mul_div_cancel _ hpos] at this

theorem pages_le (h : ptr + len ≤ userPtrMax) :
    (ptr / pageSize + ((ptr + len - 1) / pageSize - ptr / pageSize + 1)) * pageSize ≤ 2 ^ 46 := by
  unfold userPtrMax at h
  rw [pageSize_eq]
  omega

theorem pageDown_eq : pageDown ptr = ptr / pageSize * pageSize := by
  have := Nat.div_add_mod ptr pageSize
  rw [pageDown, Nat.mul_comm]
  omega

theorem userBufOk_eq {pages : Nat → Option PageFlags} :
    userBufOk (fun p => .ok (pages p)) ptr len write = .ok (decide (len = 0 ∨ Spans pages ptr len write)) := by
  unfold userBufOk
  by_cases h0 : len = 0
  · rw [if_pos h0, decide_eq_true (.inl h0)]
  rw [if_neg h0]
  by_cases h1 : ptr < 0x1000 ∨ userPtrMax < ptr + len
  · have hbad : ¬(len = 0 ∨ Spans pages ptr len write) := by
      rintro (h | ⟨hlow, hhigh, _⟩)
      · exact h0 h
      · omega
    rw [if_pos h1, decide_eq_false hbad, ite_self]
  · have hlow : ¬2 ^ 64 ≤ ptr + len := by
      unfold userPtrMax at h1
      omega
    rw [if_neg hlow, if_neg h1]
    rw [pageDown_eq, walkPages_eq (pages_le (by omega)), Except.ok.injEq, decide_eq_decide, pages_of_bytes h0]
    constructor
    · exact fun h => .inr ⟨by omega, by omega, h⟩
    · exact fun h => (h.resolve_left h0).pages

-- What was accessed since `k` was allowed, and none of it written unless `writes` says so.
def Extends (writes : Bool) (k k' : Kernel φ) : Prop :=
  ∃ new, k'.touched = k.touched ++ new ∧ ∀ a ∈ new, a.Allowed ∧ (a.write → writes)

namespace Extends

theorem of_eq (h : k'.touched = k.touched) : Extends writes k k' := ⟨[], by rw [h, append_nil], nofun⟩

theorem refl : Extends writes k k := of_eq rfl

theorem trans (h1 : Extends writes k k1) (h2 : Extends writes k1 k') : Extends writes k k' := by
  obtain ⟨l1, heq1, hl1⟩ := h1
  obtain ⟨l2, heq2, hl2⟩ := h2
  refine ⟨l1 ++ l2, by rw [heq2, heq1, append_assoc], fun a ha => ?_⟩
  rcases mem_append.mp ha with ha | ha
  · exact hl1 a ha
  · exact hl2 a ha

theorem mono (h : Extends false k k') : Extends true k k' := by
  obtain ⟨new, heq, hnew⟩ := h
  exact ⟨new, heq, fun a ha => ⟨(hnew a ha).1, fun _ => rfl⟩⟩

theorem touch {write writes : Bool} (h : ∀ i, i < len → UserPage k.space.pages write ((addr + i) / pageSize)) (hw : write → writes) :
    Extends writes k (k.touch write addr len) := by
  refine ⟨_, rfl, fun a ha => ?_⟩
  rw [mem_singleton.mp ha]
  exact ⟨h, hw⟩

end Extends

theorem UserBuf.sub (h : UserBuf s ptr len write) (hle : off + n ≤ len) : UserBuf s (ptr + off) n write where
  low := Nat.le_trans h.low (Nat.le_add_right ..)
  high := by
    have := h.high
    omega
  pages := by
    intro i hi
    rw [add_assoc]
    exact h.pages (off + i) (by omega)

theorem UserBuf.take (h : UserBuf s ptr len write) (hle : n ≤ len) : UserBuf s ptr n write :=
  h.sub (show 0 + n ≤ len by omega)

theorem UserBuf.of_pages (h : UserBuf s ptr len write)
    (hp : ∀ {p f}, s.pages p = some f → t.pages p = some f) : UserBuf t ptr len write where
  low := h.low
  high := h.high
  pages := fun i hi =>
    have ⟨f, hf, hu⟩ := h.pages i hi
    ⟨f, hp hf, hu⟩

theorem UserPage.mapped (h : UserPage s.pages write p) : s.Mapped p := by
  obtain ⟨f, hf, _⟩ := h
  rw [Space.Mapped, hf]
  rfl

theorem UserPage.writable (h : UserPage s.pages true p) : s.Writable p := by
  obtain ⟨f, hf, _, hw⟩ := h
  rw [Space.Writable, hf]
  exact hw rfl

def bytesOf (sp : Space) (buf len : Nat) : Bytes := (range len).map fun i => sp.memory (buf + i)

theorem loadUser_of_mapped (hm : ∀ i, i < len → k.space.Mapped ((addr + i) / pageSize)) :
    (loadUser addr len : SysM φ Bytes).run k =
      (.ok ((range len).map fun i => k.space.memory (addr + i)), k.touch false addr len) := by
  have hr : require (∀ i, i < len → k.space.Mapped ((addr + i) / pageSize)) = (.ok () : Result Blocked Unit) :=
    require_eq_ok.mpr hm
  rw [loadUser, bind_run_ok modify_run, read_bind_run]
  exact (congrArg (fun r => (Prog.lift r >>= fun _ => _).run (k.touch false addr len)) hr).trans rfl

theorem loadUser_run (h : UserBuf k.space addr len false) : (loadUser addr len : SysM φ Bytes).run k =
      (.ok ((range len).map fun i => k.space.memory (addr + i)), k.touch false addr len) :=
  loadUser_of_mapped fun i hi => (h.pages i hi).mapped

def Kernel.stored (k : Kernel φ) (addr : Nat) (data : Bytes) : Kernel φ :=
  { k.touch true addr data.length with space := k.space.setMemory addr data }

theorem storeUser_run (h : UserBuf k.space addr data.length true) :
    (storeUser addr data : SysM φ Unit).run k = (.ok (), k.stored addr data) := by
  have hw : (Userspace.store addr data : Userspace.UserM Blocked Unit).run k.space = (.ok (), k.space.setMemory addr data) :=
    Userspace.exact_store.of_good fun i hi => (h.pages i hi).writable
  rw [storeUser, bind_run_ok modify_run, inSpace]
  exact congrArg (fun r => (r.1, { k.touch true addr data.length with space := r.2 })) hw

theorem readVolatile_value (h : UserBuf k.space addr size false) (ha : addr % size = 0) :
    (readVolatile size addr : SysM φ Nat).run k = (.ok (Bytes.ofLe (bytesOf k.space addr size)), k.touch false addr size) := by
  have hnull : addr ≠ 0 := by
    have := h.low
    omega
  rw [readVolatile, require_eq_ok.mpr ⟨ha, hnull⟩, lift_ok_bind_run, bind_run_ok (loadUser_run h)]
  rfl

theorem readVolatile_run (h : UserBuf k.space addr size false) (ha : addr % size = 0) :
    ∃ v, (readVolatile size addr : SysM φ Nat).run k = (.ok v, k.touch false addr size) :=
  ⟨_, readVolatile_value h ha⟩

theorem writeVolatile_run (h : UserBuf k.space addr size true) (ha : addr % size = 0) :
    (writeVolatile size addr v : SysM φ Unit).run k = (.ok (), k.stored addr (Bytes.toLe size v)) := by
  have hnull : addr ≠ 0 := by
    have := h.low
    omega
  rw [writeVolatile, require_eq_ok.mpr ⟨ha, hnull⟩, lift_ok_bind_run]
  exact storeUser_run (by rwa [Bytes.length_toLe])

theorem Extends.stored {data : Bytes} (h : UserBuf k.space addr data.length true) : Extends true k (k.stored addr data) :=
  (Extends.touch h.pages fun _ => rfl).trans (.of_eq rfl)

theorem UserBuf.stored (h : UserBuf k.space ptr len write) : UserBuf (k.stored addr data).space ptr len write :=
  h.of_pages id

end Syscall
