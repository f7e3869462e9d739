import Onyx.Userspace.Total

-- What the loader can do to the address space at most: add pages, and ask for one twice only to panic.

open Lib

namespace Userspace

variable {ε : Type} {s t : Space}

structure Grows (s : Space) (panicked : Bool) (t : Space) : Prop where
  mapped : ∀ {p : Nat}, s.Mapped p → t.Mapped p
  cursors : t.linuxMem = s.linuxMem
  doubled : t.doubled = s.doubled ∨ panicked = true

-- What the loader leaves alone.
def Space.books (s : Space) : List (Nat × Nat) × Nat × Nat × List UserTask × List LinuxMem :=
  (s.regions, s.slots, s.nextPid, s.tasks, s.linuxMem)

theorem Space.books_setMemory : (s.setMemory addr data).books = s.books := rfl

theorem Space.books_setPages : (s.setPages first n flags).books = s.books := rfl

def Booked (s : Space) (_ : Bool) (t : Space) : Prop := t.books = s.books

instance : Transit Grows where
  refl := ⟨id, rfl, .inl rfl⟩
  trans := by
    intro s s1 s2 c h1 h2
    have hflag : s1.doubled = s.doubled := h1.doubled.resolve_right nofun
    exact ⟨fun hp => h2.mapped (h1.mapped hp), h2.cursors.trans h1.cursors, h2.doubled.imp_left fun h => h.trans hflag⟩

instance : Transit Booked where
  refl := rfl
  trans := fun h1 h2 => Eq.trans h2 h1

theorem Grows.setPage : Grows s false (s.setPage page flags) := by
  refine ⟨fun {p} hp => ?_, rfl, .inl rfl⟩
  by_cases h : p = page
  · simp [Space.Mapped, Space.setPage, h]
  · simpa [Space.Mapped, Space.setPage, h] using hp

section within

variable {R : Space → Bool → Space → Prop} [Transit R]

theorem within_relocate_of (he : ∀ tab n off, (applyRelocation elf tab base exts n off).Within R) :
    (relocate elf eType base exts).Within R := by
  unfold relocate
  split
  · refine .lift_bind fun shoff => .lift_bind fun shentsize => .lift_bind fun shnum => ?_
    split
    · exact .pure
    refine .lift_bind fun tab => .bind (.foldlM fun _ i => .lift_bind fun found => ?_) fun _ => .pure
    split
    · exact .pure
    · exact .foldlM fun _ k => he tab _ _
  · exact .pure

variable (hs : ∀ a d, (store a d : LoadM Unit).Within R)

include hs

theorem within_relocate : (relocate elf eType base exts).Within R := by
  refine within_relocate_of fun tab n off => .lift_bind fun write => ?_
  split
  · exact .pure
  · exact .bind (.lift_bind fun _ => hs _ _) fun _ => .lift

theorem within_pushStrings : (pushStrings sp strs).Within R := by
  refine .bind (.foldlM fun acc str => .bind ?_ fun _ => .pure) fun _ => .pure
  exact .lift_bind fun _ => .bind (hs _ _) fun _ => .pure

theorem within_buildInitialStack : (buildInitialStack tsc top argv info).Within R := by
  refine .lift_bind fun block => .bind ?_ fun random => .bind (within_pushStrings hs) fun args =>
    .bind (within_pushStrings hs) fun env => .lift_bind fun below => .bind (hs _ _) fun _ => .pure
  exact .lift_bind fun _ => .bind (hs _ _) fun _ => .pure

variable (hm : ∀ va flags, (mapPage va flags : LoadM Unit).Within R)
  (hu : ∀ va flags, (updateFlags va flags : LoadM Unit).Within R)

include hm hu

theorem within_loadSegment : (loadSegment elf phoff phentsize base l i).Within R := by
  have heach {act : Nat → LoadM Unit} (h : ∀ va, (act va).Within R) (start count : Nat) :
      (eachPage act start count).Within R := .foldlM fun _ _ => .lift_bind fun va => h va
  refine .lift_bind fun found => ?_
  match found with
  | none => exact .pure
  | some (known, seg) =>
    refine .bind (.bind (heach (fun _ => hm _ _) _ _) fun _ => .bind (hs _ _) fun _ => .bind (hs _ _) fun _ => ?_)
      fun _ => .pure
    split
    · exact heach (fun _ => hu _ _) _ _
    · exact .pure

theorem within_loadElf : (loadElf elf).Within R := by
  refine .lift_bind fun hd => .lift_bind fun base => .lift_bind fun entry =>
    .bind (.foldlM fun _ _ => within_loadSegment hs hm hu) fun l => ?_
  split
  · exact .lift
  · exact .bind (within_relocate hs) fun _ => .pure

end within

theorem grows_store : (store addr data : UserM ε Unit).Within Grows :=
  .read_bind fun _ _ => ⟨id, rfl, .inl rfl⟩

theorem grows_mapPage : (mapPage vaddr flags : UserM ε Unit).Within Grows := by
  refine .lift_bind fun _ => .lift_bind fun _ s => ?_
  by_cases hm : s.Mapped (vaddr / pageSize)
  · rw [mapTo_run_mapped hm]
    exact ⟨id, rfl, .inr rfl⟩
  · rw [mapTo_run hm]
    exact .setPage

theorem grows_updateFlags : (updateFlags vaddr flags : UserM ε Unit).Within Grows :=
  .lift_bind fun _ => .read_bind fun _ _ => .setPage

theorem grows_loadElf : (loadElf elf).Within Grows :=
  within_loadElf (fun _ _ => grows_store) (fun _ _ => grows_mapPage) fun _ _ => grows_updateFlags

theorem booked_loadElf : (loadElf elf).Within Booked := by
  refine within_loadElf (fun _ _ => .read_bind fun _ _ => rfl) (fun va _ => ?_) fun _ _ =>
    .lift_bind fun _ => .read_bind fun _ _ => rfl
  refine .lift_bind fun _ => .lift_bind fun _ s => ?_
  by_cases hm : s.Mapped (va / pageSize)
  · rw [mapTo_run_mapped hm]
    rfl
  · rw [mapTo_run hm]
    rfl

theorem grows_buildInitialStack : (buildInitialStack tsc top argv info).Within Grows :=
  within_buildInitialStack fun _ _ => grows_store

end Userspace
