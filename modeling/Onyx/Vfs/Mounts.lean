import Onyx.Vfs.Path

-- Which mount serves a path (kernel/src/vfs.rs).

open List

namespace Vfs

def mountMatches (point path : Text) : Bool :=
  if point = ['/'] then true
  else match point.isPrefixOf? path with
    | none      => false
    | some rest => rest = [] ∨ rest.head? = some '/'

-- `max_by_key`; no two of the keys are equal.
def pickMount (points : List Text) (path : Text) : Option Nat :=
  ((points.zipIdx.filter (mountMatches ·.1 path)).argmax fun m => toLex (m.1.len, 2 ^ 64 - 1 - m.2)).map (·.2)

theorem mountMatches_of_ne (h : point ≠ ['/']) :
    mountMatches point path ↔ ∃ rest, point ++ rest = path ∧ (rest = [] ∨ rest.head? = some '/') := by
  simp only [← isPrefixOf?_eq_some_iff_append_eq, mountMatches, if_neg h]
  cases point.isPrefixOf? path <;> simp

theorem intercalate_append (ha : a ≠ []) (hb : b ≠ []) :
    ['/'].intercalate (a ++ b) = ['/'].intercalate a ++ '/' :: ['/'].intercalate b := by
  induction a with
  | nil => contradiction
  | cons x a ih => by_cases h : a = [] <;> simp [intercalate_cons_of_ne_nil, h, hb, ih]

theorem mountMatches_iff (hp : path.head? = some '/') :
    mountMatches point path ↔ (if point = ['/'] then [[]] else point.splitOn '/') <+: path.splitOn '/' := by
  split_ifs with h
  · obtain ⟨p, rfl⟩ := head?_eq_some_iff.mp hp
    simp [h, mountMatches, splitOn_cons_eq_if_modifyHead]
  rw [mountMatches_of_ne h]
  constructor
  · rintro ⟨rest, rfl, rfl | hr⟩
    · rw [append_nil]
    · obtain ⟨r, rfl⟩ := head?_eq_some_iff.mp hr
      exact ⟨_, (splitOn_append_cons_self point r).symm⟩
  · rintro ⟨t, ht⟩
    have hpath := @intercalate_splitOn _ path _ _ '/'
    rw [← ht] at hpath
    by_cases hnil : t = []
    · rw [hnil, append_nil, intercalate_splitOn] at hpath
      exact ⟨[], (append_nil _).trans hpath, .inl rfl⟩
    · rw [intercalate_append (splitOn_ne_nil _ _) hnil, intercalate_splitOn] at hpath
      exact ⟨_, hpath, .inr rfl⟩

theorem not_mountMatches_mx : ¬mountMatches ['/', 'm'] ['/', 'm', 'x'] :=
  mt (mountMatches_iff rfl).mp (by decide)

theorem prefix_of_mountMatches (hp : path.head? = some '/') (h : mountMatches point path) : point <+: path := by
  by_cases hroot : point = ['/']
  · obtain ⟨p, rfl⟩ := head?_eq_some_iff.mp hp
    simp [hroot]
  · exact ((mountMatches_of_ne hroot).mp h).imp fun _ => And.left

theorem prefix_of_len_le {a b p : Text} (ha : a <+: p) (hb : b <+: p) (h : a.len ≤ b.len) : a <+: b := by
  obtain hab | ⟨u, rfl⟩ := prefix_or_prefix_of_prefix ha hb
  · exact hab
  cases u with
  | nil => simp
  | cons c u =>
    have := c.utf8Size_pos
    simp [Text.len] at h
    omega

theorem mountMatches_of_len_le (hp : path.head? = some '/') (ha : mountMatches a path) (hb : mountMatches b path)
    (hle : a.len ≤ b.len) : mountMatches a b := by
  by_cases hroot : a = ['/']
  · simp [mountMatches, hroot]
  obtain ⟨v, hv⟩ := prefix_of_mountMatches hp hb
  obtain ⟨u, hu⟩ := prefix_of_len_le (prefix_of_mountMatches hp ha) ⟨v, hv⟩ hle
  obtain ⟨r, hr, hs⟩ := (mountMatches_of_ne hroot).mp ha
  obtain rfl : r = u ++ v := by simpa [← hv, ← hu] using hr
  exact (mountMatches_of_ne hroot).mpr ⟨u, hu, by cases u <;> simp_all⟩

def Serves (points : List Text) (path : Text) : Option Nat → Prop
  | none   => ∀ point ∈ points, ¬mountMatches point path
  | some i => ∃ point, points[i]? = some point ∧ mountMatches point path ∧
      ∀ j point', points[j]? = some point' → mountMatches point' path → mountMatches point' point ∧ (point' = point → i ≤ j)

theorem serves_pickMount (hp : path.head? = some '/') (hn : points.length < 2 ^ 64) : Serves points path (pickMount points path) := by
  have hmem {m : Text × Nat} : m ∈ points.zipIdx.filter (mountMatches ·.1 path) ↔ points[m.2]? = some m.1 ∧ mountMatches m.1 path := by
    rw [mem_filter, mem_zipIdx_iff_getElem?]
  cases hk : pickMount points path with
  | none =>
    intro point hpt hm
    obtain ⟨i, hi⟩ := mem_iff_getElem?.mp hpt
    have hin := hmem.mpr (⟨hi, hm⟩ : points[(point, i).2]? = _ ∧ _)
    rw [argmax_eq_none.mp (Option.map_eq_none_iff.mp hk)] at hin
    cases hin
  | some i =>
    obtain ⟨⟨point, _⟩, hm, rfl⟩ := Option.map_eq_some_iff.mp hk
    obtain ⟨hi, hmatch⟩ := hmem.mp (argmax_mem hm)
    refine ⟨point, hi, hmatch, fun j point' hj hmatch' => ?_⟩
    have hle := le_of_mem_argmax (hmem.mpr ⟨hj, hmatch'⟩ : (point', j) ∈ _) hm
    rw [Prod.Lex.toLex_le_toLex] at hle
    dsimp only at hle hi hmatch ⊢
    have h1 := (List.getElem?_eq_some_iff.mp hi).1
    have h2 := (List.getElem?_eq_some_iff.mp hj).1
    exact ⟨mountMatches_of_len_le hp hmatch' hmatch (by omega), by rintro rfl; omega⟩

theorem serves_mx : Serves [['/'], ['/', 'm']] ['/', 'm', '/', 'x'] (pickMount [['/'], ['/', 'm']] ['/', 'm', '/', 'x']) :=
  serves_pickMount rfl (by decide)

end Vfs
