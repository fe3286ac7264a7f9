import Mathlib.Data.List.Basic

/-! # Globs

Patterns over paths in which `*` stands for any characters of one path
component, and every other character for itself. -/
namespace BigDataPlatform.Lib.Glob

/-- After no character, then after one more, up to the end of the component. -/
def starMatch (rest : List Char → Bool) : List Char → Bool
  | [] => rest []
  | c :: path => rest (c :: path) || (c ≠ '/' && starMatch rest path)

def charMatch (d : Char) (rest : List Char → Bool) : List Char → Bool
  | [] => false
  | c :: path => c = d && rest path

def glob : List Char → List Char → Bool
  | [] => List.isEmpty
  | d :: pattern => if d = '*' then starMatch (glob pattern) else charMatch d (glob pattern)

variable {pattern path w : List Char}

theorem starMatch_iff {rest : List Char → Bool} :
    starMatch rest path ↔ ∃ w tail, path = w ++ tail ∧ '/' ∉ w ∧ rest tail := by
  induction path with
  | nil =>
    constructor
    · intro h
      exact ⟨[], [], rfl, List.not_mem_nil, h⟩
    · intro h
      obtain ⟨w, tail, hpath, -, htail⟩ := h
      obtain ⟨-, rfl⟩ := List.append_eq_nil_iff.mp hpath.symm
      exact htail
  | cons c path ih =>
    rw [starMatch, Bool.or_eq_true, Bool.and_eq_true, ih, decide_eq_true_iff]
    constructor
    · intro h
      rcases h with h | ⟨hc, w, tail, rfl, hw, htail⟩
      · exact ⟨[], c :: path, rfl, List.not_mem_nil, h⟩
      · exact ⟨c :: w, tail, rfl, by simp [hw, Ne.symm hc], htail⟩
    · intro h
      obtain ⟨w, tail, hpath, hw, htail⟩ := h
      cases w with
      | nil =>
        have hpath : c :: path = tail := hpath
        exact Or.inl (hpath ▸ htail)
      | cons d w =>
        obtain ⟨rfl, rfl⟩ := List.cons.inj hpath
        rw [List.mem_cons, not_or] at hw
        exact Or.inr ⟨Ne.symm hw.1, w, tail, rfl, hw.2, htail⟩

theorem glob_star : glob ('*' :: pattern) path ↔
    ∃ w tail, path = w ++ tail ∧ '/' ∉ w ∧ glob pattern tail := by
  rw [glob, if_pos rfl, starMatch_iff]

/-- Text in a pattern is text in the path. -/
theorem glob_text (hw : '*' ∉ w) : glob (w ++ pattern) path ↔ ∃ tail, path = w ++ tail ∧ glob pattern tail := by
  induction w generalizing path with
  | nil => simp
  | cons d w ih =>
    rw [List.mem_cons, not_or] at hw
    rw [List.cons_append, glob, if_neg (Ne.symm hw.1)]
    cases path with
    | nil => simp [charMatch]
    | cons c path =>
      rw [charMatch, Bool.and_eq_true, decide_eq_true_iff, ih hw.2]
      constructor
      · intro h
        obtain ⟨rfl, tail, rfl, htail⟩ := h
        exact ⟨tail, rfl, htail⟩
      · intro h
        obtain ⟨tail, hpath, htail⟩ := h
        obtain ⟨rfl, rfl⟩ := List.cons.inj hpath
        exact ⟨rfl, tail, rfl, htail⟩

theorem glob_exact (hw : '*' ∉ w) : glob w path ↔ path = w := by
  have h : glob (w ++ []) path ↔ ∃ tail, path = w ++ tail ∧ glob [] tail := glob_text hw
  rw [List.append_nil] at h
  rw [h]
  constructor
  · intro h
    obtain ⟨tail, rfl, htail⟩ := h
    rw [List.isEmpty_iff.mp htail, List.append_nil]
  · intro h
    exact ⟨[], by rw [h, List.append_nil], rfl⟩

/-- The end of a component is before the first separator. -/
theorem component_unique {v w s t : List Char} (hv : '/' ∉ v) (hw : '/' ∉ w)
    (h : v ++ '/' :: s = w ++ '/' :: t) : v = w ∧ s = t := by
  induction v generalizing w with
  | nil =>
    cases w with
    | nil => exact ⟨rfl, (List.cons.inj h).2⟩
    | cons d w => exact absurd ((List.cons.inj h).1 ▸ List.mem_cons_self) hw
  | cons c v ih =>
    rw [List.mem_cons, not_or] at hv
    cases w with
    | nil => exact absurd (List.cons.inj h).1.symm hv.1
    | cons d w =>
      obtain ⟨rfl, hrest⟩ := List.cons.inj h
      rw [List.mem_cons, not_or] at hw
      obtain ⟨rfl, hst⟩ := ih hv.2 hw.2 hrest
      exact ⟨rfl, hst⟩

end BigDataPlatform.Lib.Glob
