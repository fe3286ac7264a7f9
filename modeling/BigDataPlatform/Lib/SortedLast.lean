import Mathlib.Data.List.Sort
import Mathlib.Order.Bounds.Basic

/-! # The last line of a sorted selection

`sort | filter | tail -n 1` prints the greatest line that passes the filter. -/
namespace BigDataPlatform.Lib.SortedLast

variable {α : Type} [LinearOrder α] {keep : α → Bool} {files : List α} {m : α}

def sortedLast (keep : α → Bool) (files : List α) : Option α :=
  ((files.insertionSort (· ≤ ·)).filter keep).getLast?

theorem le_last {init : List α} (h : (init ++ [m]).Pairwise (· ≤ ·)) :
    ∀ x ∈ init ++ [m], x ≤ m := by
  intro x hx
  rcases List.mem_append.mp hx with hx | hx
  · exact (List.pairwise_append.mp h).2.2 x hx m (by simp)
  · rw [List.mem_singleton.mp hx]

theorem getLast?_eq_some_iff_of_sorted {xs : List α} (h : xs.Pairwise (· ≤ ·)) :
    xs.getLast? = some m ↔ m ∈ xs ∧ ∀ x ∈ xs, x ≤ m := by
  constructor
  · intro hm
    obtain ⟨init, rfl⟩ := List.getLast?_eq_some_iff.mp hm
    exact ⟨by simp, le_last h⟩
  · intro h
    obtain ⟨hm, hmax⟩ := h
    cases hl : xs.getLast? with
    | none => exact absurd (List.getLast?_eq_none_iff.mp hl) (List.ne_nil_of_mem hm)
    | some l =>
      obtain ⟨init, rfl⟩ := List.getLast?_eq_some_iff.mp hl
      exact congrArg some (le_antisymm (hmax l (by simp)) (le_last h m hm))

theorem sortedLast_eq_some_iff :
    sortedLast keep files = some m ↔
      (m ∈ files ∧ keep m) ∧ ∀ x ∈ files, keep x → x ≤ m := by
  have hs : ((files.insertionSort (· ≤ ·)).filter keep).Pairwise (· ≤ ·) :=
    (List.pairwise_insertionSort (· ≤ ·) files).sublist List.filter_sublist
  rw [sortedLast, getLast?_eq_some_iff_of_sorted hs]
  simp only [List.mem_filter, List.mem_insertionSort, and_imp]

theorem sortedLast_eq_some_iff_isGreatest :
    sortedLast keep files = some m ↔ IsGreatest {x | x ∈ files ∧ keep x} m := by
  rw [sortedLast_eq_some_iff]
  exact and_congr_right fun _ => ⟨fun h x hx => h x hx.1 hx.2, fun h x hx hk => h ⟨hx, hk⟩⟩

theorem sortedLast_eq_none_iff : sortedLast keep files = none ↔ ∀ x ∈ files, ¬ keep x := by
  rw [sortedLast, List.getLast?_eq_none_iff, List.filter_eq_nil_iff]
  simp only [List.mem_insertionSort]

/-- What passes a test, if anything does, has a greatest element. -/
theorem exists_isGreatest (keep : α → Bool) {x : α} (hx : x ∈ files) (hk : keep x) :
    ∃ m, IsGreatest {x | x ∈ files ∧ keep x} m := by
  cases hs : sortedLast keep files with
  | none => exact absurd hk (sortedLast_eq_none_iff.mp hs x hx)
  | some m => exact ⟨m, sortedLast_eq_some_iff_isGreatest.mp hs⟩

end BigDataPlatform.Lib.SortedLast
