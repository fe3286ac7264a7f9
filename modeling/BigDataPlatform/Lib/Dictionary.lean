import Mathlib.Data.List.Lex
import Mathlib.Order.Lattice

/-! # Dictionary order, part by part

Texts made of parts with a separator below every character of a part compare
part by part: a part that is a prefix of the other comes first. -/
namespace BigDataPlatform.Lib.Dictionary

variable {α : Type} [LinearOrder α] {sep c d : α} {u v s t : List α}

theorem cons_le_cons_iff : c :: u ≤ d :: v ↔ c < d ∨ c = d ∧ u ≤ v := by
  have hlt : d :: v < c :: u ↔ d < c ∨ d = c ∧ v < u := List.cons_lt_cons_iff
  rw [← not_lt, ← not_lt (a := v)]
  refine (not_congr hlt).trans ?_
  rcases lt_trichotomy c d with h | rfl | h
  · simp [h, h.not_gt, h.ne']
  · simp
  · simp [h, h.not_gt, h.ne']

theorem joined_le_joined (hu : ∀ c ∈ u, sep < c) (hv : ∀ c ∈ v, sep < c) :
    u ++ sep :: s ≤ v ++ sep :: t ↔ u < v ∨ u = v ∧ s ≤ t := by
  induction u generalizing v with
  | nil =>
    cases v with
    | nil => simp [cons_le_cons_iff]
    | cons d v => simp [cons_le_cons_iff, hv d List.mem_cons_self]
  | cons c u ih =>
    have hc := hu c List.mem_cons_self
    cases v with
    | nil => simp [cons_le_cons_iff, hc.not_gt, hc.ne']
    | cons d v =>
      have hrest := ih (fun x hx => hu x (List.mem_cons_of_mem _ hx))
        (fun x hx => hv x (List.mem_cons_of_mem _ hx))
      simp only [List.cons_append, cons_le_cons_iff, List.cons_lt_cons_iff, hrest, List.cons.injEq]
      tauto

/-- Against a single part only the first part counts. -/
theorem joined_le (hu : ∀ c ∈ u, sep < c) (hv : ∀ c ∈ v, sep < c) :
    u ++ sep :: s ≤ v ↔ u < v := by
  induction u generalizing v with
  | nil =>
    cases v with
    | nil => simp
    | cons d v => simp [cons_le_cons_iff, hv d List.mem_cons_self]
  | cons c u ih =>
    cases v with
    | nil => simp
    | cons d v =>
      have hrest := ih (fun x hx => hu x (List.mem_cons_of_mem _ hx))
        (fun x hx => hv x (List.mem_cons_of_mem _ hx))
      simp only [List.cons_append, cons_le_cons_iff, List.cons_lt_cons_iff, hrest]

end BigDataPlatform.Lib.Dictionary
