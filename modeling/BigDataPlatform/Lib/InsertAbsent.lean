import Mathlib.Data.List.Infix

/-! # Adding what is not there yet

A loop that appends each new item unless an item already counts as it. What
counts as the same item is a parameter, so a loop keyed by a name and a loop
keyed by a pair are both instances. -/
namespace BigDataPlatform.Lib.InsertAbsent

variable {α : Type} {same : α → α → Bool} {xs new : List α}

/-- `same x y`: `y` counts as `x` being there. -/
def insertAbsent (same : α → α → Bool) (xs : List α) (x : α) : List α :=
  if xs.any (same x) then xs else xs ++ [x]

def insertAll (same : α → α → Bool) (xs new : List α) : List α :=
  new.foldl (insertAbsent same) xs

theorem prefix_insertAbsent (xs : List α) (x : α) : xs <+: insertAbsent same xs x := by
  unfold insertAbsent
  split
  · exact List.prefix_rfl
  · exact List.prefix_append xs [x]

theorem prefix_insertAll (xs new : List α) : xs <+: insertAll same xs new := by
  induction new generalizing xs with
  | nil => exact List.prefix_rfl
  | cons x new ih => exact (prefix_insertAbsent xs x).trans (ih _)

theorem any_of_prefix {p : α → Bool} {xs ys : List α} (h : xs <+: ys) (hx : xs.any p) :
    ys.any p := by
  obtain ⟨zs, rfl⟩ := h
  rw [List.any_append, hx, Bool.true_or]

/-- Every new item is there afterwards. -/
theorem any_insertAll (hs : ∀ x ∈ new, same x x) :
    ∀ x ∈ new, (insertAll same xs new).any (same x) := by
  induction new generalizing xs with
  | nil => simp
  | cons x new ih =>
    intro y hy
    rcases List.mem_cons.mp hy with rfl | hy
    · refine any_of_prefix (prefix_insertAll (insertAbsent same xs y) new) ?_
      unfold insertAbsent
      split
      · assumption
      · simp [hs y]
    · exact ih (fun z hz => hs z (List.mem_cons_of_mem x hz)) y hy

theorem insertAll_of_any (h : ∀ x ∈ new, xs.any (same x)) : insertAll same xs new = xs := by
  induction new with
  | nil => rfl
  | cons x new ih =>
    have hx : insertAbsent same xs x = xs := if_pos (h x (by simp))
    show insertAll same (insertAbsent same xs x) new = xs
    rw [hx]
    exact ih fun y hy => h y (List.mem_cons_of_mem x hy)

/-- **Adding the same items again changes nothing.** -/
theorem insertAll_insertAll (hs : ∀ x ∈ new, same x x) (xs : List α) :
    insertAll same (insertAll same xs new) new = insertAll same xs new :=
  insertAll_of_any (any_insertAll hs)

/-- Where no two new items count as one another, the list after is the list
before with the new items that it lacked. -/
theorem insertAll_eq_filter (hd : new.Pairwise fun x y => same y x = false) :
    insertAll same xs new = xs ++ new.filter fun x => !xs.any (same x) := by
  induction new generalizing xs with
  | nil => simp [insertAll]
  | cons x new ih =>
    obtain ⟨hx, hd⟩ := List.pairwise_cons.mp hd
    show insertAll same (insertAbsent same xs x) new = _
    rw [ih hd, insertAbsent]
    by_cases hp : xs.any (same x)
    · rw [if_pos hp, List.filter_cons_of_neg (by simp [hp])]
    · rw [if_neg hp, List.filter_cons_of_pos (by simp [hp]), List.append_assoc,
        List.singleton_append]
      congr 2
      refine List.filter_congr fun y hy => ?_
      rw [List.any_append, List.any_cons, hx y hy, List.any_nil, Bool.or_false, Bool.or_false]

theorem insertAll_ne_nil (h : new ≠ []) : insertAll same [] new ≠ [] := by
  cases new with
  | nil => exact absurd rfl h
  | cons x new =>
    obtain ⟨ys, hys⟩ : [x] <+: insertAll same [x] new := prefix_insertAll [x] new
    have he : insertAll same [] (x :: new) = [x] ++ ys := hys.symm
    rw [he]
    simp

end BigDataPlatform.Lib.InsertAbsent
