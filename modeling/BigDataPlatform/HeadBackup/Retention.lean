import BigDataPlatform.HeadBackup

/-! # What the prune leaves

The newest two directories of a replica, exactly, whenever a run uploads a
block and every removal succeeds; and one directory more for each run since. -/
namespace BigDataPlatform.HeadBackup
open BigDataPlatform.Lib.Transition

variable {a : Snap} {bucket later : List Dir} {d : Dir}

theorem removed_past (h : a.removesAll) (hd : d.ts ∈ past bucket) :
    (a.removed (past bucket) d).stored = [] := by
  rw [Snap.removed, if_pos hd]
  exact List.filter_eq_nil_iff.mpr fun k _ => by simp [h d.ts k]

/-- The directories listed afterwards are those listed before that are not past
the newest two. -/
theorem listing_removed (h : a.removesAll) (bucket : List Dir) :
    listing (bucket.map (a.removed (past bucket))) =
      (listing bucket).filter fun d => d.ts ∉ past bucket := by
  have hsame : ∀ d, (a.removed (past bucket) d).stored ≠ [] ↔ d.stored ≠ [] ∧ d.ts ∉ past bucket := by
    intro d
    by_cases hd : d.ts ∈ past bucket
    · simp [removed_past h hd, hd]
    · simp [removed_of_kept hd, hd]
  rw [listing, listing, List.filter_map, List.filter_filter]
  have hmap : (bucket.filter ((fun d => decide (d.stored ≠ [])) ∘ a.removed (past bucket))).map
      (a.removed (past bucket)) =
      bucket.filter ((fun d => decide (d.stored ≠ [])) ∘ a.removed (past bucket)) := by
    conv_rhs => rw [← List.map_id (bucket.filter _)]
    refine List.map_congr_left fun d hd => ?_
    have hkept := (hsame d).mp (of_decide_eq_true (List.mem_filter.mp hd).2)
    exact removed_of_kept hkept.2
  rw [hmap]
  refine List.filter_congr fun d _ => ?_
  rw [Function.comp_apply, decide_eq_decide.mpr (hsame d), Bool.decide_and, Bool.and_comm]

/-- In an ordered listing those are the first two. -/
theorem filter_past (ho : Ordered bucket) :
    (listing bucket).filter (fun d => d.ts ∉ past bucket) = (listing bucket).take 2 := by
  have hsplit : (listing bucket).filter (fun d => d.ts ∉ past bucket) =
      ((listing bucket).take 2 ++ (listing bucket).drop 2).filter fun d => d.ts ∉ past bucket := by
    rw [List.take_append_drop]
  have hnewest : ∀ d ∈ (listing bucket).take 2, d.ts ∉ past bucket := fun d hd hmem =>
    (kept_newer ho hd hmem).2 hmem
  have hrest : ∀ d ∈ (listing bucket).drop 2, d.ts ∈ past bucket := fun d hd =>
    List.mem_map_of_mem hd
  rw [hsplit, List.filter_append, List.filter_eq_self.mpr fun d hd => decide_eq_true (hnewest d hd),
    List.filter_eq_nil_iff.mpr fun d hd => by simpa using hrest d hd, List.append_nil]

theorem listing_snap (ho : Ordered (a.uploaded bucket)) (hp : a.prunes = true) (h : a.removesAll) :
    listing (snap a bucket) = (listing (a.uploaded bucket)).take 2 := by
  rw [snap_eq ho, if_pos hp, listing_removed h, filter_past ho]

theorem length_listing_cons (d : Dir) (bucket : List Dir) :
    (listing (d :: bucket)).length ≤ (listing bucket).length + 1 := by
  rw [listing, List.filter_cons]
  split
  · exact le_rfl
  · exact Nat.le_succ _

/-- A removal lists nothing that was not listed. -/
theorem length_listing_removed (old : List Nat) (bucket : List Dir) :
    (listing (bucket.map (a.removed old))).length ≤ (listing bucket).length := by
  rw [listing, listing, List.filter_map, List.length_map]
  refine List.Sublist.length_le (List.monotone_filter_right _ fun d hd => ?_)
  by_contra hnone
  have hempty : d.stored = [] := by simpa using hnone
  have : (a.removed old d).stored = [] := by
    unfold Snap.removed
    split
    · simp [hempty]
    · exact hempty
  simp [this] at hd

/-- Whatever fails, a run adds one directory at most. -/
theorem length_listing_snap (ho : Ordered (a.uploaded bucket)) :
    (listing (snap a bucket)).length ≤ (listing bucket).length + 1 := by
  have hup : (listing (a.uploaded bucket)).length ≤ (listing bucket).length + 1 :=
    length_listing_cons _ bucket
  rw [snap_eq ho]
  split
  · exact (length_listing_removed _ _).trans hup
  · split
    · exact hup
    · exact Nat.le_succ _

theorem length_listing_exec {as : List Snap} (hb : Ordered bucket)
    (hi : Along step Increasing as bucket) (h : exec step as bucket = some later) :
    (listing later).length ≤ (listing bucket).length + as.length := by
  induction as generalizing bucket with
  | nil => cases h; exact le_rfl
  | cons a as ih =>
    obtain ⟨next, hnext, hlater⟩ := Option.bind_eq_some_iff.mp h
    have hrest := hi.2 next hnext
    cases hnext
    have hlen := ih (ordered_snap hb hi.1) hrest hlater
    have hone := length_listing_snap (ordered_uploaded hb hi.1)
    rw [List.length_cons]
    omega

/-- **The newest two per replica.** From any reachable bucket, whatever failed
before: a run that uploads a block, lists the bucket and removes what it asked
for leaves exactly the two newest directories, as they are; and `n` runs later,
whatever fails then, there are at most `n` more. -/
theorem prune_keeps_newest_two (h : Reaches step Increasing [] bucket) (hi : Increasing bucket a)
    (hp : a.prunes = true) (hrm : a.removesAll) :
    listing (snap a bucket) = (listing (a.uploaded bucket)).take 2 ∧
      ∀ as later, Along step Increasing as (snap a bucket) →
        exec step as (snap a bucket) = some later → (listing later).length ≤ 2 + as.length := by
  have ho := Reaches.ordered h
  have hlist := listing_snap (ordered_uploaded ho hi) hp hrm
  refine ⟨hlist, fun as later hal hex => ?_⟩
  have hlen := length_listing_exec (ordered_snap ho hi) hal hex
  have htwo : (listing (snap a bucket)).length ≤ 2 := by
    rw [hlist]
    exact List.length_take_le _ _
  omega

/-- Three runs whose prunes fail, and one that catches up. -/
theorem late_prune_keeps_two :
    let stuck (ts : Nat) : Snap := { Snap.clean ts [head "A"] with listed := false }
    ∃ bucket, exec step [stuck 1, stuck 2, stuck 3] [] = some bucket ∧ (listing bucket).length = 3 ∧
      (listing (snap (.clean 4 [head "B"]) bucket)).map (·.ts) = [4, 3] := by
  intro stuck
  obtain ⟨bucket, hb, hp⟩ := (Option.any_eq_true
    (fun bucket => (listing bucket).length = 3 ∧ Increasing bucket (.clean 4 [head "B"]) ∧
      (((listing (Snap.uploaded (.clean 4 [head "B"]) bucket)).take 2).map (·.ts)) = [4, 3])
    (exec step [stuck 1, stuck 2, stuck 3] [])).mp (by decide)
  obtain ⟨hlen, hi, htwo⟩ := of_decide_eq_true hp
  have hkept := (prune_keeps_newest_two (exec_reaches step Increasing (by decide) hb) hi rfl
    fun _ _ => rfl).1
  exact ⟨bucket, hb, hlen, hkept ▸ htwo⟩

end BigDataPlatform.HeadBackup
