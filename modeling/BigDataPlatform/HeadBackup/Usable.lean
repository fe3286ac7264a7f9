import BigDataPlatform.HeadBackup

/-! # When the prune keeps a usable backup

A directory is usable when all of its head blocks are there in full. Which
directory is past the newest two depends on every run that stored anything, so
the condition is on a whole history: a run that prunes, and the last run before
it that stored anything, have stored their head blocks in full, once a run
before these two has. -/
namespace BigDataPlatform.HeadBackup

/-! ## What a run stores -/

/-- Some key of a head block: all of a block whose copy exits 0, of another what
its copy had written. -/
def Snap.storesSome (a : Snap) : Prop :=
  a.reachable ∧ a.named ∧ ∃ b ∈ a.heads, ∃ k ∈ b.keys, a.copied b.ulid ∨ a.written k

/-- Every key of every head block. -/
def Snap.storesAll (a : Snap) : Prop :=
  a.reachable ∧ a.named ∧ a.heads ≠ [] ∧
    ∀ b ∈ a.heads, a.copied b.ulid ∨ ∀ k ∈ b.keys, a.written k

/-- Some head block's copy exits 0. -/
def Snap.counts (a : Snap) : Prop := a.reachable ∧ a.named ∧ ∃ b ∈ a.heads, a.copied b.ulid

instance (a : Snap) : Decidable a.storesSome := inferInstanceAs (Decidable (_ ∧ _))
instance (a : Snap) : Decidable a.storesAll := inferInstanceAs (Decidable (_ ∧ _))
instance (a : Snap) : Decidable a.counts := inferInstanceAs (Decidable (_ ∧ _))

/-- Of the runs before it, those that stored anything. -/
def stored (earlier : List Snap) : List Snap := earlier.filter (·.storesSome)

/-- If the run counts a block and lists the bucket, and a run before the last one
that stored anything stored all, then that last one and the run itself did. -/
def NewestInFull (a : Snap) (earlier : List Snap) : Prop :=
  a.counts → a.listed →
    ∀ p ∈ (stored earlier).head?, (∃ f ∈ (stored earlier).tail, f.storesAll) →
      a.storesAll ∧ p.storesAll

instance (a : Snap) (earlier : List Snap) : Decidable (NewestInFull a earlier) :=
  inferInstanceAs (Decidable (_ → _ → _))

/-- The bucket after a history, given newest run first. -/
def bucketAfter : List Snap → List Dir
  | [] => []
  | a :: earlier => snap a (bucketAfter earlier)

/-- Of each run of a history and the runs before it. -/
def EachRun (P : Snap → List Snap → Prop) : List Snap → Prop
  | [] => True
  | a :: earlier => P a earlier ∧ EachRun P earlier

instance (P : Snap → List Snap → Prop) [∀ a earlier, Decidable (P a earlier)] :
    ∀ runs, Decidable (EachRun P runs)
  | [] => .isTrue trivial
  | a :: earlier =>
    have := instDecidableEachRun P earlier
    inferInstanceAs (Decidable (P a earlier ∧ EachRun P earlier))

variable {a p f : Snap} {earlier runs : List Snap} {bucket : List Dir} {d : Dir} {k : Key} {ts : Nat}

/-! ## The directory of a run -/

/-- The directory a run makes. -/
def Snap.dir (a : Snap) : Dir := ⟨a.ts, a.heads, (a.upload a.blocks).2⟩

theorem uploaded_eq (a : Snap) (bucket : List Dir) : a.uploaded bucket = a.dir :: bucket := rfl

theorem upload_cons (a : Snap) (b : Block) (bs : List Block) :
    a.upload (b :: bs) = if a.isHead b then
      (if a.copied b.ulid then ((a.upload bs).1 + 1, b.keys ++ (a.upload bs).2)
        else ((a.upload bs).1, b.keys.filter a.written ++ (a.upload bs).2))
      else a.upload bs := by
  by_cases hm : "meta.json" ∈ b.files <;> by_cases hp : a.persisted b.ulid <;>
    simp [Snap.upload, Snap.isHead, hm, hp]

theorem mem_upload {bs : List Block} : k ∈ (a.upload bs).2 ↔
    ∃ b ∈ bs.filter a.isHead, k ∈ b.keys ∧ (a.copied b.ulid ∨ a.written k) := by
  induction bs with
  | nil => simp [Snap.upload]
  | cons b bs ih =>
    rw [upload_cons, List.filter_cons]
    by_cases hh : a.isHead b
    · by_cases hc : a.copied b.ulid
      · simp [hh, hc, ih]
      · simp [hh, hc, ih]
    · simp [hh, ih]

theorem upload_count {bs : List Block} :
    0 < (a.upload bs).1 ↔ ∃ b ∈ bs.filter a.isHead, a.copied b.ulid := by
  induction bs with
  | nil => simp [Snap.upload]
  | cons b bs ih =>
    rw [upload_cons, List.filter_cons]
    by_cases hh : a.isHead b
    · by_cases hc : a.copied b.ulid
      · simp [hh, hc]
      · simp [hh, hc, ih]
    · simp [hh, ih]

theorem mem_dir : k ∈ a.dir.stored ↔
    ∃ b ∈ a.heads, k ∈ b.keys ∧ (a.copied b.ulid ∨ a.written k) := mem_upload

theorem mem_keys {b : Block} : k ∈ b.keys ↔ k.1 = b.ulid ∧ k.2 ∈ b.files := by
  constructor
  · intro h
    obtain ⟨file, hf, rfl⟩ := List.mem_map.mp h
    exact ⟨rfl, hf⟩
  · intro ⟨hu, hf⟩
    exact List.mem_map.mpr ⟨k.2, hf, by rw [← hu]⟩

/-- A head block has its `meta.json`. -/
theorem meta_mem_keys {b : Block} (h : b ∈ a.heads) : (b.ulid, "meta.json") ∈ b.keys := by
  have hh := (List.mem_filter.mp h).2
  simp only [Snap.isHead, Bool.and_eq_true, decide_eq_true_eq] at hh
  exact mem_keys.mpr ⟨rfl, hh.1⟩

theorem dir_listed : a.dir.stored ≠ [] ↔
    ∃ b ∈ a.heads, ∃ k ∈ b.keys, a.copied b.ulid ∨ a.written k := by
  constructor
  · intro hne
    obtain ⟨k, hk⟩ := List.exists_mem_of_ne_nil _ hne
    obtain ⟨b, hb, hkb, hput⟩ := mem_dir.mp hk
    exact ⟨b, hb, k, hkb, hput⟩
  · rintro ⟨b, hb, k, hkb, hput⟩
    exact List.ne_nil_of_mem (mem_dir.mpr ⟨b, hb, hkb, hput⟩)

/-- A run's directory is complete as made when all head blocks are stored. -/
theorem dir_complete : a.dir.complete ↔ a.heads ≠ [] ∧
    ∀ b ∈ a.heads, a.copied b.ulid ∨ ∀ k ∈ b.keys, a.written k := by
  constructor
  · rintro ⟨hne, hall⟩
    obtain ⟨b₀, hb₀, _⟩ := dir_listed.mp hne
    refine ⟨List.ne_nil_of_mem hb₀, fun b hb => ?_⟩
    by_cases hc : a.copied b.ulid
    · exact .inl hc
    · refine .inr fun k hk => ?_
      obtain ⟨b', hb', hkb', hput⟩ := mem_dir.mp (hall b hb k hk)
      -- blocks of one ULID share the outcome of the copy
      have hu : b'.ulid = b.ulid := (mem_keys.mp hkb').1.symm.trans (mem_keys.mp hk).1
      rw [hu] at hput
      exact hput.resolve_left hc
  · rintro ⟨hne, hall⟩
    have hmem : ∀ b ∈ a.heads, ∀ k ∈ b.keys, k ∈ a.dir.stored := fun b hb k hk =>
      mem_dir.mpr ⟨b, hb, hk, (hall b hb).imp_right fun h => h k hk⟩
    obtain ⟨b, hb⟩ := List.exists_mem_of_ne_nil _ hne
    exact ⟨List.ne_nil_of_mem (hmem b hb _ (meta_mem_keys hb)), hmem⟩

theorem Snap.storesAll.complete (h : a.storesAll) : a.dir.complete := dir_complete.mpr h.2.2

theorem Snap.storesSome.listed (h : a.storesSome) : a.dir.stored ≠ [] := dir_listed.mpr h.2.2

theorem Snap.storesAll.some (h : a.storesAll) : a.storesSome :=
  ⟨h.1, h.2.1, dir_listed.mp h.complete.1⟩

theorem Snap.storesSome.all (h : a.storesSome) (hc : a.dir.complete) : a.storesAll :=
  ⟨h.1, h.2.1, dir_complete.mp hc⟩

theorem Snap.counts.some (h : a.counts) : a.storesSome := by
  obtain ⟨hr, hn, b, hb, hc⟩ := h
  exact ⟨hr, hn, b, hb, _, meta_mem_keys hb, .inl hc⟩

theorem prunes_iff : a.prunes = true ↔ a.counts ∧ a.listed = true := by
  simp only [Snap.prunes, Snap.counts, upload_count, Bool.and_eq_true, decide_eq_true_eq, and_assoc,
    Snap.heads]

/-! ## The newest two -/

/-- Whatever the removals leave, the two newest listed are as they were. -/
theorem take_listing_removed (ho : Ordered bucket) :
    (listing (bucket.map (a.removed (past bucket)))).take 2 = (listing bucket).take 2 := by
  have hlist : listing (bucket.map (a.removed (past bucket))) =
      ((listing bucket).map (a.removed (past bucket))).filter (·.stored ≠ []) := by
    rw [listing, listing, List.filter_map, List.filter_map, List.filter_filter]
    congr 1
    refine List.filter_congr fun d _ => ?_
    -- what was not listed is not listed after a removal
    by_cases hd : d.stored = []
    · simp [Snap.removed, hd, apply_ite Dir.stored]
    · simp [hd]
  have hkept : ∀ d ∈ (listing bucket).take 2, a.removed (past bucket) d = d := fun d hd =>
    removed_of_kept fun h => (kept_newer ho hd h).2 h
  have hnewest : (((listing bucket).take 2).map (a.removed (past bucket))).filter (·.stored ≠ []) =
      (listing bucket).take 2 := by
    rw [List.map_congr_left hkept, List.map_id']
    exact List.filter_eq_self.mpr fun d hd =>
      decide_eq_true (mem_listing.mp (List.mem_of_mem_take hd)).2
  rw [hlist]
  conv_lhs => rw [← List.take_append_drop 2 (listing bucket), List.map_append, List.filter_append,
    hnewest]
  by_cases hlen : 2 ≤ (listing bucket).length
  · rw [List.take_append_of_le_length (by simpa using hlen), List.take_take, min_self]
  · rw [List.drop_eq_nil_of_le (by omega)]
    simp only [List.map_nil, List.filter_nil, List.append_nil, List.take_take, min_self]

theorem listing_dir (h : a.storesSome) (bucket : List Dir) :
    listing (a.uploaded bucket) = a.dir :: listing bucket := by
  rw [uploaded_eq, listing, List.filter_cons, if_pos (decide_eq_true h.listed), listing]

/-- A run that stores nothing changes nothing that the bucket lists. -/
theorem snap_silent (ho : Ordered (a.uploaded bucket)) (hs : ¬ a.storesSome) :
    listing (snap a bucket) = listing bucket := by
  have hp : ¬ a.prunes = true := fun hp => hs (prunes_iff.mp hp).1.some
  rw [snap_eq ho, if_neg hp]
  split
  · next hr =>
    obtain ⟨hreach, hnamed⟩ := (Bool.and_eq_true _ _).mp hr
    have hnone : a.dir.stored = [] := by
      by_contra hne
      exact hs ⟨hreach, hnamed, dir_listed.mp hne⟩
    simp [uploaded_eq, listing, hnone]
  · rfl

theorem take_listing_snap (ho : Ordered (a.uploaded bucket)) (hs : a.storesSome) :
    (listing (snap a bucket)).take 2 = (a.dir :: listing bucket).take 2 := by
  rw [← listing_dir hs, snap_eq ho]
  split
  · exact take_listing_removed ho
  · rw [if_pos (by rw [hs.1, hs.2.1]; rfl)]

/-- What is complete after removals was so before. -/
theorem complete_of_removed {old : List Nat} (h : (a.removed old d).complete) : d.complete := by
  unfold Snap.removed at h
  split at h
  · obtain ⟨hne, hall⟩ := h
    refine ⟨fun hnil => hne (by simp [hnil]), fun b hb k hk => List.mem_of_mem_filter (hall b hb k hk)⟩
  · exact h

/-- Each directory is some run's, and a complete one is of a run that stored all. -/
theorem mem_bucketAfter (hi : runs.Pairwise (·.ts > ·.ts)) :
    Ordered (bucketAfter runs) ∧
      ∀ d ∈ bucketAfter runs, ∃ f ∈ runs, f.ts = d.ts ∧ (d.complete → f.storesAll) := by
  induction runs with
  | nil => exact ⟨.nil, fun d hd => nomatch hd⟩
  | cons a earlier ih =>
    obtain ⟨hnew, hrest⟩ := List.pairwise_cons.mp hi
    obtain ⟨ho, hmem⟩ := ih hrest
    have hinc : Increasing (bucketAfter earlier) a := fun d hd => by
      obtain ⟨f, hf, hts, _⟩ := hmem d hd
      exact hts ▸ hnew f hf
    have hu := ordered_uploaded ho hinc
    refine ⟨ordered_snap ho hinc, fun d hd => ?_⟩
    have hold : ∀ e ∈ bucketAfter earlier,
        ∃ f ∈ a :: earlier, f.ts = e.ts ∧ (e.complete → f.storesAll) := fun e he => by
      obtain ⟨f, hf, h⟩ := hmem e he
      exact ⟨f, List.mem_cons_of_mem _ hf, h⟩
    have hup : a.reachable = true → a.named = true → ∀ e ∈ a.uploaded (bucketAfter earlier),
        ∃ f ∈ a :: earlier, f.ts = e.ts ∧ (e.complete → f.storesAll) := fun hr hn e he => by
      rcases List.mem_cons.mp he with rfl | he
      · exact ⟨a, List.mem_cons_self, rfl, fun hc => ⟨hr, hn, dir_complete.mp hc⟩⟩
      · exact hold e he
    rw [bucketAfter, snap_eq hu] at hd
    split at hd
    · next hp =>
      obtain ⟨e, he, rfl⟩ := List.mem_map.mp hd
      have hc := (prunes_iff.mp hp).1
      obtain ⟨f, hf, hts, hfull⟩ := hup hc.1 hc.2.1 e he
      exact ⟨f, hf, by simpa using hts, fun h => hfull (complete_of_removed h)⟩
    · split at hd
      · next hr =>
        obtain ⟨hreach, hnamed⟩ := (Bool.and_eq_true _ _).mp hr
        exact hup hreach hnamed d hd
      · exact hold d hd

theorem increasing_after (hi : (a :: earlier).Pairwise (·.ts > ·.ts)) :
    Increasing (bucketAfter earlier) a := fun d hd => by
  obtain ⟨hnew, hrest⟩ := List.pairwise_cons.mp hi
  obtain ⟨f, hf, hts, _⟩ := (mem_bucketAfter hrest).2 d hd
  exact hts ▸ hnew f hf

theorem uploaded_ordered (hi : (a :: earlier).Pairwise (·.ts > ·.ts)) :
    Ordered (a.uploaded (bucketAfter earlier)) :=
  ordered_uploaded (mem_bucketAfter (List.pairwise_cons.mp hi).2).1 (increasing_after hi)

/-- The two newest listed are those of the last two runs that stored anything,
as these stored them. -/
theorem take_listing_after (hi : runs.Pairwise (·.ts > ·.ts)) :
    (listing (bucketAfter runs)).take 2 = ((stored runs).map Snap.dir).take 2 := by
  induction runs with
  | nil => rfl
  | cons a earlier ih =>
    have hu := uploaded_ordered hi
    have hnewest := ih (List.pairwise_cons.mp hi).2
    rw [bucketAfter, stored, List.filter_cons]
    by_cases hs : a.storesSome
    · rw [take_listing_snap hu hs, if_pos (decide_eq_true hs), List.map_cons, List.take_succ_cons,
        List.take_succ_cons]
      have hone := congrArg (List.take 1) hnewest
      rw [List.take_take, List.take_take] at hone
      exact congrArg _ hone
    · rw [snap_silent hu hs, if_neg (by simpa using hs)]
      exact hnewest

/-- At a run that stores, the two newest are its own and the last one's before it. -/
theorem newest_two (hi : (a :: earlier).Pairwise (·.ts > ·.ts)) (hs : a.storesSome) :
    (listing (a.uploaded (bucketAfter earlier))).take 2 =
      a.dir :: ((stored earlier).head?.map Snap.dir).toList := by
  have hone := congrArg (List.take 1) (take_listing_after (List.pairwise_cons.mp hi).2)
  rw [List.take_take, List.take_take] at hone
  rw [listing_dir hs, List.take_succ_cons]
  refine congrArg _ (hone.trans ?_)
  cases stored earlier <;> rfl

/-! ## Safe histories -/

/-- The run takes no usable backup too early. -/
def SafeAfter (a : Snap) (earlier : List Snap) : Prop := PrunesSafely a (bucketAfter earlier)

/-- What is past the two newest is older than the last run that stored before. -/
theorem newestComplete_of_inFull (hi : (a :: earlier).Pairwise (·.ts > ·.ts))
    (hn : NewestInFull a earlier) : NewestComplete a (bucketAfter earlier) := by
  intro hprunes ⟨d, hd, hcd⟩
  obtain ⟨hcounts, hlisted⟩ := prunes_iff.mp hprunes
  have ho := uploaded_ordered hi
  have htwo := newest_two hi hcounts.some
  have hpast : d.ts ∈ past (a.uploaded (bucketAfter earlier)) := List.mem_map_of_mem hd
  cases hst : stored earlier with
  | nil =>
    -- one directory listed: nothing is past it
    rw [hst] at htwo
    have hlen := congrArg List.length htwo
    have hpos := List.length_pos_of_mem hd
    simp only [List.length_take, List.length_drop, List.head?_nil, Option.map_none, Option.toList_none,
      List.length_cons, List.length_nil] at hlen hpos
    omega
  | cons p older =>
    rw [hst, List.head?_cons, Option.map_some, Option.toList_some] at htwo
    have hold : d.ts < p.ts := (kept_newer ho (x := p.dir) (by rw [htwo]; simp) hpast).1
    have hold' : d.ts < a.ts := (kept_newer ho (x := a.dir) (by rw [htwo]; simp) hpast).1
    have hmem : d ∈ bucketAfter earlier := by
      have hup := (mem_listing.mp (List.mem_of_mem_drop hd)).1
      refine (List.mem_cons.mp hup).resolve_left fun he => ?_
      exact absurd (congrArg Dir.ts he) hold'.ne
    obtain ⟨f, hf, hts, hfull⟩ := (mem_bucketAfter (List.pairwise_cons.mp hi).2).2 d hmem
    have hfold : f ∈ p :: older := by
      rw [← hst]
      exact List.mem_filter.mpr ⟨hf, decide_eq_true (hfull hcd).some⟩
    have htail : f ∈ older := by
      refine (List.mem_cons.mp hfold).resolve_left fun he => ?_
      rw [← hts, he] at hold
      exact lt_irrefl _ hold
    obtain ⟨ha, hp⟩ := hn hcounts hlisted p (by rw [hst]; rfl) ⟨f, by rw [hst]; exact htail, hfull hcd⟩
    rw [htwo]
    intro x hx
    rcases List.mem_cons.mp hx with rfl | hx
    · exact ha.complete
    · rw [List.mem_singleton.mp hx]
      exact hp.complete

theorem completeAt_le (hi : (a :: earlier).Pairwise (·.ts > ·.ts))
    (h : CompleteAt (bucketAfter (a :: earlier)) ts) : ts ≤ a.ts := by
  obtain ⟨d, hd, rfl, _⟩ := h
  obtain ⟨f, hf, hts, _⟩ := (mem_bucketAfter hi).2 d hd
  rcases List.mem_cons.mp hf with rfl | hf
  · exact hts.ge
  · exact hts ▸ ((List.pairwise_cons.mp hi).1 f hf).le

/-- In a safe history, once a run stored all before the last one that stored
anything, a complete directory older than the last one's stays. -/
theorem older_complete (hi : runs.Pairwise (·.ts > ·.ts)) (hsafe : EachRun SafeAfter runs)
    (hp : p ∈ (stored runs).head?) (hf : f ∈ (stored runs).tail) (hfull : f.storesAll) :
    ∃ ts < p.ts, CompleteAt (bucketAfter runs) ts := by
  induction runs generalizing p f with
  | nil => cases hp
  | cons a earlier ih =>
    have hu := uploaded_ordered hi
    obtain ⟨hnew, hrest⟩ := List.pairwise_cons.mp hi
    by_cases hs : a.storesSome
    · have hst : stored (a :: earlier) = a :: stored earlier := by
        rw [stored, List.filter_cons, if_pos (decide_eq_true hs), stored]
      rw [hst] at hp hf
      cases hp
      -- a complete directory of an earlier run, before this one
      obtain ⟨ts, hc⟩ : ∃ ts, CompleteAt (bucketAfter earlier) ts := by
        cases hq : stored earlier with
        | nil => rw [hq] at hf; cases hf
        | cons q older =>
          rw [hq, List.tail_cons] at hf
          rcases List.mem_cons.mp hf with rfl | hf
          · have hdir : f.dir ∈ (listing (bucketAfter earlier)).take 2 := by
              rw [take_listing_after hrest, hq]
              simp
            exact ⟨f.ts, f.dir, (mem_listing.mp (List.mem_of_mem_take hdir)).1, rfl, hfull.complete⟩
          · obtain ⟨ts, _, hc⟩ := ih hrest hsafe.2 (by rw [hq]; rfl) (by rw [hq]; exact hf) hfull
            exact ⟨ts, hc⟩
      by_cases hgone : CompleteAt (snap a (bucketAfter earlier)) ts
      · obtain ⟨d, hd, hts, _⟩ := hc
        exact ⟨ts, hts ▸ increasing_after hi d hd, hgone⟩
      · obtain ⟨t₁, t₂, _, hlt, h₁, h₂⟩ := hsafe.1 ts hc hgone
        exact ⟨t₂, hlt.trans_le (completeAt_le hi h₁), h₂⟩
    · have hst : stored (a :: earlier) = stored earlier := by
        rw [stored, List.filter_cons, if_neg (by simpa using hs), stored]
      rw [hst] at hp hf
      obtain ⟨ts, hts, hc⟩ := ih hrest hsafe.2 hp hf hfull
      refine ⟨ts, hts, ?_⟩
      by_contra hgone
      exact hs (prunes_iff.mp (taken_past hu hc hgone).1).1.some

/-- In a safe history whose removals succeed, the next run's two newest being
complete asks for no more than the runs that made them. -/
theorem inFull_of_newestComplete (hi : (a :: earlier).Pairwise (·.ts > ·.ts))
    (hsafe : EachRun SafeAfter earlier) (hn : NewestComplete a (bucketAfter earlier)) :
    NewestInFull a earlier := by
  rintro hcounts hlisted p hp ⟨f, hf, hfull⟩
  have ho := uploaded_ordered hi
  have htwo := newest_two hi hcounts.some
  rw [Option.mem_def.mp hp, Option.map_some, Option.toList_some] at htwo
  obtain ⟨ts, hts, d, hd, rfl, hcd⟩ := older_complete (List.pairwise_cons.mp hi).2 hsafe hp hf hfull
  have hpast : d ∈ (listing (a.uploaded (bucketAfter earlier))).drop 2 := by
    have hlist := hcd.listed (List.mem_cons_of_mem a.dir hd)
    rw [← uploaded_eq, ← List.take_append_drop 2 (listing _), List.mem_append, htwo] at hlist
    refine hlist.resolve_left fun h => ?_
    rcases List.mem_cons.mp h with he | h
    · exact absurd (congrArg Dir.ts he) (increasing_after hi d hd).ne
    · exact absurd (congrArg Dir.ts (List.mem_singleton.mp h)) hts.ne
  have hboth := hn (prunes_iff.mpr ⟨hcounts, hlisted⟩) ⟨d, hpast, hcd⟩
  rw [htwo] at hboth
  have hpsome : p.storesSome :=
    of_decide_eq_true (List.mem_filter.mp (List.mem_of_mem_head? hp)).2
  exact ⟨hcounts.some.all (hboth _ (by simp)), hpsome.all (hboth _ (by simp))⟩

theorem eachRun_safe (hi : runs.Pairwise (·.ts > ·.ts)) (h : EachRun NewestInFull runs) :
    EachRun SafeAfter runs := by
  induction runs with
  | nil => trivial
  | cons a earlier ih =>
    exact ⟨prunesSafely_of_newest (uploaded_ordered hi) (newestComplete_of_inFull hi h.1),
      ih (List.pairwise_cons.mp hi).2 h.2⟩

theorem eachRun_inFull (hi : runs.Pairwise (·.ts > ·.ts)) (hrm : ∀ a ∈ runs, a.removesAll)
    (h : EachRun SafeAfter runs) : EachRun NewestInFull runs := by
  induction runs with
  | nil => trivial
  | cons a earlier ih =>
    have hn := newest_of_prunesSafely (uploaded_ordered hi) (hrm a List.mem_cons_self) h.1
    exact ⟨inFull_of_newestComplete hi h.2 hn,
      ih (List.pairwise_cons.mp hi).2 (fun b hb => hrm b (List.mem_cons_of_mem _ hb)) h.2⟩

/-- Safe runs leave a complete directory for each they take. -/
theorem complete_stays (hsafe : EachRun SafeAfter runs) (he : earlier <:+ runs)
    (hc : ∃ ts, CompleteAt (bucketAfter earlier) ts) : ∃ ts, CompleteAt (bucketAfter runs) ts := by
  induction runs with
  | nil => rwa [List.suffix_nil.mp he] at hc
  | cons a before ih =>
    rcases List.suffix_cons_iff.mp he with rfl | he
    · exact hc
    · obtain ⟨ts, hts⟩ := ih hsafe.2 he
      by_cases hgone : CompleteAt (snap a (bucketAfter before)) ts
      · exact ⟨ts, hgone⟩
      · obtain ⟨t₁, _, _, _, h₁, _⟩ := hsafe.1 ts hts hgone
        exact ⟨t₁, h₁⟩

/-- **When the prune destroys no usable backup too early.** Of every history of
runs with increasing timestamps, whatever else fails: if each run that counts a
block, and the last before it that stored anything, stored all their head blocks
once a run before those two did, then every run takes a complete directory only
with two newer complete ones there, and a complete backup, once there, is there
for ever after. Where every removal succeeds, only such histories are safe. -/
theorem prune_keeps_usable (runs : List Snap) (hi : runs.Pairwise (·.ts > ·.ts)) :
    (EachRun NewestInFull runs → EachRun SafeAfter runs ∧
      ∀ earlier, earlier <:+ runs → (∃ ts, CompleteAt (bucketAfter earlier) ts) →
        ∃ ts, CompleteAt (bucketAfter runs) ts) ∧
    ((∀ a ∈ runs, a.removesAll) → (EachRun SafeAfter runs ↔ EachRun NewestInFull runs)) := by
  refine ⟨fun h => ⟨eachRun_safe hi h, fun earlier he hc => ?_⟩, fun hrm => ?_⟩
  · exact complete_stays (eachRun_safe hi h) he hc
  · exact ⟨eachRun_inFull hi hrm, eachRun_safe hi⟩

/-- Two head blocks, of which the second stops after its first file. -/
def Snap.partly (ts : Nat) : Snap :=
  { Snap.clean ts [head "A", head "B"] with
    copied := fun u => u == "A"
    written := fun k => k.2 == "meta.json" }

/-- A partial upload before the first full one, then three in full and one that
stores nothing: the last full run takes the partial one and the oldest full one. -/
theorem fourth_run_safe :
    let runs : List Snap := [.clean 5 [], .clean 4 [head "D"], .clean 3 [head "C"],
      .clean 2 [head "B"], .partly 1]
    EachRun SafeAfter runs ∧ CompleteAt (bucketAfter (runs.drop 2)) 2 ∧
      ¬ CompleteAt (bucketAfter runs) 2 ∧ ∃ ts, CompleteAt (bucketAfter runs) ts := by
  intro runs
  obtain ⟨hsafe, hever⟩ := (prune_keeps_usable runs (by decide)).1 (by decide)
  have hc : CompleteAt (bucketAfter (runs.drop 2)) 2 := by decide
  exact ⟨hsafe, hc, by decide, hever _ (List.drop_suffix 2 runs) ⟨2, hc⟩⟩

/-- After two partly uploaded snapshots the only usable backup is removed. -/
theorem partly_uploaded_prunes : ¬ ∀ runs : List Snap, runs.Pairwise (·.ts > ·.ts) →
    EachRun SafeAfter runs ∧
      ∀ earlier, earlier <:+ runs → (∃ ts, CompleteAt (bucketAfter earlier) ts) →
        ∃ ts, CompleteAt (bucketAfter runs) ts := by
  intro hevery
  let runs : List Snap := [.partly 3, .partly 2, .clean 1 [head "A", head "B"]]
  obtain ⟨_, hever⟩ := hevery runs (by decide)
  obtain ⟨ts, d, hd, _, hcd⟩ := hever (runs.drop 2) (List.drop_suffix 2 runs) ⟨1, by decide⟩
  have hnone : ∀ d ∈ bucketAfter runs, ¬ d.complete := by decide
  exact hnone d hd hcd

end BigDataPlatform.HeadBackup
