import Mathlib.Data.List.Sort
import Mathlib.Data.List.Pairwise
import BigDataPlatform.Lib.Transition

/-! # tsdb-head-backup: snap() and its pruning

Each run uploads the head blocks of a fresh TSDB snapshot under
`periodic-snapshots/<pod>/<ts>/` and, if at least one block went up, removes
every listed directory but the newest two. The prune counts a partly uploaded
directory like any other. -/
namespace BigDataPlatform.HeadBackup
open BigDataPlatform.Lib.Transition

/-- A block directory of the local snapshot, with its files. -/
structure Block where
  ulid : String
  files : List String
deriving DecidableEq

/-- An object's key below its directory: block and file. -/
abbrev Key := String × String

/-- A directory under `periodic-snapshots/<pod>/`. `heads` is what its snapshot
held, `stored` what the bucket has of it; the bucket lists it while that is not empty. -/
structure Dir where
  ts : Nat
  heads : List Block
  stored : List Key
deriving DecidableEq

/-- What one run of `snap` finds and how its commands end. -/
structure Snap where
  reachable : Bool                  -- /dev/tcp/127.0.0.1/9090 opens
  named : Bool                      -- the answer carries a snapshot name
  ts : Nat
  blocks : List Block               -- "$DB/snapshots/$name"/*/
  persisted : String → Bool         -- [ -d "$DB/$u" ]
  copied : String → Bool            -- `aws s3 cp --recursive` of the block exits 0
  written : Key → Bool              -- what a failing copy has stored
  listed : Bool                     -- `aws s3 ls` succeeds
  survives : Nat → Key → Bool       -- what a failing `aws s3 rm` leaves

def Snap.isHead (a : Snap) (b : Block) : Bool := "meta.json" ∈ b.files && !a.persisted b.ulid

def Snap.heads (a : Snap) : List Block := a.blocks.filter a.isHead

/-- The keys of a block. -/
def Block.keys (b : Block) : List Key := b.files.map (b.ulid, ·)

/-- The upload loop: how many blocks went up, and what is stored. -/
def Snap.upload (a : Snap) : List Block → Nat × List Key
  | [] => (0, [])
  | b :: bs =>
    let (n, stored) := a.upload bs
    if "meta.json" ∉ b.files then (n, stored)
    else if a.persisted b.ulid then (n, stored)
    else if a.copied b.ulid then (n + 1, b.keys ++ stored)
    else (n, b.keys.filter a.written ++ stored)

/-- The directories the bucket lists. -/
def listing (bucket : List Dir) : List Dir := bucket.filter (·.stored ≠ [])

/-- `aws s3 ls "$DEST/" | awk '{print $2}'`. -/
def ls (bucket : List Dir) : List Nat := (listing bucket).map (·.ts)

/-- `aws s3 rm --recursive "$DEST/$old"`. -/
def Snap.rm (a : Snap) (bucket : List Dir) (old : Nat) : List Dir :=
  bucket.map fun d => if d.ts = old then { d with stored := d.stored.filter (a.survives old) } else d

/-- `sort -r | awk 'NR>2'`, and the removal of each line. -/
def Snap.prune (a : Snap) (bucket : List Dir) : List Dir :=
  if a.listed then (((ls bucket).insertionSort (· ≥ ·)).drop 2).foldl a.rm bucket else bucket

def snap (a : Snap) (bucket : List Dir) : List Dir :=
  if !a.reachable then bucket
  else if !a.named then bucket
  else
    let (n, stored) := a.upload a.blocks
    let bucket := ⟨a.ts, a.heads, stored⟩ :: bucket
    if 0 < n then a.prune bucket else bucket

/-! ## Usable backups -/

/-- The directory is there, with every head block of its snapshot in full. -/
def Dir.complete (d : Dir) : Prop := d.stored ≠ [] ∧ ∀ b ∈ d.heads, ∀ k ∈ b.keys, k ∈ d.stored

instance (d : Dir) : Decidable d.complete := inferInstanceAs (Decidable (_ ∧ _))

def CompleteAt (bucket : List Dir) (ts : Nat) : Prop := ∃ d ∈ bucket, d.ts = ts ∧ d.complete

instance (bucket : List Dir) (ts : Nat) : Decidable (CompleteAt bucket ts) :=
  inferInstanceAs (Decidable (∃ d ∈ bucket, _))

/-- A run takes a complete directory only when two newer complete ones are there. -/
def PrunesSafely (a : Snap) (bucket : List Dir) : Prop :=
  ∀ ts, CompleteAt bucket ts → ¬ CompleteAt (snap a bucket) ts →
    ∃ t₁ t₂, ts < t₂ ∧ t₂ < t₁ ∧ CompleteAt (snap a bucket) t₁ ∧ CompleteAt (snap a bucket) t₂

/-- The bucket as the prune finds it. -/
def Snap.uploaded (a : Snap) (bucket : List Dir) : List Dir :=
  ⟨a.ts, a.heads, (a.upload a.blocks).2⟩ :: bucket

def Snap.prunes (a : Snap) : Bool :=
  a.reachable && a.named && decide (0 < (a.upload a.blocks).1) && a.listed

/-- When the run prunes and a complete directory lies past the two newest, these
two are complete. -/
def NewestComplete (a : Snap) (bucket : List Dir) : Prop :=
  a.prunes = true →
    (∃ d ∈ (listing (a.uploaded bucket)).drop 2, d.complete) →
      ∀ d ∈ (listing (a.uploaded bucket)).take 2, d.complete

/-- Timestamps increase from run to run. -/
def Increasing (bucket : List Dir) (a : Snap) : Prop := ∀ d ∈ bucket, d.ts < a.ts

instance (bucket : List Dir) (a : Snap) : Decidable (Increasing bucket a) :=
  inferInstanceAs (Decidable (∀ d ∈ bucket, _))

def step (a : Snap) (bucket : List Dir) : Option (List Dir) := some (snap a bucket)

/-- Every removal of the run takes all it was given. -/
def Snap.removesAll (a : Snap) : Prop := ∀ ts k, a.survives ts k = false

variable {a : Snap} {bucket later : List Dir} {ts : Nat} {d d' : Dir}

/-! ## What the prune does -/

/-- What one removal makes of a directory. -/
def Snap.removed (a : Snap) (old : List Nat) (d : Dir) : Dir :=
  if d.ts ∈ old then { d with stored := d.stored.filter (a.survives d.ts) } else d

@[simp] theorem removed_ts (a : Snap) (old : List Nat) (d : Dir) : (a.removed old d).ts = d.ts := by
  unfold Snap.removed; split <;> rfl

/-- The removals together: each listed directory keeps what survives. -/
theorem foldl_rm (a : Snap) (old : List Nat) (bucket : List Dir) :
    old.foldl a.rm bucket = bucket.map (a.removed old) := by
  induction old generalizing bucket with
  | nil => exact (List.map_id'' (fun d => by simp [Snap.removed]) bucket).symm
  | cons o old ih =>
    rw [List.foldl_cons, ih, Snap.rm, List.map_map]
    refine List.map_congr_left fun d _ => ?_
    by_cases hd : d.ts = o <;> by_cases hm : d.ts ∈ old <;> simp [Snap.removed, hd, hm]

/-- Newest first. -/
def Ordered (bucket : List Dir) : Prop := bucket.Pairwise (·.ts > ·.ts)

theorem ls_sorted (ho : Ordered bucket) : (ls bucket).insertionSort (· ≥ ·) = ls bucket := by
  refine List.Pairwise.insertionSort_eq ?_
  rw [ls, List.pairwise_map]
  exact (ho.filter _).imp Nat.le_of_lt

/-- The timestamps that the prune removes: all but the two newest listed. -/
def past (bucket : List Dir) : List Nat := ((listing bucket).drop 2).map (·.ts)

theorem prune_eq (ho : Ordered bucket) :
    a.prune bucket = if a.listed then bucket.map (a.removed (past bucket)) else bucket := by
  rw [Snap.prune, ls_sorted ho, foldl_rm, past, ls, List.map_drop]

theorem ordered_uploaded (ho : Ordered bucket) (hi : Increasing bucket a) :
    Ordered (a.uploaded bucket) := List.pairwise_cons.mpr ⟨fun d hd => hi d hd, ho⟩

theorem snap_eq (ho : Ordered (a.uploaded bucket)) :
    snap a bucket = if a.prunes then (a.uploaded bucket).map (a.removed (past (a.uploaded bucket)))
      else if a.reachable && a.named then a.uploaded bucket else bucket := by
  have hp := prune_eq (a := a) ho
  unfold snap Snap.prunes
  cases a.reachable <;> cases a.named <;> simp only [Bool.not_true, Bool.not_false, Bool.false_and,
    Bool.true_and, if_true, Bool.false_eq_true, if_false, Bool.and_true, Bool.and_false]
  split
  · next hn =>
    simp only [hn, decide_true, Bool.true_and]
    exact hp
  · next hn => simp [hn, Snap.uploaded]

/-- A directory is at its timestamp only. -/
theorem Ordered.unique (ho : Ordered bucket) (hd : d ∈ bucket) (hd' : d' ∈ bucket)
    (h : d.ts = d'.ts) : d = d' := by
  by_contra hne
  have : Std.Symm fun x y : Dir => x.ts ≠ y.ts := ⟨fun _ _ => Ne.symm⟩
  have hdiff : bucket.Pairwise fun x y => x.ts ≠ y.ts := ho.imp Nat.ne_of_gt
  exact hdiff.forall hd hd' hne h

theorem mem_listing : d ∈ listing bucket ↔ d ∈ bucket ∧ d.stored ≠ [] := by
  simp [listing]

theorem Dir.complete.listed (hc : d.complete) (hd : d ∈ bucket) : d ∈ listing bucket :=
  mem_listing.mpr ⟨hd, hc.1⟩

/-- What the prune passes over is kept as it is. -/
theorem removed_of_kept (h : d.ts ∉ past bucket) : a.removed (past bucket) d = d := if_neg h

/-- The two newest listed directories are kept, and each is newer than what goes. -/
theorem kept_newer (ho : Ordered bucket) {x : Dir} (hx : x ∈ (listing bucket).take 2) (hts : ts ∈ past bucket) :
    ts < x.ts ∧ x.ts ∉ past bucket := by
  have hsplit : ((listing bucket).take 2 ++ (listing bucket).drop 2).Pairwise (·.ts > ·.ts) := by
    rw [List.take_append_drop]; exact ho.filter _
  have hnewer : ∀ t ∈ past bucket, t < x.ts := by
    intro t ht
    obtain ⟨d, hd, rfl⟩ := List.mem_map.mp ht
    exact (List.pairwise_append.mp hsplit).2.2 x hx d hd
  exact ⟨hnewer ts hts, fun hmem => lt_irrefl _ (hnewer _ hmem)⟩

/-- A complete directory that a run takes was past the two newest listed. -/
theorem taken_past (ho : Ordered (a.uploaded bucket)) (hc : CompleteAt bucket ts)
    (hgone : ¬ CompleteAt (snap a bucket) ts) :
    a.prunes = true ∧ ts ∈ past (a.uploaded bucket) ∧
      ∃ d ∈ (listing (a.uploaded bucket)).drop 2, d.complete := by
  obtain ⟨d, hd, rfl, hcd⟩ := hc
  have hup : d ∈ a.uploaded bucket := List.mem_cons_of_mem _ hd
  rw [snap_eq ho] at hgone
  split at hgone
  · next hprunes =>
    have hpast : d.ts ∈ past (a.uploaded bucket) := by
      by_contra hkept
      exact hgone ⟨d, List.mem_map.mpr ⟨d, hup, removed_of_kept hkept⟩, rfl, hcd⟩
    obtain ⟨d', hd', hts⟩ := List.mem_map.mp hpast
    have hmem := mem_listing.mp (List.mem_of_mem_drop hd')
    have heq := ho.unique hmem.1 hup hts
    exact ⟨hprunes, hpast, d', hd', heq ▸ hcd⟩
  · split at hgone
    · exact absurd ⟨d, hup, rfl, hcd⟩ hgone
    · exact absurd ⟨d, hd, rfl, hcd⟩ hgone

/-- A run whose two newest directories are complete, if anything complete is past
them, prunes safely. -/
theorem prunesSafely_of_newest (ho : Ordered (a.uploaded bucket)) (hn : NewestComplete a bucket) :
    PrunesSafely a bucket := by
  intro ts hc hgone
  obtain ⟨hprunes, hpast, hold⟩ := taken_past ho hc hgone
  have htwo := hn hprunes hold
  have hkept : ∀ x ∈ (listing (a.uploaded bucket)).take 2, ts < x.ts ∧ CompleteAt (snap a bucket) x.ts := by
    intro x hx
    obtain ⟨hlt, hnot⟩ := kept_newer ho hx hpast
    refine ⟨hlt, x, ?_, rfl, htwo x hx⟩
    rw [snap_eq ho, if_pos hprunes]
    exact List.mem_map.mpr ⟨x, (mem_listing.mp (List.mem_of_mem_take hx)).1, removed_of_kept hnot⟩
  obtain ⟨d, hd, _⟩ := hold
  have hpair : (listing (a.uploaded bucket)).Pairwise (·.ts > ·.ts) := ho.filter _
  match hl : listing (a.uploaded bucket) with
  | [] => rw [hl] at hd; cases hd
  | [_] => rw [hl] at hd; cases hd
  | x :: y :: rest =>
    rw [hl] at hkept hpair
    obtain ⟨hx, hcx⟩ := hkept x (by simp)
    obtain ⟨hy, hcy⟩ := hkept y (by simp)
    exact ⟨x.ts, y.ts, hy, (List.pairwise_cons.mp hpair).1 y (by simp), hcx, hcy⟩

/-- When every removal succeeds, only such runs prune safely. -/
theorem newest_of_prunesSafely (ho : Ordered (a.uploaded bucket))
    (hrm : a.removesAll) (hs : PrunesSafely a bucket) : NewestComplete a bucket := by
  intro hprunes ⟨d, hd, hcd⟩
  have hpast : d.ts ∈ past (a.uploaded bucket) := List.mem_map_of_mem hd
  -- what is complete after the run was complete before, among the two newest
  have hleft : ∀ ts, CompleteAt (snap a bucket) ts →
      ∃ f ∈ (listing (a.uploaded bucket)).take 2, f.ts = ts ∧ f.complete := by
    intro ts h
    obtain ⟨e, he, rfl, hce⟩ := h
    rw [snap_eq ho, if_pos hprunes] at he
    obtain ⟨f, hf, rfl⟩ := List.mem_map.mp he
    have hkept : f.ts ∉ past (a.uploaded bucket) := by
      intro hfp
      refine hce.1 ?_
      rw [Snap.removed, if_pos hfp]
      simp [hrm f.ts]
    rw [removed_of_kept hkept] at hce ⊢
    have hlist := hce.listed hf
    rw [← List.take_append_drop 2 (listing (a.uploaded bucket)), List.mem_append] at hlist
    exact ⟨f, hlist.resolve_right fun h => hkept (List.mem_map_of_mem h), rfl, hce⟩
  have hpair : (listing (a.uploaded bucket)).Pairwise (·.ts > ·.ts) := ho.filter _
  have hmem : d ∈ a.uploaded bucket := (mem_listing.mp (List.mem_of_mem_drop hd)).1
  match hl : listing (a.uploaded bucket) with
  | [] => rw [hl] at hd; cases hd
  | [_] => rw [hl] at hd; cases hd
  | x :: y :: rest =>
    have hx : x ∈ a.uploaded bucket := (mem_listing.mp (by rw [hl]; simp)).1
    have hdx : d.ts < x.ts := (kept_newer ho (by rw [hl]; simp) hpast).1
    have hold : d ∈ bucket := by
      refine (List.mem_cons.mp hmem).resolve_left ?_
      intro he
      subst he
      rcases List.mem_cons.mp hx with rfl | hx
      · exact lt_irrefl _ hdx
      · exact lt_asymm hdx ((List.pairwise_cons.mp ho).1 x hx)
    obtain ⟨t₁, t₂, _, hlt, h₁, h₂⟩ := hs d.ts ⟨d, hold, rfl, hcd⟩ fun hc => by
      obtain ⟨f, hf, hts, _⟩ := hleft _ hc
      exact (kept_newer ho hf hpast).1.ne' hts
    obtain ⟨f₁, hf₁, rfl, hc₁⟩ := hleft t₁ h₁
    obtain ⟨f₂, hf₂, rfl, hc₂⟩ := hleft t₂ h₂
    rw [hl] at hf₁ hf₂ hpair
    have hxy : y.ts < x.ts := (List.pairwise_cons.mp hpair).1 y (by simp)
    have hboth : x.complete ∧ y.complete := by
      simp only [List.take_succ_cons, List.take_zero, List.mem_cons, List.not_mem_nil, or_false]
        at hf₁ hf₂
      rcases hf₁ with rfl | rfl <;> rcases hf₂ with rfl | rfl
      · exact absurd hlt (lt_irrefl _)
      · exact ⟨hc₁, hc₂⟩
      · exact absurd hlt (lt_asymm hxy)
      · exact absurd hlt (lt_irrefl _)
    intro z hz
    simp only [List.take_succ_cons, List.take_zero, List.mem_cons, List.not_mem_nil, or_false] at hz
    rcases hz with rfl | rfl
    · exact hboth.1
    · exact hboth.2

theorem ordered_snap (ho : Ordered bucket) (hi : Increasing bucket a) : Ordered (snap a bucket) := by
  have hu := ordered_uploaded ho hi
  rw [snap_eq hu]
  split
  · exact List.pairwise_map.mpr (hu.imp fun h => by simpa using h)
  · split
    · exact hu
    · exact ho

theorem Reaches.ordered (h : Reaches step Increasing [] bucket) : Ordered bucket :=
  h.invariant Ordered List.Pairwise.nil fun ho hi hs => by cases hs; exact ordered_snap ho hi

/-- A run in which nothing fails, of a snapshot with these head blocks. -/
def Snap.clean (ts : Nat) (blocks : List Block) : Snap where
  reachable := true
  named := true
  ts := ts
  blocks := blocks
  persisted := fun _ => false
  copied := fun _ => true
  written := fun _ => true
  listed := true
  survives := fun _ _ => false

def head (ulid : String) : Block := ⟨ulid, ["meta.json", "chunks/000001", "index"]⟩

end BigDataPlatform.HeadBackup
