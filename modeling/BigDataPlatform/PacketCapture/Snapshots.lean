import BigDataPlatform.PacketCapture.EveryRun

/-! # Snapshots are shipped as they appear

What is under a snapshot's name, in the directory or in the bucket, is what
capture.sh published under it, and a snapshot that is in neither was taken by
the cap; in every order of the two uploaders' commands. -/
namespace BigDataPlatform.PacketCapture
open BigDataPlatform.Lib.Pack BigDataPlatform.Lib.FileSystem BigDataPlatform.Lib.Transition

variable {cfg : Config} {s t : Sys} {l : Label} {ls : List Label} {f : Snapshot} {b : Bytes}

/-- The bytes are under the snapshot's name, in the directory or in the bucket. -/
def Holds (s : Sys) (f : Snapshot) (b : Bytes) : Prop :=
  s.env.fs.read (.snapshot f) = some b ∨ s.env.s3 (.snapshot f) = some b

/-- Where a step takes what it leaves under a snapshot's name. -/
theorem step_snapshot (ho : Originals cfg s) (h : step cfg l s = some t) :
    (t.env.fs.read (.snapshot f) = some b →
      s.env.fs.read (.snapshot f) = some b ∨ l = .publish f b) ∧
    (t.env.s3 (.snapshot f) = s.env.s3 (.snapshot f) ∨
      ∃ b, t.env.s3 (.snapshot f) = some b ∧ s.env.fs.read (.snapshot f) = some b) := by
  have hread : (∀ i, t.env.fs.lookup (.snapshot f) = some i →
      s.env.fs.lookup (.snapshot f) = some i ∧ t.env.fs.node i = s.env.fs.node i) →
      t.env.fs.read (.snapshot f) = some b → s.env.fs.read (.snapshot f) = some b := by
    intro hsame hr
    obtain ⟨i, hi, rfl⟩ := Option.map_eq_some_iff.mp hr
    obtain ⟨hl, hn⟩ := hsame i hi
    rw [hn]
    exact read_eq hl
  rcases step_spared ho h with hsp | ⟨r, rfl⟩ | ⟨g, c, rfl⟩
  · exact ⟨fun hr => Or.inl (hsp.read rfl hr), hsp.object _⟩
  · cases step_acts h with
    | rotates _ _ =>
      refine ⟨fun hr => Or.inl (hread (fun i hi => ?_) hr), Or.inl rfl⟩
      have hne : FileName.snapshot f ≠ .pcap (s.td.current + 1) := nofun
      rw [rotate_lookup, if_neg hne] at hi
      exact ⟨hi, rotate_node r hne hi⟩
    | appends _ _ _ =>
      refine ⟨fun hr => Or.inl (hread (fun i hi => ⟨hi, extend_node r ?_⟩) hr), Or.inl rfl⟩
      rintro rfl
      cases ho.fd_name _ hi
  · cases step_acts h
    refine ⟨fun hr => ?_, Or.inl rfl⟩
    by_cases hg : f = g
    · subst hg
      exact Or.inr (congrArg _ (Option.some.inj ((publish_read ..).symm.trans hr)))
    · have hne : FileName.snapshot f ≠ .snapshot g := fun he => hg (FileName.snapshot.inj he)
      exact Or.inl (hread (fun i hi => publish_other c _ hne hi) hr)

/-- Everything under a snapshot's name was published there. -/
structure Published (ls : List Label) (s : Sys) : Prop where
  file : ∀ f b, s.env.fs.read (.snapshot f) = some b → .publish f b ∈ ls
  object : ∀ f b, s.env.s3 (.snapshot f) = some b → .publish f b ∈ ls

theorem published_step (ho : Originals cfg s) (hp : Published ls s) (h : step cfg l s = some t) :
    Published (ls ++ [l]) t := by
  refine ⟨fun f b hr => ?_, fun f b hb => ?_⟩
  · rcases (step_snapshot ho h).1 hr with hold | rfl
    · exact List.mem_append_left _ (hp.file f b hold)
    · simp
  · refine List.mem_append_left _ ?_
    rcases (step_snapshot (b := b) ho h).2 with hsame | ⟨c, hnew, hr⟩
    · exact hp.object f b (hsame ▸ hb)
    · rw [hb] at hnew
      cases hnew
      exact hp.file f b hr

theorem exec_published {clock : Nat} (h : exec (step cfg) ls (init cfg clock) = some s) :
    Originals cfg s ∧ Published ls s := by
  refine exec_history (fun ls s => Originals cfg s ∧ Published ls s) h
    ⟨originals_init cfg clock, ?_, fun f b hb => by cases hb⟩
    fun hp hs => ⟨originals_step hp.1 hs, published_step hp.1 hp.2 hs⟩
  intro f b hr
  have hnone : (init cfg clock).env.fs.lookup (.snapshot f) = none :=
    (Fs.lookup_truncate Fs.empty _ _ clock).trans (if_neg nofun)
  rw [Fs.read, hnone] at hr
  cases hr

/-- **A snapshot is what was published.** In every run, any bytes found under a
snapshot's name, in the directory or in the bucket, were published whole under
exactly that name. -/
theorem snapshots_published {clock : Nat} (h : exec (step cfg) ls (init cfg clock) = some s)
    (hb : Holds s f b) : Label.publish f b ∈ ls :=
  hb.elim ((exec_published h).2.file f b) ((exec_published h).2.object f b)

/-- A snapshot whose upload fails, a restart of the uploader, and the sweep that ships it. -/
def shippedSnapshot : List Label :=
  [.publish (.pods 0) [1, 2]] ++ commands .loop [.ok, .ok, .ok, .ok, .ok, .ok, .uploadFails false] ++
    [.kill] ++ commands .loop [.ok, .ok, .ok, .ok, .ok, .ok, .ok, .ok]

theorem shippedSnapshot_run : ∃ s, exec (step deployed) shippedSnapshot (init deployed 0) = some s ∧
    s.env.fs.read (.snapshot (.pods 0)) = none ∧ s.env.s3 (.snapshot (.pods 0)) = some [1, 2] := by
  obtain ⟨s, hs, hp⟩ := (Option.any_eq_true
    (fun s : Sys => s.env.fs.read (.snapshot (.pods 0)) = none ∧
      s.env.s3 (.snapshot (.pods 0)) = some [1, 2])
    (exec (step deployed) shippedSnapshot (init deployed 0))).mp (by decide +kernel)
  exact ⟨s, hs, of_decide_eq_true hp⟩

theorem shippedSnapshot_published : ∃ s, exec (step deployed) shippedSnapshot (init deployed 0) = some s ∧
    Holds s (.pods 0) [1, 2] ∧ Label.publish (.pods 0) [1, 2] ∈ shippedSnapshot := by
  obtain ⟨s, hs, _, hb⟩ := shippedSnapshot_run
  exact ⟨s, hs, Or.inr hb, snapshots_published hs (Or.inr hb)⟩

/-! ## None is lost -/

theorem Moves.unlinks_snapshot {env : Env} {u u' : Uploader} {c : Choice} {ns : List FileName}
    (h : Moves cfg env u c (.unlink ns) u') (hf : .snapshot f ∈ ns) :
    u.pc = .removeSnapshot f ∨ c = .cap ns := by
  generalize he : Effect.unlink ns = e at h
  cases h with
  | removes hpc =>
    cases he
    generalize u.pc = pc at hpc
    rw [List.mem_singleton] at hf
    subst hf
    cases hpc
    exact Or.inl rfl
  | caps _ _ _ => cases he; exact Or.inr rfl
  | @copyFails _ _ _ stored _ => cases stored <;> cases he
  | _ => cases he

/-- A command reaches `rm -f` of a snapshot by a copy that succeeded. -/
theorem Moves.copied_snapshot {env : Env} {u u' : Uploader} {c : Choice} {e : Effect}
    (h : Moves cfg env u c e u') (hpc : u'.pc = .removeSnapshot f) :
    u.pc = .removeSnapshot f ∨ e = .put (.snapshot f) ∧ (env.fs.lookup (.snapshot f)).isSome := by
  cases h with
  | gone _ _ _ => exact Or.inl hpc
  | snapshotGone _ _ => exact Or.inl hpc
  | @copied n done otherwise hc hl =>
    change done = _ at hpc
    generalize u.pc = pc at hc
    subst hpc
    cases hc
    exact Or.inr ⟨rfl, hl⟩
  | @copyFails n done otherwise stored hc =>
    change otherwise = _ at hpc
    generalize u.pc = pc at hc
    subst hpc
    cases hc
  | @removes n after hr =>
    change after = _ at hpc
    generalize u.pc = pc at hr
    subst hpc
    cases hr
  | below _ _ => unfold Uploader.finish at hpc; split at hpc <;> cases hpc
  | caps _ _ _ => unfold Uploader.finish at hpc; split at hpc <;> cases hpc
  | _ => cases hpc

/-- A published snapshot is held or was capped, and an uploader about to remove
it has stored it. -/
structure Accounted (ls : List Label) (f : Snapshot) (b : Bytes) (s : Sys) : Prop where
  there : .publish f b ∈ ls → Holds s f b ∨ ∃ l ∈ ls, .snapshot f ∈ l.victims
  copied : ∀ w, (s.up w).pc = .removeSnapshot f → s.env.s3 (.snapshot f) = some b

/-- The uploader that removes the snapshot next was about to before the step,
or has just copied it. -/
theorem step_copied (h : step cfg l s = some t) {w : Who} (hpc : (t.up w).pc = .removeSnapshot f) :
    (s.up w).pc = .removeSnapshot f ∨
      ∃ c, s.env.fs.read (.snapshot f) = some c ∧ t.env.s3 (.snapshot f) = some c := by
  cases step_acts h with
  | @moves v c e u' hm =>
    dsimp only at hpc
    by_cases hv : w = v
    · subst hv
      rw [Function.update_self] at hpc
      rcases hm.copied_snapshot hpc with hsame | ⟨rfl, hl⟩
      · exact Or.inl hsame
      · obtain ⟨i, hi⟩ := Option.isSome_iff_exists.mp hl
        exact Or.inr ⟨_, read_eq hi, put_read (read_eq hi)⟩
    · rw [Function.update_of_ne hv] at hpc
      exact Or.inl hpc
  | kill =>
    cases w
    · cases hpc
    · exact Or.inl hpc
  | flush _ =>
    cases w
    · exact Or.inl hpc
    · cases hpc
  | trapUpload _ _ =>
    cases w
    · cases hpc
    · exact Or.inl hpc
  | _ => exact Or.inl hpc

theorem accounted_step (ho : Originals cfg s) (hp : Published ls s) (ha : Accounted ls f b s)
    (honce : ∀ b', .publish f b' ∈ ls ++ [l] → b' = b) (h : step cfg l s = some t) :
    Accounted (ls ++ [l]) f b t := by
  have hfile : ∀ {c}, s.env.fs.read (.snapshot f) = some c → c = b := fun hr =>
    honce _ (List.mem_append_left _ (hp.file f _ hr))
  have hstays : s.env.s3 (.snapshot f) = some b → t.env.s3 (.snapshot f) = some b := by
    intro hs
    rcases (step_snapshot (b := b) ho h).2 with hsame | ⟨c, hnew, hr⟩
    · exact hsame.trans hs
    · rw [hnew, hfile hr]
  refine ⟨fun hmem => ?_, fun w hpc => ?_⟩
  · rcases List.mem_append.mp hmem with hold | hnew
    · rcases ha.there hold with (hr | hs) | ⟨l', hl', hv⟩
      · cases hnow : t.env.fs.read (.snapshot f) with
        | some c =>
          have hc := honce c ((published_step ho hp h).file f c hnow)
          exact Or.inl (Or.inl (hc ▸ hnow))
        | none =>
          obtain ⟨i, hi, _⟩ := Option.map_eq_some_iff.mp hr
          obtain ⟨w, c, ns, u, rfl, hm, hns⟩ := step_gone h rfl hi (Option.map_eq_none_iff.mp hnow)
          rcases hm.unlinks_snapshot hns with hpc | rfl
          · exact Or.inl (Or.inr (hstays (ha.copied w hpc)))
          · exact Or.inr ⟨.run w (.cap ns), by simp, hns⟩
      · exact Or.inl (Or.inr (hstays hs))
      · exact Or.inr ⟨l', List.mem_append_left _ hl', hv⟩
    · rw [List.mem_singleton] at hnew
      subst hnew
      cases step_acts h
      exact Or.inl (Or.inl (publish_read ..))
  · rcases step_copied h hpc with hsame | ⟨c, hr, hs⟩
    · exact hstays (ha.copied w hsame)
    · rw [hs, hfile hr]

/-- **No snapshot is lost.** In every run that uses a snapshot's name for one
content, a published snapshot is in the directory or in the bucket, byte for
byte, unless the cap removed it. -/
theorem snapshots_kept {clock : Nat} (h : exec (step cfg) ls (init cfg clock) = some s)
    (honce : ∀ b', Label.publish f b' ∈ ls → b' = b) (hpub : Label.publish f b ∈ ls) :
    Holds s f b ∨ ∃ l ∈ ls, FileName.snapshot f ∈ l.victims := by
  have hrun := exec_history
    (fun ls s => (∀ b', Label.publish f b' ∈ ls → b' = b) →
      (Originals cfg s ∧ Published ls s) ∧ Accounted ls f b s) h ?_ ?_
  · exact (hrun honce).2.there hpub
  · refine fun _ => ⟨exec_published rfl, nofun, fun w hpc => ?_⟩
    cases w <;> cases hpc
  · intro ls s l t hp hs honce
    obtain ⟨⟨ho, hpub⟩, ha⟩ := hp fun b' hb' => honce b' (List.mem_append_left _ hb')
    exact ⟨⟨originals_step ho hs, published_step ho hpub hs⟩, accounted_step ho hpub ha honce hs⟩

theorem shippedSnapshot_kept : ∃ s, exec (step deployed) shippedSnapshot (init deployed 0) = some s ∧
    (Holds s (.pods 0) [1, 2] ∨
      ∃ l ∈ shippedSnapshot, FileName.snapshot (.pods 0) ∈ l.victims) := by
  obtain ⟨s, hs, _⟩ := shippedSnapshot_run
  refine ⟨s, hs, snapshots_kept hs (fun b' hb' => ?_) ?_⟩
  · simpa [shippedSnapshot, commands] using hb'
  · simp [shippedSnapshot]

end BigDataPlatform.PacketCapture
