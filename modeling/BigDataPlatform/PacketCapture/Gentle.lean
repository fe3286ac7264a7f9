import BigDataPlatform.PacketCapture.Preserved

/-! # Gentle steps lose nothing

A step is gentle when no annotator opens a temporary file another one is
writing and the shutdown sweep starts after tcpdump has exited. Along gentle
steps every pcapng and every object stays true to its capture, and only the cap
takes a capture that the bucket does not have; the theorems about the shipper
differ in why their steps are gentle. -/
namespace BigDataPlatform.PacketCapture
open BigDataPlatform.Lib.Pack BigDataPlatform.Lib.FileSystem BigDataPlatform.Lib.Transition
open BigDataPlatform.PcapAnnotate

variable {cfg : Config} {s s' t : Sys} {u u' : Uploader} {c : Choice} {e : Effect} {l : Label}
  {x : Nat} {w : Who}

/-- The capture whose temporary file this command has open, and the inode. -/
def Pc.writes : Pc → Option (Nat × Nat)
  | .writing x fd _ _ _ => some (x, fd)
  | _ => none

/-- Two annotators write to different files. -/
def Apart (pc pc' : Pc) : Prop :=
  ∀ p p', pc.writes = some p → pc'.writes = some p' → p.1 ≠ p'.1 ∧ p.2 ≠ p'.2

theorem Apart.symm {pc pc' : Pc} (h : Apart pc pc') : Apart pc' pc := fun p p' hp hp' =>
  have := h p' p hp' hp
  ⟨Ne.symm this.1, Ne.symm this.2⟩

structure Inv (cfg : Config) (s : Sys) : Prop where
  core : Core cfg s
  up : ∀ w, UpOk cfg s (s.up w)
  apart : Apart (s.up .loop).pc (s.up .flush).pc
  later : ∀ x, s.td.current < x → s.log x = []

/-- The capture whose temporary file this command opens. -/
def Pc.opens : Pc → Option Nat
  | .convert x _ => some x
  | _ => none

def Pc.asleep : Pc → Bool
  | .trapSleep _ => true
  | _ => false

def FileName.capture : FileName → Option Nat
  | .pcap x => some x
  | _ => none

/-- The uploader that goes on to its next command without a failure. -/
def Label.proceeds : Label → Option Who
  | .run w .ok => some w
  | _ => none

/-- What the cap removes in this step. -/
def Label.victims : Label → List FileName
  | .run _ (.cap victims) => victims
  | _ => []

/-- No annotator opens the temporary file that the other one is writing. -/
def NoSharedTmp (s : Sys) (l : Label) : Prop :=
  ∀ w ∈ l.proceeds, ∀ x ∈ (s.up w).pc.opens, ∀ p ∈ (s.up w.other).pc.writes, p.1 ≠ x

/-- The shutdown sweep starts once tcpdump has exited. -/
def SweepAfterTcpdump (s : Sys) (l : Label) : Prop :=
  ∀ w ∈ l.proceeds, (s.up w).pc.asleep = true → s.td.running = false

/-- The cap removes no capture. -/
def CapSparesCaptures (l : Label) : Prop := ∀ n ∈ l.victims, n.capture = none

instance (s : Sys) (l : Label) : Decidable (NoSharedTmp s l) := by
  unfold NoSharedTmp; infer_instance

instance (s : Sys) (l : Label) : Decidable (SweepAfterTcpdump s l) := by
  unfold SweepAfterTcpdump; infer_instance

instance (l : Label) : Decidable (CapSparesCaptures l) := by
  unfold CapSparesCaptures; infer_instance

structure Gentle (s : Sys) (l : Label) : Prop where
  tmp : NoSharedTmp s l
  final : SweepAfterTcpdump s l

/-! ## The process that moves -/

theorem UpOk.rest (hn : u.now ≤ s.env.date) (hp : ¬ InSweep u.pc) : UpOk cfg s u := by
  refine ⟨hn, fun h => absurd h hp, ?_⟩
  unfold InSweep at hp
  split at hp <;> first | exact absurd trivial hp | simp_all [At]

theorem Evolves.date (h : Evolves cfg s s') : s.env.date ≤ s'.env.date :=
  Nat.div_le_div_right h.clock

/-- The next command of the same sweep. -/
theorem UpOk.goto (hu : UpOk cfg s u) (hev : Evolves cfg s s') (hs : InSweep u.pc)
    (hnow : u'.now = u.now) (hmin : u'.minAge = u.minAge) (hat : At cfg s' u'.pc) :
    UpOk cfg s' u' := by
  refine ⟨hnow ▸ hu.now_le.trans hev.date, fun _ => ?_, hat⟩
  rw [hmin]
  exact (hu.age hs).imp_right hev.exited

theorem Copies.inSweep {pc done otherwise : Pc} {n : FileName} (h : Copies pc n done otherwise) :
    InSweep pc := by
  cases h <;> trivial

theorem Removes.inSweep {pc after : Pc} {n : FileName} (h : Removes pc n after) : InSweep pc := by
  cases h <;> trivial

theorem Annotating.inSweep {pc : Pc} (h : Annotating pc x) : InSweep pc := by
  cases h <;> trivial

/-- **Only rightful operations.** Whatever command comes next. -/
theorem Moves.effectOk (hu : UpOk cfg s u) (h : Moves cfg s.env u c e u') : EffectOk cfg s e := by
  have hat := hu.here
  cases h with
  | opens hpc ht => exact scratch_tmp _
  | @writes x fd pos out done k hpc hk =>
    rw [hpc] at hat
    exact ⟨hat.fd_ne, fun n hn => hat.temp.fd_name n hn ▸ scratch_tmp _⟩
  | @renames x fd pos out i hpc hp hl =>
    rw [hpc] at hat
    refine ⟨scratch_tmp _, x, rfl, fun j hj => ⟨hat.closed, ?_⟩⟩
    rw [hat.temp.tmp_fd j hj, hat.temp.bytes, hp, List.take_length]
    exact hat.converted rfl
  | @copyFails _ _ _ stored _ => cases stored <;> trivial
  | _ => trivial

/-- **And what follows from where it was.** A command leaves its uploader able to
rely on what the next one relies on. -/
theorem Moves.upOk (hi : Core cfg s) (hu : UpOk cfg s u) (h : Moves cfg s.env u c e u')
    (hfinal : ∀ wake, u.pc = .trapSleep wake → c = .ok → s.td.running = false)
    (hev : Evolves cfg s s') (henv : s'.env = s.env.apply e) (htd : s'.td = s.td)
    (hlog : s'.log = s.log) : UpOk cfg s' u' := by
  have hat := hu.here
  have hdate : s'.env.date = s.env.date := by rw [henv, Env.date, Env.apply_clock]; rfl
  cases h with
  | starts hpc => exact ⟨hdate.ge, fun _ => Or.inl le_rfl, trivial⟩
  | wakes hpc _ => exact ⟨hdate.ge, fun _ => Or.inr (htd ▸ hfinal _ hpc rfl), trivial⟩
  | globs hpc => exact hu.goto hev (hpc ▸ trivial) rfl rfl trivial
  | capturesEnd hpc _ => exact hu.goto hev (hpc ▸ trivial) rfl rfl trivial
  | there hpc _ _ => exact hu.goto hev (hpc ▸ trivial) rfl rfl trivial
  | gone hpc _ _ => exact hu.goto hev (hpc ▸ trivial) rfl rfl (hpc ▸ trivial)
  | lost hpc _ => exact hu.goto hev (hpc ▸ trivial) rfl rfl trivial
  | @old x m hpc hm hage =>
    obtain ⟨i, hl, rfl⟩ := Option.map_eq_some_iff.mp hm
    refine hu.goto hev (hpc ▸ trivial) rfl rfl ?_
    exact (hev.closed x (closed_of_old hi hl hu.now_le (hu.age (hpc ▸ trivial)) hage)).1
  | kept hpc _ _ _ => exact hu.goto hev (hpc ▸ trivial) rfl rfl trivial
  | young hpc _ _ _ => exact hu.goto hev (hpc ▸ trivial) rfl rfl trivial
  | @reads x names input hpc hr =>
    rw [hpc] at hat
    obtain ⟨i, hl, rfl⟩ := Option.map_eq_some_iff.mp hr
    refine hu.goto hev (hpc ▸ trivial) rfl rfl ⟨(hev.closed x hat).1, fun out ht h0 => ?_⟩
    rw [hlog]
    exact converted_of_main hi hl h0 ht
  | @fails x hpc =>
    have hcl : Closed cfg s x := by
      generalize u.pc = pc at hat hpc
      cases hpc with
      | annotate => exact hat
      | convert => exact hat.1
      | writing => exact hat.closed
    exact hu.goto hev hpc.inSweep rfl rfl (hev.closed x hcl).1
  | @opens x o out hpc ht =>
    rw [hpc] at hat
    refine hu.goto hev (hpc ▸ trivial) rfl rfl
      ⟨(hev.closed x hat.1).1, fun h0 => ?_, by simp, htd ▸ hi.openFd_ne (scratch_tmp x), ?_⟩
    · rw [hlog]
      exact hat.2 out ht (by simpa using h0)
    · rw [henv]
      exact Temp.opened x _
  | @refuses x o hpc _ =>
    rw [hpc] at hat
    exact hu.goto hev (hpc ▸ trivial) rfl rfl (hev.closed x hat.1).1
  | @writes x fd pos out done k hpc hk =>
    rw [hpc] at hat
    refine hu.goto hev (hpc ▸ trivial) rfl rfl
      ⟨(hev.closed x hat.closed).1, ?_, hk, htd ▸ hat.fd_ne, ?_⟩
    · rw [hlog]; exact hat.converted
    · rw [henv]; exact hat.temp.extend hat.pos_le _
  | @renames x fd pos out i hpc _ _ =>
    rw [hpc] at hat
    exact hu.goto hev (hpc ▸ trivial) rfl rfl (hev.closed x hat.closed).1
  | @renameFails x fd pos out hpc _ _ =>
    rw [hpc] at hat
    exact hu.goto hev (hpc ▸ trivial) rfl rfl (hev.closed x hat.closed).1
  | @copied n done otherwise hpc hl =>
    refine hu.goto hev hpc.inSweep rfl rfl ?_
    generalize u.pc = pc at hat hpc
    cases hpc with
    | ng x =>
      exact ⟨(hev.closed x hat).1, shipped_put hi (Or.inl rfl) hl henv (congrFun hlog x)⟩
    | pcap x =>
      exact ⟨(hev.closed x hat).1, shipped_put hi (Or.inr rfl) hl henv (congrFun hlog x)⟩
    | keep x => trivial
    | snapshot f => trivial
  | @copyFails n done otherwise stored hpc =>
    refine hu.goto hev hpc.inSweep rfl rfl ?_
    generalize u.pc = pc at hpc
    cases hpc <;> trivial
  | @removes n after hpc =>
    refine hu.goto hev hpc.inSweep rfl rfl ?_
    generalize u.pc = pc at hat hpc
    cases hpc with
    | ng x => exact ⟨(hev.closed x hat.1).1, hev.shipped x hat.1 hat.2⟩
    | failed x => exact (hev.closed x hat).1
    | pcap x => trivial
    | snapshot f => trivial
  | snapshotsEnd hpc _ => exact hu.goto hev (hpc ▸ trivial) rfl rfl trivial
  | snapshotThere hpc _ => exact hu.goto hev (hpc ▸ trivial) rfl rfl trivial
  | snapshotGone hpc _ => exact hu.goto hev (hpc ▸ trivial) rfl rfl (hpc ▸ trivial)
  | counts hpc => exact hu.goto hev (hpc ▸ trivial) rfl rfl trivial
  | below hpc _ =>
    refine hu.goto hev (hpc ▸ trivial) rfl rfl ?_
    unfold Uploader.finish; split <;> trivial
  | caps hpc _ _ =>
    refine hu.goto hev (hpc ▸ trivial) rfl rfl ?_
    unfold Uploader.finish; split <;> trivial

/-! ## The process that does not -/

/-- What an uploader relies on survives a step that leaves its temporary file alone. -/
theorem UpOk.frame (hu : UpOk cfg s u) (hev : Evolves cfg s s')
    (htmp : ∀ x fd b, u.pc.writes = some (x, fd) → fd ≠ s.td.fd → Temp s.env.fs x fd b →
      fd ≠ s'.td.fd ∧ Temp s'.env.fs x fd b) : UpOk cfg s' u := by
  refine ⟨hu.now_le.trans hev.date, fun h => (hu.age h).imp_right hev.exited, ?_⟩
  have hat := hu.here
  generalize u.pc = pc at hat htmp
  cases pc with
  | annotate x => exact (hev.closed x hat).1
  | failed x => exact (hev.closed x hat).1
  | shipNg x => exact (hev.closed x hat).1
  | shipPcap x => exact (hev.closed x hat).1
  | convert x o =>
    refine ⟨(hev.closed x hat.1).1, fun out ht h0 => ?_⟩
    rw [(hev.closed x hat.1).2]
    exact hat.2 out ht h0
  | writing x fd pos out done =>
    obtain ⟨hne, ht⟩ := htmp x fd _ rfl hat.fd_ne hat.temp
    refine ⟨(hev.closed x hat.closed).1, fun hd => ?_, hat.pos_le, hne, ht⟩
    rw [(hev.closed x hat.closed).2]
    exact hat.converted hd
  | removeNg x => exact ⟨(hev.closed x hat.1).1, hev.shipped x hat.1 hat.2⟩
  | removePcap x => exact ⟨(hev.closed x hat.1).1, hev.shipped x hat.1 hat.2⟩
  | _ => trivial

/-- The other uploader's operations stay off a temporary file that is apart. -/
theorem Moves.temp {fd : Nat} {b : Bytes} (h : Moves cfg s.env u c e u')
    (hshare : ∀ y o, u.pc = .convert y o → c = .ok → y ≠ x)
    (hapart : ∀ p, u.pc.writes = some p → p.1 ≠ x ∧ p.2 ≠ fd) (ht : Temp s.env.fs x fd b) :
    Temp (s.env.apply e).fs x fd b := by
  cases h with
  | @opens y o out hpc _ => exact ht.truncate (by simpa using hshare y o hpc rfl) _
  | @writes y fd' pos out done k hpc _ =>
    exact ht.write (Ne.symm (hapart (y, fd') (by rw [hpc]; rfl)).2) _ _ _
  | @renames y fd' pos out i hpc _ _ => exact ht.rename (hapart (y, fd') (by rw [hpc]; rfl)).1
  | copied _ _ => rwa [Env.put_fs]
  | @copyFails _ _ _ stored _ =>
    cases stored
    · exact ht
    · exact (Env.put_fs _ _).symm ▸ ht
  | removes _ => exact ht.unlinkAll _
  | caps _ _ _ => exact ht.unlinkAll _
  | _ => exact ht

theorem finish_writes (u : Uploader) : u.finish.pc.writes = none := by
  unfold Uploader.finish
  split <;> rfl

/-- Only the annotator's open starts to write. -/
theorem Moves.next_writes (h : Moves cfg s.env u c e u') :
    u'.pc.writes = none ∨ u'.pc.writes = u.pc.writes ∨ ∃ y o, u.pc = .convert y o ∧ c = .ok ∧
      u'.pc.writes = some (y, s.env.fs.openFd (.pcapngTmp y)) := by
  cases h with
  | @opens y o out hpc _ => exact Or.inr (Or.inr ⟨y, o, hpc, rfl, rfl⟩)
  | writes hpc _ => rw [hpc]; exact Or.inr (Or.inl rfl)
  | gone _ _ _ => exact Or.inr (Or.inl rfl)
  | snapshotGone _ _ => exact Or.inr (Or.inl rfl)
  | copied hpc _ =>
    generalize u.pc = pc at hpc
    cases hpc <;> exact Or.inl rfl
  | copyFails hpc =>
    generalize u.pc = pc at hpc
    cases hpc <;> exact Or.inl rfl
  | removes hpc =>
    generalize u.pc = pc at hpc
    cases hpc <;> exact Or.inl rfl
  | below _ _ => exact Or.inl (finish_writes u)
  | caps _ _ _ => exact Or.inl (finish_writes u)
  | _ => exact Or.inl rfl

/-- The inode an annotator writes to is under its own temporary name only. -/
theorem UpOk.temp {fd : Nat} (hu : UpOk cfg s u) (hw : u.pc.writes = some (x, fd)) :
    ∃ b, Temp s.env.fs x fd b := by
  have hat := hu.here
  generalize u.pc = pc at hat hw
  cases pc with
  | writing y fd' pos out done =>
    cases hw
    exact ⟨_, hat.temp⟩
  | _ => cases hw

/-- Two annotators stay apart when one of them moves on its own. -/
theorem Moves.apart {v : Uploader} (hv : UpOk cfg s v) (h : Moves cfg s.env u c e u')
    (hshare : ∀ y o, u.pc = .convert y o → c = .ok → ∀ p, v.pc.writes = some p → p.1 ≠ y)
    (hapart : Apart u.pc v.pc) : Apart u'.pc v.pc := by
  intro p p' hp hp'
  rcases h.next_writes with hw | hw | ⟨y, o, hpc, hc, hw⟩
  · rw [hw] at hp; cases hp
  · exact hapart p p' (hw ▸ hp) hp'
  · rw [hw] at hp
    cases hp
    have hne := hshare y o hpc hc p' hp'
    obtain ⟨b, ht⟩ := hv.temp hp'
    exact ⟨Ne.symm hne, Ne.symm (ht.openFd_ne (by simpa using Ne.symm hne))⟩

/-! ## Losing nothing -/

/-- Which commands unlink a capture. -/
theorem Moves.unlinks {ns : List FileName} (h : Moves cfg s.env u c (.unlink ns) u')
    (hx : .pcap x ∈ ns) : u.pc = .removePcap x ∨ c = .cap ns := by
  generalize he : Effect.unlink ns = e at h
  cases h with
  | removes hpc =>
    cases he
    generalize u.pc = pc at hpc
    rw [List.mem_singleton] at hx
    subst hx
    cases hpc
    exact Or.inl rfl
  | caps _ _ _ => cases he; exact Or.inr rfl
  | @copyFails _ _ _ stored _ => cases stored <;> cases he
  | _ => cases he

/-- A capture leaves the directory only by the cap, or once the bucket has it. -/
theorem Moves.removed {ns : List FileName} (hu : UpOk cfg s u)
    (h : Moves cfg s.env u c (.unlink ns) u') (hx : .pcap x ∈ ns) :
    Closed cfg s x ∧ Shipped cfg s x ∨ c = .cap ns := by
  have hat := hu.here
  rcases h.unlinks hx with hpc | hc
  · rw [hpc] at hat
    exact Or.inl hat
  · exact Or.inr hc

/-- What was on disk and was not unlinked is still there. -/
theorem lookup_apply {i : Nat} (he : EffectOk cfg s e) (hl : s.env.fs.lookup (.pcap x) = some i)
    (hgone : (s.env.apply e).fs.lookup (.pcap x) = none) : ∃ ns, e = .unlink ns ∧ .pcap x ∈ ns := by
  cases e with
  | unlink ns =>
    refine ⟨ns, rfl, ?_⟩
    simp only [Env.apply, Fs.lookup_unlinkAll] at hgone
    by_contra hn
    rw [if_neg hn, hl] at hgone
    cases hgone
  | truncate n =>
    simp only [Env.apply, Fs.lookup_truncate] at hgone
    split at hgone
    · cases hgone
    · rw [hl] at hgone; cases hgone
  | rename a b =>
    obtain ⟨ha, y, rfl, _⟩ := he
    simp only [Env.apply] at hgone
    cases hla : s.env.fs.lookup a with
    | none => rw [Fs.rename_missing hla, hl] at hgone; cases hgone
    | some j =>
      rw [Fs.lookup_rename _ _ hla, if_neg (by simp), if_neg (Ne.symm (ha x).1), hl] at hgone
      cases hgone
  | put n => rw [Env.put_fs, hl] at hgone; cases hgone
  | none => rw [Env.apply, hl] at hgone; cases hgone
  | write fd pos bs => rw [Env.apply, Fs.lookup_write, hl] at hgone; cases hgone

theorem Inv.of_quiet (hi : Inv cfg s) (hq : Quiet cfg s s') (hup : ∀ w, UpOk cfg s' (s'.up w))
    (hapart : Apart (s'.up .loop).pc (s'.up .flush).pc) : Inv cfg s' ∧ Evolves cfg s s' := by
  refine ⟨⟨hq.core hi.core, hup, hapart, fun x hx => ?_⟩, hq.evolves hi.core⟩
  rw [hq.log]
  exact hi.later x (hq.td_same.1 ▸ hx)

theorem other_cases (v w : Who) : v = w ∨ v = w.other := by
  cases v <;> cases w <;> simp [Who.other]

theorem inv_run (hi : Inv cfg s) (hok : Gentle s (.run w c))
    (h : Moves cfg s.env (s.up w) c e u') :
    Inv cfg { s with env := s.env.apply e, up := Function.update s.up w u' } ∧
      Evolves cfg s { s with env := s.env.apply e, up := Function.update s.up w u' } := by
  have he := h.effectOk (hi.up w)
  have hq := he.quiet hi.core (Function.update s.up w u')
  have hev := hq.evolves hi.core
  have hne : w.other ≠ w := by cases w <;> nofun
  have hap : Apart (s.up w).pc (s.up w.other).pc := by
    cases w
    · exact hi.apart
    · exact hi.apart.symm
  have hshare : ∀ y o, (s.up w).pc = .convert y o → c = .ok →
      ∀ p, (s.up w.other).pc.writes = some p → p.1 ≠ y := by
    intro y o hpc he
    subst he
    exact hok.tmp w rfl y (by rw [hpc]; rfl)
  refine hi.of_quiet hq ?_ ?_
  · intro v
    dsimp only
    rcases other_cases v w with rfl | rfl
    · rw [Function.update_self]
      refine h.upOk hi.core (hi.up v) ?_ hev rfl rfl rfl
      intro wake hpc he
      subst he
      exact hok.final v rfl (by rw [hpc]; rfl)
    · rw [Function.update_of_ne hne]
      refine (hi.up w.other).frame hev fun x fd b hw hfd ht => ⟨hfd, ?_⟩
      refine h.temp (fun y o hpc hc => ?_) (fun p hp => hap p (x, fd) hp hw) ht
      exact Ne.symm (hshare y o hpc hc (x, fd) hw)
  · have hmoved := h.apart (hi.up w.other) hshare hap
    cases w
    · simpa [Who.other] using hmoved
    · simpa [Who.other] using hmoved.symm

/-- A step that changes no file; every uploader stays where it is or stops. -/
theorem inv_still (hi : Inv cfg s) (henv : s'.env.fs = s.env.fs) (hs3 : s'.env.s3 = s.env.s3)
    (hclk : s.env.clock ≤ s'.env.clock) (hlog : s'.log = s.log)
    (htd : s'.td = s.td ∨ s'.td = { s.td with running := false })
    (hup : ∀ w, s'.up w = s.up w ∨ (s'.up w).now ≤ s.env.date ∧ ¬ InSweep (s'.up w).pc) :
    Inv cfg s' ∧ Evolves cfg s s' := by
  have hq : Quiet cfg s s' := Quiet.of_env htd hlog hclk henv hs3
  have hev := hq.evolves hi.core
  have hw : ∀ w, (s'.up w).pc.writes = none ∨ (s'.up w).pc = (s.up w).pc := by
    intro w
    rcases hup w with h | ⟨_, h⟩
    · exact Or.inr (congrArg _ h)
    · left
      generalize (s'.up w).pc = pc at h
      cases pc <;> first | rfl | exact absurd trivial h
  refine hi.of_quiet hq (fun w => ?_) ?_
  · rcases hup w with h | ⟨hn, hp⟩
    · rw [h]
      refine (hi.up w).frame hev fun x fd b _ hne ht => ⟨?_, henv ▸ ht⟩
      rw [hq.td_same.2.1]
      exact hne
    · exact UpOk.rest (hn.trans hev.date) hp
  · intro p p' hp hp'
    rcases hw .loop with h | h
    · rw [h] at hp; cases hp
    rcases hw .flush with h' | h'
    · rw [h'] at hp'; cases hp'
    exact hi.apart p p' (h ▸ hp) (h' ▸ hp')

/-- An operation on a name that is no capture's and no annotator's. -/
theorem inv_effect (hi : Inv cfg s) (he : EffectOk cfg s e)
    (htmp : ∀ x fd b, Temp s.env.fs x fd b → Temp (s.env.apply e).fs x fd b) :
    Inv cfg { s with env := s.env.apply e } ∧ Evolves cfg s { s with env := s.env.apply e } := by
  have hq : Quiet cfg s { s with env := s.env.apply e } := he.quiet hi.core s.up
  have hev := hq.evolves hi.core
  exact hi.of_quiet hq
    (fun w => (hi.up w).frame hev fun x fd b _ hne ht => ⟨hne, htmp x fd b ht⟩) hi.apart

theorem inv_publish {f : Snapshot} {b : Bytes} (hi : Inv cfg s) (h : Acts cfg s (.publish f b) s') :
    Inv cfg s' ∧ Evolves cfg s s' := by
  have hne : ∀ x, FileName.snapshot f ≠ .pcapngTmp x := fun x => nofun
  cases h
  obtain ⟨hi₁, hev₁⟩ := inv_effect hi (e := .truncate (.snapshot f)) (scratch_snapshot f)
    (fun x fd b ht => ht.truncate (hne x) _)
  have hown : ∀ n, (s.env.fs.truncate (.snapshot f) s.env.clock).lookup n
      = some (s.env.fs.openFd (.snapshot f)) → n = .snapshot f := by
    intro n hn
    rw [Fs.lookup_truncate] at hn
    split at hn
    · next hn' => exact hn'
    · exact Fs.lookup_eq_openFd hn
  have hfd := hi.core.openFd_ne (scratch_snapshot f)
  refine And.imp_right hev₁.trans (inv_effect hi₁ (e := .write _ 0 b) ⟨hfd, ?_⟩ ?_)
  · intro n hn
    exact hown n hn ▸ scratch_snapshot f
  · intro x fd b' ht
    refine ht.write (fun he => ?_) _ _ _
    have := ht.fd_name (.snapshot f) (by
      rw [he]
      exact (Fs.lookup_truncate ..).trans (if_pos rfl))
    cases this

end BigDataPlatform.PacketCapture
