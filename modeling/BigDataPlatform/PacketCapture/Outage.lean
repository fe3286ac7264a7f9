import BigDataPlatform.PacketCapture.Sweep

/-! # After an S3 outage

A failed upload leaves `X.pcap` and `X.pcapng` behind, and only the name of
`X.pcap` makes a later sweep retry. As long as the cap never takes `X.pcap` and
leaves `X.pcapng`, every pcapng stays beside its pcap, old enough for the next
sweep, and that sweep ships it. -/
namespace BigDataPlatform.PacketCapture
open BigDataPlatform.Lib.Pack BigDataPlatform.Lib.FileSystem BigDataPlatform.Lib.Transition
open BigDataPlatform.PcapAnnotate

variable {cfg : Config} {s t : Sys} {u u' : Uploader} {c : Choice} {e : Effect} {l : Label} {x : Nat}

/-- The cap takes no `X.pcap` without the `X.pcapng` beside it. -/
def CapSparesPairs (s : Sys) (l : Label) : Prop :=
  ∀ n ∈ l.victims, ∀ x ∈ n.capture, (s.env.fs.lookup (.pcapng x)).isSome → .pcapng x ∈ l.victims

/-- The single loop, any failures, and a cap that keeps pairs together. -/
def Retriable (s : Sys) (l : Label) : Prop := l.single = true ∧ CapSparesPairs s l

instance (s : Sys) (l : Label) : Decidable (CapSparesPairs s l) := by
  unfold CapSparesPairs; infer_instance

instance (s : Sys) (l : Label) : Decidable (Retriable s l) := inferInstanceAs (Decidable (_ ∧ _))

/-- `X.pcap` is on disk and past the loop's minimum age. -/
def Aged (cfg : Config) (s : Sys) (x : Nat) : Prop :=
  ∃ i, s.env.fs.lookup (.pcap x) = some i ∧
    (s.env.fs.node i).mtime / second + (cfg.rotateSeconds + 30) ≤ s.env.date

/-- The capture that `ship_capture` has in hand. -/
def Pc.inHand : Pc → Option Nat
  | .annotate x | .convert x _ | .writing x .. | .failed x | .shipNg x | .removeNg x | .shipPcap x
  | .removePcap x => some x
  | _ => none

def Pc.released : Pc → Option Nat
  | .shipPcap x | .removePcap x => some x
  | _ => none

structure Paired (cfg : Config) (s : Sys) : Prop where
  pcapng : ∀ x i, s.env.fs.lookup (.pcapng x) = some i → Aged cfg s x
  inHand : ∀ x, (s.up .loop).pc.inHand = some x → Aged cfg s x
  released : ∀ x, (s.up .loop).pc.released = some x → s.env.fs.lookup (.pcapng x) = none

theorem Aged.closed (hi : Inv cfg s) (h : Aged cfg s x) : Closed cfg s x := by
  obtain ⟨i, hl, hage⟩ := h
  exact closed_of_old hi.core hl le_rfl (Or.inl le_rfl) hage

theorem Aged.step (hi : Inv cfg s) (hok : Gentle s l) (hs : step cfg l s = some t)
    (h : Aged cfg s x) (hon : t.env.fs.lookup (.pcap x) ≠ none) : Aged cfg t x := by
  have hcl := h.closed hi
  obtain ⟨i, hl, hage⟩ := h
  obtain ⟨j, hl'⟩ := Option.ne_none_iff_exists'.mp hon
  obtain ⟨rfl, hnode⟩ := step_pcap hi hs hcl hl hl'
  have hclk := (inv_step hi hok hs).2.date
  exact ⟨j, hl', by rw [hnode]; omega⟩

/-- Which captures a command of the script may have in hand after it. -/
theorem Moves.inHand (h : Moves cfg s.env u c e u') (hx : u'.pc.inHand = some x) :
    (u.pc.inHand = some x ∧ ∀ ns, e = .unlink ns → .pcap x ∉ ns) ∨
      (e = .none ∧ u.pc = .age x ∧ ∃ m, s.env.fs.mtime (.pcap x) = some m ∧
        m / second + u.minAge ≤ u.now) := by
  cases h with
  | @old y m hpc hm hage => cases hx; exact Or.inr ⟨rfl, hpc, m, hm, hage⟩
  | gone hpc _ _ => rw [hpc] at hx; cases hx
  | snapshotGone hpc _ => rw [hpc] at hx; cases hx
  | reads hpc _ => cases hx; exact Or.inl ⟨by rw [hpc]; rfl, nofun⟩
  | fails hpc =>
    cases hx
    generalize u.pc = pc at hpc
    cases hpc <;> exact Or.inl ⟨rfl, nofun⟩
  | opens hpc _ => cases hx; exact Or.inl ⟨by rw [hpc]; rfl, nofun⟩
  | refuses hpc _ => cases hx; exact Or.inl ⟨by rw [hpc]; rfl, nofun⟩
  | writes hpc _ => cases hx; exact Or.inl ⟨by rw [hpc]; rfl, nofun⟩
  | renames hpc _ _ => cases hx; exact Or.inl ⟨by rw [hpc]; rfl, nofun⟩
  | renameFails hpc _ _ => cases hx; exact Or.inl ⟨by rw [hpc]; rfl, nofun⟩
  | copied hpc _ =>
    generalize u.pc = pc at hpc
    cases hpc <;> cases hx <;> exact Or.inl ⟨rfl, nofun⟩
  | copyFails hpc =>
    generalize u.pc = pc at hpc
    cases hpc <;> cases hx
  | removes hpc =>
    generalize u.pc = pc at hpc
    cases hpc <;> cases hx <;> exact Or.inl ⟨rfl, by rintro ns ⟨⟩; simp⟩
  | below _ _ => unfold Uploader.finish at hx; split at hx <;> cases hx
  | caps _ _ _ => unfold Uploader.finish at hx; split at hx <;> cases hx
  | _ => cases hx

theorem Moves.pcapng {j : Nat} (h : Moves cfg s.env u c e u')
    (hl : (s.env.apply e).fs.lookup (.pcapng x) = some j) :
    s.env.fs.lookup (.pcapng x) = some j ∨ u.pc.inHand = some x := by
  cases h with
  | opens _ _ =>
    simp only [Env.apply, Fs.lookup_truncate, reduceCtorEq, if_false] at hl
    exact Or.inl hl
  | @renames y _ _ _ i hpc _ htmp =>
    by_cases hxy : x = y
    · subst hxy; exact Or.inr (by rw [hpc]; rfl)
    · simp only [Env.apply] at hl
      rw [Fs.lookup_rename _ _ htmp, if_neg (by simpa using hxy), if_neg (by simp)] at hl
      exact Or.inl hl
  | copied _ _ => rw [Env.put_fs] at hl; exact Or.inl hl
  | @copyFails _ _ _ stored _ =>
    cases stored
    · exact Or.inl hl
    · simp only [if_true, Env.put_fs] at hl
      exact Or.inl hl
  | removes _ => exact Or.inl (Fs.of_lookup_unlinkAll hl).2
  | caps _ _ _ => exact Or.inl (Fs.of_lookup_unlinkAll hl).2
  | _ => exact Or.inl hl

/-- A capture is released by removing its pcapng, and stays so while it is copied. -/
theorem Moves.released (h : Moves cfg s.env u c e u') (hx : u'.pc.released = some x) :
    e = .unlink [.pcapng x] ∨ u.pc.released = some x ∧ ∃ n, e = .put n := by
  cases h with
  | gone hpc _ _ => rw [hpc] at hx; cases hx
  | snapshotGone hpc _ => rw [hpc] at hx; cases hx
  | copied hpc _ =>
    generalize u.pc = pc at hpc
    cases hpc <;> cases hx
    exact Or.inr ⟨rfl, _, rfl⟩
  | copyFails hpc =>
    generalize u.pc = pc at hpc
    cases hpc <;> cases hx
  | removes hpc =>
    generalize u.pc = pc at hpc
    cases hpc <;> cases hx <;> exact Or.inl rfl
  | below _ _ => unfold Uploader.finish at hx; split at hx <;> cases hx
  | caps _ _ _ => unfold Uploader.finish at hx; split at hx <;> cases hx
  | _ => cases hx

theorem paired_moves (hi : Inv cfg s) (hg : Gentle s (.run .loop c)) (hrun : s.td.running = true)
    (hp : Paired cfg s) (hcap : CapSparesPairs s (.run .loop c))
    (hm : Moves cfg s.env (s.up .loop) c e u')
    (h : step cfg (.run .loop c) s =
      some { s with env := s.env.apply e, up := Function.update s.up .loop u' }) :
    Paired cfg { s with env := s.env.apply e, up := Function.update s.up .loop u' } := by
  have heff := hm.effectOk (hi.up .loop)
  refine ⟨fun x j hl => ?_, fun x hx => ?_, fun x hx => ?_⟩
  · have hold := hm.pcapng hl
    have hage : Aged cfg s x := hold.elim (hp.pcapng x j) (hp.inHand x)
    refine hage.step hi hg h fun hgone => ?_
    obtain ⟨i, hon, _⟩ := hage
    obtain ⟨ns, rfl, hmem⟩ := lookup_apply heff hon hgone
    obtain ⟨hnot, hl⟩ := Fs.of_lookup_unlinkAll hl
    rcases hm.unlinks hmem with hpc | rfl
    · rw [hp.released x (by rw [hpc]; rfl)] at hl; cases hl
    · exact hnot (hcap _ hmem x rfl (by simp [hl]))
  · simp only [Function.update_self] at hx
    rcases hm.inHand hx with ⟨hold, hno⟩ | ⟨rfl, hpc, m, hmt, hage⟩
    · have hage := hp.inHand x hold
      refine hage.step hi hg h fun hgone => ?_
      obtain ⟨i, hon, _⟩ := hage
      obtain ⟨ns, rfl, hmem⟩ := lookup_apply heff hon hgone
      exact hno ns rfl hmem
    · obtain ⟨i, hl, rfl⟩ := Option.map_eq_some_iff.mp hmt
      have hu := hi.up .loop
      refine ⟨i, hl, ?_⟩
      have hmin := (hu.age (by rw [hpc]; trivial)).resolve_right (by simp [hrun])
      have hnow := hu.now_le
      have hdate : s.env.date = (s.env.apply .none).date := rfl
      simp only [Env.apply] at *
      omega
  · simp only [Function.update_self] at hx
    rcases hm.released hx with rfl | ⟨hrel, n, rfl⟩
    · simp [Env.apply, Fs.lookup_unlinkAll]
    · rw [Env.put_fs]
      exact hp.released x hrel

theorem paired_other (hi : Inv cfg s) (hg : Gentle s l) (hp : Paired cfg s)
    (h : step cfg l s = some t) (hno : ∀ w c, l ≠ .run w c)
    (hng : ∀ x, t.env.fs.lookup (.pcapng x) = s.env.fs.lookup (.pcapng x))
    (hup : t.up .loop = s.up .loop ∨ (t.up .loop).pc = .idle) : Paired cfg t := by
  have hage : ∀ x, Aged cfg s x → Aged cfg t x := fun x hx => by
    refine hx.step hi hg h fun hgone => ?_
    obtain ⟨i, hl, _⟩ := hx
    obtain ⟨w, c, _, _, rfl, _⟩ := step_unlinks hi h hl hgone
    exact hno w c rfl
  refine ⟨fun x j hl => hage x (hp.pcapng x j (hng x ▸ hl)), fun x hx => ?_, fun x hx => ?_⟩
  · rcases hup with hup | hpc
    · exact hage x (hp.inHand x (hup ▸ hx))
    · rw [hpc] at hx; cases hx
  · rw [hng]
    rcases hup with hup | hpc
    · exact hp.released x (hup ▸ hx)
    · rw [hpc] at hx; cases hx

theorem paired_step (ha : Alone s) (hi : Inv cfg s) (hp : Paired cfg s) (hok : Retriable s l)
    (h : step cfg l s = some t) : Paired cfg t := by
  have hg := ha.gentle l
  cases step_acts h with
  | @moves w c e u' hm =>
    cases w with
    | loop => exact paired_moves hi hg ha.awake.running hp hok.2 hm h
    | flush => exact (hm.not_exited ha.flush).elim
  | kill => exact paired_other hi hg hp h (by simp) (fun _ => rfl) (Or.inr rfl)
  | trapUpload hs _ => rw [ha.awake.sigterm] at hs; cases hs
  | rotates r _ =>
    refine paired_other hi hg hp h (by simp) (fun x => ?_) (Or.inl rfl)
    rw [rotate_lookup, if_neg (by simp)]
  | publish f b =>
    refine paired_other hi hg hp h (by simp) (fun x => ?_) (Or.inl rfl)
    simp only [Env.apply, Fs.lookup_write, Fs.lookup_truncate, reduceCtorEq, if_false]
  | _ => exact paired_other hi hg hp h (by simp) (fun _ => rfl) (Or.inl rfl)

theorem paired_init (cfg : Config) (clock : Nat) : Paired cfg (init cfg clock) := by
  refine ⟨fun x i hl => ?_, nofun, nofun⟩
  rw [show (init cfg clock).env.fs.lookup (.pcapng x) = none from
    (Fs.lookup_truncate Fs.empty _ _ clock).trans (if_neg nofun)] at hl
  cases hl

structure Steadily (cfg : Config) (s : Sys) : Prop where
  alone : Alone s
  inv : Inv cfg s
  paired : Paired cfg s

theorem steadily_step (hs : Steadily cfg s) (hok : Retriable s l) (h : step cfg l s = some t) :
    Steadily cfg t :=
  ⟨alone_step hs.alone hok.1 h, (inv_step hs.inv (hs.alone.gentle l) h).1,
    paired_step hs.alone hs.inv hs.paired hok h⟩

theorem Alone.undisturbed (ha : Alone s) (hl : l.single = true) (hint : l.interrupts = false)
    (h : step cfg l s = some t) : Undisturbed s l t := by
  cases step_acts h with
  | @moves w c e u' hm =>
    cases w with
    | loop => exact Or.inr ⟨c, rfl, hint⟩
    | flush => exact (hm.not_exited ha.flush).elim
  | kill => cases hint
  | flush _ => cases hl
  | trapUpload hs _ => rw [ha.awake.sigterm] at hs; cases hs
  | _ => exact Or.inl ⟨nofun, rfl⟩

/-- The step from idle starts a sweep that owes every aged capture. -/
theorem sweep_owes_aged (hs : Steadily cfg s) (hpc : (s.up .loop).pc = .idle)
    (h : step cfg (.run .loop .ok) s = some t) : Sweeping cfg t (Aged cfg s) := by
  have hev := (inv_step hs.inv (hs.alone.gentle _) h).2
  cases step_acts h with
  | moves hm =>
    cases hm with
    | starts _ =>
      refine sweeping_start (by simp [Uploader.sweep]) fun x hx => ⟨(hev.closed x (hx.closed hs.inv)).1, ?_⟩
      right
      simpa [Uploader.sweep, Env.apply, Aged] using hx
    | copied hc _ => rw [hpc] at hc; cases hc
    | removes hr => rw [hpc] at hr; cases hr
    | _ hpc' => rw [hpc] at hpc'; cases hpc'

/-- **Nothing is stranded as long as the cap keeps pairs together.** Every
pcapng still has its pcap beside it, and a sweep none of whose uploads fails has
put in the bucket, when it ends, every capture that was old enough or had a
pcapng when it started. -/
theorem outage_strands_nothing {cfg : Config} {clock : Nat} {s : Sys}
    (h : Reaches (step cfg) Retriable (init cfg clock) s) :
    (∀ x, (s.env.fs.lookup (.pcapng x)).isSome → (s.env.fs.lookup (.pcap x)).isSome) ∧
    ∀ t u, (s.up .loop).pc = .idle → step cfg (.run .loop .ok) s = some t →
      Reaches (step cfg) (fun s l => Retriable s l ∧ l.interrupts = false) t u →
      (u.up .loop).pc = .idle →
      ∀ x, Aged cfg s x ∨ (s.env.fs.lookup (.pcapng x)).isSome → Shipped cfg u x := by
  have hs : Steadily cfg s := h.invariant (Steadily cfg)
    ⟨⟨rfl, awake_init cfg clock⟩, inv_init cfg clock, paired_init cfg clock⟩ steadily_step
  have hpair : ∀ x, (s.env.fs.lookup (.pcapng x)).isSome → Aged cfg s x := fun x hx => by
    obtain ⟨i, hi⟩ := Option.isSome_iff_exists.mp hx
    exact hs.paired.pcapng x i hi
  refine ⟨fun x hx => ?_, fun t u hpc hst hrun hend x hx => ?_⟩
  · obtain ⟨i, hl, _⟩ := hpair x hx
    simp [hl]
  · have hok : Retriable s (.run .loop .ok) := ⟨rfl, nofun⟩
    have hsweep := hrun.invariant (fun v => Steadily cfg v ∧ Sweeping cfg v (Aged cfg s))
      ⟨steadily_step hs hok hst, sweep_owes_aged hs hpc hst⟩
      fun hv hok hs => ⟨steadily_step hv.1 hok.1 hs,
        sweeping_step hv.1.inv (hv.1.alone.gentle _) hs hv.2
          (hv.1.alone.undisturbed hok.1.1 hok.2 hs)⟩
    exact hsweep.2.shipped (by rw [hend]; exact id) (hx.elim id (hpair x))

/-- A closed capture is converted, and its upload fails. -/
def outage : List Label :=
  [.packet synRecord, .tick (100 * second), .packet synRecord] ++
  commands .loop ([.ok, .ok] ++ shipping.take 6 ++ [.uploadFails false, .ok, .ok])

/-- The sweep after it, once it has started: the first capture, and the second,
which is too young. -/
def recovery : List Label :=
  commands .loop (.ok :: shipping ++ [.ok, .ok] ++ finishing)

theorem recovery_ships : ∃ s t u, exec (step deployed) (outage ++ commands .loop finishing)
      (init deployed 0) = some s ∧ step deployed (.run .loop .ok) s = some t ∧
    exec (step deployed) recovery t = some u ∧ Shipped deployed u 0 := by
  obtain ⟨s, hs, hp⟩ := (Option.any_eq_true
    (fun s : Sys => (s.up .loop).pc = .idle ∧ (s.env.fs.lookup (.pcapng 0)).isSome ∧
      (step deployed (.run .loop .ok) s).any fun t =>
        Along (step deployed) (fun s l => Retriable s l ∧ l.interrupts = false) recovery t ∧
        (exec (step deployed) recovery t).any fun u => (u.up .loop).pc = .idle)
    (exec (step deployed) (outage ++ commands .loop finishing) (init deployed 0))).mp
      (by decide +kernel)
  obtain ⟨hidle, hng, ht⟩ := of_decide_eq_true hp
  obtain ⟨t, ht, hu⟩ := (Option.any_eq_true _ _).mp ht
  obtain ⟨hal, hu⟩ := of_decide_eq_true hu
  obtain ⟨u, hu, hend⟩ := (Option.any_eq_true _ _).mp hu
  have hrun := exec_reaches (step deployed) Retriable (by decide +kernel) hs
  exact ⟨s, t, u, hs, ht, hu, (outage_strands_nothing hrun).2 t u hidle ht (exec_reaches _ _ hal hu)
    (of_decide_eq_true hend) 0 (Or.inr hng)⟩

def crowded : Config := { deployed with maxFiles := 2 }

/-- The cap takes the older of the pair, the pcap. -/
def orphaned : List Label :=
  outage ++ commands .loop [.ok, .ok, .ok, .cap [.pcap 0]]

def emptyHanded : List Label := commands .loop ([.ok, .ok, .ok] ++ finishing)

theorem orphaned_stranded :
    ¬ ∀ s, Reaches (step crowded) (fun _ l => l.single = true) (init crowded 0) s →
      ∀ t u, (s.up .loop).pc = .idle → step crowded (.run .loop .ok) s = some t →
      Reaches (step crowded) (fun _ l => l.single = true ∧ l.interrupts = false) t u →
      (u.up .loop).pc = .idle →
      ∀ x, Aged crowded s x ∨ (s.env.fs.lookup (.pcapng x)).isSome → Shipped crowded u x := by
  intro hevery
  obtain ⟨s, hs, hp⟩ := (Option.any_eq_true
    (fun s : Sys => (s.up .loop).pc = .idle ∧ (s.env.fs.lookup (.pcapng 0)).isSome ∧
      (step crowded (.run .loop .ok) s).any fun t =>
        Along (step crowded) (fun _ l => l.single = true ∧ l.interrupts = false) emptyHanded t ∧
        (exec (step crowded) emptyHanded t).any fun u =>
          (u.up .loop).pc = .idle ∧ u.env.s3 (.pcapng 0) = none ∧ u.env.s3 (.pcap 0) = none)
    (exec (step crowded) orphaned (init crowded 0))).mp (by decide +kernel)
  obtain ⟨hidle, hng, ht⟩ := of_decide_eq_true hp
  obtain ⟨t, ht, hu⟩ := (Option.any_eq_true _ _).mp ht
  obtain ⟨hal, hu⟩ := of_decide_eq_true hu
  obtain ⟨u, hu, hend⟩ := (Option.any_eq_true _ _).mp hu
  obtain ⟨hend, hnone, hnone'⟩ := of_decide_eq_true hend
  have hrun := exec_reaches (step crowded) (fun _ l => l.single = true)
    (by decide +kernel) hs
  obtain ⟨n, b, hn, hb, _⟩ := hevery s hrun t u hidle ht (exec_reaches _ _ hal hu) hend 0 (Or.inr hng)
  rcases hn with rfl | rfl
  · rw [hnone] at hb; cases hb
  · rw [hnone'] at hb; cases hb

end BigDataPlatform.PacketCapture
