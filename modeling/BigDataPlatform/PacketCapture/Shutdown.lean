import BigDataPlatform.PacketCapture.Sweep

/-! # Shutdown

Both containers get SIGTERM at once. upload.sh's trap sleeps 5 s and ships
everything regardless of age; capture.sh's trap stops tcpdump, but bash runs it
only after the foreground command, and `podmap`'s curl may take 10 s. Once
tcpdump has exited before that sweep starts, the sweep ships all of it. -/
namespace BigDataPlatform.PacketCapture
open BigDataPlatform.Lib.Pack BigDataPlatform.Lib.FileSystem BigDataPlatform.Lib.Transition
open BigDataPlatform.PcapAnnotate

variable {cfg : Config} {s t : Sys} {u u' : Uploader} {c : Choice} {e : Effect} {l : Label} {x : Nat}

/-- A shutdown whose last sweep starts after tcpdump's exit and whose uploads
then succeed; before it, anything may fail, but the cap takes no capture. -/
def Orderly (s : Sys) (l : Label) : Prop :=
  l.flushes = false ∧ SweepAfterTcpdump s l ∧
    ((s.up .loop).last = false → CapSparesCaptures l) ∧
    ((s.up .loop).last = true → l.interrupts = false)

instance (s : Sys) (l : Label) : Decidable (Orderly s l) := inferInstanceAs (Decidable (_ ∧ _ ∧ _ ∧ _))

/-- Only the trap makes a sweep the last one, and only the last sweep exits. -/
theorem Moves.last (h : Moves cfg s.env u c e u') :
    (u'.last = u.last ∧ (u'.pc = .exited → u.last = true)) ∨
      (u.pc.asleep = true ∧ c = .ok ∧ e = .none ∧ u' = { u.sweep s.env 0 with last := true }) ∨
      (u'.last = false ∧ u'.pc = .idle ∧ ∃ y, u.pc = .age y ∧ s.env.fs.mtime (.pcap y) = none) := by
  have hfinish : u.finish.last = u.last ∧ (u.finish.pc = .exited → u.last = true) := by
    unfold Uploader.finish
    cases hl : u.last
    · exact ⟨hl, nofun⟩
    · exact ⟨hl, fun _ => rfl⟩
  cases h with
  | wakes hpc _ => exact Or.inr (Or.inl ⟨by rw [hpc]; rfl, rfl, rfl, rfl⟩)
  | @lost y hpc hm => exact Or.inr (Or.inr ⟨rfl, rfl, y, hpc, hm⟩)
  | gone hpc _ _ => exact Or.inl ⟨rfl, fun h => by rw [hpc] at h; cases h⟩
  | snapshotGone hpc _ => exact Or.inl ⟨rfl, fun h => by rw [hpc] at h; cases h⟩
  | below _ _ => exact Or.inl hfinish
  | caps _ _ _ => exact Or.inl hfinish
  | copied hpc _ =>
    generalize u.pc = pc at hpc
    cases hpc <;> exact Or.inl ⟨rfl, nofun⟩
  | copyFails hpc =>
    generalize u.pc = pc at hpc
    cases hpc <;> exact Or.inl ⟨rfl, nofun⟩
  | removes hpc =>
    generalize u.pc = pc at hpc
    cases hpc <;> exact Or.inl ⟨rfl, nofun⟩
  | _ => exact Or.inl ⟨rfl, nofun⟩

/-- Before the last sweep nothing is lost, and it then owes all of it. -/
structure Ending (cfg : Config) (s : Sys) : Prop where
  inv : Inv cfg s
  flush : (s.up .flush).pc = .exited
  before : (s.up .loop).last = false → NoLoss cfg s ∧ (s.up .loop).pc ≠ .exited
  final : (s.up .loop).last = true → s.td.running = false ∧ Sweeping cfg s (· ≤ s.td.current)

theorem ending_init (cfg : Config) (clock : Nat) : Ending cfg (init cfg clock) :=
  ⟨inv_init cfg clock, rfl, fun _ => ⟨noLoss_init cfg clock, nofun⟩, nofun⟩

/-- Once tcpdump has exited, a sweep of minimum age 0 owes every capture. -/
theorem last_sweep_owes (hi : Inv cfg s) (hn : NoLoss cfg s) (hrun : s.td.running = false)
    (hpc : (s.up .loop).pc = .glob) (hmin : (s.up .loop).minAge = 0)
    (hnow : (s.up .loop).now = s.env.date) : Sweeping cfg s (· ≤ s.td.current) := by
  refine sweeping_start hpc fun x hx => ?_
  have hcl : Closed cfg s x := by
    rcases Nat.lt_or_eq_of_le hx with hlt | heq
    · exact Or.inl hlt
    · exact Or.inr ⟨heq, Or.inr hrun⟩
  refine ⟨hcl, ?_⟩
  rcases hn x hx with ⟨i, hl⟩ | hship
  · right
    refine ⟨i, hl, ?_⟩
    rw [hmin, hnow]
    exact Nat.div_le_div_right (hi.core.pcap x i hl).2.2.2
  · exact Or.inl hship.2

theorem gentle_of_orderly (hf : (s.up .flush).pc = .exited) (hok : Orderly s l) : Gentle s l :=
  ⟨noSharedTmp_of_exited hf l, hok.2.1⟩

theorem ending_before (he : Ending cfg s) (hok : Orderly s l) (h : step cfg l s = some t)
    (hlast : (s.up .loop).last = false) : Ending cfg t := by
  have hg := gentle_of_orderly he.flush hok
  obtain ⟨hi', _⟩ := inv_step he.inv hg h
  obtain ⟨hn, hne⟩ := he.before hlast
  have hn' := noLoss_step he.inv hn hg (hok.2.2.1 hlast) h
  have hf := exited_step he.flush hok.1 h
  have stays : (t.up .loop).last = false → (t.up .loop).pc ≠ .exited → Ending cfg t :=
    fun hl hp => ⟨hi', hf, fun _ => ⟨hn', hp⟩, fun hl' => by rw [hl] at hl'; cases hl'⟩
  cases step_acts h with
  | @moves w c e u' hm =>
    cases w with
    | flush => exact (hm.not_exited he.flush).elim
    | loop =>
      simp only [Function.update_self] at stays
      rcases hm.last with ⟨hl, hex⟩ | ⟨hpc, rfl, rfl, rfl⟩ | ⟨hl, hpc, _⟩
      · exact stays (hl.trans hlast) fun hp => by rw [hex hp] at hlast; cases hlast
      · have hrun : s.td.running = false := hok.2.1 .loop rfl hpc
        refine ⟨hi', hf, fun hl => ?_, fun _ => ⟨hrun, ?_⟩⟩
        · simp only [Function.update_self] at hl; cases hl
        · refine last_sweep_owes hi' hn' hrun ?_ ?_ ?_ <;> simp only [Function.update_self] <;> rfl
      · exact stays hl (by rw [hpc]; nofun)
  | kill => exact stays rfl nofun
  | trapUpload _ _ => exact stays hlast nofun
  | flush _ => exact absurd hok.1 (by decide)
  | _ => exact stays hlast hne

theorem ending_final (he : Ending cfg s) (hok : Orderly s l) (h : step cfg l s = some t)
    (hlast : (s.up .loop).last = true) : Ending cfg t := by
  have hg := gentle_of_orderly he.flush hok
  obtain ⟨hi', hev⟩ := inv_step he.inv hg h
  obtain ⟨hrun, hs⟩ := he.final hlast
  have hint := hok.2.2.2 hlast
  have hf := exited_step he.flush hok.1 h
  have goesOn : Undisturbed s l t → t.td.current = s.td.current → (t.up .loop).last = true →
      Ending cfg t := fun hu hcur hl => by
    have hs' := sweeping_step he.inv hg h hs hu
    exact ⟨hi', hf, fun hl' => by (rw [hl] at hl'; cases hl'), fun _ => ⟨hev.exited hrun, hcur ▸ hs'⟩⟩
  cases step_acts h with
  | @moves w c e u' hm =>
    cases w with
    | flush => exact (hm.not_exited he.flush).elim
    | loop =>
      refine goesOn (Or.inr ⟨c, rfl, hint⟩) rfl ?_
      simp only [Function.update_self]
      rcases hm.last with ⟨hl, _⟩ | ⟨_, _, _, rfl⟩ | ⟨_, _, y, hpc, hgone⟩
      · exact hl.trans hlast
      · rfl
      · -- nobody else removes the file between the test and its age
        obtain ⟨i, hl⟩ := hs.there y hpc
        simp [Fs.mtime, hl] at hgone
  | rotates r hr => rw [hrun] at hr; cases hr
  | kill => cases hint
  | trapUpload _ hi => simp [Uploader.interruptible, hlast] at hi
  | flush _ => exact absurd hok.1 (by decide)
  | _ => exact goesOn (Or.inl ⟨by simp, rfl⟩) rfl hlast

/-- **Shutdown ships the last capture.** When tcpdump has exited before the last
sweep starts and that sweep's uploads succeed, everything tcpdump ever wrote is
in the bucket when upload.sh exits. -/
theorem shutdown_ships_captures {cfg : Config} {clock : Nat} {s : Sys}
    (h : Reaches (step cfg) Orderly (init cfg clock) s) (hex : (s.up .loop).pc = .exited) :
    s.td.running = false ∧ ∀ x, s.log x ≠ [] → Shipped cfg s x := by
  have he : Ending cfg s := h.invariant (Ending cfg) (ending_init cfg clock) fun {s l t} he hok hs => by
    cases hlast : (s.up .loop).last
    · exact ending_before he hok hs hlast
    · exact ending_final he hok hs hlast
  cases hlast : (s.up .loop).last
  · exact absurd hex (he.before hlast).2
  · obtain ⟨hrun, hs⟩ := he.final hlast
    refine ⟨hrun, fun x hx => hs.shipped (by rw [hex]; exact id) ?_⟩
    exact not_lt.mp fun hlt => hx (he.inv.later x hlt)

/-- SIGTERM while both scripts wait: tcpdump exits at once, and five seconds
later the last sweep ships its only, young capture. -/
def promptShutdown : List Label :=
  [.packet synRecord, .sigterm, .trapUpload, .trapCapture, .tcpdumpExits, .tick (5 * second)] ++
  commands .loop (.ok :: .ok :: shipping ++ finishing)

theorem promptShutdown_shipped : ∃ s, exec (step deployed) promptShutdown (init deployed 0) = some s ∧
    s.log 0 = [synRecord] ∧ Shipped deployed s 0 := by
  obtain ⟨s, hs, hp⟩ := (Option.any_eq_true
    (fun s : Sys => (s.up .loop).pc = .exited ∧ s.log 0 = [synRecord])
    (exec (step deployed) promptShutdown (init deployed 0))).mp (by decide +kernel)
  obtain ⟨hex, hlog⟩ := of_decide_eq_true hp
  have hrun := exec_reaches (step deployed) Orderly (by decide +kernel) hs
  exact ⟨s, hs, hlog, (shutdown_ships_captures hrun hex).2 0 (by rw [hlog]; nofun)⟩

/-- A shutdown in which nothing fails and nobody is killed. -/
def Label.smooth : Label → Bool
  | .run _ .fail | .run _ (.uploadFails _) | .run _ (.cap _) | .kill | .flush => false
  | _ => true

/-- SIGTERM finds capture.sh in `podmap`'s curl, six seconds before its limit
ends it. The last sweep, five seconds later, converts the capture that tcpdump
has open and removes it; the next packet goes to the unlinked file. -/
def curlShutdown : List Label :=
  [.packet synRecord, .podmap, .tick (4 * second), .sigterm, .trapUpload, .tick (5 * second)] ++
  commands .loop (.ok :: .ok :: shipping) ++
  [.packet synRecord, .tick second, .commandEnds, .trapCapture, .tcpdumpExits] ++
  commands .loop finishing

theorem curlShutdown_loses :
    ¬ ∀ s, Reaches (step deployed) (fun _ l => l.smooth = true) (init deployed 0) s →
      (s.up .loop).pc = .exited → s.td.running = false →
      ∀ x, s.log x ≠ [] → Shipped deployed s x := by
  intro hevery
  obtain ⟨s, hs, hp⟩ := (Option.any_eq_true
    (fun s : Sys => (s.up .loop).pc = .exited ∧ s.td.running = false ∧
      s.log 0 = [synRecord, synRecord] ∧ s.env.s3 (.pcap 0) = none ∧
      (s.env.s3 (.pcapng 0)).bind packetsOfPcapng = some (deployed.packets [synRecord]))
    (exec (step deployed) curlShutdown (init deployed 0))).mp (by decide +kernel)
  obtain ⟨hex, hstop, hlog, hpcap, hng⟩ := of_decide_eq_true hp
  have hrun := exec_reaches (step deployed) (fun _ l => l.smooth = true)
    (by decide +kernel) hs
  obtain ⟨n, b, hn, hb, hb'⟩ := hevery s hrun hex hstop 0 (by rw [hlog]; nofun)
  rcases hn with rfl | rfl
  · have hone : packetsOfPcapng b = some (deployed.packets [synRecord]) := by
      simpa [hb] using hng
    rw [packetsOf, hone, hlog] at hb'
    exact absurd (congrArg List.length (Option.some.inj hb')) (by decide)
  · rw [hpcap] at hb
    cases hb

end BigDataPlatform.PacketCapture
