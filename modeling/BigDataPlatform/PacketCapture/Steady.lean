import BigDataPlatform.PacketCapture.Runs

/-! # The steady state loses no packet

One looping uploader that may be killed at any command, any failure of the
annotator and of an upload, any silence and any traffic. With no second
uploader no temporary file is shared, and with no SIGTERM there is no shutdown
sweep, so every step is gentle. -/
namespace BigDataPlatform.PacketCapture
open BigDataPlatform.Lib.Pack BigDataPlatform.Lib.FileSystem BigDataPlatform.Lib.Transition
open BigDataPlatform.PcapAnnotate

variable {cfg : Config} {s t : Sys} {u u' : Uploader} {c : Choice} {e : Effect} {l : Label} {x : Nat}

def Label.flushes : Label → Bool
  | .flush => true
  | _ => false

def Label.shutdown : Label → Bool
  | .sigterm => true
  | _ => false

/-- No second uploader, no shutdown. -/
def Label.single (l : Label) : Bool := !l.flushes && !l.shutdown

/-- The steady state: a single loop whose cap never fires. -/
def Steady (_ : Sys) (l : Label) : Prop := l.single = true ∧ l.victims = []

instance (s : Sys) (l : Label) : Decidable (Steady s l) := inferInstanceAs (Decidable (_ ∧ _))

/-- There has been no shutdown. -/
structure Awake (s : Sys) : Prop where
  running : s.td.running = true
  sigterm : s.sigterm = false
  termTd : s.termTd = false
  asleep : ∀ w, (s.up w).pc.asleep = false

/-- Only the looping uploader has ever run. -/
structure Alone (s : Sys) : Prop where
  flush : (s.up .flush).pc = .exited
  awake : Awake s

/-- No command of the script goes to sleep; only its trap does. -/
theorem Moves.asleep (h : Moves cfg s.env u c e u') (hu : u.pc.asleep = false) :
    u'.pc.asleep = false := by
  cases h with
  | gone hpc _ _ => exact hu
  | snapshotGone hpc _ => exact hu
  | copied hpc _ =>
    generalize u.pc = pc at hpc
    cases hpc <;> rfl
  | copyFails hpc =>
    generalize u.pc = pc at hpc
    cases hpc <;> rfl
  | removes hpc =>
    generalize u.pc = pc at hpc
    cases hpc <;> rfl
  | below _ _ => unfold Uploader.finish; split <;> rfl
  | caps _ _ _ => unfold Uploader.finish; split <;> rfl
  | _ => rfl

/-- A script that has exited runs no command. -/
theorem Moves.not_exited (h : Moves cfg s.env u c e u') : u.pc ≠ .exited := by
  intro hu
  cases h with
  | copied hpc _ => rw [hu] at hpc; cases hpc
  | copyFails hpc => rw [hu] at hpc; cases hpc
  | removes hpc => rw [hu] at hpc; cases hpc
  | fails hpc => rw [hu] at hpc; cases hpc
  | _ hpc => rw [hu] at hpc; cases hpc

theorem awake_init (cfg : Config) (clock : Nat) : Awake (init cfg clock) :=
  ⟨rfl, rfl, rfl, fun w => by cases w <;> rfl⟩

theorem awake_step (ha : Awake s) (hl : l.shutdown = false) (h : step cfg l s = some t) :
    Awake t := by
  have hup : ∀ {w} {u' : Uploader}, u'.pc.asleep = false →
      ∀ v, (Function.update s.up w u' v).pc.asleep = false := by
    intro w u' hu v
    rcases other_cases v w with rfl | rfl
    · rw [Function.update_self]; exact hu
    · rw [Function.update_of_ne (by cases w <;> nofun)]; exact ha.asleep _
  cases step_acts h with
  | sigterm => cases hl
  | moves hm => exact { ha with asleep := hup (hm.asleep (ha.asleep _)) }
  | kill => exact { ha with asleep := hup rfl }
  | flush _ => exact { ha with asleep := hup rfl }
  | trapUpload hs _ => rw [ha.sigterm] at hs; cases hs
  | trapCapture hs => rw [ha.sigterm] at hs; cases hs
  | tcpdumpExits hs => rw [ha.termTd] at hs; cases hs
  | _ => exact { ha with }

theorem Awake.sweepAfterTcpdump (ha : Awake s) (l : Label) : SweepAfterTcpdump s l := by
  intro w _ hpc
  rw [ha.asleep] at hpc
  cases hpc

theorem exited_step (hf : (s.up .flush).pc = .exited) (hl : l.flushes = false)
    (h : step cfg l s = some t) : (t.up .flush).pc = .exited := by
  cases step_acts h with
  | flush _ => cases hl
  | @moves w c e u' hm =>
    cases w with
    | loop => exact hf
    | flush => exact (hm.not_exited hf).elim
  | _ => exact hf

theorem alone_step (ha : Alone s) (hl : l.single = true) (h : step cfg l s = some t) : Alone t := by
  simp only [Label.single, Bool.and_eq_true, Bool.not_eq_true'] at hl
  exact ⟨exited_step ha.flush hl.1 h, awake_step ha.awake hl.2 h⟩

/-- One uploader alone shares nothing. -/
theorem noSharedTmp_of_exited (hf : (s.up .flush).pc = .exited) (l : Label) : NoSharedTmp s l := by
  intro w _ x hx p hp
  cases w with
  | loop => rw [Who.other, hf] at hp; cases hp
  | flush => rw [hf] at hx; cases hx

theorem Alone.gentle (ha : Alone s) (l : Label) : Gentle s l :=
  ⟨noSharedTmp_of_exited ha.flush l, ha.awake.sweepAfterTcpdump l⟩

/-- A run of the single loop is gentle, and leaves it alone. -/
theorem Alone.reaches {ok : Sys → Label → Prop} (ha : Alone s) (hok : ∀ s l, ok s l → l.single = true)
    (h : Reaches (step cfg) ok s t) : Reaches (step cfg) (fun s l => Gentle s l ∧ ok s l) s t ∧ Alone t :=
  h.strengthen _ ha fun ha hl hs => ⟨alone_step ha (hok _ _ hl) hs, ha.gentle _, hl⟩

/-- Everything written to capture `x` is in the directory, in a `*.pcap`. -/
def OnDisk (cfg : Config) (s : Sys) (x : Nat) : Prop :=
  ∃ b, s.env.fs.read (.pcap x) = some b ∧ packetsOfPcap b = cfg.packets (s.log x)

theorem Inv.onDisk {i : Nat} (hi : Inv cfg s) (hl : s.env.fs.lookup (.pcap x) = some i) :
    OnDisk cfg s x :=
  ⟨_, read_eq hl, by rw [(hi.core.pcap x i hl).2.2.1, packetsOfPcap_file]⟩

/-- A capture in use is on disk or in the bucket; the others have no packet. -/
theorem NoLoss.conserved (hn : NoLoss cfg s) (hi : Inv cfg s) (hx : s.log x ≠ []) :
    OnDisk cfg s x ∨ Shipped cfg s x := by
  have hle : x ≤ s.td.current := not_lt.mp fun h => hx (hi.later x h)
  rcases hn x hle with ⟨i, hl⟩ | hs
  · exact Or.inl (hi.onDisk hl)
  · exact Or.inr hs.2

/-- Gentle runs whose cap takes no capture. -/
theorem Reaches.noLoss {clock : Nat}
    (h : Reaches (step cfg) (fun s l => Gentle s l ∧ CapSparesCaptures l) (init cfg clock) s) :
    Inv cfg s ∧ NoLoss cfg s :=
  h.invariant (fun s => Inv cfg s ∧ NoLoss cfg s) ⟨inv_init cfg clock, noLoss_init cfg clock⟩
    fun hi hok hs => ⟨(inv_step hi.1 hok.1 hs).1, noLoss_step hi.1 hi.2 hok.1 hok.2 hs⟩

/-- **No packet lost.** At every moment of the steady state each capture that
tcpdump has written to is still in a `*.pcap` on disk, or the bucket holds an
object with exactly its packets; and once its `*.pcap` is gone, tcpdump never
writes to it again. -/
theorem steady_conserves_packets {cfg : Config} {clock : Nat} {s : Sys}
    (h : Reaches (step cfg) Steady (init cfg clock) s) :
    (∀ x, s.log x ≠ [] → OnDisk cfg s x ∨ Shipped cfg s x) ∧
      ∀ x ≤ s.td.current, s.env.fs.lookup (.pcap x) = none →
        ∀ t, Reaches (step cfg) Steady s t → t.log x = s.log x := by
  obtain ⟨hg, ha⟩ := (Alone.reaches ⟨rfl, awake_init cfg clock⟩ (fun _ _ h => h.1) h)
  obtain ⟨hi, hn⟩ := Reaches.noLoss (hg.weaken fun _ _ h => ⟨h.1, by rw [CapSparesCaptures, h.2.2]; nofun⟩)
  refine ⟨fun x hx => hn.conserved hi hx, fun x hx hgone t ht => ?_⟩
  obtain ⟨hgt, _⟩ := ha.reaches (fun _ _ h => h.1) ht
  have hev := Reaches.evolves hi (hgt.weaken fun _ _ h => h.1)
  rcases hn x hx with ⟨i, hl⟩ | hs
  · rw [hl] at hgone; cases hgone
  · exact (hev.closed x hs.1).2

/-- The deployed settings. -/
def deployed : Config where
  rotateSeconds := 30
  maxFiles := 400
  header := sll2Header

/-- The commands of one uploader. -/
def commands (w : Who) (cs : List Choice) : List Label := cs.map (.run w)

/-- A capture, a second one after the rotation, and a sweep in which the
annotator and the upload fail; the uploader is killed, and its next sweep ships
the closed capture as a pcapng. -/
def retried : List Label :=
  [.packet synRecord, .tick (100 * second), .packet synRecord] ++
  commands .loop [.ok, .ok, .ok, .ok, .fail, .ok, .uploadFails true, .ok, .ok, .ok] ++ [.kill] ++
  commands .loop
    [.ok, .ok, .ok, .ok, .names fun _ => none, .ok, .chunk 100, .chunk 140, .ok, .ok, .ok, .ok]

theorem retried_conserved : ∃ s, exec (step deployed) retried (init deployed 0) = some s ∧
    s.env.fs.lookup (.pcap 0) = none ∧ s.log 0 = [synRecord] ∧ Shipped deployed s 0 := by
  obtain ⟨s, hs, hp⟩ := (Option.any_eq_true
    (fun s : Sys => s.env.fs.read (.pcap 0) = none ∧ s.log 0 = [synRecord])
    (exec (step deployed) retried (init deployed 0))).mp (by decide +kernel)
  have hp' := of_decide_eq_true hp
  have hrun := exec_reaches (step deployed) Steady (by decide +kernel) hs
  have hkept := (steady_conserves_packets hrun).1 0 (by rw [hp'.2]; nofun)
  refine ⟨s, hs, ?_, hp'.2, ?_⟩
  · simpa [Fs.read] using hp'.1
  · rcases hkept with ⟨b, hb, _⟩ | hship
    · rw [hp'.1] at hb; cases hb
    · exact hship

end BigDataPlatform.PacketCapture
