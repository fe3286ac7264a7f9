import BigDataPlatform.PacketCapture.Steady

/-! # The loop and `upload.sh --once` over one directory

Both annotators write `X.pcapng.tmp`, and neither takes a lock. As long as no
annotator opens that file while the other one is between its open and its
rename, every order of their steps is safe; when one does, the other publishes
and uploads what the truncation left, and removes the capture. -/
namespace BigDataPlatform.PacketCapture
open BigDataPlatform.Lib.Pack BigDataPlatform.Lib.FileSystem BigDataPlatform.Lib.Transition
open BigDataPlatform.PcapAnnotate

/-- No temporary file is shared, the cap takes no capture, no shutdown. -/
def Unshared (s : Sys) (l : Label) : Prop :=
  NoSharedTmp s l ∧ CapSparesCaptures l ∧ l.shutdown = false

instance (s : Sys) (l : Label) : Decidable (Unshared s l) := inferInstanceAs (Decidable (_ ∧ _ ∧ _))

/-- **Two uploaders lose nothing when they share no temporary file.** A capture
is unlinked only when the bucket already holds an object with exactly its
packets, and at every moment a closed capture is on disk or in the bucket. -/
theorem twoUploaders_conserve {cfg : Config} {clock : Nat} {s : Sys}
    (h : Reaches (step cfg) Unshared (init cfg clock) s) :
    (∀ l t x i, Unshared s l → step cfg l s = some t → s.env.fs.lookup (.pcap x) = some i →
      t.env.fs.lookup (.pcap x) = none → Shipped cfg s x) ∧
    ∀ x ≤ s.td.current, Closed cfg s x → OnDisk cfg s x ∨ Shipped cfg s x := by
  obtain ⟨hg, _⟩ := h.strengthen (fun s l => Gentle s l ∧ CapSparesCaptures l)
    (awake_init cfg clock) fun ha hok hs =>
      ⟨awake_step ha hok.2.2 hs, ⟨hok.1, ha.sweepAfterTcpdump _⟩, hok.2.1⟩
  obtain ⟨hi, hn⟩ := Reaches.noLoss hg
  constructor
  · intro l t x i hok hs hl hgone
    rcases step_removes hi hs hl hgone with hship | hmem
    · exact hship.2
    · exact absurd (hok.2.1 _ hmem) nofun
  · intro x hx _
    rcases hn x hx with ⟨i, hl⟩ | hship
    · exact Or.inl (hi.onDisk hl)
    · exact Or.inr hship.2

/-- A closed capture, and both uploaders have converted it in turn. The loop
ships it and removes both files; the flush finds its pcapng gone. -/
def inTurn : List Label :=
  [.packet synRecord, .tick (100 * second), .packet synRecord, .flush] ++
  commands .loop [.ok, .ok, .ok, .ok, .names fun _ => none, .ok, .chunk 240, .ok] ++
  commands .flush [.ok, .ok, .ok, .ok, .names fun _ => none, .ok, .chunk 240, .ok] ++
  commands .loop [.ok, .ok, .ok] ++ [.run .flush (.uploadFails false)]

theorem inTurn_conserved : ∃ s, exec (step deployed) inTurn (init deployed 0) = some s ∧
    s.env.fs.read (.pcap 0) = none ∧ Shipped deployed s 0 := by
  obtain ⟨s, hs, hp⟩ := (Option.any_eq_true
    (fun s : Sys => s.env.fs.read (.pcap 0) = none ∧ s.td.current = 1)
    (exec (step deployed) inTurn (init deployed 0))).mp (by decide +kernel)
  obtain ⟨hgone, hcur⟩ := of_decide_eq_true hp
  have hrun := exec_reaches (step deployed) Unshared (by decide +kernel) hs
  have hkept := (twoUploaders_conserve hrun).2 0 (by omega) (Or.inl (by omega))
  refine ⟨s, hs, hgone, hkept.resolve_left ?_⟩
  intro h
  obtain ⟨b, hb, _⟩ := h
  rw [hgone] at hb
  cases hb

/-- Nothing fails, nobody is killed, the cap does not fire. -/
def Label.untroubled : Label → Bool
  | .run _ .fail | .run _ (.uploadFails _) | .run _ (.cap _) | .kill | .sigterm => false
  | _ => true

/-- The flush opens the temporary file between the loop's last write and its
rename; the loop publishes the emptied file, uploads it and removes it. -/
def sharedTmp : List Label :=
  [.packet synRecord, .tick (100 * second), .packet synRecord, .flush] ++
  commands .loop [.ok, .ok, .ok, .ok, .names fun _ => none, .ok, .chunk 240] ++
  commands .flush [.ok, .ok, .ok, .ok, .names fun _ => none, .ok] ++ commands .loop [.ok, .ok, .ok]

/-- With every upload succeeding, a closed capture is unlinked while the bucket
holds only an empty object of it. -/
theorem sharedTmp_loses :
    ¬ ∀ s, Reaches (step deployed) (fun _ l => l.untroubled = true) (init deployed 0) s →
      (∀ l t x i, l.untroubled = true → step deployed l s = some t → Closed deployed s x →
        s.env.fs.lookup (.pcap x) = some i → t.env.fs.lookup (.pcap x) = none →
        Shipped deployed s x) ∧
      ∀ x ≤ s.td.current, Closed deployed s x → OnDisk deployed s x ∨ Shipped deployed s x := by
  intro hevery
  obtain ⟨s, hs, hp⟩ := (Option.any_eq_true
    (fun s : Sys => s.td.current = 1 ∧ s.env.s3 (.pcapng 0) = some [] ∧ s.env.s3 (.pcap 0) = none ∧
      (s.env.fs.lookup (.pcap 0)).isSome ∧
      (step deployed (.run .loop .ok) s).any fun t => t.env.fs.lookup (.pcap 0) = none)
    (exec (step deployed) sharedTmp (init deployed 0))).mp (by decide +kernel)
  obtain ⟨hcur, hng, hpcap, hon, hrm⟩ := of_decide_eq_true hp
  obtain ⟨i, hi⟩ := Option.isSome_iff_exists.mp hon
  obtain ⟨t, ht, hgone⟩ := (Option.any_eq_true _ _).mp hrm
  have hrun := exec_reaches (step deployed) (fun _ l => l.untroubled = true)
    (by decide +kernel) hs
  obtain ⟨n, b, hn, hb, hb'⟩ := (hevery s hrun).1 _ t 0 i rfl ht (Or.inl (by omega)) hi
    (of_decide_eq_true hgone)
  rcases hn with rfl | rfl
  · rw [hng] at hb
    cases hb
    have hnone : packetsOf (.pcapng 0) [] = none := by decide
    rw [hnone] at hb'
    cases hb'
  · rw [hpcap] at hb
    cases hb

end BigDataPlatform.PacketCapture
