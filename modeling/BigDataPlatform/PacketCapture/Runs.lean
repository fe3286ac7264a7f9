import BigDataPlatform.PacketCapture.Gentle

/-! # Runs of the shipper

tcpdump's own steps, and from them and the uploaders' the invariant of every
gentle run. A capture that is no longer on disk is in the bucket, unless the cap
took it. -/
namespace BigDataPlatform.PacketCapture
open BigDataPlatform.Lib.Pack BigDataPlatform.Lib.FileSystem BigDataPlatform.Lib.Transition
open BigDataPlatform.PcapAnnotate

variable {cfg : Config} {s t : Sys} {l : Label} {x : Nat}

/-! ## tcpdump's own steps -/

theorem not_closed_current (hrun : s.td.running = true)
    (hyoung : s.env.clock < s.td.openedAt + cfg.rotateSeconds * second) :
    ¬ Closed cfg s s.td.current := by
  rintro (h | ⟨_, h | h⟩)
  · exact absurd h (lt_irrefl _)
  · omega
  · rw [hrun] at h; cases h

theorem extend_log (r : Record) {y : Nat} (hy : y ≠ s.td.current) :
    (s.extend cfg r).log y = s.log y := Function.update_of_ne hy _ _

theorem extend_node (r : Record) {j : Nat} (hj : j ≠ s.td.fd) :
    (s.extend cfg r).env.fs.node j = s.env.fs.node j := by
  simp only [Sys.extend]
  rw [Fs.node_append, if_neg hj]

theorem extend_node_fd (hc : Core cfg s) (r : Record) :
    (s.extend cfg r).env.fs.node s.td.fd =
      ⟨cfg.file ((s.extend cfg r).log s.td.current), s.env.clock⟩ := by
  simp only [Sys.extend]
  rw [Fs.node_append, if_pos rfl, hc.fd_bytes, file_append, Function.update_self]

/-- A packet goes to the end of the current capture. -/
theorem inv_extend (hi : Inv cfg s) (hrun : s.td.running = true) (r : Record)
    (hyoung : s.env.clock < s.td.openedAt + cfg.rotateSeconds * second) :
    Inv cfg (s.extend cfg r) ∧ Evolves cfg s (s.extend cfg r) := by
  have hc := hi.core
  have hopen : ∀ y, Closed cfg s y → y ≠ s.td.current := by
    intro y hy he
    subst he
    exact not_closed_current hrun hyoung hy
  have hfd := extend_node_fd hc r
  have hev : Evolves cfg s (s.extend cfg r) := by
    refine ⟨le_rfl, fun y hy => ⟨hy, extend_log r (hopen y hy)⟩, ?_, id⟩
    intro y hy h
    obtain ⟨n, b, hn, hb, hp⟩ := h
    exact ⟨n, b, hn, hb, by rw [hp, extend_log r (hopen y hy)]⟩
  refine ⟨⟨⟨hc.fd_lt, hc.fd_name, congrArg Inode.bytes hfd, ?_, hc.opened_le, ?_, ?_, ?_⟩,
    ?_, hi.apart, ?_⟩, hev⟩
  · exact hc.opened_le.trans_eq (congrArg Inode.mtime hfd).symm
  · intro y i hl
    obtain ⟨hle, hcur, hbytes, hm⟩ := hc.pcap y i hl
    refine ⟨hle, hcur, ?_⟩
    by_cases hy : y = s.td.current
    · subst hy
      obtain rfl := hcur rfl
      exact ⟨congrArg Inode.bytes hfd, (congrArg Inode.mtime hfd).le⟩
    · have hne : i ≠ s.td.fd := by
        intro he
        subst he
        exact hy (FileName.pcap.inj (hc.fd_name _ hl))
      rw [extend_node r hne, extend_log r hy]
      exact ⟨hbytes, hm⟩
  · intro y i hl
    obtain ⟨hcl, hcv⟩ := hc.pcapng y i hl
    have hne : i ≠ s.td.fd := by
      intro he
      subst he
      exact absurd (hc.fd_name _ hl) nofun
    rw [extend_node r hne, extend_log r (hopen y hcl)]
    exact ⟨hcl, hcv⟩
  · intro y b hb
    obtain ⟨hcl, hcv⟩ := hc.object y b hb
    rw [extend_log r (hopen y hcl)]
    exact ⟨hcl, hcv⟩
  · exact fun w => (hi.up w).frame hev fun y fd b _ hne ht => ⟨hne, ht.append hne _ _⟩
  · intro y hy
    have hne : y ≠ s.td.current := Nat.ne_of_gt hy
    exact (extend_log r hne).trans (hi.later y hy)

theorem rotate_lookup (r : Record) (m : FileName) :
    (s.rotate cfg r).env.fs.lookup m =
      if m = .pcap (s.td.current + 1) then some (s.rotate cfg r).td.fd else s.env.fs.lookup m :=
  Fs.lookup_truncate s.env.fs _ m s.env.clock

theorem rotate_node (r : Record) {m : FileName} {i : Nat} (hm : m ≠ .pcap (s.td.current + 1))
    (hl : s.env.fs.lookup m = some i) : (s.rotate cfg r).env.fs.node i = s.env.fs.node i := by
  have hne := Fs.openFd_ne hl hm
  simp only [Sys.rotate]
  rw [Fs.node_append, if_neg hne, Fs.node_truncate, if_neg hne]

theorem rotate_node_fd (r : Record) :
    (s.rotate cfg r).env.fs.node (s.rotate cfg r).td.fd =
      ⟨cfg.file ((s.rotate cfg r).log (s.td.current + 1)), s.env.clock⟩ := by
  simp [Sys.rotate, Fs.node_append, Fs.node_truncate]

theorem rotate_log (r : Record) {z : Nat} (hz : z ≠ s.td.current + 1) :
    (s.rotate cfg r).log z = s.log z := Function.update_of_ne hz _ _

/-- The packet that finds the rotation due opens the next capture. -/
theorem inv_rotate (hi : Inv cfg s) (r : Record) :
    Inv cfg (s.rotate cfg r) ∧ Evolves cfg s (s.rotate cfg r) := by
  have hc := hi.core
  have hlt : ∀ z, Closed cfg s z → z < s.td.current + 1 := by
    rintro z (h | ⟨h, _⟩) <;> omega
  have hlog : ∀ z, Closed cfg s z → (s.rotate cfg r).log z = s.log z :=
    fun z hz => rotate_log r (Nat.ne_of_lt (hlt z hz))
  have hfd := @rotate_node_fd cfg s r
  have hev : Evolves cfg s (s.rotate cfg r) := by
    refine ⟨le_rfl, fun z hz => ⟨Or.inl (hlt z hz), hlog z hz⟩, ?_, id⟩
    intro z hz h
    obtain ⟨n, b, hn, hb, hp⟩ := h
    exact ⟨n, b, hn, hb, by rw [hp, hlog z hz]⟩
  refine ⟨⟨⟨?_, ?_, congrArg Inode.bytes hfd, (congrArg Inode.mtime hfd).ge, le_rfl, ?_, ?_, ?_⟩,
    ?_, hi.apart, ?_⟩, hev⟩
  · exact Fs.openFd_lt_fresh s.env.fs _ s.env.clock
  · intro n hn
    rw [rotate_lookup] at hn
    split at hn
    · next he => exact he
    · exact Fs.lookup_eq_openFd hn
  · intro z i hl
    rw [rotate_lookup] at hl
    split at hl
    · next he =>
      cases he
      cases hl
      exact ⟨le_rfl, fun _ => rfl, congrArg Inode.bytes hfd, (congrArg Inode.mtime hfd).le⟩
    · next hne =>
      obtain ⟨hle, _, hbytes, hm⟩ := hc.pcap z i hl
      have hz : z ≠ s.td.current + 1 := by omega
      rw [rotate_node r hne hl, rotate_log r hz]
      exact ⟨Nat.le_succ_of_le hle, fun he => absurd he hz, hbytes, hm⟩
  · intro z i hl
    have hname : FileName.pcapng z ≠ .pcap (s.td.current + 1) := nofun
    rw [rotate_lookup, if_neg hname] at hl
    obtain ⟨hcl, hcv⟩ := hc.pcapng z i hl
    rw [rotate_node r hname hl, hlog z hcl]
    exact ⟨Or.inl (hlt z hcl), hcv⟩
  · intro z b hb
    obtain ⟨hcl, hcv⟩ := hc.object z b hb
    rw [hlog z hcl]
    exact ⟨Or.inl (hlt z hcl), hcv⟩
  · refine fun w => (hi.up w).frame hev fun z fd b _ _ ht => ?_
    have hname : FileName.pcap (s.td.current + 1) ≠ .pcapngTmp z := fun h => nomatch h
    have hne := ht.openFd_ne hname
    exact ⟨hne, (ht.truncate hname _).append hne _ _⟩
  · intro z hz
    exact (rotate_log r (Nat.ne_of_gt hz)).trans (hi.later z (Nat.lt_of_succ_lt hz))

/-! ## Runs -/

/-- **The invariant of gentle runs.** -/
theorem inv_step (hi : Inv cfg s) (hok : Gentle s l) (h : step cfg l s = some t) :
    Inv cfg t ∧ Evolves cfg s t := by
  cases step_acts h with
  | tick d => exact inv_still hi rfl rfl (Nat.le_add_right ..) rfl (Or.inl rfl) fun _ => Or.inl rfl
  | rotates r _ => exact inv_rotate hi r
  | appends r hrun hyoung => exact inv_extend hi hrun r hyoung
  | publish f b => exact inv_publish hi (.publish f b)
  | moves hm => exact inv_run hi hok hm
  | kill =>
    refine inv_still hi rfl rfl le_rfl rfl (Or.inl rfl) fun w => ?_
    cases w
    · exact Or.inr ⟨Nat.zero_le _, id⟩
    · exact Or.inl rfl
  | flush _ =>
    refine inv_still hi rfl rfl le_rfl rfl (Or.inl rfl) fun w => ?_
    cases w
    · exact Or.inl rfl
    · exact Or.inr ⟨Nat.zero_le _, id⟩
  | trapUpload _ _ =>
    refine inv_still hi rfl rfl le_rfl rfl (Or.inl rfl) fun w => ?_
    cases w
    · exact Or.inr ⟨(hi.up .loop).now_le, id⟩
    · exact Or.inl rfl
  | tcpdumpExits _ => exact inv_still hi rfl rfl le_rfl rfl (Or.inr rfl) fun _ => Or.inl rfl
  | _ => exact inv_still hi rfl rfl le_rfl rfl (Or.inl rfl) fun _ => Or.inl rfl

theorem inv_init (cfg : Config) (clock : Nat) : Inv cfg (init cfg clock) := by
  have hlook : ∀ n, (init cfg clock).env.fs.lookup n = if n = .pcap 0 then some 0 else none :=
    fun n => Fs.lookup_truncate Fs.empty _ n clock
  have hnode : (init cfg clock).env.fs.node 0 = ⟨cfg.file [], clock⟩ := by
    simp [init, Fs.node_append, Fs.node_truncate, Fs.openFd]
  refine ⟨⟨?_, ?_, ?_, ?_, le_rfl, ?_, ?_, ?_⟩, fun w => UpOk.rest ?_ ?_, ?_, fun _ _ => rfl⟩
  · exact Fs.openFd_lt_fresh Fs.empty (.pcap 0) clock
  · intro n hn
    rw [hlook] at hn
    split at hn
    · next he => exact he
    · cases hn
  · exact congrArg Inode.bytes hnode
  · exact (congrArg Inode.mtime hnode).ge
  · intro x i hl
    rw [hlook] at hl
    split at hl
    · next he =>
      cases he
      cases hl
      exact ⟨le_rfl, fun _ => rfl, congrArg Inode.bytes hnode, (congrArg Inode.mtime hnode).le⟩
    · cases hl
  · intro x i hl
    rw [hlook, if_neg (by simp)] at hl
    cases hl
  · intro x b hb
    cases hb
  · cases w <;> exact Nat.zero_le _
  · cases w <;> exact id
  · intro p p' hp
    cases hp

/-- What holds of a closed capture goes on holding. -/
theorem Reaches.evolves (hi : Inv cfg s) (h : Reaches (step cfg) Gentle s t) : Evolves cfg s t := by
  refine (h.invariant (fun t => Inv cfg t ∧ Evolves cfg s t) ⟨hi, Evolves.refl s⟩ ?_).2
  intro u l v h hok hs
  obtain ⟨hu, hev⟩ := h
  obtain ⟨hv, hstep⟩ := inv_step hu hok hs
  exact ⟨hv, hev.trans hstep⟩

/-- A capture leaves the directory only when an uploader unlinks it. -/
theorem step_unlinks (hi : Inv cfg s) (h : step cfg l s = some t) {i : Nat}
    (hl : s.env.fs.lookup (.pcap x) = some i) (hgone : t.env.fs.lookup (.pcap x) = none) :
    ∃ w c ns u, l = .run w c ∧ Moves cfg s.env (s.up w) c (.unlink ns) u ∧ .pcap x ∈ ns := by
  have hstill : t.env.fs.lookup (.pcap x) = s.env.fs.lookup (.pcap x) → False := fun he => by
    rw [he, hl] at hgone; cases hgone
  cases step_acts h with
  | @moves w c e u' hm =>
    obtain ⟨ns, rfl, hx⟩ := lookup_apply (hm.effectOk (hi.up w)) hl hgone
    exact ⟨w, c, ns, u', rfl, hm, hx⟩
  | rotates r _ =>
    rw [rotate_lookup] at hgone
    split at hgone
    · cases hgone
    · rw [hl] at hgone; cases hgone
  | publish f b =>
    refine (hstill ?_).elim
    simp only [Env.apply, Fs.lookup_write, Fs.lookup_truncate, reduceCtorEq, if_false]
  | _ => exact (hstill rfl).elim

/-- **Who removes a capture.** The cap, or an uploader that has put it in the bucket. -/
theorem step_removes (hi : Inv cfg s) (h : step cfg l s = some t) {i : Nat}
    (hl : s.env.fs.lookup (.pcap x) = some i) (hgone : t.env.fs.lookup (.pcap x) = none) :
    Closed cfg s x ∧ Shipped cfg s x ∨ .pcap x ∈ l.victims := by
  obtain ⟨w, c, ns, u, rfl, hm, hx⟩ := step_unlinks hi h hl hgone
  rcases hm.removed (hi.up w) hx with hs | rfl
  · exact Or.inl hs
  · exact Or.inr hx

/-- A closed capture that stays in the directory keeps its file as it is. -/
theorem step_pcap (hi : Inv cfg s) (h : step cfg l s = some t) (hcl : Closed cfg s x) {i j : Nat}
    (hl : s.env.fs.lookup (.pcap x) = some i) (hl' : t.env.fs.lookup (.pcap x) = some j) :
    j = i ∧ t.env.fs.node i = s.env.fs.node i := by
  have hsame : t.env.fs.lookup (.pcap x) = s.env.fs.lookup (.pcap x) → j = i := fun he => by
    rw [he, hl] at hl'
    exact (Option.some.inj hl').symm
  cases step_acts h with
  | @moves w c e u' hm =>
    have hq := (hm.effectOk (hi.up w)).quiet hi.core (Function.update s.up w u')
    obtain ⟨hold, hnode⟩ := hq.pcap x j hl'
    rw [hl] at hold
    cases hold
    exact ⟨rfl, hnode⟩
  | rotates r _ =>
    have hname : FileName.pcap x ≠ .pcap (s.td.current + 1) := by
      intro he
      cases he
      rcases hcl with hlt | ⟨heq, _⟩ <;> omega
    exact ⟨hsame ((rotate_lookup r _).trans (if_neg hname)), rotate_node r hname hl⟩
  | appends r hrun hyoung =>
    have hne : i ≠ s.td.fd := by
      intro he
      subst he
      cases hi.core.fd_name _ hl
      exact not_closed_current hrun hyoung hcl
    exact ⟨hsame rfl, extend_node r hne⟩
  | publish f b =>
    have hne : FileName.pcap x ≠ .snapshot f := nofun
    refine ⟨hsame ?_, ?_⟩
    · simp only [Env.apply, Fs.lookup_write, Fs.lookup_truncate]
      rw [if_neg hne]
    · have hopen := Fs.openFd_ne hl hne
      simp only [Env.apply]
      rw [Fs.node_write, if_neg hopen, Fs.node_truncate, if_neg hopen]
  | _ => exact ⟨hsame rfl, rfl⟩

/-- Everything tcpdump has written is still under a `*.pcap` or in the bucket. -/
def NoLoss (cfg : Config) (s : Sys) : Prop :=
  ∀ x ≤ s.td.current, (∃ i, s.env.fs.lookup (.pcap x) = some i) ∨ Closed cfg s x ∧ Shipped cfg s x

theorem noLoss_init (cfg : Config) (clock : Nat) : NoLoss cfg (init cfg clock) := by
  intro x hx
  refine Or.inl ⟨0, (Fs.lookup_truncate Fs.empty _ _ clock).trans (if_pos ?_)⟩
  exact congrArg _ (Nat.le_zero.mp hx)

/-- tcpdump creates each capture that it numbers. -/
theorem step_current (h : step cfg l s = some t) :
    t.td.current = s.td.current ∨ t.td.current = s.td.current + 1 ∧
      ∃ i, t.env.fs.lookup (.pcap t.td.current) = some i := by
  cases step_acts h with
  | rotates r _ => exact Or.inr ⟨rfl, _, (rotate_lookup r _).trans (if_pos rfl)⟩
  | _ => exact Or.inl rfl

/-- **A gentle step whose cap spares the captures loses nothing.** -/
theorem noLoss_step (hi : Inv cfg s) (hn : NoLoss cfg s) (hok : Gentle s l)
    (hcap : CapSparesCaptures l) (h : step cfg l s = some t) : NoLoss cfg t := by
  have hev := (inv_step hi hok h).2
  have hship : ∀ x, Closed cfg s x ∧ Shipped cfg s x → Closed cfg t x ∧ Shipped cfg t x :=
    fun x hx => ⟨(hev.closed x hx.1).1, hev.shipped x hx.1 hx.2⟩
  intro x hx
  have hold : x ≤ s.td.current → (∃ i, t.env.fs.lookup (.pcap x) = some i) ∨
      Closed cfg t x ∧ Shipped cfg t x := by
    intro hx
    rcases hn x hx with ⟨i, hl⟩ | hs
    · cases hgone : t.env.fs.lookup (.pcap x) with
      | some j => exact Or.inl ⟨j, rfl⟩
      | none =>
        rcases step_removes hi h hl hgone with hs | hmem
        · exact Or.inr (hship x hs)
        · exact absurd (hcap _ hmem) nofun
    · exact Or.inr (hship x hs)
  rcases step_current h with hcur | ⟨hcur, hnew⟩
  · exact hold (hcur ▸ hx)
  · rcases Nat.lt_or_eq_of_le hx with hlt | rfl
    · exact hold (by omega)
    · exact Or.inl hnew

end BigDataPlatform.PacketCapture
