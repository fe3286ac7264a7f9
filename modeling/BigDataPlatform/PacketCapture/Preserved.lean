import BigDataPlatform.PacketCapture.Invariant

/-! # What a step that is not tcpdump's keeps

Between two writes of tcpdump every capture, pcapng and object is as it was,
gone, or rightly derived from what was there. -/
namespace BigDataPlatform.PacketCapture
open BigDataPlatform.Lib.Pack BigDataPlatform.Lib.FileSystem

variable {cfg : Config} {s s' t : Sys} {e : Effect} {x : Nat}

/-! ## Steps that are not tcpdump's -/

/-- Between `s` and `s'` tcpdump wrote nothing, and every capture, pcapng and
object is as it was, gone, or rightly derived from what was there. -/
structure Quiet (cfg : Config) (s s' : Sys) : Prop where
  td : s'.td = s.td ∨ s'.td = { s.td with running := false }
  log : s'.log = s.log
  clock : s.env.clock ≤ s'.env.clock
  fresh : s.env.fs.fresh ≤ s'.env.fs.fresh
  fd : s'.env.fs.node s.td.fd = s.env.fs.node s.td.fd
  fd_name : ∀ n, s'.env.fs.lookup n = some s.td.fd → s.env.fs.lookup n = some s.td.fd
  pcap : ∀ x i, s'.env.fs.lookup (.pcap x) = some i →
    s.env.fs.lookup (.pcap x) = some i ∧ s'.env.fs.node i = s.env.fs.node i
  pcapng : ∀ x i, s'.env.fs.lookup (.pcapng x) = some i →
    s.env.fs.lookup (.pcapng x) = some i ∧ s'.env.fs.node i = s.env.fs.node i ∨
      Closed cfg s x ∧ Converted cfg (s'.env.fs.node i).bytes (s.log x)
  object : ∀ n, s'.env.s3 n = s.env.s3 n ∨ ∃ b, s'.env.s3 n = some b ∧ s.env.fs.read n = some b

theorem Quiet.td_same (hq : Quiet cfg s s') :
    s'.td.current = s.td.current ∧ s'.td.fd = s.td.fd ∧ s'.td.openedAt = s.td.openedAt ∧
      (s.td.running = false → s'.td.running = false) := by
  rcases hq.td with h | h <;> simp [h]

theorem Quiet.closed (hq : Quiet cfg s s') (h : Closed cfg s x) : Closed cfg s' x := by
  obtain ⟨hcur, _, hop, hrun⟩ := hq.td_same
  have hclk := hq.clock
  rcases h with h | ⟨h, hop' | hrun'⟩
  · exact Or.inl (hcur ▸ h)
  · exact Or.inr ⟨hcur ▸ h, Or.inl (by rw [hop]; omega)⟩
  · exact Or.inr ⟨hcur ▸ h, Or.inr (hrun hrun')⟩

theorem Quiet.core (hq : Quiet cfg s s') (hc : Core cfg s) : Core cfg s' := by
  obtain ⟨hcur, hfd, hop, _⟩ := hq.td_same
  have hclk := hq.clock
  refine ⟨?_, ?_, ?_, ?_, hop ▸ hc.opened_le.trans hclk, ?_, ?_, ?_⟩
  · rw [hfd]; exact lt_of_lt_of_le hc.fd_lt hq.fresh
  · intro n hn
    rw [hfd] at hn
    rw [hcur]
    exact hc.fd_name n (hq.fd_name n hn)
  · rw [hfd, hq.fd, hq.log, hcur]; exact hc.fd_bytes
  · rw [hfd, hq.fd, hop]; exact hc.fd_mtime
  · intro x i hi
    obtain ⟨hl, hn⟩ := hq.pcap x i hi
    obtain ⟨hle, hcurrent, hbytes, hm⟩ := hc.pcap x i hl
    rw [hcur, hfd, hn, hq.log]
    exact ⟨hle, hcurrent, hbytes, hm.trans hclk⟩
  · intro x i hi
    rw [hq.log]
    rcases hq.pcapng x i hi with ⟨hl, hn⟩ | ⟨hcl, hcv⟩
    · obtain ⟨hcl, hcv⟩ := hc.pcapng x i hl
      exact ⟨hq.closed hcl, hn ▸ hcv⟩
    · exact ⟨hq.closed hcl, hcv⟩
  · intro x b hb
    rw [hq.log]
    rcases hq.object (.pcapng x) with h | ⟨b', h, hr⟩
    · obtain ⟨hcl, hcv⟩ := hc.object x b (h ▸ hb)
      exact ⟨hq.closed hcl, hcv⟩
    · rw [hb] at h
      cases h
      obtain ⟨i, hi, rfl⟩ := Option.map_eq_some_iff.mp hr
      obtain ⟨hcl, hcv⟩ := hc.pcapng x i hi
      exact ⟨hq.closed hcl, hcv⟩

/-- What a file of a capture says of it. -/
theorem packetsOf_file {n : FileName} {b : Bytes} (hc : Core cfg s)
    (hn : n = .pcapng x ∨ n = .pcap x) (hr : s.env.fs.read n = some b) :
    packetsOf n b = some (cfg.packets (s.log x)) := by
  obtain ⟨i, hi, rfl⟩ := Option.map_eq_some_iff.mp hr
  rcases hn with rfl | rfl
  · exact (hc.pcapng x i hi).2
  · rw [packetsOf, (hc.pcap x i hi).2.2.1, packetsOfPcap_file]

theorem Quiet.shipped (hq : Quiet cfg s s') (hc : Core cfg s) (h : Shipped cfg s x) :
    Shipped cfg s' x := by
  obtain ⟨n, b, hn, hb, hp⟩ := h
  rw [Shipped, hq.log]
  rcases hq.object n with hsame | ⟨b', hnew, hr⟩
  · exact ⟨n, b, hn, hsame.trans hb, hp⟩
  · exact ⟨n, b', hn, hnew, packetsOf_file hc hn hr⟩

theorem Quiet.evolves (hq : Quiet cfg s s') (hc : Core cfg s) : Evolves cfg s s' where
  clock := hq.clock
  closed _ h := ⟨hq.closed h, congrFun hq.log _⟩
  shipped _ _ h := hq.shipped hc h
  exited := hq.td_same.2.2.2

theorem Evolves.refl (s : Sys) : Evolves cfg s s :=
  ⟨le_rfl, fun _ hx => ⟨hx, rfl⟩, fun _ _ hs => hs, id⟩

theorem Evolves.trans (h : Evolves cfg s s') (h' : Evolves cfg s' t) : Evolves cfg s t where
  clock := h.clock.trans h'.clock
  closed x hx :=
    have h1 := h.closed x hx
    have h2 := h'.closed x h1.1
    ⟨h2.1, h2.2.trans h1.2⟩
  shipped x hx hs := h'.shipped x (h.closed x hx).1 (h.shipped x hx hs)
  exited hr := h'.exited (h.exited hr)

/-- One operation that leaves the captures to tcpdump, and puts under a
pcapng's name only a conversion of a closed capture. -/
def EffectOk (cfg : Config) (s : Sys) : Effect → Prop
  | .truncate n => Scratch n
  | .write fd _ _ => fd ≠ s.td.fd ∧ ∀ n, s.env.fs.lookup n = some fd → Scratch n
  | .rename a b => Scratch a ∧ ∃ x, b = .pcapng x ∧ ∀ i, s.env.fs.lookup a = some i →
      Closed cfg s x ∧ Converted cfg (s.env.fs.node i).bytes (s.log x)
  | _ => True

/-- A step that does nothing to the shared files. -/
theorem Quiet.of_env (htd : s'.td = s.td ∨ s'.td = { s.td with running := false })
    (hlog : s'.log = s.log) (hclk : s.env.clock ≤ s'.env.clock) (hfs : s'.env.fs = s.env.fs)
    (hs3 : s'.env.s3 = s.env.s3) : Quiet cfg s s' where
  td := htd
  log := hlog
  clock := hclk
  fresh := by rw [hfs]
  fd := by rw [hfs]
  fd_name n h := hfs ▸ h
  pcap x i h := by rw [hfs] at h ⊢; exact ⟨h, rfl⟩
  pcapng x i h := by rw [hfs] at h ⊢; exact Or.inl ⟨h, rfl⟩
  object n := Or.inl (congrFun hs3 n)

/-- tcpdump's descriptor is not what opening another name gives. -/
theorem Core.openFd_ne (hc : Core cfg s) {n : FileName} (hn : Scratch n) :
    s.env.fs.openFd n ≠ s.td.fd := by
  intro he
  cases hl : s.env.fs.lookup n with
  | some i => exact (hn s.td.current).1 (hc.fd_name n (by rw [← he, Fs.openFd, hl]; rfl))
  | none => exact absurd hc.fd_lt (by rw [← he, Fs.openFd, hl]; exact lt_irrefl _)

theorem quiet_truncate (hc : Core cfg s) {n : FileName} (hn : Scratch n) (up : Who → Uploader) :
    Quiet cfg s { s with env := s.env.apply (.truncate n), up } := by
  have hcap : ∀ m i, m ≠ n → (s.env.fs.truncate n s.env.clock).lookup m = some i →
      s.env.fs.lookup m = some i ∧ (s.env.fs.truncate n s.env.clock).node i = s.env.fs.node i := by
    intro m i hm hi
    rw [Fs.lookup_truncate, if_neg hm] at hi
    exact ⟨hi, by rw [Fs.node_truncate, if_neg (Fs.openFd_ne hi hm)]⟩
  have hfd := Ne.symm (hc.openFd_ne hn)
  refine ⟨Or.inl rfl, rfl, le_rfl, Fs.fresh_truncate_le .., ?_, ?_,
    fun x i => hcap _ i (Ne.symm (hn x).1), fun x i hi => Or.inl (hcap _ i (Ne.symm (hn x).2) hi),
    fun _ => Or.inl rfl⟩
  · simp only [Env.apply]
    rw [Fs.node_truncate, if_neg hfd]
  · intro m hm
    simp only [Env.apply] at hm
    rw [Fs.lookup_truncate] at hm
    split at hm
    · exact absurd (Option.some.inj hm).symm hfd
    · exact hm

theorem quiet_write {fd pos : Nat} {bs : Bytes} (hfd : fd ≠ s.td.fd)
    (hn : ∀ n, s.env.fs.lookup n = some fd → Scratch n) (up : Who → Uploader) :
    Quiet cfg s { s with env := s.env.apply (.write fd pos bs), up } := by
  have hcap : ∀ m i, ¬ Scratch m → s.env.fs.lookup m = some i →
      (s.env.fs.write fd pos bs s.env.clock).node i = s.env.fs.node i := by
    intro m i hm hi
    have hne : i ≠ fd := by rintro rfl; exact hm (hn m hi)
    rw [Fs.node_write, if_neg hne]
  refine ⟨Or.inl rfl, rfl, le_rfl, le_rfl, ?_, fun _ h => h,
    fun x i hi => ⟨hi, hcap _ i (fun h => (h x).1 rfl) hi⟩,
    fun x i hi => Or.inl ⟨hi, hcap _ i (fun h => (h x).2 rfl) hi⟩, fun _ => Or.inl rfl⟩
  simp only [Env.apply]
  rw [Fs.node_write, if_neg (Ne.symm hfd)]

theorem quiet_rename (hc : Core cfg s) {a : FileName} {y : Nat} (ha : Scratch a)
    (hy : ∀ i, s.env.fs.lookup a = some i →
      Closed cfg s y ∧ Converted cfg (s.env.fs.node i).bytes (s.log y)) (up : Who → Uploader) :
    Quiet cfg s { s with env := s.env.apply (.rename a (.pcapng y)), up } := by
  cases hl : s.env.fs.lookup a with
  | none => exact Quiet.of_env (Or.inl rfl) rfl le_rfl (Fs.rename_missing hl) rfl
  | some j =>
    refine ⟨Or.inl rfl, rfl, le_rfl, by simp [Env.apply], by simp [Env.apply], ?_, ?_, ?_,
      fun _ => Or.inl rfl⟩
    · intro m hm
      simp only [Env.apply] at hm
      rw [Fs.lookup_rename _ _ hl] at hm
      split at hm
      · exact absurd (hc.fd_name a (hm ▸ hl)) (ha _).1
      · split at hm
        · cases hm
        · exact hm
    · intro x i hi
      simp only [Env.apply] at hi ⊢
      rw [Fs.lookup_rename _ _ hl, if_neg (by simp), if_neg (Ne.symm (ha x).1)] at hi
      exact ⟨hi, by simp⟩
    · intro x i hi
      simp only [Env.apply] at hi ⊢
      rw [Fs.lookup_rename _ _ hl] at hi
      split at hi
      · next he =>
        cases he
        cases hi
        exact Or.inr (by simpa using hy j hl)
      · rw [if_neg (Ne.symm (ha x).2)] at hi
        exact Or.inl ⟨hi, by simp⟩

theorem quiet_unlink (ns : List FileName) (up : Who → Uploader) :
    Quiet cfg s { s with env := s.env.apply (.unlink ns), up } := by
  have hl : ∀ m i, (s.env.fs.unlinkAll ns).lookup m = some i → s.env.fs.lookup m = some i :=
    fun m i hm => (Fs.of_lookup_unlinkAll hm).2
  exact ⟨Or.inl rfl, rfl, le_rfl, by simp [Env.apply], by simp [Env.apply], fun n h => hl n _ h,
    fun x i hi => ⟨hl _ i hi, by simp [Env.apply]⟩,
    fun x i hi => Or.inl ⟨hl _ i hi, by simp [Env.apply]⟩, fun _ => Or.inl rfl⟩

theorem quiet_put (n : FileName) (up : Who → Uploader) :
    Quiet cfg s { s with env := s.env.apply (.put n), up } := by
  cases hr : s.env.fs.read n with
  | none => exact Quiet.of_env (Or.inl rfl) rfl (by simp) (by simp [Env.apply, hr]) (by simp [Env.apply, hr])
  | some b =>
    have hfs := s.env.put_fs n
    refine ⟨Or.inl rfl, rfl, by simp, by rw [hfs], by rw [hfs], fun n h => hfs ▸ h, ?_, ?_, ?_⟩
    · intro x i hi
      rw [hfs] at hi ⊢
      exact ⟨hi, rfl⟩
    · intro x i hi
      rw [hfs] at hi ⊢
      exact Or.inl ⟨hi, rfl⟩
    · intro m
      by_cases hm : m = n
      · subst hm; exact Or.inr ⟨b, put_read hr, hr⟩
      · left; simp [Env.apply, hr, hm]

theorem EffectOk.quiet (hc : Core cfg s) (he : EffectOk cfg s e) (up : Who → Uploader) :
    Quiet cfg s { s with env := s.env.apply e, up } := by
  cases e with
  | none => exact Quiet.of_env (Or.inl rfl) rfl le_rfl rfl rfl
  | truncate n => exact quiet_truncate hc he up
  | write fd pos bs => exact quiet_write he.1 he.2 up
  | rename a b =>
    obtain ⟨ha, y, rfl, hy⟩ := he
    exact quiet_rename hc ha hy up
  | unlink ns => exact quiet_unlink ns up
  | put n => exact quiet_put n up

end BigDataPlatform.PacketCapture
