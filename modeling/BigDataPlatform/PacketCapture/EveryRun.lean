import BigDataPlatform.PacketCapture.Steady

/-! # What every run keeps

Two annotators may write to one temporary file, and the shutdown sweep may
meet a capture tcpdump still writes. Whatever such a run does to the pcapngs,
no uploader ever writes under the name of a capture or of a snapshot: every
capture holds what tcpdump wrote to it, and its object a prefix of that, which
grows as long as no two copies of a capture are under way at once. -/
namespace BigDataPlatform.PacketCapture
open BigDataPlatform.Lib.Pack BigDataPlatform.Lib.FileSystem BigDataPlatform.Lib.Transition
open BigDataPlatform.PcapAnnotate

variable {cfg : Config} {env : Env} {s t : Sys} {u u' : Uploader} {c : Choice} {e : Effect}
  {l : Label} {pc : Pc} {w : Who} {x : Nat}

/-- A file that capture.sh makes, not an uploader. -/
def FileName.original : FileName → Bool
  | .pcap _ | .snapshot _ => true
  | .pcapng _ | .pcapngTmp _ => false

/-- What a command of upload.sh may do to the shared files. -/
inductive Derives (pc : Pc) : Effect → Prop
  | none : Derives pc .none
  | opens (x : Nat) : Derives pc (.truncate (.pcapngTmp x))
  | writes {x fd pos bs} : pc.writes = some (x, fd) → Derives pc (.write fd pos bs)
  | renames (x : Nat) : Derives pc (.rename (.pcapngTmp x) (.pcapng x))
  | unlinks (ns : List FileName) : Derives pc (.unlink ns)
  | puts (n : FileName) : Derives pc (.put n)

theorem Moves.derives (h : Moves cfg env u c e u') : Derives u.pc e := by
  cases h with
  | opens _ _ => exact .opens _
  | writes hpc _ => exact .writes (by rw [hpc]; rfl)
  | renames _ _ _ => exact .renames _
  | copied _ _ => exact .puts _
  | @copyFails _ _ _ stored _ => cases stored <;> first | exact .none | exact .puts _
  | removes _ => exact .unlinks _
  | caps _ _ _ => exact .unlinks _
  | _ => exact .none

theorem tmp_ne_pcap (x y : Nat) : FileName.pcapngTmp x ≠ .pcap y := nofun

theorem snapshot_ne_pcap (f : Snapshot) (y : Nat) : FileName.snapshot f ≠ .pcap y := nofun

/-! ## An annotator's descriptor

It was opened under the temporary name of capture `x`. Another annotator may
have moved or unlinked that name since, so the inode is under one of the names
of `x`'s conversion, or under none. -/

structure Owns (fs : Fs FileName) (x fd : Nat) : Prop where
  fd_lt : fd < fs.fresh
  fd_name : ∀ n, fs.lookup n = some fd → n = .pcapngTmp x ∨ n = .pcapng x

section Owns
variable {fs : Fs FileName} {fd : Nat} {n : FileName}

theorem Owns.not_original (h : Owns fs x fd) (hn : fs.lookup n = some fd) : n.original = false := by
  rcases h.fd_name n hn with rfl | rfl <;> rfl

/-- Opening a name gives the owned inode only if it is one of the names it has. -/
theorem Owns.openFd (h : Owns fs x fd) (he : fs.openFd n = fd) : n = .pcapngTmp x ∨ n = .pcapng x := by
  cases hl : fs.lookup n with
  | some i =>
    rw [Fs.openFd, hl] at he
    exact h.fd_name n (he ▸ hl)
  | none =>
    rw [Fs.openFd, hl] at he
    exact absurd h.fd_lt (by rw [← he]; exact lt_irrefl _)

theorem Owns.openFd_ne (h : Owns fs x fd) (hn : n.original = true) : fd ≠ fs.openFd n := by
  intro he
  rcases h.openFd he.symm with rfl | rfl <;> cases hn

theorem Owns.truncate (h : Owns fs x fd) (n : FileName) (now : Nat) :
    Owns (fs.truncate n now) x fd := by
  refine ⟨lt_of_lt_of_le h.fd_lt (Fs.fresh_truncate_le ..), fun m hm => ?_⟩
  rw [Fs.lookup_truncate] at hm
  split at hm
  · next he => exact he ▸ h.openFd (Option.some.inj hm)
  · exact h.fd_name m hm

theorem Owns.unlinkAll (h : Owns fs x fd) (ns : List FileName) : Owns (fs.unlinkAll ns) x fd :=
  ⟨by simpa using h.fd_lt, fun m hm => h.fd_name m (Fs.of_lookup_unlinkAll hm).2⟩

theorem Owns.rename (h : Owns fs x fd) (y : Nat) :
    Owns (fs.rename (.pcapngTmp y) (.pcapng y)) x fd := by
  cases ha : fs.lookup (.pcapngTmp y) with
  | none => rwa [Fs.rename_missing ha]
  | some j =>
    refine ⟨by simpa using h.fd_lt, fun m hm => ?_⟩
    rw [Fs.lookup_rename _ _ ha] at hm
    split at hm
    · next he =>
      subst he
      cases hm
      rcases h.fd_name _ ha with hy | hy
      · exact Or.inr (congrArg FileName.pcapng (FileName.pcapngTmp.inj hy))
      · cases hy
    · split at hm
      · cases hm
      · exact h.fd_name m hm

theorem Owns.opened (fs : Fs FileName) (x now : Nat) :
    Owns (fs.truncate (.pcapngTmp x) now) x (fs.openFd (.pcapngTmp x)) :=
  ⟨(Temp.opened x now).fd_lt, fun n hn => Or.inl ((Temp.opened x now).fd_name n hn)⟩

end Owns

theorem Owns.apply {fd : Nat} (h : Owns env.fs x fd) (hd : Derives pc e) :
    Owns (env.apply e).fs x fd := by
  cases hd with
  | none => exact h
  | opens y => exact h.truncate _ _
  | writes _ => exact ⟨h.fd_lt, h.fd_name⟩
  | renames y => exact h.rename y
  | unlinks ns => exact h.unlinkAll ns
  | puts n => rwa [Env.put_fs]

/-! ## The files nobody but capture.sh writes -/

structure Originals (cfg : Config) (s : Sys) : Prop where
  fd_lt : s.td.fd < s.env.fs.fresh
  fd_name : ∀ n, s.env.fs.lookup n = some s.td.fd → n = .pcap s.td.current
  fd_bytes : (s.env.fs.node s.td.fd).bytes = cfg.file (s.log s.td.current)
  pcap : ∀ x i, s.env.fs.lookup (.pcap x) = some i →
    x ≤ s.td.current ∧ (x = s.td.current → i = s.td.fd) ∧ (s.env.fs.node i).bytes = cfg.file (s.log x)
  writer : ∀ w x fd, (s.up w).pc.writes = some (x, fd) → fd ≠ s.td.fd ∧ Owns s.env.fs x fd
  object : ∀ x b, s.env.s3 (.pcap x) = some b → ∃ rs, rs <+: s.log x ∧ b = cfg.file rs
  later : ∀ x, s.td.current < x → s.log x = []

/-- Between `s` and `t` no original was written: each is as it was or gone, and
an object is as it was or a copy of a file. -/
structure Spared (s t : Sys) : Prop where
  td : t.td = s.td ∨ t.td = { s.td with running := false }
  log : t.log = s.log
  fresh : s.env.fs.fresh ≤ t.env.fs.fresh
  fd : t.env.fs.node s.td.fd = s.env.fs.node s.td.fd
  fd_name : ∀ n, t.env.fs.lookup n = some s.td.fd → s.env.fs.lookup n = some s.td.fd
  kept : ∀ n i, n.original = true → t.env.fs.lookup n = some i →
    s.env.fs.lookup n = some i ∧ t.env.fs.node i = s.env.fs.node i
  object : ∀ n, t.env.s3 n = s.env.s3 n ∨ ∃ b, t.env.s3 n = some b ∧ s.env.fs.read n = some b

theorem Spared.current (h : Spared s t) : t.td.current = s.td.current ∧ t.td.fd = s.td.fd := by
  rcases h.td with h | h <;> simp [h]

theorem Spared.read (h : Spared s t) {n : FileName} {b : Bytes} (hn : n.original = true)
    (hr : t.env.fs.read n = some b) : s.env.fs.read n = some b := by
  obtain ⟨i, hi, rfl⟩ := Option.map_eq_some_iff.mp hr
  obtain ⟨hl, hnode⟩ := h.kept n i hn hi
  rw [hnode]
  exact read_eq hl

theorem Spared.originals (h : Spared s t) (ho : Originals cfg s)
    (hw : ∀ w x fd, (t.up w).pc.writes = some (x, fd) → fd ≠ s.td.fd ∧ Owns t.env.fs x fd) :
    Originals cfg t := by
  obtain ⟨hcur, hfd⟩ := h.current
  refine ⟨?_, ?_, ?_, ?_, ?_, ?_, ?_⟩
  · rw [hfd]
    exact lt_of_lt_of_le ho.fd_lt h.fresh
  · intro n hn
    rw [hfd] at hn
    rw [hcur]
    exact ho.fd_name n (h.fd_name n hn)
  · rw [hfd, h.fd, h.log, hcur]
    exact ho.fd_bytes
  · intro x i hi
    obtain ⟨hl, hnode⟩ := h.kept _ i rfl hi
    rw [hcur, hfd, hnode, h.log]
    exact ho.pcap x i hl
  · rw [hfd]
    exact hw
  · intro x b hb
    rw [h.log]
    rcases h.object (.pcap x) with hsame | ⟨b', hnew, hr⟩
    · exact ho.object x b (hsame ▸ hb)
    · rw [hb] at hnew
      cases hnew
      obtain ⟨i, hi, rfl⟩ := Option.map_eq_some_iff.mp hr
      exact ⟨s.log x, List.prefix_refl _, (ho.pcap x i hi).2.2⟩
  · rw [h.log, hcur]
    exact ho.later

/-- A step that leaves the directory and the bucket as they are. -/
theorem Spared.of_env (htd : t.td = s.td ∨ t.td = { s.td with running := false })
    (hlog : t.log = s.log) (hfs : t.env.fs = s.env.fs) (hs3 : t.env.s3 = s.env.s3) : Spared s t where
  td := htd
  log := hlog
  fresh := by rw [hfs]
  fd := by rw [hfs]
  fd_name n h := hfs ▸ h
  kept n i _ h := by rw [hfs] at h ⊢; exact ⟨h, rfl⟩
  object n := Or.inl (congrFun hs3 n)

theorem Originals.openFd_ne (ho : Originals cfg s) {n : FileName} (hn : n ≠ .pcap s.td.current) :
    s.td.fd ≠ s.env.fs.openFd n := by
  intro he
  cases hl : s.env.fs.lookup n with
  | some i => exact hn (ho.fd_name n (by rw [he, Fs.openFd, hl]; rfl))
  | none => exact absurd ho.fd_lt (by rw [he, Fs.openFd, hl]; exact lt_irrefl _)

/-- **No command of upload.sh writes an original.** -/
theorem Derives.spared (ho : Originals cfg s) (h : Derives (s.up w).pc e) (up : Who → Uploader) :
    Spared s { s with env := s.env.apply e, up } := by
  cases h with
  | none => exact Spared.of_env (Or.inl rfl) rfl rfl rfl
  | opens y =>
    have htmp : FileName.pcapngTmp y ≠ .pcap s.td.current := tmp_ne_pcap y _
    have hfd := ho.openFd_ne htmp
    refine ⟨Or.inl rfl, rfl, Fs.fresh_truncate_le .., ?_, ?_, ?_, fun _ => Or.inl rfl⟩
    · simp only [Env.apply]
      rw [Fs.node_truncate, if_neg hfd]
    · intro n hn
      simp only [Env.apply] at hn
      rw [Fs.lookup_truncate] at hn
      split at hn
      · exact absurd (Option.some.inj hn).symm hfd
      · exact hn
    · intro n i hn hi
      have hne : n ≠ .pcapngTmp y := by rintro rfl; cases hn
      simp only [Env.apply] at hi ⊢
      rw [Fs.lookup_truncate, if_neg hne] at hi
      exact ⟨hi, by rw [Fs.node_truncate, if_neg (Fs.openFd_ne hi hne)]⟩
  | @writes y fd pos bs hw =>
    obtain ⟨hfd, hown⟩ := ho.writer w y fd hw
    refine ⟨Or.inl rfl, rfl, le_rfl, ?_, fun _ h => h, ?_, fun _ => Or.inl rfl⟩
    · simp only [Env.apply]
      rw [Fs.node_write, if_neg (Ne.symm hfd)]
    · intro n i hn hi
      have hne : i ≠ fd := by
        rintro rfl
        exact absurd (hn.symm.trans (hown.not_original hi)) (by decide)
      simp only [Env.apply] at hi ⊢
      exact ⟨hi, by rw [Fs.node_write, if_neg hne]⟩
  | renames y =>
    cases ha : s.env.fs.lookup (.pcapngTmp y) with
    | none => exact Spared.of_env (Or.inl rfl) rfl (Fs.rename_missing ha) rfl
    | some j =>
      refine ⟨Or.inl rfl, rfl, by simp [Env.apply], by simp [Env.apply], ?_, ?_, fun _ => Or.inl rfl⟩
      · intro n hn
        simp only [Env.apply] at hn
        rw [Fs.lookup_rename _ _ ha] at hn
        split at hn
        · cases ho.fd_name _ (ha.trans hn)
        · split at hn
          · cases hn
          · exact hn
      · intro n i hn hi
        have hng : n ≠ .pcapng y := by rintro rfl; cases hn
        have htmp : n ≠ .pcapngTmp y := by rintro rfl; cases hn
        simp only [Env.apply] at hi ⊢
        rw [Fs.lookup_rename _ _ ha, if_neg hng, if_neg htmp] at hi
        exact ⟨hi, by simp⟩
  | unlinks ns =>
    refine ⟨Or.inl rfl, rfl, by simp [Env.apply], by simp [Env.apply],
      fun n hn => (Fs.of_lookup_unlinkAll hn).2, ?_, fun _ => Or.inl rfl⟩
    intro n i _ hi
    exact ⟨(Fs.of_lookup_unlinkAll hi).2, by simp [Env.apply]⟩
  | puts n =>
    have hfs := s.env.put_fs n
    refine ⟨Or.inl rfl, rfl, by rw [hfs], by rw [hfs], fun n hn => hfs ▸ hn, ?_, ?_⟩
    · intro m i _ hi
      rw [hfs] at hi ⊢
      exact ⟨hi, rfl⟩
    · have hq : Quiet cfg s _ := quiet_put n up
      exact hq.object

/-! ## tcpdump's own steps -/

theorem log_grows_extend (r : Record) (y : Nat) : s.log y <+: (s.extend cfg r).log y := by
  by_cases hy : y = s.td.current
  · subst hy
    simp [Sys.extend]
  · exact ⟨[], by rw [extend_log r hy, List.append_nil]⟩

theorem log_grows_rotate (hlater : ∀ y, s.td.current < y → s.log y = []) (r : Record) (y : Nat) :
    s.log y <+: (s.rotate cfg r).log y := by
  by_cases hy : y = s.td.current + 1
  · rw [hlater y (by omega)]
    exact List.nil_prefix
  · exact ⟨[], by rw [rotate_log r hy, List.append_nil]⟩

/-- A packet goes to the end of the current capture. -/
theorem originals_extend (ho : Originals cfg s) (r : Record) : Originals cfg (s.extend cfg r) := by
  have hfd : ((s.extend cfg r).env.fs.node s.td.fd).bytes
      = cfg.file ((s.extend cfg r).log s.td.current) := by
    simp only [Sys.extend]
    rw [Fs.node_append, if_pos rfl, ho.fd_bytes, file_append, Function.update_self]
  refine ⟨ho.fd_lt, ho.fd_name, hfd, ?_, fun w y fd hw => ?_, ?_, ?_⟩
  · intro y i hi
    obtain ⟨hle, hcur, hbytes⟩ := ho.pcap y i hi
    refine ⟨hle, hcur, ?_⟩
    by_cases hy : y = s.td.current
    · subst hy
      obtain rfl := hcur rfl
      exact hfd
    · have hne : i ≠ s.td.fd := by
        rintro rfl
        exact hy (FileName.pcap.inj (ho.fd_name _ hi))
      rw [extend_node r hne, extend_log r hy]
      exact hbytes
  · exact ⟨(ho.writer w y fd hw).1, (ho.writer w y fd hw).2.fd_lt, (ho.writer w y fd hw).2.fd_name⟩
  · intro y b hb
    obtain ⟨rs, hrs, rfl⟩ := ho.object y b hb
    exact ⟨rs, hrs.trans (log_grows_extend r y), rfl⟩
  · intro y hy
    have hne : y ≠ s.td.current := Nat.ne_of_gt hy
    exact (extend_log r hne).trans (ho.later y hy)

/-- The packet that finds the rotation due opens the next capture. -/
theorem originals_rotate (ho : Originals cfg s) (r : Record) : Originals cfg (s.rotate cfg r) := by
  have hfd := congrArg Inode.bytes (@rotate_node_fd cfg s r)
  refine ⟨Fs.openFd_lt_fresh s.env.fs _ s.env.clock, ?_, hfd, ?_, fun w y fd hw => ?_, ?_, ?_⟩
  · intro n hn
    rw [rotate_lookup] at hn
    split at hn
    · next he => exact he
    · exact Fs.lookup_eq_openFd hn
  · intro y i hi
    rw [rotate_lookup] at hi
    split at hi
    · next he =>
      cases he
      cases hi
      exact ⟨le_rfl, fun _ => rfl, hfd⟩
    · next hne =>
      obtain ⟨hle, _, hbytes⟩ := ho.pcap y i hi
      have hy : y ≠ s.td.current + 1 := by omega
      rw [rotate_node r hne hi, rotate_log r hy]
      exact ⟨Nat.le_succ_of_le hle, fun he => absurd he hy, hbytes⟩
  · obtain ⟨_, hown⟩ := ho.writer w y fd hw
    have ht := hown.truncate (.pcap (s.td.current + 1)) s.env.clock
    exact ⟨hown.openFd_ne rfl, ht.fd_lt, ht.fd_name⟩
  · intro y b hb
    obtain ⟨rs, hrs, rfl⟩ := ho.object y b hb
    exact ⟨rs, hrs.trans (log_grows_rotate ho.later r y), rfl⟩
  · intro y hy
    have hne : y ≠ s.td.current + 1 := Nat.ne_of_gt hy
    exact (rotate_log r hne).trans (ho.later y (Nat.lt_of_succ_lt hy))

/-! ## capture.sh's snapshots -/

/-- What publishing a snapshot leaves under each name. -/
theorem publish_read (fs : Fs FileName) (f : Snapshot) (b : Bytes) (now : Nat) :
    ((fs.truncate (.snapshot f) now).write (fs.openFd (.snapshot f)) 0 b now).read (.snapshot f)
      = some b := by
  simp [Fs.read, Fs.lookup_truncate, Fs.node_write, Fs.node_truncate, Fs.writeAt]

theorem publish_other {fs : Fs FileName} {f : Snapshot} {n : FileName} {i : Nat} (b : Bytes) (now : Nat)
    (hn : n ≠ .snapshot f)
    (hl : ((fs.truncate (.snapshot f) now).write (fs.openFd (.snapshot f)) 0 b now).lookup n = some i) :
    fs.lookup n = some i ∧
      ((fs.truncate (.snapshot f) now).write (fs.openFd (.snapshot f)) 0 b now).node i = fs.node i := by
  rw [Fs.lookup_write, Fs.lookup_truncate, if_neg hn] at hl
  have hne := Fs.openFd_ne hl hn
  exact ⟨hl, by rw [Fs.node_write, if_neg hne, Fs.node_truncate, if_neg hne]⟩

theorem originals_publish (ho : Originals cfg s) {f : Snapshot} {b : Bytes}
    (h : Acts cfg s (.publish f b) t) : Originals cfg t := by
  cases h
  have hname : FileName.snapshot f ≠ .pcap s.td.current := snapshot_ne_pcap f _
  have hfd := ho.openFd_ne hname
  have hnode : (((s.env.fs.truncate (.snapshot f) s.env.clock).write
      (s.env.fs.openFd (.snapshot f)) 0 b s.env.clock).node s.td.fd) = s.env.fs.node s.td.fd := by
    rw [Fs.node_write, if_neg hfd, Fs.node_truncate, if_neg hfd]
  refine ⟨lt_of_lt_of_le ho.fd_lt (Fs.fresh_truncate_le _ _ s.env.clock), ?_, ?_, ?_,
    fun w y fd hw => ?_, ho.object, ho.later⟩
  · intro n hn
    simp only [Env.apply, Fs.lookup_write, Fs.lookup_truncate] at hn
    split at hn
    · exact absurd (Option.some.inj hn).symm hfd
    · exact ho.fd_name n hn
  · exact (congrArg Inode.bytes hnode).trans ho.fd_bytes
  · intro y i hi
    have hne : FileName.pcap y ≠ .snapshot f := (snapshot_ne_pcap f y).symm
    obtain ⟨hl, hn⟩ := publish_other b s.env.clock hne hi
    obtain ⟨hle, hcur, hbytes⟩ := ho.pcap y i hl
    exact ⟨hle, hcur, (congrArg Inode.bytes hn).trans hbytes⟩
  · obtain ⟨hne, hown⟩ := ho.writer w y fd hw
    have ht := hown.truncate (.snapshot f) s.env.clock
    exact ⟨hne, ht.fd_lt, ht.fd_name⟩

/-! ## Runs -/

theorem Moves.of_convert {o : Outcome} (h : Moves cfg env u .ok e u') (hpc : u.pc = .convert x o) :
    e = .truncate (.pcapngTmp x) ∨ u'.pc.writes = none := by
  cases h with
  | opens hpc' _ =>
    rw [hpc] at hpc'
    cases hpc'
    exact Or.inl rfl
  | refuses _ _ => exact Or.inr rfl
  | copied hc _ => rw [hpc] at hc; cases hc
  | removes hc => rw [hpc] at hc; cases hc
  | below _ _ => exact Or.inr (finish_writes u)
  | gone hpc' _ _ => rw [hpc] at hpc'; cases hpc'
  | snapshotGone hpc' _ => rw [hpc] at hpc'; cases hpc'
  | _ => exact Or.inr rfl

/-- A command leaves every annotator with a descriptor of its own capture. -/
theorem Moves.writer (ho : Originals cfg s) (h : Moves cfg s.env (s.up w) c e u') :
    ∀ v x fd, (Function.update s.up w u' v).pc.writes = some (x, fd) →
      fd ≠ s.td.fd ∧ Owns (s.env.apply e).fs x fd := by
  have hkeep : ∀ v x fd, (s.up v).pc.writes = some (x, fd) →
      fd ≠ s.td.fd ∧ Owns (s.env.apply e).fs x fd := fun v x fd hw =>
    ⟨(ho.writer v x fd hw).1, (ho.writer v x fd hw).2.apply h.derives⟩
  intro v x fd hw
  by_cases hv : v = w
  · subst hv
    rw [Function.update_self] at hw
    rcases h.next_writes with hn | hn | ⟨y, o, hpc, rfl, hn⟩
    · rw [hn] at hw; cases hw
    · exact hkeep v x fd (hn ▸ hw)
    · rw [hn] at hw
      cases hw
      rcases h.of_convert hpc with rfl | hnone
      · have htmp : FileName.pcapngTmp x ≠ .pcap s.td.current := tmp_ne_pcap x _
        exact ⟨Ne.symm (ho.openFd_ne htmp), Owns.opened _ _ _⟩
      · rw [hnone] at hn; cases hn
  · rw [Function.update_of_ne hv] at hw
    exact hkeep v x fd hw

/-- A step of an uploader, or of a process that leaves the files alone. -/
theorem step_spared (ho : Originals cfg s) (h : step cfg l s = some t) :
    Spared s t ∨ (∃ r, l = .packet r) ∨ ∃ f b, l = .publish f b := by
  cases step_acts h with
  | moves hm => exact Or.inl (hm.derives.spared ho _)
  | rotates r _ => exact Or.inr (Or.inl ⟨r, rfl⟩)
  | appends r _ _ => exact Or.inr (Or.inl ⟨r, rfl⟩)
  | publish f b => exact Or.inr (Or.inr ⟨f, b, rfl⟩)
  | tcpdumpExits _ => exact Or.inl (Spared.of_env (Or.inr rfl) rfl rfl rfl)
  | _ => exact Or.inl (Spared.of_env (Or.inl rfl) rfl rfl rfl)

/-- An original leaves the directory only when an uploader unlinks it. -/
theorem gone_unlinked {n : FileName} {i : Nat} (h : Derives pc e) (hn : n.original = true)
    (hl : env.fs.lookup n = some i) (hgone : (env.apply e).fs.lookup n = none) :
    ∃ ns, e = .unlink ns ∧ n ∈ ns := by
  cases h with
  | none => rw [Env.apply, hl] at hgone; cases hgone
  | opens y =>
    simp only [Env.apply, Fs.lookup_truncate] at hgone
    split at hgone
    · cases hgone
    · rw [hl] at hgone; cases hgone
  | writes _ => rw [Env.apply, Fs.lookup_write, hl] at hgone; cases hgone
  | renames y =>
    have hng : n ≠ .pcapng y := by rintro rfl; cases hn
    have htmp : n ≠ .pcapngTmp y := by rintro rfl; cases hn
    simp only [Env.apply] at hgone
    cases ha : env.fs.lookup (.pcapngTmp y) with
    | none => rw [Fs.rename_missing ha, hl] at hgone; cases hgone
    | some j => rw [Fs.lookup_rename _ _ ha, if_neg hng, if_neg htmp, hl] at hgone; cases hgone
  | unlinks ns =>
    refine ⟨ns, rfl, ?_⟩
    simp only [Env.apply, Fs.lookup_unlinkAll] at hgone
    by_contra hns
    rw [if_neg hns, hl] at hgone
    cases hgone
  | puts m => rw [Env.put_fs, hl] at hgone; cases hgone

theorem step_gone {n : FileName} {i : Nat} (h : step cfg l s = some t) (hn : n.original = true)
    (hl : s.env.fs.lookup n = some i) (hgone : t.env.fs.lookup n = none) :
    ∃ w c ns u, l = .run w c ∧ Moves cfg s.env (s.up w) c (.unlink ns) u ∧ n ∈ ns := by
  have hstill : t.env.fs.lookup n = s.env.fs.lookup n → False := fun he => by
    rw [he, hl] at hgone; cases hgone
  cases step_acts h with
  | @moves w c e u' hm =>
    obtain ⟨ns, rfl, hns⟩ := gone_unlinked hm.derives hn hl hgone
    exact ⟨w, c, ns, u', rfl, hm, hns⟩
  | rotates r _ =>
    rw [rotate_lookup] at hgone
    split at hgone
    · cases hgone
    · rw [hl] at hgone; cases hgone
  | publish f b =>
    simp only [Env.apply, Fs.lookup_write, Fs.lookup_truncate] at hgone
    split at hgone
    · cases hgone
    · rw [hl] at hgone; cases hgone
  | _ => exact (hstill rfl).elim

/-- A step that changes no file; every annotator goes on as it was or stops. -/
theorem Originals.still (ho : Originals cfg s)
    (htd : t.td = s.td ∨ t.td = { s.td with running := false }) (hlog : t.log = s.log)
    (hfs : t.env.fs = s.env.fs) (hs3 : t.env.s3 = s.env.s3)
    (hup : ∀ v, t.up v = s.up v ∨ (t.up v).pc.writes = none) : Originals cfg t := by
  refine (Spared.of_env htd hlog hfs hs3).originals ho fun v x fd hw => ?_
  rcases hup v with hv | hv
  · rw [hfs]
    exact ho.writer v x fd (hv ▸ hw)
  · rw [hv] at hw
    cases hw

theorem update_up (hu : u.pc.writes = none) (v : Who) :
    Function.update s.up w u v = s.up v ∨ (Function.update s.up w u v).pc.writes = none := by
  by_cases hv : v = w
  · subst hv
    rw [Function.update_self]
    exact Or.inr hu
  · exact Or.inl (Function.update_of_ne hv _ _)

/-- **Every step keeps the originals.** -/
theorem originals_step (ho : Originals cfg s) (h : step cfg l s = some t) : Originals cfg t := by
  cases step_acts h with
  | rotates r _ => exact originals_rotate ho r
  | appends r _ _ => exact originals_extend ho r
  | publish f b => exact originals_publish ho (.publish f b)
  | moves hm => exact (hm.derives.spared ho _).originals ho (hm.writer ho)
  | kill => exact ho.still (Or.inl rfl) rfl rfl rfl (update_up rfl)
  | flush _ => exact ho.still (Or.inl rfl) rfl rfl rfl (update_up rfl)
  | trapUpload _ _ => exact ho.still (Or.inl rfl) rfl rfl rfl (update_up rfl)
  | tcpdumpExits _ => exact ho.still (Or.inr rfl) rfl rfl rfl fun _ => Or.inl rfl
  | _ => exact ho.still (Or.inl rfl) rfl rfl rfl fun _ => Or.inl rfl

theorem originals_init (cfg : Config) (clock : Nat) : Originals cfg (init cfg clock) := by
  have hc := (inv_init cfg clock).core
  refine ⟨hc.fd_lt, hc.fd_name, hc.fd_bytes, ?_, fun w y fd hw => ?_, nofun, fun _ _ => rfl⟩
  · intro y i hi
    obtain ⟨hle, hcur, hbytes, _⟩ := hc.pcap y i hi
    exact ⟨hle, hcur, hbytes⟩
  · cases w <;> cases hw

theorem Reaches.originals {clock : Nat} (h : Reaches (step cfg) anyStep (init cfg clock) s) :
    Originals cfg s :=
  h.invariant (Originals cfg) (originals_init cfg clock) fun ho _ hs => originals_step ho hs

/-- tcpdump's log of a capture only grows. -/
theorem step_log (ho : Originals cfg s) (h : step cfg l s = some t) (y : Nat) :
    s.log y <+: t.log y := by
  cases step_acts h with
  | rotates r _ => exact log_grows_rotate ho.later r y
  | appends r _ _ => exact log_grows_extend r y
  | _ => exact List.prefix_refl _

/-- An upload of a capture is never behind the one it replaces. -/
theorem step_object (ho : Originals cfg s) (h : step cfg l s = some t) {rs : List Record}
    (hs : s.env.s3 (.pcap x) = some (cfg.file rs)) (hrs : rs <+: s.log x) :
    ∃ rs', t.env.s3 (.pcap x) = some (cfg.file rs') ∧ rs <+: rs' ∧ rs' <+: t.log x := by
  have hlog := step_log ho h x
  have hsame : t.env.s3 (.pcap x) = s.env.s3 (.pcap x) →
      ∃ rs', t.env.s3 (.pcap x) = some (cfg.file rs') ∧ rs <+: rs' ∧ rs' <+: t.log x :=
    fun he => ⟨rs, he.trans hs, List.prefix_refl _, hrs.trans hlog⟩
  rcases step_spared ho h with hsp | ⟨r, rfl⟩ | ⟨f, b, rfl⟩
  · rcases hsp.object (.pcap x) with he | ⟨b, hb, hr⟩
    · exact hsame he
    · obtain ⟨i, hi, rfl⟩ := Option.map_eq_some_iff.mp hr
      rw [(ho.pcap x i hi).2.2] at hb
      exact ⟨s.log x, hb, hrs, hlog⟩
  · cases step_acts h <;> exact hsame rfl
  · cases step_acts h
    exact hsame rfl

/-- Between two sweeps, in the trap's sleep or gone: no copy is under way. -/
def Pc.atRest : Pc → Bool
  | .idle | .trapSleep _ | .exited => true
  | _ => false

/-- Which uploader runs a command. -/
def Label.runner : Label → Option Who
  | .run w _ => some w
  | _ => none

/-- An uploader runs a command only while the other one is at rest. -/
def TakeTurns (s : Sys) (l : Label) : Prop := ∀ w ∈ l.runner, (s.up w.other).pc.atRest = true

instance (s : Sys) (l : Label) : Decidable (TakeTurns s l) :=
  inferInstanceAs (Decidable (∀ w ∈ l.runner, _))

/-- **Uploads never go back.** Whatever a kill, a failure or a shutdown does, as
long as the two uploaders take turns: the object of a capture gives a reader a
prefix of the packets tcpdump has written to it, and any later object no fewer.
Side by side, the slower of two copies could put back what it read first. -/
theorem objects_grow {clock : Nat} (hs : Reaches (step cfg) TakeTurns (init cfg clock) s)
    (ht : Reaches (step cfg) TakeTurns s t) {x : Nat} {b : Bytes}
    (hb : s.env.s3 (.pcap x) = some b) :
    ∃ b', t.env.s3 (.pcap x) = some b' ∧ b <+: b' ∧ packetsOfPcap b <+: packetsOfPcap b' ∧
      packetsOfPcap b' <+: cfg.packets (t.log x) := by
  have ho : Originals cfg s := Reaches.originals (hs.weaken fun _ _ _ => trivial)
  obtain ⟨rs, hrs, rfl⟩ := ho.object x b hb
  have hrun := ht.invariant
    (fun t => Originals cfg t ∧ ∃ rs', t.env.s3 (.pcap x) = some (cfg.file rs') ∧ rs <+: rs' ∧
      rs' <+: t.log x)
    ⟨ho, rs, hb, List.prefix_refl _, hrs⟩ ?_
  · obtain ⟨_, rs', hb', hpre, hlog⟩ := hrun
    refine ⟨cfg.file rs', hb', ?_, ?_, ?_⟩
    · obtain ⟨more, rfl⟩ := hpre
      exact ⟨more.flatMap (Record.write cfg.header.order), by simp [Config.file]⟩
    · rw [packetsOfPcap_file, packetsOfPcap_file]
      exact hpre.map _
    · rw [packetsOfPcap_file]
      exact hlog.map _
  · rintro u l v ⟨hu, rs', hb', hpre, hlog⟩ _ hstep
    obtain ⟨rs'', hb'', hpre', hlog'⟩ := step_object hu hstep hb' hlog
    exact ⟨originals_step hu hstep, rs'', hb'', hpre.trans hpre', hlog'⟩

/-- `upload.sh --once` ships the capture in progress and leaves it in place. -/
def keptEarly : List Label :=
  [.packet synRecord, .flush] ++ commands .flush [.ok, .ok, .ok, .ok, .ok]

/-- One more packet, and a second flush. -/
def keptAgain : List Label :=
  commands .flush [.ok, .ok, .ok, .ok] ++ [.packet synRecord, .flush] ++
    commands .flush [.ok, .ok, .ok, .ok, .ok]

theorem keptEarly_grows : ∃ s t b b', exec (step deployed) keptEarly (init deployed 0) = some s ∧
    exec (step deployed) keptAgain s = some t ∧ s.env.s3 (.pcap 0) = some b ∧
    t.env.s3 (.pcap 0) = some b' ∧ b ≠ b' ∧ b <+: b' := by
  obtain ⟨s, hs, hp⟩ := (Option.any_eq_true
    (fun s : Sys => s.env.s3 (.pcap 0) = some (deployed.file [synRecord]) ∧
      Along (step deployed) TakeTurns keptAgain s ∧ (exec (step deployed) keptAgain s).any fun t =>
        t.env.s3 (.pcap 0) = some (deployed.file [synRecord, synRecord]))
    (exec (step deployed) keptEarly (init deployed 0))).mp (by decide +kernel)
  obtain ⟨hb, hturns, hrest⟩ := of_decide_eq_true hp
  obtain ⟨t, ht, hp'⟩ := (Option.any_eq_true _ _).mp hrest
  have hb' := of_decide_eq_true hp'
  obtain ⟨b', hgrown, hpre, _⟩ := objects_grow
    (exec_reaches (step deployed) TakeTurns (by decide +kernel) hs)
    (exec_reaches (step deployed) TakeTurns hturns ht) hb
  refine ⟨s, t, _, b', hs, ht, hb, hgrown, ?_, hpre⟩
  rw [hb'] at hgrown
  cases hgrown
  decide +kernel

end BigDataPlatform.PacketCapture
