import BigDataPlatform.PacketCapture.Moves

/-! # What the directory and the bucket hold

A capture is closed once tcpdump can no longer write to it: it rotated past
it, the rotation time has passed since it was opened, or it exited. `Core` says
what every file and object holds, `UpOk` what an uploader may rely on at each
command, and `Evolves` what no step ever takes back. -/
namespace BigDataPlatform.PacketCapture
open BigDataPlatform.Lib.Pack BigDataPlatform.Lib.FileSystem BigDataPlatform.PcapAnnotate

variable {cfg : Config} {s s' : Sys} {x : Nat}

/-- tcpdump never writes to capture `x` again. -/
def Closed (cfg : Config) (s : Sys) (x : Nat) : Prop :=
  x < s.td.current ∨ x = s.td.current ∧
    (s.td.openedAt + cfg.rotateSeconds * second ≤ s.env.clock ∨ s.td.running = false)

/-- The packets of records, at the resolution tcpdump writes. -/
def Config.packets (cfg : Config) (rs : List Record) : List Packet :=
  rs.map cfg.header.interface.packet

/-- `b` is a pcapng of exactly these records' packets. -/
def Converted (cfg : Config) (b : Bytes) (rs : List Record) : Prop :=
  packetsOfPcapng b = some (cfg.packets rs)

/-- The bucket holds an object of capture `x`, the pcapng or the original, that
gives back exactly the packets tcpdump has written to it. -/
def Shipped (cfg : Config) (s : Sys) (x : Nat) : Prop :=
  ∃ n b, (n = FileName.pcapng x ∨ n = FileName.pcap x) ∧ s.env.s3 n = some b ∧
    packetsOf n b = some (cfg.packets (s.log x))

/-- A name no reader takes for a capture. -/
def Scratch (n : FileName) : Prop := ∀ x, n ≠ .pcap x ∧ n ≠ .pcapng x

theorem scratch_tmp (x : Nat) : Scratch (.pcapngTmp x) := fun _ => ⟨nofun, nofun⟩

theorem scratch_snapshot (f : Snapshot) : Scratch (.snapshot f) := fun _ => ⟨nofun, nofun⟩

structure Core (cfg : Config) (s : Sys) : Prop where
  fd_lt : s.td.fd < s.env.fs.fresh
  fd_name : ∀ n, s.env.fs.lookup n = some s.td.fd → n = .pcap s.td.current
  fd_bytes : (s.env.fs.node s.td.fd).bytes = cfg.file (s.log s.td.current)
  fd_mtime : s.td.openedAt ≤ (s.env.fs.node s.td.fd).mtime
  opened_le : s.td.openedAt ≤ s.env.clock
  pcap : ∀ x i, s.env.fs.lookup (.pcap x) = some i →
    x ≤ s.td.current ∧ (x = s.td.current → i = s.td.fd) ∧
      (s.env.fs.node i).bytes = cfg.file (s.log x) ∧ (s.env.fs.node i).mtime ≤ s.env.clock
  pcapng : ∀ x i, s.env.fs.lookup (.pcapng x) = some i →
    Closed cfg s x ∧ Converted cfg (s.env.fs.node i).bytes (s.log x)
  object : ∀ x b, s.env.s3 (.pcapng x) = some b → Closed cfg s x ∧ Converted cfg b (s.log x)

/-- What a step must never undo. -/
structure Evolves (cfg : Config) (s s' : Sys) : Prop where
  clock : s.env.clock ≤ s'.env.clock
  closed : ∀ x, Closed cfg s x → Closed cfg s' x ∧ s'.log x = s.log x
  shipped : ∀ x, Closed cfg s x → Shipped cfg s x → Shipped cfg s' x
  exited : s.td.running = false → s'.td.running = false

/-- The inode `fd` that was opened under the temporary name of capture `x` holds
`b`, and nobody reaches it by another name. -/
structure Temp (fs : Fs FileName) (x fd : Nat) (b : Bytes) : Prop where
  fd_lt : fd < fs.fresh
  fd_name : ∀ n, fs.lookup n = some fd → n = .pcapngTmp x
  tmp_fd : ∀ i, fs.lookup (.pcapngTmp x) = some i → i = fd
  bytes : (fs.node fd).bytes = b

/-- The annotator between its open and its rename. -/
structure Writing (cfg : Config) (s : Sys) (x fd pos : Nat) (out : Bytes) (done : Bool) : Prop where
  closed : Closed cfg s x
  converted : done = true → Converted cfg out (s.log x)
  pos_le : pos ≤ out.length
  fd_ne : fd ≠ s.td.fd
  temp : Temp s.env.fs x fd (out.take pos)

/-- Between `now=$(date +%s)` and the end of the sweep. -/
def InSweep : Pc → Prop
  | .idle | .trapSleep _ | .exited => False
  | _ => True

/-- What an uploader may rely on where it stands. -/
def At (cfg : Config) (s : Sys) : Pc → Prop
  | .annotate x | .failed x | .shipNg x | .shipPcap x => Closed cfg s x
  | .convert x o => Closed cfg s x ∧
      ∀ out, o.tmp = some out → o.exitStatus = 0 → Converted cfg out (s.log x)
  | .writing x fd pos out done => Writing cfg s x fd pos out done
  | .removeNg x | .removePcap x => Closed cfg s x ∧ Shipped cfg s x
  | _ => True

structure UpOk (cfg : Config) (s : Sys) (u : Uploader) : Prop where
  now_le : u.now ≤ s.env.date
  age : InSweep u.pc → cfg.rotateSeconds + 30 ≤ u.minAge ∨ s.td.running = false
  here : At cfg s u.pc

/-! ## Files and what they say -/

theorem packetsOfPcap_file (cfg : Config) (rs : List Record) :
    packetsOfPcap (cfg.file rs) = cfg.packets rs :=
  packetsOfPcap_write cfg.header rs

theorem file_append (cfg : Config) (rs : List Record) (r : Record) :
    cfg.file rs ++ r.write cfg.header.order = cfg.file (rs ++ [r]) := by
  simp [Config.file]

theorem read_eq {fs : Fs FileName} {n : FileName} {i : Nat} (h : fs.lookup n = some i) :
    fs.read n = some (fs.node i).bytes := by
  simp [Fs.read, h]

/-- **Old enough means closed.** The file's last write, which is no earlier than
its opening, lies a whole rotation behind the sweep's clock reading. -/
theorem closed_of_old {i now minAge : Nat} (hc : Core cfg s) (hl : s.env.fs.lookup (.pcap x) = some i)
    (hnow : now ≤ s.env.date) (hmin : cfg.rotateSeconds + 30 ≤ minAge ∨ s.td.running = false)
    (hold : (s.env.fs.node i).mtime / second + minAge ≤ now) : Closed cfg s x := by
  obtain ⟨hle, hfd, _, _⟩ := hc.pcap x i hl
  rcases Nat.lt_or_eq_of_le hle with hlt | heq
  · exact Or.inl hlt
  · refine Or.inr ⟨heq, ?_⟩
    rcases hmin with hmin | hexit
    · left
      have hopen := hc.fd_mtime
      rw [← hfd heq] at hopen
      simp only [Env.date, second] at *
      omega
    · exact Or.inr hexit

/-- A conversion of a closed capture's bytes gives that capture's packets. -/
theorem converted_of_main {i : Nat} {src : String} {names : Names} {out : Bytes} (hc : Core cfg s)
    (hl : s.env.fs.lookup (.pcap x) = some i)
    (h0 : (main src names (s.env.fs.node i).bytes).exitStatus = 0)
    (ht : (main src names (s.env.fs.node i).bytes).tmp = some out) :
    Converted cfg out (s.log x) := by
  rw [Converted, main_packets h0 ht, (hc.pcap x i hl).2.2.1, packetsOfPcap_file]

/-- A copy of either file of a capture ships it. -/
theorem shipped_put {n : FileName} (hc : Core cfg s) (hn : n = .pcapng x ∨ n = .pcap x)
    (hl : (s.env.fs.lookup n).isSome) (henv : s'.env = s.env.apply (.put n))
    (hlog : s'.log x = s.log x) : Shipped cfg s' x := by
  obtain ⟨i, hi⟩ := Option.isSome_iff_exists.mp hl
  refine ⟨n, (s.env.fs.node i).bytes, hn, by rw [henv]; exact put_read (read_eq hi), ?_⟩
  rw [hlog]
  rcases hn with rfl | rfl
  · exact (hc.pcapng x i hi).2
  · rw [packetsOf, (hc.pcap x i hi).2.2.1, packetsOfPcap_file]

/-! ## A temporary file under the operations of others -/

section Temp
variable {fs : Fs FileName} {fd : Nat} {b : Bytes}

theorem Temp.openFd_ne (h : Temp fs x fd b) {n : FileName} (hn : n ≠ .pcapngTmp x) :
    fd ≠ fs.openFd n := by
  intro he
  cases hl : fs.lookup n with
  | some i => exact hn (h.fd_name n (by rw [he, Fs.openFd, hl]; rfl))
  | none => exact absurd h.fd_lt (by rw [he, Fs.openFd, hl]; exact lt_irrefl _)

theorem Temp.truncate (h : Temp fs x fd b) {n : FileName} (hn : n ≠ .pcapngTmp x) (now : Nat) :
    Temp (fs.truncate n now) x fd b := by
  have hfd := h.openFd_ne hn
  refine ⟨lt_of_lt_of_le h.fd_lt (Fs.fresh_truncate_le ..), ?_, ?_, ?_⟩
  · intro m hm
    rw [Fs.lookup_truncate] at hm
    split at hm
    · exact absurd (Option.some.inj hm).symm hfd
    · exact h.fd_name m hm
  · intro i hi
    rw [Fs.lookup_truncate, if_neg (Ne.symm hn)] at hi
    exact h.tmp_fd i hi
  · rw [Fs.node_truncate, if_neg hfd]; exact h.bytes

theorem Temp.write (h : Temp fs x fd b) {fd' : Nat} (hne : fd ≠ fd') (pos now : Nat) (bs : Bytes) :
    Temp (fs.write fd' pos bs now) x fd b :=
  ⟨h.fd_lt, h.fd_name, h.tmp_fd, by rw [Fs.node_write, if_neg hne]; exact h.bytes⟩

theorem Temp.append (h : Temp fs x fd b) {fd' : Nat} (hne : fd ≠ fd') (now : Nat) (bs : Bytes) :
    Temp (fs.append fd' bs now) x fd b :=
  ⟨h.fd_lt, h.fd_name, h.tmp_fd, by rw [Fs.node_append, if_neg hne]; exact h.bytes⟩

theorem Temp.unlinkAll (h : Temp fs x fd b) (ns : List FileName) : Temp (fs.unlinkAll ns) x fd b := by
  have hl : ∀ m i, (fs.unlinkAll ns).lookup m = some i → fs.lookup m = some i :=
    fun m i hm => (Fs.of_lookup_unlinkAll hm).2
  exact ⟨by simpa using h.fd_lt, fun m hm => h.fd_name m (hl m _ hm),
    fun i hi => h.tmp_fd i (hl _ i hi), by simpa using h.bytes⟩

theorem Temp.rename (h : Temp fs x fd b) {y : Nat} (hy : y ≠ x) :
    Temp (fs.rename (.pcapngTmp y) (.pcapng y)) x fd b := by
  cases ha : fs.lookup (.pcapngTmp y) with
  | none => rwa [Fs.rename_missing ha]
  | some j =>
    have hj : j ≠ fd := fun he => hy (FileName.pcapngTmp.inj (h.fd_name _ (he ▸ ha)))
    refine ⟨by simpa using h.fd_lt, ?_, ?_, by simpa using h.bytes⟩
    · intro m hm
      rw [Fs.lookup_rename _ _ ha] at hm
      split at hm
      · exact absurd (Option.some.inj hm) hj
      · split at hm
        · cases hm
        · exact h.fd_name m hm
    · intro i hi
      rw [Fs.lookup_rename _ _ ha, if_neg nofun, if_neg (by simpa using Ne.symm hy)] at hi
      exact h.tmp_fd i hi

/-- What the annotator opens is its own: a leftover temporary file, or a new one. -/
theorem Temp.opened (x : Nat) (now : Nat) :
    Temp (fs.truncate (.pcapngTmp x) now) x (fs.openFd (.pcapngTmp x)) [] := by
  refine ⟨Fs.openFd_lt_fresh .., ?_, ?_, by simp [Fs.node_truncate]⟩
  · intro m hm
    rw [Fs.lookup_truncate] at hm
    split at hm
    · next he => exact he
    · exact Fs.lookup_eq_openFd hm
  · intro i hi
    rw [Fs.lookup_truncate, if_pos rfl] at hi
    exact (Option.some.inj hi).symm

/-- Its own sequential writes extend what it has written. -/
theorem Temp.extend {out : Bytes} {pos k : Nat} (h : Temp fs x fd (out.take pos))
    (hp : pos ≤ out.length) (now : Nat) :
    Temp (fs.write fd pos ((out.drop pos).take k) now) x fd (out.take (pos + k)) := by
  refine ⟨h.fd_lt, h.fd_name, h.tmp_fd, ?_⟩
  rw [Fs.node_write, if_pos rfl]
  exact (congrArg (Fs.writeAt · pos _) h.bytes).trans (Fs.writeAt_take hp)

end Temp

end BigDataPlatform.PacketCapture
