import BigDataPlatform.PacketCapture.System

/-! # What one step can do

`next` and `step` as relations with one named case per behaviour. Every
invariant of the shipper is derived from these cases; none unfolds a step again. -/
namespace BigDataPlatform.PacketCapture
open BigDataPlatform.Lib.Pack BigDataPlatform.Lib.FileSystem BigDataPlatform.PcapAnnotate

/-- The file a copy command reads, and where it goes on success and on failure. -/
inductive Copies : Pc → FileName → Pc → Pc → Prop
  | ng (x : Nat) : Copies (.shipNg x) (.pcapng x) (.removeNg x) .captures
  | pcap (x : Nat) : Copies (.shipPcap x) (.pcap x) (.removePcap x) .captures
  | keep (x : Nat) : Copies (.keep x) (.pcap x) .captures .captures
  | snapshot (f : Snapshot) : Copies (.shipSnapshot f) (.snapshot f) (.removeSnapshot f) .snapshots

/-- The file a removal command deletes, and what follows it. -/
inductive Removes : Pc → FileName → Pc → Prop
  | ng (x : Nat) : Removes (.removeNg x) (.pcapng x) (.removePcap x)
  | failed (x : Nat) : Removes (.failed x) (.pcapng x) (.shipPcap x)
  | pcap (x : Nat) : Removes (.removePcap x) (.pcap x) .captures
  | snapshot (f : Snapshot) : Removes (.removeSnapshot f) (.snapshot f) .snapshots

/-- The annotator is running on capture `x`. -/
inductive Annotating : Pc → Nat → Prop
  | annotate (x : Nat) : Annotating (.annotate x) x
  | convert (x : Nat) (o : Outcome) : Annotating (.convert x o) x
  | writing (x fd pos : Nat) (out : Bytes) (done : Bool) : Annotating (.writing x fd pos out done) x

inductive Moves (cfg : Config) (env : Env) (u : Uploader) : Choice → Effect → Uploader → Prop
  | starts : u.pc = .idle → Moves cfg env u .ok .none (u.sweep env (cfg.rotateSeconds + 30))
  | globs : u.pc = .glob →
      Moves cfg env u .ok .none { u.goto .captures with todo := captureGlob env.fs }
  | capturesEnd : u.pc = .captures → u.todo = [] →
      Moves cfg env u .ok .none { u.goto .snapshots with snaps := snapshotGlob env.fs }
  | there {x todo} : u.pc = .captures → u.todo = x :: todo → (env.fs.lookup (.pcap x)).isSome →
      Moves cfg env u .ok .none { u.goto (.age x) with todo }
  | gone {x todo} : u.pc = .captures → u.todo = x :: todo → env.fs.lookup (.pcap x) = none →
      Moves cfg env u .ok .none { u with todo }
  | lost {x} : u.pc = .age x → env.fs.mtime (.pcap x) = none →
      Moves cfg env u .ok .none u.discarded
  | old {x m} : u.pc = .age x → env.fs.mtime (.pcap x) = some m → m / second + u.minAge ≤ u.now →
      Moves cfg env u .ok .none (u.goto (.annotate x))
  | kept {x m} : u.pc = .age x → env.fs.mtime (.pcap x) = some m → ¬ m / second + u.minAge ≤ u.now →
      u.once = true → Moves cfg env u .ok .none (u.goto (.keep x))
  | young {x m} : u.pc = .age x → env.fs.mtime (.pcap x) = some m → ¬ m / second + u.minAge ≤ u.now →
      u.once = false → Moves cfg env u .ok .none (u.goto .captures)
  | reads {x names input} : u.pc = .annotate x → env.fs.read (.pcap x) = some input →
      Moves cfg env u (.names names) .none
        (u.goto (.convert x (main (FileName.pcap x).path names input)))
  | fails {x} : Annotating u.pc x → Moves cfg env u .fail .none (u.goto (.failed x))
  | opens {x o out} : u.pc = .convert x o → o.tmp = some out →
      Moves cfg env u .ok (.truncate (.pcapngTmp x))
        (u.goto (.writing x (env.fs.openFd (.pcapngTmp x)) 0 out (o.exitStatus = 0)))
  | refuses {x o} : u.pc = .convert x o → o.tmp = none →
      Moves cfg env u .ok .none (u.goto (.failed x))
  | writes {x fd pos out done k} : u.pc = .writing x fd pos out done → pos + k ≤ out.length →
      Moves cfg env u (.chunk k) (.write fd pos ((out.drop pos).take k))
        (u.goto (.writing x fd (pos + k) out done))
  | renames {x fd pos out i} : u.pc = .writing x fd pos out true → pos = out.length →
      env.fs.lookup (.pcapngTmp x) = some i →
      Moves cfg env u .ok (.rename (.pcapngTmp x) (.pcapng x)) (u.goto (.shipNg x))
  | renameFails {x fd pos out} : u.pc = .writing x fd pos out true → pos = out.length →
      env.fs.lookup (.pcapngTmp x) = none → Moves cfg env u .ok .none (u.goto (.failed x))
  | copied {n done otherwise} : Copies u.pc n done otherwise → (env.fs.lookup n).isSome →
      Moves cfg env u .ok (.put n) (u.goto done)
  | copyFails {n done otherwise stored} : Copies u.pc n done otherwise →
      Moves cfg env u (.uploadFails stored) (if stored then .put n else .none) (u.goto otherwise)
  | removes {n after} : Removes u.pc n after → Moves cfg env u .ok (.unlink [n]) (u.goto after)
  | snapshotsEnd : u.pc = .snapshots → u.snaps = [] → Moves cfg env u .ok .none (u.goto .count)
  | snapshotThere {f snaps} : u.pc = .snapshots → u.snaps = f :: snaps →
      Moves cfg env u .ok .none { u.goto (.shipSnapshot f) with snaps }
  | snapshotGone {f snaps} : u.pc = .snapshots → u.snaps = f :: snaps →
      Moves cfg env u .ok .none { u with snaps }
  | counts : u.pc = .count → Moves cfg env u .ok .none (u.goto (.cap env.fs.ls.length))
  | below {n} : u.pc = .cap n → n ≤ cfg.maxFiles → Moves cfg env u .ok .none u.finish
  | caps {n victims} : u.pc = .cap n → cfg.maxFiles < n →
      IsOldest env.fs (n - cfg.maxFiles) victims →
      Moves cfg env u (.cap victims) (.unlink victims) u.finish
  | wakes {wake} : u.pc = .trapSleep wake → wake ≤ env.clock →
      Moves cfg env u .ok .none { u.sweep env 0 with last := true }

theorem copy_moves {cfg : Config} {env : Env} {u : Uploader} {n : FileName} {done otherwise : Pc}
    {c : Choice} {e : Effect} {u' : Uploader} (hc : Copies u.pc n done otherwise)
    (h : copy env u n done otherwise c = some (e, u')) : Moves cfg env u c e u' := by
  unfold copy at h
  split at h
  · split at h
    · next hl => cases h; exact .copied hc hl
    · cases h
  · cases h; exact .copyFails hc
  · cases h

/-- **Inversion of one command.** -/
theorem next_moves {cfg : Config} {env : Env} {u : Uploader} {c : Choice} {e : Effect}
    {u' : Uploader} (h : next cfg env u c = some (e, u')) : Moves cfg env u c e u' := by
  unfold next at h
  split at h
  case h_1 hpc => split at h <;> cases h; exact .starts hpc
  case h_2 hpc => split at h <;> cases h; exact .globs hpc
  case h_3 hpc =>
    split at h
    · split at h
      · next ht => cases h; exact .capturesEnd hpc ht
      · next x todo ht =>
        split at h
        · next hl => cases h; exact .there hpc ht hl
        · next hl => cases h; exact .gone hpc ht (by simpa using hl)
    · cases h
  case h_4 x hpc =>
    split at h
    · split at h
      · next hm => cases h; exact .lost hpc hm
      · next m hm =>
        split at h
        · next ha => cases h; exact .old hpc hm ha
        · next ha =>
          split at h
          · next ho => cases h; exact .kept hpc hm ha ho
          · next ho => cases h; exact .young hpc hm ha (by simpa using ho)
    · cases h
  case h_5 x hpc =>
    split at h
    · split at h
      · next hr => cases h; exact .reads hpc hr
      · cases h
    · cases h; exact .fails (hpc ▸ .annotate x)
    · cases h
  case h_6 x o hpc =>
    split at h
    · split at h
      · next ht => cases h; exact .opens hpc ht
      · next ht => cases h; exact .refuses hpc ht
    · cases h; exact .fails (hpc ▸ .convert x o)
    · cases h
  case h_7 x fd pos out done hpc =>
    split at h
    · split at h
      · next hk => cases h; exact .writes hpc hk
      · cases h
    · split at h
      · next hp =>
        obtain ⟨hp, rfl⟩ := hp
        split at h
        · next hl =>
          obtain ⟨i, hi⟩ := Option.isSome_iff_exists.mp hl
          cases h; exact .renames hpc hp hi
        · next hl => cases h; exact .renameFails hpc hp (by simpa using hl)
      · cases h
    · cases h; exact .fails (hpc ▸ .writing x fd pos out done)
    · cases h
  case h_8 x hpc => exact copy_moves (hpc ▸ .ng x) h
  case h_9 x hpc => split at h <;> cases h; exact .removes (hpc ▸ .ng x)
  case h_10 x hpc => split at h <;> cases h; exact .removes (hpc ▸ .failed x)
  case h_11 x hpc => exact copy_moves (hpc ▸ .pcap x) h
  case h_12 x hpc => split at h <;> cases h; exact .removes (hpc ▸ .pcap x)
  case h_13 x hpc => exact copy_moves (hpc ▸ .keep x) h
  case h_14 hpc =>
    split at h
    · split at h
      · next hs => cases h; exact .snapshotsEnd hpc hs
      · next f snaps hs =>
        split at h
        · cases h; exact .snapshotThere hpc hs
        · cases h; exact .snapshotGone hpc hs
    · cases h
  case h_15 f hpc => exact copy_moves (hpc ▸ .snapshot f) h
  case h_16 f hpc => split at h <;> cases h; exact .removes (hpc ▸ .snapshot f)
  case h_17 hpc => split at h <;> cases h; exact .counts hpc
  case h_18 n hpc =>
    split at h
    · split at h
      · next hn => cases h; exact .below hpc hn
      · cases h
    · split at h
      · next hn => cases h; exact .caps hpc hn.1 hn.2
      · cases h
    · cases h
  case h_19 wake hpc =>
    split at h
    · split at h
      · next hw => cases h; exact .wakes hpc hw
      · cases h
    · cases h
  case h_20 => cases h

inductive Acts (cfg : Config) (s : Sys) : Label → Sys → Prop
  | tick (d : Nat) : Acts cfg s (.tick d) { s with env := { s.env with clock := s.env.clock + d } }
  | rotates (r : Record) : s.td.running = true → Acts cfg s (.packet r) (s.rotate cfg r)
  | appends (r : Record) : s.td.running = true →
      s.env.clock < s.td.openedAt + cfg.rotateSeconds * second →
      Acts cfg s (.packet r) (s.extend cfg r)
  | publish (f : Snapshot) (b : Bytes) : Acts cfg s (.publish f b)
      { s with
        env := (s.env.apply (.truncate (.snapshot f))).apply
          (.write (s.env.fs.openFd (.snapshot f)) 0 b) }
  | moves {w c e u'} : Moves cfg s.env (s.up w) c e u' →
      Acts cfg s (.run w c) { s with env := s.env.apply e, up := Function.update s.up w u' }
  | kill : Acts cfg s .kill { s with up := Function.update s.up .loop Uploader.start }
  | flush : (s.up .flush).pc = .exited → Acts cfg s .flush
      { s with up := Function.update s.up .flush { Uploader.start with once := true, last := true } }
  | trapUpload : s.sigterm = true → (s.up .loop).interruptible = true → Acts cfg s .trapUpload
      { s with
        up := Function.update s.up .loop
          ((s.up .loop).goto (.trapSleep (s.env.clock + 5 * second))) }
  | sigterm : Acts cfg s .sigterm { s with sigterm := true }
  | command (capture : Foreground) : Acts cfg s .command { s with capture }
  | podmap (capture : Foreground) : Acts cfg s .podmap { s with capture }
  | commandEnds (capture : Foreground) : Acts cfg s .commandEnds { s with capture }
  | trapCapture : s.sigterm = true →
      Acts cfg s .trapCapture { s with capture := .exited, termTd := true }
  | tcpdumpExits : s.termTd = true →
      Acts cfg s .tcpdumpExits { s with td := { s.td with running := false } }

/-- **Inversion of one step.** -/
theorem step_acts {cfg : Config} {l : Label} {s s' : Sys} (h : step cfg l s = some s') :
    Acts cfg s l s' := by
  cases l with
  | tick d =>
    simp only [step] at h
    split at h
    · split at h <;> cases h
      exact .tick d
    · cases h
      exact .tick d
  | packet r =>
    simp only [step, Sys.capturePacket] at h
    split at h
    · next hrun =>
      split at h <;> cases h
      · exact .rotates r hrun
      · next hyoung => exact .appends r hrun (Nat.lt_of_not_le hyoung)
    · cases h
  | publish f b => cases h; exact .publish f b
  | command =>
    simp only [step] at h
    split at h <;> cases h
    exact .command _
  | podmap =>
    simp only [step] at h
    split at h <;> cases h
    exact .podmap _
  | commandEnds =>
    simp only [step] at h
    split at h <;> cases h <;> exact .commandEnds _
  | run w c =>
    simp only [step] at h
    split at h <;> cases h
    next hn => exact .moves (next_moves hn)
  | kill => cases h; exact .kill
  | flush =>
    simp only [step] at h
    split at h <;> cases h
    next hpc => exact .flush hpc
  | sigterm => cases h; exact .sigterm
  | trapUpload =>
    simp only [step] at h
    split at h <;> cases h
    next hi => exact .trapUpload hi.1 hi.2
  | trapCapture =>
    simp only [step] at h
    split at h <;> cases h
    next hs => exact .trapCapture hs.1
  | tcpdumpExits =>
    simp only [step] at h
    split at h <;> cases h
    next hs => exact .tcpdumpExits hs.1

end BigDataPlatform.PacketCapture
