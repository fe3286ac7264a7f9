import Mathlib.Data.List.Sort
import BigDataPlatform.Lib.Transition
import BigDataPlatform.PacketCapture.Files

/-! # The packet-capture shipper as a system of processes

tcpdump, capture.sh's main loop, the looping upload.sh and a concurrent
`upload.sh --once` over one directory, one command or file operation a step.
`next` is what upload.sh does at each point of its program; every choice the
outside world makes (a failure, the order of equal mtimes, how much a write
flushes) is part of the label. -/
namespace BigDataPlatform.PacketCapture
open BigDataPlatform.Lib.Pack BigDataPlatform.Lib.FileSystem BigDataPlatform.Lib.Transition
open BigDataPlatform.PcapAnnotate

/-- The deployment's settings, and the header tcpdump opens a capture with. -/
structure Config where
  rotateSeconds : Nat
  maxFiles : Nat
  header : FileHeader

/-! ## upload.sh -/

/-- The command upload.sh runs next. -/
inductive Pc where
  | idle                                   -- `sleep 30 & wait $!`, or not yet in the sweep
  | glob                                   -- `now` is set; `"$OUT"/*.pcap` expands next
  | captures                               -- top of the loop over the captures
  | age (x : Nat)                          -- the file existed; its mtime is read next
  | annotate (x : Nat)                     -- `ship_capture`
  | convert (x : Nat) (o : Outcome)        -- main has read X.pcap and opens X.pcapng.tmp next
  | writing (x fd pos : Nat) (out : Bytes) (done : Bool)
  | shipNg (x : Nat)                       -- `aws s3 cp X.pcapng`
  | removeNg (x : Nat)                     -- copied: `rm -f X.pcapng`
  | failed (x : Nat)                       -- exit status not 0: `rm -f X.pcapng`
  | shipPcap (x : Nat)                     -- `aws s3 cp X.pcap`
  | removePcap (x : Nat)                   -- copied either way: `rm -f X.pcap`
  | keep (x : Nat)                         -- `--once`: `upload X.pcap keep`
  | snapshots                              -- top of the loop over the snapshots
  | shipSnapshot (f : Snapshot)
  | removeSnapshot (f : Snapshot)
  | count                                  -- `n=$(ls -1 "$OUT" | wc -l)`
  | cap (n : Nat)
  | trapSleep (wake : Nat)                 -- the SIGTERM trap's `sleep 5`
  | exited
deriving DecidableEq

structure Uploader where
  pc : Pc
  minAge : Nat
  now : Nat
  todo : List Nat
  snaps : List Snapshot
  once : Bool        -- `ONCE=1`
  last : Bool        -- exits after the sweep it is in

/-- What the outside decides about one command. -/
inductive Choice where
  | ok
  | fail                              -- the annotator fails here
  | names (names : Names)             -- the annotator starts, with these names
  | chunk (k : Nat)                   -- `k` more bytes of its output are flushed
  | uploadFails (stored : Bool)       -- non-zero exit, the object stored whole or not at all
  | cap (victims : List FileName)     -- the oldest files, in any order of equal mtimes

def captureGlob (fs : Fs FileName) : List Nat :=
  (fs.ls.filterMap fun n => match n with | .pcap x => some x | _ => none).insertionSort (· ≤ ·)

def snapshotGlob (fs : Fs FileName) : List Snapshot :=
  ((fs.ls.filterMap fun n => match n with | .snapshot (.netState k) => some k | _ => none).insertionSort
      (· ≤ ·)).map .netState ++
    ((fs.ls.filterMap fun n => match n with | .snapshot (.pods k) => some k | _ => none).insertionSort
      (· ≤ ·)).map .pods

/-- `ls -1tr "$OUT"/* | head -n k`: `k` of the files, none younger than one left. -/
def IsOldest (fs : Fs FileName) (k : Nat) (victims : List FileName) : Prop :=
  victims.Nodup ∧ victims.length = min k fs.ls.length ∧ (∀ v ∈ victims, v ∈ fs.ls) ∧
    ∀ v ∈ victims, ∀ n ∈ fs.ls, n ∉ victims → (fs.mtime v).getD 0 ≤ (fs.mtime n).getD 0

instance (fs : Fs FileName) (k : Nat) (victims : List FileName) : Decidable (IsOldest fs k victims) :=
  inferInstanceAs (Decidable (_ ∧ _ ∧ _ ∧ _))

def Uploader.goto (u : Uploader) (pc : Pc) : Uploader := { u with pc }

/-- `sweep minAge`, up to the expansion of its glob. -/
def Uploader.sweep (u : Uploader) (env : Env) (minAge : Nat) : Uploader :=
  { u with pc := .glob, minAge, now := env.date }

/-- The end of a sweep. -/
def Uploader.finish (u : Uploader) : Uploader := u.goto (if u.last then .exited else .idle)

/-- A shell that lost a file between `[ -e ]` and `stat` fails to expand
`$(( now - ))`, which discards the whole compound command: the loop ends and
its container restarts, and `--once` falls through to the main loop. -/
def Uploader.discarded (u : Uploader) : Uploader := { u.goto .idle with once := false, last := false }

/-- `aws s3 cp`: on success go on to `done`, otherwise to `otherwise`. -/
def copy (env : Env) (u : Uploader) (n : FileName) (done otherwise : Pc) :
    Choice → Option (Effect × Uploader)
  | .ok => if (env.fs.lookup n).isSome then some (.put n, u.goto done) else none
  | .uploadFails stored => some (if stored then .put n else .none, u.goto otherwise)
  | _ => none

/-- One command of upload.sh: what it does to the shared files, and where the
process is after it. `none`: this choice cannot happen here. -/
def next (cfg : Config) (env : Env) (u : Uploader) (c : Choice) : Option (Effect × Uploader) :=
  match u.pc with
  | .idle => match c with
    | .ok => some (.none, u.sweep env (cfg.rotateSeconds + 30))
    | _ => none
  | .glob => match c with
    | .ok => some (.none, { u.goto .captures with todo := captureGlob env.fs })
    | _ => none
  | .captures => match c with
    | .ok => match u.todo with
      | [] => some (.none, { u.goto .snapshots with snaps := snapshotGlob env.fs })
      | x :: todo =>
        if (env.fs.lookup (.pcap x)).isSome then some (.none, { u.goto (.age x) with todo })
        else some (.none, { u with todo })
    | _ => none
  | .age x => match c with
    | .ok => match env.fs.mtime (.pcap x) with
      | none => some (.none, u.discarded)
      | some m =>
        if m / second + u.minAge ≤ u.now then some (.none, u.goto (.annotate x))
        else if u.once then some (.none, u.goto (.keep x))
        else some (.none, u.goto .captures)
    | _ => none
  | .annotate x => match c with
    | .names names => match env.fs.read (.pcap x) with
      | some input => some (.none, u.goto (.convert x (main (FileName.pcap x).path names input)))
      | none => none
    | .fail => some (.none, u.goto (.failed x))    -- also: no pod map yet, or X.pcap is gone
    | _ => none
  | .convert x o => match c with
    | .ok => match o.tmp with
      | some out => some (.truncate (.pcapngTmp x),
          u.goto (.writing x (env.fs.openFd (.pcapngTmp x)) 0 out (o.exitStatus = 0)))
      | none => some (.none, u.goto (.failed x))
    | .fail => some (.none, u.goto (.failed x))
    | _ => none
  | .writing x fd pos out done => match c with
    | .chunk k =>
      if pos + k ≤ out.length then
        some (.write fd pos ((out.drop pos).take k), u.goto (.writing x fd (pos + k) out done))
      else none
    | .ok =>
      if pos = out.length ∧ done then
        -- os.replace raises when the temporary name is gone
        if (env.fs.lookup (.pcapngTmp x)).isSome then
          some (.rename (.pcapngTmp x) (.pcapng x), u.goto (.shipNg x))
        else some (.none, u.goto (.failed x))
      else none
    | .fail => some (.none, u.goto (.failed x))
    | _ => none
  | .shipNg x => copy env u (.pcapng x) (.removeNg x) .captures c
  | .removeNg x => match c with
    | .ok => some (.unlink [.pcapng x], u.goto (.removePcap x))
    | _ => none
  | .failed x => match c with
    | .ok => some (.unlink [.pcapng x], u.goto (.shipPcap x))
    | _ => none
  | .shipPcap x => copy env u (.pcap x) (.removePcap x) .captures c
  | .removePcap x => match c with
    | .ok => some (.unlink [.pcap x], u.goto .captures)
    | _ => none
  | .keep x => copy env u (.pcap x) .captures .captures c
  | .snapshots => match c with
    | .ok => match u.snaps with
      | [] => some (.none, u.goto .count)
      | f :: snaps =>
        if (env.fs.lookup (.snapshot f)).isSome then
          some (.none, { u.goto (.shipSnapshot f) with snaps })
        else some (.none, { u with snaps })
    | _ => none
  | .shipSnapshot f => copy env u (.snapshot f) (.removeSnapshot f) .snapshots c
  | .removeSnapshot f => match c with
    | .ok => some (.unlink [.snapshot f], u.goto .snapshots)
    | _ => none
  | .count => match c with
    | .ok => some (.none, u.goto (.cap env.fs.ls.length))
    | _ => none
  | .cap n => match c with
    | .ok => if n ≤ cfg.maxFiles then some (.none, u.finish) else none
    | .cap victims =>
      if cfg.maxFiles < n ∧ IsOldest env.fs (n - cfg.maxFiles) victims then
        some (.unlink victims, u.finish)
      else none
    | _ => none
  | .trapSleep wake => match c with
    | .ok => if wake ≤ env.clock then some (.none, { u.sweep env 0 with last := true }) else none
    | _ => none
  | .exited => none

/-- Whether a pending signal's trap can run here: not inside the annotator,
which is one foreground command of the shell, and only once. -/
def Uploader.interruptible (u : Uploader) : Bool := !u.last && match u.pc with
  | .convert .. | .writing .. | .trapSleep _ | .exited => false
  | _ => true

/-! ## tcpdump and capture.sh -/

structure Tcpdump where
  current : Nat        -- the capture it writes
  fd : Nat
  openedAt : Nat
  running : Bool

/-- What capture.sh's shell is doing. A trap waits for a foreground command;
`sleep 60 & wait $!` is interruptible. `curl -m 10` ends by its deadline. -/
inductive Foreground where
  | waiting
  | command
  | curl (deadline : Nat)
  | exited
deriving DecidableEq

inductive Who where
  | loop
  | flush
deriving DecidableEq

def Who.other : Who → Who
  | .loop => .flush
  | .flush => .loop

structure Sys where
  env : Env
  td : Tcpdump
  /-- What tcpdump has written to each capture. -/
  log : Nat → List Record
  up : Who → Uploader
  capture : Foreground
  sigterm : Bool       -- delivered to both containers
  termTd : Bool        -- `kill -TERM $TD` sent

inductive Label where
  | tick (d : Nat)
  | packet (r : Record)
  | publish (f : Snapshot) (b : Bytes)
  | command
  | podmap
  | commandEnds
  | run (w : Who) (c : Choice)
  | kill                -- the looping uploader is killed and restarted
  | flush               -- `upload.sh --once` starts
  | sigterm
  | trapUpload
  | trapCapture
  | tcpdumpExits

def Uploader.start : Uploader where
  pc := .idle
  minAge := 0
  now := 0
  todo := []
  snaps := []
  once := false
  last := false

/-- The bytes of a capture with these records. -/
def Config.file (cfg : Config) (rs : List Record) : Bytes :=
  cfg.header.write ++ rs.flatMap (Record.write cfg.header.order)

/-- tcpdump opens the next capture and writes the packet there. -/
def Sys.rotate (cfg : Config) (s : Sys) (r : Record) : Sys :=
  let env := s.env
  let x := s.td.current + 1
  let fd := env.fs.openFd (.pcap x)
  { s with
    env := { env with fs := (env.fs.truncate (.pcap x) env.clock).append fd (cfg.file [r]) env.clock }
    td := { s.td with current := x, fd, openedAt := env.clock }
    log := Function.update s.log x [r] }

/-- tcpdump writes the packet to the capture it has open. -/
def Sys.extend (cfg : Config) (s : Sys) (r : Record) : Sys :=
  let env := s.env
  { s with
    env := { env with fs := env.fs.append s.td.fd (r.write cfg.header.order) env.clock }
    log := Function.update s.log s.td.current (s.log s.td.current ++ [r]) }

/-- tcpdump writes one packet: first a new capture if the rotation time has
passed since the current one was opened. -/
def Sys.capturePacket (cfg : Config) (s : Sys) (r : Record) : Sys :=
  if s.td.openedAt + cfg.rotateSeconds * second ≤ s.env.clock then s.rotate cfg r else s.extend cfg r

def step (cfg : Config) (l : Label) (s : Sys) : Option Sys :=
  match l with
  | .tick d => match s.capture with
    | .curl deadline =>
      if s.env.clock + d ≤ deadline then
        some { s with env := { s.env with clock := s.env.clock + d } }
      else none
    | _ => some { s with env := { s.env with clock := s.env.clock + d } }
  | .packet r => if s.td.running then some (s.capturePacket cfg r) else none
  | .publish f b =>
    -- written under a hidden name and moved: it appears complete
    let created := s.env.apply (.truncate (.snapshot f))
    some { s with env := created.apply (.write (s.env.fs.openFd (.snapshot f)) 0 b) }
  | .command => if s.capture = .waiting ∧ !s.sigterm then some { s with capture := .command } else none
  | .podmap =>
    if s.capture = .waiting ∧ !s.sigterm then
      some { s with capture := .curl (s.env.clock + 10 * second) }
    else none
  | .commandEnds => match s.capture with
    | .command | .curl _ => some { s with capture := .waiting }
    | _ => none
  | .run w c => match next cfg s.env (s.up w) c with
    | some (e, u) => some { s with env := s.env.apply e, up := Function.update s.up w u }
    | none => none
  | .kill => some { s with up := Function.update s.up .loop Uploader.start }
  | .flush => match (s.up .flush).pc with
    | .exited =>
      let u := { Uploader.start with once := true, last := true }
      some { s with up := Function.update s.up .flush u }
    | _ => none
  | .sigterm => some { s with sigterm := true }
  | .trapUpload =>
    if s.sigterm ∧ (s.up .loop).interruptible then
      let u := (s.up .loop).goto (.trapSleep (s.env.clock + 5 * second))
      some { s with up := Function.update s.up .loop u }
    else none
  | .trapCapture =>
    if s.sigterm ∧ s.capture = .waiting then some { s with capture := .exited, termTd := true }
    else none
  | .tcpdumpExits =>
    if s.termTd ∧ s.td.running then some { s with td := { s.td with running := false } } else none

/-- tcpdump has just opened its first capture; nothing else has run. -/
def init (cfg : Config) (clock : Nat) : Sys where
  env :=
    { fs := (Fs.empty.truncate (.pcap 0) clock).append 0 (cfg.file []) clock
      s3 := fun _ => none
      clock }
  td := { current := 0, fd := 0, openedAt := clock, running := true }
  log := fun _ => []
  up := fun w => match w with
    | .loop => Uploader.start
    | .flush => Uploader.start.goto .exited
  capture := .waiting
  sigterm := false
  termTd := false

end BigDataPlatform.PacketCapture
