import BigDataPlatform.Lib.FileSystem
import BigDataPlatform.PcapAnnotate.Preservation

/-! # The /captures directory and the bucket

What capture.sh and upload.sh share: the visible files of the emptyDir and the
objects their names map to. Hidden files never reach a glob, an upload or the
cap; the one that matters to the annotator, the pod map, enters as the names a
run starts with. -/
namespace BigDataPlatform.PacketCapture
open BigDataPlatform.Lib.Pack BigDataPlatform.Lib.FileSystem BigDataPlatform.PcapAnnotate

/-- A snapshot of the node's network state or of its pod map. -/
inductive Snapshot where
  | netState (k : Nat)
  | pods (k : Nat)
deriving DecidableEq

/-- A visible file. Captures and snapshots are numbered in the order of the
timestamps in their names, which is the order a glob lists them in. -/
inductive FileName where
  | pcap (x : Nat)
  | pcapng (x : Nat)
  | pcapngTmp (x : Nat)
  | snapshot (s : Snapshot)
deriving DecidableEq

def FileName.path : FileName → String
  | .pcap x => "/captures/" ++ toString x ++ ".pcap"
  | .pcapng x => "/captures/" ++ toString x ++ ".pcapng"
  | .pcapngTmp x => "/captures/" ++ toString x ++ ".pcapng.tmp"
  | .snapshot (.netState k) => "/captures/net-state-" ++ toString k ++ ".txt"
  | .snapshot (.pods k) => "/captures/pods-" ++ toString k ++ ".jsonl"

/-- The clock counts nanoseconds. -/
def second : Nat := 10 ^ 9

/-- An object's key is a function of the file's name, whose timestamp also
chooses the date partition. -/
structure Env where
  fs : Fs FileName
  s3 : FileName → Option Bytes
  clock : Nat

/-- `date +%s`. -/
def Env.date (env : Env) : Nat := env.clock / second

/-- One operation of a process on the shared files or the bucket. -/
inductive Effect where
  | none
  | truncate (n : FileName)
  | write (fd pos : Nat) (bs : Bytes)
  | rename (a b : FileName)
  | unlink (ns : List FileName)
  | put (n : FileName)

def Env.apply (env : Env) : Effect → Env
  | .none => env
  | .truncate n => { env with fs := env.fs.truncate n env.clock }
  | .write fd pos bs => { env with fs := env.fs.write fd pos bs env.clock }
  | .rename a b => { env with fs := env.fs.rename a b }
  | .unlink ns => { env with fs := env.fs.unlinkAll ns }
  | .put n => match env.fs.read n with
    | some b => { env with s3 := Function.update env.s3 n (some b) }
    | none => env

@[simp] theorem Env.apply_clock (env : Env) (e : Effect) : (env.apply e).clock = env.clock := by
  cases e with
  | put n => simp only [Env.apply]; split <;> rfl
  | _ => rfl

/-- An upload leaves the directory as it is. -/
theorem Env.put_fs (env : Env) (n : FileName) : (env.apply (.put n)).fs = env.fs := by
  simp only [Env.apply]
  split <;> rfl

theorem put_read {env : Env} {n : FileName} {b : Bytes} (h : env.fs.read n = some b) :
    (env.apply (.put n)).s3 n = some b := by
  simp [Env.apply, h]

/-- The packets an object gives back, in the format its name announces. -/
def packetsOf : FileName → Bytes → Option (List Packet)
  | .pcap _, b => some (packetsOfPcap b)
  | .pcapng _, b => packetsOfPcapng b
  | _, _ => none

/-- Whether main accepts a header does not depend on the path it prints. -/
theorem readHeader_src {src : String} {input : Bytes} {i : Interface}
    (h : readHeader src (input.take 24) = .ok i) (src' : String) :
    readHeader src' (input.take 24) = .ok i := by
  obtain ⟨hdr, rfl, hin⟩ := readHeader_exact h
  rw [hin]
  exact readHeader_write src' hdr _

/-- **Every successful conversion is faithful.** Whatever the input bytes, a run
that exits 0 leaves a pcapng with exactly the packets a reader of the pcap gets. -/
theorem main_packets {src : String} {names : Names} {input out : Bytes}
    (h0 : (main src names input).exitStatus = 0) (ht : (main src names input).tmp = some out) :
    packetsOfPcapng out = some (packetsOfPcap input) := by
  obtain ⟨i, hh, he⟩ := main_exit_zero.mp h0
  rw [main_ok hh he] at ht
  cases ht
  rw [packetsOfPcapng, readPcapng_fileBytes he.1 he.2, packetsOfPcap, readHeader_src hh]
  simp [expected, Function.comp_def]

end BigDataPlatform.PacketCapture
