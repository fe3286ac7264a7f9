import BigDataPlatform.PcapAnnotate.Endpoints

/-! # pcap-annotate.py: main

`main` rewrites a classic pcap as pcapng block by block into `dst + ".tmp"` and
renames it to `dst` at the end. The model keeps what the temporary file holds
when the run ends, and how it ended: the number of packets, or the failure. -/
namespace BigDataPlatform.PcapAnnotate
open BigDataPlatform.Lib.Pack

/-- The `names` dict: IP text to label. -/
abbrev Names := String → Option String

/-- `b + b"\0" * (-len(b) % 4)`. -/
def pad4 (b : Bytes) : Bytes := b ++ List.replicate ((-(b.length : Int)) % 4).toNat 0

def option (code : Nat) (value : Bytes) : Py Bytes := do
  return (← structPack .little [(2, code), (2, value.length)]) ++ pad4 value

def block (btype : Nat) (body : Bytes) : Py Bytes := do
  let total := 12 + body.length
  return (← structPack .little [(4, btype), (4, total)]) ++ body
    ++ (← structPack .little [(4, total)])

/-- What main reads out of the 24-byte file header. -/
structure Interface where
  order : ByteOrder
  nanos : Bool
  snaplen : UInt32
  linktype : Nat
deriving DecidableEq

/-- The byte order and resolution a magic announces. -/
def readMagic (magic : Bytes) : Option (ByteOrder × Bool) :=
  if magic = [0xd4, 0xc3, 0xb2, 0xa1] then some (.little, false)
  else if magic = [0x4d, 0x3c, 0xb2, 0xa1] then some (.little, true)
  else if magic = [0xa1, 0xb2, 0xc3, 0xd4] then some (.big, false)
  else if magic = [0xa1, 0xb2, 0x3c, 0x4d] then some (.big, true)
  else none

def readHeader (src : String) (hdr : Bytes) : Py Interface :=
  if hdr.length < 24 then .error (.exit (src ++ ": truncated pcap header"))
  else match readMagic (hdr.take 4) with
    | none => .error (.exit (src ++ ": not a pcap file"))
    | some (order, nanos) => do
      let (snaplen, network) ← unpackII order (slice hdr 16 24)
      -- high bits may carry FCS info
      return { order, nanos, snaplen, linktype := network.toNat &&& 0x0FFFFFFF }

/-- Ticks a second at the file's resolution. -/
def Interface.unit (i : Interface) : Nat := if i.nanos then 10 ^ 9 else 10 ^ 6

def endOfOptions : Py Bytes := structPack .little [(2, 0), (2, 0)]

def sectionHeader : Py Bytes := do
  block 0x0A0D0D0A
    ((← structPack .little [(4, 0x1A2B3C4D), (2, 1), (2, 0), (8, 2 ^ 64 - 1)])
      ++ (← option 4 (encode "packet-capture-shipper pcap-annotate.py"))
      ++ (← endOfOptions))

def interfaceDescription (i : Interface) : Py Bytes := do
  block 0x00000001
    ((← structPack .little [(2, i.linktype), (2, 0), (4, i.snaplen.toNat)])
      ++ (← option 9 [if i.nanos then 9 else 6])
      ++ (← endOfOptions))

/-- The comment of a packet between two addresses. -/
def commentText (names : Names) (s d : String) : String :=
  "src " ++ s ++ " " ++ (names s).getD "external" ++ " -> dst " ++ d ++ " "
    ++ (names d).getD "external"

/-- One Enhanced Packet Block. -/
def packetBlock (names : Names) (i : Interface) (sec frac incl orig : UInt32) (data : Bytes) :
    Py Bytes := do
  let ts := sec.toNat * i.unit + frac.toNat
  let body := (← structPack .little
    [(4, 0), (4, ts >>> 32), (4, ts &&& 0xFFFFFFFF), (4, incl.toNat), (4, orig.toNat)]) ++ pad4 data
  match ← endpoints i.linktype data with
  | some (s, d) =>
    block 0x00000006 (body ++ (← option 1 (encode (commentText names s d))) ++ (← endOfOptions))
  | none => block 0x00000006 body

/-- The record loop on what is left of the input, after `out` was written and
`n` packets annotated. A turn takes at least 16 bytes off `rest`, so fuel for
its length is never exhausted: at zero nothing is left to read. -/
def recordLoop (names : Names) (i : Interface) : Nat → Bytes → Bytes → Nat → Bytes × Py Nat
  | 0, _, out, n => (out, .ok n)
  | fuel + 1, rest, out, n =>
    let rec16 := rest.take 16
    if rec16 = [] then (out, .ok n)
    else if rec16.length < 16 then (out, .ok n)   -- a partial final record, drop it
    else match unpackIIII i.order rec16 with
      | .error f => (out, .error f)
      | .ok (sec, frac, incl, orig) =>
        let data := (rest.drop 16).take incl.toNat
        if data.length < incl.toNat then (out, .ok n)
        else match packetBlock names i sec frac incl orig data with
          | .error f => (out, .error f)
          | .ok b => recordLoop names i fuel (rest.drop (16 + incl.toNat)) (out ++ b) (n + 1)

/-- How a run ends: the contents of the temporary file, if it was opened, and
the packet count or the failure. -/
structure Outcome where
  tmp : Option Bytes
  result : Py Nat
deriving DecidableEq

/-- `main` on the bytes of `src`, once `load_names` has returned `names`. -/
def main (src : String) (names : Names) (input : Bytes) : Outcome :=
  match readHeader src (input.take 24) with
  | .error f => ⟨none, .error f⟩
  | .ok i => match sectionHeader with
    | .error f => ⟨some [], .error f⟩
    | .ok shb => match interfaceDescription i with
      | .error f => ⟨some shb, .error f⟩
      | .ok idb =>
        let (out, r) := recordLoop names i (input.drop 24).length (input.drop 24) (shb ++ idb) 0
        ⟨some out, r⟩

/-- What `dst` holds after the run: the rename is reached only on success. -/
def Outcome.replace (o : Outcome) (dst : Option Bytes) : Option Bytes :=
  match o.result with
  | .ok _ => o.tmp
  | .error _ => dst

/-- `sys.exit` with a text and an uncaught exception both exit with status 1. -/
def Outcome.exitStatus (o : Outcome) : Nat := match o.result with
  | .ok _ => 0
  | .error _ => 1

end BigDataPlatform.PcapAnnotate
