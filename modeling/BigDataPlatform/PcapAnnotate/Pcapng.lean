import BigDataPlatform.PcapAnnotate.ClassicPcap

/-! # The pcapng grammar

A strict reader of the format the annotator claims to write, little-endian
only: a Section Header Block, one Interface Description Block, then Enhanced
Packet Blocks. A block's length must be a multiple of four, the same in head
and tail, and equal to the bytes it spans; options are padded to four and their
list, when there is one, is closed by `opt_endofopt` at the end of the block. -/
namespace BigDataPlatform.PcapAnnotate
open BigDataPlatform.Lib.Pack BigDataPlatform.Lib.Framing

structure Block where
  type : Nat
  body : Bytes
deriving DecidableEq

def readBlock (bs : Bytes) : Option (Block × Bytes) := do
  let (type, bs) ← field 4 bs
  let (total, bs) ← field 4 bs
  guard (12 ≤ total ∧ total % 4 = 0)
  let (body, bs) ← cut (total - 12) bs
  let (tail, bs) ← field 4 bs
  guard (tail = total)
  return (⟨type, body⟩, bs)

/-- Bytes of padding after `n` bytes. -/
def padding (n : Nat) : Nat := (4 - n % 4) % 4

structure Opt where
  code : Nat
  value : Bytes
deriving DecidableEq

/-- Options up to the `opt_endofopt` that must end the bytes. -/
def readOptionList : Nat → Bytes → Option (List Opt)
  | 0, _ => none
  | fuel + 1, bs => do
    let (code, bs) ← field 2 bs
    let (len, bs) ← field 2 bs
    if code = 0 then
      guard (len = 0 ∧ bs = [])
      return []
    else
      let (value, bs) ← cut len bs
      let (_, bs) ← cut (padding len) bs
      return ⟨code, value⟩ :: (← readOptionList fuel bs)

/-- No options at all, or a closed list of them. -/
def readOptions (bs : Bytes) : Option (List Opt) :=
  if bs = [] then some [] else readOptionList bs.length bs

def optionValue (code : Nat) (opts : List Opt) : Option Bytes :=
  (opts.find? fun o => o.code = code).map Opt.value

/-- A section header: byte-order magic, version 1.0, any section length. -/
def readSection (b : Block) : Option Unit := do
  guard (b.type = 0x0A0D0D0A)
  let (magic, bs) ← field 4 b.body
  let (major, bs) ← field 2 bs
  let (minor, bs) ← field 2 bs
  let (_, bs) ← cut 8 bs
  guard (magic = 0x1A2B3C4D ∧ major = 1 ∧ minor = 0)
  let _ ← readOptions bs
  return ()

/-- Link type, snaplen and `if_tsresol` (microseconds when absent). -/
def readInterface (b : Block) : Option (Nat × Nat × Nat) := do
  guard (b.type = 1)
  let (linktype, bs) ← field 2 b.body
  let (_, bs) ← field 2 bs
  let (snaplen, bs) ← field 4 bs
  let opts ← readOptions bs
  match optionValue 9 opts with
  | none => return (linktype, snaplen, 6)
  | some [r] => return (linktype, snaplen, r.toNat)
  | some _ => none

structure PacketBlock where
  packet : Packet
  comment : Option Bytes
deriving DecidableEq

/-- An Enhanced Packet Block of interface 0; the data is as long as its
captured length says. -/
def readPacketBlock (b : Block) : Option PacketBlock := do
  guard (b.type = 6)
  let (interface, bs) ← field 4 b.body
  guard (interface = 0)
  let (high, bs) ← field 4 bs
  let (low, bs) ← field 4 bs
  let (captured, bs) ← field 4 bs
  let (orig, bs) ← field 4 bs
  let (data, bs) ← cut captured bs
  let (_, bs) ← cut (padding captured) bs
  let opts ← readOptions bs
  return ⟨⟨high * 2 ^ 32 + low, orig, data⟩, optionValue 1 opts⟩

structure Pcapng where
  linktype : Nat
  snaplen : Nat
  tsresol : Nat
  blocks : List PacketBlock
deriving DecidableEq

def readPcapng (bs : Bytes) : Option Pcapng := do
  match ← readAll readBlock bs with
  | shb :: idb :: epbs =>
    readSection shb
    let (linktype, snaplen, tsresol) ← readInterface idb
    return { linktype, snaplen, tsresol, blocks := ← epbs.mapM readPacketBlock }
  | _ => none

/-- The packets a reader of pcapng gets out of a file. -/
def packetsOfPcapng (bs : Bytes) : Option (List Packet) :=
  (readPcapng bs).map fun p => p.blocks.map PacketBlock.packet

theorem readBlock_consumes : Consumes readBlock := by
  intro bs b rest h
  simp only [readBlock, bind, Option.bind_eq_some_iff, Prod.exists] at h
  obtain ⟨_, r1, h1, _, r2, h2, _, _, _, r3, h3, _, r4, h4, _, _, he⟩ := h
  have := field_length h1
  have := field_length h2
  have := cut_length h3
  have := field_length h4
  cases he
  omega

end BigDataPlatform.PcapAnnotate
