import BigDataPlatform.Lib.Framing
import BigDataPlatform.PcapAnnotate.Main

/-! # The classic pcap format

What a capture file says, independently of the annotator: a 24-byte header and
records whose data is as long as their header declares. A file need not end at
a record boundary; the bytes after its last complete record are its tail. -/
namespace BigDataPlatform.PcapAnnotate
open BigDataPlatform.Lib.Pack BigDataPlatform.Lib.Framing

structure Record where
  sec : UInt32
  frac : UInt32
  orig : UInt32
  data : Bytes
  short : data.length < 2 ^ 32
deriving DecidableEq

def Record.incl (r : Record) : UInt32 := UInt32.ofNat r.data.length

def Record.write (e : ByteOrder) (r : Record) : Bytes :=
  pack e 4 r.sec.toNat ++ pack e 4 r.frac.toNat ++ pack e 4 r.incl.toNat ++ pack e 4 r.orig.toNat
    ++ r.data

/-- The data length the record header at the front declares. -/
def inclAt (e : ByteOrder) (bs : Bytes) : UInt32 := u32 e (slice bs 8 12)

/-- A record cut short: part of a header, or a header that declares more data
than follows it. -/
def CutShort (e : ByteOrder) (bs : Bytes) : Prop :=
  bs.length < 16 ∨ bs.length < 16 + (inclAt e bs).toNat

instance (e : ByteOrder) (bs : Bytes) : Decidable (CutShort e bs) :=
  inferInstanceAs (Decidable (_ ∨ _))

def readRecord (e : ByteOrder) (bs : Bytes) : Option (Record × Bytes) :=
  if CutShort e bs then none
  else some (
    { sec := u32 e (slice bs 0 4)
      frac := u32 e (slice bs 4 8)
      orig := u32 e (slice bs 12 16)
      data := (bs.drop 16).take (inclAt e bs).toNat
      short := by
        rw [List.length_take]
        have := (inclAt e bs).toNat_lt
        omega },
    bs.drop (16 + (inclAt e bs).toNat))

@[simp] theorem Record.incl_toNat (r : Record) : r.incl.toNat = r.data.length := by
  rw [Record.incl, UInt32.toNat_ofNat', Nat.mod_eq_of_lt r.short]

@[simp] theorem Record.write_length (e : ByteOrder) (r : Record) :
    (r.write e).length = 16 + r.data.length := by
  simp [Record.write]; omega

theorem readRecord_none {e : ByteOrder} {bs : Bytes} : readRecord e bs = none ↔ CutShort e bs := by
  simp [readRecord]

theorem readRecord_consumes (e : ByteOrder) : Consumes (readRecord e) := by
  intro bs r rest h
  unfold readRecord at h
  split at h
  · cases h
  · next hc =>
    cases h
    simp only [CutShort, not_or] at hc
    rw [List.length_drop]
    omega

/-- Sixteen header bytes are four words and nothing else. -/
theorem take_sixteen (bs : Bytes) :
    bs.take 16 = slice bs 0 4 ++ slice bs 4 8 ++ slice bs 8 12 ++ slice bs 12 16 := by
  simp only [slice, List.drop_zero, ← List.take_add, Nat.sub_zero]

/-- A record read is the record written at the front. -/
theorem readRecord_exact (e : ByteOrder) : Exact (readRecord e) (Record.write e) := by
  intro bs r rest h
  unfold readRecord at h
  split at h
  · cases h
  next hc =>
  simp only [CutShort, not_or, Nat.not_lt] at hc
  obtain ⟨_, hincl⟩ := hc
  cases h
  have hdata : ((bs.drop 16).take (inclAt e bs).toNat).length = (inclAt e bs).toNat := by
    rw [List.length_take, List.length_drop]; omega
  have hword : ∀ i, i + 4 ≤ 16 → pack e 4 (u32 e (slice bs i (i + 4))).toNat = slice bs i (i + 4) :=
    fun i hi => pack_u32 e (by rw [slice_length (by omega)]; omega)
  rw [Record.write, Record.incl_toNat]
  simp only [hdata]
  rw [show inclAt e bs = u32 e (slice bs 8 (8 + 4)) from rfl, hword 0 (by omega), hword 4 (by omega),
    hword 8 (by omega), hword 12 (by omega), ← take_sixteen, ← List.drop_drop, List.append_assoc,
    List.take_append_drop, List.take_append_drop]

/-- A record written at the front is the record read. -/
theorem readRecord_write (e : ByteOrder) (r : Record) (rest : Bytes) :
    readRecord e (r.write e ++ rest) = some (r, rest) := by
  have hword : ∀ (a : Bytes) (v : UInt32) (b : Bytes) (i : Nat), a.length = i →
      u32 e (slice (a ++ (pack e 4 v.toNat ++ b)) i (i + 4)) = v := by
    intro a v b i ha
    rw [slice_append ha, Nat.add_sub_cancel_left, List.take_append_of_le_length (by simp),
      List.take_of_length_le (by simp), u32_pack]
  have hw : r.write e ++ rest = pack e 4 r.sec.toNat ++ (pack e 4 r.frac.toNat
      ++ (pack e 4 r.incl.toNat ++ (pack e 4 r.orig.toNat ++ (r.data ++ rest)))) := by
    simp [Record.write]
  have hsec : u32 e (slice (r.write e ++ rest) 0 4) = r.sec := by
    rw [hw]; exact hword [] _ _ 0 rfl
  have hfrac : u32 e (slice (r.write e ++ rest) 4 8) = r.frac := by
    rw [hw]; exact hword (pack e 4 r.sec.toNat) _ _ 4 (by simp)
  have hincl : inclAt e (r.write e ++ rest) = r.incl := by
    rw [hw, ← List.append_assoc]
    exact hword (pack e 4 r.sec.toNat ++ pack e 4 r.frac.toNat) _ _ 8 (by simp)
  have horig : u32 e (slice (r.write e ++ rest) 12 16) = r.orig := by
    rw [hw, ← List.append_assoc, ← List.append_assoc]
    exact hword (pack e 4 r.sec.toNat ++ pack e 4 r.frac.toNat ++ pack e 4 r.incl.toNat) _ _ 12
      (by simp)
  have hcut : ¬ CutShort e (r.write e ++ rest) := by
    simp only [CutShort, hincl, Record.incl_toNat, List.length_append, Record.write_length]
    omega
  have hdrop : (r.write e ++ rest).drop 16 = r.data ++ rest := by
    rw [Record.write, List.append_assoc, List.drop_left' (by simp)]
  have hrest : (r.write e ++ rest).drop (16 + r.data.length) = rest := by
    rw [← List.drop_drop, hdrop, List.drop_left]
  unfold readRecord
  rw [if_neg hcut]
  simp only [hsec, hfrac, horig, hincl, hrest, hdrop, Record.incl_toNat, List.take_left]

/-! ## The file header -/

def magicBytes : ByteOrder → Bool → Bytes
  | .little, false => [0xd4, 0xc3, 0xb2, 0xa1]
  | .little, true => [0x4d, 0x3c, 0xb2, 0xa1]
  | .big, false => [0xa1, 0xb2, 0xc3, 0xd4]
  | .big, true => [0xa1, 0xb2, 0x3c, 0x4d]

/-- `version` stands for the version, time zone and accuracy fields, which
nothing reads. -/
structure FileHeader where
  order : ByteOrder
  nanos : Bool
  version : Bytes
  version_length : version.length = 12
  snaplen : UInt32
  network : UInt32

def FileHeader.write (h : FileHeader) : Bytes :=
  magicBytes h.order h.nanos ++ h.version ++ pack h.order 4 h.snaplen.toNat
    ++ pack h.order 4 h.network.toNat

/-- The link type is the network word without its FCS bits. -/
def FileHeader.interface (h : FileHeader) : Interface :=
  { order := h.order, nanos := h.nanos, snaplen := h.snaplen,
    linktype := h.network.toNat &&& 0x0FFFFFFF }

theorem readMagic_iff {m : Bytes} {e : ByteOrder} {nanos : Bool} :
    readMagic m = some (e, nanos) ↔ m = magicBytes e nanos := by
  unfold readMagic
  constructor
  · intro h
    split at h
    · next hm => cases h; exact hm
    split at h
    · next hm => cases h; exact hm
    split at h
    · next hm => cases h; exact hm
    split at h
    · next hm => cases h; exact hm
    · cases h
  · intro he
    subst he
    cases e <;> cases nanos <;> rfl

@[simp] theorem magicBytes_length (e : ByteOrder) (nanos : Bool) : (magicBytes e nanos).length = 4 := by
  cases e <;> cases nanos <;> rfl

@[simp] theorem FileHeader.write_length (h : FileHeader) : h.write.length = 24 := by
  simp [FileHeader.write, h.version_length]

theorem readHeader_write (src : String) (h : FileHeader) (rest : Bytes) :
    readHeader src ((h.write ++ rest).take 24) = .ok h.interface := by
  have ht : (h.write ++ rest).take 24 = h.write := by
    rw [List.take_append_of_le_length (by simp), List.take_of_length_le (by simp)]
  have hm : h.write.take 4 = magicBytes h.order h.nanos := by
    simp only [FileHeader.write, List.append_assoc]
    exact List.take_left' (by simp)
  have hs : slice h.write 16 24
      = pack h.order 4 h.snaplen.toNat ++ pack h.order 4 h.network.toNat := by
    rw [FileHeader.write, List.append_assoc,
      slice_append (by simp [h.version_length]), List.take_of_length_le (by simp)]
  have hu : unpackII h.order (slice h.write 16 24) = .ok (h.snaplen, h.network) := by
    have h0 : slice (pack h.order 4 h.snaplen.toNat ++ pack h.order 4 h.network.toNat) 0 4
        = pack h.order 4 h.snaplen.toNat := by
      simp [slice]
    have h4 : slice (pack h.order 4 h.snaplen.toNat ++ pack h.order 4 h.network.toNat) 4 8
        = pack h.order 4 h.network.toNat := by
      rw [slice_append (pack_length _ _ _), List.take_of_length_le (by simp)]
    rw [hs, unpackII, if_pos (by simp), h0, h4, u32_pack, u32_pack]
  rw [ht, readHeader, if_neg (by simp), hm, readMagic_iff.mpr rfl]
  simp only [hu, bind, Except.bind]
  rfl

/-- An accepted header is one some header record writes. -/
theorem readHeader_exact {src : String} {input : Bytes} {i : Interface}
    (h : readHeader src (input.take 24) = .ok i) :
    ∃ hdr : FileHeader, hdr.interface = i ∧ input = hdr.write ++ input.drop 24 := by
  unfold readHeader at h
  split at h
  · cases h
  next hlen =>
  split at h
  · cases h
  next order nanos hm =>
  have hl : (input.take 24).length = 24 := by
    rw [List.length_take] at hlen ⊢
    omega
  have hs : (slice (input.take 24) 16 24).length = 8 := by rw [slice_length (by omega)]
  rw [unpackII, if_pos hs] at h
  cases h
  generalize hb : input.take 24 = b at *
  have h4 : (slice (slice b 16 24) 0 4).length = 4 := by rw [slice_length (by omega)]
  have h8 : (slice (slice b 16 24) 4 8).length = 4 := by rw [slice_length (by omega)]
  refine ⟨⟨order, nanos, slice b 4 16, by rw [slice_length (by omega)],
    u32 order (slice (slice b 16 24) 0 4), u32 order (slice (slice b 16 24) 4 8)⟩, rfl, ?_⟩
  rw [FileHeader.write, pack_u32 order h4, pack_u32 order h8, ← readMagic_iff.mp hm]
  conv_lhs => rw [← List.take_append_drop 24 input, hb]
  congr 1
  have hsplit : slice (slice b 16 24) 0 4 ++ slice (slice b 16 24) 4 8 = b.drop 16 := by
    simp only [slice, List.drop_zero, ← List.take_add]
    rw [List.take_of_length_le (by rw [List.length_take]; omega),
      List.take_of_length_le (by rw [List.length_drop]; omega)]
  rw [List.append_assoc, hsplit]
  simp only [slice, ← List.take_add]
  exact (List.take_append_drop 16 b).symm

/-! ## What a capture says -/

/-- A packet, in ticks of the file's resolution. -/
structure Packet where
  ts : Nat
  orig : Nat
  data : Bytes
deriving DecidableEq

def Interface.packet (i : Interface) (r : Record) : Packet :=
  { ts := r.sec.toNat * i.unit + r.frac.toNat, orig := r.orig.toNat, data := r.data }

/-- The complete records after a file header, and the tail they leave. -/
def records (e : ByteOrder) (body : Bytes) : List Record × Bytes := walk (readRecord e) body

/-- The packets a reader of classic pcap gets out of a file. -/
def packetsOfPcap (b : Bytes) : List Packet :=
  match readHeader "" (b.take 24) with
  | .error _ => []
  | .ok i => (records i.order (b.drop 24)).1.map i.packet

/-- A header and complete records, then a record cut short, read back. -/
theorem records_write {e : ByteOrder} {tail : Bytes} (rs : List Record) (ht : CutShort e tail) :
    records e (rs.flatMap (Record.write e) ++ tail) = (rs, tail) :=
  walk_flatMap (readRecord_consumes e) (Record.write e) (readRecord_none.mpr ht) rs
    fun r _ rest => readRecord_write e r rest

/-- Any bytes are complete records followed by a record cut short. -/
theorem records_exact (e : ByteOrder) (body : Bytes) :
    body = (records e body).1.flatMap (Record.write e) ++ (records e body).2 ∧
      CutShort e (records e body).2 := by
  obtain ⟨hs, hn⟩ := walk_exact (readRecord_consumes e) (readRecord_exact e) body
  exact ⟨hs, readRecord_none.mp hn⟩

theorem cutShort_nil (e : ByteOrder) : CutShort e [] := Or.inl (by simp)

/-- A file written record by record says its records' packets. -/
theorem packetsOfPcap_write (h : FileHeader) (rs : List Record) :
    packetsOfPcap (h.write ++ rs.flatMap (Record.write h.order)) = rs.map h.interface.packet := by
  have hr := records_write (e := h.order) rs (cutShort_nil h.order)
  rw [List.append_nil] at hr
  rw [packetsOfPcap, readHeader_write]
  simp only [List.drop_left' h.write_length]
  rw [show h.interface.order = h.order from rfl, hr]

end BigDataPlatform.PcapAnnotate
