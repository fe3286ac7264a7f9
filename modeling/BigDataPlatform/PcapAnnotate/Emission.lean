import BigDataPlatform.PcapAnnotate.Pcapng

/-! # What main writes, in closed form

Where every field fits, packing never raises and a run's output is a plain
concatenation of blocks; where one does not, the run ends with `struct.error`. -/
namespace BigDataPlatform.PcapAnnotate
open BigDataPlatform.Lib.Pack BigDataPlatform.Lib.Framing

/-! ## Padding, options and blocks -/

theorem pad4_eq (b : Bytes) : pad4 b = b ++ List.replicate (padding b.length) 0 := by
  rw [pad4, padding]
  congr 2
  omega

@[simp] theorem pad4_length (b : Bytes) : (pad4 b).length = b.length + padding b.length := by
  simp [pad4_eq]

theorem pad4_aligned (b : Bytes) : (pad4 b).length % 4 = 0 := by
  rw [pad4_length, padding]; omega

def optionBytes (o : Opt) : Bytes :=
  pack .little 2 o.code ++ pack .little 2 o.value.length ++ pad4 o.value

def endBytes : Bytes := pack .little 2 0 ++ pack .little 2 0

/-- Options and the end mark that closes them. -/
def optionList (opts : List Opt) : Bytes := opts.flatMap optionBytes ++ endBytes

def blockBytes (b : Block) : Bytes :=
  pack .little 4 b.type ++ pack .little 4 (12 + b.body.length) ++ b.body
    ++ pack .little 4 (12 + b.body.length)

structure OptFits (o : Opt) : Prop where
  code_pos : o.code ≠ 0
  code : o.code < 2 ^ 16
  value : o.value.length < 2 ^ 16

structure BlockFits (b : Block) : Prop where
  type : b.type < 2 ^ 32
  total : 12 + b.body.length < 2 ^ 32
  aligned : b.body.length % 4 = 0

theorem option_ok (code : Nat) (value : Bytes) (hc : code < 2 ^ 16) (hv : value.length < 2 ^ 16) :
    option code value = .ok (optionBytes ⟨code, value⟩) := by
  have hp : structPack .little [(2, code), (2, value.length)]
      = .ok (pack .little 2 code ++ pack .little 2 value.length) := by
    rw [structPack_ok _ (by simp; omega)]; simp
  simp only [option, hp]
  rfl

theorem option_error (code : Nat) {value : Bytes} (hv : 2 ^ 16 ≤ value.length) :
    option code value = .error .structError := by
  have hp : structPack .little [(2, code), (2, value.length)] = .error .structError :=
    structPack_error (by simp; omega)
  simp only [option, hp]
  rfl

theorem block_ok {t : Nat} {body : Bytes} (ht : t < 2 ^ 32) (hb : 12 + body.length < 2 ^ 32) :
    block t body = .ok (blockBytes ⟨t, body⟩) := by
  have hhead : structPack .little [(4, t), (4, 12 + body.length)]
      = .ok (pack .little 4 t ++ pack .little 4 (12 + body.length)) := by
    rw [structPack_ok _ (by simp; omega)]; simp
  have htail : structPack .little [(4, 12 + body.length)]
      = .ok (pack .little 4 (12 + body.length)) := by
    rw [structPack_ok _ (by simp; omega)]; simp
  simp only [block, hhead, htail]
  rfl

theorem block_error {t : Nat} {body : Bytes} (hb : 2 ^ 32 ≤ 12 + body.length) :
    block t body = .error .structError := by
  have hp : structPack .little [(4, t), (4, 12 + body.length)] = .error .structError :=
    structPack_error (by simp; omega)
  simp only [block, hp]
  rfl

theorem endOfOptions_ok : endOfOptions = .ok endBytes := rfl

@[simp] theorem endBytes_length : endBytes.length = 4 := by simp [endBytes]

theorem optionBytes_aligned (o : Opt) : (optionBytes o).length % 4 = 0 := by
  have := pad4_aligned o.value
  simp only [optionBytes, List.length_append, pack_length]
  omega

theorem optionList_aligned (opts : List Opt) : (optionList opts).length % 4 = 0 := by
  rw [optionList, List.length_append, endBytes_length]
  induction opts with
  | nil => simp
  | cons o opts ih =>
    have := optionBytes_aligned o
    rw [List.flatMap_cons, List.length_append]
    omega

theorem length_lt_optionList (opts : List Opt) : opts.length < (optionList opts).length := by
  rw [optionList, List.length_append, endBytes_length]
  induction opts with
  | nil => simp
  | cons o opts ih =>
    have : 4 ≤ (optionBytes o).length := by
      simp only [optionBytes, List.length_append, pack_length]; omega
    rw [List.flatMap_cons, List.length_append, List.length_cons]
    omega

/-! ## Reading them back -/

theorem readOptionList_write : ∀ (opts : List Opt) (fuel : Nat), (∀ o ∈ opts, OptFits o) →
    opts.length < fuel → readOptionList fuel (optionList opts) = some opts
  | _, 0, _, hf => absurd hf (by omega)
  | [], fuel + 1, _, _ => rfl
  | o :: opts, fuel + 1, h, hf => by
    obtain ⟨hpos, hcode, hval⟩ := h o (by simp)
    have ih := readOptionList_write opts fuel (fun p hp => h p (by simp [hp]))
      (by simp at hf; omega)
    have hcut : cut (padding o.value.length)
        (List.replicate (padding o.value.length) 0 ++ optionList opts)
          = some (List.replicate (padding o.value.length) 0, optionList opts) :=
      cut_append (by simp)
    have hsplit : optionList (o :: opts) = pack .little 2 o.code ++ (pack .little 2 o.value.length
        ++ (o.value ++ (List.replicate (padding o.value.length) 0 ++ optionList opts))) := by
      simp [optionList, optionBytes, pad4_eq]
    rw [hsplit, readOptionList]
    simp only [field_pack (n := 2) (v := o.code) (by omega),
      field_pack (n := 2) (v := o.value.length) (by omega), bind, Option.bind, if_neg hpos,
      cut_append rfl, hcut, ih]
    rfl

theorem readOptions_write {opts : List Opt} (h : ∀ o ∈ opts, OptFits o) :
    readOptions (optionList opts) = some opts := by
  have hlt := length_lt_optionList opts
  have hne : optionList opts ≠ [] := by
    intro he; rw [he] at hlt; simp at hlt
  rw [readOptions, if_neg hne, readOptionList_write opts _ h hlt]

theorem readBlock_write {b : Block} (h : BlockFits b) (rest : Bytes) :
    readBlock (blockBytes b ++ rest) = some (b, rest) := by
  obtain ⟨ht, htotal, ha⟩ := h
  have hsplit : blockBytes b ++ rest = pack .little 4 b.type ++ (pack .little 4 (12 + b.body.length)
      ++ (b.body ++ (pack .little 4 (12 + b.body.length) ++ rest))) := by
    simp [blockBytes]
  have hg : (12 + b.body.length) % 4 = 0 := by omega
  rw [hsplit, readBlock]
  simp only [field_pack (n := 4) (v := b.type) (by omega),
    field_pack (n := 4) (v := 12 + b.body.length) (by omega), bind, Option.bind,
    cut_append (n := 12 + b.body.length - 12) (b := b.body) (by omega)]
  simp [hg, guard]

/-! ## One packet -/

/-- The comment of a packet, when its addresses are known. -/
def comment (names : Names) (i : Interface) (data : Bytes) : Option Bytes :=
  match endpoints i.linktype data with
  | .ok (some (s, d)) => some (encode (commentText names s d))
  | _ => none

def commentOptions : Option Bytes → Bytes
  | none => []
  | some c => optionList [⟨1, c⟩]

def packetBody (names : Names) (i : Interface) (r : Record) : Bytes :=
  pack .little 4 0 ++ pack .little 4 ((i.packet r).ts >>> 32)
    ++ pack .little 4 ((i.packet r).ts &&& 0xFFFFFFFF) ++ pack .little 4 r.data.length
    ++ pack .little 4 r.orig.toNat ++ pad4 r.data ++ commentOptions (comment names i r.data)

/-- The comment fits its option and the block fits its length field. -/
structure Fits (names : Names) (i : Interface) (r : Record) : Prop where
  comment : ∀ c, comment names i r.data = some c → c.length < 2 ^ 16
  block : 12 + (packetBody names i r).length < 2 ^ 32

def recordBlock (names : Names) (i : Interface) (r : Record) : Py Bytes :=
  packetBlock names i r.sec r.frac r.incl r.orig r.data

theorem unit_le (i : Interface) : i.unit ≤ 10 ^ 9 := by
  unfold Interface.unit; split <;> norm_num

/-- The timestamp of any record fits 64 bits. -/
theorem ts_lt (i : Interface) (r : Record) : (i.packet r).ts < 2 ^ 64 := by
  have hsec := r.sec.toNat_lt
  have hfrac := r.frac.toNat_lt
  have : r.sec.toNat * i.unit ≤ (2 ^ 32 - 1) * 10 ^ 9 := Nat.mul_le_mul (by omega) (unit_le i)
  simp only [Interface.packet]
  omega

theorem ts_high_lt (i : Interface) (r : Record) : (i.packet r).ts >>> 32 < 2 ^ 32 := by
  have := ts_lt i r
  rw [Nat.shiftRight_eq_div_pow]
  omega

theorem ts_low (i : Interface) (r : Record) :
    (i.packet r).ts &&& 0xFFFFFFFF = (i.packet r).ts % 2 ^ 32 :=
  Nat.and_two_pow_sub_one_eq_mod _ 32

/-- The two halves of a timestamp recombine. -/
theorem ts_split (i : Interface) (r : Record) :
    ((i.packet r).ts >>> 32) * 2 ^ 32 + ((i.packet r).ts &&& 0xFFFFFFFF) = (i.packet r).ts := by
  rw [ts_low, Nat.shiftRight_eq_div_pow]
  omega

theorem packetFields_ok (i : Interface) (r : Record) :
    structPack .little [(4, 0), (4, (i.packet r).ts >>> 32), (4, (i.packet r).ts &&& 0xFFFFFFFF),
        (4, r.incl.toNat), (4, r.orig.toNat)]
      = .ok (pack .little 4 0 ++ pack .little 4 ((i.packet r).ts >>> 32)
        ++ pack .little 4 ((i.packet r).ts &&& 0xFFFFFFFF) ++ pack .little 4 r.data.length
        ++ pack .little 4 r.orig.toNat) := by
  have hhigh := ts_high_lt i r
  have hlow : (i.packet r).ts &&& 0xFFFFFFFF < 2 ^ 32 := by rw [ts_low]; omega
  have hincl := r.incl.toNat_lt
  have horig := r.orig.toNat_lt
  rw [structPack_ok]
  · simp
  · intro f hf
    simp only [List.mem_cons, List.not_mem_nil, or_false] at hf
    rcases hf with rfl | rfl | rfl | rfl | rfl <;> simp only <;> omega

/-- **A record's block**: its closed form when it fits, `struct.error` otherwise. -/
theorem recordBlock_ok {names : Names} {i : Interface} {r : Record} (h : Fits names i r) :
    recordBlock names i r = .ok (blockBytes ⟨6, packetBody names i r⟩) := by
  obtain ⟨e, he⟩ := endpoints_total i.linktype r.data
  obtain ⟨hc, hb⟩ := h
  have hts : r.sec.toNat * i.unit + r.frac.toNat = (i.packet r).ts := rfl
  rw [recordBlock, packetBlock]
  simp only [hts, packetFields_ok, bind, Except.bind, he]
  cases e with
  | none =>
    have hcom : comment names i r.data = none := by simp [comment, he]
    have hbody : packetBody names i r = pack .little 4 0 ++ pack .little 4 ((i.packet r).ts >>> 32)
        ++ pack .little 4 ((i.packet r).ts &&& 0xFFFFFFFF) ++ pack .little 4 r.data.length
        ++ pack .little 4 r.orig.toNat ++ pad4 r.data := by
      simp [packetBody, hcom, commentOptions]
    simp only
    rw [← hbody, block_ok (by omega) hb]
  | some sd =>
    obtain ⟨s, d⟩ := sd
    have hcom : comment names i r.data = some (encode (commentText names s d)) := by
      simp [comment, he]
    have hbody : packetBody names i r = (pack .little 4 0 ++ pack .little 4 ((i.packet r).ts >>> 32)
        ++ pack .little 4 ((i.packet r).ts &&& 0xFFFFFFFF) ++ pack .little 4 r.data.length
        ++ pack .little 4 r.orig.toNat ++ pad4 r.data)
        ++ optionBytes ⟨1, encode (commentText names s d)⟩ ++ endBytes := by
      simp [packetBody, hcom, commentOptions, optionList]
    simp only [option_ok 1 _ (by omega) (hc _ hcom), endOfOptions_ok]
    rw [← hbody, block_ok (by omega) hb]

theorem recordBlock_error {names : Names} {i : Interface} {r : Record} (h : ¬ Fits names i r) :
    recordBlock names i r = .error .structError := by
  obtain ⟨e, he⟩ := endpoints_total i.linktype r.data
  have hts : r.sec.toNat * i.unit + r.frac.toNat = (i.packet r).ts := rfl
  rw [recordBlock, packetBlock]
  simp only [hts, packetFields_ok, bind, Except.bind, he]
  cases e with
  | none =>
    have hcom : comment names i r.data = none := by simp [comment, he]
    have hbig : 2 ^ 32 ≤ 12 + (packetBody names i r).length := by
      by_contra hlt
      exact h ⟨by simp [hcom], by omega⟩
    simp only
    rw [block_error]
    simpa [packetBody, hcom, commentOptions] using hbig
  | some sd =>
    obtain ⟨s, d⟩ := sd
    have hcom : comment names i r.data = some (encode (commentText names s d)) := by
      simp [comment, he]
    by_cases hc : (encode (commentText names s d)).length < 2 ^ 16
    · have hbig : 2 ^ 32 ≤ 12 + (packetBody names i r).length := by
        by_contra hlt
        exact h ⟨by simpa [hcom] using hc, by omega⟩
      simp only [option_ok 1 _ (by omega) hc, endOfOptions_ok]
      rw [block_error]
      simpa [packetBody, hcom, commentOptions, optionList, Nat.add_assoc] using hbig
    · simp only [option_error 1 (Nat.not_lt.mp hc)]

theorem packetBody_aligned (names : Names) (i : Interface) (r : Record) :
    (packetBody names i r).length % 4 = 0 := by
  have hp := pad4_aligned r.data
  have ho : (commentOptions (comment names i r.data)).length % 4 = 0 := by
    cases comment names i r.data with
    | none => rfl
    | some c => exact optionList_aligned _
  simp only [packetBody, List.length_append, pack_length]
  omega

theorem packetBlock_fits {names : Names} {i : Interface} {r : Record} (h : Fits names i r) :
    BlockFits ⟨6, packetBody names i r⟩ :=
  ⟨by norm_num, h.block, packetBody_aligned names i r⟩

/-- An emitted packet block reads back as the packet and its comment. -/
theorem readPacketBlock_packetBody {names : Names} {i : Interface} {r : Record}
    (h : Fits names i r) :
    readPacketBlock ⟨6, packetBody names i r⟩ = some ⟨i.packet r, comment names i r.data⟩ := by
  have hhigh := ts_high_lt i r
  have hlow : (i.packet r).ts &&& 0xFFFFFFFF < 2 ^ 32 := by rw [ts_low]; omega
  have horig := r.orig.toNat_lt
  have hincl := r.short
  have hopts : ∃ opts, readOptions (commentOptions (comment names i r.data)) = some opts ∧
      optionValue 1 opts = comment names i r.data := by
    cases hc : comment names i r.data with
    | none => exact ⟨[], rfl, rfl⟩
    | some c =>
      refine ⟨[⟨1, c⟩], readOptions_write ?_, rfl⟩
      simpa using OptFits.mk (o := ⟨1, c⟩) (by simp) (by simp) (h.comment c hc)
  obtain ⟨opts, hread, hval⟩ := hopts
  have hsplit : packetBody names i r = pack .little 4 0 ++ (pack .little 4 ((i.packet r).ts >>> 32)
      ++ (pack .little 4 ((i.packet r).ts &&& 0xFFFFFFFF) ++ (pack .little 4 r.data.length
      ++ (pack .little 4 r.orig.toNat ++ (r.data ++ (List.replicate (padding r.data.length) 0
      ++ commentOptions (comment names i r.data))))))) := by
    simp [packetBody, pad4_eq]
  have hcut : cut (padding r.data.length) (List.replicate (padding r.data.length) 0
      ++ commentOptions (comment names i r.data))
        = some (List.replicate (padding r.data.length) 0, commentOptions (comment names i r.data)) :=
    cut_append (by simp)
  rw [readPacketBlock]
  simp only [hsplit, field_pack (n := 4) (v := 0) (by omega),
    field_pack (n := 4) (v := (i.packet r).ts >>> 32) (by omega),
    field_pack (n := 4) (v := (i.packet r).ts &&& 0xFFFFFFFF) (by omega),
    field_pack (n := 4) (v := r.data.length) (by omega),
    field_pack (n := 4) (v := r.orig.toNat) (by omega),
    bind, Option.bind, cut_append rfl, hcut, hread, hval, ts_split]
  rfl

/-! ## The two leading blocks -/

def sectionBody : Bytes :=
  pack .little 4 0x1A2B3C4D ++ pack .little 2 1 ++ pack .little 2 0 ++ pack .little 8 (2 ^ 64 - 1)
    ++ optionList [⟨4, encode "packet-capture-shipper pcap-annotate.py"⟩]

def tsresol (i : Interface) : UInt8 := if i.nanos then 9 else 6

def interfaceBody (i : Interface) : Bytes :=
  pack .little 2 i.linktype ++ pack .little 2 0 ++ pack .little 4 i.snaplen.toNat
    ++ optionList [⟨9, [tsresol i]⟩]

theorem sectionHeader_ok : sectionHeader = .ok (blockBytes ⟨0x0A0D0D0A, sectionBody⟩) := rfl

theorem section_fits : BlockFits ⟨0x0A0D0D0A, sectionBody⟩ :=
  ⟨by norm_num, by decide, by decide⟩

theorem readSection_ok : readSection ⟨0x0A0D0D0A, sectionBody⟩ = some () := by decide

theorem interfaceFields_ok {i : Interface} (h : i.linktype < 2 ^ 16) :
    structPack .little [(2, i.linktype), (2, 0), (4, i.snaplen.toNat)]
      = .ok (pack .little 2 i.linktype ++ pack .little 2 0 ++ pack .little 4 i.snaplen.toNat) := by
  have hs := i.snaplen.toNat_lt
  rw [structPack_ok]
  · simp
  · intro f hf
    simp only [List.mem_cons, List.not_mem_nil, or_false] at hf
    rcases hf with rfl | rfl | rfl <;> simp only <;> omega

@[simp] theorem interfaceBody_length (i : Interface) : (interfaceBody i).length = 20 := by
  simp [interfaceBody, optionList, optionBytes, padding]

theorem interface_fits (i : Interface) : BlockFits ⟨1, interfaceBody i⟩ :=
  ⟨by norm_num, by simp, by simp⟩

theorem interfaceDescription_ok {i : Interface} (h : i.linktype < 2 ^ 16) :
    interfaceDescription i = .ok (blockBytes ⟨1, interfaceBody i⟩) := by
  have hbody : interfaceBody i = (pack .little 2 i.linktype ++ pack .little 2 0
      ++ pack .little 4 i.snaplen.toNat) ++ optionBytes ⟨9, [if i.nanos then 9 else 6]⟩ ++ endBytes := by
    simp [interfaceBody, optionList, tsresol]
  simp only [interfaceDescription, interfaceFields_ok h, bind, Except.bind,
    option_ok 9 [if i.nanos then 9 else 6] (by omega) (by simp), endOfOptions_ok]
  rw [← hbody, block_ok (by omega) (by simp)]

theorem interfaceDescription_error {i : Interface} (h : 2 ^ 16 ≤ i.linktype) :
    interfaceDescription i = .error .structError := by
  have hp : structPack .little [(2, i.linktype), (2, 0), (4, i.snaplen.toNat)]
      = .error .structError := structPack_error (by simp; omega)
  simp only [interfaceDescription, hp]
  rfl

theorem readInterface_ok {i : Interface} (h : i.linktype < 2 ^ 16) :
    readInterface ⟨1, interfaceBody i⟩
      = some (i.linktype, i.snaplen.toNat, (tsresol i).toNat) := by
  have hs := i.snaplen.toNat_lt
  have hopts : readOptions (optionList [⟨9, [tsresol i]⟩]) = some [⟨9, [tsresol i]⟩] := by
    refine readOptions_write ?_
    simpa using OptFits.mk (o := ⟨9, [tsresol i]⟩) (by simp) (by simp) (by simp)
  have hsplit : interfaceBody i = pack .little 2 i.linktype ++ (pack .little 2 0
      ++ (pack .little 4 i.snaplen.toNat ++ optionList [⟨9, [tsresol i]⟩])) := by
    simp [interfaceBody]
  rw [readInterface]
  simp only [hsplit, field_pack (n := 2) (v := i.linktype) (by omega),
    field_pack (n := 2) (v := 0) (by omega), field_pack (n := 4) (v := i.snaplen.toNat) (by omega),
    bind, Option.bind, hopts]
  rfl

end BigDataPlatform.PcapAnnotate
