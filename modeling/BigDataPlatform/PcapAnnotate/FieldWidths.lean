import BigDataPlatform.PcapAnnotate.Preservation

/-! # Is every packed value within its field?

Timestamps and lengths always are, on a record that fits. The link type has 16
bits of the interface block, and the mask leaves 28 of the header's word. -/
namespace BigDataPlatform.PcapAnnotate
open BigDataPlatform.Lib.Pack

/-- No `struct.pack` of the run is out of range, the interface block carries the
16-bit link type, and the two halves of every timestamp make up the ticks. -/
structure FieldsInRange (src : String) (names : Names) (h : FileHeader) (body : Bytes) : Prop where
  packs : (main src names (h.write ++ body)).result ≠ .error .structError
  written : ∃ out p, (main src names (h.write ++ body)).tmp = some out ∧ readPcapng out = some p ∧
    p.linktype = h.network.toNat % 2 ^ 16 ∧
    p.blocks.map (fun b => b.packet.ts) =
      (records h.order body).1.map fun r => r.sec.toNat * h.interface.unit + r.frac.toNat

/-- Bits 16 to 27 of the link-type word, which have no place in 16 bits and which
the mask lets through. -/
def middleBits (network : UInt32) : Nat := network.toNat / 2 ^ 16 % 2 ^ 12

/-- A word of the format: 16 bits of link type, bit 26 for an FCS length in bits
28 to 31, and zero in the reserved bits. -/
def WordAllowed (network : UInt32) : Prop :=
  network.toNat / 2 ^ 16 % 2 ^ 10 = 0 ∧ network.toNat / 2 ^ 27 % 2 = 0

theorem linktype_eq (h : FileHeader) : h.interface.linktype = h.network.toNat % 2 ^ 28 :=
  Nat.and_two_pow_sub_one_eq_mod _ 28

theorem linktype_fits_iff (h : FileHeader) :
    h.interface.linktype < 2 ^ 16 ↔ middleBits h.network = 0 := by
  rw [linktype_eq, middleBits]
  omega

theorem drop_header (h : FileHeader) (body : Bytes) : (h.write ++ body).drop 24 = body :=
  List.drop_left' h.write_length

/-- **Which headers make the converter raise.** With records that fit, every
packed value is in range exactly if bits 16 to 27 of the link-type word are zero. -/
theorem fieldsInRange_iff (src : String) (names : Names) (h : FileHeader) (body : Bytes)
    (hfit : ∀ r ∈ (records h.order body).1, Fits names h.interface r) :
    FieldsInRange src names h body ↔ middleBits h.network = 0 := by
  rw [← linktype_fits_iff]
  have hread := readHeader_write src h body
  constructor
  · intro hin
    by_contra hlink
    have hbad : ¬ Encodable names h.interface ((h.write ++ body).drop 24) := fun he => hlink he.1
    exact hin.packs (main_error hread hbad)
  · intro hlink
    have henc : Encodable names h.interface ((h.write ++ body).drop 24) := by
      rw [drop_header]
      exact ⟨hlink, hfit⟩
    have hmain := main_ok hread henc
    rw [drop_header] at hmain
    refine ⟨by rw [hmain]; simp, _, _, congrArg Outcome.tmp hmain,
      readPcapng_fileBytes hlink hfit, ?_, ?_⟩
    · have hl := linktype_eq h
      show h.interface.linktype = _
      omega
    · rw [expected, List.map_map]
      rfl

/-- Among the words the format allows it is the flag alone that decides. -/
theorem middleBits_allowed {network : UInt32} (h : WordAllowed network) :
    middleBits network = 0 ↔ network.toNat / 2 ^ 26 % 2 = 0 := by
  obtain ⟨hlow, hhigh⟩ := h
  rw [middleBits]
  omega

theorem sll2_fieldsInRange :
    FieldsInRange "X.pcap" (fun _ => none) sll2Header (synRecord.write .big) :=
  (fieldsInRange_iff "X.pcap" (fun _ => none) sll2Header (synRecord.write .big)
    (by decide +kernel)).mpr (by decide)

/-- Ethernet, a frame check sequence of two words, and the flag that says so. -/
def fcsHeader : FileHeader where
  order := .little
  nanos := false
  version := [2, 0, 4, 0] ++ List.replicate 8 0
  version_length := rfl
  snaplen := 65535
  network := 0x24000001

/-- The flag survives the mask. -/
theorem fcs_out_of_range :
    WordAllowed fcsHeader.network ∧ fcsHeader.interface.linktype = 0x04000001 ∧
      (main "X.pcap" (fun _ => none) (fcsHeader.write ++ [])).result = .error .structError ∧
      ¬ FieldsInRange "X.pcap" (fun _ => none) fcsHeader [] := by
  have herr : (main "X.pcap" (fun _ => none) (fcsHeader.write ++ [])).result = .error .structError := by
    decide +kernel
  exact ⟨by unfold WordAllowed; decide, by decide, herr, fun hin => hin.packs herr⟩

end BigDataPlatform.PcapAnnotate
