import BigDataPlatform.PcapAnnotate.Emission

/-! # The converted capture says what the capture said

`main` is the record loop over a stream; over complete records it is a plain
`emit`. From that, a run that exits 0 writes a pcapng whose reading is exactly
the input's complete records, in order. -/
namespace BigDataPlatform.PcapAnnotate
open BigDataPlatform.Lib.Pack BigDataPlatform.Lib.Framing

/-- The record loop on records already split. -/
def emit (names : Names) (i : Interface) : List Record → Bytes → Nat → Bytes × Py Nat
  | [], out, n => (out, .ok n)
  | r :: rs, out, n => match recordBlock names i r with
    | .error f => (out, .error f)
    | .ok b => emit names i rs (out ++ b) (n + 1)

/-- **The streaming loop reads records.** With fuel for the bytes left, it
emits the complete records and stops silently at the tail. -/
theorem recordLoop_eq (names : Names) (i : Interface) :
    ∀ (fuel : Nat) (rest out : Bytes) (n : Nat), rest.length ≤ fuel →
      recordLoop names i fuel rest out n = emit names i (records i.order rest).1 out n
  | 0, rest, out, n, hf => by
    have : rest = [] := List.length_eq_zero_iff.mp (Nat.le_zero.mp hf)
    subst this
    rfl
  | fuel + 1, rest, out, n, hf => by
    by_cases hcut : CutShort i.order rest
    · -- the loop breaks exactly where no complete record is left
      have hstop : records i.order rest = ([], rest) := walk_none (readRecord_none.mpr hcut)
      rw [hstop, recordLoop]
      split
      · rfl
      split
      · rfl
      next h16 =>
      have h16' : 16 ≤ rest.length := by simpa using h16
      have hincl : u32 i.order (slice (rest.take 16) 8 12) = inclAt i.order rest := by
        simp [inclAt, slice, List.drop_take, List.take_take]
      rw [unpackIIII, if_pos (by simp; omega)]
      simp only [hincl]
      rw [if_pos ?_]
      · rfl
      · rw [List.length_take, List.length_drop]
        rcases hcut with h | h <;> omega
    · have hc := hcut
      simp only [CutShort, not_or, Nat.not_lt] at hc
      obtain ⟨h16, hlen⟩ := hc
      obtain ⟨⟨r, rest'⟩, hread⟩ : ∃ x, readRecord i.order rest = some x := by
        cases h : readRecord i.order rest with
        | none => exact absurd (readRecord_none.mp h) hcut
        | some x => exact ⟨x, rfl⟩
      have hwalk : records i.order rest = (r :: (records i.order rest').1, (records i.order rest').2) :=
        walk_some (readRecord_consumes i.order) hread
      have hfields := hread
      rw [readRecord, if_neg hcut] at hfields
      cases hfields
      have hwords : ∀ a b, a ≤ b → b ≤ 16 → slice (rest.take 16) a b = slice rest a b := by
        intro a b hab hb
        simp only [slice, List.drop_take, List.take_take]
        congr 1
        omega
      have hdata : ((rest.drop 16).take (inclAt i.order rest).toNat).length
          = (inclAt i.order rest).toNat := by
        rw [List.length_take, List.length_drop]; omega
      have hne : rest.take 16 ≠ [] := by
        intro h
        have := congrArg List.length h
        rw [List.length_take, List.length_nil] at this
        omega
      rw [hwalk, recordLoop, if_neg hne, if_neg (by simp; omega), unpackIIII, if_pos (by simp; omega)]
      simp only [hwords 0 4 (by omega) (by omega), hwords 4 8 (by omega) (by omega),
        hwords 8 12 (by omega) (by omega), hwords 12 16 (by omega) (by omega)]
      rw [show u32 i.order (slice rest 8 12) = inclAt i.order rest from rfl,
        if_neg (by rw [hdata]; exact lt_irrefl _), emit]
      simp only [recordBlock, Record.incl, hdata, UInt32.ofNat_toNat]
      cases packetBlock names i _ _ _ _ _ with
      | error f => rfl
      | ok b => exact recordLoop_eq names i fuel _ _ _ (by rw [List.length_drop]; omega)

theorem emit_ok {names : Names} {i : Interface} : ∀ {rs : List Record} {out : Bytes} {n : Nat},
    (∀ r ∈ rs, Fits names i r) →
    emit names i rs out n =
      (out ++ rs.flatMap (fun r => blockBytes ⟨6, packetBody names i r⟩), .ok (n + rs.length))
  | [], out, n, _ => by simp [emit]
  | r :: rs, out, n, h => by
    rw [emit, recordBlock_ok (h r (by simp))]
    simp only
    rw [emit_ok (fun r hr => h r (by simp [hr]))]
    simp [Nat.add_comm, Nat.add_left_comm]

/-- A record that does not fit makes the run raise. -/
theorem emit_error {names : Names} {i : Interface} : ∀ {rs : List Record} {out : Bytes} {n : Nat},
    ¬ (∀ r ∈ rs, Fits names i r) → (emit names i rs out n).2 = .error .structError
  | [], _, _, h => absurd (by simp) h
  | r :: rs, out, n, h => by
    by_cases hr : Fits names i r
    · rw [emit, recordBlock_ok hr]
      refine emit_error fun hall => h fun r' hr' => ?_
      rcases List.mem_cons.mp hr' with rfl | hr'
      · exact hr
      · exact hall r' hr'
    · rw [emit, recordBlock_error hr]

/-- The file main writes for records that all fit. -/
def fileBytes (names : Names) (i : Interface) (rs : List Record) : Bytes :=
  blockBytes ⟨0x0A0D0D0A, sectionBody⟩ ++ blockBytes ⟨1, interfaceBody i⟩
    ++ rs.flatMap (fun r => blockBytes ⟨6, packetBody names i r⟩)

/-- Every value main packs is in range. -/
def Encodable (names : Names) (i : Interface) (body : Bytes) : Prop :=
  i.linktype < 2 ^ 16 ∧ ∀ r ∈ (records i.order body).1, Fits names i r

theorem main_ok {src : String} {names : Names} {input : Bytes} {i : Interface}
    (hh : readHeader src (input.take 24) = .ok i) (he : Encodable names i (input.drop 24)) :
    main src names input =
      ⟨some (fileBytes names i (records i.order (input.drop 24)).1),
        .ok (records i.order (input.drop 24)).1.length⟩ := by
  obtain ⟨hl, hf⟩ := he
  simp only [main, hh, sectionHeader_ok, interfaceDescription_ok hl]
  rw [recordLoop_eq names i _ _ _ _ (le_refl _), emit_ok hf]
  simp [fileBytes]

theorem main_error {src : String} {names : Names} {input : Bytes} {i : Interface}
    (hh : readHeader src (input.take 24) = .ok i) (he : ¬ Encodable names i (input.drop 24)) :
    (main src names input).result = .error .structError := by
  by_cases hl : i.linktype < 2 ^ 16
  · have hf : ¬ ∀ r ∈ (records i.order (input.drop 24)).1, Fits names i r := fun hf => he ⟨hl, hf⟩
    simp only [main, hh, sectionHeader_ok, interfaceDescription_ok hl]
    rw [recordLoop_eq names i _ _ _ _ (le_refl _)]
    exact emit_error hf
  · simp only [main, hh, sectionHeader_ok, interfaceDescription_error (Nat.not_lt.mp hl)]

/-- A run exits 0 exactly on an accepted header over an encodable body. -/
theorem main_exit_zero {src : String} {names : Names} {input : Bytes} :
    (main src names input).exitStatus = 0 ↔
      ∃ i, readHeader src (input.take 24) = .ok i ∧ Encodable names i (input.drop 24) := by
  cases hh : readHeader src (input.take 24) with
  | error f => simp [main, hh, Outcome.exitStatus]
  | ok i =>
    by_cases he : Encodable names i (input.drop 24)
    · simp [Outcome.exitStatus, main_ok hh he, he]
    · simp [Outcome.exitStatus, main_error hh he, he]

/-- What a reader of the output must get. -/
def expected (names : Names) (i : Interface) (rs : List Record) : Pcapng :=
  { linktype := i.linktype
    snaplen := i.snaplen.toNat
    tsresol := if i.nanos then 9 else 6
    blocks := rs.map fun r => ⟨i.packet r, comment names i r.data⟩ }

theorem mapM_readPacketBlock {names : Names} {i : Interface} : ∀ {rs : List Record},
    (∀ r ∈ rs, Fits names i r) →
    (rs.map fun r => (⟨6, packetBody names i r⟩ : Block)).mapM readPacketBlock
      = some (rs.map fun r => ⟨i.packet r, comment names i r.data⟩)
  | [], _ => rfl
  | r :: rs, h => by
    rw [List.map_cons, List.mapM_cons, readPacketBlock_packetBody (h r (by simp)),
      mapM_readPacketBlock (fun r hr => h r (by simp [hr]))]
    rfl

/-- **The emitted file is well-formed pcapng and reads back as its records.** -/
theorem readPcapng_fileBytes {names : Names} {i : Interface} {rs : List Record}
    (hl : i.linktype < 2 ^ 16) (hf : ∀ r ∈ rs, Fits names i r) :
    readPcapng (fileBytes names i rs) = some (expected names i rs) := by
  have hblocks : readAll readBlock (fileBytes names i rs)
      = some (⟨0x0A0D0D0A, sectionBody⟩ :: ⟨1, interfaceBody i⟩
        :: rs.map fun r => ⟨6, packetBody names i r⟩) := by
    have hsplit : fileBytes names i rs = (⟨0x0A0D0D0A, sectionBody⟩ :: ⟨1, interfaceBody i⟩
        :: rs.map fun r => (⟨6, packetBody names i r⟩ : Block)).flatMap blockBytes := by
      simp [fileBytes, List.flatMap_map]
    rw [hsplit]
    refine readAll_flatMap readBlock_consumes blockBytes _ fun b hb rest => readBlock_write ?_ rest
    simp only [List.mem_cons, List.mem_map] at hb
    rcases hb with rfl | rfl | ⟨r, hr, rfl⟩
    · exact section_fits
    · exact interface_fits i
    · exact packetBlock_fits (hf r hr)
  have hres : (tsresol i).toNat = if i.nanos then 9 else 6 := by
    unfold tsresol; split <;> rfl
  rw [readPcapng]
  simp only [hblocks, readSection_ok, readInterface_ok hl, mapM_readPacketBlock hf, bind,
    Option.bind, hres]
  rfl

/-- **pcap to pcapng preserves the capture.** Any file header whose masked link
type fits 16 bits, any complete records that fit, and a tail cut short: main
exits 0 and what it renames to `dst` reads back as the same interface and
exactly the complete records, each with its comment. -/
theorem main_preserves_capture (src : String) (names : Names) (h : FileHeader) (rs : List Record)
    (tail : Bytes) (dst : Option Bytes) (hlink : h.interface.linktype < 2 ^ 16)
    (hfit : ∀ r ∈ rs, Fits names h.interface r) (hcut : CutShort h.order tail) :
    (main src names (h.write ++ rs.flatMap (Record.write h.order) ++ tail)).exitStatus = 0 ∧
    ∃ out, (main src names (h.write ++ rs.flatMap (Record.write h.order) ++ tail)).replace dst
        = some out ∧
      readPcapng out = some (expected names h.interface rs) := by
  have hdrop : (h.write ++ (rs.flatMap (Record.write h.order) ++ tail)).drop 24
      = rs.flatMap (Record.write h.order) ++ tail := List.drop_left' h.write_length
  have hrec : records h.interface.order (rs.flatMap (Record.write h.order) ++ tail) = (rs, tail) :=
    records_write rs hcut
  have henc : Encodable names h.interface
      ((h.write ++ (rs.flatMap (Record.write h.order) ++ tail)).drop 24) := by
    rw [hdrop]; exact ⟨hlink, by rw [hrec]; exact hfit⟩
  have hmain := main_ok (readHeader_write src h _) henc
  rw [hdrop, hrec] at hmain
  rw [List.append_assoc, hmain]
  exact ⟨rfl, _, rfl, readPcapng_fileBytes hlink hfit⟩

instance (names : Names) (i : Interface) (r : Record) : Decidable (Fits names i r) :=
  decidable_of_iff ((∀ c ∈ comment names i r.data, c.length < 2 ^ 16) ∧
      12 + (packetBody names i r).length < 2 ^ 32)
    ⟨fun h => ⟨fun c hc => h.1 c hc, h.2⟩, fun h => ⟨fun c hc => h.comment c hc, h.block⟩⟩

/-- A SYN in a LINUX_SLL2 capture, from 10.0.4.17 to 52.219.62.10. -/
def synRecord : Record where
  sec := 1
  frac := 2
  orig := 80
  data := [8, 0] ++ List.replicate 18 0 ++ [0x45] ++ List.replicate 11 0 ++ [10, 0, 4, 17, 52, 219, 62, 10]
  short := by decide

def sll2Header : FileHeader where
  order := .big
  nanos := true
  version := List.replicate 12 0
  version_length := rfl
  snaplen := 128
  network := 0xF0000114

theorem main_preserves_syn :
    ∃ out, (main "X.pcap" (fun ip => if ip = "10.0.4.17" then some "default/exec-3" else none)
        (sll2Header.write ++ [synRecord].flatMap (Record.write .big) ++ [0, 0, 0])).replace none
        = some out ∧
      readPcapng out = some
        { linktype := 276, snaplen := 128, tsresol := 9
          blocks := [⟨⟨1000000002, 80, synRecord.data⟩,
            some (encode "src 10.0.4.17 default/exec-3 -> dst 52.219.62.10 external")⟩] } := by
  obtain ⟨_, out, hout, hread⟩ := main_preserves_capture "X.pcap"
    (fun ip => if ip = "10.0.4.17" then some "default/exec-3" else none) sll2Header [synRecord]
    [0, 0, 0] none (by decide) (by decide +kernel) (by decide)
  exact ⟨out, hout, by rw [hread]; decide⟩

end BigDataPlatform.PcapAnnotate
