import BigDataPlatform.PacketCapture.Files

/-! # upload.sh: ship_capture on its own

The commands of `ship_capture` run one after another with nobody else in the
directory, and what they conserve of the capture's bytes. -/
namespace BigDataPlatform.PacketCapture
open BigDataPlatform.Lib.Pack BigDataPlatform.Lib.FileSystem BigDataPlatform.PcapAnnotate

/-- `upload "$f"`: copy, and remove on success. A missing file cannot be copied. -/
def Env.upload (env : Env) (ok : Bool) (f : FileName) : Env × Bool :=
  if ok ∧ (env.fs.read f).isSome then ((env.apply (.put f)).apply (.unlink [f]), true)
  else (env, false)

/-- `python3 pcap-annotate.py X.pcap X.pcapng ...`, and whether it exits 0. -/
def Env.annotator (env : Env) (names : Names) (x : Nat) : Env × Bool :=
  match env.fs.read (.pcap x) with
  | none => (env, false)
  | some input =>
    let o := main (FileName.pcap x).path names input
    match o.tmp with
    | none => (env, false)
    | some out =>
      let written := (env.apply (.truncate (.pcapngTmp x))).apply
        (.write (env.fs.openFd (.pcapngTmp x)) 0 out)
      if o.exitStatus = 0 then (written.apply (.rename (.pcapngTmp x) (.pcapng x)), true)
      else (written, false)

/-- `ship_capture`, given whether `.pods-latest.jsonl` is non-empty and whether
the upload succeeds. -/
def Env.shipCapture (env : Env) (podsLatest : Bool) (names : Names) (uploadOk : Bool) (x : Nat) : Env :=
  let (annotated, ok) := if podsLatest then env.annotator names x else (env, false)
  if ok then
    let (uploaded, done) := annotated.upload uploadOk (.pcapng x)
    if done then uploaded.apply (.unlink [.pcap x]) else uploaded
  else ((annotated.apply (.unlink [.pcapng x])).upload uploadOk (.pcap x)).1

/-- `out` stands for every byte of `input` but the last ones, `rest`. -/
def RepresentsAllBut (out input rest : Bytes) : Prop :=
  ∃ (h : FileHeader) (rs : List Record),
    input = h.write ++ rs.flatMap (Record.write h.order) ++ rest ∧
      packetsOfPcapng out = some (rs.map h.interface.packet)

/-- Nothing captured is dropped silently: either the annotator exits 0 and the
uploaded pcapng lacks only part of one record, or it does not, `X.pcapng` is as
it was after it, and the original is what is uploaded. -/
def Conserved (env : Env) (names : Names) (x : Nat) (input : Bytes) : Prop :=
  ((env.annotator names x).2 = true ∧
    ∃ out rest i, (env.shipCapture true names true x).s3 (.pcapng x) = some out ∧
      RepresentsAllBut out input rest ∧
      readHeader (FileName.pcap x).path (input.take 24) = .ok i ∧
      rest.length < 16 + i.snaplen.toNat) ∨
  ((env.annotator names x).2 = false ∧
    (env.annotator names x).1.fs.read (.pcapng x) = env.fs.read (.pcapng x) ∧
    (env.shipCapture true names true x).s3 (.pcap x) = some input)

/-- The walk over the record headers stops at one whose `incl` runs past the end
of the file although at least a snaplen's worth of bytes follows it. -/
def OversizedIncl (i : Interface) (body : Bytes) : Prop :=
  16 ≤ (records i.order body).2.length ∧
    (records i.order body).2.length < 16 + (inclAt i.order (records i.order body).2).toNat ∧
    16 + i.snaplen.toNat ≤ (records i.order body).2.length

/-! ## Reading files after the annotator's writes -/

theorem read_truncate_write {fs : Fs FileName} {n m : FileName} (now : Nat) (out : Bytes) :
    ((fs.truncate n now).write (fs.openFd n) 0 out now).read m
      = if m = n then some out else fs.read m := by
  simp only [Fs.read, Fs.lookup_write, Fs.lookup_truncate]
  split
  · simp [Fs.node_write, Fs.node_truncate, Fs.writeAt]
  · next hm =>
    cases hl : fs.lookup m with
    | none => rfl
    | some j =>
      have hj : j ≠ fs.openFd n := Fs.openFd_ne hl hm
      simp [Fs.node_write, Fs.node_truncate, hj]

theorem read_rename {fs : Fs FileName} {a b : FileName} {bytes : Bytes} (h : fs.read a = some bytes) :
    (fs.rename a b).read b = some bytes := by
  obtain ⟨i, hi, hb⟩ := Option.map_eq_some_iff.mp h
  simp [Fs.read, Fs.lookup_rename b b hi, hb]

/-! ## What the annotator and the upload leave -/

section Ship
variable {env : Env} {names : Names} {x : Nat} {input : Bytes}

theorem annotator_ok (hin : env.fs.read (.pcap x) = some input) {out : Bytes}
    (h0 : (main (FileName.pcap x).path names input).exitStatus = 0)
    (ht : (main (FileName.pcap x).path names input).tmp = some out) :
    (env.annotator names x).2 = true ∧ (env.annotator names x).1.fs.read (.pcapng x) = some out := by
  simp only [Env.annotator, hin, ht, h0, if_true, true_and]
  exact read_rename ((read_truncate_write _ _).trans (if_pos rfl))

theorem annotator_failed (hin : env.fs.read (.pcap x) = some input)
    (h0 : (main (FileName.pcap x).path names input).exitStatus ≠ 0) :
    (env.annotator names x).2 = false ∧
      (∀ n, n ≠ FileName.pcapngTmp x → (env.annotator names x).1.fs.read n = env.fs.read n) := by
  simp only [Env.annotator, hin]
  cases ht : (main (FileName.pcap x).path names input).tmp with
  | none => exact ⟨rfl, fun _ _ => rfl⟩
  | some out =>
    simp only [h0, if_false, true_and]
    intro n hn
    exact (read_truncate_write _ _).trans (if_neg hn)

theorem upload_ok {env : Env} {f : FileName} {b : Bytes} (h : env.fs.read f = some b) :
    (env.upload true f).2 = true ∧ (env.upload true f).1.s3 f = some b := by
  simp only [Env.upload, h, Option.isSome_some, and_self, if_true, true_and]
  exact put_read h

theorem ship_annotated (hok : (env.annotator names x).2 = true) {out : Bytes}
    (hng : (env.annotator names x).1.fs.read (.pcapng x) = some out) :
    (env.shipCapture true names true x).s3 (.pcapng x) = some out := by
  obtain ⟨hu, hs⟩ := upload_ok hng
  simp only [Env.shipCapture, if_true, hok, hu]
  exact hs

theorem ship_unannotated (hok : (env.annotator names x).2 = false) {b : Bytes}
    (hp : (env.annotator names x).1.fs.read (.pcap x) = some b) :
    (env.shipCapture true names true x).s3 (.pcap x) = some b := by
  have hr : ((env.annotator names x).1.apply (.unlink [.pcapng x])).fs.read (.pcap x) = some b := by
    simpa [Env.apply, Fs.read, Fs.lookup_unlinkAll] using hp
  simp only [Env.shipCapture, if_true, hok, Bool.false_eq_true, if_false]
  exact (upload_ok hr).2

end Ship

/-! ## The bytes a conversion stands for -/

/-- The bytes that packets took up in a capture. -/
def written (ps : List Packet) : Nat := (ps.map fun p => 16 + p.data.length).sum

theorem written_packets (e : ByteOrder) (i : Interface) (rs : List Record) :
    (rs.flatMap (Record.write e)).length = written (rs.map i.packet) := by
  induction rs with
  | nil => rfl
  | cons r rs ih =>
    rw [List.flatMap_cons, List.length_append, Record.write_length, ih]
    simp [written, Interface.packet]

/-- What is left out is the tail after the complete records, however the
represented part is cut into a header and records. -/
theorem rest_length {out input rest : Bytes} {src : String} {i : Interface}
    (hh : readHeader src (input.take 24) = .ok i)
    (ho : packetsOfPcapng out = some (packetsOfPcap input))
    (hr : RepresentsAllBut out input rest) :
    rest.length = (records i.order (input.drop 24)).2.length := by
  obtain ⟨h, rs, hin, hp⟩ := hr
  obtain ⟨hsplit, _⟩ := records_exact i.order (input.drop 24)
  have hpk : packetsOfPcap input = (records i.order (input.drop 24)).1.map i.packet := by
    rw [packetsOfPcap, readHeader_src hh]
  rw [ho, hpk, Option.some.injEq] at hp
  have h1 := congrArg List.length hin
  have h2 := congrArg List.length hsplit
  rw [List.length_append, List.length_append, FileHeader.write_length,
    written_packets h.order h.interface] at h1
  rw [List.length_append, List.length_drop, written_packets i.order i, hp] at h2
  have h24 : 24 ≤ input.length := by omega
  omega

theorem not_oversizedIncl (i : Interface) (body : Bytes) (hs : 0 < i.snaplen.toNat) :
    ¬ OversizedIncl i body ↔ (records i.order body).2.length < 16 + i.snaplen.toNat := by
  have hcut := (records_exact i.order body).2
  constructor
  · intro h
    by_contra hlong
    refine h ⟨by omega, ?_, by omega⟩
    rcases hcut with hcut | hcut <;> omega
  · intro h ho
    have := ho.2.2
    omega

/-- What an encodable input conserves is decided by its tail. -/
theorem conserved_encodable {env : Env} {names : Names} {x : Nat} {input : Bytes} {i : Interface}
    (hin : env.fs.read (.pcap x) = some input)
    (hh : readHeader (FileName.pcap x).path (input.take 24) = .ok i)
    (he : Encodable names i (input.drop 24)) :
    Conserved env names x input ↔
      (records i.order (input.drop 24)).2.length < 16 + i.snaplen.toNat := by
  have hmain := main_ok hh he
  have h0 : (main (FileName.pcap x).path names input).exitStatus = 0 := by rw [hmain]; rfl
  obtain ⟨out, ht⟩ : ∃ out, (main (FileName.pcap x).path names input).tmp = some out :=
    ⟨_, by rw [hmain]⟩
  obtain ⟨hok, hng⟩ := annotator_ok hin h0 ht
  have hship := ship_annotated hok hng
  have hpk := main_packets h0 ht
  constructor
  · rintro (⟨_, out', rest, i', hout, hrep, hh', hlt⟩ | ⟨hfail, _, _⟩)
    · rw [hship] at hout
      cases hout
      rw [hh] at hh'
      cases hh'
      rwa [rest_length hh hpk hrep] at hlt
    · rw [hok] at hfail; cases hfail
  · intro hlt
    obtain ⟨hdr, hi, hsplit⟩ := readHeader_exact hh
    have hbody := (records_exact i.order (input.drop 24)).1
    have horder : hdr.order = i.order := by rw [← hi]; rfl
    refine Or.inl ⟨hok, out, (records i.order (input.drop 24)).2, i, hship,
      ⟨hdr, (records i.order (input.drop 24)).1, ?_, ?_⟩, hh, hlt⟩
    · rw [horder, List.append_assoc, ← hbody]
      exact hsplit
    · rw [hpk, packetsOfPcap, readHeader_src hh, hi]

/-- A run that exits non-zero keeps `X.pcapng`, and the original is uploaded. -/
theorem conserved_failed {env : Env} {names : Names} {x : Nat} {input : Bytes}
    (hin : env.fs.read (.pcap x) = some input)
    (h0 : (main (FileName.pcap x).path names input).exitStatus ≠ 0) :
    Conserved env names x input := by
  obtain ⟨hfail, hkeep⟩ := annotator_failed hin h0
  have hraw := ship_unannotated hfail ((hkeep (.pcap x) (by simp)).trans hin)
  exact Or.inr ⟨hfail, hkeep (.pcapng x) (by simp), hraw⟩

/-- **When a conversion conserves the capture.** Whatever the bytes, as long as
a snaplen read from them is positive: nothing is dropped silently exactly when
the file header cannot be read, the annotator cannot encode the file, or no
record header declares more data than follows it while a snaplen's worth of
bytes does follow. -/
theorem shipCapture_conserves_iff (env : Env) (names : Names) (x : Nat) (input : Bytes)
    (hin : env.fs.read (.pcap x) = some input)
    (hs : ∀ i, readHeader (FileName.pcap x).path (input.take 24) = .ok i → 0 < i.snaplen.toNat) :
    Conserved env names x input ↔
      ∀ i, readHeader (FileName.pcap x).path (input.take 24) = .ok i →
        ¬ Encodable names i (input.drop 24) ∨ ¬ OversizedIncl i (input.drop 24) := by
  cases hh : readHeader (FileName.pcap x).path (input.take 24) with
  | error f =>
    -- a header cut short or a foreign magic: main stops before it opens its output
    have h0 : (main (FileName.pcap x).path names input).exitStatus ≠ 0 := by
      simp [main, hh, Outcome.exitStatus]
    exact ⟨fun _ i hi => absurd hi (by simp), fun _ => conserved_failed hin h0⟩
  | ok i =>
    simp only [Except.ok.injEq, forall_eq']
    by_cases he : Encodable names i (input.drop 24)
    · rw [conserved_encodable hin hh he, not_oversizedIncl i _ (hs i hh)]
      simp [he]
    · have h0 : (main (FileName.pcap x).path names input).exitStatus ≠ 0 := by
        rw [Outcome.exitStatus, main_error hh he]; simp
      simp only [he, not_false_eq_true, true_or, iff_true]
      exact conserved_failed hin h0

/-- A directory holding one capture. -/
def Env.single (x : Nat) (input : Bytes) : Env where
  fs := (Fs.empty.truncate (.pcap x) 0).append 0 input 0
  s3 := fun _ => none
  clock := 0

theorem single_read (x : Nat) (input : Bytes) : (Env.single x input).fs.read (.pcap x) = some input := by
  simp [Env.single, Fs.read, Fs.lookup_truncate, Fs.node_append, Fs.node_truncate, Fs.openFd]

/-- A capture whose first record header declares 2^32 - 1 bytes, before what is
left of the file. -/
def corruptCapture : Bytes :=
  sll2Header.write ++ [0, 0, 0, 1, 0, 0, 0, 2, 255, 255, 255, 255, 0, 0, 0, 80]
    ++ List.replicate 200 0

/-- The corrupt capture is converted to an empty pcapng and removed. -/
theorem corruptCapture_dropped :
    (Env.single 0 corruptCapture).fs.read (.pcap 0) = some corruptCapture ∧
    readHeader (FileName.pcap 0).path (corruptCapture.take 24) = .ok sll2Header.interface ∧
    0 < sll2Header.interface.snaplen.toNat ∧
    ¬ Conserved (Env.single 0 corruptCapture) (fun _ => none) 0 corruptCapture := by
  have hin := single_read 0 corruptCapture
  have hh : readHeader (FileName.pcap 0).path (corruptCapture.take 24) = .ok sll2Header.interface := by
    rw [corruptCapture, List.append_assoc]; exact readHeader_write _ _ _
  refine ⟨hin, hh, by decide, ?_⟩
  rw [conserved_encodable hin hh ⟨by decide, by decide +kernel⟩]
  decide +kernel

/-- A SYN before a cut record, and the same header cut inside its link type. -/
theorem shipCapture_conserves_syn :
    Conserved (Env.single 3 (sll2Header.write ++ synRecord.write .big ++ [7])) (fun _ => none) 3
      (sll2Header.write ++ synRecord.write .big ++ [7]) ∧
    Conserved (Env.single 3 (sll2Header.write.take 22)) (fun _ => none) 3
      (sll2Header.write.take 22) := by
  have hh : readHeader (FileName.pcap 3).path
      ((sll2Header.write ++ synRecord.write .big ++ [7]).take 24) = .ok sll2Header.interface := by
    rw [List.append_assoc]; exact readHeader_write _ _ _
  have hcut : ∀ i, readHeader (FileName.pcap 3).path ((sll2Header.write.take 22).take 24) ≠ .ok i := by
    simp [readHeader, sll2Header.write_length]
  constructor
  · refine (shipCapture_conserves_iff _ _ 3 _ (single_read 3 _) fun i hi => ?_).mpr fun i hi => ?_
    · rw [hh] at hi; cases hi; decide
    · rw [hh] at hi
      cases hi
      right
      rw [not_oversizedIncl _ _ (by decide)]
      decide +kernel
  · exact (shipCapture_conserves_iff _ _ 3 _ (single_read 3 _) fun i hi => absurd hi (hcut i)).mpr
      fun i hi => absurd hi (hcut i)

end BigDataPlatform.PacketCapture
