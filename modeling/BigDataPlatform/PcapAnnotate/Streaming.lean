import BigDataPlatform.PcapAnnotate.Preservation

/-! # Annotating a capture that is still growing

`main` decides about each record before it reads the next. A capture that was
read too early, cut off at any byte after its header, is annotated like the
beginning of the capture it became; and a run that fails, fails on it too. -/
namespace BigDataPlatform.PcapAnnotate
open BigDataPlatform.Lib.Pack BigDataPlatform.Lib.Framing

theorem readRecord_local (e : ByteOrder) : Local (readRecord e) := by
  intro bs r rest more h
  obtain rfl := readRecord_exact e _ _ _ h
  rw [List.append_assoc]
  exact readRecord_write e r (rest ++ more)

/-- More bytes never take a record away. -/
theorem records_append (e : ByteOrder) (body more : Bytes) :
    ∃ rs, (records e (body ++ more)).1 = (records e body).1 ++ rs :=
  ⟨_, congrArg Prod.fst (walk_append (readRecord_consumes e) (readRecord_local e) body more)⟩

/-- The loop over more records goes on from where it was, unless it had failed. -/
theorem emit_append (names : Names) (i : Interface) :
    ∀ (rs rs' : List Record) (out : Bytes) (n : Nat),
      emit names i (rs ++ rs') out n = match emit names i rs out n with
        | (out, .ok n) => emit names i rs' out n
        | (out, .error f) => (out, .error f)
  | [], _, _, _ => rfl
  | r :: rs, rs', out, n => by
    rw [List.cons_append, emit, emit]
    cases recordBlock names i r with
    | error f => rfl
    | ok b => exact emit_append names i rs rs' (out ++ b) (n + 1)

theorem emit_extends (names : Names) (i : Interface) : ∀ (rs : List Record) (out : Bytes) (n : Nat),
    out <+: (emit names i rs out n).1 ∧ ∀ k, (emit names i rs out n).2 = .ok k → n ≤ k
  | [], out, n => ⟨List.prefix_refl _, fun k hk => by cases hk; exact le_rfl⟩
  | r :: rs, out, n => by
    rw [emit]
    cases recordBlock names i r with
    | error f => exact ⟨List.prefix_refl _, fun k hk => by cases hk⟩
    | ok b =>
      obtain ⟨hpre, hle⟩ := emit_extends names i rs (out ++ b) (n + 1)
      exact ⟨(List.prefix_append _ _).trans hpre, fun k hk => Nat.le_of_succ_le (hle k hk)⟩

/-- What an earlier run wrote, against a run on the same capture grown. -/
structure Extends (a b : Outcome) : Prop where
  tmp : ∀ out, a.tmp = some out → ∃ out', b.tmp = some out' ∧ out <+: out'
  fails : ∀ f, a.result = .error f → b = a
  count : ∀ m n, a.result = .ok m → b.result = .ok n → m ≤ n

theorem Extends.refl (a : Outcome) : Extends a a where
  tmp out h := ⟨out, h, List.prefix_refl _⟩
  fails _ _ := rfl
  count m n hm hn := by rw [hm] at hn; cases hn; exact le_rfl

/-- **Cut anywhere, converted alike.** For every byte string that reaches past
its file header, malformed ones included, whatever is appended to it. -/
theorem main_streams (src : String) (names : Names) (input more : Bytes) (h : 24 ≤ input.length) :
    Extends (main src names input) (main src names (input ++ more)) := by
  have htake : (input ++ more).take 24 = input.take 24 := List.take_append_of_le_length h
  have hdrop : (input ++ more).drop 24 = input.drop 24 ++ more := List.drop_append_of_le_length h
  simp only [main, htake, hdrop, sectionHeader_ok]
  cases readHeader src (input.take 24) with
  | error f => exact Extends.refl _
  | ok i =>
    dsimp only
    cases interfaceDescription i with
    | error f => exact Extends.refl _
    | ok idb =>
      dsimp only
      rw [recordLoop_eq names i _ _ _ _ le_rfl, recordLoop_eq names i _ _ _ _ le_rfl]
      obtain ⟨rs, hrs⟩ := records_append i.order (input.drop 24) more
      rw [hrs, emit_append]
      obtain ⟨out, r⟩ := emit names i (records i.order (input.drop 24)).1 _ 0
      cases r with
      | error f => exact Extends.refl _
      | ok n =>
        obtain ⟨hpre, hle⟩ := emit_extends names i rs out n
        refine ⟨fun o ho => ?_, fun f hf => (by cases hf), fun m k hm hk => ?_⟩
        · cases ho
          exact ⟨_, rfl, hpre⟩
        · cases hm
          exact hle k hk

/-- The SYN capture read in the middle of its second record. -/
theorem main_streams_syn :
    let whole := sll2Header.write ++ [synRecord, synRecord].flatMap (Record.write .big)
    Extends (main "X.pcap" (fun _ => none) (whole.take 100)) (main "X.pcap" (fun _ => none) whole) := by
  intro whole
  have h := main_streams "X.pcap" (fun _ => none) (whole.take 100) (whole.drop 100) (by decide)
  rwa [List.take_append_drop] at h

end BigDataPlatform.PcapAnnotate
