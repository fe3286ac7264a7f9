import BigDataPlatform.Lib.Transition
import BigDataPlatform.PcapAnnotate.LoadNames

/-! # The pod map between the two containers

capture.sh publishes a pod map with `cp` onto `.pods-latest.jsonl`: the file is
emptied and filled again in pieces. upload.sh tests the file, and `load_names`
opens it and reads until it meets its end. Neither waits for the other. A map
ends with a newline, as jq writes it: after a last line without one, Python
would read once more. -/
namespace BigDataPlatform.PacketCapture.PodMapFile
open BigDataPlatform.Lib.Pack BigDataPlatform.Lib.Transition BigDataPlatform.Lib.LastWrite
open BigDataPlatform.PcapAnnotate

/-- `cp`: nothing is being copied, or these bytes are still to be written. -/
inductive Writer where
  | idle
  | copying (left : Bytes)
deriving DecidableEq

/-- One `ship_capture` up to the end of load_names' loop: `tested` once
`[ -s ]` was true, then what has been read so far, then all that was read. -/
inductive Reader where
  | shipping
  | tested
  | reading (got : Bytes)
  | finished (got : Bytes)
  | unannotated
deriving DecidableEq

/-- `coming` are the pod maps of the refreshes to come. -/
structure State where
  file : Option Bytes
  coming : List Bytes
  writer : Writer
  reader : Reader
deriving DecidableEq

inductive Label where
  | truncate
  | append (k : Nat)
  | close
  | test
  | openFile
  | read (n : Nat)
  | nextCapture
deriving DecidableEq

/-- A read takes up to `n` bytes from where the last one stopped; the one that
gets none ends the loop. -/
def step : Label → State → Option State
  | .truncate, s => match s.writer, s.coming with
    | .idle, m :: coming => some { s with file := some [], coming, writer := .copying m }
    | _, _ => none
  | .append k, s => match s.writer, s.file with
    | .copying left, some b =>
      some { s with file := some (b ++ left.take k), writer := .copying (left.drop k) }
    | _, _ => none
  | .close, s => match s.writer with
    | .copying [] => some { s with writer := .idle }
    | _ => none
  | .test, s => match s.reader with
    | .shipping =>
      some { s with reader := if s.file.getD [] = [] then .unannotated else .tested }
    | _ => none
  | .openFile, s => match s.reader, s.file with
    | .tested, some _ => some { s with reader := .reading [] }
    | .tested, none => some { s with reader := .finished [] }
    | _, _ => none
  | .read n, s => match s.reader, s.file with
    | .reading got, some b =>
      if n = 0 then none
      else match (b.drop got.length).take n with
        | [] => some { s with reader := .finished got }
        | chunk => some { s with reader := .reading (got ++ chunk) }
    | _, _ => none
  | .nextCapture, s => match s.reader with
    | .finished _ | .unannotated => some { s with reader := .shipping }
    | _ => none

def start (file : Option Bytes) (coming : List Bytes) : State :=
  { file, coming, writer := .idle, reader := .shipping }

/-! ## The lines of a pod map -/

/-- `for line in f`, without the newlines. -/
def lines : Bytes → List Bytes
  | [] => []
  | c :: bs =>
    if c = 10 then [] :: lines bs
    else match lines bs with
      | [] => [[c]]
      | line :: rest => (c :: line) :: rest

/-- What load_names makes of the bytes it read, for any `json.loads`. -/
def podMapOf (loads : Bytes → Option Pod) (b : Bytes) : PodMap := (lines b).map loads

/-- The map has an entry for this address. -/
def Lists (loads : Bytes → Option Pod) (b : Bytes) (ip : String) : Prop :=
  mapLabel (podMapOf loads b) ip ≠ none

/-- Whatever load_names has read has the lines of one of the maps, and an address
that all of them list is not external. -/
def WholeMap (maps : List Bytes) (s : State) : Prop :=
  ∀ got, s.reader = .finished got →
    (∃ m ∈ maps, ∀ line, line ∈ lines got ↔ line ∈ lines m) ∧
    ∀ loads cache written ip, (∀ m ∈ maps, Lists loads m ip) →
      label (loadNames (podMapOf loads got) cache written).1 ip ≠ "external"

theorem mem_mentions_slash {line : Option Pod} {w : String × String} (h : w ∈ mentions line) :
    '/' ∈ w.2.toList := by
  cases line with
  | none => cases h
  | some p =>
    have hnode : '/' ∈ (nodeLabel p).toList := by simp [nodeLabel]
    have hpod : '/' ∈ (podLabel p).toList := by
      rw [podLabel]
      split
      · exact hnode
      · simp
    rw [mentions] at h
    split at h
    · cases h
    · rcases List.mem_cons.mp h with rfl | h
      · exact hpod
      · obtain ⟨ip, -, rfl⟩ := Option.map_eq_some_iff.mp (Option.mem_toList.mp h)
        exact hnode

/-- No pod is called `external`: every label of a map has a slash. -/
theorem label_ne_external {podmap : PodMap} {ip : String} (h : mapLabel podmap ip ≠ none)
    (cache : Option CacheFile) (written : Bool) :
    label (loadNames podmap cache written).1 ip ≠ "external" := by
  obtain ⟨text, htext⟩ := Option.ne_none_iff_exists'.mp h
  obtain ⟨line, -, hmem⟩ := List.mem_flatMap.mp (mem_of_lastWrite htext)
  have hslash : '/' ∈ text.toList := mem_mentions_slash hmem
  rw [label, loadNames_apply, htext]
  intro he
  rw [show text = "external" from he] at hslash
  exact absurd hslash (by decide)

/-! ## Readings that no copy tears -/

/-- The bytes a copy has still to write. -/
def Writer.left : Writer → Bytes
  | .idle => []
  | .copying left => left

/-- What has been read of the file that is open. -/
def Reader.got : Reader → Bytes
  | .reading got => got
  | _ => []

/-- No copy empties a file that load_names has read part of, and load_names does
not meet the end of the file while a copy has bytes to write. -/
def Untorn (s : State) : Label → Prop
  | .truncate => s.reader.got = []
  | .read _ => s.writer.left = [] ∨ (s.file.getD []).drop s.reader.got.length ≠ []
  | .append _ | .close | .test | .openFile | .nextCapture => True

instance (s : State) : (l : Label) → Decidable (Untorn s l)
  | .truncate => inferInstanceAs (Decidable (_ = []))
  | .read _ => inferInstanceAs (Decidable (_ ∨ _))
  | .append _ | .close | .test | .openFile | .nextCapture => inferInstanceAs (Decidable True)

/-- The file and what a copy has still to write of it are one of the maps. A
reader has a part of what the file holds. -/
structure Inv (maps : List Bytes) (s : State) : Prop where
  coming : ∀ m ∈ s.coming, m ∈ maps
  file : ∀ b, s.file = some b → b ++ s.writer.left ∈ maps
  tested : s.reader = .tested → s.file ≠ none
  reading : ∀ got, s.reader = .reading got → ∃ b, s.file = some b ∧ got <+: b
  finished : ∀ got, s.reader = .finished got → got ∈ maps

theorem inv_start (file : Option Bytes) (coming : List Bytes) :
    Inv (file.toList ++ coming) (start file coming) where
  coming := fun m hm => List.mem_append_right _ hm
  file := by
    intro b hb
    cases (show file = some b from hb)
    rw [show b ++ (start (some b) coming).writer.left = b from List.append_nil b]
    exact List.mem_append_left _ List.mem_cons_self
  tested := by intro h; cases h
  reading := by intro got h; cases h
  finished := by intro got h; cases h

/-- A read leaves a part of what the file holds, and the one that gets nothing
had all of it. -/
theorem read_prefix {got b : Bytes} {n : Nat} (hp : got <+: b) :
    got ++ (b.drop got.length).take n <+: b := by
  obtain ⟨rest, rfl⟩ := hp
  rw [List.drop_left]
  exact (List.prefix_append_right_inj got).mpr (List.take_prefix n rest)

theorem read_end {got b : Bytes} (hp : got <+: b) (h : b.drop got.length = []) : got = b := by
  obtain ⟨rest, rfl⟩ := hp
  rw [List.drop_left] at h
  rw [h, List.append_nil]

/-- A copy that has written `b` and has `left` to write, where readers have a part of `b`. -/
theorem Inv.copied {maps coming : List Bytes} {s : State} {b left : Bytes} (hi : Inv maps s)
    (hr : ∀ got, s.reader = .reading got → got <+: b) (hc : ∀ m ∈ coming, m ∈ maps)
    (hm : b ++ left ∈ maps) :
    Inv maps { s with file := some b, coming, writer := .copying left } where
  coming := hc
  file := by
    intro b' hb
    cases hb
    exact hm
  tested := fun _ => Option.some_ne_none b
  reading := fun got hg => ⟨b, rfl, hr got hg⟩
  finished := hi.finished

theorem inv_step {maps : List Bytes} {s t : State} {l : Label} (hi : Inv maps s)
    (hok : Untorn s l) (h : step l s = some t) : Inv maps t := by
  cases l with
  | truncate =>
    simp only [step] at h
    split at h
    · next m coming hw hc =>
      cases h
      have hm : ∀ x ∈ m :: coming, x ∈ maps := hc ▸ hi.coming
      refine hi.copied ?_ (fun x hx => hm x (List.mem_cons_of_mem m hx)) (hm m List.mem_cons_self)
      intro got hr
      rw [Untorn, hr] at hok
      cases (show got = [] from hok)
      exact List.nil_prefix
    · cases h
  | append k =>
    simp only [step] at h
    split at h
    · next left b hw hf =>
      cases h
      refine hi.copied ?_ hi.coming ?_
      · intro got hr
        obtain ⟨b', hb', hp⟩ := hi.reading got hr
        cases hf.symm.trans hb'
        exact hp.trans (List.prefix_append b _)
      · have hmem := hi.file b hf
        rw [hw] at hmem
        rwa [List.append_assoc, List.take_append_drop]
    · cases h
  | close =>
    simp only [step] at h
    split at h
    · next hw =>
      cases h
      refine ⟨hi.coming, ?_, hi.tested, hi.reading, hi.finished⟩
      intro b hb
      have hmem := hi.file b hb
      rwa [hw] at hmem
    · cases h
  | test =>
    simp only [step] at h
    split at h
    · cases h
      refine ⟨hi.coming, hi.file, ?_, ?_, ?_⟩
      · intro hr hnone
        have hempty : s.file.getD [] = [] := by rw [show s.file = none from hnone]; rfl
        simp [hempty] at hr
      · intro got hr
        simp only at hr
        split at hr <;> cases hr
      · intro got hr
        simp only at hr
        split at hr <;> cases hr
    · cases h
  | openFile =>
    simp only [step] at h
    split at h
    · next b hr hf =>
      cases h
      refine ⟨hi.coming, hi.file, ?_, ?_, ?_⟩
      · intro hr
        cases hr
      · intro got hr
        cases hr
        exact ⟨b, hf, List.nil_prefix⟩
      · intro got hr
        cases hr
    · next hr hf => exact absurd hf (hi.tested hr)
    · cases h
  | read n =>
    simp only [step] at h
    split at h
    · next got b hr hf =>
      obtain ⟨b', hb', hp⟩ := hi.reading got hr
      cases hf.symm.trans hb'
      split at h
      · cases h
      next hn =>
      split at h
      · next hend =>
        cases h
        refine ⟨hi.coming, hi.file, ?_, ?_, ?_⟩
        · intro hr
          cases hr
        · intro got hr
          cases hr
        · intro got' hr'
          cases hr'
          have hdrop : b.drop got.length = [] := (List.take_eq_nil_iff.mp hend).resolve_left hn
          have hleft : s.writer.left = [] := by
            rw [Untorn, hr, hf] at hok
            exact hok.resolve_right fun hne => hne hdrop
          have hmem := hi.file b hf
          rw [hleft, List.append_nil] at hmem
          exact read_end hp hdrop ▸ hmem
      · next chunk _ =>
        cases h
        refine ⟨hi.coming, hi.file, ?_, ?_, ?_⟩
        · intro hr
          cases hr
        · intro got' hr
          cases hr
          exact ⟨b, hf, read_prefix hp⟩
        · intro got' hr
          cases hr
    · cases h
  | nextCapture =>
    simp only [step] at h
    split at h
    all_goals cases h
    all_goals exact ⟨hi.coming, hi.file, by simp, by simp, by simp⟩

/-- **The annotator sees a whole pod map as long as no copy tears a reading**: in
every state of such a run, load_names has read the lines of one of the maps
published, and an address listed in all of them is not external. -/
theorem untorn_reads_whole_map (file : Option Bytes) (coming : List Bytes) {s : State}
    (h : Reaches step Untorn (start file coming) s) : WholeMap (file.toList ++ coming) s := by
  have hi : Inv (file.toList ++ coming) s :=
    Reaches.invariant (Inv _) h (inv_start file coming) inv_step
  intro got hr
  have hmem := hi.finished got hr
  exact ⟨⟨got, hmem, fun _ => Iff.rfl⟩, fun loads cache written ip hl =>
    label_ne_external (hl got hmem) cache written⟩

/-! ## A minute on one node -/

/-- A line of the map as jq prints it. -/
def jsonLine (pod ip : String) : Bytes :=
  encode ("\x7b\"node\":\"node-a\",\"host_ip\":\"10.0.1.5\",\"pod_ip\":\"" ++ ip ++
    "\",\"namespace\":\"default\",\"pod\":\"" ++ pod ++
    "\",\"phase\":\"Running\",\"host_network\":false\x7d")

def firstMap : Bytes := jsonLine "exec-3" "10.0.4.17" ++ [10]

/-- A second executor has started. -/
def secondMap : Bytes := firstMap ++ jsonLine "exec-4" "10.0.4.18" ++ [10]

def loadsLine (line : Bytes) : Option Pod :=
  if line = jsonLine "exec-3" "10.0.4.17" then some executor
  else if line = jsonLine "exec-4" "10.0.4.18" then
    some { executor with podIp := some "10.0.4.18", pod := some "exec-4" }
  else none

/-- A refresh that the reading overtakes and waits for. -/
def overlapping : List Label :=
  [.test, .truncate, .openFile, .append 100, .read 60, .append 400, .read 8192, .close, .read 8192]

theorem overlapping_whole : ∃ s, exec step overlapping (start (some firstMap) [secondMap]) = some s ∧
    s.reader = .finished secondMap ∧ WholeMap [firstMap, secondMap] s := by
  obtain ⟨s, hs, hp⟩ := (Option.any_eq_true
    (fun s : State => s.reader = .finished secondMap)
    (exec step overlapping (start (some firstMap) [secondMap]))).mp (by decide +kernel)
  exact ⟨s, hs, of_decide_eq_true hp, untorn_reads_whole_map (some firstMap) [secondMap]
    (exec_reaches step Untorn (by decide +kernel) hs)⟩

/-- The refresh empties the file between the test and the open. -/
def emptied : List Label := [.test, .truncate, .openFile, .read 8192]

/-- load_names reads no line at all, and an executor of both maps is external. -/
theorem emptied_external :
    ¬ ∀ s, Reaches step anyStep (start (some firstMap) [secondMap]) s →
      WholeMap [firstMap, secondMap] s := by
  intro hevery
  obtain ⟨s, hs, hp⟩ := (Option.any_eq_true (fun s : State => s.reader = .finished [])
    (exec step emptied (start (some firstMap) [secondMap]))).mp (by decide +kernel)
  have hwhole := hevery s (exec_reaches step anyStep (along_anyStep _ _) hs)
  have hlisted : ∀ m ∈ [firstMap, secondMap], Lists loadsLine m "10.0.4.17" := by
    unfold Lists
    decide +kernel
  exact (hwhole [] (of_decide_eq_true hp)).2 loadsLine none true "10.0.4.17" hlisted
    (by decide +kernel)

end BigDataPlatform.PacketCapture.PodMapFile
