import BigDataPlatform.Lib.FileSystem
import BigDataPlatform.Lib.JsonStrings
import BigDataPlatform.Lib.OrderedDict
import BigDataPlatform.Lib.Transition
import BigDataPlatform.PcapAnnotate.LoadNames

/-! # pcap-annotate.py: the file of the IP cache

`load_names` as it reads and writes the cache, annotator after annotator: the
read in pieces, the dump into `.tmp`, `os.replace`, the errors that are passed
over, and kills anywhere. -/
namespace BigDataPlatform.PcapAnnotate.CacheRuns
open Lib Lib.Pack Lib.FileSystem Lib.OrderedDict Lib.LastWrite Lib.JsonStrings Lib.Transition

/-! ## names as a dict -/

abbrev NameDict := Dict String String

def builtinDict : NameDict := Dict.empty.set nodeLocalDns "kube-system/node-local-dns"

/-- One turn of the loop over the pod map. -/
def readLineDict (names : NameDict) : Option Pod → NameDict
  | none => names
  | some p =>
    match truthy p.podIp with
    | none => names
    | some ip =>
      let names := names.set ip (podLabel p)
      match truthy p.hostIp with
      | none => names
      | some hostIp => names.set hostIp (nodeLabel p)

/-- `names.update(cached)`, then the loop. -/
def namesDict (cached : Option NameDict) (podmap : PodMap) : NameDict :=
  podmap.foldl readLineDict (cached.elim builtinDict fun d => builtinDict.update d.items)

/-! ## The text of the cache -/

def ofText (w : Item) : String × String := (String.ofList w.1, String.ofList w.2)

def toText (w : String × String) : Item := (w.1.toList, w.2.toList)

/-- `json.dump(names, f)`. -/
def dump (names : NameDict) : Bytes := JsonStrings.encode (dumps (names.items.map toText))

/-- `json.load(f)` of these bytes, `none` where it raises `ValueError`. -/
def load (bs : Bytes) : Option NameDict :=
  ((JsonStrings.decode bs).bind loads).map fun ws => Dict.empty.update (ws.map ofText)

/-- What a file holds, in load_names' terms. -/
def cacheFile (content : Option Bytes) : CacheFile :=
  match content.map load with
  | none => .absent
  | some none => .unreadable
  | some (some d) => .holds d.get

/-! ## The annotators -/

inductive File where
  | cache
  | tmp
deriving DecidableEq

/-- A pod map, and whether the cache could be read by the annotator that has it. -/
structure Turn where
  podmap : PodMap
  readable : Bool
deriving DecidableEq

inductive Phase where
  /-- In `json.load`, with what it has read so far. -/
  | reads (fd : Nat) (got : Bytes)
  /-- Before `open(tmp, "w")`. -/
  | opens (names : NameDict)
  | writes (names : NameDict) (fd pos : Nat)
  /-- Before `os.replace`. -/
  | replaces (names : NameDict)
  /-- In main, whether or not the cache was written. -/
  | labels (names : NameDict)

def Phase.names : Phase → Option NameDict
  | .reads _ _ => none
  | .opens names | .writes names _ _ | .replaces names | .labels names => some names

structure Annotator where
  turn : Turn
  phase : Phase

structure Files where
  fs : Fs File
  /-- The turns whose `os.replace` has been, the oldest first. -/
  turns : List Turn

/-- `os.path.exists(cache_path)`, and the `open` of it. -/
def starts (fs : Fs File) (podmap : PodMap) : Annotator :=
  ⟨⟨podmap, true⟩, match fs.lookup .cache with
    | some fd => .reads fd []
    | none => .opens (namesDict none podmap)⟩

inductive Act where
  | read (n : Nat)
  /-- `OSError` at the open or at a read. -/
  | unreadable
  | create (now : Nat)
  | write (k now : Nat)
  | close
  | replace
  /-- `OSError` at the open, a write, the close or the replace. -/
  | fails

def act : Act → Files → Annotator → Option (Files × Annotator)
  | .read n, s, ⟨t, .reads fd got⟩ =>
    if n = 0 then none
    else match ((s.fs.node fd).bytes.drop got.length).take n with
      | [] => some (s, ⟨t, .opens (namesDict (load got) t.podmap)⟩)
      | chunk => some (s, ⟨t, .reads fd (got ++ chunk)⟩)
  | .unreadable, s, ⟨t, .reads _ _⟩ =>
    some (s, ⟨{ t with readable := false }, .opens (namesDict none t.podmap)⟩)
  | .create now, s, ⟨t, .opens names⟩ =>
    some ({ s with fs := s.fs.truncate .tmp now }, ⟨t, .writes names (s.fs.openFd .tmp) 0⟩)
  | .write k now, s, ⟨t, .writes names fd pos⟩ =>
    if pos + k ≤ (dump names).length then
      some ({ s with fs := s.fs.write fd pos (((dump names).drop pos).take k) now },
        ⟨t, .writes names fd (pos + k)⟩)
    else none
  | .close, s, ⟨t, .writes names _ pos⟩ =>
    if pos = (dump names).length then some (s, ⟨t, .replaces names⟩) else none
  | .replace, s, ⟨t, .replaces names⟩ =>
    if (s.fs.lookup .tmp).isSome then
      some ({ s with fs := s.fs.rename .tmp .cache, turns := s.turns ++ [t] }, ⟨t, .labels names⟩)
    else none
  | .fails, s, ⟨t, .opens names⟩ => some (s, ⟨t, .labels names⟩)
  | .fails, s, ⟨t, .writes names _ _⟩ => some (s, ⟨t, .labels names⟩)
  | .fails, s, ⟨t, .replaces names⟩ => some (s, ⟨t, .labels names⟩)
  | _, _, _ => none

structure Sys where
  files : Files
  running : Nat → Option Annotator

def Sys.begin : Sys := ⟨⟨.empty, []⟩, fun _ => none⟩

inductive Label where
  | start (i : Nat) (podmap : PodMap)
  | acts (i : Nat) (x : Act)
  /-- It exits, or is killed. -/
  | ends (i : Nat)

def step : Label → Sys → Option Sys
  | .start i podmap, s =>
    if (s.running i).isNone then
      some { s with running := Function.update s.running i (some (starts s.files.fs podmap)) }
    else none
  | .acts i x, s => do
    let (files, a) ← act x s.files (← s.running i)
    return ⟨files, Function.update s.running i (some a)⟩
  | .ends i, s => some { s with running := Function.update s.running i none }

/-- An annotator starts when no other runs: not while a sweep by hand is under
way beside the loop's. -/
def Alone (s : Sys) : Label → Prop
  | .start _ _ => ∀ j, s.running j = none
  | _ => True

/-! ## What the cache stands for -/

/-- The names of an annotator that finds the cache so. -/
def Turn.names (t : Turn) (file : CacheFile) : Names :=
  (loadNames t.podmap (some (if t.readable then file else .unreadable)) true).1

/-- The cache after these turns, each writing it; absent at first. -/
def remembered (turns : List Turn) : CacheFile :=
  turns.foldl (fun file t => .holds (t.names file)) .absent

variable {s t : Files} {a b : Annotator} {i : Nat} {l : Label} {x : Act}

/-- **What is dumped loads as it was.** -/
theorem load_dump (names : NameDict) : load (dump names) = some names := by
  have htext : (names.items.map toText).map ofText = names.items := by
    rw [List.map_map]
    refine (List.map_congr_left fun w _ => ?_).trans (List.map_id _)
    simp [ofText, toText]
  rw [load, dump, decode_encode (ascii_dumps _), Option.bind_some, loads_dumps, Option.map_some, htext,
    Dict.update_items]

theorem get_readLineDict (names : NameDict) (line : Option Pod) :
    (readLineDict names line).get = readLine names.get line := by
  cases line with
  | none => rfl
  | some p =>
    simp only [readLineDict, readLine]
    cases truthy p.podIp with
    | none => rfl
    | some ip =>
      cases truthy p.hostIp with
      | none => exact Dict.get_set names ip _
      | some hostIp =>
        show ((names.set ip (podLabel p)).set hostIp (nodeLabel p)).get = _
        rw [Dict.get_set, Dict.get_set]
        rfl

theorem get_foldl_readLineDict (podmap : PodMap) (names : NameDict) :
    (podmap.foldl readLineDict names).get = podmap.foldl readLine names.get := by
  induction podmap generalizing names with
  | nil => rfl
  | cons line podmap ih => rw [List.foldl_cons, ih, get_readLineDict, List.foldl_cons]

theorem get_builtinDict : builtinDict.get = builtin := Dict.get_set _ _ _

/-- The dict of a run is the names that load_names makes. -/
theorem get_namesDict (cached : Option NameDict) (podmap : PodMap) : (namesDict cached podmap).get =
    (loadNames podmap (some (cached.elim .unreadable fun d => .holds d.get)) true).1 := by
  rw [namesDict, get_foldl_readLineDict]
  show podmap.foldl readLine _ = podmap.foldl readLine _
  congr 1
  cases cached with
  | none => exact get_builtinDict
  | some d =>
    funext ip
    exact (Dict.get_update_items builtinDict d ip).trans (by rw [get_builtinDict]; rfl)

theorem remembered_snoc (turns : List Turn) (t : Turn) :
    remembered (turns ++ [t]) = .holds (t.names (remembered turns)) := by
  rw [remembered, List.foldl_append]
  rfl

theorem cacheAfter_snoc (runs : List PodMap) (podmap : PodMap) :
    cacheAfter (runs ++ [podmap]) = .holds (loadNames podmap (some (cacheAfter runs)) true).1 := by
  rw [cacheAfter, List.foldl_append]
  rfl

/-- Where every cache could be read, the cache is that of the runs on these pod maps. -/
theorem remembered_readable {turns : List Turn} (h : ∀ t ∈ turns, t.readable = true) :
    remembered turns = cacheAfter (turns.map (·.podmap)) := by
  induction turns using List.reverseRecOn with
  | nil => rfl
  | append_singleton turns t ih =>
    rw [List.forall_mem_append] at h
    have ht : t.readable = true := h.2 t (List.mem_singleton_self t)
    rw [remembered_snoc, ih h.1, Turn.names, ht, List.map_append, List.map_singleton, cacheAfter_snoc]
    rfl

/-! ## One annotator at a time -/

/-- The cache is as the last annotator that replaced it has dumped it. -/
def Whole (s : Files) : Prop :=
  s.fs.read .cache = none ∧ s.turns = [] ∨
    ∃ names, s.fs.read .cache = some (dump names) ∧ remembered s.turns = .holds names.get

/-- Where a run is, if it is the only one. -/
def Holds (s : Files) (a : Annotator) : Prop :=
  match a.phase with
  | .reads fd got => a.turn.readable = true ∧ s.fs.lookup .cache = some fd ∧ got <+: (s.fs.node fd).bytes
  | .opens names => names.get = a.turn.names (remembered s.turns)
  | .writes names fd pos => names.get = a.turn.names (remembered s.turns) ∧ s.fs.lookup .tmp = some fd ∧
      pos ≤ (dump names).length ∧ (s.fs.node fd).bytes = (dump names).take pos
  | .replaces names => names.get = a.turn.names (remembered s.turns) ∧ s.fs.read .tmp = some (dump names)
  | .labels names => ∃ earlier, (earlier = s.turns ∨ s.turns = earlier ++ [a.turn]) ∧
      names.get = a.turn.names (remembered earlier)

theorem Whole.cacheFile (h : Whole s) : cacheFile (s.fs.read .cache) = remembered s.turns := by
  rcases h with ⟨hread, hturns⟩ | ⟨names, hread, hremembered⟩
  · rw [hread, hturns]
    rfl
  · rw [hread, hremembered, CacheRuns.cacheFile, Option.map_some, load_dump]

theorem holds_starts (h : Whole s) (podmap : PodMap) : Holds s (starts s.fs podmap) := by
  rw [starts]
  cases hcache : s.fs.lookup .cache with
  | some fd => exact ⟨rfl, hcache, List.nil_prefix⟩
  | none =>
    have hfile := h.cacheFile
    rw [Fs.read, hcache] at hfile
    show (namesDict none podmap).get = _
    rw [get_namesDict, Turn.names, ← hfile]
    rfl

/-- A read that gets nothing is at the end. -/
theorem eq_of_drop_take {got bytes : Bytes} {n : Nat} (hn : n ≠ 0) (hgot : got <+: bytes)
    (h : (bytes.drop got.length).take n = []) : got = bytes := by
  obtain ⟨rest, rfl⟩ := hgot
  rw [List.drop_left] at h
  rcases List.take_eq_nil_iff.mp h with h | h
  · exact absurd h hn
  · rw [h, List.append_nil]

/-- The names after a read to the end of the cache. -/
theorem names_of_cache {turn : Turn} {fd : Nat} (hw : Whole s) (hreadable : turn.readable = true)
    (hcache : s.fs.lookup .cache = some fd) :
    (namesDict (load (s.fs.node fd).bytes) turn.podmap).get = turn.names (remembered s.turns) := by
  have hread : s.fs.read .cache = some (s.fs.node fd).bytes := Fs.read_of_lookup hcache
  rcases hw with ⟨habsent, -⟩ | ⟨names, hdump, hremembered⟩
  · rw [hread] at habsent
    cases habsent
  · rw [hread] at hdump
    rw [Option.some.inj hdump, load_dump, get_namesDict, Turn.names, hreadable, hremembered]
    rfl

theorem act_reads {turn : Turn} {fd : Nat} {got : Bytes} (hw : Whole s) (ha : Holds s ⟨turn, .reads fd got⟩)
    (h : act x s ⟨turn, .reads fd got⟩ = some (t, b)) : Whole t ∧ Holds t b := by
  obtain ⟨hreadable, hcache, hgot⟩ := ha
  cases x with
  | read n =>
    rw [act] at h
    split at h
    · cases h
    · next hn =>
      split at h
      · next hend =>
        cases h
        rw [eq_of_drop_take hn hgot hend]
        exact ⟨hw, names_of_cache hw hreadable hcache⟩
      · cases h
        obtain ⟨rest, hrest⟩ := hgot
        refine ⟨hw, hreadable, hcache, ?_⟩
        rw [← hrest, List.drop_left]
        exact (List.prefix_append_right_inj got).mpr (List.take_prefix n rest)
  | unreadable =>
    cases h
    exact ⟨hw, get_namesDict none turn.podmap⟩
  | _ => cases h

theorem whole_congr (hread : t.fs.read .cache = s.fs.read .cache) (hturns : t.turns = s.turns)
    (hw : Whole s) : Whole t := by
  rwa [Whole, hread, hturns]

theorem act_opens {turn : Turn} {names : NameDict} (hw : Whole s) (ha : Holds s ⟨turn, .opens names⟩)
    (h : act x s ⟨turn, .opens names⟩ = some (t, b)) : Whole t ∧ Holds t b := by
  cases x with
  | create now =>
    cases h
    refine ⟨whole_congr (Fs.read_truncate_ne now (by decide)) rfl hw, ha, ?_, Nat.zero_le _, ?_⟩
    · exact (Fs.lookup_truncate ..).trans (if_pos rfl)
    · exact congrArg Inode.bytes ((Fs.node_truncate ..).trans (if_pos rfl))
  | fails =>
    cases h
    exact ⟨hw, s.turns, Or.inl rfl, ha⟩
  | _ => cases h

theorem act_writes {turn : Turn} {names : NameDict} {fd pos : Nat} (hw : Whole s)
    (ha : Holds s ⟨turn, .writes names fd pos⟩) (h : act x s ⟨turn, .writes names fd pos⟩ = some (t, b)) :
    Whole t ∧ Holds t b := by
  obtain ⟨hnames, htmp, hpos, hbytes⟩ := ha
  cases x with
  | write k now =>
    rw [act] at h
    split at h
    · next hk =>
      cases h
      refine ⟨whole_congr (Fs.read_write_ne pos now _ htmp (by decide)) rfl hw, hnames, htmp, hk, ?_⟩
      rw [Fs.node_write, if_pos rfl]
      show Fs.writeAt (s.fs.node fd).bytes pos _ = _
      rw [hbytes, Fs.writeAt_take hpos]
    · cases h
  | close =>
    rw [act] at h
    split at h
    · next hend =>
      cases h
      refine ⟨hw, hnames, ?_⟩
      rw [Fs.read_of_lookup htmp, hbytes, hend, List.take_length]
    · cases h
  | fails =>
    cases h
    exact ⟨hw, s.turns, Or.inl rfl, hnames⟩
  | _ => cases h

theorem act_replaces {turn : Turn} {names : NameDict} (hw : Whole s)
    (ha : Holds s ⟨turn, .replaces names⟩) (h : act x s ⟨turn, .replaces names⟩ = some (t, b)) :
    Whole t ∧ Holds t b := by
  obtain ⟨hnames, htmp⟩ := ha
  cases x with
  | replace =>
    rw [act] at h
    split at h
    · next hthere =>
      cases h
      obtain ⟨fd, hfd⟩ := Option.isSome_iff_exists.mp hthere
      rw [Fs.read_of_lookup hfd] at htmp
      refine ⟨Or.inr ⟨names, ?_, ?_⟩, s.turns, Or.inr rfl, hnames⟩
      · rw [Fs.read_rename .cache .cache hfd, if_pos rfl, htmp]
      · rw [remembered_snoc, hnames]
    · cases h
  | fails =>
    cases h
    exact ⟨hw, s.turns, Or.inl rfl, hnames⟩
  | _ => cases h

/-- What one step of the only annotator keeps. -/
theorem act_holds (hw : Whole s) (ha : Holds s a) (h : act x s a = some (t, b)) : Whole t ∧ Holds t b := by
  obtain ⟨turn, phase⟩ := a
  cases phase with
  | reads fd got => exact act_reads hw ha h
  | opens names => exact act_opens hw ha h
  | writes names fd pos => exact act_writes hw ha h
  | replaces names => exact act_replaces hw ha h
  | labels names => cases x <;> cases h

/-! ## Every run -/

structure Inv (s : Sys) : Prop where
  one : ∀ i j a b, s.running i = some a → s.running j = some b → i = j
  whole : Whole s.files
  holds : ∀ i a, s.running i = some a → Holds s.files a

theorem inv_begin : Inv Sys.begin :=
  ⟨fun _ _ _ _ h => (by cases h), Or.inl ⟨rfl, rfl⟩, fun _ _ h => (by cases h)⟩

variable {sys sys' : Sys}

/-- The annotator of one index, and no other, has gone on. -/
theorem inv_update {files : Files} (hothers : ∀ j a, sys.running j = some a → j = i)
    (hw : Whole files) (ha : Holds files a) : Inv ⟨files, Function.update sys.running i (some a)⟩ := by
  have honly : ∀ j b, Function.update sys.running i (some a) j = some b → j = i ∧ b = a := by
    intro j b hb
    by_cases hj : j = i
    · rw [hj, Function.update_self] at hb
      exact ⟨hj, (Option.some.inj hb).symm⟩
    · rw [Function.update_of_ne hj] at hb
      exact absurd (hothers j b hb) hj
  refine ⟨fun j k b c hb hc => ?_, hw, fun j b hb => ?_⟩
  · rw [(honly j b hb).1, (honly k c hc).1]
  · rw [(honly j b hb).2]
    exact ha

theorem inv_step (hi : Inv sys) (hok : Alone sys l) (h : step l sys = some sys') : Inv sys' := by
  cases l with
  | start i podmap =>
    rw [step] at h
    split at h
    · cases h
      refine inv_update (fun j a hj => ?_) hi.whole (holds_starts hi.whole podmap)
      rw [hok j] at hj
      cases hj
    · cases h
  | acts i x =>
    obtain ⟨a, ha, h⟩ := Option.bind_eq_some_iff.mp h
    obtain ⟨⟨files, b⟩, hb, h⟩ := Option.bind_eq_some_iff.mp h
    cases h
    obtain ⟨hw, hholds⟩ := act_holds hi.whole (hi.holds i a ha) hb
    exact inv_update (fun j b hj => hi.one j i b a hj ha) hw hholds
  | ends i =>
    cases h
    have hleft : ∀ j a, Function.update sys.running i none j = some a → sys.running j = some a := by
      intro j a ha
      by_cases hj : j = i
      · rw [hj, Function.update_self] at ha
        cases ha
      · rwa [Function.update_of_ne hj] at ha
    exact ⟨fun j k a b ha hb => hi.one j k a b (hleft j a ha) (hleft k b hb), hi.whole,
      fun j a ha => hi.holds j a (hleft j a ha)⟩

theorem Holds.names {names : NameDict} (h : Holds s a) (hnames : a.phase.names = some names) :
    ∃ earlier, (earlier = s.turns ∨ s.turns = earlier ++ [a.turn]) ∧
      names.get = a.turn.names (remembered earlier) := by
  obtain ⟨turn, phase⟩ := a
  cases phase with
  | reads fd got => cases hnames
  | opens d =>
    cases hnames
    exact ⟨s.turns, Or.inl rfl, h⟩
  | writes d fd pos =>
    cases hnames
    exact ⟨s.turns, Or.inl rfl, h.1⟩
  | replaces d =>
    cases hnames
    exact ⟨s.turns, Or.inl rfl, h.1⟩
  | labels d =>
    cases hnames
    exact h

/-- **The cache's file is the cache of load_names.** Whatever annotators are
killed and whatever fails, as long as they run one at a time: the file is that
of the turns that have replaced it, never a part of a dump; the names of an
annotator are load_names' on the cache of the turns before it; and where every
cache could be read, those are the names of the last of the runs. -/
theorem cacheRuns_refine (h : Reaches step Alone Sys.begin sys) :
    cacheFile (sys.files.fs.read .cache) = remembered sys.files.turns ∧
    ∀ i a names, sys.running i = some a → a.phase.names = some names → ∃ earlier,
      (earlier = sys.files.turns ∨ sys.files.turns = earlier ++ [a.turn]) ∧
      names.get = a.turn.names (remembered earlier) ∧
      ((∀ t ∈ earlier ++ [a.turn], t.readable = true) →
        names.get = namesOfRun (earlier.map (·.podmap)) a.turn.podmap) := by
  have hi : Inv sys := h.invariant Inv inv_begin inv_step
  refine ⟨hi.whole.cacheFile, fun i a names ha hnames => ?_⟩
  obtain ⟨earlier, hturns, hget⟩ := (hi.holds i a ha).names hnames
  refine ⟨earlier, hturns, hget, fun hreadable => ?_⟩
  rw [List.forall_mem_append] at hreadable
  have hown : a.turn.readable = true := hreadable.2 _ (List.mem_singleton_self _)
  rw [hget, Turn.names, hown, namesOfRun, ← remembered_readable hreadable.1]
  rfl

/-- One annotator, from its start to main. -/
def firstRun : List Label := [
  .start 0 [some executor], .acts 0 (.create 1), .acts 0 (.write 105 2), .acts 0 .close, .acts 0 .replace]

/-- Its file loads as what it has made of its pod map. -/
theorem firstRun_cached : ∃ t, exec step firstRun Sys.begin = some t ∧
    cacheFile (t.files.fs.read .cache) = cacheAfter [[some executor]] := by
  have hturns : (exec step firstRun Sys.begin).map (·.files.turns) = some [⟨[some executor], true⟩] := by
    decide +kernel
  obtain ⟨t, ht, hturns⟩ := Option.map_eq_some_iff.mp hturns
  have halong : Along step Alone firstRun Sys.begin :=
    ⟨fun _ => rfl, fun _ _ => ⟨trivial, fun _ _ => ⟨trivial, fun _ _ => ⟨trivial, fun _ _ =>
      ⟨trivial, fun _ _ => trivial⟩⟩⟩⟩⟩
  refine ⟨t, ht, (cacheRuns_refine (exec_reaches step Alone halong ht)).1.trans ?_⟩
  rw [hturns]
  rfl

/-- A second annotator beside the first truncates what that one writes, and
publishes its own dump with the end of the other's behind it. -/
def overlap : List Label := [
  .start 0 [some executor], .start 1 [], .acts 0 (.create 1), .acts 1 (.create 2), .acts 0 (.write 105 3),
  .acts 1 (.write 47 4), .acts 1 .close, .acts 1 .replace]

example : (exec step overlap Sys.begin).map (fun s => (s.files.fs.read .cache).map fun bs => (load bs).isNone) =
    some (some true) := by
  decide +kernel

end BigDataPlatform.PcapAnnotate.CacheRuns
