import BigDataPlatform.PodLogs.Pipeline

/-! # Which values the level label takes

The expressions capture words; the replacements rewrite the words they know and
leave every other as it is. -/
namespace BigDataPlatform.PodLogs
open Lib.Regex

def levels : List String := ["trace", "debug", "info", "warn", "error", "fatal"]

/-- The word a stage's expression captures in this line. -/
def captured (expression : Re) (line : String) : Option String :=
  (expression.find line.toList).map fun c => String.ofList c.text

/-- One of a replacement's words, in either case. -/
def known (words : List String) (w : String) : Bool :=
  w.toList.map Char.toLower ∈ words.map String.toList

def Recognised (w : String) : Prop := ∃ r ∈ levelReplacements, known r.1 w

instance (w : String) : Decidable (Recognised w) :=
  inferInstanceAs (Decidable (∃ _ ∈ levelReplacements, _))

/-! ## The stages on the level -/

theorem regexStage_frame (r : Re) (e : Entry) :
    (regexStage r e).labels = e.labels ∧ (regexStage r e).line = e.line ∧
      (regexStage r e).extracted "level" = (captured r e.line).or (e.extracted "level") := by
  rw [regexStage, captured]
  cases r.find e.line.toList with
  | none => exact ⟨rfl, rfl, rfl⟩
  | some c => exact ⟨rfl, rfl, by simp⟩

/-- The word of the last expression that matches. -/
def lastCaptured (rs : List Re) (line : String) : Option String :=
  rs.reverse.findSome? fun r => captured r line

theorem foldl_regexStage (rs : List Re) (e : Entry) :
    (rs.foldl (fun e r => regexStage r e) e).labels = e.labels ∧
      (rs.foldl (fun e r => regexStage r e) e).line = e.line ∧
      (rs.foldl (fun e r => regexStage r e) e).extracted "level" =
        (lastCaptured rs e.line).or (e.extracted "level") := by
  induction rs generalizing e with
  | nil => exact ⟨rfl, rfl, rfl⟩
  | cons r rs ih =>
    obtain ⟨hl, hline, hx⟩ := regexStage_frame r e
    obtain ⟨ihl, ihline, ihx⟩ := ih (regexStage r e)
    refine ⟨ihl.trans hl, ihline.trans hline, ihx.trans ?_⟩
    rw [hx, hline, ← Option.or_assoc]
    congr 1
    rw [lastCaptured, lastCaptured, List.reverse_cons, List.findSome?_append]
    simp

theorem labelsStage_extracted (names : List String) (e : Entry) :
    (labelsStage names e).extracted = e.extracted := rfl

theorem labelsStage_other {names : List String} {e : Entry} {name : String} (h : name ∉ names) :
    (labelsStage names e).labels name = e.labels name := by
  rw [labelsStage]
  simp only
  generalize e.labels = labels
  induction names generalizing labels with
  | nil => rfl
  | cons n names ih =>
    rw [List.mem_cons, not_or] at h
    rw [List.foldl_cons, ih h.2]
    cases e.extracted n with
    | none => rfl
    | some v => exact Function.update_of_ne h.1 _ _

theorem labelsStage_level (e : Entry) :
    (labelsStage ["level"] e).labels "level" = (e.extracted "level").or (e.labels "level") := by
  simp only [labelsStage, List.foldl_cons, List.foldl_nil]
  cases e.extracted "level" with
  | none => rfl
  | some v => exact Function.update_self ..

theorem jsonStage_frame (json : Json) (e : Entry) :
    (jsonStage json e).labels = e.labels ∧
      (jsonStage json e).extracted "level" =
        match json e.line with
        | none => e.extracted "level"
        | some value => value "type" := by
  rw [jsonStage]
  cases json e.line with
  | none => exact ⟨rfl, rfl⟩
  | some value =>
    refine ⟨rfl, ?_⟩
    simp only [eventFields, List.foldl_cons, List.foldl_nil]
    exact Function.update_self ..

/-- A replacement on a word. -/
def replaceWord (r : List String × String) (w : String) : String := if known r.1 w then r.2 else w

theorem replaceStage_frame (r : List String × String) (e : Entry) :
    (replaceStage r.1 r.2 e).labels = e.labels ∧
      (replaceStage r.1 r.2 e).extracted "level" = (e.extracted "level").map (replaceWord r) := by
  rw [replaceStage]
  cases hv : e.extracted "level" with
  | none => exact ⟨rfl, hv⟩
  | some v =>
    simp only [find_whole]
    by_cases hw : v.toList.map Char.toLower ∈ r.1.map String.toList
    · rw [if_pos hw]
      refine ⟨rfl, ?_⟩
      simp [replaceWord, known, hw]
    · rw [if_neg hw]
      exact ⟨rfl, by simp [replaceWord, known, hw, hv]⟩

def normalise (rs : List (List String × String)) (w : String) : String :=
  rs.foldl (fun w r => replaceWord r w) w

theorem foldl_replaceStage (rs : List (List String × String)) (e : Entry) :
    (rs.foldl (fun e r => replaceStage r.1 r.2 e) e).labels = e.labels ∧
      (rs.foldl (fun e r => replaceStage r.1 r.2 e) e).extracted "level" =
        (e.extracted "level").map (normalise rs) := by
  induction rs generalizing e with
  | nil => exact ⟨rfl, (congrFun Option.map_id (e.extracted "level")).symm⟩
  | cons r rs ih =>
    obtain ⟨hl, hx⟩ := replaceStage_frame r e
    obtain ⟨ihl, ihx⟩ := ih (replaceStage r.1 r.2 e)
    refine ⟨ihl.trans hl, ihx.trans ?_⟩
    rw [hx, Option.map_map]
    rfl

/-! ## The whole pipeline -/

/-- The event exporter's JSON, where the line is that. -/
def event (json : Json) (target : Target) (line : String) : Option (String → Option String) :=
  if target.labels "app" = some "k8s-event-exporter" then json line else none

/-- What the replacements are given. -/
def foundLevel (json : Json) (target : Target) (line : String) : Option String :=
  match event json target line with
  | some value => value "type"
  | none => lastCaptured levelExpressions line

theorem Target.no_level (target : Target) : target.labels "level" = none := by
  by_contra h
  exact absurd (target.set_by_rule "level" h) (by decide)

/-- The label is the level found, through the replacements. -/
theorem pods_level (json : Json) (target : Target) (line : String) :
    (pods json target line).labels "level" =
      (foundLevel json target line).map (normalise levelReplacements) := by
  rw [pods]
  have hstart := foldl_regexStage levelExpressions ⟨target.labels, target.labels, line⟩
  generalize levelExpressions.foldl (fun e r => regexStage r e)
    ⟨target.labels, target.labels, line⟩ = e at *
  obtain ⟨hregex, hline, hfound⟩ : e.labels = target.labels ∧ e.line = line ∧
    e.extracted "level" = (lastCaptured levelExpressions line).or (target.labels "level") := hstart
  rw [target.no_level, Option.or_none] at hfound
  have hlabels : (eventStage json e).labels "level" = none := by
    rw [eventStage]
    split
    · rw [labelsStage_other (by decide), (jsonStage_frame json e).1, hregex]
      exact target.no_level
    · rw [hregex]
      exact target.no_level
  have hlevel : (eventStage json e).extracted "level" = foundLevel json target line := by
    rw [eventStage, foundLevel, event, hregex]
    split
    · rw [labelsStage_extracted, (jsonStage_frame json e).2, hline, hfound]
      cases json line <;> rfl
    · exact hfound
  obtain ⟨hl, hx⟩ := foldl_replaceStage levelReplacements (eventStage json e)
  rw [labelsStage_level, hx, hl, hlabels, hlevel, Option.or_none]

/-! ## Words the replacements know -/

theorem normalise_cons (r : List String × String) (rs : List (List String × String)) (w : String) :
    normalise (r :: rs) w = normalise rs (replaceWord r w) := rfl

/-- A word comes out as it is or as what some replacement writes. -/
theorem normalise_cases (rs : List (List String × String)) (w : String) :
    normalise rs w = w ∨ normalise rs w ∈ rs.map Prod.snd := by
  induction rs generalizing w with
  | nil => exact Or.inl rfl
  | cons r rs ih =>
    rw [normalise_cons, replaceWord, List.map_cons, List.mem_cons]
    split
    · rcases ih r.2 with h | h
      · exact Or.inr (Or.inl h)
      · exact Or.inr (Or.inr h)
    · rcases ih w with h | h
      · exact Or.inl h
      · exact Or.inr (Or.inr h)

theorem normalise_known {rs : List (List String × String)} {w : String}
    (h : ∃ r ∈ rs, known r.1 w) : normalise rs w ∈ rs.map Prod.snd := by
  induction rs generalizing w with
  | nil =>
    obtain ⟨r, hr, -⟩ := h
    cases hr
  | cons r rs ih =>
    rw [normalise_cons, replaceWord, List.map_cons, List.mem_cons]
    split
    · exact normalise_cases rs r.2
    · next hw =>
      obtain ⟨r', hr', hk⟩ := h
      rcases List.mem_cons.mp hr' with rfl | hr'
      · exact absurd hk hw
      · exact Or.inr (ih ⟨r', hr', hk⟩)

theorem normalise_unknown {rs : List (List String × String)} {w : String}
    (h : ∀ r ∈ rs, ¬ known r.1 w) : normalise rs w = w := by
  induction rs with
  | nil => rfl
  | cons r rs ih =>
    rw [normalise_cons, replaceWord, if_neg (h r List.mem_cons_self)]
    exact ih fun r' hr' => h r' (List.mem_cons_of_mem r hr')

theorem recognised_of_mem_levels : ∀ w ∈ levels, Recognised w := by decide +kernel

theorem normalise_mem_levels_iff {w : String} :
    normalise levelReplacements w ∈ levels ↔ Recognised w := by
  constructor
  · intro h
    by_contra hw
    have hk : ∀ r ∈ levelReplacements, ¬ known r.1 w := fun r hr hk => hw ⟨r, hr, hk⟩
    rw [normalise_unknown hk] at h
    exact hw (recognised_of_mem_levels w h)
  · intro h
    exact normalise_known h

/-! ## The property and what it asks of a line -/

/-- No level label, or one of the six. -/
def LevelOneOfSix (json : Json) (target : Target) (line : String) : Prop :=
  ∀ w, (pods json target line).labels "level" = some w → w ∈ levels

/-- The word that decides is a known one: the event's type on an event, and on
any other line what the last matching expression captures. -/
structure LevelRecognised (json : Json) (target : Target) (line : String) : Prop where
  onEvent : ∀ value w, event json target line = some value → value "type" = some w → Recognised w
  onLine : event json target line = none → ∀ before r after w,
    levelExpressions = before ++ r :: after → captured r line = some w →
    (∀ r' ∈ after, captured r' line = none) → Recognised w

theorem lastCaptured_eq_some_iff {rs : List Re} {line w : String} :
    lastCaptured rs line = some w ↔
      ∃ before r after, rs = before ++ r :: after ∧ captured r line = some w ∧
        ∀ r' ∈ after, captured r' line = none := by
  rw [lastCaptured, List.findSome?_eq_some_iff]
  constructor
  · intro h
    obtain ⟨after, r, before, hrs, hw, hafter⟩ := h
    refine ⟨before.reverse, r, after.reverse, ?_, hw, ?_⟩
    · rw [← List.reverse_reverse rs, hrs, List.reverse_append, List.reverse_cons, List.append_assoc,
        List.singleton_append]
    · intro r' hr'
      exact hafter r' (List.mem_reverse.mp hr')
  · intro h
    obtain ⟨before, r, after, rfl, hw, hafter⟩ := h
    refine ⟨after.reverse, r, before.reverse, ?_, hw, ?_⟩
    · rw [List.reverse_append, List.reverse_cons, List.append_assoc, List.singleton_append]
    · intro r' hr'
      exact hafter r' (List.mem_reverse.mp hr')

/-- **The level label is one of the six exactly where the deciding word is a
known one.** Any other word becomes the label as it is. -/
theorem levelOneOfSix_iff (json : Json) (target : Target) (line : String) :
    LevelOneOfSix json target line ↔ LevelRecognised json target line := by
  have hsix : LevelOneOfSix json target line ↔
      ∀ w, foundLevel json target line = some w → Recognised w := by
    simp only [LevelOneOfSix, pods_level, Option.map_eq_some_iff, forall_exists_index, and_imp]
    constructor
    · intro h w hw
      exact normalise_mem_levels_iff.mp (h _ w hw rfl)
    · intro h _ w hw hn
      exact hn ▸ normalise_mem_levels_iff.mpr (h w hw)
  rw [hsix, foundLevel]
  constructor
  · intro h
    constructor
    · intro value w he hw
      rw [he] at h
      exact h w hw
    · intro he before r after w hrs hw hafter
      rw [he] at h
      exact h w (lastCaptured_eq_some_iff.mpr ⟨before, r, after, hrs, hw, hafter⟩)
  · intro h
    cases he : event json target line with
    | some value => exact fun w hw => h.onEvent value w he hw
    | none =>
      intro w hw
      obtain ⟨before, r, after, hrs, hw, hafter⟩ := lastCaptured_eq_some_iff.mp hw
      exact h.onLine he before r after w hrs hw hafter

/-! ## Two expressions that only capture known words -/

theorem recognised_of_levelWord (words : List String) (h : ∀ w ∈ words, Recognised w) {r : Re}
    (hr : r.GroupIn fun w => w.map id ∈ words.map String.toList) {line w : String}
    (hw : captured r line = some w) : Recognised w := by
  obtain ⟨c, hc, rfl⟩ := Option.map_eq_some_iff.mp hw
  have hmem := Re.find_groupIn hr hc
  rw [List.map_id] at hmem
  obtain ⟨v, hv, hvc⟩ := List.mem_map.mp hmem
  rw [← hvc, String.ofList_toList]
  exact h v hv

theorem bareLevel_recognised {line w : String} (h : captured bareLevel line = some w) :
    Recognised w := by
  refine recognised_of_levelWord
    ["TRACE", "DEBUG", "INFO", "WARN", "WARNING", "ERROR", "FATAL"]
    (by decide +kernel) (Re.groupIn_seqs.mpr ?_) h
  simp only [List.forall_mem_cons]
  exact ⟨trivial, ⟨trivial, trivial⟩, trivial, ⟨trivial, trivial⟩, ⟨trivial, trivial⟩,
    groupIn_words id _, trivial, List.forall_mem_nil _⟩

theorem groupIn_digits {P : List Char → Prop} (n : Nat) : (digits n).GroupIn P := by
  refine Re.groupIn_seqs.mpr fun r hr => ?_
  rw [List.eq_of_mem_replicate hr]
  exact trivial

theorem klogLevel_recognised {line w : String} (h : captured klogLevel line = some w) :
    Recognised w := by
  refine recognised_of_levelWord ["I", "W", "E", "F"] (by decide +kernel)
    (Re.groupIn_seqs.mpr ?_) h
  simp only [List.forall_mem_cons, threePairs, Re.groupIn_seqs]
  exact ⟨trivial, groupIn_words id _, groupIn_digits 4, Re.groupIn_word id _,
    ⟨groupIn_digits 2, Re.groupIn_word id _, groupIn_digits 2, Re.groupIn_word id _,
      groupIn_digits 2, List.forall_mem_nil _⟩, List.forall_mem_nil _⟩

/-! ## A word that is no level -/

/-- The file of a container with no labels that matter. -/
def plainTarget : Target where
  labels := fun _ => none
  set_by_rule := by simp

/-- A logfmt line whose level is none of the six: the word becomes the label,
and with it a stream of its own. -/
theorem verbose_escapes :
    (pods (fun _ => none) plainTarget "level=verbose msg=ready").labels "level" = some "verbose" ∧
      ¬ LevelOneOfSix (fun _ => none) plainTarget "level=verbose msg=ready" := by
  have hlabel : (pods (fun _ => none) plainTarget "level=verbose msg=ready").labels "level" =
      some "verbose" := by decide +kernel
  refine ⟨hlabel, ?_⟩
  intro h
  exact absurd (h _ hlabel) (by decide)

end BigDataPlatform.PodLogs
