import BigDataPlatform.Lib.Regex
import Mathlib.Logic.Function.Basic

/-! # Relabelling

A list of rules that rewrite a set of labels in turn. A label that is not there
has the empty value, and to set the empty value is to remove the label. -/
namespace BigDataPlatform.Lib.Relabel
open Regex

/-! ## Matching all of a text -/

/-- Where a match can end, the preferred end first. -/
abbrev Matcher := Pos → List Pos

/-- Before as many characters as meet `p`, the fewest first. -/
def lazyMany (p : Char → Bool) (captured : Option Capture) (before : List Char) :
    List Char → List Pos
  | [] => [⟨before, [], captured⟩]
  | c :: rest =>
    ⟨before, c :: rest, captured⟩ :: if p c then lazyMany p captured (c :: before) rest else []

/-- `p+?`. -/
def lazyPlus (p : Char → Bool) : Matcher := fun s =>
  ((Re.one p).run s).flatMap fun t => lazyMany p t.captured t.before t.rest

def grouped (m : Matcher) : Matcher := fun s =>
  (m s).map fun t => { t with captured := some (captureBetween s t) }

def andThen (a b : Matcher) : Matcher := fun s => (a s).flatMap b

/-- `^(?:…)$`. -/
def fullMatch (m : Matcher) (text : List Char) : Option Pos :=
  (m ⟨[], text, none⟩).find? (·.rest.isEmpty)

/-- `.`. -/
def anyChar (c : Char) : Bool := c ≠ '\n'

/-- `(.*)`. -/
def anything : Matcher := (Re.group (.many anyChar)).run

/-! ## Rules -/

abbrev Labels := String → List Char

inductive Piece where
  | text (cs : List Char)
  | group

/-- A replacement with `$1` in place. -/
def expand (replacement : List Piece) (captured : List Char) : List Char :=
  replacement.flatMap fun
    | .text cs => cs
    | .group => captured

inductive Action where
  | replace
  | keep
deriving DecidableEq

/-- The defaults are those of a rule that does not say. -/
structure Rule where
  sourceLabels : List String := []
  separator : List Char := [';']
  regex : Matcher := anything
  targetLabel : String := ""
  replacement : List Piece := [.group]
  action : Action := .replace

/-- What the expression is matched against. -/
def Rule.value (r : Rule) (ls : Labels) : List Char :=
  r.separator.intercalate (r.sourceLabels.map ls)

def matched (t : Pos) : List Char := (t.captured.map Capture.text).getD []

def Rule.apply (r : Rule) (ls : Labels) : Option Labels :=
  match r.action, fullMatch r.regex (r.value ls) with
  | .replace, some t => some (Function.update ls r.targetLabel (expand r.replacement (matched t)))
  | .replace, none => some ls
  | .keep, some _ => some ls
  | .keep, none => none

/-- None where a rule drops the target. -/
def relabel (rules : List Rule) (ls : Labels) : Option Labels :=
  rules.foldlM (fun ls r => r.apply ls) ls

/-- What a rule that replaces gives its target. -/
def Rule.result (r : Rule) (ls : Labels) : List Char :=
  match fullMatch r.regex (r.value ls) with
  | some t => expand r.replacement (matched t)
  | none => ls r.targetLabel

/-! ## Rules in turn -/

variable {r : Rule} {rules : List Rule} {ls ls' out : Labels} {text : List Char} {m : Matcher} {n : String}

theorem apply_replace (ha : r.action = .replace) :
    r.apply ls = some (Function.update ls r.targetLabel (r.result ls)) := by
  rw [Rule.apply, Rule.result, ha]
  cases fullMatch r.regex (r.value ls) with
  | some t => rfl
  | none => exact congrArg some (Function.update_eq_self _ _).symm

theorem apply_keep (ha : r.action = .keep) :
    r.apply ls = if (fullMatch r.regex (r.value ls)).isSome then some ls else none := by
  rw [Rule.apply, ha]
  cases fullMatch r.regex (r.value ls) with
  | none => rfl
  | some t => rfl

theorem apply_other (h : r.apply ls = some ls') (hn : n ≠ r.targetLabel) : ls' n = ls n := by
  cases ha : r.action with
  | replace =>
    rw [apply_replace ha] at h
    cases h
    exact Function.update_of_ne hn _ _
  | keep =>
    rw [apply_keep ha] at h
    split at h
    · cases h
      rfl
    · cases h

theorem relabel_cons (r : Rule) (rules : List Rule) (ls : Labels) :
    relabel (r :: rules) ls = (r.apply ls).bind (relabel rules) := List.foldlM_cons

theorem relabel_append (rules more : List Rule) (ls : Labels) :
    relabel (rules ++ more) ls = (relabel rules ls).bind (relabel more) := List.foldlM_append

theorem relabel_keep (ha : r.action = .keep) (rules : List Rule) (ls : Labels) : relabel (r :: rules) ls =
    if (fullMatch r.regex (r.value ls)).isSome then relabel rules ls else none := by
  rw [relabel_cons, apply_keep ha]
  split
  · rfl
  · rfl

/-- Rules that replace drop no target. -/
theorem relabel_isSome (h : ∀ r ∈ rules, r.action = .replace) (ls : Labels) :
    ∃ out, relabel rules ls = some out := by
  induction rules generalizing ls with
  | nil => exact ⟨ls, rfl⟩
  | cons r rules ih =>
    rw [relabel_cons, apply_replace (h r List.mem_cons_self)]
    exact ih (fun r' hr' => h r' (List.mem_cons_of_mem r hr')) _

/-- **A label that no rule sets stays as it is.** -/
theorem relabel_other (h : relabel rules ls = some out) (hn : ∀ r ∈ rules, n ≠ r.targetLabel) :
    out n = ls n := by
  induction rules generalizing ls with
  | nil =>
    cases h
    rfl
  | cons r rules ih =>
    rw [relabel_cons] at h
    obtain ⟨mid, hmid, hrest⟩ := Option.bind_eq_some_iff.mp h
    have hlater := ih hrest fun r' hr' => hn r' (List.mem_cons_of_mem r hr')
    exact hlater.trans (apply_other hmid (hn r List.mem_cons_self))

theorem result_congr (hsources : ∀ s ∈ r.sourceLabels, ls s = ls' s)
    (htarget : ls r.targetLabel = ls' r.targetLabel) : r.result ls = r.result ls' := by
  rw [Rule.result, Rule.result, Rule.value, Rule.value, List.map_congr_left hsources, htarget]

/-- **A label that one rule sets** is what the rule makes of the labels that it
is given, where no rule sets one that it reads. -/
theorem relabel_only (h : relabel rules ls = some out)
    (honly : rules.filter (·.targetLabel = n) = [r]) (ha : r.action = .replace)
    (hsources : ∀ s ∈ r.sourceLabels, ∀ r' ∈ rules, s ≠ r'.targetLabel) : out n = r.result ls := by
  induction rules generalizing ls with
  | nil => cases honly
  | cons r' rules ih =>
    rw [relabel_cons] at h
    obtain ⟨mid, hmid, hrest⟩ := Option.bind_eq_some_iff.mp h
    by_cases hn : r'.targetLabel = n
    · rw [List.filter_cons_of_pos (by simpa using hn)] at honly
      obtain ⟨rfl, hnone⟩ := List.cons.inj honly
      rw [apply_replace ha] at hmid
      cases hmid
      rw [relabel_other hrest fun r' hr' he => List.filter_eq_nil_iff.mp hnone r' hr' (decide_eq_true he.symm),
        ← hn, Function.update_self]
    · rw [List.filter_cons_of_neg (by simpa using hn)] at honly
      have hr : r.targetLabel = n := by
        have hmem : r ∈ rules.filter (·.targetLabel = n) := honly ▸ List.mem_singleton_self r
        exact of_decide_eq_true (List.mem_filter.mp hmem).2
      rw [ih hrest honly fun s hs r' hr' => hsources s hs r' (List.mem_cons_of_mem _ hr')]
      refine result_congr (fun s hs => apply_other hmid (hsources s hs r' List.mem_cons_self)) ?_
      exact apply_other hmid fun he => hn (he.symm.trans hr)

/-- The one rule that sets a label. -/
theorem filter_once (target : String) (hr : r ∈ rules) (ht : r.targetLabel = target)
    (hcount : (rules.map (·.targetLabel)).count target = 1) : rules.filter (·.targetLabel = target) = [r] := by
  have hlen : (rules.filter (·.targetLabel = target)).length = 1 := by
    rw [← hcount, List.count_eq_countP, List.countP_map, List.countP_eq_length_filter]
    rfl
  obtain ⟨r', hone⟩ := List.length_eq_one_iff.mp hlen
  have hmem : r ∈ rules.filter (·.targetLabel = target) := List.mem_filter.mpr ⟨hr, decide_eq_true ht⟩
  rw [hone] at hmem ⊢
  rw [List.mem_singleton.mp hmem]

/-! ## The preferred path -/

theorem fullMatch_of_head {t : Pos} (h : (m ⟨[], text, none⟩).head? = some t) (hend : t.rest = []) :
    fullMatch m text = some t := by
  obtain ⟨ts, hts⟩ := List.head?_eq_some_iff.mp h
  rw [fullMatch, hts]
  exact List.find?_cons_of_pos (by rw [hend]; rfl)

theorem head_seq {a b : Re} {s t u : Pos} (ha : (a.run s).head? = some t)
    (hb : (b.run t).head? = some u) : ((Re.seq a b).run s).head? = some u := by
  obtain ⟨ts, hts⟩ := List.head?_eq_some_iff.mp ha
  obtain ⟨us, hus⟩ := List.head?_eq_some_iff.mp hb
  rw [Re.run, hts, List.flatMap_cons, hus]
  rfl

theorem run_seq_nil {a b : Re} {s : Pos} (h : ∀ t ∈ a.run s, b.run t = []) : (Re.seq a b).run s = [] :=
  List.flatMap_eq_nil_iff.mpr h

theorem run_seq_nil_left {a b : Re} {s : Pos} (h : a.run s = []) : (Re.seq a b).run s = [] := by
  rw [Re.run, h, List.flatMap_nil]

theorem head_group {a : Re} {s t : Pos} (h : (a.run s).head? = some t) :
    ((Re.group a).run s).head? = some { t with captured := some (captureBetween s t) } := by
  rw [Re.run, List.head?_map, h]
  rfl

theorem head_one {p : Char → Bool} {c : Char} (hc : p c = true) (before rest : List Char)
    (captured : Option Capture) :
    ((Re.one p).run ⟨before, c :: rest, captured⟩).head? = some ⟨c :: before, rest, captured⟩ := by
  simp [Re.run, hc]

/-- A repetition prefers to take every character that it can. -/
theorem head_many {p : Char → Bool} {w rest : List Char} (hw : ∀ c ∈ w, p c = true)
    (hrest : ∀ c ∈ rest.head?, p c = false) (before : List Char) (captured : Option Capture) :
    ((Re.many p).run ⟨before, w ++ rest, captured⟩).head? = some ⟨w.reverse ++ before, rest, captured⟩ := by
  rw [Re.run]
  induction w generalizing before with
  | nil =>
    cases rest with
    | nil => rfl
    | cons c rest => simp [runMany, hrest c rfl]
  | cons c w ih =>
    rw [List.cons_append, runMany, if_pos (hw c List.mem_cons_self)]
    have hpath := ih (fun d hd => hw d (List.mem_cons_of_mem c hd)) (c :: before)
    rw [List.head?_append, hpath, List.reverse_cons, List.append_assoc]
    rfl

theorem head_many_all {p : Char → Bool} {w : List Char} (hw : ∀ c ∈ w, p c = true) (before : List Char)
    (captured : Option Capture) :
    ((Re.many p).run ⟨before, w, captured⟩).head? = some ⟨w.reverse ++ before, [], captured⟩ := by
  have hpath : ((Re.many p).run ⟨before, w ++ [], captured⟩).head? = _ :=
    head_many hw (by simp) before captured
  rwa [List.append_nil] at hpath

theorem head_plus {p : Char → Bool} {w rest : List Char} (hne : w ≠ []) (hw : ∀ c ∈ w, p c = true)
    (hrest : ∀ c ∈ rest.head?, p c = false) (before : List Char) (captured : Option Capture) :
    ((Re.plus p).run ⟨before, w ++ rest, captured⟩).head? = some ⟨w.reverse ++ before, rest, captured⟩ := by
  cases w with
  | nil => exact absurd rfl hne
  | cons c w =>
    have hpath := head_many (fun d hd => hw d (List.mem_cons_of_mem c hd)) hrest (c :: before) captured
    rw [List.reverse_cons, List.append_assoc]
    exact head_seq (head_one (hw c List.mem_cons_self) _ _ _) hpath

/-! ## Rules that copy -/

/-- `source_labels` and `target_label` alone. -/
def Rule.copy (source target : String) : Rule := { sourceLabels := [source], targetLabel := target }

/-- A group that takes the whole text. -/
theorem fullMatch_whole {a : Re} (hpath : (a.run ⟨[], text, none⟩).head? = some ⟨text.reverse ++ [], [], none⟩) :
    ∃ t, fullMatch (Re.group a).run text = some t ∧ matched t = text := by
  refine ⟨_, fullMatch_of_head (head_group hpath) rfl, ?_⟩
  rw [matched, captureBetween_eq (w := text) ⟨(List.append_nil _).symm, rfl⟩]
  rfl

theorem anyChar_of_line (h : '\n' ∉ text) : ∀ c ∈ text, anyChar c = true := fun _ hc =>
  decide_eq_true fun he => h (he ▸ hc)

theorem fullMatch_anything (h : '\n' ∉ text) :
    ∃ t, fullMatch anything text = some t ∧ matched t = text :=
  fullMatch_whole (head_many_all (anyChar_of_line h) [] none)

/-- `(.+)`. -/
def something : Matcher := (Re.group (.plus anyChar)).run

theorem fullMatch_something (hne : text ≠ []) (h : '\n' ∉ text) :
    ∃ t, fullMatch something text = some t ∧ matched t = text := by
  have hpath : ((Re.plus anyChar).run ⟨[], text ++ [], none⟩).head? = _ :=
    head_plus hne (anyChar_of_line h) (by simp) [] none
  rw [List.append_nil] at hpath
  exact fullMatch_whole hpath

theorem expand_group (captured : List Char) : expand [.group] captured = captured :=
  List.append_nil captured

/-- The default expression takes the whole value. -/
theorem result_anything (hr : r.regex = anything) (h : '\n' ∉ r.value ls) :
    r.result ls = expand r.replacement (r.value ls) := by
  obtain ⟨t, ht, hgroup⟩ := fullMatch_anything h
  rw [Rule.result, hr, ht]
  exact congrArg (expand r.replacement) hgroup

theorem result_copy {source : String} (h : '\n' ∉ ls source) (target : String) :
    (Rule.copy source target).result ls = ls source := by
  have hvalue : (Rule.copy source target).value ls = ls source := List.intercalate_singleton
  rw [result_anything rfl (hvalue ▸ h), hvalue]
  exact expand_group _

theorem relabel_copy {source : String} (h : '\n' ∉ ls source) (target : String) (rules : List Rule) :
    relabel (.copy source target :: rules) ls = relabel rules (Function.update ls target (ls source)) := by
  rw [relabel_cons, apply_replace rfl, result_copy h]
  rfl

/-- `target_label` and `replacement` alone. -/
def Rule.set (target : String) (value : List Char) : Rule :=
  { targetLabel := target, replacement := [.text value] }

theorem result_set (target : String) (value : List Char) : (Rule.set target value).result ls = value :=
  (result_anything rfl List.not_mem_nil).trans (List.append_nil value)

theorem relabel_set (target : String) (value : List Char) (rules : List Rule) (ls : Labels) :
    relabel (.set target value :: rules) ls = relabel rules (Function.update ls target value) := by
  rw [relabel_cons, apply_replace rfl, result_set]
  rfl

/-- A row of copies, of labels that it does not set. -/
def copyRules (copies : List (String × String)) : List Rule := copies.map fun c => .copy c.1 c.2

theorem relabel_copies (copies : List (String × String)) (ls : Labels) (hnodup : (copies.map Prod.snd).Nodup)
    (happart : ∀ c ∈ copies, c.1 ∉ copies.map Prod.snd) (hline : ∀ c ∈ copies, '\n' ∉ ls c.1) :
    ∃ out, relabel (copyRules copies) ls = some out ∧ (∀ c ∈ copies, out c.2 = ls c.1) ∧
      ∀ n ∉ copies.map Prod.snd, out n = ls n := by
  induction copies generalizing ls with
  | nil => exact ⟨ls, rfl, by simp, fun _ _ => rfl⟩
  | cons c copies ih =>
    rw [List.map_cons, List.nodup_cons] at hnodup
    have hkept : ∀ c' ∈ copies, Function.update ls c.2 (ls c.1) c'.1 = ls c'.1 := by
      intro c' hc'
      have hne := happart c' (List.mem_cons_of_mem c hc')
      rw [List.map_cons, List.mem_cons, not_or] at hne
      exact Function.update_of_ne hne.1 ..
    obtain ⟨out, hout, hcopied, hother⟩ := ih _ hnodup.2
      (fun c' hc' hin => happart c' (List.mem_cons_of_mem c hc') (List.mem_cons_of_mem _ hin))
      (fun c' hc' => (hkept c' hc').symm ▸ hline c' (List.mem_cons_of_mem c hc'))
    refine ⟨out, ?_, ?_, fun n hn => ?_⟩
    · show relabel (.copy c.1 c.2 :: copyRules copies) ls = some out
      rw [relabel_copy (hline c List.mem_cons_self)]
      exact hout
    · intro c' hc'
      rcases List.mem_cons.mp hc' with rfl | hc'
      · rw [hother _ hnodup.1, Function.update_self]
      · rw [hcopied c' hc', hkept c' hc']
    · rw [List.map_cons, List.mem_cons, not_or] at hn
      rw [hother n hn.2, Function.update_of_ne hn.1]

/-! ## The first label that is there -/

/-- `^;*([^;]+)(;.*)?$`. -/
def firstPart : Re := Re.seqs [
  .start, .many (· = ';'), .group (.plus (· ≠ ';')),
  .alt (.seq (.one (· = ';')) (.many anyChar)) .empty, .stop]

def Rule.firstOf (sources : List String) (target : String) : Rule :=
  { sourceLabels := sources, regex := firstPart.run, targetLabel := target }

/-- The first value that is not empty. -/
def firstValue (vs : List (List Char)) : List Char := (vs.find? (· ≠ [])).getD []

theorem not_mem_intercalate {c : Char} {sep : List Char} {ws : List (List Char)} (hsep : c ∉ sep)
    (hws : ∀ w ∈ ws, c ∉ w) : c ∉ sep.intercalate ws := by
  induction ws with
  | nil => exact List.not_mem_nil
  | cons w ws ih =>
    have hw := hws w List.mem_cons_self
    have hrest := ih fun w' hw' => hws w' (List.mem_cons_of_mem w hw')
    cases ws with
    | nil => rwa [List.intercalate_singleton]
    | cons w' ws =>
      rw [List.intercalate_cons_cons, List.append_assoc, List.mem_append, List.mem_append]
      exact not_or.mpr ⟨hw, not_or.mpr ⟨hsep, hrest⟩⟩

theorem firstValue_mem (vs : List (List Char)) : firstValue vs ∈ vs ∨ firstValue vs = [] := by
  rw [firstValue]
  cases h : vs.find? (· ≠ []) with
  | none => exact Or.inr rfl
  | some v => exact Or.inl (List.mem_of_find?_eq_some h)

/-- What stands around the first value: separators, and nothing or a separator. -/
theorem intercalate_first {vs : List (List Char)} {v : List Char} (hline : ∀ v ∈ vs, '\n' ∉ v)
    (h : vs.find? (· ≠ []) = some v) :
    ∃ k rest, [';'].intercalate vs = List.replicate k ';' ++ (v ++ rest) ∧
      (rest = [] ∨ ∃ more, rest = ';' :: more ∧ '\n' ∉ more) := by
  induction vs with
  | nil => cases h
  | cons u vs ih =>
    by_cases hu : u = []
    · rw [List.find?_cons_of_neg (by simpa using hu)] at h
      obtain ⟨k, rest, htext, hrest⟩ := ih (fun w hw => hline w (List.mem_cons_of_mem u hw)) h
      cases vs with
      | nil => cases h
      | cons x vs =>
        refine ⟨k + 1, rest, ?_, hrest⟩
        rw [List.intercalate_cons_cons, htext, hu, List.replicate_succ]
        rfl
    · rw [List.find?_cons_of_pos (by simpa using hu)] at h
      cases h
      cases vs with
      | nil => exact ⟨0, [], by simp [List.intercalate], Or.inl rfl⟩
      | cons x vs =>
        refine ⟨0, ';' :: [';'].intercalate (x :: vs), ?_, Or.inr ⟨_, rfl, ?_⟩⟩
        · rw [List.intercalate_cons_cons, List.append_assoc]
          rfl
        · exact not_mem_intercalate (by decide) fun w hw => hline w (List.mem_cons_of_mem _ hw)

/-- `(;.*)?$` takes all that is left. -/
theorem head_tail {rest : List Char} (h : rest = [] ∨ ∃ more, rest = ';' :: more ∧ '\n' ∉ more)
    (before : List Char) (captured : Option Capture) :
    ∃ u : Pos, (u.rest = [] ∧ u.captured = captured) ∧
      ((Re.seqs [.alt (.seq (.one (· = ';')) (.many anyChar)) .empty, .stop]).run
        ⟨before, rest, captured⟩).head? = some u := by
  rcases h with rfl | ⟨more, rfl, hmore⟩
  · exact ⟨⟨before, [], captured⟩, ⟨rfl, rfl⟩, rfl⟩
  · have hall : ∀ c ∈ more, anyChar c = true := fun c hc => decide_eq_true fun he => hmore (he ▸ hc)
    have hmany := head_many_all hall (';' :: before) captured
    have halt := head_seq (head_one (p := (· = ';')) rfl before more captured) hmany
    refine ⟨⟨more.reverse ++ ';' :: before, [], captured⟩, ⟨rfl, rfl⟩, head_seq (t := ⟨_, [], _⟩) ?_ rfl⟩
    rw [Re.run, List.head?_append, halt, Option.some_or]

/-- There is no part in a row of separators. -/
theorem run_separators (text : List Char) (h : ∀ c ∈ text, c = ';') :
    firstPart.run ⟨[], text, none⟩ = [] := by
  refine run_seq_nil fun s hs => run_seq_nil fun t ht => run_seq_nil_left ?_
  obtain ⟨v, hv⟩ := Re.past_of_mem_run hs
  obtain ⟨w, hw⟩ := Re.past_of_mem_run ht
  have htext : text = v ++ w ++ t.rest := (hv.trans hw).rest
  have hnone : (Re.one (· ≠ ';')).run t = [] := by
    rw [Re.run]
    split
    · next c rest hrest =>
      have hc : c = ';' := h c (by rw [htext, hrest]; simp)
      rw [if_neg (by simpa using hc)]
    · rfl
  have hplus : (Re.plus (· ≠ ';')).run t = [] := run_seq_nil_left hnone
  rw [Re.run, hplus, List.map_nil]

theorem find_firstPart {vs : List (List Char)} (hline : ∀ v ∈ vs, '\n' ∉ v) (hsep : ∀ v ∈ vs, ';' ∉ v) :
    (fullMatch firstPart.run ([';'].intercalate vs)).map matched = vs.find? (· ≠ []) := by
  cases hfind : vs.find? (· ≠ []) with
  | some v =>
    obtain ⟨k, rest, htext, hrest⟩ := intercalate_first hline hfind
    have hne : v ≠ [] := by simpa using List.find?_some hfind
    have hv : ∀ c ∈ v, decide (c ≠ ';') = true := fun c hc =>
      decide_eq_true fun he => hsep v (List.mem_of_find?_eq_some hfind) (he ▸ hc)
    have hskip : ∀ c ∈ List.replicate k ';', decide (c = ';') = true := fun c hc =>
      decide_eq_true (List.eq_of_mem_replicate hc)
    have hstop : ∀ c ∈ (v ++ rest).head?, decide (c = ';') = false := by
      obtain ⟨c, w, rfl⟩ := List.exists_cons_of_ne_nil hne
      intro d hd
      cases hd
      simpa using hv c List.mem_cons_self
    have hend : ∀ c ∈ rest.head?, decide (c ≠ ';') = false := by
      rcases hrest with rfl | ⟨more, rfl, -⟩
      · simp
      · simp
    have hmany := head_many hskip hstop [] none
    have hgroup := head_group (head_plus hne hv hend ((List.replicate k ';').reverse ++ []) none)
    rw [captureBetween_eq (w := v) ⟨rfl, rfl⟩] at hgroup
    obtain ⟨u, hu, hrun⟩ := head_tail hrest (v.reverse ++ ((List.replicate k ';').reverse ++ []))
      (some ⟨((List.replicate k ';').reverse ++ []).reverse, v, rest⟩)
    have hpath : (firstPart.run ⟨[], [';'].intercalate vs, none⟩).head? = some u := by
      rw [htext]
      exact head_seq (t := ⟨[], _, none⟩) rfl (head_seq hmany (head_seq hgroup hrun))
    rw [fullMatch_of_head hpath hu.1, Option.map_some, matched, hu.2]
    rfl
  | none =>
    have hempty : ∀ c ∈ [';'].intercalate vs, c = ';' := by
      intro c hc
      by_contra hne
      refine not_mem_intercalate (by simpa using hne) (fun v hv => ?_) hc
      have hv : v = [] := by simpa using List.find?_eq_none.mp hfind v hv
      rw [hv]
      exact List.not_mem_nil
    have hrun : firstPart.run ⟨[], [';'].intercalate vs, none⟩ = [] := run_separators _ hempty
    rw [fullMatch, hrun]
    rfl

/-- **The first value**, of values without a separator or a line's end in them. -/
theorem result_firstOf {sources : List String} (h : ∀ s ∈ sources, '\n' ∉ ls s ∧ ';' ∉ ls s)
    {target : String} (hnone : ls target = []) :
    (Rule.firstOf sources target).result ls = firstValue (sources.map ls) := by
  have hfind := find_firstPart (List.forall_mem_map.mpr fun s hs => (h s hs).1)
    (List.forall_mem_map.mpr fun s hs => (h s hs).2)
  have hvalue : (Rule.firstOf sources target).value ls = [';'].intercalate (sources.map ls) := rfl
  rw [firstValue, ← hfind, Rule.result, hvalue]
  show (match fullMatch firstPart.run _ with
    | some t => expand [.group] (matched t)
    | none => ls target) = _
  cases fullMatch firstPart.run ([';'].intercalate (sources.map ls)) with
  | some t => exact expand_group _
  | none => exact hnone

/-! ## As few as it can -/

theorem all_of_mem_runMany {p : Char → Bool} {captured : Option Capture} {t : Pos} :
    ∀ {before rest : List Char}, t ∈ runMany p captured before rest →
      ∃ w, rest = w ++ t.rest ∧ ∀ c ∈ w, p c = true
  | _, [], h => by
    rw [List.mem_singleton.mp h]
    exact ⟨[], rfl, List.forall_mem_nil _⟩
  | _, c :: rest, h => by
    rcases List.mem_append.mp h with h | h
    · split at h
      · next hc =>
        obtain ⟨w, hw, hall⟩ := all_of_mem_runMany h
        exact ⟨c :: w, congrArg (c :: ·) hw, List.forall_mem_cons.mpr ⟨hc, hall⟩⟩
      · cases h
    · rw [List.mem_singleton.mp h]
      exact ⟨[], rfl, List.forall_mem_nil _⟩

theorem all_of_mem_lazyMany {p : Char → Bool} {captured : Option Capture} {t : Pos} :
    ∀ {before rest : List Char}, t ∈ lazyMany p captured before rest →
      ∃ w, rest = w ++ t.rest ∧ ∀ c ∈ w, p c = true
  | _, [], h => by
    rw [List.mem_singleton.mp h]
    exact ⟨[], rfl, List.forall_mem_nil _⟩
  | _, c :: rest, h => by
    rcases List.mem_cons.mp h with rfl | h
    · exact ⟨[], rfl, List.forall_mem_nil _⟩
    · split at h
      · next hc =>
        obtain ⟨w, hw, hall⟩ := all_of_mem_lazyMany h
        exact ⟨c :: w, congrArg (c :: ·) hw, List.forall_mem_cons.mpr ⟨hc, hall⟩⟩
      · cases h

theorem all_of_mem_lazyPlus {p : Char → Bool} {s t : Pos} (h : t ∈ lazyPlus p s) :
    ∃ w, s.rest = w ++ t.rest ∧ ∀ c ∈ w, p c = true := by
  obtain ⟨u, hu, ht⟩ := List.mem_flatMap.mp h
  obtain ⟨c, hc, hp, -⟩ := mem_run_one.mp hu
  obtain ⟨w, hw, hall⟩ := all_of_mem_lazyMany ht
  exact ⟨c :: w, by rw [hp.rest, hw]; rfl, List.forall_mem_cons.mpr ⟨hc, hall⟩⟩

theorem findSome_lazyMany {α : Type} {p : Char → Bool} {captured : Option Capture} {f : Pos → Option α}
    {d rest : List Char} {a : α} (hd : ∀ c ∈ d, p c = true) (before : List Char)
    (ha : f ⟨d.reverse ++ before, rest, captured⟩ = some a)
    (hshort : ∀ v x, d = v ++ x → x ≠ [] → f ⟨v.reverse ++ before, x ++ rest, captured⟩ = none) :
    (lazyMany p captured before (d ++ rest)).findSome? f = some a := by
  induction d generalizing before with
  | nil =>
    have ha : f ⟨before, rest, captured⟩ = some a := ha
    cases rest with
    | nil => simp [lazyMany, ha]
    | cons c rest => simp [lazyMany, ha]
  | cons c d ih =>
    have hfirst : f ⟨before, c :: (d ++ rest), captured⟩ = none := hshort [] (c :: d) rfl (by simp)
    rw [List.cons_append, lazyMany, if_pos (hd c List.mem_cons_self), List.findSome?_cons, hfirst]
    refine ih (fun e he => hd e (List.mem_cons_of_mem c he)) (c :: before) ?_ fun v x hv hx => ?_
    · rw [← ha, List.reverse_cons, List.append_assoc]
      rfl
    · have hnone := hshort (c :: v) x (congrArg (c :: ·) hv) hx
      rwa [List.reverse_cons, List.append_assoc] at hnone

/-- **The shortest start whose rest the tail takes whole.** -/
theorem find_lazy {p : Char → Bool} {tail : Matcher} (hkeeps : ∀ s t, t ∈ tail s → t.captured = s.captured)
    {d rest : List Char} (hne : d ≠ []) (hd : ∀ c ∈ d, p c = true)
    (hends : ∃ t ∈ tail ⟨d.reverse, rest, some ⟨[], d, rest⟩⟩, t.rest = [])
    (hshort : ∀ v x, d = v ++ x → v ≠ [] → x ≠ [] → ∀ s : Pos, s.rest = x ++ rest → ∀ t ∈ tail s, t.rest ≠ []) :
    (fullMatch (andThen (grouped (lazyPlus p)) tail) (d ++ rest)).map matched = some d := by
  obtain ⟨c, w, rfl⟩ := List.exists_cons_of_ne_nil hne
  let f : Pos → Option Pos := fun t =>
    (tail { t with captured := some (captureBetween ⟨[], c :: w ++ rest, none⟩ t) }).find? (·.rest.isEmpty)
  have hrun : fullMatch (andThen (grouped (lazyPlus p)) tail) (c :: w ++ rest) =
      (lazyMany p none [c] (w ++ rest)).findSome? f := by
    have hone : (Re.one p).run ⟨[], c :: w ++ rest, none⟩ = [⟨[c], w ++ rest, none⟩] := by
      simp [Re.run, hd c List.mem_cons_self]
    rw [fullMatch, andThen, List.find?_flatMap, grouped, List.findSome?_map, lazyPlus, hone,
      List.flatMap_singleton]
    rfl
  have hcapture : ∀ v x, c :: w = v ++ x → captureBetween ⟨[], c :: w ++ rest, none⟩
      ⟨v.reverse, x ++ rest, none⟩ = ⟨[], v, x ++ rest⟩ := fun v x hv =>
    captureBetween_eq ⟨by rw [hv, List.append_assoc], (List.append_nil _).symm⟩
  obtain ⟨u, hu⟩ : ∃ u, f ⟨(c :: w).reverse, rest, none⟩ = some u := by
    obtain ⟨t, ht, hend⟩ := hends
    rw [← Option.isSome_iff_exists]
    refine List.find?_isSome.mpr ⟨t, ?_, by simp [hend]⟩
    have hc := hcapture (c :: w) [] (List.append_nil _).symm
    rw [List.nil_append] at hc
    simpa only [hc] using ht
  rw [hrun, findSome_lazyMany (a := u) fun e he => hd e (List.mem_cons_of_mem c he)]
  · have hmem := List.mem_of_find?_eq_some hu
    rw [Option.map_some, matched, hkeeps _ _ hmem]
    have hc := hcapture (c :: w) [] (List.append_nil _).symm
    rw [List.nil_append] at hc
    rw [hc]
    rfl
  · rw [← hu, List.reverse_cons]
  · intro v x hv hx
    refine List.find?_eq_none.mpr fun t ht => ?_
    have hne := hshort (c :: v) x (congrArg (c :: ·) hv) (List.cons_ne_nil c v) hx _ rfl t ht
    simpa using hne

theorem mem_run_times {p : Char → Bool} {k : Nat} {s t : Pos} :
    t ∈ (Re.each (List.replicate k p)).run s ↔
      ∃ w, (w.length = k ∧ ∀ c ∈ w, p c = true) ∧ s.Past t w ∧ t.captured = s.captured := by
  induction k generalizing s with
  | zero =>
    constructor
    · intro h
      rw [List.mem_singleton.mp h]
      exact ⟨[], ⟨rfl, by simp⟩, .refl s, rfl⟩
    · intro h
      obtain ⟨w, ⟨hw, -⟩, hp, hc⟩ := h
      rw [List.length_eq_zero_iff.mp hw] at hp
      exact List.mem_singleton.mpr (hp.eq_of_nil hc)
  | succ k ih =>
    show t ∈ ((Re.one p).run s).flatMap (Re.each (List.replicate k p)).run ↔ _
    rw [List.mem_flatMap]
    constructor
    · intro h
      obtain ⟨u, hu, ht⟩ := h
      obtain ⟨c, hc, hpu, hcu⟩ := mem_run_one.mp hu
      obtain ⟨w, ⟨hlen, hall⟩, hpt, hct⟩ := ih.mp ht
      exact ⟨c :: w, ⟨congrArg (· + 1) hlen, List.forall_mem_cons.mpr ⟨hc, hall⟩⟩, hpu.trans hpt,
        hct.trans hcu⟩
    · intro h
      obtain ⟨w, ⟨hlen, hall⟩, hp, hc⟩ := h
      obtain ⟨c, v, rfl⟩ := List.exists_cons_of_length_eq_add_one hlen
      obtain ⟨u, hpu, hpt, hcu⟩ := Pos.Past.split (v := [c]) hp
      obtain ⟨hfirst, hrest⟩ := List.forall_mem_cons.mp hall
      exact ⟨u, mem_run_one.mpr ⟨c, hfirst, hpu, hcu⟩,
        ih.mpr ⟨v, ⟨Nat.succ.inj hlen, hrest⟩, hpt, hc.trans hcu.symm⟩⟩

/-! ## Words -/

theorem fullMatch_isSome : (fullMatch m text).isSome ↔ ∃ t ∈ m ⟨[], text, none⟩, t.rest = [] := by
  rw [fullMatch, List.find?_isSome]
  simp only [List.isEmpty_iff]

theorem fullMatch_group {a : Re} : (fullMatch (Re.group a).run text).isSome ↔ (fullMatch a.run text).isSome := by
  rw [fullMatch_isSome, fullMatch_isSome]
  constructor
  · intro h
    obtain ⟨t, ht, hend⟩ := h
    obtain ⟨u, hu, rfl⟩ := List.mem_map.mp ht
    exact ⟨u, hu, hend⟩
  · intro h
    obtain ⟨u, hu, hend⟩ := h
    exact ⟨_, List.mem_map_of_mem hu, hend⟩

/-- A word, then one of some words. -/
theorem fullMatch_word_words {w : List Char} {ws : List (List Char)} :
    (fullMatch (Re.seq (.word id w) (.group (.words id ws))).run text).isSome ↔ ∃ v ∈ ws, text = w ++ v := by
  rw [fullMatch_isSome]
  constructor
  · intro h
    obtain ⟨t, ht, hend⟩ := h
    obtain ⟨s, hs, ht⟩ := List.mem_flatMap.mp ht
    obtain ⟨u, hu, rfl⟩ := List.mem_map.mp ht
    obtain ⟨w', hw, hps, -⟩ := mem_run_word.mp hs
    obtain ⟨v, hv, hpu, -⟩ := mem_run_words.mp hu
    have htext : text = w' ++ v ++ u.rest := (hps.trans hpu).rest
    rw [List.map_id] at hw hv
    rw [htext, show u.rest = [] from hend, List.append_nil, hw]
    exact ⟨v, hv, rfl⟩
  · intro h
    obtain ⟨v, hv, rfl⟩ := h
    have hps : Pos.Past ⟨[], w ++ v, none⟩ ⟨w.reverse, v, none⟩ w := ⟨rfl, (List.append_nil _).symm⟩
    have hpu : Pos.Past ⟨w.reverse, v, none⟩ ⟨v.reverse ++ w.reverse, [], none⟩ v :=
      ⟨(List.append_nil v).symm, rfl⟩
    have hend := List.mem_map_of_mem (f := fun t => { t with captured := some (captureBetween ⟨w.reverse, v, none⟩ t) })
      (mem_run_words.mpr ⟨v, (List.map_id v).symm ▸ hv, hpu, rfl⟩)
    exact ⟨_, List.mem_flatMap.mpr ⟨_, mem_run_word.mpr ⟨w, List.map_id w, hps, rfl⟩, hend⟩, rfl⟩

theorem fullMatch_words {ws : List (List Char)} :
    (fullMatch (Re.words id ws).run text).isSome ↔ text ∈ ws := by
  rw [fullMatch_isSome]
  constructor
  · intro h
    obtain ⟨t, ht, hend⟩ := h
    obtain ⟨w, hw, hp, -⟩ := mem_run_words.mp ht
    have htext : text = w ++ t.rest := hp.rest
    rw [List.map_id] at hw
    rwa [htext, hend, List.append_nil]
  · intro h
    have hp : Pos.Past ⟨[], text, none⟩ ⟨text.reverse, [], none⟩ text :=
      ⟨(List.append_nil text).symm, (List.append_nil _).symm⟩
    exact ⟨_, mem_run_words.mpr ⟨text, (List.map_id text).symm ▸ h, hp, rfl⟩, rfl⟩

/-- A rule whose expression is some words and whose replacement is a text. -/
theorem result_onWords {ws : List (List Char)} {source : String} {value : List Char}
    (hsource : r.sourceLabels = [source]) (hvalue : r.replacement = [.text value])
    (hregex : ∀ text, (fullMatch r.regex text).isSome ↔ text ∈ ws) :
    r.result ls = if ls source ∈ ws then value else ls r.targetLabel := by
  have hread : r.value ls = ls source := by
    rw [Rule.value, hsource]
    exact List.intercalate_singleton
  rw [Rule.result, hread]
  by_cases hmem : ls source ∈ ws
  · obtain ⟨t, ht⟩ := Option.isSome_iff_exists.mp ((hregex _).mpr hmem)
    rw [ht, if_pos hmem, hvalue]
    exact List.append_nil value
  · rw [if_neg hmem, Option.not_isSome_iff_eq_none.mp (mt (hregex _).mp hmem)]

end BigDataPlatform.Lib.Relabel
