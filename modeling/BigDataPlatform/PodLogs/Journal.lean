import BigDataPlatform.Lib.Relabel
import BigDataPlatform.PodLogs.Level

/-! # config.alloy: discovery.relabel "journal"

The node's journal under the labels of the pod logs: the node by its Kubernetes
name, and a level of the same six. -/
namespace BigDataPlatform.PodLogs
open Lib.Regex Lib.Relabel

/-! ## The rules -/

def nodeSuffix : List Char := ".ap-south-1.compute.internal".toList

/-- `(.+)`, with the region's domain behind it. -/
def hostnameRule : Rule where
  sourceLabels := ["__journal__hostname"]
  regex := something
  targetLabel := "node_name"
  replacement := [.group, .text nodeSuffix]

def journalCopies : List (String × String) := [
  ("__journal__systemd_unit", "unit"),
  ("__journal_syslog_identifier", "syslog_identifier"),
  ("__journal__transport", "transport"),
  ("__journal_priority_keyword", "level")]

/-- A row of severities: the words in their expression, and what they become. -/
structure Severity where
  regex : Re
  words : List String
  value : String

def Severity.rule (v : Severity) : Rule where
  sourceLabels := ["level"]
  regex := v.regex.run
  targetLabel := "level"
  replacement := [.text v.value.toList]

def choice (words : List String) : Re := .words id (words.map String.toList)

def severities : List Severity := [
  ⟨.group (choice ["emerg", "alert", "crit"]), ["emerg", "alert", "crit"], "fatal"⟩,
  ⟨choice ["err"], ["err"], "error"⟩,
  ⟨choice ["warning"], ["warning"], "warn"⟩,
  ⟨choice ["notice"], ["notice"], "info"⟩]

def journalRules : List Rule :=
  hostnameRule :: copyRules journalCopies ++ severities.map Severity.rule

/-! ## The entries -/

/-- What syslog's priorities are called. -/
def priorities : List String :=
  ["emerg", "alert", "crit", "err", "error", "warning", "notice", "info", "debug"]

structure JournalEntry where
  labels : Labels
  line : ∀ n ∈ "__journal__hostname" :: journalCopies.map (·.1), '\n' ∉ labels n
  unset : labels "node_name" = []
  priority : labels "__journal_priority_keyword" = [] ∨
    ∃ p ∈ priorities, labels "__journal_priority_keyword" = p.toList

variable {ls : Labels}

/-! ## The severities -/

/-- A word after a row of severities. -/
def graded (rows : List Severity) (w : List Char) : List Char :=
  rows.foldl (fun w v => if ∃ p ∈ v.words, p.toList = w then v.value.toList else w) w

theorem relabel_severities {rows : List Severity}
    (hrows : ∀ v ∈ rows, ∀ text, (fullMatch v.regex.run text).isSome ↔ text ∈ v.words.map String.toList) (ls : Labels) :
    relabel (rows.map Severity.rule) ls = some (Function.update ls "level" (graded rows (ls "level"))) := by
  induction rows generalizing ls with
  | nil => exact congrArg some (Function.update_eq_self _ _).symm
  | cons v rows ih =>
    obtain ⟨hv, hrest⟩ := List.forall_mem_cons.mp hrows
    have hone : v.rule.result ls = if ∃ p ∈ v.words, p.toList = ls "level" then v.value.toList else ls "level" := by
      rw [result_onWords rfl rfl hv]
      simp only [List.mem_map]
      rfl
    rw [List.map_cons, relabel_cons, apply_replace rfl, Option.bind_some, ih hrest, hone]
    show some (Function.update (Function.update ls "level" _) "level"
      (graded rows (Function.update ls "level" _ "level"))) = _
    rw [Function.update_idem, Function.update_self]
    rfl

theorem severities_match : ∀ v ∈ severities, ∀ text,
    (fullMatch v.regex.run text).isSome ↔ text ∈ v.words.map String.toList := by
  intro v hv text
  simp only [severities, List.mem_cons, List.not_mem_nil, or_false] at hv
  rcases hv with rfl | rfl | rfl | rfl
  · exact fullMatch_group.trans fullMatch_words
  · exact fullMatch_words
  · exact fullMatch_words
  · exact fullMatch_words

/-- The journal's rules and the pod logs' replacements agree on every priority. -/
theorem graded_priority : ∀ p ∈ priorities,
    graded severities p.toList = (normalise levelReplacements p).toList ∧ Recognised p := by
  decide +kernel

/-! ## The whole list -/

/-- The labels that the rules set. -/
def journalTargets : List String := "node_name" :: journalCopies.map (·.2)

structure JournalLabels (e : JournalEntry) (out : Labels) : Prop where
  node : out "node_name" = if e.labels "__journal__hostname" = [] then []
    else e.labels "__journal__hostname" ++ nodeSuffix
  unit : out "unit" = e.labels "__journal__systemd_unit"
  identifier : out "syslog_identifier" = e.labels "__journal_syslog_identifier"
  transport : out "transport" = e.labels "__journal__transport"
  level : (e.labels "__journal_priority_keyword" = [] ∧ out "level" = []) ∨
    ∃ p ∈ priorities, e.labels "__journal_priority_keyword" = p.toList ∧
      out "level" = (normalise levelReplacements p).toList ∧ normalise levelReplacements p ∈ levels
  others : ∀ n ∉ journalTargets, out n = e.labels n

theorem result_hostname (e : JournalEntry) : hostnameRule.result e.labels =
    if e.labels "__journal__hostname" = [] then [] else e.labels "__journal__hostname" ++ nodeSuffix := by
  have hvalue : hostnameRule.value e.labels = e.labels "__journal__hostname" := List.intercalate_singleton
  have hline := e.line "__journal__hostname" List.mem_cons_self
  rw [Rule.result, hvalue]
  by_cases hempty : e.labels "__journal__hostname" = []
  · rw [hempty, if_pos rfl]
    exact e.unset
  · obtain ⟨t, ht, hgroup⟩ := fullMatch_something hempty hline
    have hregex : fullMatch hostnameRule.regex (e.labels "__journal__hostname") = some t := ht
    rw [hregex, if_neg hempty]
    simp [hostnameRule, expand, hgroup]

/-- **The journal under the pods' labels.** Every entry keeps its place: it is in
the stream of its node, unit, identifier and transport, with the level that the
pod logs' replacements make of its priority, which is one of the six; without a
priority it has no level, without a hostname no node. -/
theorem journal_labels (e : JournalEntry) :
    ∃ out, relabel journalRules e.labels = some out ∧ JournalLabels e out := by
  have hsource : ∀ c ∈ journalCopies, ∀ v,
      Function.update e.labels "node_name" v c.1 = e.labels c.1 := by
    intro c hc v
    have hne : c.1 ≠ "node_name" := (show ∀ c ∈ journalCopies, c.1 ≠ "node_name" by decide) c hc
    exact Function.update_of_ne hne ..
  obtain ⟨mid, hmid, hcopied, hother⟩ := relabel_copies journalCopies
    (Function.update e.labels "node_name" (hostnameRule.result e.labels)) (by decide) (by decide) fun c hc => by
      rw [hsource c hc]
      exact e.line c.1 (List.mem_cons_of_mem _ (List.mem_map_of_mem hc))
  have hcopy : ∀ c ∈ journalCopies, mid c.2 = e.labels c.1 := fun c hc =>
    (hcopied c hc).trans (hsource c hc _)
  have hkept : ∀ n, n ≠ "level" → ∀ v, Function.update mid "level" v n = mid n := fun n hn v =>
    Function.update_of_ne hn ..
  refine ⟨Function.update mid "level" (graded severities (mid "level")), ?_, ⟨?_, ?_, ?_, ?_, ?_, fun n hn => ?_⟩⟩
  · rw [journalRules, List.cons_append, relabel_cons, apply_replace rfl, Option.bind_some, relabel_append,
      show hostnameRule.targetLabel = "node_name" from rfl, hmid, Option.bind_some]
    exact relabel_severities severities_match mid
  · rw [hkept _ (by decide), hother _ (by decide), Function.update_self, result_hostname]
  · rw [hkept _ (by decide), hcopy ("__journal__systemd_unit", "unit") (by decide)]
  · rw [hkept _ (by decide), hcopy ("__journal_syslog_identifier", "syslog_identifier") (by decide)]
  · rw [hkept _ (by decide), hcopy ("__journal__transport", "transport") (by decide)]
  · rw [Function.update_self, hcopy ("__journal_priority_keyword", "level") (by decide)]
    rcases e.priority with hnone | ⟨p, hp, hword⟩
    · exact Or.inl ⟨hnone, by rw [hnone]; decide⟩
    · obtain ⟨hgraded, hknown⟩ := graded_priority p hp
      exact Or.inr ⟨p, hp, hword, by rw [hword, hgraded], normalise_mem_levels_iff.mpr hknown⟩
  · rw [journalTargets, List.mem_cons, not_or] at hn
    have hlevel : n ≠ "level" := fun he => hn.2 (he ▸ (by decide))
    rw [hkept n hlevel, hother n hn.2, Function.update_of_ne hn.1]

/-- A line that the kubelet writes at priority 4. -/
def kubeletEntry : JournalEntry where
  labels n := ([
    ("__journal__hostname", "ip-10-0-1-7"),
    ("__journal__systemd_unit", "kubelet.service"),
    ("__journal_syslog_identifier", "kubelet"),
    ("__journal__transport", "stdout"),
    ("__journal_priority_keyword", "warning")].lookup n |>.map String.toList).getD []
  line := by decide +kernel
  unset := by decide
  priority := Or.inr ⟨"warning", by decide, by decide⟩

example : (relabel journalRules kubeletEntry.labels).map (fun out => (out "node_name", out "level")) =
    some ("ip-10-0-1-7.ap-south-1.compute.internal".toList, "warn".toList) := by
  decide +kernel

end BigDataPlatform.PodLogs
