import BigDataPlatform.Lib.Regex
import Mathlib.Logic.Function.Basic

/-! # config.alloy: loki.process "pods"

The stages that find a log level, on what stage.cri and the multiline stages
hand on: the line's text, in runes. The expressions are those of Go, whose
classes are ASCII. -/
namespace BigDataPlatform.PodLogs
open Lib.Regex

/-! ## Labels -/

/-- The labels that discovery.relabel, the file source and stage.cri set. -/
def targetLabels : List String :=
  ["__tmp_controller_name", "app", "instance", "component", "node_name", "namespace", "job", "pod",
    "container", "__path__", "spark_role", "spark_app_selector", "tier", "pod_ip", "host_ip",
    "filename", "stream"]

/-- The labels of one log file, from whatever labels its pod has. -/
structure Target where
  labels : String → Option String
  set_by_rule : ∀ name, labels name ≠ none → name ∈ targetLabels

structure Entry where
  labels : String → Option String
  extracted : String → Option String
  line : String

/-! ## The expressions -/

def isSpace (c : Char) : Bool := c.toNat ∈ [9, 10, 12, 13, 32]

def nonSpace (c : Char) : Bool := !isSpace c

def lit (text : String) : Re := .word id text.toList

def space : Re := lit " "

def digits (n : Nat) : Re := Re.seqs (List.replicate n (.one Char.isDigit))

/-- `\d{2}SEP\d{2}SEP\d{2}`. -/
def threePairs (sep : String) : Re := Re.seqs [digits 2, lit sep, digits 2, lit sep, digits 2]

/-- `(?P<level>…+)`. -/
def levelRun (p : Char → Bool) : Re := .group (.plus p)

/-- `(?P<level>…|…)`. -/
def levelWord (words : List String) : Re := .group (.words id (words.map String.toList))

def bareLevel : Re := Re.seqs [
  .start, .plus nonSpace, .one fun c => c = ' ' || c = 'T', .plus nonSpace, .plus (· = ' '),
  levelWord ["TRACE", "DEBUG", "INFO", "WARN", "WARNING", "ERROR", "FATAL"], .boundary]

def airflowLevel : Re := Re.seqs [
  .start, lit "[", .plus (· ≠ ']'), lit "] \x7b", .many fun c => c ≠ '}', lit "\x7d ",
  levelRun Char.isUpper, lit " - "]

def log4jLevel : Re := Re.seqs [
  .start, threePairs "/", space, threePairs ":", space, levelRun Char.isUpper, space]

def klogLevel : Re := Re.seqs [
  .start, levelWord ["I", "W", "E", "F"], digits 4, space, threePairs ":"]

def fluentBitLevel : Re := Re.seqs [
  .start, lit "[", digits 4, lit "/", digits 2, lit "/", digits 2, space,
  .plus fun c => c.isDigit || c = ':', lit "] [", .many (· = ' '), levelRun Char.isLower, lit "]"]

def structlogLevel : Re := Re.seqs [
  .start, .plus nonSpace, lit " [", levelRun Char.isLower, .many (· = ' '), lit "] "]

def logfmtLevel : Re := Re.seqs [
  .alt .start (.one isSpace), lit "level=", levelRun Char.isAlpha]

def jsonKeyLevel : Re := Re.seqs [
  lit "\"", .words id (["level", "severity", "lvl", "levelname"].map String.toList), lit "\"",
  .many isSpace, lit ":", .many isSpace, lit "\"", levelRun Char.isAlpha, lit "\""]

/-- In the order of the stages: a later match overrides an earlier one. -/
def levelExpressions : List Re := [
  bareLevel, airflowLevel, log4jLevel, klogLevel, fluentBitLevel, structlogLevel, logfmtLevel,
  jsonKeyLevel]

/-! ## The stages -/

/-- `stage.regex`: a match overwrites what was extracted. -/
def regexStage (expression : Re) (e : Entry) : Entry :=
  match expression.find e.line.toList with
  | none => e
  | some c =>
    { e with extracted := Function.update e.extracted "level" (some (String.ofList c.text)) }

/-- What `stage.json` makes of a line: nothing where it is not JSON, and else
the text at each path, none where there is nothing or null. -/
abbrev Json := String → Option (String → Option String)

def eventFields : List (String × String) := [
  ("event_kind", "involvedObject.kind"),
  ("event_namespace", "involvedObject.namespace"),
  ("event_reason", "reason"),
  ("level", "type")]

def jsonStage (json : Json) (e : Entry) : Entry :=
  match json e.line with
  | none => e
  | some value =>
    { e with
      extracted := eventFields.foldl (fun x f => Function.update x f.1 (value f.2)) e.extracted }

/-- `stage.labels`: what was extracted under a name becomes the label. -/
def labelsStage (names : List String) (e : Entry) : Entry :=
  { e with
    labels := names.foldl
      (fun labels name => match e.extracted name with
        | some v => Function.update labels name (some v)
        | none => labels) e.labels }

/-- `stage.match` on the event exporter. -/
def eventStage (json : Json) (e : Entry) : Entry :=
  if e.labels "app" = some "k8s-event-exporter" then
    labelsStage ["event_kind", "event_namespace", "event_reason"] (jsonStage json e)
  else e

/-- `stage.replace` with `(?i)^(…|…)$`: the group's text is replaced. -/
def replaceStage (words : List String) (replace : String) (e : Entry) : Entry :=
  match e.extracted "level" with
  | none => e
  | some v =>
    match (Re.whole Char.toLower (words.map String.toList)).find v.toList with
    | none => e
    | some c =>
      { e with
        extracted := Function.update e.extracted "level"
          (some (String.ofList (c.before ++ replace.toList ++ c.after))) }

def levelReplacements : List (List String × String) := [
  (["t", "trace"], "trace"),
  (["d", "debug"], "debug"),
  (["i", "info", "information", "notice", "normal"], "info"),
  (["w", "warn", "warning"], "warn"),
  (["e", "err", "error"], "error"),
  (["f", "fatal", "crit", "critical", "panic", "alert", "emerg"], "fatal")]

/-- A line through the pipeline. The labels are there to be extracted from. -/
def pods (json : Json) (target : Target) (line : String) : Entry :=
  let e : Entry := { labels := target.labels, extracted := target.labels, line }
  let e := levelExpressions.foldl (fun e r => regexStage r e) e
  let e := eventStage json e
  let e := levelReplacements.foldl (fun e r => replaceStage r.1 r.2 e) e
  labelsStage ["level"] e

end BigDataPlatform.PodLogs
