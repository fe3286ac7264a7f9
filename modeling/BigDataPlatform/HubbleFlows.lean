import BigDataPlatform.PodLogs.NodeFiles
import Mathlib.Data.List.Induction
import Mathlib.Data.List.TakeWhile

/-! # config.alloy: loki.process "hubble"

Cilium's flows of one node, a line each: every flow is counted, and those that
were not forwarded go to Loki. A counter that has not changed for a while is
given up and begins again. -/
namespace BigDataPlatform.HubbleFlows
open PodLogs

/-! ## The stages -/

def flowFields : List (String × String) := [
  ("verdict", "flow.verdict"),
  ("drop_reason", "flow.drop_reason_desc")]

/-- `stage.json`. -/
def flowStage (json : Json) (e : Entry) : Entry :=
  match json e.line with
  | none => e
  | some value =>
    { e with
      extracted := flowFields.foldl (fun x f => Function.update x f.1 (value f.2)) e.extracted }

/-- The static target's labels, and the file source's. -/
def fileLabels (nodeName : String) : String → Option String
  | "job" => some "hubble"
  | "node_name" => some nodeName
  | "filename" => some "/var/run/cilium/hubble/events.log"
  | _ => none

/-- A line up to `stage.metrics`. -/
def counted (json : Json) (nodeName line : String) : Entry :=
  let labels := fileLabels nodeName
  labelsStage ["verdict", "drop_reason"] (flowStage json { labels, extracted := labels, line })

/-- verdict and drop_reason: the labels of `flows_total` that vary. -/
abbrev Key := Option String × Option String

def key (e : Entry) : Key := (e.labels "verdict", e.labels "drop_reason")

/-- `stage.drop`. -/
def drops (e : Entry) : Bool := e.extracted "verdict" = some "FORWARDED"

/-- `stage.label_drop`. -/
def labelDrop (name : String) (e : Entry) : Entry := { e with labels := Function.update e.labels name none }

structure Sys where
  sent : List Entry          -- to Loki, the oldest first
  total : Key → Nat          -- hubble_export_flows_total

inductive Event where
  | line (text : String)
  | stale (k : Key)
deriving DecidableEq

def step (json : Json) (nodeName : String) (s : Sys) : Event → Sys
  | .line text =>
    let e := counted json nodeName text
    { sent := if drops e then s.sent else s.sent ++ [labelDrop "filename" e]
      total := Function.update s.total (key e) (s.total (key e) + 1) }
  | .stale k => { s with total := Function.update s.total k 0 }

def run (json : Json) (nodeName : String) (events : List Event) : Sys :=
  events.foldl (step json nodeName) ⟨[], fun _ => 0⟩

/-! ## What is said of a line -/

def Event.read : Event → Option String
  | .line text => some text
  | .stale _ => none

/-- Three lines, of which the last is torn. -/
example : (run (fun text => if text = "\x7b" then none else some fun _ => some text) "n"
    [.line "FORWARDED", .line "DROPPED", .line "\x7b"]).sent.map (·.line) = ["DROPPED", "\x7b"] := by
  decide +kernel

end BigDataPlatform.HubbleFlows
