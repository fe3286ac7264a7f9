import BigDataPlatform.PodLogs.Level

/-! # config.alloy: loki.process "spark_node_files"

The JVM's GC logs and the diag appender's files of one node. The file's name
gives the type of the log and the role of its process, a line gives its level;
here, unlike in the pod logs, every expression lists the words it captures. -/
namespace BigDataPlatform.PodLogs
open Lib.Regex

/-! ## The stages -/

/-- `stage.replace` with `^(…|…)$`. -/
def replaceFrom (source : String) (words : List String) (replace : String) (e : Entry) : Entry :=
  match e.extracted source with
  | none => e
  | some v => match (Re.whole id (words.map String.toList)).find v.toList with
    | none => e
    | some c =>
      { e with
        extracted := Function.update e.extracted source
          (some (String.ofList (c.before ++ replace.toList ++ c.after))) }

/-- The static target of a node; the file source adds the file's name. -/
structure NodeFile where
  nodeName : String
  hostIp : String
  filename : String

def NodeFile.labels (f : NodeFile) : String → Option String
  | "__path__" => some "/spark-nvme/\x7bgc-*.log*,diag*.log\x7d"
  | "job" => some "spark-node-files"
  | "node_name" => some f.nodeName
  | "host_ip" => some f.hostIp
  | "filename" => some f.filename
  | _ => none

end BigDataPlatform.PodLogs
