import BigDataPlatform.Lib.LastWrite
import BigDataPlatform.PcapAnnotate.Main
import Mathlib.Data.List.Induction

/-! # pcap-annotate.py: load_names

The labels of one run: the built-in entry, overridden by the IP cache,
overridden line by line by the pod map; the result is the next run's cache. -/
namespace BigDataPlatform.PcapAnnotate
open BigDataPlatform.Lib.LastWrite

/-- One pod as capture.sh's podmap writes it: the fields read here, and the
phase, which no code reads. `none` is JSON null. -/
structure Pod where
  podIp : Option String
  hostNetwork : Bool
  node : Option String
  podNamespace : Option String
  pod : Option String
  hostIp : Option String
  phase : Option String
deriving DecidableEq

/-- A pod map: what `json.loads` makes of each line, `none` where it raises
`ValueError`. It ends where reading it raises `OSError`: a file that cannot be
opened has no lines. -/
abbrev PodMap := List (Option Pod)

/-- The file at `cache_path`. What was dumped as JSON loads back as it was. -/
inductive CacheFile where
  | absent
  | unreadable
  | holds (names : Names)

/-- `if x`: neither `None` nor empty. -/
def truthy (x : Option String) : Option String := x.filter (· ≠ "")

/-- `x or "?"`. -/
def orUnknown (x : Option String) : String := (truthy x).getD "?"

def nodeLocalDns : String := "169.254.20.10"

def builtin : Names :=
  Function.update (fun _ => none) nodeLocalDns (some "kube-system/node-local-dns")

/-- `names.update(json.load(f))`. -/
def loadCache (names : Names) : CacheFile → Names
  | .holds cached => fun ip => (cached ip).or (names ip)
  | .absent | .unreadable => names

def nodeLabel (p : Pod) : String := "node/" ++ orUnknown p.node

def podLabel (p : Pod) : String :=
  if p.hostNetwork then nodeLabel p else orUnknown p.podNamespace ++ "/" ++ orUnknown p.pod

/-- One turn of the loop over the pod map. A pod without an IP is skipped before
its host IP is looked at. -/
def readLine (names : Names) : Option Pod → Names
  | none => names
  | some p =>
    match truthy p.podIp with
    | none => names
    | some ip =>
      let names := Function.update names ip (some (podLabel p))
      match truthy p.hostIp with
      | none => names
      | some hostIp => Function.update names hostIp (some (nodeLabel p))

/-- The labels, and the cache file afterwards; `cache` is `none` where no path
was given, and `written` says whether the dump and its rename succeed. -/
def loadNames (podmap : PodMap) (cache : Option CacheFile) (written : Bool) :
    Names × Option CacheFile :=
  let names := podmap.foldl readLine (loadCache builtin (cache.getD .absent))
  (names, cache.map fun file => if written then .holds names else file)

/-- The cache file after runs on these pod maps, each writing it; absent at first. -/
def cacheAfter (runs : List PodMap) : CacheFile :=
  runs.foldl (fun file podmap => ((loadNames podmap (some file) true).2).getD file) .absent

/-- The label main puts in a comment. -/
def label (names : Names) (ip : String) : String := (names ip).getD "external"

/-! ## What a pod map says -/

/-- The IPs a line mentions, each with its label: a pod's own, and its host's
if the pod has one. -/
def mentions : Option Pod → List (String × String)
  | none => []
  | some p =>
    match truthy p.podIp with
    | none => []
    | some ip => (ip, podLabel p) :: ((truthy p.hostIp).map fun h => (h, nodeLabel p)).toList

/-- The label of the last mention of `ip`. -/
def mapLabel (podmap : PodMap) (ip : String) : Option String :=
  lastWrite (podmap.flatMap mentions) ip

theorem readLine_eq (names : Names) (line : Option Pod) :
    readLine names line = writes names (mentions line) := by
  cases line with
  | none => rfl
  | some p =>
    simp only [readLine, mentions]
    cases truthy p.podIp with
    | none => rfl
    | some ip => cases truthy p.hostIp <;> rfl

theorem foldl_readLine (podmap : PodMap) (names : Names) :
    podmap.foldl readLine names = writes names (podmap.flatMap mentions) := by
  induction podmap generalizing names with
  | nil => rfl
  | cons line podmap ih =>
    rw [List.foldl_cons, List.flatMap_cons, writes_append, ih, readLine_eq]

/-- One run: the pod map first, then the cache, then the built-in entry. -/
theorem loadNames_apply (podmap : PodMap) (cache : Option CacheFile) (written : Bool) (ip : String) :
    (loadNames podmap cache written).1 ip =
      (mapLabel podmap ip).or (loadCache builtin (cache.getD .absent) ip) := by
  show podmap.foldl readLine (loadCache builtin (cache.getD .absent)) ip = _
  rw [foldl_readLine, writes_apply, mapLabel]

/-! ## What the cache remembers -/

/-- The newest of the runs' labels for `ip`. -/
def newestLabel (runs : List PodMap) (ip : String) : Option String :=
  runs.reverse.findSome? fun podmap => mapLabel podmap ip

theorem newestLabel_snoc (runs : List PodMap) (podmap : PodMap) (ip : String) :
    newestLabel (runs ++ [podmap]) ip = (mapLabel podmap ip).or (newestLabel runs ip) := by
  rw [newestLabel, List.reverse_append, List.reverse_singleton, List.singleton_append,
    List.findSome?_cons]
  cases mapLabel podmap ip <;> rfl

/-- The invariant over the runs: what the next run starts from is the newest
label of each IP, or the built-in entry. -/
theorem loadCache_cacheAfter (runs : List PodMap) (ip : String) :
    loadCache builtin (cacheAfter runs) ip = (newestLabel runs ip).or (builtin ip) := by
  induction runs using List.reverseRecOn with
  | nil => rfl
  | append_singleton runs podmap ih =>
    rw [cacheAfter, List.foldl_append]
    show ((loadNames podmap (some (cacheAfter runs)) true).1 ip).or (builtin ip) = _
    rw [loadNames_apply, Option.getD_some, ih, newestLabel_snoc]
    cases mapLabel podmap ip with
    | some l => rfl
    | none =>
      cases newestLabel runs ip with
      | some l => rfl
      | none => cases builtin ip <;> rfl

theorem newestLabel_eq_some {earlier later : List PodMap} {podmap : PodMap} {ip text : String}
    (h : mapLabel podmap ip = some text) (hl : ∀ m ∈ later, mapLabel m ip = none) :
    newestLabel (earlier ++ podmap :: later) ip = some text := by
  have hn : later.reverse.findSome? (fun m => mapLabel m ip) = none :=
    List.findSome?_eq_none_iff.mpr fun m hm => hl m (List.mem_reverse.mp hm)
  rw [newestLabel, List.reverse_append, List.reverse_cons, List.append_assoc,
    List.findSome?_append, hn, Option.none_or, List.singleton_append, List.findSome?_cons, h]

theorem newestLabel_eq_none {runs : List PodMap} {ip : String} :
    newestLabel runs ip = none ↔ ∀ m ∈ runs, mapLabel m ip = none := by
  simp [newestLabel]

/-- The names of the last of these runs, on one cache file. -/
def namesOfRun (earlier : List PodMap) (podmap : PodMap) : Names :=
  (loadNames podmap (some (cacheAfter earlier)) true).1

theorem namesOfRun_apply (earlier : List PodMap) (podmap : PodMap) (ip : String) :
    namesOfRun earlier podmap ip = (newestLabel (earlier ++ [podmap]) ip).or (builtin ip) := by
  rw [namesOfRun, loadNames_apply, Option.getD_some, loadCache_cacheAfter, newestLabel_snoc,
    Option.or_assoc]

/-- **The IP cache remembers every pod seen.** After any runs sharing a cache
file, an IP has the label of the newest run whose pod map mentions it, and one
that none mentions has the built-in label or is external. -/
theorem namesOfRun_remembers (runs : List PodMap) (last : PodMap) (ip : String) :
    (∀ earlier podmap later text, runs ++ [last] = earlier ++ podmap :: later →
        mapLabel podmap ip = some text → (∀ m ∈ later, mapLabel m ip = none) →
        label (namesOfRun runs last) ip = text) ∧
      ((∀ m ∈ runs ++ [last], mapLabel m ip = none) →
        label (namesOfRun runs last) ip =
          if ip = nodeLocalDns then "kube-system/node-local-dns" else "external") := by
  rw [label, namesOfRun_apply]
  constructor
  · intro earlier podmap later text hruns hm hl
    rw [hruns, newestLabel_eq_some hm hl]
    rfl
  · intro hn
    rw [newestLabel_eq_none.mpr hn, Option.none_or, builtin, Function.update_apply]
    split <;> rfl

def executor : Pod where
  podIp := some "10.0.4.17"
  hostNetwork := false
  node := some "node-a"
  podNamespace := some "default"
  pod := some "exec-3"
  hostIp := some "10.0.1.5"
  phase := some "Running"

/-- An executor that is gone from the second pod map still has its name. -/
theorem exited_executor_named :
    label (namesOfRun [[some executor]] [none]) "10.0.4.17" = "default/exec-3" :=
  (namesOfRun_remembers [[some executor]] [none] "10.0.4.17").1 [] [some executor] [[none]] _ rfl
    (by decide) (by decide)

/-- A pod still without an IP names its host in vain. -/
theorem pending_host_external :
    let pending := { executor with podIp := none, phase := some "Pending" }
    pending.hostIp = some "10.0.1.5" ∧
      label (namesOfRun [] [some pending]) "10.0.1.5" = "external" := by
  decide

end BigDataPlatform.PcapAnnotate
