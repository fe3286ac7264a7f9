import BigDataPlatform.PcapAnnotate.LoadNames

/-! # Does a live pod's address carry its name?

capture.sh's `podmap` writes one line for every pod on the node, whatever its
phase, in the API server's order. A finished pod still reports the address it
had, and `load_names` keeps the last line that mentions an address. -/
namespace BigDataPlatform.PcapAnnotate
open BigDataPlatform.Lib.LastWrite

inductive Phase where
  | pending
  | running
  | succeeded
  | failed
  | unknown
deriving DecidableEq

def Phase.text : Phase → String
  | pending => "Pending"
  | running => "Running"
  | succeeded => "Succeeded"
  | failed => "Failed"
  | unknown => "Unknown"

/-- A pod as the API server returns it, as far as `podmap` and `load_names` look.
The API leaves an empty field out. -/
structure ApiPod where
  podNamespace : String
  name : String
  podIP : Option String
  phase : Phase
  hostNetwork : Option Bool
  namespace_ne : podNamespace ≠ ""
  name_ne : name ≠ ""
  podIP_ne : podIP ≠ some ""
deriving DecidableEq

/-- `NODE_NAME` and `HOST_IP`. -/
structure Node where
  name : String
  hostIP : String
  name_ne : name ≠ ""
  hostIP_ne : hostIP ≠ ""

def ApiPod.onHost (p : ApiPod) : Bool := p.hostNetwork.getD false

def ApiPod.live (p : ApiPod) : Bool := p.phase ≠ .succeeded ∧ p.phase ≠ .failed

def ApiPod.label (p : ApiPod) : String := p.podNamespace ++ "/" ++ p.name

def Node.label (node : Node) : String := "node/" ++ node.name

/-- One line of `podmap`. -/
def podLine (node : Node) (p : ApiPod) : Pod where
  podIp := p.podIP
  hostNetwork := p.onHost
  node := some node.name
  podNamespace := some p.podNamespace
  pod := some p.name
  hostIp := some node.hostIP
  phase := some p.phase.text

def podmap (node : Node) (pods : List ApiPod) : PodMap := pods.map fun p => some (podLine node p)

/-! ## What the map says of an address -/

/-- The label a pod's own line gives its address. -/
def lineLabel (node : Node) (p : ApiPod) : String := if p.onHost then node.label else p.label

/-- The pod on the last line with this address. -/
def lastHolder (pods : List ApiPod) (a : String) : Option ApiPod :=
  pods.reverse.find? fun p => p.podIP = some a

theorem truthy_of_ne {s : String} (h : s ≠ "") : truthy (some s) = some s := by
  simp [truthy, h]

theorem mentions_podLine (node : Node) (p : ApiPod) :
    mentions (some (podLine node p)) =
      (p.podIP.map fun ip => [(ip, lineLabel node p), (node.hostIP, node.label)]).getD [] := by
  have hnode : nodeLabel (podLine node p) = node.label := by
    rw [nodeLabel, orUnknown, podLine, truthy_of_ne node.name_ne]
    rfl
  have hpod : podLabel (podLine node p) = lineLabel node p := by
    rw [podLabel, hnode, lineLabel, orUnknown, orUnknown]
    show (if p.onHost then _ else (truthy (some p.podNamespace)).getD "?" ++ "/" ++
      (truthy (some p.name)).getD "?") = _
    rw [truthy_of_ne p.namespace_ne, truthy_of_ne p.name_ne]
    rfl
  have hhost : truthy (podLine node p).hostIp = some node.hostIP := truthy_of_ne node.hostIP_ne
  have hip : truthy (podLine node p).podIp = p.podIP := by
    rw [podLine]
    cases hp : p.podIP with
    | none => rfl
    | some ip => exact truthy_of_ne fun h => p.podIP_ne (hp.trans (congrArg some h))
  rw [mentions, hnode, hpod, hip, hhost]
  cases p.podIP with
  | none => rfl
  | some ip => rfl

theorem podmap_snoc (node : Node) (pods : List ApiPod) (p : ApiPod) (a : String) :
    mapLabel (podmap node (pods ++ [p])) a =
      (lastWrite (mentions (some (podLine node p))) a).or (mapLabel (podmap node pods) a) := by
  simp [mapLabel, podmap, lastWrite_append]

theorem lastHolder_snoc (pods : List ApiPod) (p : ApiPod) (a : String) :
    lastHolder (pods ++ [p]) a = if p.podIP = some a then some p else lastHolder pods a := by
  rw [lastHolder, List.reverse_append, List.reverse_singleton, List.singleton_append,
    List.find?_cons]
  by_cases h : p.podIP = some a
  · simp [h]
  · simp [h, lastHolder]

/-- The host's own address is the node's as soon as any pod has an address. -/
theorem mapLabel_hostIP (node : Node) {pods : List ApiPod} {p : ApiPod} (hp : p ∈ pods)
    (hip : p.podIP ≠ none) : mapLabel (podmap node pods) node.hostIP = some node.label := by
  induction pods using List.reverseRecOn with
  | nil => cases hp
  | append_singleton pods q ih =>
    rw [podmap_snoc, mentions_podLine]
    cases hq : q.podIP with
    | some ip =>
      -- the host's address is the second that this line mentions
      show (lastWrite ([(ip, lineLabel node q)] ++ [(node.hostIP, node.label)]) node.hostIP).or _ = _
      rw [lastWrite_append, lastWrite_singleton, if_pos rfl]
      rfl
    | none =>
      have hmem : p ∈ pods := by
        rcases List.mem_append.mp hp with h | h
        · exact h
        · rw [List.mem_singleton.mp h] at hip
          exact absurd hq hip
      exact ih hmem

/-- Any other address has the label of the last line with it. -/
theorem mapLabel_podIP (node : Node) (pods : List ApiPod) {a : String} (ha : a ≠ node.hostIP) :
    mapLabel (podmap node pods) a = (lastHolder pods a).map (lineLabel node) := by
  induction pods using List.reverseRecOn with
  | nil => rfl
  | append_singleton pods q ih =>
    rw [podmap_snoc, mentions_podLine, lastHolder_snoc, ih]
    cases hq : q.podIP with
    | none => rfl
    | some ip =>
      show (lastWrite ([(ip, lineLabel node q)] ++ [(node.hostIP, node.label)]) a).or _ = _
      rw [lastWrite_append, lastWrite_singleton, lastWrite_singleton, if_neg (Ne.symm ha),
        Option.none_or]
      by_cases h : ip = a
      · simp [h]
      · simp [h]

theorem lastHolder_holds {pods : List ApiPod} {a : String} {q : ApiPod}
    (h : lastHolder pods a = some q) : q ∈ pods ∧ q.podIP = some a := by
  rw [lastHolder] at h
  have hp := List.find?_some h
  exact ⟨List.mem_reverse.mp (List.mem_of_find?_eq_some h), by simpa using hp⟩

theorem lastHolder_isSome {pods : List ApiPod} {p : ApiPod} {a : String} (hp : p ∈ pods)
    (ha : p.podIP = some a) : ∃ q, lastHolder pods a = some q := by
  refine Option.isSome_iff_exists.mp (List.find?_isSome.mpr ⟨p, List.mem_reverse.mpr hp, ?_⟩)
  exact decide_eq_true ha

/-! ## The property and the order it needs -/

/-- `p` is the one live pod on the pod network that holds this address. -/
structure SoleHolder (pods : List ApiPod) (a : String) (p : ApiPod) : Prop where
  mem : p ∈ pods
  holds : p.podIP = some a
  live : p.live ∧ ¬ p.onHost
  sole : ∀ q ∈ pods, q.podIP = some a → q.live ∧ ¬ q.onHost → q = p

/-- The addresses of live pods have their names, those of host-network pods the
node's. -/
structure LivePodsNamed (node : Node) (pods : List ApiPod) (cache : Option CacheFile)
    (written : Bool) : Prop where
  live : ∀ a p, SoleHolder pods a p →
    (loadNames (podmap node pods) cache written).1 a = some p.label
  host : ∀ a, ∀ p ∈ pods, p.onHost → p.podIP = some a →
    (loadNames (podmap node pods) cache written).1 a = some node.label

/-- The last line with an address speaks for the pod that holds it now. A pod
that has the host's own address is labelled as the node. -/
structure LastLineLive (node : Node) (pods : List ApiPod) : Prop where
  live : ∀ a p, SoleHolder pods a p →
    if a = node.hostIP then p.label = node.label
    else ∀ q, lastHolder pods a = some q → lineLabel node q = p.label
  host : ∀ a, ∀ p ∈ pods, p.onHost → p.podIP = some a → a ≠ node.hostIP →
    ∀ q, lastHolder pods a = some q → lineLabel node q = node.label

/-- What the run makes of an address that some pod reports. -/
theorem loadNames_podIP (node : Node) {pods : List ApiPod} (cache : Option CacheFile)
    (written : Bool) {p : ApiPod} {a : String} (hp : p ∈ pods) (ha : p.podIP = some a) :
    ∃ q, lastHolder pods a = some q ∧
      (loadNames (podmap node pods) cache written).1 a =
        some (if a = node.hostIP then node.label else lineLabel node q) := by
  obtain ⟨q, hq⟩ := lastHolder_isSome hp ha
  refine ⟨q, hq, ?_⟩
  rw [loadNames_apply]
  by_cases hhost : a = node.hostIP
  · rw [if_pos hhost, hhost, mapLabel_hostIP node hp (by rw [ha]; simp)]
    rfl
  · rw [if_neg hhost, mapLabel_podIP node pods hhost, hq]
    rfl

/-- An address that some pod reports has the label of the last line with it, and
the host's own the node's. -/
theorem loadNames_named_iff (node : Node) {pods : List ApiPod} (cache : Option CacheFile)
    (written : Bool) {p : ApiPod} {a : String} (hp : p ∈ pods) (ha : p.podIP = some a)
    (text : String) :
    (loadNames (podmap node pods) cache written).1 a = some text ↔
      if a = node.hostIP then text = node.label
      else ∀ q, lastHolder pods a = some q → lineLabel node q = text := by
  obtain ⟨q, hq, hname⟩ := loadNames_podIP node cache written hp ha
  rw [hname, Option.some.injEq]
  split
  · exact eq_comm
  · constructor
    · intro h q' hq'
      cases hq.symm.trans hq'
      exact h
    · intro h
      exact h q hq

/-- **A live pod's packets carry its name exactly if the last line with its
address is its own**, or one with the same label; the phase is never asked. -/
theorem livePodsNamed_iff (node : Node) (pods : List ApiPod) (cache : Option CacheFile)
    (written : Bool) :
    LivePodsNamed node pods cache written ↔ LastLineLive node pods := by
  constructor
  · intro h
    constructor
    · intro a p hp
      exact (loadNames_named_iff node cache written hp.mem hp.holds _).mp (h.live a p hp)
    · intro a p hp hon ha hhost
      have hnode := (loadNames_named_iff node cache written hp ha _).mp (h.host a p hp hon ha)
      rwa [if_neg hhost] at hnode
  · intro h
    constructor
    · intro a p hp
      exact (loadNames_named_iff node cache written hp.mem hp.holds _).mpr (h.live a p hp)
    · intro a p hp hon ha
      refine (loadNames_named_iff node cache written hp ha _).mpr ?_
      split
      · rfl
      · next hhost => exact h.host a p hp hon ha hhost

theorem SoleHolder.perm {pods order : List ApiPod} (h : order.Perm pods) {a : String} {p : ApiPod}
    (hp : SoleHolder order a p) : SoleHolder pods a p :=
  ⟨h.mem_iff.mp hp.mem, hp.holds, hp.live, fun q hq => hp.sole q (h.mem_iff.mpr hq)⟩

/-- On a cluster's own terms (host-network pods have the host's address and no
other pod does, names are unique) the map may be in any order exactly if nothing
else still reports the address of a live pod. -/
theorem named_in_every_order_iff (node : Node) (pods : List ApiPod) (cache : Option CacheFile)
    (written : Bool)
    (hnet : ∀ p ∈ pods, ∀ a, p.podIP = some a → (p.onHost ↔ a = node.hostIP))
    (hid : ∀ p ∈ pods, ∀ q ∈ pods, p.label = q.label → p = q) :
    (∀ order, order.Perm pods → LivePodsNamed node order cache written) ↔
      ∀ a p, SoleHolder pods a p → ∀ q ∈ pods, q.podIP = some a → q = p := by
  have hhost {a p} (hp : SoleHolder pods a p) : a ≠ node.hostIP := fun h =>
    hp.live.2 ((hnet p hp.mem a hp.holds).mpr h)
  have hlabel {q a} (hq : q ∈ pods) (ha : q.podIP = some a) (hne : a ≠ node.hostIP) :
      lineLabel node q = q.label := if_neg fun hon => hne ((hnet q hq a ha).mp hon)
  constructor
  · intro h a p hp q hq ha
    -- the order that lists `q` last
    have hperm : (pods.erase q ++ [q]).Perm pods :=
      (List.perm_append_singleton q _).trans (List.perm_cons_erase hq).symm
    have hlast := ((livePodsNamed_iff node _ cache written).mp (h _ hperm)).live a p
      (hp.perm hperm.symm)
    rw [if_neg (hhost hp)] at hlast
    have hq' : lastHolder (pods.erase q ++ [q]) a = some q := by rw [lastHolder_snoc, if_pos ha]
    have hsame := hlast q hq'
    rw [hlabel hq ha (hhost hp)] at hsame
    exact hid q hq p hp.mem hsame
  · intro h order hperm
    refine (livePodsNamed_iff node order cache written).mpr ⟨fun a p hp => ?_, ?_⟩
    · have hp' := hp.perm hperm
      rw [if_neg (hhost hp')]
      intro q hq
      obtain ⟨hmem, ha⟩ := lastHolder_holds hq
      rw [hperm.mem_iff] at hmem
      rw [hlabel hmem ha (hhost hp'), h a p hp' q hmem ha]
    · intro a p hp hon ha hne
      exact absurd ((hnet p (hperm.mem_iff.mp hp) a ha).mp hon) hne

def nodeA : Node where
  name := "node-a"
  hostIP := "10.0.1.5"
  name_ne := by decide
  hostIP_ne := by decide

/-- The executor that runs now. -/
def exec10 : ApiPod where
  podNamespace := "default"
  name := "exec-10"
  podIP := some "10.0.4.17"
  phase := .running
  hostNetwork := none
  namespace_ne := by decide
  name_ne := by decide
  podIP_ne := by decide

/-- The finished one that had the address before it, kept for its logs. -/
def exec3 : ApiPod := { exec10 with name := "exec-3", phase := .succeeded, name_ne := by decide }

/-- Listed by name the finished executor comes last, and the packets of the one
that runs carry its name; in the other order they carry their own. -/
theorem finished_pod_named :
    (loadNames (podmap nodeA [exec10, exec3]) none true).1 "10.0.4.17" = some "default/exec-3" ∧
      (loadNames (podmap nodeA [exec3, exec10]) none true).1 "10.0.4.17" = some "default/exec-10" ∧
      ¬ LivePodsNamed nodeA [exec10, exec3] none true := by
  have hnamed : (loadNames (podmap nodeA [exec10, exec3]) none true).1 "10.0.4.17" =
      some "default/exec-3" := by decide
  refine ⟨hnamed, by decide, ?_⟩
  intro h
  have hsole : SoleHolder [exec10, exec3] "10.0.4.17" exec10 := by
    refine ⟨by simp, rfl, by decide, fun q hq _ hlive => ?_⟩
    rcases List.mem_cons.mp hq with rfl | hq
    · rfl
    · rw [List.mem_singleton.mp hq] at hlive
      exact absurd hlive (by decide)
  have hlive := h.live _ _ hsole
  rw [hnamed] at hlive
  exact absurd hlive (by decide)

end BigDataPlatform.PcapAnnotate
