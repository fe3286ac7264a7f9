import BigDataPlatform.Lib.Relabel
import Mathlib.Data.List.Basic

/-! # config.alloy: the node's metrics

discovery.relabel "node_exporter" and "cilium": which of a node's targets are
scraped, and under which labels. Both take the same targets. -/
namespace BigDataPlatform.NodeMetrics
open Lib.Regex Lib.Relabel

/-! ## The rules -/

def appName : String := "__meta_kubernetes_pod_label_app_kubernetes_io_name"
def k8sApp : String := "__meta_kubernetes_pod_label_k8s_app"
def portName : String := "__meta_kubernetes_pod_container_port_name"

/-- What both lists copy. -/
def addressCopies : List (String × String) := [
  ("__address__", "instance"),
  ("__meta_kubernetes_namespace", "namespace"),
  ("__meta_kubernetes_pod_name", "pod"),
  ("__meta_kubernetes_pod_container_name", "container")]

def keepNodeExporter : Rule where
  sourceLabels := [appName, portName]
  regex := (Re.words id ["prometheus-node-exporter;http-metrics".toList]).run
  action := .keep

def nodeExporterRules : List Rule :=
  keepNodeExporter :: .set "job" "node-exporter".toList :: copyRules addressCopies ++
    [.set "service" "node-exporter".toList, .set "endpoint" "http-metrics".toList]

def keepCilium : Rule where
  sourceLabels := [k8sApp, portName]
  regex := (Re.seq (.word id "cilium;".toList)
    (.group (.words id ["prometheus".toList, "hubble-metrics".toList]))).run
  action := .keep

/-- On the targets of one port. -/
def onPort (port target value : String) : Rule where
  sourceLabels := [portName]
  regex := (Re.words id [port.toList]).run
  targetLabel := target
  replacement := [.text value.toList]

def portRules : List Rule := [
  onPort "prometheus" "job" "cilium-agent", onPort "prometheus" "endpoint" "metrics",
  onPort "hubble-metrics" "job" "hubble-metrics", onPort "hubble-metrics" "endpoint" "hubble-metrics"]

def nodeCopies : List (String × String) := [
  ("__meta_kubernetes_pod_node_name", "node"),
  ("__meta_kubernetes_pod_host_ip", "host_ip"),
  ("__meta_kubernetes_pod_ip", "pod_ip")]

def ciliumRules : List Rule :=
  keepCilium :: portRules ++ .copy "job" "service" :: copyRules (addressCopies ++ nodeCopies)

/-! ## The targets -/

def sources : List String := [appName, k8sApp, portName] ++ (addressCopies ++ nodeCopies).map (·.1)

/-- A port of a container, with values that the API server admits. -/
structure PortTarget where
  labels : Labels
  value : ∀ n ∈ sources, '\n' ∉ labels n ∧ ';' ∉ labels n

variable {t : PortTarget} {ls out : Labels} {n : String}

theorem result_onPort (port target value : String) : (onPort port target value).result ls =
    if ls portName = port.toList then value.toList else ls target := by
  have hwords : ∀ text, (fullMatch (onPort port target value).regex text).isSome ↔ text ∈ [port.toList] :=
    fun _ => fullMatch_words
  rw [result_onWords rfl rfl hwords]
  simp only [List.mem_singleton]
  rfl

theorem relabel_onPort {port : String} (h : ls portName = port.toList) (target value : String) (rules : List Rule) :
    relabel (onPort port target value :: rules) ls = relabel rules (Function.update ls target value.toList) := by
  rw [relabel_cons, apply_replace rfl, result_onPort, if_pos h]
  rfl

theorem relabel_otherPort {port : String} (h : ls portName ≠ port.toList) (target value : String)
    (rules : List Rule) : relabel (onPort port target value :: rules) ls = relabel rules ls := by
  have hsame : Function.update ls (onPort port target value).targetLabel (ls target) = ls :=
    Function.update_eq_self target ls
  rw [relabel_cons, apply_replace rfl, result_onPort, if_neg h, hsame]
  rfl

theorem value_pair {r : Rule} {a b : String} (hsources : r.sourceLabels = [a, b])
    (hseparator : r.separator = [';']) (ls : Labels) : r.value ls = ls a ++ ';' :: ls b := by
  rw [Rule.value, hsources, hseparator]
  simp [List.intercalate_cons_cons]

theorem pair_eq {a b a' b' : List Char} (ha : ';' ∉ a) (hb : ';' ∉ b) :
    a ++ ';' :: b = a' ++ ';' :: b' ↔ a = a' ∧ b = b' := by
  rw [List.append_cons_inj_of_notMem ha hb]
  simp

theorem keeps_nodeExporter (t : PortTarget) :
    (fullMatch keepNodeExporter.regex (keepNodeExporter.value t.labels)).isSome ↔
      t.labels appName = "prometheus-node-exporter".toList ∧ t.labels portName = "http-metrics".toList := by
  have happ := (t.value appName (by decide)).2
  have hport := (t.value portName (by decide)).2
  have htext : "prometheus-node-exporter;http-metrics".toList =
      "prometheus-node-exporter".toList ++ ';' :: "http-metrics".toList := by decide
  rw [value_pair rfl rfl, keepNodeExporter, fullMatch_words, List.mem_singleton, htext,
    pair_eq happ hport]

theorem keeps_cilium (t : PortTarget) : (fullMatch keepCilium.regex (keepCilium.value t.labels)).isSome ↔
    t.labels k8sApp = "cilium".toList ∧
      (t.labels portName = "prometheus".toList ∨ t.labels portName = "hubble-metrics".toList) := by
  have happ := (t.value k8sApp (by decide)).2
  have hport := (t.value portName (by decide)).2
  have hsplit : ∀ v : List Char, t.labels k8sApp ++ ';' :: t.labels portName = "cilium;".toList ++ v ↔
      t.labels k8sApp = "cilium".toList ∧ t.labels portName = v := by
    intro v
    have htext : "cilium;".toList ++ v = "cilium".toList ++ ';' :: v := rfl
    rw [htext, pair_eq happ hport]
  rw [value_pair rfl rfl, keepCilium, fullMatch_word_words]
  simp only [hsplit, List.mem_cons, List.not_mem_nil, or_false]
  constructor
  · rintro ⟨v, rfl | rfl, ha, hp⟩
    · exact ⟨ha, Or.inl hp⟩
    · exact ⟨ha, Or.inr hp⟩
  · rintro ⟨ha, hp | hp⟩
    · exact ⟨_, Or.inl rfl, ha, hp⟩
    · exact ⟨_, Or.inr rfl, ha, hp⟩

/-! ## What is scraped -/

inductive Component where
  | nodeExporter
  | ciliumAgent
  | hubble
deriving DecidableEq

namespace Component

/-- Which targets are its metrics. -/
def Of : Component → PortTarget → Prop
  | nodeExporter, t => t.labels appName = "prometheus-node-exporter".toList ∧
      t.labels portName = "http-metrics".toList
  | ciliumAgent, t => t.labels k8sApp = "cilium".toList ∧ t.labels portName = "prometheus".toList
  | hubble, t => t.labels k8sApp = "cilium".toList ∧ t.labels portName = "hubble-metrics".toList

/-- The Service, which is the job as well. -/
def service : Component → String
  | nodeExporter => "node-exporter"
  | ciliumAgent => "cilium-agent"
  | hubble => "hubble-metrics"

/-- The Service's port. -/
def endpoint : Component → String
  | nodeExporter => "http-metrics"
  | ciliumAgent => "metrics"
  | hubble => "hubble-metrics"

def copies : Component → List (String × String)
  | nodeExporter => addressCopies
  | _ => addressCopies ++ nodeCopies

end Component

/-- The labels that the component's ServiceMonitor gave. -/
structure Scraped (c : Component) (t : PortTarget) (out : Labels) : Prop where
  job : out "job" = c.service.toList
  service : out "service" = c.service.toList
  endpoint : out "endpoint" = c.endpoint.toList
  copied : ∀ e ∈ c.copies, out e.2 = t.labels e.1

/-- What the two scrapes make of a target. -/
def scrapes (ls : Labels) : List Labels := [nodeExporterRules, ciliumRules].filterMap (relabel · ls)

theorem update_source (n : String) (hn : n ∉ sources) {v : List Char}
    (hsame : ∀ m ∈ sources, ls m = t.labels m) : ∀ m ∈ sources, Function.update ls n v m = t.labels m := by
  intro m hm
  rw [Function.update_of_ne (ne_of_mem_of_not_mem hm hn), hsame m hm]

/-- A row of copies, after rules that set other labels. -/
theorem copies_of (t : PortTarget) (copies : List (String × String)) (hnodup : (copies.map Prod.snd).Nodup)
    (hin : ∀ c ∈ copies, c.1 ∈ sources) (hout : ∀ c ∈ copies, c.2 ∉ sources)
    (hsame : ∀ m ∈ sources, ls m = t.labels m) :
    ∃ out, relabel (copyRules copies) ls = some out ∧ (∀ c ∈ copies, out c.2 = t.labels c.1) ∧
      ∀ n ∉ copies.map Prod.snd, out n = ls n := by
  have happart : ∀ c ∈ copies, c.1 ∉ copies.map Prod.snd := by
    intro c hc hmem
    obtain ⟨c', hc', he⟩ := List.mem_map.mp hmem
    exact hout c' hc' (he ▸ hin c hc)
  have hline : ∀ c ∈ copies, '\n' ∉ ls c.1 := by
    intro c hc
    rw [hsame _ (hin c hc)]
    exact (t.value _ (hin c hc)).1
  obtain ⟨out, hrun, hcopied, hother⟩ := relabel_copies copies ls hnodup happart hline
  refine ⟨out, hrun, fun c hc => ?_, hother⟩
  rw [hcopied c hc, hsame _ (hin c hc)]

theorem nodeExporter_scraped (h : Component.nodeExporter.Of t) :
    ∃ out, relabel nodeExporterRules t.labels = some out ∧ Scraped .nodeExporter t out := by
  obtain ⟨mid, hmid, hcopied, hother⟩ := copies_of t addressCopies (by decide) (by decide) (by decide)
    (update_source "job" (v := "node-exporter".toList) (by decide) fun _ _ => rfl)
  have hrun : relabel nodeExporterRules t.labels = some (Function.update
      (Function.update mid "service" "node-exporter".toList) "endpoint" "http-metrics".toList) := by
    rw [nodeExporterRules, List.cons_append, relabel_keep rfl, if_pos ((keeps_nodeExporter t).mpr h),
      List.cons_append, relabel_set, relabel_append, hmid, Option.bind_some, relabel_set, relabel_set]
    rfl
  refine ⟨_, hrun, ⟨?_, ?_, ?_, fun e he => ?_⟩⟩
  · rw [Function.update_of_ne (by decide), Function.update_of_ne (by decide), hother _ (by decide),
      Function.update_self]
    rfl
  · rw [Function.update_of_ne (by decide), Function.update_self]
    rfl
  · exact Function.update_self ..
  · have hkept : e.2 ≠ "endpoint" ∧ e.2 ≠ "service" :=
      (show ∀ e ∈ addressCopies, e.2 ≠ "endpoint" ∧ e.2 ≠ "service" by decide) e he
    rw [Function.update_of_ne hkept.1, Function.update_of_ne hkept.2, hcopied e he]

/-- The two ports of cilium, with the job and the endpoint that the rules give. -/
def ports : List (String × Component) := [("prometheus", .ciliumAgent), ("hubble-metrics", .hubble)]

theorem ports_set {e : String × Component} (he : e ∈ ports) (h : ls portName = e.1.toList) :
    relabel portRules ls = some (Function.update
      (Function.update ls "job" e.2.service.toList) "endpoint" e.2.endpoint.toList) := by
  -- What the rules set is not the port's name, which they read.
  have hjob : ∀ v, Function.update ls "job" v portName = ls portName := fun v =>
    Function.update_of_ne (by decide) ..
  have hboth : ∀ v w, Function.update (Function.update ls "job" v) "endpoint" w portName = ls portName := fun v w =>
    (Function.update_of_ne (by decide) ..).trans (hjob v)
  rcases List.mem_pair.mp he with rfl | rfl
  · have hother : ls portName ≠ "hubble-metrics".toList := by
      rw [h]
      decide
    rw [portRules, relabel_onPort h, relabel_onPort ((hjob _).trans h),
      relabel_otherPort (by rwa [hboth]), relabel_otherPort (by rwa [hboth])]
    rfl
  · have hother : ls portName ≠ "prometheus".toList := by
      rw [h]
      decide
    rw [portRules, relabel_otherPort hother, relabel_otherPort hother, relabel_onPort h,
      relabel_onPort ((hjob _).trans h)]
    rfl

theorem cilium_scraped {e : String × Component} (he : e ∈ ports) (happ : t.labels k8sApp = "cilium".toList)
    (hport : t.labels portName = e.1.toList) :
    ∃ out, relabel ciliumRules t.labels = some out ∧ Scraped e.2 t out := by
  have hkeep : t.labels k8sApp = "cilium".toList ∧
      (t.labels portName = "prometheus".toList ∨ t.labels portName = "hubble-metrics".toList) := by
    rcases List.mem_pair.mp he with rfl | rfl
    · exact ⟨happ, Or.inl hport⟩
    · exact ⟨happ, Or.inr hport⟩
  have hline : '\n' ∉ e.2.service.toList := by
    rcases List.mem_pair.mp he with rfl | rfl
    · decide
    · decide
  have hcopies : e.2.copies = addressCopies ++ nodeCopies := by
    rcases List.mem_pair.mp he with rfl | rfl
    · rfl
    · rfl
  obtain ⟨set, hset⟩ : ∃ set, set = Function.update
    (Function.update t.labels "job" e.2.service.toList) "endpoint" e.2.endpoint.toList := ⟨_, rfl⟩
  have hjob : set "job" = e.2.service.toList := by
    rw [hset, Function.update_of_ne (by decide), Function.update_self]
  obtain ⟨out, hrun, hcopied, hother⟩ := copies_of t (addressCopies ++ nodeCopies)
    (by decide) (by decide) (by decide) (update_source "service" (v := set "job") (by decide)
      (hset ▸ update_source "endpoint" (by decide) (update_source "job" (by decide) fun _ _ => rfl)))
  refine ⟨out, ?_, ⟨?_, ?_, ?_, ?_⟩⟩
  · rw [ciliumRules, List.cons_append, relabel_keep rfl, if_pos ((keeps_cilium t).mpr hkeep), relabel_append,
      ports_set he hport, Option.bind_some, ← hset, relabel_copy (hjob ▸ hline)]
    exact hrun
  · rw [hother _ (by decide), Function.update_of_ne (by decide), hjob]
  · rw [hother _ (by decide), Function.update_self, hjob]
  · rw [hother _ (by decide), Function.update_of_ne (by decide), hset, Function.update_self]
  · exact hcopies ▸ hcopied

theorem nodeExporter_dropped (h : ¬Component.nodeExporter.Of t) : relabel nodeExporterRules t.labels = none := by
  rw [nodeExporterRules, List.cons_append, relabel_keep rfl, if_neg (mt (keeps_nodeExporter t).mp h)]

theorem cilium_dropped (hagent : ¬Component.ciliumAgent.Of t) (hhubble : ¬Component.hubble.Of t) :
    relabel ciliumRules t.labels = none := by
  have hkeep : ¬(t.labels k8sApp = "cilium".toList ∧
      (t.labels portName = "prometheus".toList ∨ t.labels portName = "hubble-metrics".toList)) := by
    rintro ⟨happ, hport | hport⟩
    · exact hagent ⟨happ, hport⟩
    · exact hhubble ⟨happ, hport⟩
  rw [ciliumRules, List.cons_append, relabel_keep rfl, if_neg (mt (keeps_cilium t).mp hkeep)]

/-- The components' ports have different names. -/
theorem of_nodeExporter (h : Component.nodeExporter.Of t) : ¬Component.ciliumAgent.Of t ∧ ¬Component.hubble.Of t := by
  constructor
  · intro hagent
    exact absurd (h.2.symm.trans hagent.2) (by decide)
  · intro hhubble
    exact absurd (h.2.symm.trans hhubble.2) (by decide)

theorem scrapes_eq (ls : Labels) :
    scrapes ls = (relabel nodeExporterRules ls).toList ++ (relabel ciliumRules ls).toList := by
  rw [scrapes]
  cases hexporter : relabel nodeExporterRules ls <;> cases hcilium : relabel ciliumRules ls <;>
    simp [hexporter, hcilium]

/-- **Scraped once at most.** A target that is none of the three components is
scraped by neither list, and any other by one alone, under its component's labels. -/
theorem scrapes_of (t : PortTarget) :
    (scrapes t.labels = [] ∧ ∀ c : Component, ¬c.Of t) ∨
    ∃ c out, Component.Of c t ∧ scrapes t.labels = [out] ∧ Scraped c t out := by
  rw [scrapes_eq]
  by_cases hexporter : Component.nodeExporter.Of t
  · obtain ⟨hagent, hhubble⟩ := of_nodeExporter hexporter
    obtain ⟨out, hrun, hout⟩ := nodeExporter_scraped hexporter
    exact Or.inr ⟨.nodeExporter, out, hexporter, by rw [hrun, cilium_dropped hagent hhubble]; rfl, hout⟩
  rw [nodeExporter_dropped hexporter]
  by_cases hagent : Component.ciliumAgent.Of t
  · obtain ⟨out, hrun, hout⟩ := cilium_scraped (e := ("prometheus", .ciliumAgent)) (by decide) hagent.1 hagent.2
    exact Or.inr ⟨.ciliumAgent, out, hagent, by rw [hrun]; rfl, hout⟩
  by_cases hhubble : Component.hubble.Of t
  · obtain ⟨out, hrun, hout⟩ := cilium_scraped (e := ("hubble-metrics", .hubble)) (by decide) hhubble.1 hhubble.2
    exact Or.inr ⟨.hubble, out, hhubble, by rw [hrun]; rfl, hout⟩
  refine Or.inl ⟨by rw [cilium_dropped hagent hhubble]; rfl, fun c => ?_⟩
  cases c with
  | nodeExporter => exact hexporter
  | ciliumAgent => exact hagent
  | hubble => exact hhubble

/-- One of cilium's ports on a node. -/
def hubbleMetrics : PortTarget where
  labels n := ([
    (k8sApp, "cilium"),
    (portName, "hubble-metrics"),
    ("__address__", "10.0.1.7:9965"),
    ("__meta_kubernetes_namespace", "kube-system"),
    ("__meta_kubernetes_pod_name", "cilium-4xq7p"),
    ("__meta_kubernetes_pod_container_name", "cilium-agent"),
    ("__meta_kubernetes_pod_node_name", "ip-10-0-1-7.ap-south-1.compute.internal"),
    ("__meta_kubernetes_pod_host_ip", "10.0.1.7"),
    ("__meta_kubernetes_pod_ip", "10.0.1.7")].lookup n |>.map String.toList).getD []
  value := by decide +kernel

example : (scrapes hubbleMetrics.labels).map (fun out => (out "job", out "endpoint", out "instance")) =
    [("hubble-metrics".toList, "hubble-metrics".toList, "10.0.1.7:9965".toList)] := by decide +kernel

end BigDataPlatform.NodeMetrics
