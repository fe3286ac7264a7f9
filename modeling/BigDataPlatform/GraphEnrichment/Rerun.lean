import BigDataPlatform.GraphEnrichment.Enrich

/-! # Running the enrichment again

The nodes of a second run are those of the first. The edges are not: every run
appends the same list. -/
namespace BigDataPlatform.GraphEnrichment
open Lib.InsertAbsent

/-- The script on the graph that is there: nothing is lost or reordered, nothing
is added twice, and another run changes nothing. -/
structure Rerunnable (g : Graph) : Prop where
  keepsNodes : g.nodeList <+: (enrichGraphJson (some g)).nodeList
  keepsEdges : g.edgeList <+: (enrichGraphJson (some g)).edgeList
  addsNoNode : ∀ n ∈ (enrichGraphJson (some g)).nodeList.drop g.nodeList.length, n ∉ g.nodeList
  addsNoEdge : ∀ e ∈ (enrichGraphJson (some g)).edgeList.drop g.edgeList.length, e ∉ g.edgeList
  idempotent : enrichGraphJson (some (enrichGraphJson (some g))) = enrichGraphJson (some g)

/-! ## Any table -/

section
variable (table : List (String × Obj))

theorem enrichFrom_keeps (g : Graph) :
    g.nodeList <+: (enrichFrom table g).nodeList ∧ g.edgeList <+: (enrichFrom table g).edgeList ∧
      (enrichFrom table g).others = g.others := by
  refine ⟨?_, ?_, enrichFrom_others table g⟩
  · rw [enrichFrom_nodeList]
    exact prefix_insertAll g.nodeList (nodesOf table)
  · rw [enrichFrom_edgeList]
    exact List.prefix_append _ _

theorem sameLabel_self : ∀ x ∈ nodesOf table, sameLabel x x := by
  intro x hx
  obtain ⟨c, _, rfl⟩ := List.mem_map.mp hx
  rw [sameLabel_componentNode, labelled_iff]
  rfl

/-- After any number of runs but none the nodes are those of one run. -/
theorem iterate_enrichFrom_nodeList (n : Nat) (g : Graph) :
    ((enrichFrom table)^[n + 1] g).nodeList = (enrichFrom table g).nodeList := by
  induction n with
  | zero => rfl
  | succ n ih =>
    rw [Function.iterate_succ_apply', enrichFrom_nodeList, ih, enrichFrom_nodeList,
      insertAll_insertAll (sameLabel_self table)]

/-- **Every run appends its edges once more.** -/
theorem iterate_enrichFrom_edgeList (n : Nat) (g : Graph) :
    ((enrichFrom table)^[n] g).edgeList =
      g.edgeList ++ (List.replicate n ((newLinks table).map Link.edge)).flatten := by
  induction n with
  | zero => exact (List.append_nil _).symm
  | succ n ih =>
    rw [Function.iterate_succ_apply', enrichFrom_edgeList, ih, List.replicate_succ',
      List.flatten_append, List.flatten_singleton, List.append_assoc]

theorem enrichFrom_grows (h : table.flatMap linksOf ≠ []) (g : Graph) :
    enrichFrom table (enrichFrom table g) ≠ enrichFrom table g := by
  intro he
  have hlen := congrArg (fun g => g.edgeList.length) he
  simp only [enrichFrom_edgeList, List.length_append, List.length_map] at hlen
  have hne : newLinks table ≠ [] := insertAll_ne_nil h
  have hpos := List.length_pos_iff.mpr hne
  omega

end

/-! ## The platform's components -/

theorem components_linked : components.flatMap linksOf ≠ [] := by decide +kernel

/-- **No graph can be enriched again for free**: whatever graph a run starts
from, the run after it adds the edges of the first a second time. -/
theorem enrich_not_rerunnable (g : Graph) : ¬ Rerunnable g := by
  intro h
  exact enrichFrom_grows components components_linked g h.idempotent

theorem newLinks_length : (newLinks components).length = 34 := by decide +kernel

/-- From no file at all: 34 edges after one run, 68 after the next. -/
theorem minimal_not_rerunnable :
    (enrichGraphJson none).edgeList.length = 34 ∧
      (enrichGraphJson (some (enrichGraphJson none))).edgeList.length = 68 ∧
      ¬ Rerunnable .minimal := by
  have hgrows (g : Graph) :
      (enrichGraphJson (some g)).edgeList.length = g.edgeList.length + 34 := by
    show (enrichFrom components g).edgeList.length = _
    rw [enrichFrom_edgeList, List.length_append, List.length_map, newLinks_length]
  have hfirst : (enrichGraphJson none).edgeList.length = 34 := hgrows .minimal
  have hsecond := hgrows (enrichGraphJson none)
  rw [hfirst] at hsecond
  refine ⟨hfirst, hsecond, ?_⟩
  intro h
  have he : enrichGraphJson (some (enrichGraphJson none)) = enrichGraphJson none := h.idempotent
  rw [he, hfirst] at hsecond
  omega

end BigDataPlatform.GraphEnrichment
