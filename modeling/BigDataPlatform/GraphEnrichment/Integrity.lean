import BigDataPlatform.GraphEnrichment.Enrich

/-! # Do the edges still have their nodes?

A new edge names its ends by component. A component whose label some node
already has gets no node of its own, whatever that node's id is. -/
namespace BigDataPlatform.GraphEnrichment
open Lib.InsertAbsent

namespace Graph

def HasId (g : Graph) (id : Json) : Prop := ∃ n ∈ g.nodeList, n.get "id" = some id

/-- The value of `key` in this edge is the id of a node. -/
def HasEnd (g : Graph) (e : Obj) (key : String) : Prop := ∃ id, e.get key = some id ∧ g.HasId id

def Integral (g : Graph) : Prop :=
  ∀ e ∈ g.edgeList, g.HasEnd e "source" ∧ g.HasEnd e "target"

end Graph

/-- The components that a run writes into its edges. -/
def linkEnds (table : List (String × Obj)) : List String :=
  (newLinks table).flatMap fun l => [l.source, l.target]

/-- `name` is the id of some node, or no node's label. -/
def Resolves (g : Graph) (name : String) : Prop :=
  g.HasId (.str name) ∨ ∀ n ∈ g.nodeList, ¬ labelled name n

/-! ## Any table of distinct names -/

section
variable {table : List (String × Obj)} {g : Graph} {name : String}

theorem enrichFrom_nodeList_eq (hd : (table.map Prod.fst).Nodup) (g : Graph) :
    (enrichFrom table g).nodeList =
      g.nodeList ++ (nodesOf table).filter fun x => !g.nodeList.any (sameLabel x) := by
  rw [enrichFrom_nodeList]
  refine insertAll_eq_filter (List.pairwise_map.mpr ?_)
  refine (List.pairwise_map.mp hd).imp fun {c d} hne => ?_
  rw [sameLabel_componentNode, Bool.eq_false_iff]
  intro hl
  have he : some (Json.str c.1) = some (.str d.1) := labelled_iff.mp hl
  exact hne (Json.str.inj (Option.some.inj he))

theorem hasId_mono (hd : (table.map Prod.fst).Nodup) {id : Json} (h : g.HasId id) :
    (enrichFrom table g).HasId id := by
  obtain ⟨n, hn, hid⟩ := h
  rw [Graph.HasId, enrichFrom_nodeList_eq hd]
  exact ⟨n, List.mem_append_left _ hn, hid⟩

/-- A component's name is an id afterwards exactly if it resolved before. -/
theorem hasId_enrichFrom (hd : (table.map Prod.fst).Nodup) (hname : name ∈ table.map Prod.fst) :
    (enrichFrom table g).HasId (.str name) ↔ Resolves g name := by
  rw [Graph.HasId, enrichFrom_nodeList_eq hd]
  constructor
  · intro h
    obtain ⟨n, hn, hid⟩ := h
    rcases List.mem_append.mp hn with hn | hn
    · exact Or.inl ⟨n, hn, hid⟩
    · obtain ⟨hn, hnew⟩ := List.mem_filter.mp hn
      obtain ⟨c, _, rfl⟩ := List.mem_map.mp hn
      have he : some (Json.str c.1) = some (.str name) := hid
      cases Option.some.inj he
      refine Or.inr fun n hn hl => ?_
      rw [Bool.not_eq_true', List.any_eq_false] at hnew
      exact hnew n hn hl
  · intro h
    rcases h with h | h
    · obtain ⟨n, hn, hid⟩ := h
      exact ⟨n, List.mem_append_left _ hn, hid⟩
    · obtain ⟨c, hc, rfl⟩ := List.mem_map.mp hname
      refine ⟨componentNode c.1 c.2, List.mem_append_right _ ?_, rfl⟩
      refine List.mem_filter.mpr ⟨List.mem_map_of_mem hc, ?_⟩
      rw [Bool.not_eq_true', List.any_eq_false]
      exact h

theorem hasEnd_edge (g : Graph) (l : Link) :
    g.HasEnd l.edge "source" ∧ g.HasEnd l.edge "target" ↔
      ∀ c ∈ [l.source, l.target], g.HasId (.str c) := by
  have hs : l.edge.get "source" = some (.str l.source) := rfl
  have ht : l.edge.get "target" = some (.str l.target) := rfl
  simp [Graph.HasEnd, hs, ht]

/-- The edges that are there keep their nodes, so the ends of the new ones decide. -/
theorem integral_enrichFrom (hd : (table.map Prod.fst).Nodup)
    (hends : ∀ c ∈ linkEnds table, c ∈ table.map Prod.fst) (hg : g.Integral) :
    (enrichFrom table g).Integral ↔ ∀ c ∈ linkEnds table, Resolves g c := by
  have hold : ∀ e ∈ g.edgeList,
      (enrichFrom table g).HasEnd e "source" ∧ (enrichFrom table g).HasEnd e "target" := by
    intro e he
    obtain ⟨⟨s, hs, hsid⟩, t, ht, htid⟩ := hg e he
    exact ⟨⟨s, hs, hasId_mono hd hsid⟩, t, ht, hasId_mono hd htid⟩
  calc (enrichFrom table g).Integral
      ↔ ∀ l ∈ newLinks table, ∀ c ∈ [l.source, l.target], (enrichFrom table g).HasId (.str c) := by
        rw [Graph.Integral, enrichFrom_edgeList, List.forall_mem_append, List.forall_mem_map]
        simp only [hasEnd_edge]
        exact and_iff_right hold
    _ ↔ ∀ c ∈ linkEnds table, (enrichFrom table g).HasId (.str c) :=
        List.forall_mem_flatMap.symm
    _ ↔ ∀ c ∈ linkEnds table, Resolves g c :=
        forall₂_congr fun c hc => hasId_enrichFrom hd (hends c hc)

end

/-! ## The platform's components -/

theorem components_nodup : (components.map Prod.fst).Nodup := by decide +kernel

theorem linkEnds_components : ∀ c ∈ linkEnds components, c ∈ components.map Prod.fst := by
  decide +kernel

/-- **What integrity asks of the graph.** A graph whose edges have their nodes
keeps that exactly if each component that an edge is written for is the id of
some node or the label of none. -/
theorem enrich_integral_iff (g : Graph) (h : g.Integral) :
    (enrichGraphJson (some g)).Integral ↔ ∀ c ∈ linkEnds components, Resolves g c :=
  integral_enrichFrom components_nodup linkEnds_components h

/-- A graph in which Spark is a node under its own name, and a file links to it. -/
def sparkNoted : Graph where
  nodes := some [[("id", .str "spark"), ("label", .str "spark")],
    [("id", .str "notes.md"), ("label", .str "notes")]]
  edges := some [[("source", .str "notes.md"), ("target", .str "spark")]]
  others := []

/-- Spark keeps its node, the other components get theirs. -/
theorem sparkNoted_integral :
    sparkNoted.edgeList ≠ [] ∧ (enrichGraphJson (some sparkNoted)).Integral := by
  have hspark : sparkNoted.HasId (.str "spark") := ⟨_, List.mem_cons_self, rfl⟩
  have hnotes : sparkNoted.HasId (.str "notes.md") :=
    ⟨_, List.mem_cons_of_mem _ List.mem_cons_self, rfl⟩
  have hg : sparkNoted.Integral := by
    intro e he
    rw [List.mem_singleton.mp he]
    exact ⟨⟨_, rfl, hnotes⟩, _, rfl, hspark⟩
  have hname : ∀ c ∈ linkEnds components, c ≠ "notes" := by decide +kernel
  refine ⟨List.cons_ne_nil _ _, (enrich_integral_iff sparkNoted hg).mpr fun c hc => ?_⟩
  by_cases hcs : c = "spark"
  · exact .inl (hcs ▸ hspark)
  · refine .inr fun n hn hl => ?_
    have he := labelled_iff.mp hl
    rcases List.mem_cons.mp hn with rfl | hn
    · exact hcs (Json.str.inj (Option.some.inj he)).symm
    · rw [List.mem_singleton.mp hn] at he
      exact hname c hc (Json.str.inj (Option.some.inj he)).symm

/-- A graph in which Spark has its label and another id. -/
def sparkElsewhere : Graph where
  nodes := some [[("id", .str "src/spark.py"), ("label", .str "spark")]]
  edges := some []
  others := []

theorem sparkElsewhere_integral : sparkElsewhere.Integral := by
  intro e he
  cases he

theorem sparkElsewhere_unresolved : ¬ Resolves sparkElsewhere "spark" := by
  intro h
  rcases h with h | h
  · obtain ⟨n, hn, hid⟩ := h
    rw [List.mem_singleton.mp hn] at hid
    have he : some (Json.str "src/spark.py") = some (.str "spark") := hid
    exact absurd (Json.str.inj (Option.some.inj he)) (by decide)
  · exact h _ (List.mem_singleton.mpr rfl) (by decide)

theorem spark_mem_linkEnds : "spark" ∈ linkEnds components := by decide +kernel

/-- The run adds edges to and from `spark`, which is no node's id. -/
theorem sparkElsewhere_dangles :
    sparkElsewhere.Integral ∧ ¬ (enrichGraphJson (some sparkElsewhere)).Integral := by
  refine ⟨sparkElsewhere_integral, ?_⟩
  intro h
  have hr := (integral_enrichFrom components_nodup linkEnds_components
    sparkElsewhere_integral).mp h
  exact sparkElsewhere_unresolved (hr "spark" spark_mem_linkEnds)

end BigDataPlatform.GraphEnrichment
