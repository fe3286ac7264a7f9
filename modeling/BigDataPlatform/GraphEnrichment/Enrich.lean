import BigDataPlatform.GraphEnrichment.Components
import BigDataPlatform.Lib.InsertAbsent
import Mathlib.Logic.Function.Iterate

/-! # graphify_enrichment.py: enrich_graph_json

A node is matched by its label, an edge by its two ends. The nodes are compared
with the loaded graph; the edges only with those the run itself has added. -/
namespace BigDataPlatform.GraphEnrichment
open Lib.InsertAbsent

/-- `graph.json`: the two lists the script reads, where the keys are present,
and the other keys. -/
structure Graph where
  nodes : Option (List Obj)
  edges : Option (List Obj)
  others : Obj

namespace Graph

/-- `graph.get("nodes", [])`. -/
def nodeList (g : Graph) : List Obj := g.nodes.getD []

def edgeList (g : Graph) : List Obj := g.edges.getD []

/-- `graph.setdefault("nodes", []).append(node)`. -/
def appendNode (g : Graph) (node : Obj) : Graph := { g with nodes := some (g.nodeList ++ [node]) }

def appendEdge (g : Graph) (edge : Obj) : Graph := { g with edges := some (g.edgeList ++ [edge]) }

/-- What the script starts from where there is no file. -/
def minimal : Graph := { nodes := some [], edges := some [], others := [] }

end Graph

/-! ## The node loop -/

/-- `n.get("label") == component_name`. -/
def labelled (name : String) (n : Obj) : Bool :=
  match n.get "label" with
  | some (.str l) => l = name
  | _ => false

def componentNode (name : String) (info : Obj) : Obj := [
  ("id", .str name),
  ("label", .str name),
  ("description", (info.get "role").getD (.str "")),
  ("type", (info.get "type").getD (.str "component")),
  ("metadata", .obj (info.filter fun field => field.1 ∉ ["consumed_by", "dependencies"]))]

/-- A node that is found has a label, so it is no empty `dict` and counts as true. -/
def addComponent (g : Graph) (component : String × Obj) : Graph :=
  match g.nodeList.find? (labelled component.1) with
  | some _ => g
  | none => g.appendNode (componentNode component.1 component.2)

/-! ## The edge loop -/

structure Link where
  source : String
  target : String
  relationship : String
  label : String
  deriving DecidableEq

def Link.key (l : Link) : String × String := (l.source, l.target)

def Link.edge (l : Link) : Obj := [
  ("source", .str l.source),
  ("target", .str l.target),
  ("relationship", .str l.relationship),
  ("label", .str l.label)]

def dependsOn (name dep : String) : Link :=
  { source := name, target := dep, relationship := "depends_on"
    label := name ++ " depends on " ++ dep }

def consumes (consumer name : String) : Link :=
  { source := consumer, target := name, relationship := "consumes"
    label := consumer ++ " consumes " ++ name }

/-- The graph and `edges_added`. -/
abbrev EdgeLoop := Graph × List (String × String)

def addLink (s : EdgeLoop) (l : Link) : EdgeLoop :=
  if l.key ∈ s.2 then s else (s.1.appendEdge l.edge, l.key :: s.2)

def addLinks (s : EdgeLoop) (component : String × Obj) : EdgeLoop :=
  let (name, info) := component
  let s := (info.getStrings "dependencies").foldl (fun s dep => addLink s (dependsOn name dep)) s
  (info.getStrings "consumed_by").foldl (fun s consumer => addLink s (consumes consumer name)) s

/-- The two loops over a table of components. -/
def enrichFrom (table : List (String × Obj)) (g : Graph) : Graph :=
  let g := table.foldl addComponent g
  (table.foldl addLinks (g, [])).1

def enrich (g : Graph) : Graph := enrichFrom components g

/-- `file` is `none` where there is no graph.json. -/
def enrichGraphJson (file : Option Graph) : Graph := enrich (file.getD .minimal)

/-! ## What the two loops leave -/

/-- `n` is what the node loop finds in place of `x`. -/
def sameLabel (x n : Obj) : Bool :=
  match x.get "label" with
  | some (.str l) => labelled l n
  | _ => false

def nodesOf (table : List (String × Obj)) : List Obj :=
  table.map fun c => componentNode c.1 c.2

def sameEnds (l m : Link) : Bool := l.key = m.key

def linksOf (component : String × Obj) : List Link :=
  ((component.2.getStrings "dependencies").map (dependsOn component.1)) ++
    (component.2.getStrings "consumed_by").map fun consumer => consumes consumer component.1

/-- The edges one run adds, the same in every run. -/
def newLinks (table : List (String × Obj)) : List Link :=
  insertAll sameEnds [] (table.flatMap linksOf)

theorem labelled_iff {name : String} {n : Obj} :
    labelled name n ↔ n.get "label" = some (.str name) := by
  unfold labelled
  split
  · rename_i l hl
    rw [hl]
    simp
  · rename_i hn
    simp only [Bool.false_eq_true, false_iff]
    exact hn name

theorem sameLabel_componentNode (name : String) (info n : Obj) :
    sameLabel (componentNode name info) n = labelled name n := rfl

theorem addComponent_nodeList (g : Graph) (c : String × Obj) :
    (addComponent g c).nodeList = insertAbsent sameLabel g.nodeList (componentNode c.1 c.2) := by
  rw [addComponent, insertAbsent]
  cases hf : g.nodeList.find? (labelled c.1) with
  | some n =>
    have hn : g.nodeList.any (sameLabel (componentNode c.1 c.2)) :=
      List.any_eq_true.mpr ⟨n, List.mem_of_find?_eq_some hf, List.find?_some hf⟩
    rw [if_pos hn]
  | none =>
    have hn : ¬ g.nodeList.any (sameLabel (componentNode c.1 c.2)) := by
      intro ha
      obtain ⟨n, hn, hl⟩ := List.any_eq_true.mp ha
      exact List.find?_eq_none.mp hf n hn hl
    rw [if_neg hn]
    rfl

theorem addComponent_frame (g : Graph) (c : String × Obj) :
    (addComponent g c).edges = g.edges ∧ (addComponent g c).others = g.others := by
  unfold addComponent
  split <;> exact ⟨rfl, rfl⟩

theorem foldl_addComponent (table : List (String × Obj)) (g : Graph) :
    (table.foldl addComponent g).nodeList = insertAll sameLabel g.nodeList (nodesOf table) ∧
      (table.foldl addComponent g).edges = g.edges ∧
      (table.foldl addComponent g).others = g.others := by
  induction table generalizing g with
  | nil => exact ⟨rfl, rfl, rfl⟩
  | cons c table ih =>
    obtain ⟨hn, he, ho⟩ := ih (addComponent g c)
    obtain ⟨he', ho'⟩ := addComponent_frame g c
    rw [addComponent_nodeList] at hn
    exact ⟨hn, he.trans he', ho.trans ho'⟩

theorem foldl_addLinks (table : List (String × Obj)) (s : EdgeLoop) :
    table.foldl addLinks s = (table.flatMap linksOf).foldl addLink s := by
  rw [List.foldl_flatMap]
  congr 1
  funext s c
  rw [linksOf, List.foldl_append, List.foldl_map, List.foldl_map]
  rfl

theorem foldl_addLink_frame (ls : List Link) (s : EdgeLoop) :
    (ls.foldl addLink s).1.nodes = s.1.nodes ∧ (ls.foldl addLink s).1.others = s.1.others := by
  induction ls generalizing s with
  | nil => exact ⟨rfl, rfl⟩
  | cons l ls ih =>
    obtain ⟨hn, ho⟩ := ih (addLink s l)
    have hs : (addLink s l).1.nodes = s.1.nodes ∧ (addLink s l).1.others = s.1.others := by
      unfold addLink
      split <;> exact ⟨rfl, rfl⟩
    exact ⟨hn.trans hs.1, ho.trans hs.2⟩

theorem any_sameEnds {l : Link} {done : List Link} :
    done.any (sameEnds l) ↔ l.key ∈ (done.map Link.key).reverse := by
  simp only [List.mem_reverse, List.mem_map, List.any_eq_true, sameEnds, decide_eq_true_eq]
  exact exists_congr fun m => and_congr_right fun _ => eq_comm

/-- `edges_added` holds the ends of `done`, the edges this run has appended so
far; what was loaded is never compared with. -/
theorem foldl_addLink (ls done : List Link) (loaded : List Obj) (g : Graph)
    (hg : g.edgeList = loaded ++ done.map Link.edge) :
    (ls.foldl addLink (g, (done.map Link.key).reverse)).1.edgeList =
      loaded ++ (insertAll sameEnds done ls).map Link.edge := by
  induction ls generalizing g done with
  | nil => exact hg
  | cons l ls ih =>
    rw [List.foldl_cons]
    show _ = loaded ++ (insertAll sameEnds (insertAbsent sameEnds done l) ls).map Link.edge
    by_cases hl : l.key ∈ (done.map Link.key).reverse
    · rw [addLink, if_pos hl, insertAbsent, if_pos (any_sameEnds.mpr hl)]
      exact ih done g hg
    · rw [addLink, if_neg hl, insertAbsent, if_neg fun h => hl (any_sameEnds.mp h)]
      have hkeys : l.key :: (done.map Link.key).reverse = ((done ++ [l]).map Link.key).reverse := by
        simp
      rw [hkeys]
      refine ih (done ++ [l]) _ ?_
      show g.edgeList ++ [l.edge] = _
      rw [hg, List.map_append, List.append_assoc]
      rfl

section
variable (table : List (String × Obj)) (g : Graph)

theorem enrichFrom_eq :
    enrichFrom table g =
      ((table.flatMap linksOf).foldl addLink (table.foldl addComponent g, [])).1 := by
  rw [enrichFrom, foldl_addLinks]

theorem enrichFrom_nodeList :
    (enrichFrom table g).nodeList = insertAll sameLabel g.nodeList (nodesOf table) := by
  rw [enrichFrom_eq, Graph.nodeList, (foldl_addLink_frame _ _).1]
  exact (foldl_addComponent table g).1

theorem enrichFrom_edgeList :
    (enrichFrom table g).edgeList = g.edgeList ++ (newLinks table).map Link.edge := by
  have he : (table.foldl addComponent g).edgeList = g.edgeList ++ ([] : List Link).map Link.edge := by
    rw [Graph.edgeList, (foldl_addComponent table g).2.1, List.map_nil, List.append_nil]
    rfl
  rw [enrichFrom_eq]
  exact foldl_addLink (table.flatMap linksOf) [] g.edgeList _ he

theorem enrichFrom_others : (enrichFrom table g).others = g.others := by
  rw [enrichFrom_eq, (foldl_addLink_frame _ _).2]
  exact (foldl_addComponent table g).2.2

end

end BigDataPlatform.GraphEnrichment
