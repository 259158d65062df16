import NnEngine.Graph.Consistency
import NnEngine.Postorder

/-!
# Topological orders

`simple_topological_order` of `src/graph/utils.rs`: the nodes in reversed postorder, over a map from each node
to the nodes that use what it defines.
-/

namespace NnEngine

open InverseIndex

/-- The inputs of a node that are present. -/
def Node.operands (node : Node) : List ValueId := node.inputs.filterMap fun v => v

namespace Graph

/-- `defined`. -/
def definedBy (g : Graph) : ValueId → Option NodeId :=
  lastOf (g.iter.flatMap fun x => x.2.outputs.map fun v => (v, x.1))

/-- `adj.entry(*defines).or_insert(IndexSet::new()).insert(id)`. -/
def addNeighbor (adj : NodeId → List NodeId) (defines id : NodeId) : NodeId → List NodeId :=
  Function.update adj defines (if id ∈ adj defines then adj defines else adj defines ++ [id])

/-- The body of the loops that fill `adj`; an operand that nobody defines must be an initializer. -/
def addUse (g : Graph) (adj : NodeId → List NodeId) (use : ValueId × NodeId) : Option (NodeId → List NodeId) :=
  match g.definedBy use.1 with
  | some defines => some (addNeighbor adj defines use.2)
  | none => if g.hasInitializer use.1 then some adj else none

/-- The operands of the nodes, in the order of the loops. -/
def uses (g : Graph) : List (ValueId × NodeId) := g.iter.flatMap fun x => x.2.operands.map fun v => (v, x.1)

/-- `adj`. -/
def adjacency (g : Graph) : Option (NodeId → List NodeId) := g.uses.foldlM g.addUse fun _ => []

/-- `!nodes[node].is_dummy()`. -/
def isListed (g : Graph) (id : NodeId) : Bool := (g.node? id).any fun node => !node.isDummy

/-- `simple_topological_order`.  The recursion is no deeper than there are nodes. -/
def simpleTopologicalOrder (g : Graph) : Option (List NodeId) := do
  let adj ← g.adjacency
  let s ← Postorder.search adj g.isListed (g.nodes.length + 1) ((g.iter.filter fun x => !x.2.isDummy).map Prod.fst)
  some s.res.reverse

/-- Node `id` uses a value that node `d` defines. -/
def Feeds (g : Graph) (d id : NodeId) : Prop :=
  ∃ node user, g.node? d = some node ∧ g.node? id = some user ∧ ∃ v ∈ node.outputs, v ∈ user.operands

/-- Every operand has a definition, by one node or as an initializer, and no node uses what follows from it. -/
structure DataFlow (g : Graph) : Prop where
  closed : ∀ id node, g.node? id = some node → ∀ v ∈ node.operands,
    (∃ d definer, g.node? d = some definer ∧ v ∈ definer.outputs) ∨ g.hasInitializer v = true
  single : ∀ d d' node node', g.node? d = some node → g.node? d' = some node' →
    ∀ v ∈ node.outputs, v ∈ node'.outputs → d = d'
  acyclic : ∀ id, ¬Relation.TransGen g.Feeds id id

variable {g : Graph} {adj adj' : NodeId → List NodeId} {d id : NodeId} {v : ValueId}

theorem mem_iter_flatMap {f : Node → List ValueId} :
    (v, id) ∈ g.iter.flatMap (fun x => (f x.2).map fun v => (v, x.1)) ↔ ∃ node, g.node? id = some node ∧ v ∈ f node := by
  rw [List.mem_flatMap]
  constructor
  · rintro ⟨⟨i, node⟩, hx, hv⟩
    obtain ⟨u, hu, heq⟩ := List.mem_map.mp hv
    cases heq
    exact ⟨node, mem_iter.mp hx, hu⟩
  · rintro ⟨node, hnode, hv⟩
    exact ⟨(id, node), mem_iter.mpr hnode, List.mem_map.mpr ⟨v, hv, rfl⟩⟩

theorem mem_uses : (v, id) ∈ g.uses ↔ ∃ node, g.node? id = some node ∧ v ∈ node.operands := mem_iter_flatMap

/-- A value that one node defines is found by the map. -/
theorem DataFlow.definedBy_eq (h : g.DataFlow) {node : Node} (hd : g.node? d = some node) (hv : v ∈ node.outputs) :
    g.definedBy v = some d := by
  have hmem : (v, d) ∈ g.iter.flatMap fun x => x.2.outputs.map fun v => (v, x.1) :=
    mem_iter_flatMap.mpr ⟨node, hd, hv⟩
  obtain ⟨d', hd'⟩ := Option.isSome_iff_exists.mp (lastOf_isSome hmem)
  obtain ⟨node', hnode', hv'⟩ := mem_iter_flatMap.mp (lastOf_mem hd')
  obtain rfl := h.single d d' node node' hd hnode' v hv hv'
  exact hd'

theorem definedBy_eq_some (h : g.definedBy v = some d) : ∃ node, g.node? d = some node ∧ v ∈ node.outputs :=
  mem_iter_flatMap.mp (lastOf_mem h)

theorem mem_addNeighbor {defines x y : NodeId} :
    y ∈ addNeighbor adj defines id x ↔ y ∈ adj x ∨ x = defines ∧ y = id := by
  unfold addNeighbor
  by_cases hx : x = defines
  · subst hx
    rw [Function.update_self]
    split
    · rename_i hmem
      constructor
      · exact .inl
      · rintro (hy | ⟨-, rfl⟩)
        · exact hy
        · exact hmem
    · simp
  · simp [hx]

/-- What the loops leave: node `y` is a neighbour of `x` if it uses what the map says that `x` defines. -/
theorem mem_of_foldlM_addUse (uses : List (ValueId × NodeId)) (h : uses.foldlM g.addUse adj = some adj') {x y : NodeId} :
    y ∈ adj' x ↔ y ∈ adj x ∨ ∃ v, (v, y) ∈ uses ∧ g.definedBy v = some x := by
  induction uses generalizing adj with
  | nil =>
      obtain rfl := Option.some.inj h
      simp
  | cons use uses ih =>
      rw [List.foldlM_cons] at h
      obtain ⟨adj₁, hadj₁, h⟩ := Option.bind_eq_some_iff.mp h
      rw [ih h]
      obtain ⟨u, id⟩ := use
      unfold addUse at hadj₁
      cases hdef : g.definedBy u with
      | some defines =>
          simp only [hdef] at hadj₁
          obtain rfl := Option.some.inj hadj₁
          rw [mem_addNeighbor]
          constructor
          · rintro ((hy | ⟨rfl, rfl⟩) | ⟨v, hv, hx⟩)
            · exact .inl hy
            · exact .inr ⟨u, List.mem_cons_self, hdef⟩
            · exact .inr ⟨v, List.mem_cons_of_mem _ hv, hx⟩
          · rintro (hy | ⟨v, hv, hx⟩)
            · exact .inl (.inl hy)
            · rcases List.mem_cons.mp hv with heq | hv
              · cases heq
                exact .inl (.inr ⟨Option.some.inj (hx.symm.trans hdef), rfl⟩)
              · exact .inr ⟨v, hv, hx⟩
      | none =>
          simp only [hdef] at hadj₁
          split at hadj₁
          · obtain rfl := Option.some.inj hadj₁
            refine or_congr_right ⟨?_, ?_⟩
            · rintro ⟨v, hv, hx⟩
              exact ⟨v, List.mem_cons_of_mem _ hv, hx⟩
            · rintro ⟨v, hv, hx⟩
              rcases List.mem_cons.mp hv with heq | hv
              · cases heq
                exact absurd (hx.symm.trans hdef) (by simp)
              · exact ⟨v, hv, hx⟩
          · cases hadj₁

theorem exists_foldlM_addUse (uses : List (ValueId × NodeId))
    (h : ∀ use ∈ uses, g.definedBy use.1 ≠ none ∨ g.hasInitializer use.1 = true) (adj : NodeId → List NodeId) :
    ∃ adj', uses.foldlM g.addUse adj = some adj' := by
  induction uses generalizing adj with
  | nil => exact ⟨adj, rfl⟩
  | cons use uses ih =>
      have hone : ∃ adj₁, g.addUse adj use = some adj₁ := by
        unfold addUse
        cases hdef : g.definedBy use.1 with
        | some d => exact ⟨_, rfl⟩
        | none => exact ⟨adj, if_pos ((h use List.mem_cons_self).resolve_left (not_not.mpr hdef))⟩
      obtain ⟨adj₁, hadj₁⟩ := hone
      obtain ⟨adj', hadj'⟩ := ih (fun use hu => h use (List.mem_cons_of_mem _ hu)) adj₁
      refine ⟨adj', ?_⟩
      rw [List.foldlM_cons, hadj₁]
      exact hadj'

/-- The neighbours of a node are the nodes that it feeds. -/
theorem DataFlow.adjacency_spec (h : g.DataFlow) :
    ∃ adj, g.adjacency = some adj ∧ ∀ x y, y ∈ adj x ↔ g.Feeds x y := by
  have hdefined : ∀ use ∈ g.uses, g.definedBy use.1 ≠ none ∨ g.hasInitializer use.1 = true := by
    rintro ⟨v, id⟩ huse
    obtain ⟨node, hnode, hv⟩ := mem_uses.mp huse
    rcases h.closed id node hnode v hv with ⟨d, definer, hd, hout⟩ | hinit
    · exact .inl (by rw [h.definedBy_eq hd hout]; simp)
    · exact .inr hinit
  obtain ⟨adj, hadj⟩ := exists_foldlM_addUse g.uses hdefined fun _ => []
  refine ⟨adj, hadj, fun x y => ?_⟩
  rw [mem_of_foldlM_addUse g.uses hadj]
  constructor
  · rintro (hy | ⟨v, hv, hx⟩)
    · exact absurd hy List.not_mem_nil
    · obtain ⟨user, huser, hin⟩ := mem_uses.mp hv
      obtain ⟨node, hnode, hout⟩ := definedBy_eq_some hx
      exact ⟨node, user, hnode, huser, v, hout, hin⟩
  · rintro ⟨node, user, hnode, huser, v, hout, hin⟩
    exact .inr ⟨v, mem_uses.mpr ⟨user, huser, hin⟩, h.definedBy_eq hnode hout⟩

theorem isListed_iff : g.isListed id = true ↔ ∃ node, g.node? id = some node ∧ node.isDummy = false := by
  unfold isListed
  cases g.node? id <;> simp

/-- The order has every node that is no dummy once, after the nodes that define its operands. -/
theorem simpleTopologicalOrder_sorted (g : Graph) (h : g.DataFlow) :
    ∃ order, g.simpleTopologicalOrder = some order ∧ order.Nodup ∧
      (∀ id, id ∈ order ↔ ∃ node, g.node? id = some node ∧ node.isDummy = false) ∧
      ∀ d ∈ order, ∀ id ∈ order, g.Feeds d id → [d, id].Sublist order := by
  obtain ⟨adj, hadj, hmem⟩ := h.adjacency_spec
  have hlive : ∀ {id node}, g.node? id = some node → id ∈ Finset.range g.nodes.length := by
    intro id node hnode
    exact Finset.mem_range.mpr (List.getElem?_eq_some_iff.mp (node?_eq_some.mp hnode).1).1
  have hclosed : ∀ x ∈ Finset.range g.nodes.length, ∀ y ∈ adj x, y ∈ Finset.range g.nodes.length := by
    intro x _ y hy
    obtain ⟨-, user, -, huser, -⟩ := (hmem x y).mp hy
    exact hlive huser
  have hroots : ∀ {id}, id ∈ (g.iter.filter fun x => !x.2.isDummy).map Prod.fst ↔
      ∃ node, g.node? id = some node ∧ node.isDummy = false := by
    intro id
    simp [mem_iter]
  have hacyclic : Postorder.Acyclic adj := by
    intro x hx
    exact h.acyclic x (Relation.TransGen.mono (fun a b hab => (hmem a b).mp hab) x x hx)
  obtain ⟨s, hs, -⟩ := Postorder.search_eq_some hclosed
    (fun id hid => hlive (hroots.mp hid).choose_spec.1) (by rw [Finset.card_range]; exact Nat.lt_succ_self _)
  obtain ⟨fin, hfin, hall, -⟩ := Postorder.search_finished hacyclic hs
  have horder : ∀ id, id ∈ s.res.reverse ↔ ∃ node, g.node? id = some node ∧ node.isDummy = false := by
    intro id
    rw [List.mem_reverse, hfin.res, List.mem_filter, isListed_iff]
    exact ⟨And.right, fun hid => ⟨hall id (hroots.mpr hid), hid⟩⟩
  refine ⟨s.res.reverse, ?_, ?_, horder, ?_⟩
  · unfold simpleTopologicalOrder
    simp only [hadj, hs, Option.bind_eq_bind, Option.bind_some]
  · rw [List.nodup_reverse, hfin.res]
    exact hfin.nodup.filter _
  · intro d hd id hid hfeeds
    have hd := (horder d).mp hd
    exact hfin.before (hall d (hroots.mpr hd)) ((hmem d id).mpr hfeeds) (isListed_iff.mpr hd)
      (isListed_iff.mpr ((horder id).mp hid))

/-- Two nodes whose ids are not in the order of the data. -/
def backwardGraph : Graph where
  nodes :=
    [{ inputs := [some 1], outputs := [2], name := "second", op := .reLU, markAsDeleted := false },
      { inputs := [some 0], outputs := [1], name := "first", op := .reLU, markAsDeleted := false },
      { inputs := [], outputs := [0], name := "x", op := .input 0, markAsDeleted := false }]
  inputs := [2]
  outputs := []
  values := []
  initializer := fun _ => none
  externalRefs := fun _ => none

theorem backwardGraph_node? {node : Node} (h : backwardGraph.node? id = some node) :
    id < 3 ∧ node.outputs = [2 - id] ∧ ∀ v ∈ node.operands, id < 2 ∧ v = 1 - id := by
  have hlt : id < 3 := (List.getElem?_eq_some_iff.mp (node?_eq_some.mp h).1).1
  refine ⟨hlt, ?_⟩
  interval_cases id <;> cases h <;> simp [Node.operands]

theorem backwardGraph_feeds (h : backwardGraph.Feeds d id) : id < d := by
  obtain ⟨node, user, hd, hid, v, hout, hin⟩ := h
  obtain ⟨hlt, hout', -⟩ := backwardGraph_node? hd
  obtain ⟨-, -, hin'⟩ := backwardGraph_node? hid
  obtain ⟨hid2, hv⟩ := hin' v hin
  rw [hout', List.mem_singleton] at hout
  have hnat : ∀ a b : Nat, b < 2 → 2 - a = 1 - b → b < a := by omega
  exact hnat d id hid2 (hout.symm.trans hv)

theorem backwardGraph_dataFlow : backwardGraph.DataFlow where
  closed id node h v hv := by
    obtain ⟨hlt, rfl⟩ := (backwardGraph_node? h).2.2 v hv
    interval_cases id
    · exact .inl ⟨1, _, rfl, List.mem_singleton.mpr rfl⟩
    · exact .inl ⟨2, _, rfl, List.mem_singleton.mpr rfl⟩
  single d d' node node' hd hd' v hv hv' := by
    obtain ⟨hlt, hout, -⟩ := backwardGraph_node? hd
    obtain ⟨hlt', hout', -⟩ := backwardGraph_node? hd'
    rw [hout, List.mem_singleton] at hv
    rw [hout', List.mem_singleton] at hv'
    have hnat : ∀ a b : Nat, a < 3 → b < 3 → 2 - a = 2 - b → a = b := by omega
    exact hnat d d' hlt hlt' (hv.symm.trans hv')
  acyclic id h := by
    have hlt : ∀ {x y}, Relation.TransGen backwardGraph.Feeds x y → y < x := by
      intro x y hxy
      induction hxy with
      | single h => exact backwardGraph_feeds h
      | tail _ h ih => exact (backwardGraph_feeds h).trans ih
    exact Nat.lt_irrefl id (hlt h)

theorem backwardGraph_sorted :
    ∃ order, backwardGraph.simpleTopologicalOrder = some order ∧ order.Nodup ∧
      (∀ id, id ∈ order ↔ ∃ node, backwardGraph.node? id = some node ∧ node.isDummy = false) ∧
      ∀ d ∈ order, ∀ id ∈ order, backwardGraph.Feeds d id → [d, id].Sublist order :=
  simpleTopologicalOrder_sorted backwardGraph backwardGraph_dataFlow

example : backwardGraph.simpleTopologicalOrder = some [1, 0] := by decide

end Graph
end NnEngine
