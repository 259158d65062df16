import NnEngine.Graph.TopologicalOrder

/-!
# Comparing graphs

What the two comparisons of `src/graph/utils.rs` share: the errors, the map from a value to the output that
defines it, and how deep the definitions of an acyclic graph are.
-/

namespace NnEngine

open InverseIndex

inductive InequalityError
  | leftOnlyIo (name : String)
  | rightOnlyIo (name : String)
  | differentComputations (left right : List String)
  deriving DecidableEq, Repr

/-- What a comparison ends with other than success. -/
inductive ComparisonStop
  | panic
  | fuel
  | unequal (err : InequalityError)
  deriving DecidableEq, Repr

/-- `make_err` with the names of two nodes. -/
def differentNodes (left right : Node) : ComparisonStop := .unequal (.differentComputations [left.name] [right.name])

namespace ComparisonStop

/-- The comparison returns an error. -/
def IsUnequal : ComparisonStop → Prop
  | unequal _ => True
  | _ => False

theorem isUnequal_iff {stop : ComparisonStop} : stop.IsUnequal ↔ ∃ err, stop = unequal err := by
  cases stop <;> simp [IsUnequal]

/-- A comparison that succeeds if and only if a condition holds, and returns an error otherwise. -/
def Decides {α : Type} (p : Prop) : Except ComparisonStop α → Prop
  | .ok _ => p
  | .error stop => stop.IsUnequal ∧ ¬p

variable {α β : Type} {p q : Prop} {x : Except ComparisonStop α}

theorem Decides.bind {f : α → Except ComparisonStop β} (hx : Decides p x) (hf : ∀ a, p → x = .ok a → Decides q (f a)) :
    Decides (p ∧ q) (x.bind f) := by
  cases x with
  | error stop => exact ⟨hx.1, fun h => hx.2 h.1⟩
  | ok a =>
      have hfa := hf a hx rfl
      change Decides (p ∧ q) (f a)
      cases hb : f a with
      | error stop =>
          rw [hb] at hfa
          exact ⟨hfa.1, fun h => hfa.2 h.2⟩
      | ok b =>
          rw [hb] at hfa
          exact ⟨hx, hfa⟩

theorem Decides.map {f : α → β} (hx : Decides p x) : Decides p (x.map f) := by
  cases x <;> exact hx

theorem Decides.spec {x : Except ComparisonStop Unit} (h : Decides p x) :
    (x = .ok () ↔ p) ∧ (x = .ok () ∨ ∃ err, x = .error (.unequal err)) := by
  cases x with
  | error stop =>
      obtain ⟨err, rfl⟩ := isUnequal_iff.mp h.1
      exact ⟨⟨nofun, fun hp => absurd hp h.2⟩, .inr ⟨err, rfl⟩⟩
  | ok u => exact ⟨⟨fun _ => h, fun _ => rfl⟩, .inl rfl⟩

end ComparisonStop

namespace Graph

/-- `defined` of `GraphInfo::new`. -/
def definedPlaces (g : Graph) : ValueId → Option Place :=
  lastOf ((g.iter.filter fun x => !x.2.isDummy).flatMap fun x => outputPlaces x.1 x.2)

/-- The value of a graph input. -/
def inputValue (g : Graph) (id : NodeId) : Option ValueId :=
  (g.node? id).bind fun node =>
    match node.op with
    | .input v => some v
    | _ => none

/-- The value of a graph output. -/
def outputValue (g : Graph) (id : NodeId) : Option ValueId :=
  (g.node? id).bind fun node =>
    match node.op with
    | .output v => some v
    | _ => none

variable {g : Graph} {id d : NodeId} {v u : ValueId} {place : Place} {node : Node}

theorem definedPlaces_eq_some (h : g.definedPlaces v = some place) :
    ∃ node, g.node? place.1 = some node ∧ node.isDummy = false ∧ node.outputs[place.2]? = some v := by
  obtain ⟨x, hx, hmem⟩ := List.mem_flatMap.mp (lastOf_mem h)
  obtain ⟨hx, hlive⟩ := List.mem_filter.mp hx
  obtain ⟨p, hp, heq⟩ := List.mem_map.mp hmem
  have hget := List.mem_zipIdx_iff_getElem?.mp hp
  cases heq
  exact ⟨x.2, mem_iter.mp hx, by simpa using hlive, hget⟩

theorem definedPlaces_isSome (hnode : g.node? id = some node) (hlive : node.isDummy = false) (hv : v ∈ node.outputs) :
    ∃ place, g.definedPlaces v = some place := by
  obtain ⟨i, hi⟩ := List.mem_iff_getElem?.mp hv
  refine Option.isSome_iff_exists.mp (lastOf_isSome (x := (id, i)) (List.mem_flatMap.mpr ⟨(id, node), ?_, ?_⟩))
  · exact List.mem_filter.mpr ⟨mem_iter.mpr hnode, by simpa using hlive⟩
  · exact List.mem_map.mpr ⟨(v, i), List.mem_zipIdx_iff_getElem?.mpr hi, rfl⟩

/-! ### The depth of a definition -/

open Classical in
/-- The nodes that a node's operands follow from. -/
noncomputable def ancestors (g : Graph) (id : NodeId) : Finset NodeId :=
  (Finset.range g.nodes.length).filter fun d => Relation.TransGen g.Feeds d id

theorem mem_ancestors : d ∈ g.ancestors id ↔ d < g.nodes.length ∧ Relation.TransGen g.Feeds d id := by
  simp [ancestors]

theorem lt_length_of_node? (h : g.node? id = some node) : id < g.nodes.length :=
  (List.getElem?_eq_some_iff.mp (node?_eq_some.mp h).1).1

theorem card_ancestors_lt (hacyclic : ∀ id, ¬Relation.TransGen g.Feeds id id) (h : g.Feeds d id) :
    (g.ancestors d).card < (g.ancestors id).card := by
  have hlt : d < g.nodes.length := by
    obtain ⟨node, -, hnode, -⟩ := h
    exact lt_length_of_node? hnode
  apply Finset.card_lt_card
  refine (Finset.ssubset_iff_of_subset fun x hx => ?_).mpr ⟨d, mem_ancestors.mpr ⟨hlt, .single h⟩, ?_⟩
  · obtain ⟨hxlt, hx⟩ := mem_ancestors.mp hx
    exact mem_ancestors.mpr ⟨hxlt, hx.tail h⟩
  · exact fun hd => hacyclic d (mem_ancestors.mp hd).2

theorem card_ancestors_lt_length (hacyclic : ∀ id, ¬Relation.TransGen g.Feeds id id) (h : g.node? id = some node) :
    (g.ancestors id).card < g.nodes.length := by
  have hss : g.ancestors id ⊂ Finset.range g.nodes.length := by
    refine (Finset.ssubset_iff_of_subset fun x hx => ?_).mpr ⟨id, Finset.mem_range.mpr (lt_length_of_node? h), ?_⟩
    · exact Finset.mem_range.mpr (mem_ancestors.mp hx).1
    · exact fun hid => hacyclic id (mem_ancestors.mp hid).2
  simpa using Finset.card_lt_card hss

/-- How many definitions are nested in the one of a value, at most. -/
noncomputable def depth (g : Graph) (v : ValueId) : Nat :=
  match g.definedPlaces v with
  | some place => (g.ancestors place.1).card + 1
  | none => 0

theorem depth_operand_lt (hacyclic : ∀ id, ¬Relation.TransGen g.Feeds id id) (hv : g.definedPlaces v = some place)
    (hnode : g.node? place.1 = some node) (hu : u ∈ node.operands) : g.depth u < g.depth v := by
  have hdepth : g.depth v = (g.ancestors place.1).card + 1 := by rw [depth, hv]
  rw [hdepth, depth]
  split
  · rename_i place' hu'
    obtain ⟨definer, hdefiner, -, hout⟩ := definedPlaces_eq_some hu'
    have hlt := card_ancestors_lt hacyclic ⟨definer, node, hdefiner, hnode, u, List.mem_of_getElem? hout, hu⟩
    omega
  · omega

theorem depth_le (hacyclic : ∀ id, ¬Relation.TransGen g.Feeds id id) (v : ValueId) : g.depth v ≤ g.nodes.length := by
  unfold depth
  split
  · rename_i place hv
    obtain ⟨node, hnode, -⟩ := definedPlaces_eq_some hv
    exact card_ancestors_lt_length hacyclic hnode
  · omega

end Graph
end NnEngine
