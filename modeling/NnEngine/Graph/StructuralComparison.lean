import NnEngine.Graph.Comparison
import NnEngine.PartialBijection
import NnEngine.Result

/-!
# Structural comparison of graphs

`compare_graphs_structural` of `src/graph/utils.rs`: two graphs are walked from their outputs to what they are
computed from, and a bijection of values and one of nodes are grown on the way.

The equalities of operators and of tensors are parameters.  They are the `PartialEq` of the two types, which no
number that is NaN equals, and with an `epsilon` the one of tensors is `eq_with_epsilon`.
-/

namespace NnEngine

open PartialBijection

/-- `value_eq` and `node_eq`. -/
structure Correspondence where
  value : ValueId ≃. ValueId
  node : NodeId ≃. NodeId

namespace Correspondence

instance : Preorder Correspondence := Preorder.lift fun m => (m.value, m.node)

/-- Two maps without a pair. -/
def empty : Correspondence := { value := ⊥, node := ⊥ }

/-- `value_eq.add`, with the error that is made when it fails. -/
def addValue (m : Correspondence) (left right : ValueId) (err : ComparisonStop) : Except ComparisonStop Correspondence :=
  match add m.value left right with
  | some value => .ok { m with value }
  | none => .error err

/-- `node_eq.add`. -/
def addNode (m : Correspondence) (left right : NodeId) (err : ComparisonStop) : Except ComparisonStop Correspondence :=
  match add m.node left right with
  | some node => .ok { m with node }
  | none => .error err

end Correspondence

/-- `GraphInfo` of `comp_structural`. -/
structure StructuralInfo where
  graph : Graph
  inputs : List ValueId
  outputs : List ValueId
  defined : ValueId → Option Place

/-- `GraphInfo::new`, which panics for an input that is no `Input` and an output that is no `Output`. -/
def StructuralInfo.new (g : Graph) : Except ComparisonStop StructuralInfo :=
  match g.inputs.mapM g.inputValue, g.outputs.mapM g.outputValue with
  | some inputs, some outputs => .ok { graph := g, inputs, outputs, defined := g.definedPlaces }
  | _, _ => .error .panic

/-- `GraphStructuralEquiv`. -/
structure GraphStructuralEquiv where
  left : StructuralInfo
  right : StructuralInfo
  eqOp : Operator → Operator → Bool
  eqTensor : Tensor → Tensor → Bool

namespace GraphStructuralEquiv

/-- `make_err` with the names of two values. -/
def valueErr (s : GraphStructuralEquiv) (left right : ValueId) : ComparisonStop :=
  match s.left.graph.values[left]?, s.right.graph.values[right]? with
  | some l, some r => .unequal (.differentComputations [l.name] [r.name])
  | _, _ => .panic

/-- The body of the loop over the operands of two nodes. -/
def compOperand (comp : Correspondence → ValueId → ValueId → Except ComparisonStop Correspondence)
    (err : ComparisonStop) (m : Correspondence) :
    Option ValueId × Option ValueId → Except ComparisonStop Correspondence
  | (some left, some right) => comp m left right
  | (none, none) => .ok m
  | _ => .error err

/-- The part of `comp_value` about two values that are outputs of nodes. -/
def compDefined (s : GraphStructuralEquiv)
    (comp : Correspondence → ValueId → ValueId → Except ComparisonStop Correspondence)
    (m : Correspondence) (left right : ValueId) (x y : Place) : Except ComparisonStop Correspondence :=
  match s.left.graph.node? x.1, s.right.graph.node? y.1 with
  | some l, some r =>
      if x.2 ≠ y.2 then .error (differentNodes l r)
      else
        match m.node x.1 with
        | some correspond =>
            if correspond = y.1 then m.addValue left right (differentNodes l r) else .error (differentNodes l r)
        | none =>
            if !s.eqOp l.op r.op then .error (differentNodes l r)
            else if l.inputs.length ≠ r.inputs.length then .error (differentNodes l r)
            else
              ((l.inputs.zip r.inputs).foldlM (compOperand comp (differentNodes l r)) m).bind fun m =>
                (m.addNode x.1 y.1 (differentNodes l r)).bind fun m => m.addValue left right (differentNodes l r)
  | _, _ => .error .panic

/-- `comp_value`. -/
def compValue (s : GraphStructuralEquiv) :
    Nat → Correspondence → ValueId → ValueId → Except ComparisonStop Correspondence
  | 0, _, _, _ => .error .fuel
  | fuel + 1, m, left, right =>
      if m.value left = some right then .ok m
      else
        match s.left.graph.initializer left, s.right.graph.initializer right with
        | some l, some r =>
            if s.eqTensor l r then m.addValue left right (s.valueErr left right)
            else .error (s.valueErr left right)
        | some _, none => .error (s.valueErr left right)
        | none, some _ => .error (s.valueErr left right)
        | none, none =>
            match s.left.inputs.idxOf? left, s.right.inputs.idxOf? right with
            | some l, some r =>
                if l = r then m.addValue left right (s.valueErr left right)
                else .error (s.valueErr left right)
            | some _, none => .error (s.valueErr left right)
            | none, some _ => .error (s.valueErr left right)
            | none, none =>
                match s.left.defined left, s.right.defined right with
                | some x, some y => s.compDefined (s.compValue fuel) m left right x y
                | _, _ => .error .panic

/-- The loop over the types of the inputs, and the one over those of the outputs. -/
def compTypes (s : GraphStructuralEquiv) (pairs : List (ValueId × ValueId)) : Except ComparisonStop Unit :=
  pairs.foldlM (fun _ x =>
    match s.left.graph.values[x.1]?, s.right.graph.values[x.2]? with
    | some l, some r => if l.ty ≠ r.ty then .error (s.valueErr x.1 x.2) else .ok ()
    | _, _ => .error .panic) ()

/-- `check`.  Definitions are nested no deeper than there are nodes. -/
def check (s : GraphStructuralEquiv) : Except ComparisonStop Unit :=
  if s.left.inputs.length ≠ s.right.inputs.length then
    .error (.unequal (.differentComputations ["input count mismatch"] []))
  else if s.left.outputs.length ≠ s.right.outputs.length then
    .error (.unequal (.differentComputations ["output count mismatch"] []))
  else
    (s.compTypes (s.left.inputs.zip s.right.inputs)).bind fun _ =>
      (s.compTypes (s.left.outputs.zip s.right.outputs)).bind fun _ =>
        ((s.left.outputs.zip s.right.outputs).foldlM
          (fun m x => s.compValue (s.left.graph.nodes.length + 1) m x.1 x.2) .empty).map fun _ => ()

/-- `new`. -/
def new (eqOp : Operator → Operator → Bool) (eqTensor : Tensor → Tensor → Bool) (left right : Graph) :
    Except ComparisonStop GraphStructuralEquiv :=
  (StructuralInfo.new left).bind fun left =>
    (StructuralInfo.new right).map fun right => { left, right, eqOp, eqTensor }

end GraphStructuralEquiv

/-- `compare_graphs_structural`. -/
def compareGraphsStructural (eqOp : Operator → Operator → Bool) (eqTensor : Tensor → Tensor → Bool)
    (left right : Graph) : Except ComparisonStop Unit :=
  (GraphStructuralEquiv.new eqOp eqTensor left right).bind GraphStructuralEquiv.check

/-! ### Isomorphisms -/

/-- The values from which the outputs are computed. -/
inductive StructuralInfo.Needed (g : StructuralInfo) : ValueId → Prop
  | output {v : ValueId} : v ∈ g.outputs → Needed g v
  | operand {v u : ValueId} {place : Place} {node : Node} : Needed g v → g.graph.initializer v = none → v ∉ g.inputs →
      g.defined v = some place → g.graph.node? place.1 = some node → u ∈ node.operands → Needed g u

/-- The nodes from which the outputs are computed. -/
def StructuralInfo.NeededNode (g : StructuralInfo) (id : NodeId) : Prop :=
  ∃ v i, g.Needed v ∧ g.graph.initializer v = none ∧ v ∉ g.inputs ∧ g.defined v = some (id, i)

namespace GraphStructuralEquiv

/-- Two values come from equal initializers, from inputs at one position or from one output of corresponding nodes.
A value with an initializer is no input, as when a model is loaded. -/
structure SameValue (s : GraphStructuralEquiv) (m : Correspondence) (v w : ValueId) : Prop where
  initializer : Option.Rel (fun a b => s.eqTensor a b = true) (s.left.graph.initializer v) (s.right.graph.initializer w)
  input : s.left.graph.initializer v = none → s.left.inputs.idxOf? v = s.right.inputs.idxOf? w
  defined : s.left.graph.initializer v = none → v ∉ s.left.inputs →
    ∃ x y, s.left.defined v = some x ∧ s.right.defined w = some y ∧ x.2 = y.2 ∧ y.1 ∈ m.node x.1

/-- Two nodes have equal operators and corresponding operands, which are absent at the same positions. -/
def SameNode (s : GraphStructuralEquiv) (m : Correspondence) (l r : NodeId) : Prop :=
  ∃ node node', s.left.graph.node? l = some node ∧ s.right.graph.node? r = some node' ∧
    s.eqOp node.op node'.op = true ∧ List.Forall₂ (Option.Rel fun v w => w ∈ m.value v) node.inputs node'.inputs

/-- A bijection of the values and one of the nodes from which the outputs are computed. -/
structure Isomorphism (s : GraphStructuralEquiv) (m : Correspondence) : Prop where
  value_left : ∀ v, (m.value v).isSome ↔ s.left.Needed v
  value_right : ∀ w, (m.value.symm w).isSome ↔ s.right.Needed w
  node_left : ∀ l, (m.node l).isSome ↔ s.left.NeededNode l
  node_right : ∀ r, (m.node.symm r).isSome ↔ s.right.NeededNode r
  outputs : List.Forall₂ (fun v w => w ∈ m.value v) s.left.outputs s.right.outputs
  value : ∀ v w, w ∈ m.value v → s.SameValue m v w
  node : ∀ l r, r ∈ m.node l → s.SameNode m l r

/-- The types agree position by position, and so do the lengths. -/
def SameTypes (s : GraphStructuralEquiv) (vs ws : List ValueId) : Prop :=
  List.Forall₂ (fun v w => (s.left.graph.values[v]?).map ValueInfo.ty = (s.right.graph.values[w]?).map ValueInfo.ty) vs ws

/-- What is known of two maps while they are grown. -/
structure Partial (s : GraphStructuralEquiv) (m : Correspondence) : Prop where
  value : ∀ v w, w ∈ m.value v → s.SameValue m v w ∧ s.left.Needed v ∧ s.right.Needed w
  node : ∀ l r, r ∈ m.node l → s.SameNode m l r ∧ s.left.NeededNode l ∧ s.right.NeededNode r

end GraphStructuralEquiv

/-- What the walk relies on: the values it reaches are there, and each has a source. -/
structure StructuralInfo.Closed (g : StructuralInfo) : Prop where
  defined : g.defined = g.graph.definedPlaces
  acyclic : ∀ id, ¬Relation.TransGen g.graph.Feeds id id
  allocated : ∀ v, g.Needed v → v < g.graph.values.length
  source : ∀ v, g.Needed v → g.graph.initializer v = none → v ∉ g.inputs → ∃ place, g.defined v = some place

/-- An acyclic graph whose inputs are `Input` nodes and whose initializers are inline. -/
structure Graph.Comparable (g : Graph) : Prop where
  inputs : ∀ id ∈ g.inputs, ∃ v, g.inputValue id = some v ∧ v < g.values.length
  outputs : ∀ id ∈ g.outputs, ∃ node v, g.node? id = some node ∧ node.op = .output v ∧ v ∈ node.operands
  inline : ∀ v, g.externalRefs v = none
  closed : ∀ id node, g.node? id = some node → ∀ v ∈ node.operands, v < g.values.length ∧
    (g.hasInitializer v = true ∨ (∃ i ∈ g.inputs, g.inputValue i = some v) ∨
      ∃ d definer, g.node? d = some definer ∧ definer.isDummy = false ∧ v ∈ definer.outputs)
  acyclic : ∀ id, ¬Relation.TransGen g.Feeds id id

namespace Correspondence

variable {m m' : Correspondence} {v w : ValueId} {l r : NodeId} {err : ComparisonStop}

theorem le_iff : m ≤ m' ↔ m.value ≤ m'.value ∧ m.node ≤ m'.node := Iff.rfl

theorem mem_value_of_le (h : m ≤ m') (hw : w ∈ m.value v) : w ∈ m'.value v := PEquiv.le_def.mp (le_iff.mp h).1 v w hw

theorem mem_node_of_le (h : m ≤ m') (hr : r ∈ m.node l) : r ∈ m'.node l := PEquiv.le_def.mp (le_iff.mp h).2 l r hr

theorem empty_le (m : Correspondence) : empty ≤ m := le_iff.mpr ⟨bot_le, bot_le⟩

/-- A pair of values is added if the larger maps may have it. -/
theorem leastOf_addValue {P : Set Correspondence} (herr : err.IsUnequal)
    (hP : ∀ value, add m.value v w = some value → { m with value } ∈ P) :
    LeastOf ComparisonStop.IsUnequal {M ∈ P | m ≤ M ∧ w ∈ M.value v} (m.addValue v w err) := by
  unfold addValue
  cases hadd : add m.value v w with
  | none =>
      refine leastOf_error.mpr ⟨herr, ?_⟩
      rintro M ⟨-, hle, hw⟩
      exact add_eq_none hadd (le_iff.mp hle).1 hw
  | some value =>
      obtain ⟨hle, hmem, hnew⟩ := add_eq_some hadd
      refine leastOf_ok.mpr ⟨⟨hP value hadd, le_iff.mpr ⟨hle, le_refl _⟩, hmem⟩, ?_⟩
      rintro M ⟨-, hM, hw⟩
      refine le_iff.mpr ⟨PEquiv.le_def.mpr fun x y hy => ?_, (le_iff.mp hM).2⟩
      rcases hnew x y hy with hy | ⟨rfl, rfl⟩
      · exact mem_value_of_le hM hy
      · exact hw

/-- A pair of nodes is added if the larger maps may have it. -/
theorem leastOf_addNode {P : Set Correspondence} (herr : err.IsUnequal)
    (hP : ∀ node, add m.node l r = some node → { m with node } ∈ P) :
    LeastOf ComparisonStop.IsUnequal {M ∈ P | m ≤ M ∧ r ∈ M.node l} (m.addNode l r err) := by
  unfold addNode
  cases hadd : add m.node l r with
  | none =>
      refine leastOf_error.mpr ⟨herr, ?_⟩
      rintro M ⟨-, hle, hr⟩
      exact add_eq_none hadd (le_iff.mp hle).2 hr
  | some node =>
      obtain ⟨hle, hmem, hnew⟩ := add_eq_some hadd
      refine leastOf_ok.mpr ⟨⟨hP node hadd, le_iff.mpr ⟨le_refl _, hle⟩, hmem⟩, ?_⟩
      rintro M ⟨-, hM, hr⟩
      refine le_iff.mpr ⟨(le_iff.mp hM).1, PEquiv.le_def.mpr fun x y hy => ?_⟩
      rcases hnew x y hy with hy | ⟨rfl, rfl⟩
      · exact mem_node_of_le hM hy
      · exact hr

end Correspondence

namespace GraphStructuralEquiv

open Correspondence

variable {s : GraphStructuralEquiv} {m m' : Correspondence} {v w : ValueId} {l r : NodeId}

theorem SameValue.mono (h : s.SameValue m v w) (hle : m ≤ m') : s.SameValue m' v w where
  initializer := h.initializer
  input := h.input
  defined hinit hinput := by
    obtain ⟨x, y, hx, hy, hidx, hnode⟩ := h.defined hinit hinput
    exact ⟨x, y, hx, hy, hidx, mem_node_of_le hle hnode⟩

theorem optionRel_mono (hle : m ≤ m') {a b : Option ValueId} (h : Option.Rel (fun v w => w ∈ m.value v) a b) :
    Option.Rel (fun v w => w ∈ m'.value v) a b := by
  cases h with
  | none => exact .none
  | some h => exact .some (mem_value_of_le hle h)

theorem SameNode.mono (h : s.SameNode m l r) (hle : m ≤ m') : s.SameNode m' l r := by
  obtain ⟨node, node', hnode, hnode', hop, hinputs⟩ := h
  exact ⟨node, node', hnode, hnode', hop, hinputs.imp fun _ _ hab => optionRel_mono hle hab⟩

/-- Two maps stay partial when a pair of values is added. -/
theorem Partial.add_value (h : s.Partial m) {value : ValueId ≃. ValueId} (hadd : add m.value v w = some value)
    (hnew : s.SameValue m v w ∧ s.left.Needed v ∧ s.right.Needed w) : s.Partial { m with value } := by
  obtain ⟨hle, -, honly⟩ := add_eq_some hadd
  have hle : m ≤ { m with value } := le_iff.mpr ⟨hle, le_refl _⟩
  constructor
  · intro x y hy
    rcases honly x y hy with hy | ⟨rfl, rfl⟩
    · exact ⟨(h.value x y hy).1.mono hle, (h.value x y hy).2⟩
    · exact ⟨hnew.1.mono hle, hnew.2⟩
  · intro x y hy
    exact ⟨(h.node x y hy).1.mono hle, (h.node x y hy).2⟩

theorem Partial.add_node (h : s.Partial m) {node : NodeId ≃. NodeId} (hadd : add m.node l r = some node)
    (hnew : s.SameNode m l r ∧ s.left.NeededNode l ∧ s.right.NeededNode r) : s.Partial { m with node } := by
  obtain ⟨hle, -, honly⟩ := add_eq_some hadd
  have hle : m ≤ { m with node } := le_iff.mpr ⟨le_refl _, hle⟩
  constructor
  · intro x y hy
    exact ⟨(h.value x y hy).1.mono hle, (h.value x y hy).2⟩
  · intro x y hy
    rcases honly x y hy with hy | ⟨rfl, rfl⟩
    · exact ⟨(h.node x y hy).1.mono hle, (h.node x y hy).2⟩
    · exact ⟨hnew.1.mono hle, hnew.2⟩

/-! ### What one comparison finds -/

theorem valueErr_isUnequal (hv : v < s.left.graph.values.length) (hw : w < s.right.graph.values.length) :
    (s.valueErr v w).IsUnequal := by
  unfold valueErr
  rw [List.getElem?_eq_getElem hv, List.getElem?_eq_getElem hw]
  trivial

/-- The comparison fails where no partial maps relate the values. -/
theorem leastOf_failure {err : ComparisonStop} (herr : err.IsUnequal)
    (h : ∀ M, s.Partial M → w ∈ M.value v → False) :
    LeastOf ComparisonStop.IsUnequal {M ∈ {M | s.Partial M} | m ≤ M ∧ w ∈ M.value v} (.error err) := by
  refine leastOf_error.mpr ⟨herr, ?_⟩
  rintro M ⟨hM, -, hw⟩
  exact h M hM hw

/-- Two values that come from the same are added. -/
theorem leastOf_addSame (hm : s.Partial m) {err : ComparisonStop} (herr : err.IsUnequal) (hv : s.left.Needed v)
    (hw : s.right.Needed w) (hsame : s.SameValue m v w) :
    LeastOf ComparisonStop.IsUnequal {M ∈ {M | s.Partial M} | m ≤ M ∧ w ∈ M.value v} (m.addValue v w err) :=
  leastOf_addValue herr fun _ hadd => hm.add_value hadd ⟨hsame, hv, hw⟩

theorem leastOf_compOperand (hm : s.Partial m) {err : ComparisonStop} (herr : err.IsUnequal)
    {comp : Correspondence → ValueId → ValueId → Except ComparisonStop Correspondence} {a b : Option ValueId}
    (hcomp : ∀ u u', a = some u → b = some u' →
      LeastOf ComparisonStop.IsUnequal {M ∈ {M | s.Partial M} | m ≤ M ∧ u' ∈ M.value u} (comp m u u')) :
    LeastOf ComparisonStop.IsUnequal
      {M ∈ {M | s.Partial M} | m ≤ M ∧ M ∈ {M | Option.Rel (fun v w => w ∈ M.value v) a b}}
      (compOperand comp err m (a, b)) := by
  cases a with
  | none =>
      cases b with
      | none => exact leastOf_ok.mpr ⟨⟨hm, le_refl m, .none⟩, fun M hM => hM.2.1⟩
      | some u' =>
          refine leastOf_error.mpr ⟨herr, ?_⟩
          rintro M ⟨-, -, hrel⟩
          cases hrel
  | some u =>
      cases b with
      | none =>
          refine leastOf_error.mpr ⟨herr, ?_⟩
          rintro M ⟨-, -, hrel⟩
          cases hrel
      | some u' =>
          have hsets : {M ∈ {M | s.Partial M} | m ≤ M ∧ M ∈ {M | Option.Rel (fun v w => w ∈ M.value v) (some u) (some u')}} =
              {M ∈ {M | s.Partial M} | m ≤ M ∧ u' ∈ M.value u} := by
            ext M
            exact and_congr_right fun _ => and_congr_right fun _ => Option.rel_some_some
          rw [hsets]
          exact hcomp u u' rfl rfl

section Walk

variable {comp : Correspondence → ValueId → ValueId → Except ComparisonStop Correspondence} {x y : Place} {node node' : Node}

/-- The loop over the operands finds the least maps that relate them all. -/
theorem leastOf_operands {err : ComparisonStop} (herr : err.IsUnequal)
    (hcomp : ∀ M, s.Partial M → ∀ u ∈ node.operands, ∀ u' ∈ node'.operands,
      LeastOf ComparisonStop.IsUnequal {M' ∈ {M' | s.Partial M'} | M ≤ M' ∧ u' ∈ M'.value u} (comp M u u'))
    (hm : s.Partial m) (hlength : node.inputs.length = node'.inputs.length) :
    LeastOf ComparisonStop.IsUnequal
      {M ∈ {M | s.Partial M} | m ≤ M ∧ List.Forall₂ (Option.Rel fun v w => w ∈ M.value v) node.inputs node'.inputs}
      ((node.inputs.zip node'.inputs).foldlM (compOperand comp err) m) := by
  have hfold := @LeastOf.foldlM Correspondence ComparisonStop _ _ ComparisonStop.IsUnequal {M | s.Partial M}
    (fun p : Option ValueId × Option ValueId => {M | Option.Rel (fun v w => w ∈ M.value v) p.1 p.2})
    (compOperand comp err) (node.inputs.zip node'.inputs) (fun p _ M M' hle hp => optionRel_mono hle hp) ?_ m hm
  · have hsets : {M ∈ {M | s.Partial M} | m ≤ M ∧ List.Forall₂ (Option.Rel fun v w => w ∈ M.value v) node.inputs node'.inputs} =
        {M ∈ {M | s.Partial M} | m ≤ M ∧ ∀ p ∈ node.inputs.zip node'.inputs,
          M ∈ {M | Option.Rel (fun v w => w ∈ M.value v) p.1 p.2}} := by
      ext M
      refine and_congr_right fun _ => and_congr_right fun _ => ?_
      rw [List.forall₂_iff_zip]
      constructor
      · rintro ⟨-, h⟩ ⟨a, b⟩ hp
        exact h hp
      · exact fun h => ⟨hlength, fun hp => h _ hp⟩
    rw [hsets]
    exact hfold
  · rintro ⟨a, b⟩ hp M hM
    obtain ⟨ha, hb⟩ := List.of_mem_zip hp
    refine leastOf_compOperand hM herr fun u u' hu hu' => hcomp M hM u ?_ u' ?_
    · exact List.mem_filterMap.mpr ⟨a, ha, hu⟩
    · exact List.mem_filterMap.mpr ⟨b, hb, hu'⟩

/-- The comparison of two values that are outputs of nodes, if the one of their operands does its part. -/
theorem leastOf_compDefined (hm : s.Partial m) (hv : s.left.Needed v) (hw : s.right.Needed w)
    (hinit : s.left.graph.initializer v = none) (hinit' : s.right.graph.initializer w = none)
    (hinput : v ∉ s.left.inputs) (hinput' : w ∉ s.right.inputs)
    (hx : s.left.defined v = some x) (hy : s.right.defined w = some y)
    (hnode : s.left.graph.node? x.1 = some node) (hnode' : s.right.graph.node? y.1 = some node')
    (hcomp : ∀ M, s.Partial M → ∀ u ∈ node.operands, ∀ u' ∈ node'.operands,
      LeastOf ComparisonStop.IsUnequal {M' ∈ {M' | s.Partial M'} | M ≤ M' ∧ u' ∈ M'.value u} (comp M u u')) :
    LeastOf ComparisonStop.IsUnequal {M ∈ {M | s.Partial M} | m ≤ M ∧ w ∈ M.value v} (s.compDefined comp m v w x y) := by
  have hinitRel : Option.Rel (fun a b => s.eqTensor a b = true) (s.left.graph.initializer v) (s.right.graph.initializer w) := by
    rw [hinit, hinit']
    exact .none
  have hpos : s.left.inputs.idxOf? v = s.right.inputs.idxOf? w := by
    rw [List.idxOf?_eq_none_iff.mpr hinput, List.idxOf?_eq_none_iff.mpr hinput']
  have hsame : ∀ {M : Correspondence}, x.2 = y.2 → y.1 ∈ M.node x.1 → s.SameValue M v w := fun hidx hM =>
    ⟨hinitRel, fun _ => hpos, fun _ _ => ⟨x, y, hx, hy, hidx, hM⟩⟩
  have hleft : s.left.NeededNode x.1 := ⟨v, x.2, hv, hinit, hinput, hx⟩
  have hright : s.right.NeededNode y.1 := ⟨w, y.2, hw, hinit', hinput', hy⟩
  -- what partial maps that relate the values say of the nodes
  have hnodes : ∀ M, s.Partial M → w ∈ M.value v → x.2 = y.2 ∧ y.1 ∈ M.node x.1 := by
    intro M hM hMw
    obtain ⟨x', y', hx', hy', hidx, hMnode⟩ := (hM.value v w hMw).1.defined hinit hinput
    rw [hx] at hx'
    rw [hy] at hy'
    rw [Option.some.inj hx', Option.some.inj hy']
    exact ⟨hidx, hMnode⟩
  have hoperands : ∀ M, s.Partial M → w ∈ M.value v → s.eqOp node.op node'.op = true ∧
      List.Forall₂ (Option.Rel fun v w => w ∈ M.value v) node.inputs node'.inputs := by
    intro M hM hMw
    obtain ⟨n, n', hn, hn', hop, hinputs⟩ := (hM.node x.1 y.1 (hnodes M hM hMw).2).1
    rw [hnode] at hn
    rw [hnode'] at hn'
    rw [Option.some.inj hn, Option.some.inj hn']
    exact ⟨hop, hinputs⟩
  have herr : (differentNodes node node').IsUnequal := trivial
  unfold compDefined
  simp only [hnode, hnode']
  split
  · rename_i hidx
    exact leastOf_failure herr fun M hM hMw => hidx (hnodes M hM hMw).1
  rename_i hidx
  rw [not_not] at hidx
  split
  · -- the left node has a partner already
    rename_i correspond hcorrespond
    split
    · rename_i heq
      subst heq
      exact leastOf_addSame hm herr hv hw (hsame hidx hcorrespond)
    · rename_i hne
      refine leastOf_error.mpr ⟨herr, ?_⟩
      rintro M ⟨hM, hle, hMw⟩
      exact hne (Option.mem_unique (mem_node_of_le hle hcorrespond) (hnodes M hM hMw).2)
  split
  · rename_i hop
    refine leastOf_failure herr fun M hM hMw => ?_
    rw [(hoperands M hM hMw).1] at hop
    cases hop
  rename_i hop
  split
  · rename_i hlength
    exact leastOf_failure herr fun M hM hMw => hlength (hoperands M hM hMw).2.length_eq
  rename_i hlength
  rw [not_not] at hlength
  -- the operands, then the nodes, then the values
  refine (leastOf_operands herr hcomp hm hlength).bind ?_ ?_
  · rintro M ⟨hM, hle, hMw⟩
    exact ⟨hM, hle, (hoperands M hM hMw).2⟩
  rintro m₁ ⟨⟨hm₁, hle₁, hinputs₁⟩, -⟩
  have hadd₁ : LeastOf ComparisonStop.IsUnequal {M ∈ {M | s.Partial M} | m₁ ≤ M ∧ y.1 ∈ M.node x.1}
      (m₁.addNode x.1 y.1 (differentNodes node node')) :=
    leastOf_addNode herr fun _ hadd => hm₁.add_node hadd
      ⟨⟨node, node', hnode, hnode', by simpa using hop, hinputs₁⟩, hleft, hright⟩
  refine hadd₁.bind ?_ ?_
  · rintro M ⟨⟨hM, hle, hMw⟩, hle₁⟩
    exact ⟨hM, hle₁, (hnodes M hM hMw).2⟩
  rintro m₂ ⟨⟨hm₂, hle₂, hnode₂⟩, -⟩
  have hsets : {M ∈ {M ∈ {M ∈ {M | s.Partial M} | m ≤ M ∧ w ∈ M.value v} | m₁ ≤ M} | m₂ ≤ M} =
      {M ∈ {M | s.Partial M} | m₂ ≤ M ∧ w ∈ M.value v} := by
    ext M
    constructor
    · rintro ⟨⟨⟨hM, -, hMw⟩, -⟩, hle⟩
      exact ⟨hM, hle, hMw⟩
    · rintro ⟨hM, hle, hMw⟩
      exact ⟨⟨⟨hM, (hle₁.trans hle₂).trans hle, hMw⟩, hle₂.trans hle⟩, hle⟩
  rw [hsets]
  exact leastOf_addSame hm₂ herr hv hw (hsame hidx hnode₂)

end Walk

/-- One comparison finds the least maps that relate the two values, if there are any. -/
theorem leastOf_compValue (hl : s.left.Closed) (hr : s.right.Closed) {fuel : Nat} (hm : s.Partial m)
    (hv : s.left.Needed v) (hw : s.right.Needed w) (hfuel : s.left.graph.depth v < fuel) :
    LeastOf ComparisonStop.IsUnequal {M ∈ {M | s.Partial M} | m ≤ M ∧ w ∈ M.value v} (s.compValue fuel m v w) := by
  induction fuel generalizing m v w with
  | zero => exact absurd hfuel (Nat.not_lt_zero _)
  | succ fuel ih =>
      have herr := valueErr_isUnequal (hl.allocated v hv) (hr.allocated w hw)
      unfold compValue
      split
      · rename_i hmem
        exact leastOf_ok.mpr ⟨⟨hm, le_refl m, hmem⟩, fun M hM => hM.2.1⟩
      split
      · -- two initializers
        rename_i a b ha hb
        split
        · rename_i heq
          refine leastOf_addSame hm herr hv hw ⟨?_, ?_, ?_⟩
          · rw [ha, hb]
            exact .some heq
          · rw [ha]
            exact fun h => by cases h
          · rw [ha]
            exact fun h => by cases h
        · rename_i hne
          refine leastOf_failure herr fun M hM hMw => hne ?_
          have hrel := (hM.value v w hMw).1.initializer
          rw [ha, hb] at hrel
          cases hrel with
          | some heq => exact heq
      · rename_i a ha hb
        refine leastOf_failure herr fun M hM hMw => ?_
        have hrel := (hM.value v w hMw).1.initializer
        rw [ha, hb] at hrel
        cases hrel
      · rename_i b ha hb
        refine leastOf_failure herr fun M hM hMw => ?_
        have hrel := (hM.value v w hMw).1.initializer
        rw [ha, hb] at hrel
        cases hrel
      rename_i hinit hinit'
      have hposition : ∀ M, s.Partial M → w ∈ M.value v → s.left.inputs.idxOf? v = s.right.inputs.idxOf? w :=
        fun M hM hMw => (hM.value v w hMw).1.input hinit
      split
      · -- two inputs
        rename_i i j hi hj
        split
        · rename_i heq
          subst heq
          refine leastOf_addSame hm herr hv hw ⟨?_, fun _ => hi.trans hj.symm, ?_⟩
          · rw [hinit, hinit']
            exact .none
          · intro _ hinput
            rw [List.idxOf?_eq_none_iff.mpr hinput] at hi
            cases hi
        · rename_i hne
          refine leastOf_failure herr fun M hM hMw => hne ?_
          have hpos := hposition M hM hMw
          rw [hi, hj] at hpos
          exact Option.some.inj hpos
      · rename_i i hi hj
        refine leastOf_failure herr fun M hM hMw => ?_
        have hpos := hposition M hM hMw
        rw [hi, hj] at hpos
        cases hpos
      · rename_i j hi hj
        refine leastOf_failure herr fun M hM hMw => ?_
        have hpos := hposition M hM hMw
        rw [hi, hj] at hpos
        cases hpos
      rename_i hi hj
      have hinput := List.idxOf?_eq_none_iff.mp hi
      have hinput' := List.idxOf?_eq_none_iff.mp hj
      obtain ⟨x, hx⟩ := hl.source v hv hinit hinput
      obtain ⟨y, hy⟩ := hr.source w hw hinit' hinput'
      have hx' : s.left.graph.definedPlaces v = some x := by rw [← hl.defined, hx]
      obtain ⟨node, hnode, -⟩ := Graph.definedPlaces_eq_some hx'
      obtain ⟨node', hnode', -⟩ := Graph.definedPlaces_eq_some (show s.right.graph.definedPlaces w = some y by
        rw [← hr.defined, hy])
      simp only [hx, hy]
      refine leastOf_compDefined hm hv hw hinit hinit' hinput hinput' hx hy hnode hnode' ?_
      intro M hM u hu u' hu'
      refine ih hM (hv.operand hinit hinput hx hnode hu) (hw.operand hinit' hinput' hy hnode' hu') ?_
      have hlt := Graph.depth_operand_lt hl.acyclic hx' hnode hu
      omega

/-! ### The whole comparison -/

theorem Isomorphism.isPartial (h : s.Isomorphism m) : s.Partial m where
  value v w hw :=
    ⟨h.value v w hw, (h.value_left v).mp (Option.isSome_iff_exists.mpr ⟨w, hw⟩),
      (h.value_right w).mp (Option.isSome_iff_exists.mpr ⟨v, (m.value.eq_some_iff).mpr hw⟩)⟩
  node l r hr :=
    ⟨h.node l r hr, (h.node_left l).mp (Option.isSome_iff_exists.mpr ⟨r, hr⟩),
      (h.node_right r).mp (Option.isSome_iff_exists.mpr ⟨l, (m.node.eq_some_iff).mpr hr⟩)⟩

theorem SameValue.initializer_none (h : s.SameValue m v w) :
    s.left.graph.initializer v = none ↔ s.right.graph.initializer w = none := by
  have hrel := h.initializer
  generalize s.left.graph.initializer v = a at hrel ⊢
  generalize s.right.graph.initializer w = b at hrel ⊢
  cases hrel <;> simp

theorem SameValue.mem_inputs (h : s.SameValue m v w) (hinit : s.left.graph.initializer v = none) :
    v ∈ s.left.inputs ↔ w ∈ s.right.inputs := by
  rw [← not_iff_not, ← List.idxOf?_eq_none_iff, ← List.idxOf?_eq_none_iff, h.input hinit]

/-- Operands of nodes that correspond correspond. -/
theorem exists_operand {as bs : List (Option ValueId)} {u : ValueId}
    (h : List.Forall₂ (Option.Rel fun v w => w ∈ m.value v) as bs) :
    (u ∈ as.filterMap (fun v => v) → ∃ u' ∈ bs.filterMap (fun v => v), u' ∈ m.value u) ∧
      (u ∈ bs.filterMap (fun v => v) → ∃ u' ∈ as.filterMap (fun v => v), u ∈ m.value u') := by
  induction h with
  | nil => simp
  | cons hab _ ih =>
      cases hab with
      | none => simpa using ih
      | some hab =>
          simp only [List.filterMap_cons, List.mem_cons, exists_eq_or_imp]
          constructor
          · rintro (rfl | hu)
            · exact .inl hab
            · exact .inr (ih.1 hu)
          · rintro (rfl | hu)
            · exact .inl hab
            · exact .inr (ih.2 hu)

/-- Partial maps that relate the outputs have every value that is needed on the left. -/
theorem Partial.exists_right (h : s.Partial m) (hout : List.Forall₂ (fun v w => w ∈ m.value v) s.left.outputs s.right.outputs)
    (hv : s.left.Needed v) : ∃ w, w ∈ m.value v := by
  induction hv with
  | output hv =>
      obtain ⟨i, hi⟩ := List.mem_iff_getElem?.mp hv
      obtain ⟨hlt, -⟩ := List.getElem?_eq_some_iff.mp hi
      have hrel := hout.get hlt (hout.length_eq ▸ hlt)
      simp only [List.get_eq_getElem] at hrel
      rw [(List.getElem?_eq_some_iff.mp hi).2] at hrel
      exact ⟨_, hrel⟩
  | operand _ hinit hinput hplace hnode hu ih =>
      obtain ⟨w, hw⟩ := ih
      obtain ⟨x, y, hx, -, -, hxy⟩ := (h.value _ w hw).1.defined hinit hinput
      obtain ⟨node, node', hl, -, -, hinputs⟩ := (h.node _ _ hxy).1
      rw [hplace] at hx
      cases hx
      rw [hnode] at hl
      cases hl
      obtain ⟨u', -, hu'⟩ := (exists_operand hinputs).1 hu
      exact ⟨u', hu'⟩

theorem Partial.exists_left (h : s.Partial m) (hout : List.Forall₂ (fun v w => w ∈ m.value v) s.left.outputs s.right.outputs)
    (hw : s.right.Needed w) : ∃ v, w ∈ m.value v := by
  induction hw with
  | output hw =>
      obtain ⟨i, hi⟩ := List.mem_iff_getElem?.mp hw
      obtain ⟨hlt, -⟩ := List.getElem?_eq_some_iff.mp hi
      have hrel := hout.get (hout.length_eq ▸ hlt) hlt
      simp only [List.get_eq_getElem] at hrel
      rw [(List.getElem?_eq_some_iff.mp hi).2] at hrel
      exact ⟨_, hrel⟩
  | operand _ hinit hinput hplace hnode hu ih =>
      obtain ⟨v, hv⟩ := ih
      have hsame := (h.value v _ hv).1
      have hinit' := hsame.initializer_none.mpr hinit
      obtain ⟨x, y, -, hy, -, hxy⟩ := hsame.defined hinit' fun hin => hinput ((hsame.mem_inputs hinit').mp hin)
      obtain ⟨node, node', -, hr, -, hinputs⟩ := (h.node _ _ hxy).1
      rw [hplace] at hy
      cases hy
      rw [hnode] at hr
      cases hr
      obtain ⟨u', -, hu'⟩ := (exists_operand hinputs).2 hu
      exact ⟨u', hu'⟩

/-- Partial maps that relate the outputs are an isomorphism. -/
theorem Partial.isomorphism (h : s.Partial m)
    (hout : List.Forall₂ (fun v w => w ∈ m.value v) s.left.outputs s.right.outputs) : s.Isomorphism m where
  outputs := hout
  value v w hw := (h.value v w hw).1
  node l r hr := (h.node l r hr).1
  value_left v := by
    rw [Option.isSome_iff_exists]
    exact ⟨fun ⟨w, hw⟩ => (h.value v w hw).2.1, h.exists_right hout⟩
  value_right w := by
    rw [Option.isSome_iff_exists]
    constructor
    · rintro ⟨v, hv⟩
      exact (h.value v w ((m.value.eq_some_iff).mp hv)).2.2
    · intro hw
      obtain ⟨v, hv⟩ := h.exists_left hout hw
      exact ⟨v, (m.value.eq_some_iff).mpr hv⟩
  node_left l := by
    rw [Option.isSome_iff_exists]
    constructor
    · rintro ⟨r, hr⟩
      exact (h.node l r hr).2.1
    · rintro ⟨v, i, hv, hinit, hinput, hl⟩
      obtain ⟨w, hw⟩ := h.exists_right hout hv
      obtain ⟨x, y, hx, -, -, hxy⟩ := (h.value v w hw).1.defined hinit hinput
      rw [hl] at hx
      cases hx
      exact ⟨y.1, hxy⟩
  node_right r := by
    rw [Option.isSome_iff_exists]
    constructor
    · rintro ⟨l, hl⟩
      exact (h.node l r ((m.node.eq_some_iff).mp hl)).2.2
    · rintro ⟨w, i, hw, hinit, hinput, hr⟩
      obtain ⟨v, hv⟩ := h.exists_left hout hw
      have hsame := (h.value v w hv).1
      have hinit' := hsame.initializer_none.mpr hinit
      obtain ⟨x, y, -, hy, -, hxy⟩ := hsame.defined hinit' fun hin => hinput ((hsame.mem_inputs hinit').mp hin)
      rw [hr] at hy
      cases hy
      exact ⟨x.1, (m.node.eq_some_iff).mpr hxy⟩

theorem partial_empty (s : GraphStructuralEquiv) : s.Partial empty where
  value v w hw := by cases hw
  node l r hr := by cases hr

/-- The loop over the outputs. -/
theorem leastOf_outputs (hl : s.left.Closed) (hr : s.right.Closed) (hlength : s.left.outputs.length = s.right.outputs.length) :
    LeastOf ComparisonStop.IsUnequal {M | s.Isomorphism M}
      ((s.left.outputs.zip s.right.outputs).foldlM
        (fun m x => s.compValue (s.left.graph.nodes.length + 1) m x.1 x.2) .empty) := by
  have hfold := @LeastOf.foldlM Correspondence ComparisonStop _ _ ComparisonStop.IsUnequal {M | s.Partial M}
    (fun p : ValueId × ValueId => {M | p.2 ∈ M.value p.1})
    (fun m x => s.compValue (s.left.graph.nodes.length + 1) m x.1 x.2) (s.left.outputs.zip s.right.outputs)
    (fun p _ M M' hle hp => mem_value_of_le hle hp) ?_ .empty s.partial_empty
  · have hsets : {M | s.Isomorphism M} =
        {M ∈ {M | s.Partial M} | empty ≤ M ∧ ∀ p ∈ s.left.outputs.zip s.right.outputs, M ∈ {M | p.2 ∈ M.value p.1}} := by
      ext M
      constructor
      · intro hM
        refine ⟨hM.isPartial, empty_le M, ?_⟩
        rintro ⟨v, w⟩ hp
        exact (List.forall₂_iff_zip.mp hM.outputs).2 hp
      · rintro ⟨hM, -, hp⟩
        exact hM.isomorphism (List.forall₂_iff_zip.mpr ⟨hlength, fun hvw => hp _ hvw⟩)
    rw [hsets]
    exact hfold
  · rintro ⟨v, w⟩ hp M hM
    obtain ⟨hv, hw⟩ := List.of_mem_zip hp
    exact leastOf_compValue hl hr hM (.output hv) (.output hw) (Nat.lt_succ_of_le (Graph.depth_le hl.acyclic v))

theorem decides_compTypes (pairs : List (ValueId × ValueId))
    (h : ∀ p ∈ pairs, p.1 < s.left.graph.values.length ∧ p.2 < s.right.graph.values.length) :
    ComparisonStop.Decides (∀ p ∈ pairs, (s.left.graph.values[p.1]?).map ValueInfo.ty =
      (s.right.graph.values[p.2]?).map ValueInfo.ty) (s.compTypes pairs) := by
  induction pairs with
  | nil => exact fun p hp => absurd hp List.not_mem_nil
  | cons p pairs ih =>
      have ih := ih fun q hq => h q (List.mem_cons_of_mem p hq)
      obtain ⟨hl, hr⟩ := h p List.mem_cons_self
      have herr := valueErr_isUnequal hl hr
      simp only [List.forall_mem_cons]
      unfold compTypes
      rw [List.foldlM_cons]
      refine ComparisonStop.Decides.bind ?_ fun _ _ _ => ih
      rw [List.getElem?_eq_getElem hl, List.getElem?_eq_getElem hr]
      simp only [Option.map_some, Option.some_inj]
      split
      · rename_i hne
        exact ⟨herr, hne⟩
      · rename_i heq
        exact not_not.mp heq

theorem leastOf_decides {S : Set Correspondence} {x : Except ComparisonStop Correspondence}
    (h : LeastOf ComparisonStop.IsUnequal S x) : ComparisonStop.Decides (∃ M, M ∈ S) x := by
  cases x with
  | error stop =>
      obtain ⟨hstop, hnone⟩ := leastOf_error.mp h
      exact ⟨hstop, fun ⟨M, hM⟩ => hnone M hM⟩
  | ok m => exact ⟨m, h.1⟩

theorem sameTypes_iff {vs ws : List ValueId} : s.SameTypes vs ws ↔ vs.length = ws.length ∧
    ∀ p ∈ vs.zip ws, (s.left.graph.values[p.1]?).map ValueInfo.ty = (s.right.graph.values[p.2]?).map ValueInfo.ty := by
  unfold SameTypes
  rw [List.forall₂_iff_zip]
  exact and_congr_right fun _ => ⟨fun h p hp => h hp, fun h _ _ hp => h _ hp⟩

/-- `check` decides whether there is an isomorphism between graphs of one type. -/
theorem decides_check (hl : s.left.Closed) (hr : s.right.Closed)
    (hlin : ∀ v ∈ s.left.inputs, v < s.left.graph.values.length)
    (hrin : ∀ v ∈ s.right.inputs, v < s.right.graph.values.length) :
    ComparisonStop.Decides (s.SameTypes s.left.inputs s.right.inputs ∧ s.SameTypes s.left.outputs s.right.outputs ∧
      ∃ m, s.Isomorphism m) s.check := by
  unfold check
  split
  · rename_i hne
    exact ⟨trivial, fun h => hne (sameTypes_iff.mp h.1).1⟩
  rename_i hin
  rw [not_not] at hin
  split
  · rename_i hne
    exact ⟨trivial, fun h => hne (sameTypes_iff.mp h.2.1).1⟩
  rename_i hout
  rw [not_not] at hout
  rw [sameTypes_iff, sameTypes_iff]
  simp only [hin, hout, true_and]
  refine ComparisonStop.Decides.bind (decides_compTypes _ ?_) fun _ _ _ => ?_
  · rintro ⟨v, w⟩ hp
    obtain ⟨hv, hw⟩ := List.of_mem_zip hp
    exact ⟨hlin v hv, hrin w hw⟩
  refine ComparisonStop.Decides.bind (decides_compTypes _ ?_) fun _ _ _ => ?_
  · rintro ⟨v, w⟩ hp
    obtain ⟨hv, hw⟩ := List.of_mem_zip hp
    exact ⟨hl.allocated v (.output hv), hr.allocated w (.output hw)⟩
  exact (leastOf_decides (leastOf_outputs hl hr hout)).map

end GraphStructuralEquiv

/-- What is read of a graph before the comparison. -/
theorem Graph.Comparable.new_ok {g : Graph} (h : g.Comparable) : ∃ info, StructuralInfo.new g = .ok info ∧ info.Closed ∧
    ∀ v ∈ info.inputs, v < info.graph.values.length := by
  obtain ⟨inputs, hinputs⟩ := exists_mapM_eq_some fun id hid => (h.inputs id hid).imp fun _ hv => hv.1
  have houtput : ∀ id ∈ g.outputs, ∃ v, g.outputValue id = some v := by
    intro id hid
    obtain ⟨node, v, hnode, hop, -⟩ := h.outputs id hid
    exact ⟨v, by simp [Graph.outputValue, hnode, hop]⟩
  obtain ⟨outputs, houtputs⟩ := exists_mapM_eq_some houtput
  have hoperand : ∀ v, StructuralInfo.Needed { graph := g, inputs, outputs, defined := g.definedPlaces } v →
      ∃ id node, g.node? id = some node ∧ v ∈ node.operands := by
    intro v hv
    cases hv with
    | output hv =>
        obtain ⟨id, hid, hval⟩ := (mem_of_mapM_eq_some houtputs).mp hv
        obtain ⟨node, v', hnode, hop, hmem⟩ := h.outputs id hid
        simp only [Graph.outputValue, hnode, hop, Option.bind_some, Option.some_inj] at hval
        exact ⟨id, node, hnode, hval ▸ hmem⟩
    | operand _ _ _ _ hnode hu => exact ⟨_, _, hnode, hu⟩
  refine ⟨{ graph := g, inputs, outputs, defined := g.definedPlaces }, ?_, ⟨rfl, h.acyclic, ?_, ?_⟩, ?_⟩
  · unfold StructuralInfo.new
    simp only [hinputs, houtputs]
  · intro v hv
    obtain ⟨id, node, hnode, hmem⟩ := hoperand v hv
    exact (h.closed id node hnode v hmem).1
  · intro v hv hinit hinput
    obtain ⟨id, node, hnode, hmem⟩ := hoperand v hv
    rcases (h.closed id node hnode v hmem).2 with hhas | ⟨i, hi, hval⟩ | ⟨d, definer, hd, hlive, hout⟩
    · have hnone : g.initializer v = none := hinit
      rw [Graph.hasInitializer, hnone, h.inline] at hhas
      cases hhas
    · exact absurd ((mem_of_mapM_eq_some hinputs).mpr ⟨i, hi, hval⟩) hinput
    · exact Graph.definedPlaces_isSome hd hlive hout
  · intro v hv
    obtain ⟨id, hid, hval⟩ := (mem_of_mapM_eq_some hinputs).mp hv
    obtain ⟨v', hval', hlt⟩ := h.inputs id hid
    rw [hval] at hval'
    exact Option.some.inj hval' ▸ hlt

/-- The comparison returns, and it succeeds exactly for isomorphic graphs of one type. -/
theorem compareGraphsStructural_decides (eqOp : Operator → Operator → Bool) (eqTensor : Tensor → Tensor → Bool)
    (left right : Graph) (hl : left.Comparable) (hr : right.Comparable) :
    ∃ s, GraphStructuralEquiv.new eqOp eqTensor left right = .ok s ∧
      (compareGraphsStructural eqOp eqTensor left right = .ok () ∨
        ∃ err, compareGraphsStructural eqOp eqTensor left right = .error (.unequal err)) ∧
      (compareGraphsStructural eqOp eqTensor left right = .ok () ↔
        s.SameTypes s.left.inputs s.right.inputs ∧ s.SameTypes s.left.outputs s.right.outputs ∧
          ∃ m, s.Isomorphism m) := by
  obtain ⟨l, hnew, hclosed, hin⟩ := hl.new_ok
  obtain ⟨r, hnew', hclosed', hin'⟩ := hr.new_ok
  have hs : GraphStructuralEquiv.new eqOp eqTensor left right = .ok { left := l, right := r, eqOp, eqTensor } := by
    unfold GraphStructuralEquiv.new
    rw [hnew, hnew']
    rfl
  obtain ⟨hiff, hreturns⟩ :=
    (@GraphStructuralEquiv.decides_check { left := l, right := r, eqOp, eqTensor } hclosed hclosed' hin hin').spec
  refine ⟨_, hs, ?_⟩
  unfold compareGraphsStructural
  rw [hs]
  exact ⟨hreturns, hiff⟩

/-- `Sigmoid`, then the sum of its output with itself. -/
def sigmoidSum (x a y : ValueId) : Graph where
  nodes :=
    [{ inputs := [], outputs := [x], name := "Input", op := .input x, markAsDeleted := false },
      { inputs := [some x], outputs := [a], name := "Sigmoid", op := .sigmoid, markAsDeleted := false },
      { inputs := [some a, some a], outputs := [y], name := "Add", op := .add, markAsDeleted := false },
      { inputs := [some y], outputs := [], name := "Output", op := .output y, markAsDeleted := false }]
  inputs := [0]
  outputs := [3]
  values := [{ name := "0", ty := none }, { name := "1", ty := none }, { name := "2", ty := none }]
  initializer := fun _ => none
  externalRefs := fun _ => none

theorem sigmoidSum_comparable {x a y : ValueId} (hx : x < 3) (ha : a < 3) (hy : y < 3) (hxa : x ≠ a) (hay : a ≠ y)
    (hxy : x ≠ y) : (sigmoidSum x a y).Comparable where
  inputs id hid := by
    obtain rfl := List.mem_singleton.mp hid
    exact ⟨x, rfl, hx⟩
  outputs id hid := by
    obtain rfl := List.mem_singleton.mp hid
    exact ⟨_, y, rfl, rfl, List.mem_singleton.mpr rfl⟩
  inline v := rfl
  closed id node hnode v hv := by
    have hlt : id < 4 := Graph.lt_length_of_node? hnode
    interval_cases id
    · cases hnode
      simp [Node.operands] at hv
    · cases hnode
      obtain rfl : v = x := by simpa [Node.operands] using hv
      exact ⟨hx, .inr (.inl ⟨0, List.mem_singleton.mpr rfl, rfl⟩)⟩
    · cases hnode
      obtain rfl : v = a := by simpa [Node.operands] using hv
      exact ⟨ha, .inr (.inr ⟨1, _, rfl, rfl, List.mem_singleton.mpr rfl⟩)⟩
    · cases hnode
      obtain rfl : v = y := by simpa [Node.operands] using hv
      exact ⟨hy, .inr (.inr ⟨2, _, rfl, rfl, List.mem_singleton.mpr rfl⟩)⟩
  acyclic := by
    -- every node uses what the one before it defines
    have hfeeds : ∀ d id, (sigmoidSum x a y).Feeds d id → d < id := by
      rintro d id ⟨node, user, hd, hid, v, hout, hin⟩
      have hdlt : d < 4 := Graph.lt_length_of_node? hd
      have hidlt : id < 4 := Graph.lt_length_of_node? hid
      interval_cases d <;> interval_cases id <;> cases hd <;> cases hid <;> simp_all [Node.operands]
    intro id hid
    have hlt : ∀ {i j}, Relation.TransGen (sigmoidSum x a y).Feeds i j → i < j := by
      intro i j h
      induction h with
      | single h => exact hfeeds _ _ h
      | tail _ h ih => exact ih.trans (hfeeds _ _ h)
    exact absurd (hlt hid) (lt_irrefl id)

/-- The names of the values do not matter. -/
theorem sigmoidSum_isomorphic :
    ∃ s, GraphStructuralEquiv.new (fun a b => decide (a = b)) (fun a b => decide (a = b)) (sigmoidSum 0 1 2)
      (sigmoidSum 2 0 1) = .ok s ∧ ∃ m, s.Isomorphism m := by
  obtain ⟨s, hs, -, hiff⟩ := compareGraphsStructural_decides (fun a b => decide (a = b)) (fun a b => decide (a = b))
    (sigmoidSum 0 1 2) (sigmoidSum 2 0 1)
    (sigmoidSum_comparable (by decide) (by decide) (by decide) (by decide) (by decide) (by decide))
    (sigmoidSum_comparable (by decide) (by decide) (by decide) (by decide) (by decide) (by decide))
  exact ⟨s, hs, (hiff.mp (by decide +kernel)).2.2⟩

end NnEngine
