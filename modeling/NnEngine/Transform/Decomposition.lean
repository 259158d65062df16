import NnEngine.AxisReduction
import NnEngine.Graph.Exact
import NnEngine.Graph.ConvShape
import NnEngine.Tensor.Contiguity
import NnEngine.Transform.Pattern
import NnEngine.Transform.TransposeFusion

/-!
# Reductions as reductions of matrices

`ReduceDecomposition` and `GlobalAvgPoolDecomposition` of `src/transform/lower/decomposition.rs`, with the
`ReshapeGenerator` of `src/transform/utils.rs`.  The reduced axes are moved to the end, and the array is read
as a matrix.  The number of its columns is a quotient by the size of the result, which is 0 for a scalar:
`decompositions_iff` says for which nodes the passes return.
-/

namespace NnEngine

open DepthFirst InverseIndex SimpleGraphOp GraphState NdArray

/-- `to_tensor`. -/
def ResolvedTensorDims.toTensor (dims : ResolvedTensorDims) : Option Tensor :=
  Tensor.new (.new [dims.length]) (.sInt .I64 (dims.map Int64.ofNat))

structure ReshapeGenerator where
  input : Option ValueId := none
  dims : Option ResolvedTensorDims := none
  nodeName : Option String := none
  valueName : Option String := none
  allowContiguous : Option Bool := none

namespace ReshapeGenerator

open TransposeGenerator (okOr)

/-- The value that is reshaped and its new type: the input, or a contiguous copy of it. -/
def source (st : GraphState) (input : ValueId) (inputTy : ResolvedTensorType) (dims : ResolvedTensorDims)
    (nodeName valueName : String) (allowContiguous : Bool) :
    Except Failure ((ValueId × ResolvedTensorType) × GraphState) :=
  match inputTy.tryReshape dims with
  | .error .panic => .error .panic
  | .ok ty => .ok ((input, ty), st)
  | .error .notReshapable =>
      if !allowContiguous then .error (.invalidInput "cannot reshape because of uncontiguous area")
      else
        let newTy : ResolvedTensorType := .new inputTy.elemType inputTy.dims
        (okOr .panic (newTy.tryReshape dims).toOption).map fun ty =>
          let (newValue, st) := st.registerOutput (valueName ++ "_Continguous") newTy
            (nodeName ++ "_Continguous") [some input] (.contiguous [])
          ((newValue, ty), st)

/-- `generate`. -/
def generate (gen : ReshapeGenerator) (st : GraphState) : Except Failure (ValueId × GraphState) := do
  let input ← okOr (.invalidInput "input is required") gen.input
  let dims ← okOr (.invalidInput "dims is required") gen.dims
  let nodeName := gen.nodeName.getD s!"Reshape_{input}"
  let valueName := gen.valueName.getD s!"Reshape_{input}"
  let inputTy ← okOr .panic (st.graph.getResolvedTensorType input)
  if ResolvedTensorDims.size inputTy.dims ≠ ResolvedTensorDims.size dims ∧
      ¬(ResolvedTensorDims.compatibleWithScalar inputTy.dims && ResolvedTensorDims.compatibleWithScalar dims) then
    .error (.invalidInput "dims size must be equal to input size")
  else
    let ((inputValue, ty), st) ← source st input inputTy dims nodeName valueName (gen.allowContiguous.getD true)
    let shape ← okOr .panic (ResolvedTensorDims.toTensor dims)
    let shapeInput := st.graph.values.length
    let st := st.registerNewTensor shape (valueName ++ "_Shape")
    pure (st.registerOutput valueName ty nodeName [some inputValue, some shapeInput] .reshape)

end ReshapeGenerator

/-- `normalize_axes`. -/
def Reduce.normalizeAxes (r : Reduce) (rank : Nat) : Option (List Nat) :=
  let res := r.axes.map fun a => (if a < 0 then Int64.ofNat rank + a else a).toUInt64.toNat
  if res.all (· < rank) then some res else none

/-- The flags that both the pass and the inference of shapes set. -/
def dropFlags (rank : Nat) (axes : List Nat) : Option (List Bool) :=
  axes.foldlM (fun drop axis => if axis < drop.length then some (drop.set axis true) else none)
    (List.replicate rank false)

/-- The dims that `infer_node_output` gives to the result. -/
def Reduce.outputDims (r : Reduce) (dims : ResolvedTensorDims) : Option ResolvedTensorDims := do
  let axes ← r.normalizeAxes dims.length
  let drop ← dropFlags dims.length axes
  -- the capacity of the vector
  let _ ← subUsize dims.length axes.length
  pure (.new (collapse r.keepdims 1 drop dims))

/-- The dims that both the pass and the inference of shapes give to the result of a `GlobalAveragePool`. -/
def pooledDims (rank nbatch channel : Nat) : Option (List Nat) :=
  if 2 ≤ rank then some (nbatch :: channel :: List.replicate (rank - 2) 1) else none

/-- The names of the nodes and the values. -/
structure MatrixNames where
  reshaped : String
  output : String
  node : String
  back : ValueId → String

/-- What both passes do: they reshape to a matrix, reduce its rows, reshape to the dims of the result and
replace it. -/
def reduceMatrix (st : GraphState) (input oldOutput : ValueId) (matrix rows out : List Nat)
    (elemType : DataType) (op : ReduceOp) (names : MatrixNames) : Except Stop GraphState := do
  let (reshaped, st) ← Failure.unwrap (ReshapeGenerator.generate
    { input := some input, dims := some (.new matrix), nodeName := some names.reshaped
      valueName := some names.reshaped } st)
  let (output, st) := st.registerOutput names.output (.new elemType (.new rows)) names.node [some reshaped]
    (.reduceMatrix op)
  let (newOutput, st) ← Failure.unwrap (ReshapeGenerator.generate
    { input := some output, dims := some (.new out), nodeName := some (names.back output)
      valueName := some (names.back output) } st)
  st.replaceInputValueIf oldOutput newOutput fun _ _ => true

structure ReduceInfo where
  axes : List Nat
  op : ReduceOp
  deriving DecidableEq, Repr

namespace ReduceDecomposition

/-- The reduction of a node. -/
def reduction? : Operator → Option (ReduceOp × Reduce)
  | .reduceMax r => some (.max, r)
  | .reduceMean r => some (.mean, r)
  | .reduceSum r => some (.sum, r)
  | _ => none

/-- The closure of the first loop of `run`. -/
def reduceInfo (g : Graph) (x : NodeId × Node) : Except Stop (Option (NodeId × ReduceInfo)) :=
  match reduction? x.2.op with
  | none => .ok none
  | some (op, reduce) => do
      let input ← orPanic x.2.inputs[0]?.join
      let ty ← orPanic (g.getResolvedTensorType input)
      let axes ← orPanic (reduce.normalizeAxes ty.dims.length)
      pure (some (x.1, { axes, op }))

def names (i : Nat) : MatrixNames where
  reshaped := s!"Reduce2ReduceMatrix_Reshape_{i}"
  output := s!"Reduce2ReduceMatrix_Output_{i}"
  node := s!"Reduce2ReduceMatrix_{i}"
  back _ := s!"Reduce2ReduceMatrix_ReshapeBack_{i}"

/-- The body of the second loop of `run`. -/
def visit (st : GraphState) (x : (NodeId × ReduceInfo) × Nat) : Except Stop GraphState := do
  let node ← orPanic (st.graph.node? x.1.1)
  let input ← orPanic node.inputs[0]?.join
  let inputTy ← orPanic (st.graph.getResolvedTensorType input)
  let drop ← orPanic (dropFlags inputTy.dims.length x.1.2.axes)
  let (transposed, st) ← Failure.unwrap (TransposeGenerator.generate
    { input := some input, perm := some (keptAxes drop ++ x.1.2.axes)
      nodeName := some s!"Reduce2ReduceMatrix_Transpose_{x.2}"
      valueName := some s!"Reduce2ReduceMatrix_Transpose_{x.2}" } st)
  let oldOutput ← orPanic node.outputs[0]?
  let outputTy ← orPanic (st.graph.getResolvedTensorType oldOutput)
  let row := ResolvedTensorDims.size outputTy.dims
  let col ← orPanic (divUsize (ResolvedTensorDims.size inputTy.dims) row)
  reduceMatrix st transposed oldOutput [row, col] [row] outputTy.dims inputTy.elemType x.1.2.op (names x.2)

/-- `run`. -/
def run (st : GraphState) : Except Stop GraphState := do
  let res ← st.graph.iter.mapM (reduceInfo st.graph)
  res.reduceOption.zipIdx.foldlM visit st

end ReduceDecomposition

namespace GlobalAvgPoolDecomposition

def names (id : NodeId) (input : ValueId) : MatrixNames where
  reshaped := s!"GlobalAveragePool_Reshaped_{input}"
  output := s!"GlobalAveragePool_Output_{id}"
  node := s!"GlobalAveragePool_{id}"
  back output := s!"GlobalAveragePool_Reshaped_{output}"

/-- The body of the loop of `run`. -/
def visit (st : GraphState) (id : NodeId) : Except Stop GraphState := do
  let node ← orPanic (st.graph.node? id)
  let input ← orPanic node.inputs[0]?.join
  let oldOutput ← orPanic node.outputs[0]?
  let inputTy ← orPanic (st.graph.getResolvedTensorType input)
  let nbatch ← orPanic inputTy.dims[0]?
  let channel ← orPanic inputTy.dims[1]?
  let row := nbatch * channel
  let col ← orPanic (divUsize (ResolvedTensorDims.size inputTy.dims) row)
  -- the type of the result is read after the matrix is reduced, which leaves it as it is
  let outputTy ← orPanic (st.graph.getResolvedTensorType oldOutput)
  let newDims ← orPanic (pooledDims outputTy.dims.length nbatch channel)
  reduceMatrix st input oldOutput [row, col] [row, 1] newDims inputTy.elemType .mean (names id input)

/-- The nodes that `run` collects. -/
def pools (g : Graph) : List NodeId := (g.iter.filter fun x => x.2.op == .globalAveragePool).map Prod.fst

/-- `run`. -/
def run (st : GraphState) : Except Stop GraphState := (pools st.graph).foldlM visit st

end GlobalAvgPoolDecomposition

/-! ### Axes -/

namespace Reduce

/-- The axis that an entry of `axes` is about. -/
def axisOf (rank : Nat) (a : Int64) : Int := if a < 0 then rank + a.toInt else a.toInt

/-- The axes that are reduced. -/
def drops (r : Reduce) (rank : Nat) : List Bool :=
  (List.range rank).map fun i : Nat => r.axes.any fun a => axisOf rank a == (i : Int)

/-- The axes of a `Reduce` are those of the array, each one at most once. -/
structure AxesFit (r : Reduce) (rank : Nat) : Prop where
  inside : ∀ a ∈ r.axes, 0 ≤ axisOf rank a ∧ axisOf rank a < rank
  distinct : (r.axes.map (axisOf rank)).Nodup

variable {r : Reduce} {rank : Nat} {axes : List Nat} {drop : List Bool}

/-- An entry is normalised to its axis, and to no axis of the array if it has none there. -/
theorem normalize_entry (hrank : rank < 2 ^ 63) (a : Int64) :
    ((if a < 0 then Int64.ofNat rank + a else a).toUInt64.toNat : Int) = axisOf rank a ∨
      (axisOf rank a < 0 ∧ rank ≤ (if a < 0 then Int64.ofNat rank + a else a).toUInt64.toNat) := by
  have hunsigned (x : Int64) : (x.toUInt64.toNat : Int) = if x.toInt < 0 then x.toInt + 2 ^ 64 else x.toInt := by
    have h := BitVec.toInt_eq_toNat_cond x.toBitVec
    have hlt := x.toBitVec.isLt
    rw [Int64.toInt_toBitVec, Int64.toNat_toBitVec] at h
    rw [Int64.toNat_toBitVec] at hlt
    split at h <;> split <;> omega
  have hsign : a < 0 ↔ a.toInt < 0 := Int64.lt_iff_toInt_lt
  have hlow := Int64.le_toInt a
  have hhigh := Int64.toInt_lt a
  unfold axisOf
  by_cases ha : a < 0
  · have hneg := hsign.mp ha
    have hsum : (Int64.ofNat rank + a).toInt = rank + a.toInt := by
      rw [Int64.toInt_add, Int64.toInt_ofNat_of_lt hrank]
      exact Int.bmod_eq_of_le (by omega) (by omega)
    rw [if_pos ha, if_pos ha, hunsigned, hsum]
    split
    · right
      have hcast := hunsigned (Int64.ofNat rank + a)
      rw [hsum] at hcast
      split at hcast <;> omega
    · exact .inl rfl
  · have hpos : ¬ a.toInt < 0 := fun h => ha (hsign.mpr h)
    rw [if_neg ha, if_neg ha, hunsigned, if_neg hpos]
    exact .inl rfl

/-- `normalize_axes` gives the axes if the array has them. -/
theorem normalizeAxes_eq_some (hrank : rank < 2 ^ 63) :
    r.normalizeAxes rank = some axes ↔
      axes.map Int.ofNat = r.axes.map (axisOf rank) ∧ ∀ i ∈ axes, i < rank := by
  unfold normalizeAxes
  dsimp only
  generalize r.axes = l
  have hcases : (l.map fun a => (if a < 0 then Int64.ofNat rank + a else a).toUInt64.toNat).all (· < rank) = true →
      (l.map fun a => (if a < 0 then Int64.ofNat rank + a else a).toUInt64.toNat).map Int.ofNat =
        l.map (axisOf rank) := by
    intro hall
    rw [List.map_map]
    refine List.map_congr_left fun a ha => ?_
    have hlt := List.all_eq_true.mp hall _ (List.mem_map_of_mem ha)
    rcases normalize_entry hrank a with h | ⟨-, h⟩
    · exact h
    · exact absurd (of_decide_eq_true hlt) (Nat.not_lt_of_le h)
  constructor
  · intro h
    split at h
    · rename_i hall
      obtain rfl := Option.some.inj h
      exact ⟨hcases hall, fun i hi => of_decide_eq_true (List.all_eq_true.mp hall i hi)⟩
    · cases h
  · rintro ⟨hmap, hlt⟩
    have heq : (l.map fun a => (if a < 0 then Int64.ofNat rank + a else a).toUInt64.toNat) = axes := by
      have hinj : Function.Injective Int.ofNat := fun _ _ h => Int.ofNat.inj h
      refine List.map_injective_iff.mpr hinj (Eq.trans ?_ hmap.symm)
      rw [List.map_map]
      refine List.map_congr_left fun a ha => ?_
      have hmem : axisOf rank a ∈ axes.map Int.ofNat := hmap ▸ List.mem_map_of_mem ha
      obtain ⟨i, hi, hia⟩ := List.mem_map.mp hmem
      rcases normalize_entry hrank a with h | ⟨h, -⟩
      · exact h
      · rw [← hia] at h
        exact absurd h (Int.not_lt_of_ge (Int.natCast_nonneg i))
    rw [heq, if_pos]
    exact List.all_eq_true.mpr fun i hi => decide_eq_true (hlt i hi)

end Reduce

section Flags

variable {rank : Nat} {axes : List Nat} {drop : List Bool} {r : Reduce}

/-- The flags are those of the axes. -/
theorem dropFlags_eq (h : ∀ i ∈ axes, i < rank) :
    dropFlags rank axes = some ((List.range rank).map fun i => decide (i ∈ axes)) := by
  have hall : ∀ (axes : List Nat) (drop : List Bool), drop.length = rank → (∀ i ∈ axes, i < rank) →
      axes.foldlM (fun drop axis => if axis < drop.length then some (drop.set axis true) else none) drop =
        some ((List.range rank).map fun i => drop.getD i false || decide (i ∈ axes)) := by
    intro axes
    induction axes with
    | nil =>
        intro drop hlen _
        rw [List.foldlM_nil]
        refine congrArg some (List.ext_getElem (by simp [hlen]) fun i hi _ => ?_)
        simp [hi]
    | cons axis axes ih =>
        intro drop hlen hlt
        have haxis : axis < drop.length := hlen ▸ hlt axis List.mem_cons_self
        rw [List.foldlM_cons, if_pos haxis]
        refine (ih (drop.set axis true) (by simp [hlen]) fun i hi => hlt i (List.mem_cons_of_mem _ hi)).trans ?_
        refine congrArg some (List.map_congr_left fun i _ => ?_)
        rw [List.getD_eq_getElem?_getD, List.getD_eq_getElem?_getD, List.getElem?_set]
        by_cases hi : axis = i
        · subst hi
          simp [haxis]
        · simp [hi, Ne.symm hi]
  refine (hall axes _ List.length_replicate h).trans (congrArg some (List.map_congr_left fun i hi => ?_))
  simp [List.getD_eq_getElem?_getD, List.mem_range.mp hi]

theorem flags_eq_drops (h : axes.map Int.ofNat = r.axes.map (Reduce.axisOf rank)) :
    ((List.range rank).map fun i => decide (i ∈ axes)) = r.drops rank := by
  unfold Reduce.drops
  refine List.map_congr_left fun i _ => ?_
  rw [Bool.eq_iff_iff, decide_eq_true_eq, List.any_eq_true]
  have hmem : i ∈ axes ↔ (i : Int) ∈ axes.map Int.ofNat := by
    rw [List.mem_map]
    exact ⟨fun hi => ⟨i, hi, rfl⟩, fun ⟨j, hj, hji⟩ => Int.ofNat.inj hji ▸ hj⟩
  rw [hmem, h, List.mem_map]
  simp only [beq_iff_eq]

/-- The kept axes and the others are all of them if no axis comes twice. -/
theorem isPerm_axes_iff :
    IsPerm (keptAxes ((List.range rank).map fun i => decide (i ∈ axes)) ++ axes) rank ↔
      (keptAxes ((List.range rank).map fun i => decide (i ∈ axes)) ++ axes).length = rank := by
  refine ⟨IsPerm.length, fun hlen => ?_⟩
  have hsub : (List.range rank) ⊆ keptAxes ((List.range rank).map fun i => decide (i ∈ axes)) ++ axes := by
    intro i hi
    by_cases hmem : i ∈ axes
    · exact List.mem_append_right _ hmem
    · refine List.mem_append_left _ (List.mem_filter.mpr ⟨?_, ?_⟩)
      · simpa using hi
      · simp [List.getD_eq_getElem?_getD, List.mem_range.mp hi, hmem]
  exact ((List.nodup_range.subperm hsub).perm_of_length_le (by rw [hlen, List.length_range])).symm

theorem isPerm_of_nodup (h : ∀ i ∈ axes, i < rank) (hnodup : axes.Nodup) :
    IsPerm (keptAxes ((List.range rank).map fun i => decide (i ∈ axes)) ++ axes) rank := by
  refine (List.perm_ext_iff_of_nodup ?_ List.nodup_range).mpr fun i => ?_
  · refine List.Nodup.append (List.nodup_range.filter _) hnodup ?_
    intro i hi hmem
    have hi := (List.mem_filter.mp hi).2
    simp [List.getD_eq_getElem?_getD, h i hmem, hmem] at hi
  · rw [List.mem_append, keptAxes, List.mem_filter, List.length_map, List.length_range, List.mem_range]
    constructor
    · rintro (⟨hi, -⟩ | hi)
      · exact hi
      · exact h i hi
    · intro hi
      by_cases hmem : i ∈ axes
      · exact .inr hmem
      · refine .inl ⟨hi, ?_⟩
        simp [List.getD_eq_getElem?_getD, hi, hmem]

theorem nodup_of_isPerm (h : IsPerm (keptAxes drop ++ axes) rank) : axes.Nodup :=
  (List.nodup_append.mp h.nodup).2.1

theorem drops_length (r : Reduce) (rank : Nat) : (r.drops rank).length = rank := by simp [Reduce.drops]

/-- What the pass gets of axes that the array has. -/
theorem flags_of_normalizeAxes (hrank : rank < 2 ^ 63) (h : r.normalizeAxes rank = some axes) :
    dropFlags rank axes = some (r.drops rank) ∧ (r.AxesFit rank ↔ IsPerm (keptAxes (r.drops rank) ++ axes) rank) ∧
      (IsPerm (keptAxes (r.drops rank) ++ axes) rank ↔ (keptAxes (r.drops rank) ++ axes).length = rank) := by
  obtain ⟨hmap, hlt⟩ := (Reduce.normalizeAxes_eq_some hrank).mp h
  have hflags := flags_eq_drops hmap
  rw [← hflags]
  refine ⟨dropFlags_eq hlt, ⟨fun hfit => ?_, fun hperm => ⟨fun a ha => ?_, ?_⟩⟩, isPerm_axes_iff⟩
  · refine isPerm_of_nodup hlt (List.Nodup.of_map Int.ofNat ?_)
    rw [hmap]
    exact hfit.distinct
  · have hmem : Reduce.axisOf rank a ∈ axes.map Int.ofNat := hmap ▸ List.mem_map_of_mem ha
    obtain ⟨i, hi, hia⟩ := List.mem_map.mp hmem
    have hi := hlt i hi
    rw [← hia]
    exact ⟨Int.natCast_nonneg i, Int.ofNat_lt.mpr hi⟩
  · rw [← hmap]
    exact (nodup_of_isPerm hperm).map fun _ _ h => Int.ofNat.inj h

end Flags

/-! ### What the operators compute -/

namespace Exact

/-- A reduction of numbers in any order. -/
noncomputable def reduction : ReduceOp → Multiset ℝ → ℝ
  | .max, s => sSup {r | r ∈ s}
  | .mean, s => s.sum / Multiset.card s
  | .sum, s => s.sum
  | .variance, s => (s.map fun r => (r - s.sum / Multiset.card s) ^ 2).sum / Multiset.card s

/-- The axes of a `GlobalAveragePool`. -/
def pooledAxes (rank : Nat) : List Bool := (List.range rank).map fun i => decide (2 ≤ i)

/-- A `ReduceMax`, `ReduceMean` or `ReduceSum`, whose axes are an attribute. -/
def IsReduce (op : ReduceOp) (r : Reduce) (ins : List (Option Arr)) (outs : List Arr) : Prop :=
  ∃ x rest, ins = some x :: rest ∧
    outs = [x.reduceAxes (reduction op) r.keepdims (r.drops x.shape.length)]

/-- What a node computes, with the operators of the decompositions.  A `Reshape` gives the dims of its type. -/
def reduceOp (c : GeLUConstants) : Operator → List (Option Arr) → List Arr → Prop
  | .reduceMax r => IsReduce .max r
  | .reduceMean r => IsReduce .mean r
  | .reduceSum r => IsReduce .sum r
  | .globalAveragePool => One fun x y => y = x.reduceAxes (reduction .mean) true (pooledAxes x.shape.length)
  | .reduceMatrix op => One fun x y =>
      (∃ row col, x.shape = [row, col] ∧ y.shape.prod = row) ∧ y = x.reduceRows (reduction op) y.shape
  | .reshape => fun ins outs => ∃ x rest y, ins = some x :: rest ∧ outs = [y] ∧ y.shape.prod = x.shape.prod ∧
      y = x.reshaped y.shape
  | o => op c o

end Exact

/-- Exact arithmetic with the operators of the decompositions. -/
def reducing (c : Exact.GeLUConstants) (files : Onnx.Files) : Meaning Exact.Arr :=
  { exact c files with
    op := Exact.reduceOp c
    output := fun _ _ _ => trivial }

/-! ### The steps of a decomposition -/

section Steps

variable {c : Exact.GeLUConstants} {files : Onnx.Files} {st st₁ : GraphState} {u v : ValueId}
  {ty : ResolvedTensorType} {f : Exact.Arr → Exact.Arr}

/-- The state has besides a value of this type that is computed from the value `u`. -/
structure Computes (c : Exact.GeLUConstants) (files : Onnx.Files) (st st₁ : GraphState) (u v : ValueId)
    (ty : ResolvedTensorType) (f : Exact.Arr → Exact.Arr) : Prop where
  grown : Grown (reducing c files) st st₁ fun ρ => ρ v = f (ρ u)
  extended : Extended st.graph st₁.graph
  carries : CarriesOutputs st₁.graph
  input : u < st.graph.values.length
  type : st₁.graph.getResolvedTensorType v = some ty

namespace Computes

theorem refl (c : Exact.GeLUConstants) (files : Onnx.Files) (hst : Intact st) (hcarries : CarriesOutputs st.graph)
    (hty : st.graph.getResolvedTensorType u = some ty) : Computes c files st st u u ty id where
  grown := (Grown.refl hst).mono fun _ _ => rfl
  extended := Rewired.extended (.refl _)
  carries := hcarries
  input := type_lt hty
  type := hty

theorem localTo (h : Computes c files st st₁ u v ty f) :
    LocalTo (α := Exact.Arr) st₁.graph fun ρ => ρ v = f (ρ u) := by
  intro ρ ρ' hagree hρ
  rw [hagree v (type_lt h.type), hagree u (Nat.lt_of_lt_of_le h.input h.grown.length)]
  exact hρ

/-- A new node that computes from the value, and may read others. -/
theorem registerOutput (h : Computes c files st st₁ u v ty f) (valueName nodeName : String)
    (ty' : ResolvedTensorType) (rest : List (Option ValueId)) (op : Operator) (k : Exact.Arr → Exact.Arr)
    (hrest : ∀ v, some v ∈ rest → v < st₁.graph.values.length) (hout : ∀ v, op ≠ .output v)
    (hop : ∀ x ins, ins.length = rest.length → x.shape = ty.dims →
      (k x).shape = ty'.dims ∧ Exact.reduceOp c op (some x :: ins) [k x]) :
    Computes c files st (st₁.registerOutput valueName ty' nodeName (some v :: rest) op).2 u
      st₁.graph.values.length ty' (k ∘ f) where
  grown := by
    have hlt := type_lt h.type
    refine (h.grown.registerOutput (x := fun ρ => k (ρ v)) h.localTo (fun ρ ρ' hagree => ?_) (fun w hw => ?_)
      fun ρ hρ _ => ?_).mono fun ρ hρ => ?_
    · rw [hagree v hlt]
    · rcases List.mem_cons.mp hw with hw | hw
      · exact Option.some.inj hw ▸ hlt
      · exact hrest w hw
    · exact hop (ρ v) (rest.map (Option.map ρ)) (by simp) (hρ.types v ty h.type)
    · rw [hρ.2, hρ.1]
      rfl
  extended := h.extended.trans (registerOutput_extended _ _ _ _ _ _)
  carries := registerOutput_carries hout h.carries
  input := h.input
  type := registerOutput_type

/-- A new constant. -/
theorem registerNewTensor (h : Computes c files st st₁ u v ty f) {dims : ResolvedTensorDims} (hne : dims ≠ [])
    {t : Tensor} (ht : dims.toTensor = some t) (name : String) :
    Computes c files st (st₁.registerNewTensor t name) u v ty f where
  grown := by
    have hdata : t.data = .sInt .I64 (dims.map Int64.ofNat) ∧ t.dims = .new [dims.length] := by
      unfold ResolvedTensorDims.toTensor Tensor.new at ht
      split at ht
      · obtain rfl := Option.some.inj ht
        exact ⟨rfl, rfl⟩
      · cases ht
    have hsize : ((dims.map Int64.ofNat).map fun x => (x.toInt : ℝ)).length = t.dims.prod := by
      rw [hdata.2, List.length_map, List.length_map]
      unfold ResolvedTensorDims.new
      rw [if_neg, List.prod_singleton]
      simpa using hne
    refine (h.grown.newTensor h.localTo name (x := fun _ => ⟨t.dims, _, hsize⟩) (fun _ _ _ => rfl)
      fun _ _ _ => ⟨⟨rfl, ?_⟩, rfl⟩).mono fun ρ hρ => hρ.1
    rw [hdata.1]
    rfl
  extended := by
    have hone := registerNewValue_extended st₁ name t.tensorType
    exact h.extended.trans ⟨hone.length, hone.values, hone.outputs, hone.nodes⟩
  carries := h.carries
  input := h.input
  type := by
    have hone := registerNewValue_extended st₁ name t.tensorType
    exact (Extended.type ⟨hone.length, hone.values, hone.outputs, hone.nodes⟩ (type_lt h.type)).trans h.type

end Computes

/-- The transposition of the pass. -/
theorem Computes.transpose (h : Computes c files st st₁ u v ty f) (hty : ty.HasStrides) {perm : List Nat}
    (hperm : IsPerm perm ty.dims.length) (name : String) :
    ∃ w st₂ ty', TransposeGenerator.generate
        { input := some v, perm := some perm, nodeName := some name, valueName := some name } st₁ = .ok (w, st₂) ∧
      ty'.dims = permute perm ty.dims ∧ ty'.elemType = ty.elemType ∧ ty'.HasStrides ∧
        Computes c files st st₂ u w ty' (transposed perm ∘ f) := by
  obtain ⟨ty', htrans, hdims, helem, hstrides⟩ : ∃ ty', ty.transpose perm = some ty' ∧
      ty'.dims = permute perm ty.dims ∧ ty'.elemType = ty.elemType ∧ ty'.HasStrides := by
    refine ⟨_, ResolvedTensorType.transpose_of_isPerm hperm hty, rfl, rfl, fun hne => ?_⟩
    have hdims : ty.dims ≠ [] := by
      intro hnil
      refine hne (List.length_eq_zero_iff.mp ?_)
      rw [permute_length, hperm.length, hnil]
      rfl
    show (if ty.dims = [] then ty.stride else permute perm ty.stride).length = (permute perm ty.dims).length
    rw [if_neg hdims, permute_length, permute_length]
  have hlen : ¬ ty.dims.length ≠ perm.length := by rw [hperm.length]; simp
  refine ⟨st₁.graph.values.length, (st₁.registerOutput name ty' name [some v] (.transpose (some perm))).2, ty', ?_,
    hdims, helem, hstrides, h.registerOutput name name ty' [] _ (transposed perm) nofun nofun fun x ins hins hx => ?_⟩
  · simp only [TransposeGenerator.generate, TransposeGenerator.okOr, h.type, htrans, Bind.bind, Except.bind,
      if_neg hlen]
    rfl
  · obtain rfl := List.length_eq_zero_iff.mp hins
    have hout : (ReinterpretType.transpose (some perm)).outDims x.shape = some (permute perm x.shape) :=
      if_pos (hx ▸ hperm)
    refine ⟨?_, x, _, rfl, rfl, permute perm x.shape, ?_, tabulate_congr fun idx _ => ?_⟩
    · show permute perm x.shape = _
      rw [hx, hdims]
    · unfold outDims
      rw [hout]
      rfl
    · show x.get _ = x.get (source [.transpose (some perm)] x.shape idx)
      unfold source
      rw [hout]
      rfl

/-- A single axis, with axes of one element. -/
def IsRow (ty : ResolvedTensorType) : Prop :=
  ∃ e rows, ty = .new e rows ∧ (rows.filter fun d => d ≠ 1).length ≤ 1

/-- The value that is reshaped, which is a copy if the strides ask for one. -/
theorem Computes.reshapeSource (h : Computes c files st st₁ u v ty f) (hlen : ty.stride.length = ty.dims.length)
    (hpos : ∀ d ∈ ty.dims, 0 < d) {dims : ResolvedTensorDims} (hcount : dims.prod = ty.dims.prod)
    (nodeName valueName : String) :
    ∃ w st₂ ty₂ ty', ReshapeGenerator.source st₁ v ty dims nodeName valueName true = .ok ((w, ty'), st₂) ∧
      (ty'.elemType = ty.elemType ∧ ty'.dims = dims ∧ ty'.stride.length = ty'.dims.length) ∧
      (IsRow ty → ty' = .new ty.elemType dims) ∧ ty₂.dims = ty.dims ∧ Computes c files st st₂ u w ty₂ f := by
  unfold ReshapeGenerator.source
  obtain ⟨hstop, hnot⟩ | ⟨ty', hok, -⟩ := ResolvedTensorType.tryReshape_spec hlen hpos hcount
  · -- a copy, whose axes have no gaps
    obtain ⟨ty', hok, -⟩ := @ResolvedTensorType.tryReshape_new dims ty.dims ty.elemType hpos hcount
    rw [hstop]
    dsimp only
    rw [hok]
    have htype := ResolvedTensorType.tryReshape_type hok
    refine ⟨_, _, .new ty.elemType ty.dims, _, rfl, htype, fun hrow => ?_, rfl,
      h.registerOutput _ _ _ [] _ id nofun nofun fun x ins hins hx => ⟨hx, ?_⟩⟩
    · obtain ⟨e, rows, rfl, -⟩ := hrow
      exact absurd (ResolvedTensorType.reshapable_new e rows dims) hnot
    · obtain rfl := List.length_eq_zero_iff.mp hins
      exact ⟨x, x, rfl, rfl, x.shape, rfl, (tabulate_get x).symm⟩
  · rw [hok]
    refine ⟨v, st₁, ty, ty', rfl, ResolvedTensorType.tryReshape_type hok, fun hrow => ?_, rfl, h⟩
    obtain ⟨e, rows, rfl, hrows⟩ := hrow
    obtain ⟨u', hok', hnew⟩ := @ResolvedTensorType.tryReshape_new dims rows e hpos hcount
    obtain rfl := Except.ok.inj (hok.symm.trans hok')
    exact hnew (ResolvedTensorType.splitsEvenly_row e hrows hcount)

/-- A reshape of the passes. -/
theorem Computes.reshape (h : Computes c files st st₁ u v ty f) (hlen : ty.stride.length = ty.dims.length)
    (hpos : ∀ d ∈ ty.dims, 0 < d) (hne : ty.dims ≠ []) (dims : ResolvedTensorDims) (hdims : dims ≠ [])
    (hcount : dims.prod = ty.dims.prod) (name : String) :
    ∃ w st₂ ty', ReshapeGenerator.generate
        { input := some v, dims := some dims, nodeName := some name, valueName := some name } st₁ = .ok (w, st₂) ∧
      ty'.dims = dims ∧ (IsRow ty → ty' = .new ty.elemType dims) ∧
        Computes c files st st₂ u w ty' (reshaped dims ∘ f) := by
  obtain ⟨w, st₂, ty₂, ty', hsource, ⟨-, hdims', -⟩, hrow, hty₂, hcomp⟩ := h.reshapeSource hlen hpos hcount name name
  obtain ⟨t, ht⟩ : ∃ t, ResolvedTensorDims.toTensor dims = some t := by
    unfold ResolvedTensorDims.toTensor Tensor.new
    rw [dif_pos]
    · exact ⟨_, rfl⟩
    · show max (ResolvedTensorDims.size (.new [dims.length])) 1 = max (dims.map Int64.ofNat).length 1
      unfold ResolvedTensorDims.new
      rw [if_neg (by simpa using hdims), List.length_map]
      simp [ResolvedTensorDims.size]
  have hsize (l : List Nat) (hl : l ≠ []) : ResolvedTensorDims.size l = l.prod := by
    unfold ResolvedTensorDims.size
    rw [if_neg (by simpa using hl)]
  have hcheck : ¬(ResolvedTensorDims.size ty.dims ≠ ResolvedTensorDims.size dims ∧
      ¬(ResolvedTensorDims.compatibleWithScalar ty.dims && ResolvedTensorDims.compatibleWithScalar dims) = true) := by
    rw [hsize _ hne, hsize _ hdims, hcount]
    simp
  have htensor := hcomp.registerNewTensor hdims ht (name ++ "_Shape")
  refine ⟨_, _, ty', ?_, hdims', hrow, htensor.registerOutput name name ty'
    [some st₂.graph.values.length] .reshape (reshaped dims) (fun x hx => ?_) fun _ h => by cases h
      fun x ins hins hx => ⟨hdims'.symm, x, ins, _, rfl, rfl, ?_, rfl⟩⟩
  · unfold ReshapeGenerator.generate
    simp only [TransposeGenerator.okOr, h.type, hsource, ht, Bind.bind, Except.bind, if_neg hcheck, Option.getD_some,
      Option.getD_none]
    rfl
  · obtain rfl := Option.some.inj (List.mem_singleton.mp hx)
    show _ < (st₂.graph.values ++ [_]).length
    rw [List.length_append]
    exact Nat.lt_succ_self _
  · show dims.prod = _
    rw [hx, hty₂, hcount]

end Steps

/-! ### The matrix -/

theorem ResolvedTensorDims.new_of_pos {l : List Nat} (hne : l ≠ []) (hpos : ∀ d ∈ l, 0 < d) :
    ResolvedTensorDims.new l = l := by
  unfold ResolvedTensorDims.new
  rw [if_neg]
  obtain ⟨d, hd⟩ := List.exists_mem_of_ne_nil l hne
  have hle := List.single_le_sum (fun _ _ => Nat.zero_le _) d hd
  have := hpos d hd
  omega

theorem ResolvedTensorDims.size_of_ne_nil {l : List Nat} (hne : l ≠ []) : ResolvedTensorDims.size l = l.prod := by
  unfold ResolvedTensorDims.size
  rw [if_neg (by simpa using hne)]

theorem Failure.unwrap_eq_ok {α : Type} {r : Except Failure α} {a : α} : Failure.unwrap r = .ok a ↔ r = .ok a := by
  cases r with
  | error e => exact ⟨nofun, nofun⟩
  | ok b => exact ⟨fun h => congrArg _ (Except.ok.inj h), fun h => congrArg _ (Except.ok.inj h)⟩

/-- What a turn leaves of a graph, up to what it adds. -/
structure Follows (g : Graph) (st : GraphState) : Prop where
  intact : Intact st
  carries : CarriesOutputs st.graph
  extended : Extended g st.graph
  reads : ∀ v x, (v, x) ∈ inputPairs g → ∃ w, (w, x) ∈ inputPairs st.graph ∧
    ∀ ty, g.getResolvedTensorType v = some ty → st.graph.getResolvedTensorType w = some ty

theorem Follows.refl {st : GraphState} (hst : Intact st) (hcarries : CarriesOutputs st.graph) :
    Follows st.graph st where
  intact := hst
  carries := hcarries
  extended := Rewired.extended (.refl _)
  reads v _ hv := ⟨v, hv, fun _ h => h⟩

theorem Follows.trans {g : Graph} {st st' : GraphState} (h : Follows g st) (h' : Follows st.graph st') :
    Follows g st' where
  intact := h'.intact
  carries := h'.carries
  extended := h.extended.trans h'.extended
  reads v x hv := by
    obtain ⟨w, hw, hty⟩ := h.reads v x hv
    obtain ⟨w', hw', hty'⟩ := h'.reads w x hw
    exact ⟨w', hw', fun ty h => hty' ty (hty ty h)⟩

section Matrix

variable {c : Exact.GeLUConstants} {files : Onnx.Files} {st st₁ : GraphState} {u v old : ValueId}
  {ty : ResolvedTensorType} {f : Exact.Arr → Exact.Arr}

/-- The replacement by a computed value. -/
theorem Computes.replace (hst : Intact st) (h : Computes c files st st₁ u v ty f)
    (hold : st.graph.getResolvedTensorType old = some ty)
    (hvalue : ∀ ρ, (reducing c files).Holds st.graph ρ → ρ old = f (ρ u)) :
    ∃ st', st₁.replaceInputValueIf old v (fun _ _ => true) = .ok st' ∧ Keeps (reducing c files) st st' ∧
      Follows st.graph st' := by
  have hlt := type_lt hold
  have hold₁ : st₁.graph.getResolvedTensorType old = some ty := (h.extended.type hlt).trans hold
  obtain ⟨st', hok, hcarries⟩ := replaceInputValueIf_ok h.grown.intact.consistent h.carries hold₁ h.type
  -- the old value is what it was
  have hgrown : Grown (reducing c files) st st₁ fun ρ => ρ v = f (ρ u) ∧ ρ v = ρ old := by
    refine ⟨h.grown.intact, h.grown.length, h.grown.types, h.grown.pairs, fun ρ hρ => ?_⟩
    obtain ⟨ρ', hρ', hagree, hv⟩ := h.grown.extend ρ hρ
    refine ⟨ρ', hρ', hagree, hv, ?_⟩
    rw [hv, hagree u h.input, hagree old hlt, hvalue ρ hρ]
  obtain ⟨hkeeps, hintact, -⟩ := hgrown.replace hst (fun ρ hρ => hρ.2) (type_lt h.type) hok
  obtain ⟨-, hrewired, hpairs, -⟩ := replaceInputValueIf_spec h.grown.intact.consistent hok
  refine ⟨st', hok, hkeeps, hintact, hcarries, h.extended.trans hrewired.extended, fun w x hw => ?_⟩
  refine ⟨moved old v w, hpairs w x (h.grown.pairs _ hw), fun ty' hty' => ?_⟩
  rw [hrewired.type]
  unfold moved
  split
  · rename_i heq
    rw [heq, hold] at hty'
    rw [h.type, hty']
  · exact (h.extended.type (type_lt hty')).trans hty'

/-- The passes reduce the rows of the matrix, and the result has the type of the value that it replaces. -/
theorem Computes.reduceMatrix (hst : Intact st) (h : Computes c files st st₁ u v ty f)
    (hlen : ty.stride.length = ty.dims.length) (hpos : ∀ d ∈ ty.dims, 0 < d) (hne : ty.dims ≠ [])
    (op : ReduceOp) (names : MatrixNames) {row col : Nat} {out : List Nat} (rows : List Nat)
    (hsize : row * col = ty.dims.prod)
    (hrows : rows.prod = row ∧ rows ≠ [] ∧ (rows.filter fun d => d ≠ 1).length ≤ 1)
    (hout : out.prod = row ∧ out ≠ [])
    (hold : st.graph.getResolvedTensorType old = some (.new ty.elemType out))
    (hvalue : ∀ ρ, (reducing c files).Holds st.graph ρ →
      ρ old = (((f (ρ u)).reshaped [row, col]).reduceRows (Exact.reduction op) rows).reshaped out) :
    ∃ st', NnEngine.reduceMatrix st₁ v old [row, col] rows out ty.elemType op names = .ok st' ∧
      Keeps (reducing c files) st st' ∧ Follows st.graph st' := by
  have hprod : 0 < row * col := hsize ▸ prod_pos_of_pos hpos
  have hrow : 0 < row := Nat.pos_of_mul_pos_right hprod
  have hmatrix : ResolvedTensorDims.new [row, col] = [row, col] := by
    refine ResolvedTensorDims.new_of_pos (by simp) ?_
    simp [hrow, Nat.pos_of_mul_pos_left hprod]
  have hrowsPos : ∀ d ∈ rows, 0 < d := pos_of_prod_pos (hrows.1 ▸ hrow)
  have hrowsNew := ResolvedTensorDims.new_of_pos hrows.2.1 hrowsPos
  have houtNew := ResolvedTensorDims.new_of_pos hout.2 (pos_of_prod_pos (hout.1 ▸ hrow))
  obtain ⟨m, st₂, mTy, hm, hmDims, -, hmComp⟩ := h.reshape hlen hpos hne [row, col] (by simp)
    (by simpa using hsize) names.reshaped
  have hsum := hmComp.registerOutput names.output names.node (.new ty.elemType rows) [] (.reduceMatrix op)
    (reduceRows (Exact.reduction op) rows) nofun nofun fun x ins hins hx => by
      obtain rfl := List.length_eq_zero_iff.mp hins
      exact ⟨rfl, x, _, rfl, rfl, ⟨row, col, hx.trans hmDims, hrows.1⟩, rfl⟩
  obtain ⟨b, st₃, bTy, hb, -, hbTy, hbComp⟩ := hsum.reshape (calcStride_length rows) hrowsPos hrows.2.1 out hout.2
    (hout.1.trans hrows.1.symm) (names.back st₂.graph.values.length)
  obtain rfl := hbTy ⟨_, rows, rfl, hrows.2.2⟩
  obtain ⟨st', hst', hkeeps⟩ := hbComp.replace hst hold hvalue
  refine ⟨st', ?_, hkeeps⟩
  unfold NnEngine.reduceMatrix
  rw [hmatrix, hrowsNew, houtNew]
  exact do_eq_ok.mpr ⟨(m, st₂), Failure.unwrap_eq_ok.mpr hm,
    do_eq_ok.mpr ⟨(b, st₃), Failure.unwrap_eq_ok.mpr hb, hst'⟩⟩

/-- A type is not reshaped to a matrix without columns. -/
theorem tryReshape_zero (row : Nat) (hsize : ResolvedTensorDims.size ty.dims = ResolvedTensorDims.size [row, 0]) :
    ty.tryReshape [row, 0] = .error .panic := by
  have hcompat : ResolvedTensorDims.compatibleWithScalar [row, 0] = false := by
    simp [ResolvedTensorDims.compatibleWithScalar, ResolvedTensorDims.size]
  have htarget : ([row, 0].filter fun d => d ≠ 1).reverse = 0 :: ([row].filter fun d => d ≠ 1) := by
    by_cases hrow : row = 1 <;> simp [hrow]
  have hloop (fuel : Nat) (rest : List Nat) (axes : List (Nat × Nat)) :
      reshapeLoop (fuel + 1) (0 :: rest) axes [] = .error .panic := by
    cases axes with
    | nil => rfl
    | cons a axes =>
        -- a remainder by zero
        have hpanic (fuel : Nat) (g : Regroup) (hg : g.target = 0) : g.loop fuel = .error .panic := by
          cases fuel <;> simp [Regroup.loop, hg]
        rw [reshapeLoop]
        dsimp only
        rw [hpanic _ _ rfl]
        rfl
  unfold ResolvedTensorType.tryReshape
  rw [hcompat, Bool.and_false, if_neg (by simp), if_neg (not_not.mpr hsize), htarget]
  dsimp only
  rw [List.length_cons, hloop]
  rfl

theorem reshape_zero {row : Nat} {gen : ReshapeGenerator} (hdims : gen.dims = some [row, 0]) (r : ValueId × GraphState) :
    gen.generate st ≠ .ok r := by
  intro hok
  have hcompat : ResolvedTensorDims.compatibleWithScalar [row, 0] = false := by
    simp [ResolvedTensorDims.compatibleWithScalar, ResolvedTensorDims.size]
  unfold ReshapeGenerator.generate at hok
  rw [hdims] at hok
  obtain ⟨input, -, hok⟩ := do_eq_ok.mp hok
  obtain ⟨dims, hd, hok⟩ := do_eq_ok.mp hok
  obtain rfl : [row, 0] = dims := Except.ok.inj hd
  obtain ⟨inputTy, -, hok⟩ := do_eq_ok.mp hok
  split at hok
  · cases hok
  · rename_i hcheck
    rw [hcompat, Bool.and_false] at hcheck
    have hsize := not_not.mp fun hne => hcheck ⟨hne, by simp⟩
    obtain ⟨x, hsource, -⟩ := do_eq_ok.mp hok
    rw [ReshapeGenerator.source, tryReshape_zero row hsize] at hsource
    cases hsource

/-- Without columns the passes panic. -/
theorem reduceMatrix_zero {row : Nat} {rows out : List Nat} {e : DataType} {op : ReduceOp} {names : MatrixNames} (hrow : 0 < row) (st' : GraphState) :
    NnEngine.reduceMatrix st v old [row, 0] rows out e op names ≠ .ok st' := by
  intro hok
  obtain ⟨x, hx, -⟩ := do_eq_ok.mp hok
  have hnew : ResolvedTensorDims.new [row, 0] = [row, 0] := by
    unfold ResolvedTensorDims.new
    rw [if_neg]
    simpa using Nat.ne_of_gt hrow
  exact reshape_zero (congrArg some hnew) x (Failure.unwrap_eq_ok.mp hx)

end Matrix

/-! ### One reduction -/

theorem collapse_ne_nil (keep : Bool) (unit : Nat) {drop : List Bool} {dims : List Nat}
    (h : drop.length = dims.length) :
    collapse keep unit drop dims ≠ [] ↔ keep = true ∧ dims ≠ [] ∨ false ∈ drop := by
  induction dims generalizing drop with
  | nil =>
      obtain rfl := List.length_eq_zero_iff.mp h
      simp [collapse]
  | cons d dims ih =>
      cases drop with
      | nil => cases h
      | cons b drop =>
          have hrest := ih (Nat.succ.inj h)
          cases b with
          | false => simp
          | true =>
              cases keep with
              | true => simp
              | false => simpa using hrest

/-- The nodes that are decomposed: the axes are those of the array, each at most once, the result is no scalar,
and nothing is empty. -/
def Reduce.Decomposes (r : Reduce) (dims : List Nat) : Prop :=
  r.AxesFit dims.length ∧ (r.keepdims = true ∧ dims ≠ [] ∨ false ∈ r.drops dims.length) ∧ ∀ d ∈ dims, 0 < d

theorem size_new_pos {l : List Nat} (h : ResolvedTensorDims.size (.new l) ≠ 0) : l ≠ [] ∧ l.prod ≠ 0 := by
  unfold ResolvedTensorDims.new at h
  split at h
  · exact absurd rfl h
  · rename_i hsum
    have hne : l ≠ [] := by
      rintro rfl
      exact hsum rfl
    rw [ResolvedTensorDims.size_of_ne_nil hne] at h
    exact ⟨hne, h⟩

namespace ReduceDecomposition

variable {c : Exact.GeLUConstants} {files : Onnx.Files} {st st' : GraphState} {g : Graph} {id : NodeId}
  {u out : ValueId} {ty : ResolvedTensorType} {op : ReduceOp} {r : Reduce} {axes : List Nat} {i : Nat}

/-- A reduction with the types that the inference of shapes gives. -/
structure ReduceNode (g : Graph) (id : NodeId) (op : ReduceOp) (r : Reduce) (u out : ValueId)
    (ty : ResolvedTensorType) : Prop where
  node : ∃ node, g.node? id = some node ∧ reduction? node.op = some (op, r) ∧ node.inputs[0]? = some (some u) ∧
    node.outputs = [out]
  type : g.getResolvedTensorType u = some ty
  strides : ty.HasStrides
  rank : ty.dims.length < 2 ^ 63
  result : ∃ dims, r.outputDims ty.dims = some dims ∧ g.getResolvedTensorType out = some (.new ty.elemType dims)

theorem reduction?_eq_some {o : Operator} (h : reduction? o = some (op, r)) :
    Exact.reduceOp c o = Exact.IsReduce op r := by
  unfold reduction? at h
  split at h
  · obtain ⟨rfl, rfl⟩ := Prod.mk.inj (Option.some.inj h)
    rfl
  · obtain ⟨rfl, rfl⟩ := Prod.mk.inj (Option.some.inj h)
    rfl
  · obtain ⟨rfl, rfl⟩ := Prod.mk.inj (Option.some.inj h)
    rfl
  · cases h

/-- What the node computes. -/
theorem ReduceNode.value (h : ReduceNode g id op r u out ty) {ρ : ValueId → Exact.Arr}
    (hρ : (reducing c files).Holds g ρ) :
    ρ out = (ρ u).reduceAxes (Exact.reduction op) r.keepdims (r.drops ty.dims.length) := by
  obtain ⟨node, hnode, hop, hin, hout⟩ := h.node
  have hvalue : Exact.reduceOp c node.op _ _ := hρ.nodes id node hnode
  rw [reduction?_eq_some hop] at hvalue
  obtain ⟨x, rest, hins, houts⟩ := hvalue
  have hx : x = ρ u := Exact.input_eq (k := 0) hins rfl hin
  subst hx
  have hshape : (ρ u).shape = ty.dims := hρ.types u ty h.type
  rw [hout, List.map_singleton, hshape] at houts
  exact (List.cons.inj houts).1

theorem ReduceNode.dims (h : ReduceNode g id op r u out ty) :
    ∃ axes, r.normalizeAxes ty.dims.length = some axes ∧
      g.getResolvedTensorType out =
        some (.new ty.elemType (.new (collapse r.keepdims 1 (r.drops ty.dims.length) ty.dims))) := by
  obtain ⟨dims, hdims, hout⟩ := h.result
  obtain ⟨axes, haxes, hdims⟩ := Option.bind_eq_some_iff.mp hdims
  rw [(flags_of_normalizeAxes h.rank haxes).1] at hdims
  obtain ⟨drop, hdrop, hdims⟩ := Option.bind_eq_some_iff.mp hdims
  obtain rfl := Option.some.inj hdrop
  obtain ⟨_, -, hdims⟩ := Option.bind_eq_some_iff.mp hdims
  obtain rfl := Option.some.inj hdims
  exact ⟨axes, haxes, hout⟩

/-- A node that is decomposed keeps its meaning. -/
theorem visit_keeps (hst : Intact st) (hcarries : CarriesOutputs st.graph)
    (h : ReduceNode st.graph id op r u out ty) (haxes : r.normalizeAxes ty.dims.length = some axes)
    (hdec : r.Decomposes ty.dims) :
    ∃ st', visit st ((id, ⟨axes, op⟩), i) = .ok st' ∧ Keeps (reducing c files) st st' ∧ Follows st.graph st' := by
  obtain ⟨node, hnode, hop, hin, hout⟩ := h.node
  obtain ⟨hflags, hfit, -⟩ := flags_of_normalizeAxes h.rank haxes
  obtain ⟨axes', haxes', htype⟩ := h.dims
  obtain rfl := Option.some.inj (haxes.symm.trans haxes')
  have hperm := hfit.mp hdec.1
  have hlen := drops_length r ty.dims.length
  have hne := (collapse_ne_nil r.keepdims 1 hlen).mpr hdec.2.1
  have hprod := prod_collapse r.keepdims (r.drops ty.dims.length) ty.dims
  -- the rows and the columns
  have hsplit : (keptOf (r.drops ty.dims.length) ty.dims).prod * (permute axes ty.dims).prod = ty.dims.prod := by
    rw [← prod_permute hperm, permute_append, permute_keptAxes hlen.symm, List.prod_append]
  have hpos : 0 < ty.dims.prod := prod_pos_of_pos hdec.2.2
  have hrow : 0 < (keptOf (r.drops ty.dims.length) ty.dims).prod := Nat.pos_of_mul_pos_right (hsplit ▸ hpos)
  have hnew := ResolvedTensorDims.new_of_pos hne (pos_of_prod_pos (hprod ▸ hrow))
  rw [hnew] at htype
  have hdims : ty.dims ≠ [] := by
    intro hnil
    have := hlen
    rw [hnil] at this hne
    exact hne (by simp [collapse])
  have hcol : ty.dims.prod / (keptOf (r.drops ty.dims.length) ty.dims).prod = (permute axes ty.dims).prod := by
    rw [← hsplit, Nat.mul_div_cancel_left _ hrow]
  obtain ⟨w, st₁, ty₁, htrans, hdims₁, helem, hstrides, hcomp⟩ :=
    (Computes.refl c files hst hcarries h.type).transpose h.strides hperm
      s!"Reduce2ReduceMatrix_Transpose_{i}"
  have hpos₁ : ∀ d ∈ ty₁.dims, 0 < d := pos_of_prod_pos (by rw [hdims₁, prod_permute hperm]; exact hpos)
  have hne₁ : ty₁.dims ≠ [] := by
    intro hnil
    rw [hdims₁, ← List.length_eq_zero_iff, permute_length, hperm.length] at hnil
    exact hdims (List.length_eq_zero_iff.mp hnil)
  obtain ⟨st', hst', hkeeps⟩ := hcomp.reduceMatrix hst (hstrides hne₁) hpos₁ hne₁ op (names i)
    [(keptOf (r.drops ty.dims.length) ty.dims).prod] (by rw [hdims₁, prod_permute hperm]; exact hsplit)
    ⟨by simp, by simp, List.length_filter_le _ _⟩ ⟨hprod, hne⟩ (by rw [helem]; exact htype) fun ρ hρ => by
      have hshape : (ρ u).shape = ty.dims := hρ.types u ty h.type
      rw [h.value hρ, ← hshape]
      refine (reduceAxes_eq_rows (Exact.reduction op) ?_ ?_ ?_).symm
      · rw [hshape]; exact hperm
      · rw [hshape]; exact hlen
      · simp
  refine ⟨st', ?_, hkeeps⟩
  have htype₁ := (hcomp.extended.type (type_lt htype)).trans htype
  have hsize : ResolvedTensorDims.size
      (ResolvedTensorType.new ty.elemType (collapse r.keepdims 1 (r.drops ty.dims.length) ty.dims)).dims =
        (keptOf (r.drops ty.dims.length) ty.dims).prod := (ResolvedTensorDims.size_of_ne_nil hne).trans hprod
  unfold visit
  refine do_eq_ok.mpr ⟨node, orPanic_eq_ok.mpr hnode, ?_⟩
  refine do_eq_ok.mpr ⟨u, orPanic_eq_ok.mpr (Option.join_eq_some_iff.mpr hin), ?_⟩
  refine do_eq_ok.mpr ⟨ty, orPanic_eq_ok.mpr h.type, do_eq_ok.mpr ⟨_, orPanic_eq_ok.mpr hflags, ?_⟩⟩
  refine do_eq_ok.mpr ⟨(w, st₁), Failure.unwrap_eq_ok.mpr htrans, ?_⟩
  refine do_eq_ok.mpr ⟨out, orPanic_eq_ok.mpr (by rw [hout]; rfl), ?_⟩
  refine do_eq_ok.mpr ⟨_, orPanic_eq_ok.mpr htype₁, ?_⟩
  refine do_eq_ok.mpr ⟨(permute axes ty.dims).prod, orPanic_eq_ok.mpr (divUsize_eq_some.mpr ⟨?_, ?_⟩), ?_⟩
  · rw [hsize]
    exact Nat.ne_of_gt hrow
  · rw [hsize, ResolvedTensorDims.size_of_ne_nil hdims, hcol]
  · rw [hsize, ← helem]
    exact hst'

theorem generate_transpose {w : ValueId × GraphState} {perm : List Nat} {name : String} {v : ValueId}
    (hty : st.graph.getResolvedTensorType u = some ty)
    (hok : TransposeGenerator.generate
      { input := some u, perm := some perm, nodeName := some name, valueName := some name } st = .ok w)
    (hv : v < st.graph.values.length) :
    perm.length = ty.dims.length ∧ w.2.graph.getResolvedTensorType v = st.graph.getResolvedTensorType v := by
  unfold TransposeGenerator.generate at hok
  simp only [TransposeGenerator.okOr, hty, Bind.bind, Except.bind] at hok
  split at hok
  · cases hok
  · rename_i hlen
    refine ⟨(not_not.mp hlen).symm, ?_⟩
    cases htrans : ty.transpose perm with
    | none => rw [htrans] at hok; cases hok
    | some newTy =>
        rw [htrans] at hok
        obtain rfl := Except.ok.inj hok
        exact (registerOutput_extended st name newTy name [some u] (.transpose (some perm))).type hv

/-- A node for which the turn returns. -/
theorem decomposes_of_visit (h : ReduceNode st.graph id op r u out ty)
    (haxes : r.normalizeAxes ty.dims.length = some axes) (hok : visit st ((id, ⟨axes, op⟩), i) = .ok st') :
    r.Decomposes ty.dims := by
  obtain ⟨node, hnode, -, hin, hout⟩ := h.node
  obtain ⟨hflags, hfit, hlen⟩ := flags_of_normalizeAxes h.rank haxes
  obtain ⟨axes', haxes', htype⟩ := h.dims
  obtain rfl := Option.some.inj (haxes.symm.trans haxes')
  unfold visit at hok
  simp only [do_eq_ok, orPanic_eq_ok, Failure.unwrap_eq_ok, divUsize_eq_some] at hok
  obtain ⟨node', hnode', input, hinput, inputTy, hty, drop, hdrop, x, htrans, old, hold, outTy, houtTy, col, ⟨hrow, hcol⟩,
    hok⟩ := hok
  obtain rfl := Option.some.inj (hnode.symm.trans hnode')
  obtain rfl := Option.some.inj ((Option.join_eq_some_iff.mpr hin).symm.trans hinput)
  obtain rfl := Option.some.inj (h.type.symm.trans hty)
  obtain rfl := Option.some.inj (hflags.symm.trans hdrop)
  -- the generator has checked the axes, and kept the type of the result
  obtain ⟨hcount, htype'⟩ := generate_transpose hty htrans (type_lt htype)
  obtain rfl : old = out := by
    rw [hout] at hold
    exact (Option.some.inj hold).symm
  rw [htype', htype] at houtTy
  obtain rfl := Option.some.inj houtTy
  obtain ⟨hne, hprod⟩ := size_new_pos hrow
  refine ⟨hfit.mpr (hlen.mpr hcount), (collapse_ne_nil _ _ (drops_length r _)).mp hne, ?_⟩
  by_contra hzero
  have hsize : ResolvedTensorDims.size ty.dims = 0 := by
    by_contra hsize
    have hdims : ty.dims ≠ [] := by
      intro hnil
      rw [hnil] at hsize
      exact hsize rfl
    rw [ResolvedTensorDims.size_of_ne_nil hdims] at hsize
    exact hzero (pos_of_prod_pos (Nat.pos_of_ne_zero hsize))
  rw [hsize, Nat.zero_div] at hcol
  subst hcol
  exact reduceMatrix_zero (Nat.pos_of_ne_zero hrow) st' hok

end ReduceDecomposition

/-! ### One pooling -/

namespace GlobalAvgPoolDecomposition

variable {c : Exact.GeLUConstants} {files : Onnx.Files} {st st' : GraphState} {g : Graph} {id : NodeId}
  {u out : ValueId} {ty : ResolvedTensorType} {n m : Nat} {rest : List Nat}

/-- A pooling of a batch of `n` images of `m` channels, with the type that the inference of shapes gives. -/
structure PoolNode (g : Graph) (id : NodeId) (u out : ValueId) (ty : ResolvedTensorType) (n m : Nat)
    (rest : List Nat) : Prop where
  node : ∃ node, g.node? id = some node ∧ node.op = .globalAveragePool ∧ node.inputs[0]? = some (some u) ∧
    node.outputs = [out]
  type : g.getResolvedTensorType u = some ty
  strides : ty.HasStrides
  dims : ty.dims = n :: m :: rest
  result : g.getResolvedTensorType out =
    some (.new ty.elemType (.new (n :: m :: List.replicate rest.length 1)))

theorem pooledAxes_add (k : Nat) : Exact.pooledAxes (k + 2) = false :: false :: List.replicate k true := by
  unfold Exact.pooledAxes
  rw [List.range_succ_eq_map, List.range_succ_eq_map]
  simp [List.map_map, Function.comp_def, List.map_const']

/-- The kept axes come first, so the array need not be transposed. -/
theorem keptAxes_pooled (k : Nat) :
    keptAxes (Exact.pooledAxes (k + 2)) ++ (List.range k).map (2 + ·) = List.range (k + 2) := by
  have hrange : List.range (k + 2) = [0, 1] ++ (List.range k).map (2 + ·) := by
    rw [Nat.add_comm, List.range_add]
    rfl
  have hrest : ((List.range k).map (2 + ·)).filter
      (fun i => !(false :: false :: List.replicate k true).getD i false) = [] := by
    refine List.filter_eq_nil_iff.mpr fun i hi => ?_
    obtain ⟨j, hj, rfl⟩ := List.mem_map.mp hi
    have hj := List.mem_range.mp hj
    rw [Nat.add_comm 2]
    simp [hj]
  have hkept : keptAxes (Exact.pooledAxes (k + 2)) = [0, 1] := by
    unfold keptAxes
    rw [pooledAxes_add, List.length_cons, List.length_cons, List.length_replicate, hrange, List.filter_append, hrest]
    rfl
  rw [hkept, hrange]

theorem collapse_pooled (n m : Nat) (rest : List Nat) :
    collapse true 1 (Exact.pooledAxes (rest.length + 2)) (n :: m :: rest) =
        n :: m :: List.replicate rest.length 1 ∧
      keptOf (Exact.pooledAxes (rest.length + 2)) (n :: m :: rest) = [n, m] := by
  have hall (l : List Nat) : collapse true 1 (List.replicate l.length true) l = List.replicate l.length 1 ∧
      keptOf (List.replicate l.length true) l = [] := by
    induction l with
    | nil => exact ⟨rfl, rfl⟩
    | cons x l ih => simp [List.replicate_succ, ih]
  rw [pooledAxes_add]
  simp [hall]

/-- What the node computes. -/
theorem PoolNode.value (h : PoolNode g id u out ty n m rest) {ρ : ValueId → Exact.Arr}
    (hρ : (reducing c files).Holds g ρ) :
    ρ out = (ρ u).reduceAxes (Exact.reduction .mean) true (Exact.pooledAxes (rest.length + 2)) := by
  obtain ⟨node, hnode, hop, hin, hout⟩ := h.node
  have hvalue : Exact.reduceOp c node.op _ _ := hρ.nodes id node hnode
  rw [hop] at hvalue
  have hshape : (ρ u).shape = ty.dims := hρ.types u ty h.type
  have hone := Exact.One.of_mem (k := 0) hvalue (List.mem_of_getElem? hin) (by rw [hout]; rfl)
  rwa [hshape, h.dims] at hone

/-- A node without empty axes keeps its meaning. -/
theorem visit_keeps (hst : Intact st) (hcarries : CarriesOutputs st.graph)
    (h : PoolNode st.graph id u out ty n m rest) (hpos : ∀ d ∈ ty.dims, 0 < d) :
    ∃ st', visit st id = .ok st' ∧ Keeps (reducing c files) st st' ∧ Follows st.graph st' := by
  obtain ⟨node, hnode, hop, hin, hout⟩ := h.node
  have hdims := h.dims
  obtain ⟨hcollapse, hkept⟩ := collapse_pooled n m rest
  have hne : ty.dims ≠ [] := by simp [hdims]
  have hrow : 0 < n * m := Nat.mul_pos (hpos n (by simp [hdims])) (hpos m (by simp [hdims]))
  have hsize : n * m * rest.prod = ty.dims.prod := by rw [hdims, List.prod_cons, List.prod_cons, Nat.mul_assoc]
  have hprod : (n :: m :: List.replicate rest.length 1).prod = n * m := by simp
  have hnew : ResolvedTensorDims.new (n :: m :: List.replicate rest.length 1) = n :: m :: List.replicate rest.length 1 :=
    ResolvedTensorDims.new_of_pos (by simp) (pos_of_prod_pos (hprod ▸ hrow))
  have htype := h.result
  rw [hnew] at htype
  obtain ⟨st', hst', hkeeps⟩ := (Computes.refl c files hst hcarries h.type).reduceMatrix hst (h.strides hne) hpos hne
    .mean (names id u) [n * m, 1] hsize ⟨by simp, by simp, by by_cases hone : n * m = 1 <;> simp [hone]⟩ ⟨hprod, by simp⟩ htype fun ρ hρ => by
      have hshape : (ρ u).shape = n :: m :: rest := (hρ.types u ty h.type).trans hdims
      have hrank : (ρ u).shape.length = rest.length + 2 := by rw [hshape]; rfl
      have hperm := keptAxes_pooled rest.length
      have haxes : permute ((List.range rest.length).map (2 + ·)) (ρ u).shape = rest := by
        have hall := permute_range (l := (ρ u).shape) hrank
        rw [← hperm, permute_append, permute_keptAxes (by rw [hrank, pooledAxes_add]; simp), hshape, hkept] at hall
        rw [hshape]
        exact (List.append_inj hall rfl).2
      have hrows := @reduceAxes_eq_rows_of_last (Exact.pooledAxes (rest.length + 2)) true
        ((List.range rest.length).map (2 + ·)) ℝ _ (Exact.reduction .mean) (ρ u) [n * m, 1]
        (by rw [hrank, hperm]) (by rw [hrank, pooledAxes_add]; simp) (by rw [hshape, hkept]; simp)
      rw [haxes, hshape, hkept, hcollapse] at hrows
      rw [h.value hρ, ← hrows]
      simp
  refine ⟨st', ?_, hkeeps⟩
  have hquotient : ty.dims.prod / (n * m) = rest.prod := by rw [← hsize, Nat.mul_div_cancel_left _ hrow]
  unfold visit
  refine do_eq_ok.mpr ⟨node, orPanic_eq_ok.mpr hnode, ?_⟩
  refine do_eq_ok.mpr ⟨u, orPanic_eq_ok.mpr (Option.join_eq_some_iff.mpr hin), ?_⟩
  refine do_eq_ok.mpr ⟨out, orPanic_eq_ok.mpr (by rw [hout]; rfl), do_eq_ok.mpr ⟨ty, orPanic_eq_ok.mpr h.type, ?_⟩⟩
  refine do_eq_ok.mpr ⟨n, orPanic_eq_ok.mpr (by rw [hdims]; rfl), ?_⟩
  refine do_eq_ok.mpr ⟨m, orPanic_eq_ok.mpr (by rw [hdims]; rfl), ?_⟩
  refine do_eq_ok.mpr ⟨rest.prod, orPanic_eq_ok.mpr (divUsize_eq_some.mpr ⟨Nat.ne_of_gt hrow, ?_⟩), ?_⟩
  · rw [ResolvedTensorDims.size_of_ne_nil hne, hquotient]
  refine do_eq_ok.mpr ⟨_, orPanic_eq_ok.mpr htype, ?_⟩
  refine do_eq_ok.mpr ⟨n :: m :: List.replicate rest.length 1, orPanic_eq_ok.mpr ?_, hst'⟩
  simp [pooledDims, ResolvedTensorType.new]

/-- A node for which the turn returns has no empty axis. -/
theorem pos_of_visit (h : PoolNode st.graph id u out ty n m rest) (hok : visit st id = .ok st') :
    ∀ d ∈ ty.dims, 0 < d := by
  obtain ⟨node, hnode, -, hin, hout⟩ := h.node
  unfold visit at hok
  simp only [do_eq_ok, orPanic_eq_ok, divUsize_eq_some] at hok
  obtain ⟨node', hnode', input, hinput, old, hold, inputTy, hty, nbatch, hbatch, channel, hchannel, col,
    ⟨hrow, hcol⟩, outTy, houtTy, newDims, hnew, hok⟩ := hok
  obtain rfl := Option.some.inj (hnode.symm.trans hnode')
  obtain rfl := Option.some.inj ((Option.join_eq_some_iff.mpr hin).symm.trans hinput)
  obtain rfl := Option.some.inj (h.type.symm.trans hty)
  by_contra hzero
  have hne : ty.dims ≠ [] := by simp [h.dims]
  have hsize : ResolvedTensorDims.size ty.dims = 0 := by
    rw [ResolvedTensorDims.size_of_ne_nil hne]
    by_contra hsize
    exact hzero (pos_of_prod_pos (Nat.pos_of_ne_zero hsize))
  rw [hsize, Nat.zero_div] at hcol
  subst hcol
  exact reduceMatrix_zero (Nat.pos_of_ne_zero hrow) st' hok

end GlobalAvgPoolDecomposition

/-! ### The passes -/

section Pass

variable {α ι : Type} {M : Meaning α} {g : Graph} {visit : GraphState → ι → Except Stop GraphState}
  {P : ι → Prop} {l : List ι} {st : GraphState}

/-- A pass returns and keeps the meaning if and only if every turn does, where this is a matter of the graph
that the pass begins with. -/
theorem pass_iff (hst : Follows g st)
    (hkeeps : ∀ st, Follows g st → ∀ i ∈ l, P i →
      ∃ st', visit st i = .ok st' ∧ Keeps M st st' ∧ Follows st.graph st')
    (hback : ∀ st st', Follows g st → ∀ i ∈ l, visit st i = .ok st' → P i) :
    (∃ st', l.foldlM visit st = .ok st' ∧ Keeps M st st') ↔ ∀ i ∈ l, P i := by
  have hall : (∃ st', l.foldlM visit st = .ok st') ↔ ∀ i ∈ l, P i := by
    induction l generalizing st with
    | nil => exact iff_of_true ⟨st, rfl⟩ nofun
    | cons i l ih =>
        have ih {st : GraphState} (hst : Follows g st) := ih hst
          (fun st hst j hj => hkeeps st hst j (List.mem_cons_of_mem i hj))
          (fun st st' hst j hj => hback st st' hst j (List.mem_cons_of_mem i hj))
        simp only [List.foldlM_cons, do_eq_ok]
        rw [List.forall_mem_cons]
        constructor
        · rintro ⟨st', st₁, hvisit, hrest⟩
          have hP := hback st st₁ hst i List.mem_cons_self hvisit
          obtain ⟨st₂, hvisit', -, hfollow⟩ := hkeeps st hst i List.mem_cons_self hP
          obtain rfl := Except.ok.inj (hvisit.symm.trans hvisit')
          exact ⟨hP, (ih (hst.trans hfollow)).mp ⟨st', hrest⟩⟩
        · rintro ⟨hP, hall⟩
          obtain ⟨st₁, hvisit, -, hfollow⟩ := hkeeps st hst i List.mem_cons_self hP
          obtain ⟨st', hrest⟩ := (ih (hst.trans hfollow)).mpr hall
          exact ⟨st', st₁, hvisit, hrest⟩
  constructor
  · rintro ⟨st', hrun, -⟩
    exact hall.mp ⟨st', hrun⟩
  · intro hP
    obtain ⟨st', hrun⟩ := hall.mpr hP
    refine ⟨st', hrun, keeps_of_passTurns (fun t ht => ?_) hrun⟩
    obtain ⟨hfollows, hmem, hvisit⟩ := passTurns_induct (I := Follows g) (fun st i st' hst hi hvisit => by
      obtain ⟨st₂, hvisit', -, hfollow⟩ := hkeeps st hst i hi (hP i hi)
      obtain rfl := Except.ok.inj (hvisit.symm.trans hvisit')
      exact hst.trans hfollow) hst t ht
    obtain ⟨st₂, hvisit', hkeep, hfollow⟩ := hkeeps t.1 hfollows t.2.1 hmem (hP _ hmem)
    obtain rfl := Except.ok.inj (hvisit.symm.trans hvisit')
    exact ⟨hkeep, hfollow.extended.length⟩

/-- A node of the first graph stays, and its operand has the type that it had. -/
theorem Follows.node (h : Follows g st) {id : NodeId} {node : Node} {u : ValueId} (hnode : g.node? id = some node)
    (hout : ∀ v, node.op ≠ .output v) (hin : node.inputs[0]? = some (some u)) :
    ∃ node' w, st.graph.node? id = some node' ∧ node'.op = node.op ∧ node'.inputs[0]? = some (some w) ∧
      node'.outputs = node.outputs ∧
        ∀ ty, g.getResolvedTensorType u = some ty → st.graph.getResolvedTensorType w = some ty := by
  obtain ⟨node', hnode', houts, -, hop⟩ := h.extended.nodes id node hnode
  obtain ⟨w, ⟨node₁, hnode₁, hw⟩, hty⟩ := h.reads u (id, 0) ⟨node, hnode, hin⟩
  obtain rfl := Option.some.inj (hnode'.symm.trans hnode₁)
  exact ⟨node', w, hnode', hop.resolve_right fun ⟨v, _, hv, _⟩ => hout v hv, hw, houts, hty⟩

end Pass

namespace ReduceDecomposition

variable {st : GraphState} {g : Graph} {id : NodeId} {u out : ValueId} {ty : ResolvedTensorType} {op : ReduceOp}
  {r : Reduce}

theorem ReduceNode.follows (h : ReduceNode g id op r u out ty) (hst : Follows g st) :
    ∃ w, ReduceNode st.graph id op r w out ty := by
  obtain ⟨node, hnode, hop, hin, hout⟩ := h.node
  obtain ⟨node', w, hnode', hop', hw, houts, hty⟩ := hst.node hnode
    (fun v hv => by rw [hv] at hop; cases hop) hin
  obtain ⟨dims, hdims, htype⟩ := h.result
  exact ⟨w, ⟨node', hnode', hop'.symm ▸ hop, hw, houts.trans hout⟩, hty ty h.type, h.strides, h.rank, dims, hdims,
    (hst.extended.type (type_lt htype)).trans htype⟩

theorem ReduceNode.unique {op' : ReduceOp} {r' : Reduce} {u' out' : ValueId} {ty' : ResolvedTensorType}
    (h : ReduceNode g id op r u out ty) (h' : ReduceNode g id op' r' u' out' ty') : r = r' ∧ ty = ty' := by
  obtain ⟨node, hnode, hop, hin, -⟩ := h.node
  obtain ⟨node', hnode', hop', hin', -⟩ := h'.node
  obtain rfl := Option.some.inj (hnode.symm.trans hnode')
  obtain rfl := Option.some.inj (Option.some.inj (hin.symm.trans hin'))
  exact ⟨(Prod.mk.inj (Option.some.inj (hop.symm.trans hop'))).2, Option.some.inj (h.type.symm.trans h'.type)⟩

/-- The reductions of a graph have the types that the inference of shapes gives. -/
def Typed (g : Graph) : Prop :=
  ∀ id node op r, g.node? id = some node → reduction? node.op = some (op, r) →
    ∃ u out ty, ReduceNode g id op r u out ty

/-- The first loop collects the reductions. -/
theorem collected (hg : Typed g) : ∃ res, g.iter.mapM (reduceInfo g) = .ok res ∧
    (∀ x ∈ res.reduceOption, ∃ r u out ty, ReduceNode g x.1 x.2.op r u out ty ∧
      r.normalizeAxes ty.dims.length = some x.2.axes) ∧
    ∀ id op r u out ty, ReduceNode g id op r u out ty → ∃ axes, (id, ⟨axes, op⟩) ∈ res.reduceOption := by
  have hinfo {id : NodeId} {node : Node} {op : ReduceOp} {r : Reduce} (hnode : g.node? id = some node)
      (hop : reduction? node.op = some (op, r)) {u out : ValueId} {ty : ResolvedTensorType}
      (h : ReduceNode g id op r u out ty) : ∃ axes, r.normalizeAxes ty.dims.length = some axes ∧
        reduceInfo g (id, node) = .ok (some (id, ⟨axes, op⟩)) := by
    obtain ⟨node', hnode', hop', hin, -⟩ := h.node
    obtain rfl := Option.some.inj (hnode.symm.trans hnode')
    obtain ⟨axes, haxes, -⟩ := h.dims
    refine ⟨axes, haxes, ?_⟩
    unfold reduceInfo
    dsimp only
    rw [hop]
    exact do_eq_ok.mpr ⟨u, orPanic_eq_ok.mpr (Option.join_eq_some_iff.mpr hin),
      do_eq_ok.mpr ⟨ty, orPanic_eq_ok.mpr h.type, do_eq_ok.mpr ⟨axes, orPanic_eq_ok.mpr haxes, rfl⟩⟩⟩
  have hok : ∀ x ∈ g.iter, ∃ o, reduceInfo g x = .ok o := by
    intro x hx
    cases hop : reduction? x.2.op with
    | none =>
        refine ⟨none, ?_⟩
        unfold reduceInfo
        rw [hop]
    | some p =>
        obtain ⟨u, out, ty, h⟩ := hg x.1 x.2 p.1 p.2 (mem_iter.mp hx) hop
        obtain ⟨axes, -, hinfo⟩ := hinfo (mem_iter.mp hx) hop h
        exact ⟨_, hinfo⟩
  have hmapM : g.iter.mapM (reduceInfo g) = .ok (g.iter.map fun x => (reduceInfo g x).toOption.join) := by
    refine mapM_ok fun x hx => ?_
    obtain ⟨o, ho⟩ := hok x hx
    rw [ho]
    rfl
  refine ⟨_, hmapM, fun x hx => ?_, fun id op r u out ty h => ?_⟩
  · obtain ⟨y, hy, hsome⟩ := mapM_eq_ok_mem hmapM (some x) (List.reduceOption_mem_iff.mp hx)
    cases hop : reduction? y.2.op with
    | none =>
        unfold reduceInfo at hsome
        rw [hop] at hsome
        cases hsome
    | some p =>
        obtain ⟨u, out, ty, h⟩ := hg y.1 y.2 p.1 p.2 (mem_iter.mp hy) hop
        obtain ⟨axes, haxes, hinfo⟩ := hinfo (mem_iter.mp hy) hop h
        obtain rfl := Option.some.inj (Except.ok.inj (hsome.symm.trans hinfo))
        exact ⟨p.2, u, out, ty, h, haxes⟩
  · obtain ⟨node, hnode, hop, -⟩ := h.node
    obtain ⟨axes, -, hinfo⟩ := hinfo hnode hop h
    obtain ⟨o, ho, hnode⟩ := mapM_eq_ok_of_mem hmapM (id, node) (mem_iter.mpr hnode)
    obtain rfl := Except.ok.inj (hinfo.symm.trans hnode)
    exact ⟨axes, List.reduceOption_mem_iff.mpr ho⟩

/-- The pass returns and keeps the meaning if and only if every reduction is one that is decomposed. -/
theorem run_iff (c : Exact.GeLUConstants) (files : Onnx.Files) (hst : Intact st) (hcarries : CarriesOutputs st.graph)
    (hg : Typed st.graph) :
    (∃ st', run st = .ok st' ∧ Keeps (reducing c files) st st') ↔
      ∀ id op r u out ty, ReduceNode st.graph id op r u out ty → r.Decomposes ty.dims := by
  obtain ⟨res, hres, hmem, hall⟩ := collected hg
  have hpass := @pass_iff _ _ (reducing c files) st.graph visit
    (fun x => ∀ op r u out ty, ReduceNode st.graph x.1.1 op r u out ty → r.Decomposes ty.dims)
    res.reduceOption.zipIdx st (Follows.refl hst hcarries)
    (fun st₁ hst₁ x hx hP => by
      obtain ⟨r, u, out, ty, h, haxes⟩ := hmem x.1 (List.fst_mem_of_mem_zipIdx hx)
      obtain ⟨w, hw⟩ := h.follows hst₁
      exact visit_keeps hst₁.intact hst₁.carries hw haxes (hP _ r u out ty h))
    (fun st₁ st₂ hst₁ x hx hok op' r' u' out' ty' h' => by
      obtain ⟨r, u, out, ty, h, haxes⟩ := hmem x.1 (List.fst_mem_of_mem_zipIdx hx)
      obtain ⟨w, hw⟩ := h.follows hst₁
      obtain ⟨rfl, rfl⟩ := h.unique h'
      exact decomposes_of_visit hw haxes hok)
  have hrun (st' : GraphState) : run st = .ok st' ↔ res.reduceOption.zipIdx.foldlM visit st = .ok st' := by
    unfold run
    rw [do_eq_ok]
    constructor
    · rintro ⟨res', hres', hfold⟩
      obtain rfl := Except.ok.inj (hres.symm.trans hres')
      exact hfold
    · exact fun hfold => ⟨res, hres, hfold⟩
  simp only [hrun]
  rw [hpass]
  constructor
  · intro h id op r u out ty hnode
    obtain ⟨axes, hx⟩ := hall id op r u out ty hnode
    obtain ⟨i, hi⟩ := List.getElem?_of_mem hx
    exact h _ (List.mk_mem_zipIdx_iff_getElem?.mpr hi) op r u out ty hnode
  · exact fun h x _ op r u out ty hnode => h x.1.1 op r u out ty hnode

end ReduceDecomposition

namespace GlobalAvgPoolDecomposition

variable {st : GraphState} {g : Graph} {id : NodeId} {u out : ValueId} {ty : ResolvedTensorType} {n m : Nat}
  {rest : List Nat}

theorem PoolNode.follows (h : PoolNode g id u out ty n m rest) (hst : Follows g st) :
    ∃ w, PoolNode st.graph id w out ty n m rest := by
  obtain ⟨node, hnode, hop, hin, hout⟩ := h.node
  obtain ⟨node', w, hnode', hop', hw, houts, hty⟩ := hst.node hnode (fun v hv => by rw [hv] at hop; cases hop) hin
  exact ⟨w, ⟨node', hnode', hop'.trans hop, hw, houts.trans hout⟩, hty ty h.type, h.strides, h.dims,
    (hst.extended.type (type_lt h.result)).trans h.result⟩

/-- The poolings of a graph have the types that the inference of shapes gives. -/
def Typed (g : Graph) : Prop :=
  ∀ id node, g.node? id = some node → node.op = .globalAveragePool → ∃ u out ty n m rest, PoolNode g id u out ty n m rest

theorem mem_pools : id ∈ pools g ↔ ∃ node, g.node? id = some node ∧ node.op = .globalAveragePool := by
  unfold pools
  simp only [List.mem_map, List.mem_filter, beq_iff_eq]
  constructor
  · rintro ⟨x, ⟨hx, hop⟩, rfl⟩
    exact ⟨x.2, mem_iter.mp hx, hop⟩
  · rintro ⟨node, hnode, hop⟩
    exact ⟨(id, node), ⟨mem_iter.mpr hnode, hop⟩, rfl⟩

/-- The pass returns and keeps the meaning if and only if no pooled array is empty. -/
theorem run_iff (c : Exact.GeLUConstants) (files : Onnx.Files) (hst : Intact st) (hcarries : CarriesOutputs st.graph)
    (hg : Typed st.graph) :
    (∃ st', run st = .ok st' ∧ Keeps (reducing c files) st st') ↔
      ∀ id u out ty n m rest, PoolNode st.graph id u out ty n m rest → ∀ d ∈ ty.dims, 0 < d := by
  have hpass := @pass_iff _ _ (reducing c files) st.graph visit
    (fun id => ∀ u out ty n m rest, PoolNode st.graph id u out ty n m rest → ∀ d ∈ ty.dims, 0 < d)
    (pools st.graph) st (Follows.refl hst hcarries)
    (fun st₁ hst₁ id hid hP => by
      obtain ⟨node, hnode, hop⟩ := mem_pools.mp hid
      obtain ⟨u, out, ty, n, m, rest, h⟩ := hg id node hnode hop
      obtain ⟨w, hw⟩ := h.follows hst₁
      exact visit_keeps hst₁.intact hst₁.carries hw (hP u out ty n m rest h))
    (fun st₁ st₂ hst₁ id hid hok u out ty n m rest h => by
      obtain ⟨w, hw⟩ := h.follows hst₁
      exact pos_of_visit hw hok)
  refine hpass.trans ⟨fun h id u out ty n m rest hnode => ?_, fun h id _ => h id⟩
  obtain ⟨node, hid, hop, -⟩ := hnode.node
  exact h id (mem_pools.mpr ⟨node, hid, hop⟩) u out ty n m rest hnode

end GlobalAvgPoolDecomposition

/-- Each of the passes returns, without a panic, a graph in which every place reads what it read, at the declared
type, if and only if the axes of every reduction are distinct axes of the array, its result is no scalar, and no
array that is reduced is empty. -/
theorem decompositions_iff (c : Exact.GeLUConstants) (files : Onnx.Files) {st : GraphState} (hst : Intact st)
    (hcarries : CarriesOutputs st.graph) (hreduce : ReduceDecomposition.Typed st.graph)
    (hpool : GlobalAvgPoolDecomposition.Typed st.graph) :
    ((∃ st', ReduceDecomposition.run st = .ok st' ∧ Keeps (reducing c files) st st') ↔
      ∀ id op r u out ty, ReduceDecomposition.ReduceNode st.graph id op r u out ty → r.Decomposes ty.dims) ∧
    ((∃ st', GlobalAvgPoolDecomposition.run st = .ok st' ∧ Keeps (reducing c files) st st') ↔
      ∀ id u out ty n m rest, GlobalAvgPoolDecomposition.PoolNode st.graph id u out ty n m rest →
        ∀ d ∈ ty.dims, 0 < d) :=
  ⟨ReduceDecomposition.run_iff c files hst hcarries hreduce,
    GlobalAvgPoolDecomposition.run_iff c files hst hcarries hpool⟩

/-- The sum of three numbers. -/
def sumGraph (keepdims : Bool) : Graph where
  nodes :=
    [{ inputs := [], outputs := [0], name := "x", op := .input 0, markAsDeleted := false },
      { inputs := [some 0], outputs := [1], name := "sum", op := .reduceSum ⟨[0], keepdims⟩, markAsDeleted := false },
      { inputs := [some 1], outputs := [], name := "y", op := .output 1, markAsDeleted := false }]
  inputs := [0]
  outputs := [2]
  values :=
    [{ name := "x", ty := some (.resolved (.new (.float .F32) [3])) },
      { name := "s", ty := some (.resolved (.new (.float .F32) (if keepdims then [1] else []))) }]
  initializer := fun _ => none
  externalRefs := fun _ => none

theorem sumGraph_node {keepdims : Bool} {id : NodeId} {node : Node} (h : (sumGraph keepdims).node? id = some node) :
    id = 0 ∧ node.op = .input 0 ∨
      id = 1 ∧ node = ⟨[some 0], [1], "sum", .reduceSum ⟨[0], keepdims⟩, false⟩ ∨
        id = 2 ∧ node.op = .output 1 ∧ node.inputs = [some 1] := by
  have hlt : id < 3 := (List.getElem?_eq_some_iff.mp (node?_eq_some.mp h).1).1
  interval_cases id <;> obtain rfl := Option.some.inj h <;> simp

theorem sumGraph_intact (keepdims : Bool) : Intact (.new (sumGraph keepdims)) :=
  intact_new (by cases keepdims <;> decide) nofun nofun

theorem sumGraph_carries (keepdims : Bool) : CarriesOutputs (sumGraph keepdims) := by
  intro id node v hnode hv
  rcases sumGraph_node hnode with ⟨-, hop⟩ | ⟨-, rfl⟩ | ⟨-, hop, hin⟩
  · rw [hop] at hv
    cases hv
  · cases hv
  · rw [hop] at hv
    obtain rfl := Operator.output.inj hv
    exact hin

theorem sumGraph_reduces (keepdims : Bool) : ReduceDecomposition.ReduceNode (sumGraph keepdims) 1 .sum
    ⟨[0], keepdims⟩ 0 1 (.new (.float .F32) [3]) where
  node := ⟨_, rfl, rfl, rfl, rfl⟩
  type := rfl
  strides _ := rfl
  rank := by decide
  result := by cases keepdims <;> exact ⟨_, rfl, rfl⟩

theorem sumGraph_typed (keepdims : Bool) : ReduceDecomposition.Typed (sumGraph keepdims) := by
  intro id node op r hnode hop
  rcases sumGraph_node hnode with ⟨-, h⟩ | ⟨rfl, rfl⟩ | ⟨-, h, -⟩
  · rw [h] at hop
    cases hop
  · obtain ⟨rfl, rfl⟩ := Prod.mk.inj (Option.some.inj hop)
    exact ⟨0, 1, _, sumGraph_reduces keepdims⟩
  · rw [h] at hop
    cases hop

theorem sumGraph_noPools (keepdims : Bool) : GlobalAvgPoolDecomposition.Typed (sumGraph keepdims) := by
  intro id node hnode hop
  rcases sumGraph_node hnode with ⟨-, h⟩ | ⟨-, rfl⟩ | ⟨-, h, -⟩
  · cases h.symm.trans hop
  · cases hop
  · cases h.symm.trans hop

/-- The sum that stays an array is decomposed. -/
theorem sumGraph_decomposed : ∃ st', ReduceDecomposition.run (.new (sumGraph true)) = .ok st' ∧
    Keeps (reducing ⟨0, 0, 0, 0⟩ fun _ => none) (.new (sumGraph true)) st' := by
  refine (decompositions_iff _ _ (sumGraph_intact true) (sumGraph_carries true) (sumGraph_typed true)
    (sumGraph_noPools true)).1.mpr fun id op r u out ty h => ?_
  obtain ⟨node, hnode, hop, -⟩ := h.node
  obtain rfl : id = 1 := by
    rcases sumGraph_node hnode with ⟨-, h'⟩ | ⟨hid, -⟩ | ⟨-, h', -⟩
    · rw [h'] at hop
      cases hop
    · exact hid
    · rw [h'] at hop
      cases hop
  obtain ⟨rfl, rfl⟩ := h.unique (sumGraph_reduces true)
  refine ⟨⟨?_, ?_⟩, .inl ⟨rfl, by decide⟩, by decide⟩
  · intro a ha
    obtain rfl := List.mem_singleton.mp ha
    decide
  · decide

/-- A sum that is a scalar has size 0, by which the pass divides. -/
theorem sumGraph_panics : Intact (.new (sumGraph false)) ∧ ReduceDecomposition.Typed (sumGraph false) ∧
    ReduceDecomposition.run (.new (sumGraph false)) = .error .panic :=
  ⟨sumGraph_intact false, sumGraph_typed false, rfl⟩

end NnEngine
