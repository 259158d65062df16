import NnEngine.Graph.Chain
import NnEngine.Graph.Reinterpret
import NnEngine.Graph.Rewire
import NnEngine.Result
import NnEngine.Tensor.Layout

/-!
# Fusion of transposes

`TransposeFusion` of `src/transform/optimize/transpose_fusion.rs`, with the `TransposeGenerator` of
`src/transform/utils.rs`.  A `Transpose` that reads a `Transpose` is replaced by one that reads the value
before the chain.  The pass unwraps the `perm` of the first `Transpose` of the chain and skips the absent
ones of the others, which reverse the axes: `sameTensors_iff` says for which graphs it returns and every
place reads the tensor that it read before.
-/

namespace NnEngine

open DepthFirst InverseIndex SimpleGraphOp GraphState

/-- How `generate` ends without a value: an error of kind `InvalidInput`, or a panic. -/
inductive Failure
  | invalidInput (text : String)
  | panic
  deriving DecidableEq, Repr

/-- `unwrap`. -/
def Failure.unwrap {α : Type} : Except Failure α → Except Stop α
  | .ok a => .ok a
  | .error _ => .error .panic

structure TransposeGenerator where
  input : Option ValueId := none
  perm : Option (List Nat) := none
  nodeName : Option String := none
  valueName : Option String := none
  contiguous : Option Bool := none

namespace TransposeGenerator

/-- `ok_or`. -/
def okOr {α : Type} (e : Failure) : Option α → Except Failure α
  | none => .error e
  | some a => .ok a

/-- `generate`. -/
def generate (gen : TransposeGenerator) (st : GraphState) : Except Failure (ValueId × GraphState) := do
  let input ← okOr (.invalidInput "input is required") gen.input
  let perm ← okOr (.invalidInput "perms is required") gen.perm
  let nodeName := gen.nodeName.getD s!"Transpose_{input}"
  let valueName := gen.valueName.getD s!"Transpose_{input}"
  let inputTy ← okOr .panic (st.graph.getResolvedTensorType input)
  if inputTy.dims.length ≠ perm.length then
    .error (.invalidInput "perms length must be equal to input rank")
  else
    let newTy ← okOr .panic (inputTy.transpose perm)
    let (transposed, st) := st.registerNewValue valueName newTy
    let st := st.registerNewNode
      { inputs := [some input], outputs := [transposed], name := nodeName, op := .transpose (some perm)
        markAsDeleted := false }
    if gen.contiguous.getD false then
      let (newValue, st) := st.registerNewValue (valueName ++ "_Contiguous") (.new newTy.elemType newTy.dims)
      pure (newValue, st.registerNewNode
        { inputs := [some transposed], outputs := [newValue], name := nodeName ++ "_Contiguous"
          op := .contiguous [], markAsDeleted := false })
    else pure (transposed, st)

end TransposeGenerator

namespace TransposeFusion

/-- `matches!(node.op, Operator::Transpose(_))`. -/
def isTranspose (node : Node) : Bool :=
  match node.op with
  | .transpose _ => true
  | _ => false

/-- The `perm` of a node of the chain. -/
def permOf (g : Graph) (id : NodeId) : Except Stop (Option (List Nat)) :=
  (orPanic (g.node? id)).bind fun node =>
    match node.op with
    | .transpose perm => .ok perm
    | _ => .error .panic

/-- `perm` after a node with the given `perm`, an absent one of which is skipped. -/
def compose (perm : List Nat) : Option (List Nat) → Except Stop (List Nat)
  | some p => p.mapM fun i => orPanic perm[i]?
  | none => .ok perm

/-- One turn of the loop over `defs[1..]`. -/
def extend (g : Graph) (perm : List Nat) (id : NodeId) : Except Stop (List Nat) :=
  (permOf g id).bind (compose perm)

/-- The `perm` of the fused node. -/
def fusedPerm (g : Graph) : List NodeId → Except Stop (List Nat)
  | [] => .error .panic
  | first :: rest => do
      let perm ← permOf g first
      let perm ← orPanic perm
      rest.foldlM (extend g) perm

/-- The call of `replace_input_value` or of `replace_input_value_if_without_typecheck`. -/
def replaceUses (checkStrides : Bool) (st : GraphState) (old new : ValueId) : Except Stop GraphState :=
  if checkStrides then st.replaceInputValueIf old new fun _ _ => true
  else st.replaceInputValueIfWithoutTypecheck old new fun _ _ => true

/-- The body of the loop of `run`.  No id comes twice, so the set of the visited ones is left out. -/
def visit (checkStrides : Bool) (st : GraphState) (id : NodeId) : Except Stop GraphState := do
  let node ← orPanic (st.graph.node? id)
  let inputValue ← orPanic (node.inputs[0]?).join
  let (input, chain) ← st.walkChainBackward isTranspose (st.graph.nodes.length + 1) inputValue
  if chain.isEmpty then pure st
  else
    let defs := chain.reverse ++ [id]
    let oldOutput ← orPanic node.outputs[0]?
    let perm ← fusedPerm st.graph defs
    let (newOutput, st) ← Failure.unwrap
      (TransposeGenerator.generate { input := some input, perm := some perm } st)
    replaceUses checkStrides st oldOutput newOutput

/-- The nodes that `run` collects. -/
def transposes (g : Graph) : List NodeId := (g.iter.filter fun x => isTranspose x.2).map Prod.fst

/-- `run`. -/
def run (checkStrides : Bool) (st : GraphState) : Except Stop GraphState :=
  (transposes st.graph).foldlM (visit checkStrides) st

end TransposeFusion

/-! ### Transposed tensors -/

/-- The node transposes `input` to `output`. -/
def Transposes (g : Graph) (id : NodeId) (perm : Option (List Nat)) (input output : ValueId) : Prop :=
  ∃ node, g.node? id = some node ∧ node.op = .transpose perm ∧ node.inputs = [some input] ∧
    node.outputs = [output]

/-- The value is the output of a `Transpose`. -/
def IsTransposed (g : Graph) (v : ValueId) : Prop := ∃ id perm input, Transposes g id perm input v

/-- Element `idx` of `v` is element `idx'` of `r`, which is not transposed. -/
inductive ElementOf (g : Graph) : ValueId → List Nat → ValueId → List Nat → Prop
  | root {v : ValueId} (idx : List Nat) (h : ¬IsTransposed g v) : ElementOf g v idx v idx
  | transposed {id : NodeId} {perm : Option (List Nat)} {u v r : ValueId} {ty : ResolvedTensorType}
      {idx idx' : List Nat} (h : Transposes g id perm u v) (hty : g.getResolvedTensorType u = some ty)
      (hrest : ElementOf g u (unpermute (ReinterpretType.axes perm ty.dims.length) idx) r idx') :
      ElementOf g v idx r idx'

/-- Every place that reads a value, that of a graph output included, reads a tensor of the same dims with
the same elements after a pass as before it. -/
def SameTensors (g g' : Graph) : Prop :=
  ∀ v x, (v, x) ∈ inputPairs g → ∃ w, (w, x) ∈ inputPairs g' ∧
    ∀ ty, g.getResolvedTensorType v = some ty → ∃ ty', g'.getResolvedTensorType w = some ty' ∧
      ty'.dims = ty.dims ∧
        ∀ idx, Inside idx ty.dims → ∀ r idx', ElementOf g v idx r idx' → ElementOf g' w idx r idx'

/-- A graph as it is given to the pass: the ids are those of values, a value has one definition, the
nodes are not cyclic, an output node reads the value that it carries, and a `Transpose` leads from the
dims of its input to the dims of its output. -/
structure TransposeGraph (g : Graph) : Prop where
  allocated : ∀ v x, (v, x) ∈ inputPairs g ∨ (v, x) ∈ outputPairs g → v < g.values.length
  defined : UniqueDefinitions g
  acyclic : ∃ rank : ValueId → Nat, ∀ id node, g.node? id = some node →
    ∀ v, some v ∈ node.inputs → ∀ w ∈ node.outputs, rank v < rank w
  carries : CarriesOutputs g
  transpose : ∀ id node perm, g.node? id = some node → node.op = .transpose perm →
    ∃ input output inTy outTy, node.inputs = [some input] ∧ node.outputs = [output] ∧
      g.getResolvedTensorType input = some inTy ∧ g.getResolvedTensorType output = some outTy ∧
        (ReinterpretType.transpose perm).outDims inTy.dims = some outTy.dims ∧ inTy.HasStrides

variable {g g' : Graph} {st st' : GraphState} {id id' : NodeId} {u v w r s : ValueId}
  {perm p : Option (List Nat)} {q : List Nat} {ids done : List NodeId} {check : Bool}

theorem Transposes.outputPair (h : Transposes g id perm u v) : (v, (id, 0)) ∈ outputPairs g := by
  obtain ⟨node, hnode, -, -, hout⟩ := h
  exact mem_outputPairs.mpr ⟨node, hnode, by rw [hout]; rfl⟩

theorem Transposes.inputPair (h : Transposes g id perm u v) : (u, (id, 0)) ∈ inputPairs g := by
  obtain ⟨node, hnode, -, hin, -⟩ := h
  exact ⟨node, hnode, by rw [hin]; rfl⟩

theorem Transposes.unique (hg : UniqueDefinitions g) (h : Transposes g id perm u v)
    (h' : Transposes g id' p w v) : id = id' ∧ perm = p ∧ u = w := by
  obtain rfl : id = id' := congrArg Prod.fst (hg v _ _ h.outputPair h'.outputPair)
  obtain ⟨node, hnode, hop, hin, -⟩ := h
  obtain ⟨node', hnode', hop', hin', -⟩ := h'
  obtain rfl := Option.some.inj (hnode.symm.trans hnode')
  rw [hop] at hop'
  rw [hin] at hin'
  exact ⟨rfl, Operator.transpose.inj hop', Option.some.inj (List.cons.inj hin').1⟩

/-- What a well-formed graph says of a `Transpose`. -/
theorem Transposes.types (hg : TransposeGraph g) (h : Transposes g id perm u v) :
    ∃ inTy outTy, g.getResolvedTensorType u = some inTy ∧ g.getResolvedTensorType v = some outTy ∧
      IsPerm (ReinterpretType.axes perm inTy.dims.length) inTy.dims.length ∧
        outTy.dims = permute (ReinterpretType.axes perm inTy.dims.length) inTy.dims ∧ inTy.HasStrides := by
  obtain ⟨node, hnode, hop, hin, hout⟩ := h
  obtain ⟨input, output, inTy, outTy, hin', hout', hinTy, houtTy, hdims, hstrides⟩ :=
    hg.transpose id node perm hnode hop
  rw [hin] at hin'
  rw [hout] at hout'
  obtain rfl := Option.some.inj (List.cons.inj hin').1
  obtain rfl := (List.cons.inj hout').1
  obtain ⟨hperm, hdims⟩ := Option.ite_none_right_eq_some.mp hdims
  exact ⟨inTy, outTy, hinTy, houtTy, hperm, (Option.some.inj hdims).symm, hstrides⟩

theorem Transposes.rank_lt {rank : ValueId → Nat}
    (hrank : ∀ id node, g.node? id = some node →
      ∀ v, some v ∈ node.inputs → ∀ w ∈ node.outputs, rank v < rank w)
    (h : Transposes g id perm u v) : rank u < rank v := by
  obtain ⟨node, hnode, -, hin, hout⟩ := h
  exact hrank id node hnode u (by rw [hin]; exact List.mem_cons_self) v
    (by rw [hout]; exact List.mem_cons_self)

/-- A `Transpose` is still one in an extended graph, maybe of another input. -/
theorem Transposes.extended (h : Transposes g id perm u v) (hext : Extended g g')
    (hin : (w, (id, 0)) ∈ inputPairs g') : Transposes g' id perm w v := by
  obtain ⟨node, hnode, hop, hins, houts⟩ := h
  obtain ⟨node', hnode', houts', hlen, hop'⟩ := hext.nodes id node hnode
  obtain ⟨node'', hnode'', hget⟩ := hin
  obtain rfl := Option.some.inj (hnode'.symm.trans hnode'')
  refine ⟨node', hnode', ?_, ?_, houts'.trans houts⟩
  · rcases hop' with hsame | ⟨a, b, hout, -⟩
    · rw [hsame, hop]
    · rw [hop] at hout
      cases hout
  · rw [hins, List.length_singleton] at hlen
    obtain ⟨x, hx⟩ := List.length_eq_one_iff.mp hlen
    rw [hx] at hget ⊢
    exact congrArg (fun y => [y]) (Option.some.inj hget)

/-! ### Elements of a transposed value -/

theorem ElementOf.unique (hg : UniqueDefinitions g) {idx j k : List Nat} {r' : ValueId}
    (h : ElementOf g v idx r j) (h' : ElementOf g v idx r' k) : r = r' ∧ j = k := by
  induction h with
  | root _ hroot =>
      cases h' with
      | root => exact ⟨rfl, rfl⟩
      | transposed h => exact absurd ⟨_, _, _, h⟩ hroot
  | transposed htrans hty _ ih =>
      cases h' with
      | root _ hroot => exact absurd ⟨_, _, _, htrans⟩ hroot
      | transposed htrans' hty' hrest' =>
          obtain ⟨-, rfl, rfl⟩ := htrans.unique hg htrans'
          obtain rfl := Option.some.inj (hty.symm.trans hty')
          exact ih hrest'

namespace TransposeFusion

theorem isTransposed_of_isTranspose (hg : TransposeGraph g) {x : Place} {node : Node}
    (hv : (v, x) ∈ outputPairs g) (hnode : g.node? x.1 = some node) (hop : isTranspose node = true) :
    x.2 = 0 ∧ ∃ perm u, Transposes g x.1 perm u v := by
  unfold isTranspose at hop
  split at hop
  · rename_i perm hperm
    obtain ⟨input, output, -, -, hin, hout, -⟩ := hg.transpose x.1 node perm hnode hperm
    obtain ⟨node', hnode', hget⟩ := mem_outputPairs.mp hv
    obtain rfl := Option.some.inj (hnode.symm.trans hnode')
    rw [hout] at hget
    have hlt : x.2 < 1 := (List.getElem?_eq_some_iff.mp hget).1
    have hzero : x.2 = 0 := by omega
    rw [hzero] at hget
    obtain rfl : output = v := Option.some.inj hget
    exact ⟨hzero, perm, input, node, hnode, hperm, hin, hout⟩
  · cases hop

/-! ### What the pass takes a value for -/

/-- What the pass takes a value for: `s` transposed by `q`. -/
inductive Fuses (g : Graph) : ValueId → ValueId → List Nat → Prop
  | first {id : NodeId} {s v : ValueId} {q : List Nat} (h : Transposes g id (some q) s v)
      (hs : ¬IsTransposed g s) : Fuses g v s q
  | next {id : NodeId} {u s v : ValueId} {p q : List Nat} (h : Transposes g id (some p) u v)
      (hu : Fuses g u s q) : Fuses g v s (permute p q)
  | skip {id : NodeId} {u s v : ValueId} {q : List Nat} (h : Transposes g id none u v)
      (hu : Fuses g u s q) : Fuses g v s q

theorem Fuses.root (h : Fuses g v s q) : ¬IsTransposed g s := by
  induction h with
  | first _ hs => exact hs
  | next _ _ ih => exact ih
  | skip _ _ ih => exact ih

theorem Fuses.isTransposed (h : Fuses g v s q) : IsTransposed g v := by
  cases h with
  | first h => exact ⟨_, _, _, h⟩
  | next h => exact ⟨_, _, _, h⟩
  | skip h => exact ⟨_, _, _, h⟩

theorem Fuses.unique (hg : UniqueDefinitions g) {s' : ValueId} {q' : List Nat} (h : Fuses g v s q)
    (h' : Fuses g v s' q') : s = s' ∧ q = q' := by
  induction h generalizing s' q' with
  | first h hs =>
      cases h' with
      | first h' =>
          obtain ⟨-, hq, rfl⟩ := h.unique hg h'
          exact ⟨rfl, Option.some.inj hq⟩
      | next h' hu' =>
          obtain ⟨-, -, rfl⟩ := h.unique hg h'
          exact absurd hu'.isTransposed hs
      | skip h' =>
          obtain ⟨-, hq, -⟩ := h.unique hg h'
          cases hq
  | next h hu ih =>
      cases h' with
      | first h' hs' =>
          obtain ⟨-, -, rfl⟩ := h.unique hg h'
          exact absurd hu.isTransposed hs'
      | next h' hu' =>
          obtain ⟨-, hp, rfl⟩ := h.unique hg h'
          obtain ⟨rfl, rfl⟩ := ih hu'
          rw [Option.some.inj hp]
          exact ⟨rfl, rfl⟩
      | skip h' =>
          obtain ⟨-, hq, -⟩ := h.unique hg h'
          cases hq
  | skip h hu ih =>
      cases h' with
      | first h' =>
          obtain ⟨-, hq, -⟩ := h.unique hg h'
          cases hq
      | next h' =>
          obtain ⟨-, hq, -⟩ := h.unique hg h'
          cases hq
      | skip h' hu' =>
          obtain ⟨-, -, rfl⟩ := h.unique hg h'
          exact ih hu'

/-- The permutation of a fused value is one of the axes of the value before the chain. -/
theorem Fuses.isPerm (hg : TransposeGraph g) (h : Fuses g v s q) :
    ∃ sTy ty, g.getResolvedTensorType s = some sTy ∧ g.getResolvedTensorType v = some ty ∧
      IsPerm q sTy.dims.length ∧ ty.dims.length = sTy.dims.length ∧ sTy.HasStrides := by
  induction h with
  | @first id s v q h hs =>
      obtain ⟨inTy, outTy, hin, hout, hperm, hdims, hstrides⟩ := h.types hg
      refine ⟨inTy, outTy, hin, hout, hperm, ?_, hstrides⟩
      rw [hdims, permute_length, hperm.length]
  | @next id u s v p q h hu ih =>
      obtain ⟨inTy, outTy, hin, hout, hperm, hdims, -⟩ := h.types hg
      obtain ⟨sTy, ty, hsTy, hty, hq, hlen, hstrides⟩ := ih
      obtain rfl := Option.some.inj (hty.symm.trans hin)
      rw [hlen] at hperm hdims
      refine ⟨sTy, outTy, hsTy, hout, isPerm_permute hperm hq, ?_, hstrides⟩
      rw [hdims, permute_length, hperm.length]
  | @skip id u s v q h hu ih =>
      obtain ⟨inTy, outTy, hin, hout, hperm, hdims, -⟩ := h.types hg
      obtain ⟨sTy, ty, hsTy, hty, hq, hlen, hstrides⟩ := ih
      obtain rfl := Option.some.inj (hty.symm.trans hin)
      refine ⟨sTy, outTy, hsTy, hout, hq, ?_, hstrides⟩
      rw [hdims, permute_length, hperm.length, hlen]

theorem lt_of_type {ty : ResolvedTensorType} (h : g.getResolvedTensorType v = some ty) : v < g.values.length := by
  by_contra hge
  rw [Graph.getResolvedTensorType, List.getElem?_eq_none (Nat.le_of_not_lt hge)] at h
  cases h

theorem Fuses.lt (hg : TransposeGraph g) (h : Fuses g v s q) : s < g.values.length := by
  obtain ⟨sTy, -, hsTy, -⟩ := h.isPerm hg
  exact lt_of_type hsTy

theorem compose_some {l : List Nat} (h : ∀ i ∈ l, i < q.length) : compose q (some l) = .ok (permute l q) := by
  refine mapM_ok fun i hi => ?_
  rw [getD_of_lt (h i hi), List.getElem?_eq_getElem (h i hi)]
  rfl

/-- One more `Transpose` on a chain. -/
theorem Fuses.step_iff (hg : TransposeGraph g) (h : Transposes g id perm u v) (hu : IsTransposed g u) :
    Fuses g v s q ↔ ∃ q', Fuses g u s q' ∧ compose q' perm = .ok q := by
  have hcompose : ∀ {l q' : List Nat}, Transposes g id (some l) u v → Fuses g u s q' →
      compose q' (some l) = .ok (permute l q') := by
    intro l q' h hfuses
    obtain ⟨sTy, uTy, -, huTy, hq', hlen, -⟩ := hfuses.isPerm hg
    obtain ⟨inTy, -, hin, -, hperm, -⟩ := h.types hg
    obtain rfl := Option.some.inj (huTy.symm.trans hin)
    refine compose_some fun i hi => ?_
    rw [hq'.length, ← hlen]
    exact hperm.mem_iff.mp hi
  constructor
  · intro hfuses
    cases hfuses with
    | first h' hs =>
        obtain ⟨-, -, rfl⟩ := h.unique hg.defined h'
        exact absurd hu hs
    | next h' hu' =>
        obtain ⟨-, rfl, rfl⟩ := h.unique hg.defined h'
        exact ⟨_, hu', hcompose h hu'⟩
    | skip h' hu' =>
        obtain ⟨-, rfl, rfl⟩ := h.unique hg.defined h'
        exact ⟨_, hu', rfl⟩
  · rintro ⟨q', hfuses, hq⟩
    cases perm with
    | none =>
        obtain rfl := Except.ok.inj hq
        exact .skip h hfuses
    | some l =>
        rw [hcompose h hfuses] at hq
        obtain rfl := Except.ok.inj hq
        exact .next h hfuses

/-- A `Transpose` of a value that is not transposed. -/
theorem Fuses.first_iff (hg : TransposeGraph g) (h : Transposes g id perm u v) (hu : ¬IsTransposed g u) :
    Fuses g v s q ↔ s = u ∧ perm = some q := by
  constructor
  · intro hfuses
    cases hfuses with
    | first h' =>
        obtain ⟨-, rfl, rfl⟩ := h.unique hg.defined h'
        exact ⟨rfl, rfl⟩
    | next h' hu' =>
        obtain ⟨-, -, rfl⟩ := h.unique hg.defined h'
        exact absurd hu'.isTransposed hu
    | skip h' hu' =>
        obtain ⟨-, -, rfl⟩ := h.unique hg.defined h'
        exact absurd hu'.isTransposed hu
  · rintro ⟨rfl, rfl⟩
    exact .first h hu

/-! ### Walking the chain -/

theorem permOf_transposes (h : Transposes g id perm u v) : permOf g id = .ok perm := by
  obtain ⟨node, hnode, hop, -, -⟩ := h
  unfold permOf
  rw [hnode]
  show (match node.op with
    | .transpose perm => Except.ok perm
    | _ => .error Stop.panic) = _
  rw [hop]

theorem fusedPerm_singleton (h : Transposes g id perm u v) : fusedPerm g [id] = orPanic perm := by
  show (permOf g id).bind (fun perm => (orPanic perm).bind fun q => Except.ok q) = _
  rw [permOf_transposes h]
  cases perm <;> rfl

theorem fusedPerm_concat (hids : ids ≠ []) :
    fusedPerm g (ids ++ [id]) = (fusedPerm g ids).bind fun q => extend g q id := by
  cases ids with
  | nil => exact absurd rfl hids
  | cons first rest =>
      show ((permOf g first).bind fun perm => (orPanic perm).bind fun q => (rest ++ [id]).foldlM (extend g) q) =
        ((permOf g first).bind fun perm => (orPanic perm).bind fun q => rest.foldlM (extend g) q).bind _
      cases permOf g first with
      | error e => rfl
      | ok perm =>
          cases perm with
          | none => rfl
          | some q =>
              show (rest ++ [id]).foldlM (extend g) q = Except.bind (rest.foldlM (extend g) q) _
              rw [List.foldlM_append]
              refine congrArg (Except.bind _) (funext fun q' => ?_)
              rw [List.foldlM_cons]
              show (extend g q' id).bind Except.ok = extend g q' id
              cases extend g q' id <;> rfl

theorem chain_transposes (h : Transposes g id perm u v) (hrest : Chain g isTranspose u s ids) :
    Chain g isTranspose v s (id :: ids) := by
  have hv := h.outputPair
  obtain ⟨node, hnode, hop, hin, -⟩ := h
  refine .step hv hnode ?_ (by rw [hin]; rfl) hrest
  unfold isTranspose
  rw [hop]

/-! ### The graph during the pass -/

/-- The definition of an old value is a `Transpose` only if it was one. -/
theorem isTransposed_of_extended (hg : TransposeGraph g) (hext : Extended g g') {x : Place} {node : Node}
    (hv : v < g.values.length) (hout : (v, x) ∈ outputPairs g') (hnode : g'.node? x.1 = some node)
    (hop : isTranspose node = true) : IsTransposed g v := by
  obtain ⟨rest, hrest, hge⟩ := hext.outputs
  rw [hrest] at hout
  rcases List.mem_append.mp hout with hout | hout
  · obtain ⟨node₀, hnode₀, -⟩ := mem_outputPairs.mp hout
    obtain ⟨node', hnode', -, -, hop'⟩ := hext.nodes x.1 node₀ hnode₀
    obtain rfl := Option.some.inj (hnode.symm.trans hnode')
    have hop₀ : isTranspose node₀ = true := by
      rcases hop' with hsame | ⟨a, b, -, hb⟩
      · unfold isTranspose at hop ⊢
        rwa [hsame] at hop
      · unfold isTranspose at hop
        rw [hb] at hop
        cases hop
    obtain ⟨-, perm, u, h⟩ := isTransposed_of_isTranspose hg hout hnode₀ hop₀
    exact ⟨x.1, perm, u, h⟩
  · exact absurd hv (Nat.not_lt_of_le (hge _ hout))

theorem chain_stop (hg : TransposeGraph g) (hext : Extended g g') (hv : v < g.values.length)
    (hroot : ¬IsTransposed g v) : Chain g' isTranspose v v [] := by
  refine .stop fun x node hout hnode => ?_
  by_contra hop
  exact hroot (isTransposed_of_extended hg hext hv hout hnode (by simpa using hop))

/-- The node `id` is a `Transpose` that reads a `Transpose`. -/
def Chained (g : Graph) (id : NodeId) (v : ValueId) : Prop :=
  ∃ perm u, Transposes g id perm u v ∧ IsTransposed g u

/-- `w` is a new value in the place of `v`, transposed once. -/
def Fused (g g' : Graph) (v w : ValueId) : Prop :=
  ∃ s q id sTy, Fuses g v s q ∧ Transposes g' id (some q) s w ∧ g.values.length ≤ w ∧
    g.getResolvedTensorType s = some sTy ∧ g'.getResolvedTensorType w = sTy.transpose q

/-- `w` is read where `v` was, after the nodes of `done`. -/
def Stands (g : Graph) (done : List NodeId) (g' : Graph) (v w : ValueId) : Prop :=
  (w = v ∧ ∀ id ∈ done, ¬Chained g id v) ∨ ((∃ id ∈ done, Chained g id v) ∧ Fused g g' v w)

/-- What the loop keeps after the nodes of `done`. -/
structure Done (g : Graph) (done : List NodeId) (st : GraphState) : Prop where
  consistent : Consistent st
  extended : Extended g st.graph
  defined : UniqueDefinitions st.graph
  allocated : ∀ v x, (v, x) ∈ outputPairs st.graph → v < st.graph.values.length
  carries : CarriesOutputs st.graph
  places : ∀ v x, (v, x) ∈ inputPairs g → ∃ w, (w, x) ∈ inputPairs st.graph ∧ Stands g done st.graph v w

/-- The chain before a `Transpose`, and the `perm` that the pass computes from it. -/
theorem Done.chain (hg : TransposeGraph g) (h : Done g done st) (htrans : Transposes g id perm u v) :
    ∃ u' s ids, Transposes st.graph id perm u' v ∧ Chain st.graph isTranspose u' s ids ∧
      (ids = [] ↔ ¬IsTransposed g u) ∧
        ∀ s' q, Fuses g v s' q ↔ s' = s ∧ fusedPerm st.graph (ids.reverse ++ [id]) = .ok q := by
  obtain ⟨rank, hrank⟩ := hg.acyclic
  -- by induction on the rank of the output: the chain goes on from the input
  induction hn : rank v using Nat.strong_induction_on generalizing id perm u v with
  | _ n ih =>
  subst hn
  have hu : u < g.values.length := hg.allocated u _ (.inl htrans.inputPair)
  obtain ⟨u', hu', hstands⟩ := h.places u (id, 0) htrans.inputPair
  have hnew : Transposes st.graph id perm u' v := htrans.extended h.extended hu'
  by_cases htr : IsTransposed g u
  · rcases hstands with ⟨rfl, -⟩ | ⟨-, s, q', id', sTy, hfuses, hone, -, -, -⟩
    · obtain ⟨idu, pu, uu, hbefore⟩ := htr
      obtain ⟨uu', s, ids, hnode, hchain, -, hperm⟩ := ih (rank u') (htrans.rank_lt hrank) hbefore rfl
      refine ⟨u', s, idu :: ids, hnew, chain_transposes hnode hchain,
        iff_of_false (by simp) (fun hroot => hroot ⟨idu, pu, uu, hbefore⟩), fun s' q => ?_⟩
      have hextend : ∀ q', extend st.graph q' id = compose q' perm := fun q' => by
        rw [extend, permOf_transposes hnew]
        rfl
      simp only [List.reverse_cons, fusedPerm_concat (List.concat_ne_nil idu ids.reverse), bind_eq_ok,
        Fuses.step_iff hg htrans ⟨idu, pu, uu, hbefore⟩, hperm, hextend, and_assoc, exists_and_left]
    · have hstop := chain_stop hg h.extended (hfuses.lt hg) hfuses.root
      refine ⟨u', s, [id'], hnew, chain_transposes hone hstop,
        iff_of_false (by simp) (fun hroot => hroot htr), fun s' q => ?_⟩
      rw [List.reverse_singleton, fusedPerm_concat (by simp), fusedPerm_singleton hone,
        Fuses.step_iff hg htrans htr]
      show _ ↔ s' = s ∧ extend st.graph q' id = .ok q
      rw [extend, permOf_transposes hnew]
      show _ ↔ s' = s ∧ compose q' perm = .ok q
      constructor
      · rintro ⟨q'', hfuses', hq⟩
        obtain ⟨rfl, rfl⟩ := hfuses.unique hg.defined hfuses'
        exact ⟨rfl, hq⟩
      · rintro ⟨rfl, hq⟩
        exact ⟨q', hfuses, hq⟩
  · rcases hstands with ⟨rfl, -⟩ | ⟨-, s, q', id', sTy, hfuses, -⟩
    · refine ⟨u', u', [], hnew, chain_stop hg h.extended hu htr, iff_of_true rfl htr, fun s' q => ?_⟩
      rw [Fuses.first_iff hg htrans htr, List.reverse_nil, List.nil_append, fusedPerm_singleton hnew]
      refine and_congr_right fun _ => ?_
      cases perm with
      | none => exact iff_of_false nofun nofun
      | some p => simp [orPanic]
    · exact absurd hfuses.isTransposed htr

/-! ### One node -/

/-- The node that `generate` registers for the pass. -/
def fusedNode (s n : ValueId) (q : List Nat) : Node :=
  { inputs := [some s], outputs := [n], name := s!"Transpose_{s}", op := .transpose (some q)
    markAsDeleted := false }

/-- The state after `generate`. -/
def fusedState (st : GraphState) (s : ValueId) (q : List Nat) (ty : ResolvedTensorType) : GraphState :=
  (st.registerNewValue s!"Transpose_{s}" ty).2.registerNewNode (fusedNode s st.graph.values.length q)

theorem generate_eq {sTy ty : ResolvedTensorType} (hsTy : st.graph.getResolvedTensorType s = some sTy)
    (hq : IsPerm q sTy.dims.length) (hty : sTy.transpose q = some ty) :
    TransposeGenerator.generate { input := some s, perm := some q } st =
      .ok (st.graph.values.length, fusedState st s q ty) := by
  have hlen : ¬ sTy.dims.length ≠ q.length := by rw [hq.length]; simp
  simp only [TransposeGenerator.generate, TransposeGenerator.okOr, hsTy, hty, Bind.bind, Except.bind, if_neg hlen]
  rfl

theorem fusedState_extended (st : GraphState) (s : ValueId) (q : List Nat) (ty : ResolvedTensorType) :
    Extended st.graph (fusedState st s q ty).graph := by
  refine registerNewNode_extended (st.registerNewValue _ ty).2 rfl (registerNewValue_extended st _ ty) ?_
  intro v hv
  rw [List.mem_singleton.mp hv]

theorem fusedState_inputPairs (st : GraphState) (s : ValueId) (q : List Nat) (ty : ResolvedTensorType) {x : Place}
    (hv : (v, x) ∈ inputPairs st.graph) : (v, x) ∈ inputPairs (fusedState st s q ty).graph := by
  rw [fusedState, inputPairs_registerNewNode _ (show (fusedNode _ _ _).markAsDeleted = false from rfl)]
  exact .inl hv

theorem fusedState_transposes (st : GraphState) (s : ValueId) (q : List Nat) (ty : ResolvedTensorType) :
    Transposes (fusedState st s q ty).graph st.graph.nodes.length (some q) s st.graph.values.length := by
  refine ⟨fusedNode s st.graph.values.length q, ?_, rfl, rfl, rfl⟩
  rw [fusedState, node?_registerNewNode _ (show (fusedNode _ _ _).markAsDeleted = false from rfl)]
  exact if_pos rfl

theorem fusedState_outputPairs (st : GraphState) (s : ValueId) (q : List Nat) (ty : ResolvedTensorType) :
    outputPairs (fusedState st s q ty).graph =
      outputPairs st.graph ++ [(st.graph.values.length, (st.graph.nodes.length, 0))] :=
  outputPairs_registerNewNode _ (show (fusedNode _ _ _).markAsDeleted = false from rfl)

theorem fusedState_consistent (h : Consistent st) (s : ValueId) (q : List Nat) (ty : ResolvedTensorType) :
    Consistent (fusedState st s q ty) :=
  registerNewNode_consistent (h.of_nodes rfl rfl rfl rfl) rfl

theorem fusedState_carries (h : CarriesOutputs st.graph) (s : ValueId) (q : List Nat) (ty : ResolvedTensorType) :
    CarriesOutputs (fusedState st s q ty).graph := by
  intro id node v hnode hv
  rw [fusedState, node?_registerNewNode _ (show (fusedNode _ _ _).markAsDeleted = false from rfl)] at hnode
  split at hnode
  · obtain rfl := Option.some.inj hnode
    cases hv
  · exact h id node v hnode hv

theorem fusedState_type (st : GraphState) (s : ValueId) (q : List Nat) (ty : ResolvedTensorType) :
    (fusedState st s q ty).graph.getResolvedTensorType st.graph.values.length = some ty :=
  registerNewValue_type st _ ty

/-- The replacement of the output of a `Transpose` by a new value. -/
theorem Done.fuse (hg : TransposeGraph g) (h : Done g done st) (htrans : Transposes g id perm u v)
    (hu : IsTransposed g u) (hfuses : Fuses g v s q) {sTy ty : ResolvedTensorType}
    (hsTy : g.getResolvedTensorType s = some sTy) (hty : sTy.transpose q = some ty)
    (hok : (fusedState st s q ty).replaceInputValueIfWithoutTypecheck v st.graph.values.length
      (fun _ _ => true) = .ok st') : Done g (id :: done) st' := by
  have hcons := fusedState_consistent h.consistent s q ty
  obtain ⟨hrewired, hmoved⟩ := replaceInputValue_spec hcons hok
  have hext : Extended st.graph st'.graph := (fusedState_extended st s q ty).trans hrewired.extended
  have hv : v < g.values.length := hg.allocated v _ (.inr htrans.outputPair)
  -- a place that does not read `v` stays
  have hstays : ∀ {w x}, w ≠ v → (w, x) ∈ inputPairs (fusedState st s q ty).graph →
      (w, x) ∈ inputPairs st'.graph := by
    intro w x hw hx
    have := hmoved w x hx
    rwa [moved, if_neg hw] at this
  have hroot : ∀ {s'}, ¬IsTransposed g s' → s' ≠ v := by
    rintro s' hs' rfl
    exact hs' ⟨_, _, _, htrans⟩
  have hout : outputPairs st'.graph =
      outputPairs st.graph ++ [(st.graph.values.length, (st.graph.nodes.length, 0))] := by
    rw [hrewired.outputs, fusedState_outputPairs]
  refine
    { consistent := replaceInputValue_consistent hcons hok
      extended := h.extended.trans hext
      defined := ?_
      allocated := ?_
      carries := ?_
      places := ?_ }
  · intro w x y hx hy
    rw [hout] at hx hy
    rcases List.mem_append.mp hx with hx | hx <;> rcases List.mem_append.mp hy with hy | hy
    · exact h.defined w x y hx hy
    · have hlt := h.allocated w x hx
      obtain ⟨rfl, -⟩ := Prod.mk.inj (List.mem_singleton.mp hy)
      exact absurd hlt (Nat.lt_irrefl _)
    · have hlt := h.allocated w y hy
      obtain ⟨rfl, -⟩ := Prod.mk.inj (List.mem_singleton.mp hx)
      exact absurd hlt (Nat.lt_irrefl _)
    · exact (Prod.mk.inj (List.mem_singleton.mp hx)).2.trans (Prod.mk.inj (List.mem_singleton.mp hy)).2.symm
  · intro w x hx
    have hlen : st'.graph.values.length = st.graph.values.length + 1 := by
      rw [hrewired.values]
      exact List.length_append
    rw [hlen]
    rw [hout] at hx
    rcases List.mem_append.mp hx with hx | hx
    · exact Nat.lt_succ_of_lt (h.allocated w x hx)
    · rw [(Prod.mk.inj (List.mem_singleton.mp hx)).1]
      exact Nat.lt_succ_self _
  · obtain ⟨st'', hst'', hcarries⟩ := replaceInputValue_ok hcons (fusedState_carries h.carries s q ty) v
      st.graph.values.length
    rw [hok] at hst''
    rw [Except.ok.inj hst'']
    exact hcarries
  · intro w x hx
    obtain ⟨w', hw', hstands⟩ := h.places w x hx
    have hw₁ := fusedState_inputPairs st s q ty hw'
    rcases hstands with ⟨rfl, hnot⟩ | ⟨⟨id', hid', hch⟩, s', q', idf, sTy', hf, hone, hge, hsTy', hwTy⟩
    · by_cases hwv : w' = v
      · subst hwv
        refine ⟨st.graph.values.length, ?_, .inr ⟨⟨id, List.mem_cons_self, perm, u, htrans, hu⟩, s, q,
          st.graph.nodes.length, sTy, hfuses, ?_, h.extended.length, hsTy, ?_⟩⟩
        · have := hmoved w' x hw₁
          rwa [moved, if_pos rfl] at this
        · have hnew := fusedState_transposes st s q ty
          exact hnew.extended hrewired.extended (hstays (hroot hfuses.root) hnew.inputPair)
        · rw [hrewired.type, fusedState_type, hty]
      · refine ⟨w', hstays hwv hw₁, .inl ⟨rfl, fun id' hid' hch => ?_⟩⟩
        rcases List.mem_cons.mp hid' with rfl | hid'
        · obtain ⟨perm', u', ⟨node', hnode', -, -, hout'⟩, -⟩ := hch
          obtain ⟨node, hnode, -, -, hout⟩ := htrans
          obtain rfl := Option.some.inj (hnode.symm.trans hnode')
          rw [hout] at hout'
          exact hwv (List.cons.inj hout').1.symm
        · exact hnot id' hid' hch
    · have hne : w' ≠ v := by
        rintro rfl
        exact absurd hv (Nat.not_lt_of_le hge)
      have hlt : w' < st.graph.values.length := h.allocated w' _ hone.outputPair
      refine ⟨w', hstays hne hw₁, .inr ⟨⟨id', List.mem_cons_of_mem id hid', hch⟩, s', q', idf, sTy', hf, ?_, hge,
        hsTy', ?_⟩⟩
      · exact hone.extended hext (hstays (hroot hf.root) (fusedState_inputPairs st s q ty hone.inputPair))
      · rw [hext.type hlt, hwTy]

/-- The pass has a `perm` for a value, and the value has the type that follows from it, if that is checked. -/
def Fusable (check : Bool) (g : Graph) (v : ValueId) : Prop :=
  ∃ s q sTy ty, Fuses g v s q ∧ g.getResolvedTensorType s = some sTy ∧ sTy.transpose q = some ty ∧
    (check = true → g.getResolvedTensorType v = some ty)

theorem Done.visit_idle (hg : TransposeGraph g) (h : Done g done st) (htrans : Transposes g id perm u v)
    (hu : ¬IsTransposed g u) : visit check st id = .ok st := by
  obtain ⟨u', s, ids, ⟨node, hnode, -, hin, -⟩, hchain, hnil, -⟩ := h.chain hg htrans
  obtain rfl := hnil.mpr hu
  simp only [visit, hnode, hin, List.getElem?_cons_zero, Option.join_some, orPanic, Bind.bind, Except.bind,
    walkChainBackward_eq h.defined h.consistent hchain, List.isEmpty_nil, if_true]
  rfl

theorem Done.visit_eq_ok (hg : TransposeGraph g) (h : Done g done st) (htrans : Transposes g id perm u v)
    (hu : IsTransposed g u) :
    visit check st id = .ok st' ↔ ∃ s q sTy ty, Fuses g v s q ∧ g.getResolvedTensorType s = some sTy ∧
      sTy.transpose q = some ty ∧
        replaceUses check (fusedState st s q ty) v st.graph.values.length = .ok st' := by
  obtain ⟨u', s, ids, ⟨node, hnode, -, hin, hout⟩, hchain, hnil, hperm⟩ := h.chain hg htrans
  have hne : ids.isEmpty = false := by
    rw [List.isEmpty_eq_false_iff]
    exact fun hids => hnil.mp hids hu
  have hvisit : visit check st id = (fusedPerm st.graph (ids.reverse ++ [id])).bind fun q =>
      (Failure.unwrap (TransposeGenerator.generate { input := some s, perm := some q } st)).bind fun r =>
        replaceUses check r.2 v r.1 := by
    simp only [visit, hnode, hin, hout, List.getElem?_cons_zero, Option.join_some, orPanic, Bind.bind, Except.bind,
      walkChainBackward_eq h.defined h.consistent hchain, hne]
    rfl
  rw [hvisit, bind_eq_ok]
  constructor
  · rintro ⟨q, hq, hrest⟩
    have hfuses := (hperm s q).mpr ⟨rfl, hq⟩
    obtain ⟨sTy, vTy, hsTy, -, hisPerm, -, hstrides⟩ := hfuses.isPerm hg
    have hty := ResolvedTensorType.transpose_of_isPerm hisPerm hstrides
    rw [generate_eq ((h.extended.type (hfuses.lt hg)).trans hsTy) hisPerm hty] at hrest
    exact ⟨s, q, sTy, _, hfuses, hsTy, hty, hrest⟩
  · rintro ⟨s', q, sTy, ty, hfuses, hsTy, hty, hrest⟩
    obtain ⟨rfl, hq⟩ := (hperm s' q).mp hfuses
    obtain ⟨sTy', vTy, hsTy', -, hisPerm, -, hstrides⟩ := hfuses.isPerm hg
    obtain rfl := Option.some.inj (hsTy.symm.trans hsTy')
    refine ⟨q, hq, ?_⟩
    rw [generate_eq ((h.extended.type (hfuses.lt hg)).trans hsTy) hisPerm hty]
    exact hrest

/-- The pass gets past a node exactly if its value can be fused. -/
theorem Done.visit_ok_iff (hg : TransposeGraph g) (h : Done g done st) (htrans : Transposes g id perm u v) :
    (∃ st', visit check st id = .ok st') ↔ (IsTransposed g u → Fusable check g v) := by
  by_cases hu : IsTransposed g u
  · have hv : v < g.values.length := hg.allocated v _ (.inr htrans.outputPair)
    simp only [h.visit_eq_ok hg htrans hu, hu, true_implies]
    constructor
    · rintro ⟨st', s, q, sTy, ty, hfuses, hsTy, hty, hok⟩
      refine ⟨s, q, sTy, ty, hfuses, hsTy, hty, fun hcheck => ?_⟩
      rw [replaceUses, if_pos hcheck] at hok
      obtain ⟨-, -, -, ty', hold, hnew⟩ := replaceInputValueIf_spec (fusedState_consistent h.consistent s q ty) hok
      rw [fusedState_type] at hnew
      rw [← h.extended.type hv, ← (fusedState_extended st s q ty).type (Nat.lt_of_lt_of_le hv h.extended.length),
        hold, hnew]
    · rintro ⟨s, q, sTy, ty, hfuses, hsTy, hty, hcheck⟩
      obtain ⟨st', hok, -⟩ := replaceInputValue_ok (fusedState_consistent h.consistent s q ty)
        (fusedState_carries h.carries s q ty) v st.graph.values.length
      refine ⟨st', s, q, sTy, ty, hfuses, hsTy, hty, ?_⟩
      cases check with
      | false => exact hok
      | true =>
          show GraphState.replaceInputValueIf _ _ _ _ = _
          have hold : (fusedState st s q ty).graph.getResolvedTensorType v = some ty := by
            rw [(fusedState_extended st s q ty).type (Nat.lt_of_lt_of_le hv h.extended.length),
              h.extended.type hv, hcheck rfl]
          unfold GraphState.replaceInputValueIf
          rw [hold, fusedState_type]
          show (if ty ≠ ty then _ else _) = _
          rw [if_neg (by simp)]
          exact hok
  · exact iff_of_true ⟨st, h.visit_idle hg htrans hu⟩ fun htr => absurd htr hu

theorem Done.visit (hg : TransposeGraph g) (h : Done g done st) (htrans : Transposes g id perm u v)
    (hok : visit check st id = .ok st') : Done g (id :: done) st' := by
  by_cases hu : IsTransposed g u
  · obtain ⟨s, q, sTy, ty, hfuses, hsTy, hty, hrest⟩ := (h.visit_eq_ok hg htrans hu).mp hok
    refine h.fuse hg htrans hu hfuses hsTy hty ?_
    cases check with
    | false => exact hrest
    | true =>
        obtain ⟨oldTy, -, hrest⟩ := orPanic_bind_eq_ok hrest
        obtain ⟨newTy, -, hrest⟩ := orPanic_bind_eq_ok hrest
        split at hrest
        · cases hrest
        · exact hrest
  · rw [h.visit_idle hg htrans hu] at hok
    obtain rfl := Except.ok.inj hok
    refine { h with places := fun v' x hx => ?_ }
    obtain ⟨w, hw, hstands⟩ := h.places v' x hx
    refine ⟨w, hw, ?_⟩
    rcases hstands with ⟨rfl, hnot⟩ | ⟨⟨id', hid', hch⟩, hfused⟩
    · refine .inl ⟨rfl, fun id' hid' hch => ?_⟩
      rcases List.mem_cons.mp hid' with rfl | hid'
      · obtain ⟨perm', u', ⟨node', hnode', -, hin', -⟩, hu'⟩ := hch
        obtain ⟨node, hnode, -, hin, -⟩ := htrans
        obtain rfl := Option.some.inj (hnode.symm.trans hnode')
        rw [hin] at hin'
        obtain rfl := Option.some.inj (List.cons.inj hin').1
        exact hu hu'
      · exact hnot id' hid' hch
    · exact .inr ⟨⟨id', List.mem_cons_of_mem id hid', hch⟩, hfused⟩

/-! ### The whole pass -/

theorem mem_transposes (hg : TransposeGraph g) : id ∈ transposes g ↔ ∃ perm u v, Transposes g id perm u v := by
  rw [transposes, List.mem_map]
  constructor
  · rintro ⟨⟨id, node⟩, hx, rfl⟩
    obtain ⟨hmem, hop⟩ := List.mem_filter.mp hx
    unfold isTranspose at hop
    dsimp only at hop
    split at hop
    · rename_i perm hperm
      obtain ⟨u, v, -, -, hin, hout, -⟩ := hg.transpose id node perm (mem_iter.mp hmem) hperm
      exact ⟨perm, u, v, node, mem_iter.mp hmem, hperm, hin, hout⟩
    · cases hop
  · rintro ⟨perm, u, v, node, hnode, hop, -, -⟩
    refine ⟨(id, node), List.mem_filter.mpr ⟨mem_iter.mpr hnode, ?_⟩, rfl⟩
    unfold isTranspose
    rw [hop]

theorem Done.run (hg : TransposeGraph g) : ∀ (ids done : List NodeId) (st : GraphState),
    (∀ id ∈ ids, ∃ perm u v, Transposes g id perm u v) → Done g done st →
      ((∃ st', ids.foldlM (TransposeFusion.visit check) st = .ok st') ↔
        ∀ id ∈ ids, ∀ perm u v, Transposes g id perm u v → IsTransposed g u → Fusable check g v) ∧
      ∀ st', ids.foldlM (TransposeFusion.visit check) st = .ok st' → Done g (ids.reverse ++ done) st' := by
  intro ids
  induction ids with
  | nil =>
      intro done st _ h
      refine ⟨iff_of_true ⟨st, rfl⟩ nofun, fun st' hok => ?_⟩
      obtain rfl := Except.ok.inj hok
      exact h
  | cons id ids ih =>
      intro done st hids h
      obtain ⟨perm, u, v, htrans⟩ := hids id List.mem_cons_self
      have hrest := fun i hi => hids i (List.mem_cons_of_mem id hi)
      have hone : (∃ st', TransposeFusion.visit check st id = .ok st') ↔ _ := h.visit_ok_iff hg htrans
      -- the node reads and defines one value each
      have hhead : (∀ perm u v, Transposes g id perm u v → IsTransposed g u → Fusable check g v) ↔
          (IsTransposed g u → Fusable check g v) := by
        refine ⟨fun hall => hall perm u v htrans, fun hthis perm' u' v' htrans' => ?_⟩
        obtain ⟨node, hnode, -, hin, hout⟩ := htrans
        obtain ⟨node', hnode', -, hin', hout'⟩ := htrans'
        obtain rfl := Option.some.inj (hnode.symm.trans hnode')
        rw [hin] at hin'
        rw [hout] at hout'
        obtain rfl := Option.some.inj (List.cons.inj hin').1
        obtain rfl := (List.cons.inj hout').1
        exact hthis
      rw [List.forall_mem_cons, hhead, ← hone]
      constructor
      · constructor
        · rintro ⟨st', hok⟩
          rw [List.foldlM_cons] at hok
          obtain ⟨st₁, hst₁, hok⟩ := do_eq_ok.mp hok
          exact ⟨⟨st₁, hst₁⟩, ((ih (id :: done) st₁ hrest (h.visit hg htrans hst₁)).1).mp ⟨st', hok⟩⟩
        · rintro ⟨⟨st₁, hst₁⟩, hall⟩
          obtain ⟨st', hok⟩ := ((ih (id :: done) st₁ hrest (h.visit hg htrans hst₁)).1).mpr hall
          refine ⟨st', ?_⟩
          rw [List.foldlM_cons]
          exact do_eq_ok.mpr ⟨st₁, hst₁, hok⟩
      · intro st' hok
        rw [List.foldlM_cons] at hok
        obtain ⟨st₁, hst₁, hok⟩ := do_eq_ok.mp hok
        rw [List.reverse_cons, List.append_assoc, List.singleton_append]
        exact (ih (id :: done) st₁ hrest (h.visit hg htrans hst₁)).2 st' hok

theorem done_nil (hg : TransposeGraph st.graph) (hmaps : Consistent st) : Done st.graph [] st where
  consistent := hmaps
  extended := (Rewired.refl _).extended
  defined := hg.defined
  allocated v x hx := hg.allocated v x (.inr hx)
  carries := hg.carries
  places v _ hx := ⟨v, hx, .inl ⟨rfl, nofun⟩⟩

theorem run_ok_iff (hg : TransposeGraph st.graph) (hmaps : Consistent st) :
    (∃ st', run check st = .ok st') ↔
      ∀ id perm u v, Transposes st.graph id perm u v → IsTransposed st.graph u → Fusable check st.graph v := by
  have hids : ∀ id ∈ transposes st.graph, ∃ perm u v, Transposes st.graph id perm u v :=
    fun id hid => (mem_transposes hg).mp hid
  refine ((Done.run hg _ [] st hids (done_nil hg hmaps)).1).trans ⟨fun h id perm u v htrans => ?_, fun h id _ => h id⟩
  exact h id ((mem_transposes hg).mpr ⟨perm, u, v, htrans⟩) perm u v htrans

/-- After the pass every node has been visited. -/
theorem done_of_run (hg : TransposeGraph st.graph) (hmaps : Consistent st) (h : run check st = .ok st') :
    ∃ ids, (∀ id perm u v, Transposes st.graph id perm u v → id ∈ ids) ∧ Done st.graph ids st' := by
  have hids : ∀ id ∈ transposes st.graph, ∃ perm u v, Transposes st.graph id perm u v :=
    fun id hid => (mem_transposes hg).mp hid
  have hdone := (Done.run hg _ [] st hids (done_nil hg hmaps)).2 st' h
  rw [List.append_nil] at hdone
  exact ⟨_, fun id perm u v htrans => List.mem_reverse.mpr ((mem_transposes hg).mpr ⟨perm, u, v, htrans⟩), hdone⟩

/-! ### The elements after the pass -/

/-- A `Transpose` without `perm` of a transposed value, where the output is read, has an input whose dims
and indices read the same from both ends. -/
def ReversalsIdle (g : Graph) : Prop :=
  ∀ id u v, Transposes g id none u v → IsTransposed g u → (∃ x, (v, x) ∈ inputPairs g) →
    ∀ ty, g.getResolvedTensorType u = some ty →
      ty.dims.reverse = ty.dims ∧ ∀ idx, Inside idx ty.dims → idx.reverse = idx

/-- The value is the one before the chain, transposed by `q`. -/
def IsView (g : Graph) (v s : ValueId) (q : List Nat) : Prop :=
  ∀ sTy ty, g.getResolvedTensorType s = some sTy → g.getResolvedTensorType v = some ty →
    ty.dims = permute q sTy.dims ∧ ∀ idx, Inside idx ty.dims → ElementOf g v idx s (unpermute q idx)

theorem Fuses.isView_first (hg : TransposeGraph g) (h : Transposes g id (some q) s v) (hs : ¬IsTransposed g s) :
    IsView g v s q := by
  intro sTy ty hsTy hty
  obtain ⟨inTy, outTy, hin, hout, -, hdims, -⟩ := h.types hg
  obtain rfl := Option.some.inj (hsTy.symm.trans hin)
  obtain rfl := Option.some.inj (hty.symm.trans hout)
  exact ⟨hdims, fun idx _ => .transposed h hsTy (.root _ hs)⟩

theorem Fuses.isView (hg : TransposeGraph g) (hidle : ReversalsIdle g) (h : Fuses g v s q) :
    (∃ x, (v, x) ∈ inputPairs g) → IsView g v s q := by
  induction h with
  | first h hs => exact fun _ => Fuses.isView_first hg h hs
  | @next id u s v p q h hu ih =>
      intro _ sTy ty hsTy hty
      obtain ⟨uTy, vTy, huTy, hvTy, hp, hdims, -⟩ := h.types hg
      obtain rfl := Option.some.inj (hty.symm.trans hvTy)
      obtain ⟨sTy', uTy', hsTy', huTy', hq, hlen, -⟩ := hu.isPerm hg
      obtain rfl := Option.some.inj (hsTy.symm.trans hsTy')
      obtain rfl := Option.some.inj (huTy.symm.trans huTy')
      obtain ⟨huDims, hel⟩ := ih ⟨_, h.inputPair⟩ sTy uTy hsTy huTy
      have hmem : ∀ i ∈ p, i < q.length := fun i hi => by
        rw [hq.length, ← hlen]
        exact hp.mem_iff.mp hi
      refine ⟨?_, fun idx hidx => .transposed h huTy ?_⟩
      · rw [hdims, huDims]
        exact permute_permute hmem
      · rw [hdims] at hidx
        have hrank : idx.length = sTy.dims.length := by
          rw [← hlen, ← hp.length, ← permute_length (ReinterpretType.axes (some p) uTy.dims.length) uTy.dims]
          exact hidx.length_eq
        have hinner : ElementOf g u (unpermute p idx) s (unpermute q (unpermute p idx)) :=
          hel _ (inside_unpermute hp hidx)
        have hp' : IsPerm p sTy.dims.length := by
          rw [← hlen]
          exact hp
        rwa [unpermute_unpermute hp' hq hrank] at hinner
  | @skip id u s v q h hu ih =>
      intro hread sTy ty hsTy hty
      obtain ⟨uTy, vTy, huTy, hvTy, -, hdims, -⟩ := h.types hg
      obtain rfl := Option.some.inj (hty.symm.trans hvTy)
      obtain ⟨hrev, hidx⟩ := hidle id u v h hu.isTransposed hread uTy huTy
      obtain ⟨huDims, hel⟩ := ih ⟨_, h.inputPair⟩ sTy uTy hsTy huTy
      have hsame : ty.dims = uTy.dims := by
        rw [hdims]
        exact (permute_reverse rfl).trans hrev
      refine ⟨hsame.trans huDims, fun idx hinside => .transposed h huTy ?_⟩
      rw [hsame] at hinside
      have hback : unpermute (ReinterpretType.axes none uTy.dims.length) idx = idx :=
        (unpermute_reverse hinside.length_eq).trans (hidx idx hinside)
      rw [hback]
      exact hel idx hinside

theorem exists_element (hg : TransposeGraph g) (v : ValueId) (idx : List Nat) :
    ∃ r idx', ElementOf g v idx r idx' := by
  obtain ⟨rank, hrank⟩ := hg.acyclic
  induction hn : rank v using Nat.strong_induction_on generalizing v idx with
  | _ n ih =>
  subst hn
  by_cases hv : IsTransposed g v
  · obtain ⟨id, perm, u, h⟩ := hv
    obtain ⟨uTy, -, huTy, -⟩ := h.types hg
    obtain ⟨r, idx', hr⟩ := ih (rank u) (h.rank_lt hrank) u _ rfl
    exact ⟨r, idx', .transposed h huTy hr⟩
  · exact ⟨v, idx, .root idx hv⟩

/-- A value that is not transposed is not transposed in an extended graph either. -/
theorem not_isTransposed_extended (hg : TransposeGraph g) (hext : Extended g g') (hv : v < g.values.length)
    (hroot : ¬IsTransposed g v) : ¬IsTransposed g' v := by
  rintro ⟨id, perm, u, h⟩
  have hout := h.outputPair
  obtain ⟨node, hnode, hop, -, -⟩ := h
  exact hroot (isTransposed_of_extended hg hext hv hout hnode (by unfold isTranspose; rw [hop]))

theorem Fused.element (hg : TransposeGraph g) (hext : Extended g g') (hfuses : Fuses g v s q)
    (hone : Transposes g' id (some q) s w) (idx : List Nat) : ElementOf g' w idx s (unpermute q idx) := by
  obtain ⟨sTy, -, hsTy, -⟩ := hfuses.isPerm hg
  have hlt := hfuses.lt hg
  exact .transposed hone ((hext.type hlt).trans hsTy) (.root _ (not_isTransposed_extended hg hext hlt hfuses.root))

/-- Where the pass keeps the tensors, what it takes a value for is what the value is. -/
theorem Done.isView (hg : TransposeGraph g) (hdone : Done g ids st)
    (hids : ∀ id perm u v, Transposes g id perm u v → id ∈ ids) (hsame : SameTensors g st.graph)
    (hfuses : Fuses g v s q) (hread : ∃ x, (v, x) ∈ inputPairs g) : IsView g v s q := by
  by_cases hch : ∃ id, Chained g id v
  · obtain ⟨id, perm, u, htrans, hu⟩ := hch
    obtain ⟨x, hx⟩ := hread
    obtain ⟨w, hw, hstands⟩ := hdone.places v x hx
    obtain ⟨w', hw', htensor⟩ := hsame v x hx
    obtain rfl := inputPairs_unique hw hw'
    rcases hstands with ⟨-, hnot⟩ | ⟨-, s', q', id', sTy', hfuses', hone, -, hsTy', hwTy⟩
    · exact absurd ⟨perm, u, htrans, hu⟩ (hnot id (hids id perm u v htrans))
    · obtain ⟨rfl, rfl⟩ := hfuses.unique hg.defined hfuses'
      intro sTy ty hsTy hty
      obtain rfl := Option.some.inj (hsTy.symm.trans hsTy')
      obtain ⟨sTy', -, hsTy'', -, hperm, -, hstrides⟩ := hfuses.isPerm hg
      obtain rfl := Option.some.inj (hsTy.symm.trans hsTy'')
      obtain ⟨ty', hty', hdims, hel⟩ := htensor ty hty
      rw [hwTy, ResolvedTensorType.transpose_of_isPerm hperm hstrides, Option.some.injEq] at hty'
      subst hty'
      refine ⟨hdims.symm, fun idx hidx => ?_⟩
      obtain ⟨r, idx', hr⟩ := exists_element hg v idx
      obtain ⟨rfl, rfl⟩ := (hel idx hidx r idx' hr).unique hdone.defined
        (Fused.element hg hdone.extended hfuses hone idx)
      exact hr
  · cases hfuses with
    | first h hs => exact Fuses.isView_first hg h hs
    | next h hu => exact absurd ⟨_, _, _, h, hu.isTransposed⟩ hch
    | skip h hu => exact absurd ⟨_, _, _, h, hu.isTransposed⟩ hch

theorem unpermute_injective {rank : Nat} (hq : IsPerm q rank) {l l' : List Nat} (hl : l.length = rank)
    (hl' : l'.length = rank) (h : unpermute q l = unpermute q l') : l = l' := by
  rw [← permute_unpermute hq hl, h, permute_unpermute hq hl']

theorem Done.reversalsIdle (hg : TransposeGraph g) (hdone : Done g ids st)
    (hids : ∀ id perm u v, Transposes g id perm u v → id ∈ ids) (hsame : SameTensors g st.graph)
    (hfusable : ∀ id perm u v, Transposes g id perm u v → IsTransposed g u → Fusable check g v) :
    ReversalsIdle g := by
  intro id u v htrans hu hread uTy huTy
  obtain ⟨s, q, sTy, -, hfuses, hsTy, -, -⟩ := hfusable id none u v htrans hu
  obtain ⟨q', hfuses', hq'⟩ := (Fuses.step_iff hg htrans hu).mp hfuses
  obtain rfl := Except.ok.inj hq'
  obtain ⟨sTy', uTy', hsTy', huTy', hq, hlen, -⟩ := hfuses'.isPerm hg
  obtain rfl := Option.some.inj (hsTy.symm.trans hsTy')
  obtain rfl := Option.some.inj (huTy.symm.trans huTy')
  obtain ⟨inTy, vTy, hinTy, hvTy, -, hdims, -⟩ := htrans.types hg
  obtain rfl := Option.some.inj (huTy.symm.trans hinTy)
  obtain ⟨hvDims, hvEl⟩ := hdone.isView hg hids hsame hfuses hread sTy vTy hsTy hvTy
  obtain ⟨huDims, huEl⟩ := hdone.isView hg hids hsame hfuses' ⟨_, htrans.inputPair⟩ sTy uTy hsTy huTy
  have hrev : uTy.dims.reverse = uTy.dims := by
    rw [← permute_reverse (l := uTy.dims) rfl]
    exact hdims.symm.trans (hvDims.trans huDims.symm)
  refine ⟨hrev, fun idx hidx => ?_⟩
  have hidxrev : Inside idx.reverse uTy.dims := by
    have := List.forall₂_reverse_iff.mpr hidx
    rwa [hrev] at this
  have hone := hvEl idx (by rw [hvDims, ← huDims]; exact hidx)
  have hother : ElementOf g v idx s (unpermute q' idx.reverse) := by
    refine .transposed htrans huTy ?_
    have hback : unpermute (ReinterpretType.axes none uTy.dims.length) idx = idx.reverse :=
      unpermute_reverse hidx.length_eq
    rw [hback]
    exact huEl _ hidxrev
  obtain ⟨-, heq⟩ := hone.unique hg.defined hother
  refine (unpermute_injective hq ?_ ?_ heq).symm
  · rw [hidx.length_eq, hlen]
  · rw [List.length_reverse, hidx.length_eq, hlen]

theorem Done.sameTensors (hg : TransposeGraph g) (hdone : Done g ids st)
    (hids : ∀ id perm u v, Transposes g id perm u v → id ∈ ids) (hidle : ReversalsIdle g) :
    SameTensors g st.graph := by
  intro v x hx
  obtain ⟨w, hw, hstands⟩ := hdone.places v x hx
  refine ⟨w, hw, fun ty hty => ?_⟩
  rcases hstands with ⟨rfl, hnot⟩ | ⟨-, s, q, id, sTy, hfuses, hone, -, hsTy, hwTy⟩
  · have hlt := lt_of_type hty
    refine ⟨ty, (hdone.extended.type hlt).trans hty, rfl, fun idx _ r idx' hr => ?_⟩
    cases hr with
    | root _ hroot => exact .root _ (not_isTransposed_extended hg hdone.extended hlt hroot)
    | @transposed id perm u _ _ uTy _ _ htrans huTy hrest =>
        have hu : ¬IsTransposed g u := fun hu =>
          hnot id (hids id perm u w htrans) ⟨perm, u, htrans, hu⟩
        obtain ⟨u', hu', hstands⟩ := hdone.places u (id, 0) htrans.inputPair
        have hsame : u' = u := by
          rcases hstands with ⟨hsame, -⟩ | ⟨-, s, q, id, sTy, hfuses, -⟩
          · exact hsame
          · exact absurd hfuses.isTransposed hu
        subst hsame
        have hult := lt_of_type huTy
        refine .transposed (htrans.extended hdone.extended hu') ((hdone.extended.type hult).trans huTy) ?_
        cases hrest with
        | root => exact .root _ (not_isTransposed_extended hg hdone.extended hult hu)
        | transposed h => exact absurd ⟨_, _, _, h⟩ hu
  · obtain ⟨sTy', vTy, hsTy', hvTy, hperm, -, hstrides⟩ := hfuses.isPerm hg
    obtain rfl := Option.some.inj (hsTy.symm.trans hsTy')
    obtain rfl := Option.some.inj (hty.symm.trans hvTy)
    obtain ⟨hdims, hel⟩ := hfuses.isView hg hidle ⟨x, hx⟩ sTy ty hsTy hty
    rw [ResolvedTensorType.transpose_of_isPerm hperm hstrides] at hwTy
    refine ⟨_, hwTy, hdims.symm, fun idx hidx r idx' hr => ?_⟩
    obtain ⟨rfl, rfl⟩ := hr.unique hg.defined (hel idx hidx)
    exact Fused.element hg hdone.extended hfuses hone idx

/-! ### When the pass returns -/

/-- A `Transpose` without `perm` of a value that is not transposed is read by no `Transpose`. -/
def FirstsHavePerm (g : Graph) : Prop :=
  ∀ id s v, Transposes g id none s v → ¬IsTransposed g s → ∀ id' p w, ¬Transposes g id' p v w

/-- The type of a transposed value; if the value before is not transposed, the one that follows from it. -/
def ViewType (g : Graph) (u : ValueId) (ty : ResolvedTensorType) : Prop :=
  (∃ id p w, Transposes g id p w u ∧ IsTransposed g w ∧ g.getResolvedTensorType u = some ty) ∨
    ∃ id q s sTy, Transposes g id (some q) s u ∧ ¬IsTransposed g s ∧
      g.getResolvedTensorType s = some sTy ∧ sTy.transpose q = some ty

/-- A type transposed by the given `perm`, an absent one of which is skipped. -/
def retype (ty : ResolvedTensorType) : Option (List Nat) → Option ResolvedTensorType
  | some p => ty.transpose p
  | none => some ty

/-- A `Transpose` of a transposed value has the type, strides included, that follows from that value. -/
def Retyped (g : Graph) : Prop :=
  ∀ id p u v, Transposes g id p u v → IsTransposed g u →
    ∀ ty, ViewType g u ty → g.getResolvedTensorType v = retype ty p

theorem exists_fuses (hg : TransposeGraph g) (hfirst : FirstsHavePerm g) (h : Transposes g id perm u v)
    (hu : IsTransposed g u ∨ perm ≠ none) : ∃ s q, Fuses g v s q := by
  obtain ⟨rank, hrank⟩ := hg.acyclic
  induction hn : rank v using Nat.strong_induction_on generalizing id perm u v with
  | _ n ih =>
  subst hn
  by_cases htr : IsTransposed g u
  · obtain ⟨idu, pu, uu, hbefore⟩ := htr
    -- the `Transpose` before is read by this one, so it has a `perm` if it is the first
    have hprev : IsTransposed g uu ∨ pu ≠ none := by
      by_contra hno
      obtain ⟨hroot, hnone⟩ := not_or.mp hno
      obtain rfl := not_not.mp hnone
      exact hfirst idu uu u hbefore hroot id perm v h
    obtain ⟨s, q, hfuses⟩ := ih (rank u) (h.rank_lt hrank) hbefore hprev rfl
    cases perm with
    | none => exact ⟨s, q, .skip h hfuses⟩
    | some p => exact ⟨s, _, .next h hfuses⟩
  · obtain ⟨q, rfl⟩ := Option.ne_none_iff_exists'.mp (hu.resolve_left htr)
    exact ⟨u, q, .first h htr⟩

/-- One more `Transpose` on a chain, for the types. -/
theorem retype_compose (hg : TransposeGraph g) (h : Transposes g id perm u v) {q' : List Nat}
    (hfuses : Fuses g u s q') (hq : compose q' perm = .ok q) {sTy ty : ResolvedTensorType}
    (hsTy : g.getResolvedTensorType s = some sTy) (hty : sTy.transpose q' = some ty) :
    retype ty perm = sTy.transpose q := by
  cases perm with
  | none =>
      obtain rfl := Except.ok.inj hq
      exact hty.symm
  | some p =>
      obtain ⟨sTy', uTy, hsTy', huTy, hq', hlen, hstrides⟩ := hfuses.isPerm hg
      obtain rfl := Option.some.inj (hsTy.symm.trans hsTy')
      obtain ⟨inTy, -, hin, -, hp, -⟩ := h.types hg
      obtain rfl := Option.some.inj (huTy.symm.trans hin)
      have hp' : IsPerm p sTy.dims.length := by
        rw [← hlen]
        exact hp
      have hmem : ∀ i ∈ p, i < q'.length := fun i hi => by
        rw [hq'.length]
        exact hp'.mem_iff.mp hi
      rw [compose_some hmem] at hq
      obtain rfl := Except.ok.inj hq
      exact ResolvedTensorType.transpose_transpose hq' hp' hstrides hty

/-- Where the types of the chained values are those of views, `ViewType` is the type of the view. -/
theorem Fuses.viewType_iff (hg : TransposeGraph g) (hfuses : Fuses g u s q) {sTy ty : ResolvedTensorType}
    (hsTy : g.getResolvedTensorType s = some sTy)
    (htyped : (∃ id, Chained g id u) → g.getResolvedTensorType u = sTy.transpose q) :
    ViewType g u ty ↔ sTy.transpose q = some ty := by
  constructor
  · rintro (⟨id, p, w, h, hw, huTy⟩ | ⟨id, q', s', sTy', h, hs', hsTy', hty⟩)
    · rw [← htyped ⟨id, p, w, h, hw⟩, huTy]
    · obtain ⟨rfl, hq⟩ := (Fuses.first_iff hg h hs').mp hfuses
      obtain rfl := Option.some.inj hq
      obtain rfl := Option.some.inj (hsTy.symm.trans hsTy')
      exact hty
  · intro hty
    cases hfuses with
    | first h hs => exact .inr ⟨_, q, s, sTy, h, hs, hsTy, hty⟩
    | next h hu => exact .inl ⟨_, _, _, h, hu.isTransposed, by rw [htyped ⟨_, _, _, h, hu.isTransposed⟩, hty]⟩
    | skip h hu => exact .inl ⟨_, _, _, h, hu.isTransposed, by rw [htyped ⟨_, _, _, h, hu.isTransposed⟩, hty]⟩

theorem typed_of_retyped (hg : TransposeGraph g) (hre : Retyped g) {sTy : ResolvedTensorType}
    (hfuses : Fuses g v s q) (hsTy : g.getResolvedTensorType s = some sTy) :
    (∃ id, Chained g id v) → g.getResolvedTensorType v = sTy.transpose q := by
  induction hfuses with
  | first h hs =>
      rintro ⟨id', perm, u, h', hu⟩
      obtain ⟨-, -, rfl⟩ := h.unique hg.defined h'
      exact absurd hu hs
  | @next id u s v p q h hu ih =>
      intro _
      obtain ⟨sTy', -, hsTy', -, hq, -, hstrides⟩ := hu.isPerm hg
      obtain rfl := Option.some.inj (hsTy.symm.trans hsTy')
      have hty := ResolvedTensorType.transpose_of_isPerm hq hstrides
      rw [hre id _ u v h hu.isTransposed _ ((hu.viewType_iff hg hsTy (ih hsTy)).mpr hty)]
      obtain ⟨q₀, hu₀, hcompose⟩ := (Fuses.step_iff hg h hu.isTransposed).mp (.next h hu)
      obtain ⟨-, rfl⟩ := hu.unique hg.defined hu₀
      exact retype_compose hg h hu hcompose hsTy hty
  | @skip id u s v q h hu ih =>
      intro _
      obtain ⟨sTy', -, hsTy', -, hq, -, hstrides⟩ := hu.isPerm hg
      obtain rfl := Option.some.inj (hsTy.symm.trans hsTy')
      have hty := ResolvedTensorType.transpose_of_isPerm hq hstrides
      rw [hre id _ u v h hu.isTransposed _ ((hu.viewType_iff hg hsTy (ih hsTy)).mpr hty), hty]
      rfl

theorem fusable_iff (hg : TransposeGraph g) :
    (∀ id perm u v, Transposes g id perm u v → IsTransposed g u → Fusable check g v) ↔
      FirstsHavePerm g ∧ (check = true → Retyped g) := by
  constructor
  · intro hall
    -- the types of the chained values, where they are checked
    have htyped : check = true → ∀ {u s q sTy}, Fuses g u s q → g.getResolvedTensorType s = some sTy →
        (∃ id, Chained g id u) → g.getResolvedTensorType u = sTy.transpose q := by
      rintro hcheck u s q sTy hfuses hsTy ⟨id, p, w, h, hw⟩
      obtain ⟨s', q', sTy', ty', hfuses', hsTy', hty', hvTy⟩ := hall id p w u h hw
      obtain ⟨rfl, rfl⟩ := hfuses.unique hg.defined hfuses'
      obtain rfl := Option.some.inj (hsTy.symm.trans hsTy')
      rw [hvTy hcheck, hty']
    constructor
    · intro id s v h hs id' p w h'
      obtain ⟨s', q, -, -, hfuses, -⟩ := hall id' p v w h' ⟨id, none, s, h⟩
      obtain ⟨q', hfuses', -⟩ := (Fuses.step_iff hg h' ⟨id, none, s, h⟩).mp hfuses
      obtain ⟨-, hnone⟩ := (Fuses.first_iff hg h hs).mp hfuses'
      cases hnone
    · intro hcheck id p u v h hu ty hview
      obtain ⟨s, q, sTy, ty', hfuses, hsTy, hty', hvTy⟩ := hall id p u v h hu
      obtain ⟨q', hfuses', hq⟩ := (Fuses.step_iff hg h hu).mp hfuses
      have hty := (hfuses'.viewType_iff hg hsTy (htyped hcheck hfuses' hsTy)).mp hview
      rw [hvTy hcheck, retype_compose hg h hfuses' hq hsTy hty, hty']
  · rintro ⟨hfirst, hre⟩ id perm u v h hu
    obtain ⟨s, q, hfuses⟩ := exists_fuses hg hfirst h (.inl hu)
    obtain ⟨sTy, -, hsTy, -, hq, -, hstrides⟩ := hfuses.isPerm hg
    have hty := ResolvedTensorType.transpose_of_isPerm hq hstrides
    refine ⟨s, q, sTy, _, hfuses, hsTy, hty, fun hcheck => ?_⟩
    rw [typed_of_retyped hg (hre hcheck) hfuses hsTy ⟨id, perm, u, h, hu⟩, hty]

/-- The pass returns and keeps the tensors exactly if the first `Transpose` of every chain has a `perm`,
the absent ones of the others reverse nothing, and, where the types are checked, they are those of
views. -/
theorem sameTensors_iff (hg : TransposeGraph st.graph) (hmaps : Consistent st) :
    (∃ st', run check st = .ok st' ∧ SameTensors st.graph st'.graph) ↔
      FirstsHavePerm st.graph ∧ ReversalsIdle st.graph ∧ (check = true → Retyped st.graph) := by
  have hok : (∃ st', run check st = .ok st') ↔ _ := (run_ok_iff hg hmaps).trans (fusable_iff hg)
  constructor
  · rintro ⟨st', hrun, hsame⟩
    obtain ⟨ids, hids, hdone⟩ := done_of_run hg hmaps hrun
    obtain ⟨hfirst, hre⟩ := hok.mp ⟨st', hrun⟩
    exact ⟨hfirst, hdone.reversalsIdle hg hids hsame ((run_ok_iff hg hmaps).mp ⟨st', hrun⟩), hre⟩
  · rintro ⟨hfirst, hidle, hre⟩
    obtain ⟨st', hrun⟩ := hok.mpr ⟨hfirst, hre⟩
    obtain ⟨ids, hids, hdone⟩ := done_of_run hg hmaps hrun
    exact ⟨st', hrun, hdone.sameTensors hg hids hidle⟩

/-- An input of the dims `dims` that is transposed twice and given back. -/
def chainGraph (p p' : Option (List Nat)) (dims dims' dims'' : List Nat) : Graph where
  nodes :=
    [{ inputs := [], outputs := [0], name := "x", op := .input 0, markAsDeleted := false },
      { inputs := [some 0], outputs := [1], name := "t", op := .transpose p, markAsDeleted := false },
      { inputs := [some 1], outputs := [2], name := "t'", op := .transpose p', markAsDeleted := false },
      { inputs := [some 2], outputs := [], name := "y", op := .output 2, markAsDeleted := false }]
  inputs := [0]
  outputs := [3]
  values :=
    [{ name := "x", ty := some (.resolved (.new (.float .F32) dims)) },
      { name := "m", ty := some (.resolved (.new (.float .F32) dims')) },
      { name := "y", ty := some (.resolved (.new (.float .F32) dims'')) }]
  initializer := fun _ => none
  externalRefs := fun _ => none

variable {p' : Option (List Nat)} {dims dims' dims'' : List Nat}

theorem chainGraph_consistent : Consistent (.new (chainGraph p p' dims dims' dims'')) := by
  refine new_consistent ⟨?_, ?_⟩
  · intro id hid
    obtain rfl := List.mem_singleton.mp hid
    exact ⟨_, 0, rfl, .inl rfl, rfl⟩
  · intro id hid
    obtain rfl := List.mem_singleton.mp hid
    exact ⟨_, 2, rfl, rfl, rfl⟩

theorem chainGraph_lt {node : Node} (h : (chainGraph p p' dims dims' dims'').node? id = some node) : id < 4 :=
  (List.getElem?_eq_some_iff.mp (node?_eq_some.mp h).1).1

theorem chainGraph_wellFormed (h : (ReinterpretType.transpose p).outDims dims = some dims')
    (h' : (ReinterpretType.transpose p').outDims dims' = some dims'') :
    TransposeGraph (chainGraph p p' dims dims' dims'') := by
  have hpairs : outputPairs (chainGraph p p' dims dims' dims'') = [(0, (0, 0)), (1, (1, 0)), (2, (2, 0))] := rfl
  have hlen : (chainGraph p p' dims dims' dims'').values.length = 3 := rfl
  refine { allocated := ?_, defined := ?_, acyclic := ⟨id, ?_⟩, carries := ?_, transpose := ?_ }
  · rintro v ⟨id, k⟩ (⟨node, hnode, hget⟩ | hv)
    · have hlt := chainGraph_lt hnode
      have hmem : some v ∈ node.inputs := List.mem_of_getElem? hget
      dsimp only at hnode hlt
      interval_cases id <;> obtain rfl := Option.some.inj hnode
      · cases hmem
      all_goals
        rw [Option.some.inj (List.mem_singleton.mp hmem), hlen]
        decide
    · rw [hpairs] at hv
      simp only [List.mem_cons, Prod.mk.injEq, List.not_mem_nil, or_false] at hv
      rw [hlen]
      rcases hv with ⟨rfl, -⟩ | ⟨rfl, -⟩ | ⟨rfl, -⟩ <;> decide
  · intro v x y hx hy
    rw [hpairs] at hx hy
    simp only [List.mem_cons, Prod.mk.injEq, List.not_mem_nil, or_false] at hx hy
    rcases hx with ⟨rfl, rfl⟩ | ⟨rfl, rfl⟩ | ⟨rfl, rfl⟩ <;> simpa [eq_comm] using hy
  · intro id node hnode v hv w hw
    have hlt := chainGraph_lt hnode
    interval_cases id <;> obtain rfl := Option.some.inj hnode
    · cases hv
    · obtain rfl := Option.some.inj (List.mem_singleton.mp hv)
      obtain rfl := List.mem_singleton.mp hw
      exact Nat.zero_lt_one
    · obtain rfl := Option.some.inj (List.mem_singleton.mp hv)
      obtain rfl := List.mem_singleton.mp hw
      exact Nat.lt_succ_self 1
    · cases hw
  · intro id node v hnode hop
    have hlt := chainGraph_lt hnode
    interval_cases id <;> obtain rfl := Option.some.inj hnode <;> cases hop
    rfl
  · intro id node perm hnode hop
    have hlt := chainGraph_lt hnode
    interval_cases id <;> obtain rfl := Option.some.inj hnode <;> cases hop
    · exact ⟨0, 1, _, _, rfl, rfl, rfl, rfl, h, fun _ => calcStride_length dims⟩
    · exact ⟨1, 2, _, _, rfl, rfl, rfl, rfl, h', fun _ => calcStride_length dims'⟩

/-- A chain whose first `Transpose` has no `perm` panics, and one whose second has none gives an array of
other dims. -/
theorem chainGraph_not_same :
    TransposeGraph (chainGraph none (some [1, 0]) [2, 3] [3, 2] [2, 3]) ∧
    run false (.new (chainGraph none (some [1, 0]) [2, 3] [3, 2] [2, 3])) = .error .panic ∧
    TransposeGraph (chainGraph (some [1, 0]) none [2, 3] [3, 2] [2, 3]) ∧
    ∃ st, run false (.new (chainGraph (some [1, 0]) none [2, 3] [3, 2] [2, 3])) = .ok st ∧
      ¬SameTensors (chainGraph (some [1, 0]) none [2, 3] [3, 2] [2, 3]) st.graph := by
  refine ⟨chainGraph_wellFormed (by decide) (by decide), rfl, chainGraph_wellFormed (by decide) (by decide), ?_⟩
  refine ⟨_, rfl, fun hsame => ?_⟩
  obtain ⟨w, ⟨node, hnode, hw⟩, htensor⟩ := hsame 2 (3, 0) ⟨_, rfl, rfl⟩
  obtain rfl := Option.some.inj hnode
  obtain rfl : 3 = w := Option.some.inj (Option.some.inj hw)
  obtain ⟨ty', hty', hdims, -⟩ := htensor _ rfl
  obtain rfl := Option.some.inj hty'
  exact absurd hdims (by decide)

/-- Two transposes that both have a `perm` are fused to one. -/
theorem chainGraph_same : ∃ st, run false (.new (chainGraph (some [1, 0]) (some [1, 0]) [2, 3] [3, 2] [2, 3])) =
    .ok st ∧ SameTensors (chainGraph (some [1, 0]) (some [1, 0]) [2, 3] [3, 2] [2, 3]) st.graph := by
  have hperm : ∀ {id u v}, ¬Transposes (chainGraph (some [1, 0]) (some [1, 0]) [2, 3] [3, 2] [2, 3]) id none u v := by
    rintro id u v ⟨node, hnode, hop, -, -⟩
    have hlt := chainGraph_lt hnode
    interval_cases id <;> obtain rfl := Option.some.inj hnode <;> cases hop
  exact (sameTensors_iff (chainGraph_wellFormed (by decide) (by decide)) chainGraph_consistent).mpr
    ⟨fun _ _ _ h => absurd h hperm, fun _ _ _ h => absurd h hperm, nofun⟩

end TransposeFusion
end NnEngine
