import NnEngine.Graph.Exact
import NnEngine.Transform.Pattern

/-!
# Fusion of a transposition and a product

`GemmTransposeFusion` of `src/transform/optimize/gemm_transpose_fusion.rs`: a `Transpose` that gives an
operand of a `Gemm` becomes a flag of the `Gemm`.  The pass does not look at the permutation;
`gemmTransposeFusion_preserves_iff` says along which runs the product stays what it was.
-/

namespace NnEngine

open DepthFirst InverseIndex SimpleGraphOp GraphState

namespace GemmTransposeFusion

/-- The closure `is_transposed`. -/
def isTransposed (st : GraphState) (v : ValueId) : Except Stop (Option ValueId) :=
  match st.maps.value2defined v with
  | none => .ok none
  | some place =>
      (orPanic (st.graph.node? place.1)).bind fun node =>
        match node.op with
        | .transpose _ => (orPanic node.inputs[0]?.join).map some
        | _ => .ok none

/-- The body of the loop of `run`, over the nodes and their numbers. -/
def visit (st : GraphState) (x : NodeId × Nat) : Except Stop GraphState :=
  (orPanic (st.graph.node? x.1)).bind fun node =>
    (orPanic node.inputs[args.GEMM_A]?.join).bind fun a =>
      (orPanic node.inputs[args.GEMM_B]?.join).bind fun b =>
        (orPanic node.outputs[0]?).bind fun oldOutput =>
          (isTransposed st a).bind fun transA =>
            (isTransposed st b).bind fun transB =>
              if transA.isSome || transB.isSome then
                (orPanic node.op.gemm?).bind fun gemm =>
                  st.replaceByNode oldOutput s!"GemmTransComposition_Output_{x.2}"
                    s!"GemmTransComposition_{x.2}"
                    (some (transA.getD a) :: some (transB.getD b) ::
                      (node.inputs[args.GEMM_C]?.join).toList.map some)
                    (.gemm { gemm with
                      transA := gemm.transA ^^ transA.isSome
                      transB := gemm.transB ^^ transB.isSome })
              else .ok st

/-- `run`. -/
def run (st : GraphState) : Except Stop GraphState := (gemms st.graph).zipIdx.foldlM visit st

/-- The value is the output of a `Transpose` of `w`. -/
def TransposeOf (st : GraphState) (v : ValueId) (perm : Option (List Nat)) (w : ValueId) : Prop :=
  ∃ place node, st.maps.value2defined v = some place ∧ st.graph.node? place.1 = some node ∧
    node.op = .transpose perm ∧ node.inputs[0]? = some (some w)

/-- Operand `k` of a product is the output of a `Transpose` of `w`. -/
def TransposedOperand (st : GraphState) (id : NodeId) (k : Nat) (perm : Option (List Nat)) (w : ValueId) :
    Prop :=
  ∃ node v, st.graph.node? id = some node ∧ node.inputs[k]? = some (some v) ∧ TransposeOf st v perm w

/-- The permutation is the swap of the two axes of a matrix. -/
def Swaps (perm : Option (List Nat)) : Prop := ReinterpretType.axes perm 2 = [1, 0]

variable {st st' : GraphState} {x : NodeId × Nat} {v w : ValueId} {perm : Option (List Nat)}
  {c : Exact.GeLUConstants} {files : Onnx.Files} {ρ : ValueId → Exact.Arr}

theorem isTransposed_eq_some : isTransposed st v = .ok (some w) ↔ ∃ perm, TransposeOf st v perm w := by
  unfold isTransposed TransposeOf
  cases hplace : st.maps.value2defined v with
  | none => exact ⟨nofun, fun ⟨_, _, _, h, _⟩ => nomatch h⟩
  | some place =>
    constructor
    · intro h
      obtain ⟨node, hnode, h⟩ := orPanic_bind_eq_ok h
      split at h
      · rename_i perm hop
        obtain ⟨u, hu, huw⟩ := orPanic_map_eq_ok h
        obtain rfl := Option.some.inj huw
        exact ⟨perm, place, node, rfl, hnode, hop, Option.join_eq_some_iff.mp hu⟩
      · cases h
    · rintro ⟨perm, place', node, hplace', hnode, hop, hw⟩
      obtain rfl := Option.some.inj hplace'
      show ((orPanic (st.graph.node? place.1)).bind fun node => _) = _
      rw [hnode]
      show (match node.op with | .transpose _ => _ | _ => _) = _
      rw [hop, hw]
      rfl

end GemmTransposeFusion

namespace Exact

open ReinterpretType

variable {a b t x y : Arr} {perm : Option (List Nat)} {trans trans' : Bool} {rows cols : Nat}

/-- Two matrices, each of them transposed or not, that have the same entries. -/
def SameMatrix (trans : Bool) (x : Arr) (trans' : Bool) (x' : Arr) : Prop :=
  ∀ rows cols, IsMatrix trans x rows cols → IsMatrix trans' x' rows cols ∧
    ∀ i < rows, ∀ j < cols, entry trans' x' i j = entry trans x i j

theorem SameMatrix.refl (trans : Bool) (x : Arr) : SameMatrix trans x trans x :=
  fun _ _ h => ⟨h, fun _ _ _ _ => rfl⟩

/-- What a `Transpose` computes. -/
theorem Reinterprets.transpose (h : Reinterprets [.transpose perm] x y) :
    IsPerm (axes perm x.shape.length) x.shape.length ∧
      y = .tabulate (permute (axes perm x.shape.length) x.shape) fun idx =>
        x.get (unpermute (axes perm x.shape.length) idx) := by
  obtain ⟨d, hd, rfl⟩ := h
  obtain ⟨d', hd', hd⟩ := outDims_cons_eq_some hd
  obtain rfl := Option.some.inj hd
  have hsource (idx : List Nat) : source [.transpose perm] x.shape idx =
      unpermute (axes perm x.shape.length) idx := by
    unfold source
    rw [hd']
    rfl
  change (if IsPerm _ _ then some _ else none) = some d' at hd'
  split at hd'
  · rename_i hperm
    obtain rfl := Option.some.inj hd'
    exact ⟨hperm, NdArray.tabulate_congr fun idx _ => by rw [hsource]⟩
  · cases hd'

/-- A `Transpose` that swaps the axes of a matrix is a flag. -/
theorem sameMatrix_of_transpose (hswap : axes perm 2 = [1, 0]) (ht : Reinterprets [.transpose perm] x t) :
    SameMatrix trans t (!trans) x := by
  intro rows cols hmat
  obtain ⟨hperm, rfl⟩ := ht.transpose
  -- the operand has the rank of a matrix too
  have hlen : x.shape.length = 2 := by
    have hlen := congrArg List.length hmat
    rw [NdArray.tabulate_shape, permute_length, hperm.length] at hlen
    rw [hlen]
    split <;> rfl
  obtain ⟨p, q, hshape⟩ := List.length_eq_two.mp hlen
  have hpermute : permute [1, 0] [p, q] = [q, p] := rfl
  have hget {i j : Nat} (hi : i < q) (hj : j < p) : (NdArray.tabulate [q, p] fun idx =>
      x.get (unpermute [1, 0] idx)).get [i, j] = x.get [j, i] := NdArray.get_tabulate (inside_of_pair hi hj)
  unfold IsMatrix at hmat ⊢
  rw [NdArray.tabulate_shape, hlen, hswap, hshape, hpermute] at hmat
  rw [hlen, hswap, hshape, hpermute]
  cases trans with
  | false =>
      obtain ⟨rfl, rfl⟩ : q = rows ∧ p = cols := by simpa using hmat
      exact ⟨rfl, fun i hi j hj => (hget hi hj).symm⟩
  | true =>
      obtain ⟨rfl, rfl⟩ : q = cols ∧ p = rows := by simpa using hmat
      exact ⟨rfl, fun i hi j hj => (hget hj hi).symm⟩

/-- A product of the same matrices is the same. -/
theorem IsGemm.of_same {g g' : Gemm} {a' b' : Arr} {c : Option Arr} (h : IsGemm g a b c y)
    (hα : g'.alpha = g.alpha) (hβ : g'.beta = g.beta) (ha : SameMatrix g.transA a g'.transA a')
    (hb : SameMatrix g.transB b g'.transB b') : IsGemm g' a' b' c y := by
  obtain ⟨m, k, n, hma, hmb, hc, rfl⟩ := h
  obtain ⟨hma', hea⟩ := ha m k hma
  obtain ⟨hmb', heb⟩ := hb k n hmb
  refine ⟨m, k, n, hma', hmb', hc, NdArray.tabulate_congr fun idx hidx => ?_⟩
  obtain ⟨i, j, rfl, hi, hj⟩ := inside_pair hidx
  have hsum : ∑ p ∈ Finset.range k, entry g'.transA a' i p * entry g'.transB b' p j =
      ∑ p ∈ Finset.range k, entry g.transA a i p * entry g.transB b p j :=
    Finset.sum_congr rfl fun p hp => by
      rw [hea i hi p (Finset.mem_range.mp hp), heb p (Finset.mem_range.mp hp) j hj]
  rw [hα, hβ]
  exact congrArg (fun e => g.alpha.real * e + _) hsum.symm

end Exact

namespace GemmTransposeFusion

theorem visit_eq_ok (hok : visit st x = .ok st') : ∃ node a b out transA transB,
    st.graph.node? x.1 = some node ∧ node.inputs[0]? = some (some a) ∧ node.inputs[1]? = some (some b) ∧
    node.outputs[0]? = some out ∧ isTransposed st a = .ok transA ∧ isTransposed st b = .ok transB ∧
    (transA = none ∧ transB = none ∧ st' = st ∨
      ∃ g, node.op = .gemm g ∧ st.replaceByNode out s!"GemmTransComposition_Output_{x.2}"
        s!"GemmTransComposition_{x.2}"
        (some (transA.getD a) :: some (transB.getD b) :: (node.inputs[2]?.join).toList.map some)
        (.gemm { g with transA := g.transA ^^ transA.isSome, transB := g.transB ^^ transB.isSome }) =
          .ok st') := by
  obtain ⟨node, hnode, hok⟩ := orPanic_bind_eq_ok hok
  obtain ⟨a, ha, hok⟩ := orPanic_bind_eq_ok hok
  obtain ⟨b, hb, hok⟩ := orPanic_bind_eq_ok hok
  obtain ⟨out, hout, hok⟩ := orPanic_bind_eq_ok hok
  obtain ⟨transA, hA, hok⟩ := bind_eq_ok.mp hok
  obtain ⟨transB, hB, hok⟩ := bind_eq_ok.mp hok
  refine ⟨node, a, b, out, transA, transB, hnode, Option.join_eq_some_iff.mp ha,
    Option.join_eq_some_iff.mp hb, hout, hA, hB, ?_⟩
  split at hok
  · obtain ⟨g, hg, hok⟩ := orPanic_bind_eq_ok hok
    exact .inr ⟨g, Operator.gemm?_eq_some.mp hg, hok⟩
  · rename_i hnone
    simp only [Bool.or_eq_true, not_or, Bool.not_eq_true, Option.isSome_eq_false_iff,
      Option.isNone_iff_eq_none] at hnone
    exact .inl ⟨hnone.1, hnone.2, (Except.ok.inj hok).symm⟩

/-- The operand that a turn takes is in the graph. -/
theorem operand_lt (hst : Intact st) {o : Option ValueId} (h : isTransposed st v = .ok o)
    (hv : v < st.graph.values.length) : o.getD v < st.graph.values.length := by
  cases o with
  | none => exact hv
  | some w =>
      obtain ⟨perm, place, node, -, hnode, -, hw⟩ := isTransposed_eq_some.mp h
      exact hst.inRange.inputs _ _ hnode w (List.mem_of_getElem? hw)

/-- It is the same matrix up to the flag if the `Transpose` is a swap. -/
theorem operand_same (hst : Intact st) {o : Option ValueId} (h : isTransposed st v = .ok o)
    (hswap : ∀ perm w, TransposeOf st v perm w → Swaps perm) (trans : Bool)
    (hρ : (exact c files).Holds st.graph ρ) :
    Exact.SameMatrix trans (ρ v) (trans ^^ o.isSome) (ρ (o.getD v)) := by
  cases o with
  | none =>
      rw [Option.isSome_none, Bool.xor_false]
      exact .refl _ _
  | some w =>
      obtain ⟨perm, hof⟩ := isTransposed_eq_some.mp h
      have hperm := hswap perm w hof
      obtain ⟨place, node, hplace, hnode, hop, hw⟩ := hof
      obtain ⟨node', hnode', hout⟩ := defined_output hst.consistent hplace
      obtain rfl := Option.some.inj (hnode.symm.trans hnode')
      have htranspose := hρ.nodes _ _ hnode
      rw [hop] at htranspose
      rw [Option.isSome_some, Bool.xor_true]
      exact Exact.sameMatrix_of_transpose hperm (htranspose.of_mem (List.mem_of_getElem? hw) hout)

/-- The flag of an operand. -/
def flag (g : Gemm) (k : Nat) : Bool := if k = args.GEMM_A then g.transA else g.transB

/-- The turn has absorbed operand `k`: the new product has the other flag. -/
def Absorbs (st : GraphState) (id : NodeId) (st' : GraphState) (k : Nat) : Prop :=
  ∃ node g node' g', st.graph.node? id = some node ∧ node.op = .gemm g ∧
    st'.graph.node? st.graph.nodes.length = some node' ∧ node'.op = .gemm g' ∧ flag g' k ≠ flag g k

/-- The turn absorbs swaps only, and keeps the meaning. -/
structure Preserves (M : Meaning Exact.Arr) (st : GraphState) (id : NodeId) (st' : GraphState) : Prop where
  swaps : ∀ k ∈ [args.GEMM_A, args.GEMM_B], ∀ perm w, TransposedOperand st id k perm w →
    Absorbs st id st' k → Swaps perm
  keeps : Keeps M st st'

/-- The transposes of the operands are swaps. -/
def OnlySwaps (st : GraphState) (id : NodeId) : Prop :=
  ∀ k ∈ [args.GEMM_A, args.GEMM_B], ∀ perm w, TransposedOperand st id k perm w → Swaps perm

/-- The inputs of the new product are in the graph. -/
theorem inputs_lt (hst : Intact st) {id : NodeId} {node : Node} {a b : ValueId} {transA transB : Option ValueId}
    (hnode : st.graph.node? id = some node) (ha : node.inputs[0]? = some (some a))
    (hb : node.inputs[1]? = some (some b)) (hA : isTransposed st a = .ok transA)
    (hB : isTransposed st b = .ok transB) :
    ∀ v, some v ∈ some (transA.getD a) :: some (transB.getD b) ::
      (node.inputs[2]?.join).toList.map some → v < st.graph.values.length := by
  intro v hv
  simp only [List.mem_cons, Option.some.injEq, List.mem_map, Option.mem_toList, exists_eq_right] at hv
  rcases hv with rfl | rfl | hv
  · exact operand_lt hst hA (hst.inRange.inputs _ _ hnode _ (List.mem_of_getElem? ha))
  · exact operand_lt hst hB (hst.inRange.inputs _ _ hnode _ (List.mem_of_getElem? hb))
  · exact hst.inRange.inputs _ _ hnode v (List.mem_of_getElem? (Option.join_eq_some_iff.mp hv))

theorem visit_intact (hst : Intact st) (hok : visit st x = .ok st') :
    Intact st' ∧ st.graph.values.length ≤ st'.graph.values.length := by
  obtain ⟨node, a, b, out, transA, transB, hnode, ha, hb, -, hA, hB, ⟨-, -, rfl⟩ | ⟨g, -, hok⟩⟩ :=
    visit_eq_ok hok
  · exact ⟨hst, Nat.le_refl _⟩
  · exact replaceByNode_intact hst (inputs_lt hst hnode ha hb hA hB) hok

theorem visit_keeps (hst : Intact st) (hswap : OnlySwaps st x.1) (hok : visit st x = .ok st') :
    Keeps (exact c files) st st' := by
  obtain ⟨node, a, b, out, transA, transB, hnode, ha, hb, hout, hA, hB, ⟨-, -, rfl⟩ | ⟨g, hg, hok⟩⟩ :=
    visit_eq_ok hok
  · exact .refl _ _
  · refine (keeps_replaceByNode hst (inputs_lt hst hnode ha hb hA hB) (fun ρ hρ => ?_) hok).1
    have hgemm := hρ.nodes _ _ hnode
    rw [hg] at hgemm
    obtain ⟨xa, xb, rest, y, hins, houts, hy⟩ := hgemm
    obtain rfl := Exact.input_eq (k := 0) hins rfl ha
    obtain rfl := Exact.input_eq (k := 1) hins rfl hb
    obtain rfl := Exact.output_eq houts hout
    rw [Exact.third_eq hins] at hy
    refine ⟨_, _, _, _, rfl, rfl, ?_⟩
    have hbias : (((node.inputs[2]?.join).toList.map some).map (Option.map ρ)).head?.join =
        node.inputs[2]?.join.map ρ := by
      cases node.inputs[2]?.join with
      | none => rfl
      | some v => rfl
    rw [hbias]
    have hsameA := operand_same hst hA (fun perm w hof =>
      hswap 0 (by simp [args.GEMM_A]) perm w ⟨node, a, hnode, ha, hof⟩) g.transA hρ
    have hsameB := operand_same hst hB (fun perm w hof =>
      hswap 1 (by simp [args.GEMM_B]) perm w ⟨node, b, hnode, hb, hof⟩) g.transB hρ
    exact hy.of_same rfl rfl hsameA hsameB

/-- Every `Transpose` that gives an operand is absorbed. -/
theorem absorbs_of_transposed (hst : Consistent st) (hok : visit st x = .ok st') {k : Nat}
    (hk : k ∈ [args.GEMM_A, args.GEMM_B]) (h : TransposedOperand st x.1 k perm w) :
    Absorbs st x.1 st' k := by
  obtain ⟨node, a, b, out, transA, transB, hnode, ha, hb, -, hA, hB, hst'⟩ := visit_eq_ok hok
  obtain ⟨node', v, hnode', hv, hof⟩ := h
  obtain rfl := Option.some.inj (hnode.symm.trans hnode')
  have htrans := isTransposed_eq_some.mpr ⟨perm, hof⟩
  simp only [List.mem_cons, List.not_mem_nil, or_false] at hk
  rcases hst' with ⟨rfl, rfl, -⟩ | ⟨g, hg, hok⟩
  · rcases hk with rfl | rfl
    · obtain rfl := Option.some.inj (Option.some.inj (ha.symm.trans hv))
      cases htrans.symm.trans hA
    · obtain rfl := Option.some.inj (Option.some.inj (hb.symm.trans hv))
      cases htrans.symm.trans hB
  · obtain ⟨new, hnew, hop⟩ := replaceByNode_node hst (fun _ h => Operator.noConfusion h) hok
    refine ⟨node, g, new, _, hnode, hg, hnew, hop, ?_⟩
    rcases hk with rfl | rfl
    · obtain rfl := Option.some.inj (Option.some.inj (ha.symm.trans hv))
      obtain rfl := Except.ok.inj (htrans.symm.trans hA)
      simp [flag]
    · obtain rfl := Option.some.inj (Option.some.inj (hb.symm.trans hv))
      obtain rfl := Except.ok.inj (htrans.symm.trans hB)
      simp [flag, args.GEMM_A, args.GEMM_B]

/-- The graph is intact before every turn. -/
theorem turns_intact (hst : Intact st) {l : List (NodeId × Nat)} :
    ∀ t ∈ passTurns visit st l, Intact t.1 ∧ t.2.1 ∈ l ∧ visit t.1 t.2.1 = .ok t.2.2 :=
  passTurns_induct (fun _ _ _ h _ hok => (visit_intact h hok).1) hst

/-- A run keeps the meaning and absorbs swaps only if the operands are transposed by swaps only. -/
theorem gemmTransposeFusion_preserves_iff (hst : Intact st) :
    (∀ t ∈ passTurns visit st (gemms st.graph).zipIdx, Preserves (exact c files) t.1 t.2.1.1 t.2.2) ↔
      ∀ t ∈ passTurns visit st (gemms st.graph).zipIdx, OnlySwaps t.1 t.2.1.1 := by
  constructor
  · intro h t ht k hk perm w hof
    obtain ⟨hI, -, hok⟩ := turns_intact hst t ht
    exact (h t ht).swaps k hk perm w hof (absorbs_of_transposed hI.consistent hok hk hof)
  · intro h t ht
    obtain ⟨hI, -, hok⟩ := turns_intact hst t ht
    exact ⟨fun k hk perm w hof _ => h t ht k hk perm w hof, visit_keeps hI (h t ht) hok⟩

/-- Such a run keeps the meaning of the graph. -/
theorem gemmTransposeFusion_keeps (hst : Intact st)
    (h : ∀ t ∈ passTurns visit st (gemms st.graph).zipIdx, OnlySwaps t.1 t.2.1.1)
    (hrun : run st = .ok st') : Keeps (exact c files) st st' := by
  refine keeps_of_passTurns (fun t ht => ?_) hrun
  obtain ⟨hI, -, hok⟩ := turns_intact hst t ht
  exact ⟨visit_keeps hI (h t ht) hok, (visit_intact hI hok).2⟩

/-- The product of a square matrix, transposed, and another one. -/
def productGraph (perm : Option (List Nat)) : Graph where
  nodes :=
    [{ inputs := [], outputs := [0], name := "x", op := .input 0, markAsDeleted := false },
      { inputs := [], outputs := [1], name := "y", op := .input 1, markAsDeleted := false },
      { inputs := [some 0], outputs := [2], name := "t", op := .transpose perm, markAsDeleted := false },
      { inputs := [some 2, some 1], outputs := [3], name := "z",
        op := .gemm { alpha := .ofNat 1, beta := .ofNat 0, transA := false, transB := false },
        markAsDeleted := false },
      { inputs := [some 3], outputs := [], name := "z", op := .output 3, markAsDeleted := false }]
  inputs := [0, 1]
  outputs := [4]
  values :=
    [{ name := "x", ty := some (.resolved (.new (.float .F32) [2, 2])) },
      { name := "y", ty := some (.resolved (.new (.float .F32) [2, 2])) },
      { name := "t", ty := some (.resolved (.new (.float .F32) [2, 2])) },
      { name := "z", ty := some (.resolved (.new (.float .F32) [2, 2])) }]
  initializer := fun _ => none
  externalRefs := fun _ => none

theorem productGraph_intact (perm : Option (List Nat)) : Intact (.new (productGraph perm)) :=
  intact_new rfl (fun _ _ h => by cases h) fun _ _ h => by cases h

/-- A swap is absorbed. -/
theorem productGraph_preserved :
    (passTurns visit (.new (productGraph (some [1, 0]))) (gemms (productGraph (some [1, 0]))).zipIdx).length = 1 ∧
    ∀ t ∈ passTurns visit (.new (productGraph (some [1, 0]))) (gemms (productGraph (some [1, 0]))).zipIdx,
      Preserves (exact ⟨0, 0, 0, 0⟩ fun _ => none) t.1 t.2.1.1 t.2.2 := by
  refine ⟨rfl, (gemmTransposeFusion_preserves_iff (productGraph_intact _)).mpr fun t ht k hk perm w hof => ?_⟩
  obtain rfl := List.mem_singleton.mp ht
  obtain ⟨node, v, hnode, hv, place, node', hplace, hnode', hop, -⟩ := hof
  obtain rfl := Option.some.inj hnode
  simp only [List.mem_cons, List.not_mem_nil, or_false] at hk
  rcases hk with rfl | rfl
  · obtain rfl := Option.some.inj (Option.some.inj hv)
    obtain rfl := Option.some.inj hplace
    obtain rfl := Option.some.inj hnode'
    obtain rfl := Operator.transpose.inj hop
    rfl
  · obtain rfl := Option.some.inj (Option.some.inj hv)
    obtain rfl := Option.some.inj hplace
    obtain rfl := Option.some.inj hnode'
    cases hop

/-- The run keeps the product. -/
theorem productGraph_kept : ∃ st', run (.new (productGraph (some [1, 0]))) = .ok st' ∧
    Keeps (exact ⟨0, 0, 0, 0⟩ fun _ => none) (.new (productGraph (some [1, 0]))) st' := by
  refine ⟨_, rfl, gemmTransposeFusion_keeps (productGraph_intact _) (fun t ht k hk perm w hof => ?_) rfl⟩
  obtain rfl := List.mem_singleton.mp ht
  obtain ⟨node, v, hnode, hv, place, node', hplace, hnode', hop, -⟩ := hof
  obtain rfl := Option.some.inj hnode
  simp only [List.mem_cons, List.not_mem_nil, or_false] at hk
  rcases hk with rfl | rfl <;> obtain rfl := Option.some.inj (Option.some.inj hv) <;>
    obtain rfl := Option.some.inj hplace <;> obtain rfl := Option.some.inj hnode'
  · obtain rfl := Operator.transpose.inj hop
    rfl
  · cases hop

/-- The matrix with one 1. -/
noncomputable def unitMatrix (i j : Nat) : Exact.Arr := .tabulate [2, 2] fun idx => if idx = [i, j] then 1 else 0

theorem unitMatrix_get {i j k l : Nat} (hk : k < 2) (hl : l < 2) :
    (unitMatrix i j).get [k, l] = if k = i ∧ l = j then 1 else 0 := by
  rw [unitMatrix, NdArray.get_tabulate (Exact.inside_of_pair hk hl)]
  simp

/-- A product of the matrices with a 1 at 0, 1 and at 0, 0. -/
noncomputable def unitProduct (trans : Bool) : Exact.Arr :=
  .tabulate [2, 2] fun idx => F64.real (.ofNat 1) * ∑ p ∈ Finset.range 2,
      Exact.entry trans (unitMatrix 0 1) (idx.getD 0 0) p * Exact.entry false (unitMatrix 0 0) p (idx.getD 1 0) +
    F64.real (.ofNat 0) * 0

theorem unitProduct_ne : unitProduct true ≠ unitProduct false := by
  intro h
  have hget := congrArg (fun y => NdArray.get y [1, 0]) h
  simp only [unitProduct, NdArray.get_tabulate (Exact.inside_of_pair Nat.one_lt_two Nat.zero_lt_two)] at hget
  simp [Finset.sum_range_succ, Exact.entry, unitMatrix_get] at hget

/-- What the values of the graph are. -/
noncomputable def productValues : ValueId → Exact.Arr
  | 0 => unitMatrix 0 1
  | 1 => unitMatrix 0 0
  | 2 => unitMatrix 0 1
  | _ => unitProduct false

theorem productValues_holds : (exact ⟨0, 0, 0, 0⟩ fun _ => none).Holds (productGraph (some [0, 1])) productValues where
  nodes id node hnode := by
    have hlt : id < 5 := (List.getElem?_eq_some_iff.mp (node?_eq_some.mp hnode).1).1
    interval_cases id <;> obtain rfl := Option.some.inj hnode
    · trivial
    · trivial
    · refine ⟨_, _, rfl, rfl, [2, 2], by decide, NdArray.ext_get rfl fun idx hidx => ?_⟩
      obtain ⟨i, j, rfl, hi, hj⟩ := Exact.inside_pair hidx
      exact (NdArray.get_tabulate hidx).symm
    · exact ⟨_, _, [], _, rfl, rfl, 2, 2, 2, rfl, rfl, nofun, rfl⟩
    · trivial
  constants v t h := by cases h
  externals v r h := by cases h
  types v ty h := by
    have hlt : v < 4 := type_lt h
    interval_cases v <;> obtain rfl := Option.some.inj h <;> rfl

/-- A transposition that does nothing is absorbed, and the product is another one. -/
theorem productGraph_not_preserved : Intact (.new (productGraph (some [0, 1]))) ∧
    ∃ st', run (.new (productGraph (some [0, 1]))) = .ok st' ∧
      ¬Keeps (exact ⟨0, 0, 0, 0⟩ fun _ => none) (.new (productGraph (some [0, 1]))) st' ∧
      ¬∀ t ∈ passTurns visit (.new (productGraph (some [0, 1]))) (gemms (productGraph (some [0, 1]))).zipIdx,
        Preserves (exact ⟨0, 0, 0, 0⟩ fun _ => none) t.1 t.2.1.1 t.2.2 := by
  refine ⟨productGraph_intact _, _, rfl, ?_⟩
  rw [← not_or]
  intro h
  have hkeeps := h.elim id fun hall => (hall _ (List.mem_singleton.mpr rfl)).keeps
  obtain ⟨ρ', hρ', hagree, hreads⟩ := hkeeps productValues productValues_holds
  obtain ⟨w, ⟨node, hnode, hw⟩, hval, -⟩ := hreads 3 (4, 0) ⟨_, rfl, rfl⟩
  obtain rfl := Option.some.inj hnode
  obtain rfl : 4 = w := Option.some.inj (Option.some.inj hw)
  obtain ⟨a, b, rest, y, hins, houts, m, k, n, ha, hb, -, hy⟩ := hρ'.nodes 5 _ rfl
  obtain rfl := Exact.input_eq (k := 0) (v := 0) hins rfl rfl
  obtain rfl := Exact.input_eq (k := 1) (v := 1) hins rfl rfl
  obtain rfl := Exact.output_eq (k := 0) (w := 4) houts rfl
  rw [hagree 0 (by decide)] at ha hy
  rw [hagree 1 (by decide)] at hb hy
  change [2, 2] = [k, m] at ha
  change [2, 2] = [k, n] at hb
  obtain ⟨rfl, rfl⟩ : 2 = k ∧ 2 = m := by simpa using ha
  obtain ⟨-, rfl⟩ : 2 = 2 ∧ 2 = n := by simpa using hb
  obtain rfl : [] = rest := (List.cons.inj (List.cons.inj hins).2).2
  exact unitProduct_ne (hy.symm.trans hval)

end GemmTransposeFusion
end NnEngine
