import NnEngine.Graph.Chain
import NnEngine.Graph.Exact
import NnEngine.Onnx.LoadOp
import NnEngine.Transform.Pattern

/-!
# Fusion of a product and a sum

`GemmAddFusion` of `src/transform/optimize/gemm_add_fusion.rs`: an `Add` of a `Gemm` and a bias becomes the
third operand of the `Gemm`.  All pairs are collected first.  `gemmAddFusion_sound_iff` says for which
graphs the pass returns and computes the same: those whose `beta` is 0 exactly where there is no third
operand, and whose biases broadcast to the product.
-/

namespace NnEngine

open DepthFirst InverseIndex SimpleGraphOp GraphState

namespace Exact

variable {a b y z bias bias' : Arr} {g : Gemm}

/-- A sum with a product is a product with a bias. -/
theorem IsGemm.add_bias (hg : IsGemm g a b none y) (hz : NdArray.Binary (· + ·) y bias z)
    (hbias : Broadcasts bias.shape y.shape) :
    IsGemm { g with beta := .ofNat 1 } a b (some bias) z := by
  have hz := hz.of_broadcasts hbias
  obtain ⟨m, k, n, ha, hb, -, rfl⟩ := hg
  refine ⟨m, k, n, ha, hb, fun c hc => ?_, ?_⟩
  · obtain rfl := Option.some.inj hc
    exact hbias
  · rw [hz]
    refine NdArray.tabulate_congr fun idx hidx => ?_
    have hinside : Inside idx [m, n] := hidx
    rw [NdArray.get_tabulate hinside]
    simp

end Exact

namespace GemmAddFusion

/-- The closure that collects a `Gemm` and the `Add` that is the only reader of its output. -/
def plan (st : GraphState) (id : NodeId) : Except Stop (Option (NodeId × NodeId)) :=
  (orPanic (st.graph.node? id)).bind fun node =>
    match node.op.gemm? with
    | none => .ok none
    | some gemm =>
        if node.inputs[args.GEMM_C]?.isSome then
          -- the assertion on `beta`
          if gemm.beta == .ofNat 0 then .error .panic else .ok none
        else
          (orPanic node.outputs[0]?).bind fun output =>
            match st.maps.value2used output with
            | some [place] =>
                (orPanic (st.graph.node? place.1)).bind fun used =>
                  if used.op = .add then
                    (orPanic used.inputs[0]?.join).bind fun lhs =>
                      (orPanic used.inputs[1]?.join).bind fun rhs =>
                        if lhs = rhs then .ok none
                        else
                          (orPanic (st.graph.getResolvedTensorType lhs)).bind fun lhsTy =>
                            (orPanic (st.graph.getResolvedTensorType rhs)).bind fun rhsTy =>
                              match broadcastShape lhsTy.dims rhsTy.dims with
                              | .error _ => .ok none
                              | .ok _ => .ok (some (id, place.1))
                  else .ok none
            | _ => .ok none

/-- `add_another`. -/
def addAnother (addNode : Node) (gemmOutput : ValueId) : Except Stop ValueId :=
  (orPanic addNode.inputs[0]?.join).bind fun lhs =>
    if lhs = gemmOutput then orPanic addNode.inputs[1]?.join
    else (orPanic addNode.inputs[1]?.join).bind fun rhs =>
      if rhs = gemmOutput then .ok lhs else .error .panic

/-- The name of what the pass makes of a pair. -/
def pairName (what : String) (x : NodeId × NodeId) : String := s!"{what}_{x.1}_{x.2}"

/-- `c_value`: the bias, expanded to the dims of the product. -/
def expandBias (st : GraphState) (x : NodeId × NodeId) (bias : ValueId) (biasTy gemmTy : ResolvedTensorType) :
    ValueId × GraphState :=
  if gemmTy.dims ≠ biasTy.dims then
    st.registerOutput (pairName "GemmAddFusion_BiasCont" x) gemmTy (pairName "GemmAddFusion_BiasCont" x)
      [some bias] (.contiguous [.broadcast biasTy.dims gemmTy.dims])
  else (bias, st)

/-- The body of the second loop of `run`. -/
def apply (st : GraphState) (x : NodeId × NodeId) : Except Stop GraphState :=
  (orPanic (st.graph.node? x.1)).bind fun gemmNode =>
    (orPanic gemmNode.op.gemm?).bind fun gemm =>
      (orPanic (st.graph.node? x.2)).bind fun addNode =>
        -- the three assertions
        if gemmNode.inputs.length = 2 ∧ (gemm.beta == .ofNat 0) = true ∧ addNode.op = .add then
          (orPanic gemmNode.outputs[0]?).bind fun gemmOutput =>
            (addAnother addNode gemmOutput).bind fun bias =>
              (orPanic addNode.outputs[0]?).bind fun addOutput =>
                (orPanic (st.graph.getResolvedTensorType gemmOutput)).bind fun gemmTy =>
                  (orPanic (st.graph.getResolvedTensorType bias)).bind fun biasTy =>
                    let (c, st) := expandBias st x bias biasTy gemmTy
                    st.replaceByNode addOutput (pairName "GemmTransComposition_Output" x)
                      (pairName "GemmAddFusion" x)
                      [gemmNode.inputs[args.GEMM_A]?.join, gemmNode.inputs[args.GEMM_B]?.join, some c]
                      (.gemm { gemm with beta := .ofNat 1 })
        else .error .panic

/-- The pairs that `run` collects. -/
def plans (st : GraphState) : Except Stop (List (NodeId × NodeId)) :=
  ((gemms st.graph).mapM (plan st)).map List.reduceOption

/-- `run`. -/
def run (st : GraphState) : Except Stop GraphState := (plans st).bind fun l => l.foldlM apply st

variable {st st' st₀ : GraphState} {id : NodeId} {x : NodeId × NodeId} {v out : ValueId}
  {gemmTy biasTy : ResolvedTensorType} {c : Exact.GeLUConstants} {files : Onnx.Files} {ρ : ValueId → Exact.Arr}

/-! ### A pair -/

/-- The product and the values of a pair. -/
structure Pair where
  gemm : Gemm
  a : ValueId
  b : ValueId
  out : ValueId
  bias : ValueId
  sum : ValueId

/-- The nodes of a pair. -/
structure Planned (g : Graph) (x : NodeId × NodeId) (p : Pair) : Prop where
  gemm : ∃ node, g.node? x.1 = some node ∧ node.op = .gemm p.gemm ∧
    node.inputs = [some p.a, some p.b] ∧ node.outputs = [p.out]
  add : ∃ node, g.node? x.2 = some node ∧ node.op = .add ∧ node.outputs = [p.sum] ∧
    (node.inputs = [some p.out, some p.bias] ∨ node.inputs = [some p.bias, some p.out])
  ne : p.bias ≠ p.out

variable {p : Pair}

theorem addAnother_eq {node : Node} (hne : p.bias ≠ p.out)
    (h : node.inputs = [some p.out, some p.bias] ∨ node.inputs = [some p.bias, some p.out]) :
    addAnother node p.out = .ok p.bias := by
  unfold addAnother
  rcases h with h | h
  · rw [h]
    exact if_pos rfl
  · rw [h]
    show (if p.bias = p.out then _ else Except.bind _ _) = _
    rw [if_neg hne]
    exact if_pos rfl

/-- What a turn does to a pair. -/
theorem apply_eq (h : Planned st.graph x p) (hout : st.graph.getResolvedTensorType p.out = some gemmTy)
    (hbias : st.graph.getResolvedTensorType p.bias = some biasTy) :
    apply st x = if p.gemm.beta == .ofNat 0 then
      (expandBias st x p.bias biasTy gemmTy).2.replaceByNode p.sum
        (pairName "GemmTransComposition_Output" x) (pairName "GemmAddFusion" x)
        [some p.a, some p.b, some (expandBias st x p.bias biasTy gemmTy).1]
        (.gemm { p.gemm with beta := .ofNat 1 })
    else .error .panic := by
  obtain ⟨gemmNode, hgemm, hop, hins, houts⟩ := h.gemm
  obtain ⟨addNode, hadd, haop, hsum, hains⟩ := h.add
  unfold apply
  rw [hgemm, hadd]
  show (orPanic gemmNode.op.gemm?).bind _ = _
  rw [hop]
  show (if gemmNode.inputs.length = 2 ∧ (p.gemm.beta == .ofNat 0) = true ∧ addNode.op = .add then _ else _) = _
  rw [hins, haop]
  by_cases hbeta : (p.gemm.beta == .ofNat 0) = true
  · rw [if_pos ⟨rfl, hbeta, rfl⟩, if_pos hbeta, houts]
    show (addAnother addNode p.out).bind _ = _
    rw [addAnother_eq h.ne hains, hsum]
    show (orPanic (st.graph.getResolvedTensorType p.out)).bind _ = _
    rw [hout, hbias]
    rfl
  · rw [if_neg fun hand => hbeta hand.2.1, if_neg hbeta]

theorem expandBias_intact (hst : Intact st) (hv : v < st.graph.values.length) :
    Intact (expandBias st x v biasTy gemmTy).2 := by
  unfold expandBias
  split
  · refine registerOutput_intact hst fun w hw => ?_
    obtain rfl := Option.some.inj (List.mem_singleton.mp hw)
    exact hv
  · exact hst

theorem expandBias_carries (hst : CarriesOutputs st.graph) :
    CarriesOutputs (expandBias st x v biasTy gemmTy).2.graph := by
  unfold expandBias
  split
  · exact registerOutput_carries (fun _ h => Operator.noConfusion h) hst
  · exact hst

theorem expandBias_extended : Extended st.graph (expandBias st x v biasTy gemmTy).2.graph := by
  unfold expandBias
  split
  · exact registerOutput_extended _ _ _ _ _ _
  · exact (Rewired.refl _).extended

theorem expandBias_pairs {q : ValueId × Place} (hq : q ∈ inputPairs st.graph) :
    q ∈ inputPairs (expandBias st x v biasTy gemmTy).2.graph := by
  unfold expandBias
  split
  · exact registerOutput_pairs hq
  · exact hq

theorem expandBias_lt (hv : v < st.graph.values.length) :
    (expandBias st x v biasTy gemmTy).1 < (expandBias st x v biasTy gemmTy).2.graph.values.length := by
  unfold expandBias
  split
  · rw [registerOutput_fst, registerOutput_length]
    exact Nat.lt_succ_self _
  · exact hv

/-- The expanded bias is the bias broadcast to the product. -/
theorem expandBias_grown (hst : Intact st) (hbias : st.graph.getResolvedTensorType v = some biasTy)
    (hb : Broadcasts biasTy.dims gemmTy.dims) :
    Grown (exact c files) st (expandBias st x v biasTy gemmTy).2 fun ρ => (exact c files).Holds st.graph ρ ∧
      ρ (expandBias st x v biasTy gemmTy).1 = NdArray.expand (ρ v) gemmTy.dims := by
  have hshape (ρ : ValueId → Exact.Arr) (hρ : (exact c files).Holds st.graph ρ) : (ρ v).shape = biasTy.dims :=
    hρ.types v biasTy hbias
  unfold expandBias
  split
  · refine (Grown.refl hst).registerOutput (localTo_holds hst.inRange)
      (x := fun ρ => NdArray.expand (ρ v) gemmTy.dims) (fun ρ ρ' h => ?_) (fun w hw => ?_) fun ρ hρ _ => ?_
    · rw [h v (type_lt hbias)]
    · obtain rfl := Option.some.inj (List.mem_singleton.mp hw)
      exact type_lt hbias
    · refine ⟨rfl, _, _, rfl, rfl, ?_⟩
      rw [← hshape ρ hρ] at hb ⊢
      exact Exact.reinterprets_expand hb
  · rename_i heq
    refine (Grown.refl hst).mono fun ρ hρ => ⟨hρ, ?_⟩
    rw [not_not.mp heq, ← hshape ρ hρ, NdArray.expand_self]

theorem Planned.isGemm (h : Planned st.graph x p) (hρ : (exact c files).Holds st.graph ρ) :
    Exact.IsGemm p.gemm (ρ p.a) (ρ p.b) none (ρ p.out) := by
  obtain ⟨node, hnode, hop, hins, houts⟩ := h.gemm
  have hg := hρ.nodes _ _ hnode
  rw [hop, hins, houts] at hg
  obtain ⟨a, b, rest, y, hins, houts, hy⟩ := hg
  have hrest := Exact.third_eq hins
  obtain rfl := Exact.input_eq (k := 0) hins rfl rfl
  obtain rfl := Exact.input_eq (k := 1) hins rfl rfl
  obtain rfl := Exact.output_eq (k := 0) houts rfl
  rw [hrest] at hy
  exact hy

theorem Planned.isSum (h : Planned st.graph x p) (hρ : (exact c files).Holds st.graph ρ) :
    NdArray.Binary (· + ·) (ρ p.out) (ρ p.bias) (ρ p.sum) := by
  obtain ⟨node, hnode, hop, hsum, hins⟩ := h.add
  have hadd := hρ.nodes _ _ hnode
  rw [hop, hsum] at hadd
  rcases hins with hins | hins
  · rw [hins] at hadd
    exact hadd.of_inputs (k := 0) rfl rfl rfl
  · rw [hins] at hadd
    have hswapped := Exact.Two.of_inputs (k := 0) hadd rfl rfl rfl
    have hsymm := hswapped.symm
    simp only [add_comm] at hsymm ⊢
    exact hsymm

/-- A turn keeps the meaning if the bias broadcasts to the product. -/
theorem apply_keeps (hst : Intact st) (h : Planned st.graph x p)
    (hout : st.graph.getResolvedTensorType p.out = some gemmTy)
    (hbias : st.graph.getResolvedTensorType p.bias = some biasTy)
    (hb : Broadcasts biasTy.dims gemmTy.dims) (hok : apply st x = .ok st') : Keeps (exact c files) st st' := by
  rw [apply_eq h hout hbias] at hok
  split at hok
  · have hgrown : Grown (exact c files) st (expandBias st x p.bias biasTy gemmTy).2 _ :=
      expandBias_grown hst hbias hb
    refine (hgrown.replaceByNode hst ?_ (fun w hw => ?_) (fun ρ _ hP => ?_) hok).1
    · intro ρ ρ' hagree hP
      have hagree' : AgreeOn st.graph ρ ρ' := fun w hw => hagree w (Nat.lt_of_lt_of_le hw hgrown.length)
      refine ⟨hagree'.holds hst.inRange hP.1, ?_⟩
      rw [hagree _ (expandBias_lt (type_lt hbias)), hagree' _ (type_lt hbias)]
      exact hP.2
    · obtain ⟨gemmNode, hgemm, -, hins, -⟩ := h.gemm
      have hlt : ∀ w ∈ [p.a, p.b], w < st.graph.values.length := fun w hw =>
        hst.inRange.inputs _ _ hgemm w (by rw [hins]; simpa using hw)
      simp only [List.mem_cons, Option.some.injEq, List.not_mem_nil, or_false] at hw
      rcases hw with rfl | rfl | rfl
      · exact Nat.lt_of_lt_of_le (hlt _ (by simp)) hgrown.length
      · exact Nat.lt_of_lt_of_le (hlt _ (by simp)) hgrown.length
      · exact expandBias_lt (type_lt hbias)
    · obtain ⟨hρ, hc⟩ := hP
      have hshape : (ρ p.out).shape = gemmTy.dims := hρ.types _ _ hout
      have hbshape : (ρ p.bias).shape = biasTy.dims := hρ.types _ _ hbias
      rw [← hshape, ← hbshape] at hb
      refine ⟨_, _, [some _], _, rfl, rfl, (h.isGemm hρ).add_bias ?_ ?_⟩
      · rw [hc, ← hshape]
        exact (h.isSum hρ).expand_right hb
      · rw [hc, ← hshape]
        exact broadcastShape_eq_left.mp (broadcastShape_self _)
  · cases hok

/-! ### The search -/

/-- A graph as the loader and the inference of the types leave it. -/
structure Loaded (st : GraphState) : Prop where
  intact : Intact st
  defined : UniqueDefinitions st.graph
  carries : CarriesOutputs st.graph
  types : ∀ v < st.graph.values.length, ∃ ty, st.graph.getResolvedTensorType v = some ty
  gemm : ∀ id node g, st.graph.node? id = some node → node.op = .gemm g →
    ∃ a b rest out, node.inputs = some a :: some b :: rest ∧ node.outputs = [out]
  add : ∀ id node, st.graph.node? id = some node → node.op = .add →
    ∃ a b sum, node.inputs = [some a, some b] ∧ node.outputs = [sum]

theorem planned_of_plan (h : Loaded st) (hplan : plan st id = .ok (some x)) :
    x.1 = id ∧ ∃ p, Planned st.graph x p := by
  obtain ⟨node, hnode, hplan⟩ := orPanic_bind_eq_ok hplan
  split at hplan
  · cases hplan
  · rename_i g hg
    have hop := Operator.gemm?_eq_some.mp hg
    obtain ⟨a, b, rest, out, hins, houts⟩ := h.gemm id node g hnode hop
    split at hplan
    · split at hplan <;> cases hplan
    · rename_i hnone
      obtain ⟨output, houtput, hplan⟩ := orPanic_bind_eq_ok hplan
      rw [houts] at houtput
      obtain rfl := Option.some.inj houtput
      split at hplan
      · rename_i place hused
        obtain ⟨used, husednode, hplan⟩ := orPanic_bind_eq_ok hplan
        split at hplan
        · rename_i hadd
          obtain ⟨lhs, rhs, sum, hains, hsum⟩ := h.add _ _ husednode hadd
          rw [hains] at hplan
          obtain ⟨lhs', hlhs, hplan⟩ := orPanic_bind_eq_ok hplan
          obtain rfl := Option.some.inj hlhs
          obtain ⟨rhs', hrhs, hplan⟩ := orPanic_bind_eq_ok hplan
          obtain rfl := Option.some.inj hrhs
          split at hplan
          · cases hplan
          · rename_i hne
            obtain ⟨lhsTy, -, hplan⟩ := orPanic_bind_eq_ok hplan
            obtain ⟨rhsTy, -, hplan⟩ := orPanic_bind_eq_ok hplan
            split at hplan
            · cases hplan
            · obtain rfl := Option.some.inj (Except.ok.inj hplan)
              refine ⟨rfl, ?_⟩
              -- the only reader of the output is an operand of the sum
              have hmem : place ∈ places st.maps.value2used out := by
                rw [places, hused]
                exact List.mem_singleton.mpr rfl
              obtain ⟨used', hused', hget⟩ := ((consistent_iff.mp h.intact.consistent).1.mem out place).mp hmem
              obtain rfl := Option.some.inj (husednode.symm.trans hused')
              rw [hains] at hget
              have hrest : rest = [] := by
                rw [hins] at hnone
                cases rest with
                | nil => rfl
                | cons i rest => exact absurd rfl hnone
              rw [hrest] at hins
              change [some lhs, some rhs][place.2]? = some (some out) at hget
              obtain hslot | hslot : place.2 = 0 ∨ place.2 = 1 := by
                have hlt := (List.getElem?_eq_some_iff.mp hget).1
                simp only [List.length_cons, List.length_nil] at hlt
                omega
              · rw [hslot] at hget
                obtain rfl := Option.some.inj (Option.some.inj hget)
                exact ⟨⟨g, a, b, lhs, rhs, sum⟩, ⟨node, hnode, hop, hins, houts⟩,
                  ⟨used, husednode, hadd, hsum, .inl hains⟩, fun heq => hne heq.symm⟩
              · rw [hslot] at hget
                obtain rfl := Option.some.inj (Option.some.inj hget)
                exact ⟨⟨g, a, b, rhs, lhs, sum⟩, ⟨node, hnode, hop, hins, houts⟩,
                  ⟨used, husednode, hadd, hsum, .inr hains⟩, hne⟩
        · cases hplan
      · cases hplan

theorem plan_ok (h : Loaded st) (hid : id ∈ gemms st.graph)
    (hbeta : ∀ node g, st.graph.node? id = some node → node.op = .gemm g →
      (node.inputs[args.GEMM_C]?).isSome → (g.beta == .ofNat 0) = false) : ∃ o, plan st id = .ok o := by
  obtain ⟨node, g, hnode, hop⟩ := mem_gemms.mp hid
  obtain ⟨a, b, rest, out, hins, houts⟩ := h.gemm id node g hnode hop
  unfold plan
  rw [hnode, orPanic_some_bind, hop, Operator.gemm?]
  dsimp only
  split
  · rename_i hsome
    rw [hbeta node g hnode hop hsome]
    exact ⟨none, rfl⟩
  · rw [houts, List.getElem?_cons_zero, orPanic_some_bind]
    split
    · rename_i place hused
      have hmem : place ∈ places st.maps.value2used out := by
        rw [places, hused]
        exact List.mem_singleton.mpr rfl
      obtain ⟨used, hused', -⟩ := ((consistent_iff.mp h.intact.consistent).1.mem out place).mp hmem
      rw [hused', orPanic_some_bind]
      split
      · rename_i hadd
        obtain ⟨lhs, rhs, sum, hains, -⟩ := h.add _ _ hused' hadd
        obtain ⟨lhsTy, hlhs⟩ := h.types lhs (h.intact.inRange.inputs _ _ hused' lhs (by simp [hains]))
        obtain ⟨rhsTy, hrhs⟩ := h.types rhs (h.intact.inRange.inputs _ _ hused' rhs (by simp [hains]))
        rw [hains]
        simp only [List.getElem?_cons_zero, List.getElem?_cons_succ, Option.join_some, orPanic_some_bind,
          hlhs, hrhs]
        split
        · exact ⟨none, rfl⟩
        · split
          · exact ⟨none, rfl⟩
          · exact ⟨_, rfl⟩
      · exact ⟨none, rfl⟩
    · exact ⟨none, rfl⟩

/-! ### The turns -/

/-- The value is a sum. -/
def IsSum (g : Graph) (v : ValueId) : Prop :=
  ∃ id node, g.node? id = some node ∧ node.op = .add ∧ v ∈ node.outputs

/-- What the turns leave of the graph: a place reads what it read, or a new value of the type of a sum. -/
structure Follows (st₀ st : GraphState) : Prop where
  intact : Intact st
  carries : CarriesOutputs st.graph
  extended : Extended st₀.graph st.graph
  reads : ∀ v y, (v, y) ∈ inputPairs st₀.graph → ∃ w, (w, y) ∈ inputPairs st.graph ∧
    st.graph.getResolvedTensorType w = st₀.graph.getResolvedTensorType v ∧
      (w = v ∨ IsSum st₀.graph v ∧ st₀.graph.values.length ≤ w)

theorem Follows.refl (h : Loaded st) : Follows st st where
  intact := h.intact
  carries := h.carries
  extended := (Rewired.refl _).extended
  reads v _ hv := ⟨v, hv, rfl, .inl rfl⟩

/-- A node stays, with operands at its places. -/
theorem Follows.node (hf : Follows st₀ st) {node : Node} (hnode : st₀.graph.node? id = some node)
    (hop : ∀ v, node.op ≠ .output v) : ∃ node', st.graph.node? id = some node' ∧ node'.op = node.op ∧
      node'.outputs = node.outputs ∧ node'.inputs.length = node.inputs.length ∧
      ∀ (k : Nat) v, node.inputs[k]? = some (some v) → ∃ w, node'.inputs[k]? = some (some w) ∧
        st.graph.getResolvedTensorType w = st₀.graph.getResolvedTensorType v ∧
          (w = v ∨ IsSum st₀.graph v ∧ st₀.graph.values.length ≤ w) := by
  obtain ⟨node', hnode', houts, hlen, hsame⟩ := hf.extended.nodes id node hnode
  refine ⟨node', hnode', hsame.resolve_right fun ⟨v, _, hv, _⟩ => hop v hv, houts, hlen, fun k v hk => ?_⟩
  obtain ⟨w, ⟨node'', hnode'', hw⟩, hrest⟩ := hf.reads v (id, k) ⟨node, hnode, hk⟩
  obtain rfl := Option.some.inj (hnode'.symm.trans hnode'')
  exact ⟨w, hw, hrest⟩

/-- The output of a product is no sum. -/
theorem Planned.out_not_sum (h₀ : Loaded st₀) (h : Planned st₀.graph x p) : ¬IsSum st₀.graph p.out := by
  rintro ⟨id, node, hnode, hop, hmem⟩
  obtain ⟨gemmNode, hgemm, hgop, -, houts⟩ := h.gemm
  obtain ⟨k, hk⟩ := List.mem_iff_getElem?.mp hmem
  have heq := h₀.defined p.out (id, k) (x.1, 0) (mem_outputPairs.mpr ⟨node, hnode, hk⟩)
    (mem_outputPairs.mpr ⟨gemmNode, hgemm, by rw [houts]; rfl⟩)
  obtain ⟨rfl, -⟩ := Prod.mk.inj heq
  obtain rfl := Option.some.inj (hnode.symm.trans hgemm)
  rw [hop] at hgop
  cases hgop

theorem eq_pair {α : Type} {l : List α} {a b : α} (hlen : l.length = 2) (ha : l[0]? = some a)
    (hb : l[1]? = some b) : l = [a, b] := by
  obtain ⟨u, v, rfl⟩ := List.length_eq_two.mp hlen
  obtain rfl := Option.some.inj ha
  obtain rfl := Option.some.inj hb
  rfl

/-- A pair stays one, perhaps with another bias of the same type. -/
theorem Follows.planned (h₀ : Loaded st₀) (hf : Follows st₀ st) (h : Planned st₀.graph x p) :
    ∃ a b bias, Planned st.graph x { p with a := a, b := b, bias := bias } ∧
      st.graph.getResolvedTensorType bias = st₀.graph.getResolvedTensorType p.bias := by
  obtain ⟨gemmNode, hgemm, hgop, hgins, hgouts⟩ := h.gemm
  obtain ⟨addNode, hadd, haop, haouts, hains⟩ := h.add
  obtain ⟨gemmNode', hgemm', hgop', hgouts', hglen, hgreads⟩ := hf.node hgemm (by rw [hgop]; nofun)
  obtain ⟨addNode', hadd', haop', haouts', halen, hareads⟩ := hf.node hadd (by rw [haop]; nofun)
  obtain ⟨a, ha, -⟩ := hgreads 0 p.a (by rw [hgins]; rfl)
  obtain ⟨b, hb, -⟩ := hgreads 1 p.b (by rw [hgins]; rfl)
  -- the output of the product is read where it was, and another value where the bias was
  have hout : ∀ k : Nat, addNode.inputs[k]? = some (some p.out) → addNode'.inputs[k]? = some (some p.out) := by
    intro k hk
    obtain ⟨w, hw, -, rfl | ⟨hsum, -⟩⟩ := hareads k p.out hk
    · exact hw
    · exact absurd hsum (h.out_not_sum h₀)
  have hlt : p.out < st₀.graph.values.length :=
    h₀.intact.inRange.outputs _ _ hgemm p.out (by rw [hgouts]; exact List.mem_singleton.mpr rfl)
  have hbias : ∀ k : Nat, addNode.inputs[k]? = some (some p.bias) → ∃ w, addNode'.inputs[k]? = some (some w) ∧
      st.graph.getResolvedTensorType w = st₀.graph.getResolvedTensorType p.bias ∧ w ≠ p.out := by
    intro k hk
    obtain ⟨w, hw, hty, rfl | ⟨-, hle⟩⟩ := hareads k p.bias hk
    · exact ⟨p.bias, hw, hty, h.ne⟩
    · exact ⟨w, hw, hty, fun heq => absurd (heq ▸ hle) (Nat.not_le_of_lt hlt)⟩
  have hgemm'' : gemmNode'.inputs = [some a, some b] := eq_pair (by rw [hglen, hgins]; rfl) ha hb
  rcases hains with hains | hains
  · obtain ⟨w, hw, hty, hne⟩ := hbias 1 (by rw [hains]; rfl)
    refine ⟨a, b, w, ⟨⟨gemmNode', hgemm', hgop'.trans hgop, hgemm'', hgouts'.trans hgouts⟩,
      ⟨addNode', hadd', haop'.trans haop, haouts'.trans haouts, .inl ?_⟩, hne⟩, hty⟩
    exact eq_pair (by rw [halen, hains]; rfl) (hout 0 (by rw [hains]; rfl)) hw
  · obtain ⟨w, hw, hty, hne⟩ := hbias 0 (by rw [hains]; rfl)
    refine ⟨a, b, w, ⟨⟨gemmNode', hgemm', hgop'.trans hgop, hgemm'', hgouts'.trans hgouts⟩,
      ⟨addNode', hadd', haop'.trans haop, haouts'.trans haouts, .inr ?_⟩, hne⟩, hty⟩
    exact eq_pair (by rw [halen, hains]; rfl) hw (hout 1 (by rw [hains]; rfl))

/-- The types of the values of a pair. -/
theorem Planned.types (h₀ : Loaded st₀) (h : Planned st₀.graph x p) :
    ∃ gemmTy biasTy sumTy, st₀.graph.getResolvedTensorType p.out = some gemmTy ∧
      st₀.graph.getResolvedTensorType p.bias = some biasTy ∧
      st₀.graph.getResolvedTensorType p.sum = some sumTy := by
  obtain ⟨addNode, hadd, -, hsum, hins⟩ := h.add
  have hlt : ∀ v ∈ [p.out, p.bias], v < st₀.graph.values.length := fun v hv =>
    h₀.intact.inRange.inputs _ _ hadd v (by rcases hins with hins | hins <;> rw [hins] <;> simp_all [or_comm])
  obtain ⟨gemmTy, hgemm⟩ := h₀.types p.out (hlt _ (by simp))
  obtain ⟨biasTy, hbias⟩ := h₀.types p.bias (hlt _ (by simp))
  obtain ⟨sumTy, hsumTy⟩ := h₀.types p.sum
    (h₀.intact.inRange.outputs _ _ hadd p.sum (by rw [hsum]; exact List.mem_singleton.mpr rfl))
  exact ⟨gemmTy, biasTy, sumTy, hgemm, hbias, hsumTy⟩

/-- The inputs of the new product are in the graph. -/
theorem Planned.inputs_lt (hst : Intact st) (h : Planned st.graph x p)
    (hbias : st.graph.getResolvedTensorType p.bias = some biasTy) :
    ∀ v, some v ∈ [some p.a, some p.b, some (expandBias st x p.bias biasTy gemmTy).1] →
      v < (expandBias st x p.bias biasTy gemmTy).2.graph.values.length := by
  intro v hv
  obtain ⟨gemmNode, hgemm, -, hins, -⟩ := h.gemm
  have hlt : ∀ w ∈ [p.a, p.b], w < (expandBias st x p.bias biasTy gemmTy).2.graph.values.length :=
    fun w hw => Nat.lt_of_lt_of_le (hst.inRange.inputs _ _ hgemm w (by rw [hins]; simpa using hw))
      expandBias_extended.length
  simp only [List.mem_cons, Option.some.injEq, List.not_mem_nil, or_false] at hv
  rcases hv with rfl | rfl | rfl
  · exact hlt _ (by simp)
  · exact hlt _ (by simp)
  · exact expandBias_lt (type_lt hbias)

/-- A turn returns exactly if `beta` is 0, and the graph follows the first one still. -/
theorem Follows.apply (h₀ : Loaded st₀) (hf : Follows st₀ st) (h : Planned st₀.graph x p) :
    if p.gemm.beta == .ofNat 0 then ∃ st', apply st x = .ok st' ∧ Follows st₀ st'
    else apply st x = .error .panic := by
  obtain ⟨gemmTy, biasTy, sumTy, hgemm, hbias, hsum⟩ := h.types h₀
  obtain ⟨a, b, bias, hplanned, hty⟩ := hf.planned h₀ h
  have hgemm' := (hf.extended.type (type_lt hgemm)).trans hgemm
  have hsum' := (hf.extended.type (type_lt hsum)).trans hsum
  have hbias' := hty.trans hbias
  rw [apply_eq hplanned hgemm' hbias']
  split
  · have hintact : Intact (expandBias st x bias biasTy gemmTy).2 :=
      expandBias_intact hf.intact (type_lt hbias')
    have hext : Extended st.graph (expandBias st x bias biasTy gemmTy).2.graph := expandBias_extended
    obtain ⟨st', hok, hcarries⟩ := replaceByNode_ok hintact.consistent (expandBias_carries hf.carries)
      (show ∀ v, Operator.gemm { p.gemm with beta := .ofNat 1 } ≠ .output v from nofun) ((hext.type (type_lt hsum')).trans hsum')
    refine ⟨st', hok, ?_⟩
    obtain ⟨hext', hmoved⟩ := replaceByNode_spec hintact.consistent hok
    have hnew : st₀.graph.values.length ≤ (expandBias st x bias biasTy gemmTy).2.graph.values.length :=
      Nat.le_trans hf.extended.length hext.length
    refine ⟨(replaceByNode_intact hintact (hplanned.inputs_lt hf.intact hbias') hok).1, hcarries,
      (hf.extended.trans hext).trans hext', fun v y hv => ?_⟩
    obtain ⟨w, hw, hwty, hfrom⟩ := hf.reads v y hv
    have hlt := hf.intact.pair_lt hw
    obtain ⟨hpair, htype⟩ := hmoved w y (expandBias_pairs hw)
    refine ⟨_, hpair, (htype (Nat.lt_of_lt_of_le hlt hext.length)).trans ((hext.type hlt).trans hwty), ?_⟩
    unfold moved
    split
    · rename_i hwsum
      refine .inr ⟨?_, hnew⟩
      rcases hfrom with rfl | ⟨hissum, -⟩
      · obtain ⟨addNode, hadd, haop, houts, -⟩ := h.add
        exact ⟨_, addNode, hadd, haop, by rw [houts, hwsum]; exact List.mem_singleton.mpr rfl⟩
      · exact hissum
    · exact hfrom
  · rfl

/-! ### The run -/

/-- The bias of a pair broadcasts to the product. -/
def Unidirectional (g : Graph) (x : NodeId × NodeId) : Prop :=
  ∃ gemmNode addNode out bias gemmTy biasTy, g.node? x.1 = some gemmNode ∧ g.node? x.2 = some addNode ∧
    gemmNode.outputs = [out] ∧ addAnother addNode out = .ok bias ∧
    g.getResolvedTensorType out = some gemmTy ∧ g.getResolvedTensorType bias = some biasTy ∧
    Broadcasts biasTy.dims gemmTy.dims

theorem Planned.unidirectional_iff (h : Planned st.graph x p)
    (hout : st.graph.getResolvedTensorType p.out = some gemmTy)
    (hbias : st.graph.getResolvedTensorType p.bias = some biasTy) :
    Unidirectional st.graph x ↔ Broadcasts biasTy.dims gemmTy.dims := by
  obtain ⟨gemmNode, hgemm, -, -, houts⟩ := h.gemm
  obtain ⟨addNode, hadd, -, -, hins⟩ := h.add
  constructor
  · rintro ⟨gemmNode', addNode', out, bias, gemmTy', biasTy', hgemm', hadd', houts', hother, hty, hbty, hb⟩
    obtain rfl := Option.some.inj (hgemm.symm.trans hgemm')
    obtain rfl := Option.some.inj (hadd.symm.trans hadd')
    obtain rfl : p.out = out := (List.cons.inj (houts.symm.trans houts')).1
    obtain rfl := Except.ok.inj ((addAnother_eq h.ne hins).symm.trans hother)
    obtain rfl := Option.some.inj (hout.symm.trans hty)
    obtain rfl := Option.some.inj (hbias.symm.trans hbty)
    exact hb
  · exact fun hb => ⟨gemmNode, addNode, p.out, p.bias, gemmTy, biasTy, hgemm, hadd, houts,
      addAnother_eq h.ne hins, hout, hbias, hb⟩

/-- The pass returns, and every fusion has a bias that broadcasts to the product and keeps the meaning. -/
def Sound (M : Meaning Exact.Arr) (st : GraphState) : Prop :=
  ∃ l, plans st = .ok l ∧ (∃ st', l.foldlM apply st = .ok st') ∧
    ∀ t ∈ passTurns apply st l, Unidirectional t.1.graph t.2.1 ∧ Keeps M t.1 t.2.2

/-- `beta` is not 0 where the product has a place for a third operand, and it is 0 and the bias broadcasts
to the product where a sum is found. -/
structure Foldable (st : GraphState) : Prop where
  third : ∀ id node g, st.graph.node? id = some node → node.op = .gemm g →
    (node.inputs[args.GEMM_C]?).isSome → (g.beta == .ofNat 0) = false
  beta : ∀ id x node g, plan st id = .ok (some x) → st.graph.node? id = some node → node.op = .gemm g →
    (g.beta == .ofNat 0) = true
  bias : ∀ id x, plan st id = .ok (some x) → Unidirectional st.graph x

/-- The pairs that are collected. -/
theorem plans_spec (h : Loaded st) {l : List (NodeId × NodeId)} (hl : plans st = .ok l) :
    (∀ x ∈ l, plan st x.1 = .ok (some x)) ∧ ∀ id x, plan st id = .ok (some x) → x ∈ l := by
  unfold plans at hl
  rw [map_eq_ok] at hl
  obtain ⟨os, hos, rfl⟩ := hl
  constructor
  · intro x hx
    obtain ⟨id, -, hid⟩ := mapM_eq_ok_mem hos (some x) (List.reduceOption_mem_iff.mp hx)
    rw [(planned_of_plan h hid).1]
    exact hid
  · intro id x hid
    obtain ⟨hx, p, hp⟩ := planned_of_plan h hid
    obtain ⟨node, hnode, hop, -⟩ := hp.gemm
    rw [hx] at hnode
    obtain ⟨o, ho, hplan⟩ := mapM_eq_ok_of_mem hos id (mem_gemms.mpr ⟨node, p.gemm, hnode, hop⟩)
    obtain rfl := Except.ok.inj (hid.symm.trans hplan)
    exact List.reduceOption_mem_iff.mpr ho

/-- The search at a product with a place for a third operand. -/
theorem plan_third {node : Node} {g : Gemm} (hnode : st.graph.node? id = some node) (hop : node.op = .gemm g)
    (hthird : (node.inputs[args.GEMM_C]?).isSome) :
    plan st id = if g.beta == .ofNat 0 then .error .panic else .ok none := by
  unfold plan
  rw [hnode, orPanic_some_bind, hop, Operator.gemm?]
  exact if_pos hthird

/-- The graph follows the first one before every turn. -/
theorem turns_follow (h : Loaded st) {l : List (NodeId × NodeId)} (hl : plans st = .ok l) :
    ∀ t ∈ passTurns apply st l, Follows st t.1 ∧ t.2.1 ∈ l ∧ apply t.1 t.2.1 = .ok t.2.2 := by
  refine passTurns_induct (fun st₁ x st₂ hf hx hok => ?_) (.refl h)
  obtain ⟨-, p, hp⟩ := planned_of_plan h ((plans_spec h hl).1 x hx)
  have hturn := hf.apply h hp
  split at hturn
  · obtain ⟨st', hst', hfollows⟩ := hturn
    obtain rfl := Except.ok.inj (hok.symm.trans hst')
    exact hfollows
  · cases hok.symm.trans hturn

/-- The pass is sound exactly for the graphs whose sums can be folded. -/
theorem gemmAddFusion_sound_iff (h : Loaded st) : Sound (exact c files) st ↔ Foldable st := by
  constructor
  · rintro ⟨l, hl, ⟨st', hrun⟩, hturns⟩
    obtain ⟨hplan, hmem⟩ := plans_spec h hl
    -- the turn of a pair
    have hturn : ∀ id x, plan st id = .ok (some x) → ∃ p, Planned st.graph x p ∧ x.1 = id ∧
        (p.gemm.beta == .ofNat 0) = true ∧ Unidirectional st.graph x := by
      intro id x hx
      obtain ⟨hid, p, hp⟩ := planned_of_plan h hx
      obtain ⟨t, ht, rfl⟩ := exists_turn hrun x (hmem id x hx)
      obtain ⟨hf, -, hok⟩ := turns_follow h hl t ht
      have happly := hf.apply h hp
      split at happly
      · rename_i hbeta
        refine ⟨p, hp, hid, hbeta, ?_⟩
        obtain ⟨gemmTy, biasTy, sumTy, hgemm, hbias, -⟩ := hp.types h
        obtain ⟨a, b, bias, hplanned, hty⟩ := hf.planned h hp
        rw [hp.unidirectional_iff hgemm hbias, ← hplanned.unidirectional_iff
          ((hf.extended.type (type_lt hgemm)).trans hgemm) (hty.trans hbias)]
        exact (hturns t ht).1
      · cases hok.symm.trans happly
    refine ⟨fun id node g hnode hop hsome => ?_, fun id x node g hx hnode hop => ?_, fun id x hx => ?_⟩
    · unfold plans at hl
      obtain ⟨os, hos, -⟩ := map_eq_ok.mp hl
      obtain ⟨o, -, ho⟩ := mapM_eq_ok_of_mem hos id (mem_gemms.mpr ⟨node, g, hnode, hop⟩)
      rw [plan_third hnode hop hsome] at ho
      split at ho
      · cases ho
      · rename_i hbeta
        exact Bool.eq_false_of_not_eq_true hbeta
    · obtain ⟨p, hp, rfl, hbeta, -⟩ := hturn id x hx
      obtain ⟨node', hnode', hop', -⟩ := hp.gemm
      obtain rfl := Option.some.inj (hnode.symm.trans hnode')
      obtain rfl := Operator.gemm.inj (hop.symm.trans hop')
      exact hbeta
    · obtain ⟨p, hp, rfl, -, huni⟩ := hturn id x hx
      exact huni
  · intro hfold
    obtain ⟨os, hos⟩ : ∃ os, (gemms st.graph).mapM (plan st) = .ok os := by
      have hall : ∀ id ∈ gemms st.graph, ∃ o, plan st id = .ok o := fun id hid =>
        plan_ok h hid fun node g hnode hop => hfold.third id node g hnode hop
      choose! o ho using hall
      exact ⟨_, mapM_ok ho⟩
    have hl : plans st = .ok os.reduceOption := by
      unfold plans
      rw [hos]
      rfl
    obtain ⟨hplan, -⟩ := plans_spec h hl
    -- what the condition says of a pair
    have hpair : ∀ x ∈ os.reduceOption, ∃ p, Planned st.graph x p ∧ (p.gemm.beta == .ofNat 0) = true ∧
        Unidirectional st.graph x := by
      intro x hx
      obtain ⟨-, p, hp⟩ := planned_of_plan h (hplan x hx)
      obtain ⟨node, hnode, hop, -⟩ := hp.gemm
      exact ⟨p, hp, hfold.beta _ _ node p.gemm (hplan x hx) hnode hop, hfold.bias _ _ (hplan x hx)⟩
    refine ⟨_, hl, ?_, fun t ht => ?_⟩
    · obtain ⟨st', hrun, -⟩ := run_of_turns (I := Follows st) (fun st₁ x hf hx => by
        obtain ⟨p, hp, hbeta, -⟩ := hpair x hx
        have happly := hf.apply h hp
        rwa [if_pos hbeta] at happly) (.refl h)
      exact ⟨st', hrun⟩
    · obtain ⟨hf, hx, hok⟩ := turns_follow h hl t ht
      obtain ⟨p, hp, -, huni⟩ := hpair _ hx
      obtain ⟨gemmTy, biasTy, sumTy, hgemm, hbias, -⟩ := hp.types h
      obtain ⟨a, b, bias, hplanned, hty⟩ := hf.planned h hp
      have hgemm' := (hf.extended.type (type_lt hgemm)).trans hgemm
      have hb := (hp.unidirectional_iff hgemm hbias).mp huni
      exact ⟨(hplanned.unidirectional_iff hgemm' (hty.trans hbias)).mpr hb,
        apply_keeps hf.intact hplanned hgemm' (hty.trans hbias) hb hok⟩

/-- The sum of a product of square matrices and a bias. -/
def sumGraph (g : Gemm) : Graph where
  nodes :=
    [{ inputs := [], outputs := [0], name := "x", op := .input 0, markAsDeleted := false },
      { inputs := [], outputs := [1], name := "y", op := .input 1, markAsDeleted := false },
      { inputs := [], outputs := [2], name := "b", op := .input 2, markAsDeleted := false },
      { inputs := [some 0, some 1], outputs := [3], name := "p", op := .gemm g, markAsDeleted := false },
      { inputs := [some 3, some 2], outputs := [4], name := "z", op := .add, markAsDeleted := false },
      { inputs := [some 4], outputs := [], name := "z", op := .output 4, markAsDeleted := false }]
  inputs := [0, 1, 2]
  outputs := [5]
  values :=
    [{ name := "x", ty := some (.resolved (.new (.float .F32) [2, 2])) },
      { name := "y", ty := some (.resolved (.new (.float .F32) [2, 2])) },
      { name := "b", ty := some (.resolved (.new (.float .F32) [2])) },
      { name := "p", ty := some (.resolved (.new (.float .F32) [2, 2])) },
      { name := "z", ty := some (.resolved (.new (.float .F32) [2, 2])) }]
  initializer := fun _ => none
  externalRefs := fun _ => none

theorem sumGraph_lt {g : Gemm} {node : Node} (h : (sumGraph g).node? id = some node) : id < 6 :=
  (List.getElem?_eq_some_iff.mp (node?_eq_some.mp h).1).1

theorem sumGraph_loaded (g : Gemm) : Loaded (.new (sumGraph g)) where
  intact := intact_new rfl (fun _ _ h => by cases h) fun _ _ h => by cases h
  defined := by
    intro v x y hx hy
    have hpairs : outputPairs (GraphState.new (sumGraph g)).graph =
        [(0, (0, 0)), (1, (1, 0)), (2, (2, 0)), (3, (3, 0)), (4, (4, 0))] := rfl
    rw [hpairs] at hx hy
    simp only [List.mem_cons, Prod.mk.injEq, List.not_mem_nil, or_false] at hx hy
    rcases hx with ⟨rfl, rfl⟩ | ⟨rfl, rfl⟩ | ⟨rfl, rfl⟩ | ⟨rfl, rfl⟩ | ⟨rfl, rfl⟩ <;>
      simpa [eq_comm] using hy
  carries := by
    intro id node v hnode hop
    have hlt := sumGraph_lt hnode
    interval_cases id <;> obtain rfl := Option.some.inj hnode <;> cases hop
    rfl
  types := by
    intro v hv
    change v < 5 at hv
    interval_cases v <;> exact ⟨_, rfl⟩
  gemm := by
    intro id node g' hnode hop
    have hlt := sumGraph_lt hnode
    interval_cases id <;> obtain rfl := Option.some.inj hnode <;> cases hop
    exact ⟨0, 1, [], 3, rfl, rfl⟩
  add := by
    intro id node hnode hop
    have hlt := sumGraph_lt hnode
    interval_cases id <;> obtain rfl := Option.some.inj hnode <;> cases hop
    exact ⟨3, 2, 4, rfl, rfl⟩

/-- A product whose `beta` is 0 is fused. -/
theorem sumGraph_sound : Sound (exact ⟨0, 0, 0, 0⟩ fun _ => none) (.new (sumGraph ⟨.ofNat 1, .ofNat 0, false, false⟩)) := by
  refine (gemmAddFusion_sound_iff (sumGraph_loaded _)).mpr ⟨?_, ?_, ?_⟩
  · intro id node g hnode hop hsome
    have hlt := sumGraph_lt hnode
    interval_cases id <;> obtain rfl := Option.some.inj hnode <;> cases hop
    cases hsome
  · intro id x node g _ hnode hop
    have hlt := sumGraph_lt hnode
    interval_cases id <;> obtain rfl := Option.some.inj hnode <;> cases hop
    decide
  · intro id x hplan
    obtain ⟨rfl, p, hp⟩ := planned_of_plan (sumGraph_loaded _) hplan
    obtain ⟨node, hnode, hop, -⟩ := hp.gemm
    have hlt := sumGraph_lt hnode
    obtain ⟨id, addId⟩ := x
    dsimp only at hnode hlt hplan
    interval_cases id <;> obtain rfl := Option.some.inj hnode <;> try cases hop
    obtain rfl := (Prod.mk.inj (Option.some.inj (Except.ok.inj hplan))).2
    exact ⟨_, _, 3, 2, _, _, rfl, rfl, rfl, rfl, rfl, rfl, by decide⟩

/-- The loader gives a product without attributes a `beta` of 1, and the pass panics. -/
theorem sumGraph_not_sound : ∃ g, Onnx.loadGemm (fun _ => none) = .ok g ∧ Loaded (.new (sumGraph g)) ∧
    run (.new (sumGraph g)) = .error .panic ∧ ¬Sound (exact ⟨0, 0, 0, 0⟩ fun _ => none) (.new (sumGraph g)) := by
  have hpanic : run (.new (sumGraph ⟨F32.asF64 Onnx.F32Const.one, F32.asF64 Onnx.F32Const.one, false, false⟩)) =
      .error .panic := rfl
  refine ⟨⟨F32.asF64 Onnx.F32Const.one, F32.asF64 Onnx.F32Const.one, false, false⟩, rfl, sumGraph_loaded _,
    hpanic, ?_⟩
  rintro ⟨l, hl, ⟨st', hrun⟩, -⟩
  rw [run, hl] at hpanic
  cases hpanic.symm.trans hrun

end GemmAddFusion
end NnEngine
