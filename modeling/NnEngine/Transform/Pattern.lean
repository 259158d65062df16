import NnEngine.Graph.Meaning

/-!
# Patterns

`src/transform/pattern.rs`, and what the fusions share: a match, which finds nothing, finds something or
panics, and the replacement of a value by the output of a new node.
-/

namespace NnEngine

open DepthFirst InverseIndex SimpleGraphOp GraphState

@[simp] theorem orPanic_eq_ok {α : Type} {o : Option α} {a : α} : orPanic o = .ok a ↔ o = some a := by
  cases o with
  | none => exact ⟨nofun, nofun⟩
  | some b => exact ⟨fun h => congrArg some (Except.ok.inj h), fun h => congrArg orPanic h⟩

attribute [simp] orPanic_some_bind

/-- A search that may panic. -/
abbrev Match := OptionT (Except Stop)

namespace Match

variable {α β : Type}

/-- `unwrap`, an index or an assertion. -/
def unwrap (o : Option α) : Match α := OptionT.lift (orPanic o)

/-- `?`. -/
def ofOption (o : Option α) : Match α := OptionT.mk (.ok o)

/-- `return None` unless the condition holds. -/
def check (b : Bool) : Match Unit := ofOption (if b then some () else none)

/-- The search finds this. -/
def Finds (m : Match α) (a : α) : Prop := m.run = .ok (some a)

@[simp] theorem finds_pure {a b : α} : (pure a : Match α).Finds b ↔ a = b := by
  simp [Finds, pure_eq_ok]

theorem finds_bind {m : Match α} {f : α → Match β} {b : β} :
    (m >>= f).Finds b ↔ ∃ a, m.Finds a ∧ (f a).Finds b := by
  unfold Finds
  rw [OptionT.run_bind, Option.elimM, do_eq_ok]
  constructor
  · rintro ⟨o, hm, hf⟩
    cases o with
    | none => cases hf
    | some a => exact ⟨a, hm, hf⟩
  · rintro ⟨a, hm, hf⟩
    exact ⟨some a, hm, hf⟩

@[simp] theorem finds_ofOption {o : Option α} {a : α} : (ofOption o).Finds a ↔ o = some a := by
  simp [Finds, ofOption]

@[simp] theorem finds_unwrap {o : Option α} {a : α} : (unwrap o).Finds a ↔ o = some a := by
  cases o <;> simp [Finds, unwrap, orPanic]

@[simp] theorem finds_check {b : Bool} {u : Unit} : (check b).Finds u ↔ b = true := by
  cases b <;> simp [Finds, check, ofOption]

end Match

/-- `inputs[i]?`. -/
def inputAt (node : Node) (i : Nat) : Match ValueId := do
  let v ← Match.unwrap node.inputs[i]?
  Match.ofOption v

theorem finds_inputAt {node : Node} {i : Nat} {v : ValueId} :
    (inputAt node i).Finds v ↔ node.inputs[i]? = some (some v) := by
  unfold inputAt
  rw [Match.finds_bind]
  simp

/-- `defined_node` gives a node of the graph that has the value as an output. -/
theorem defined_output {st : GraphState} (hst : Consistent st) {v : ValueId} {x : Place}
    (h : st.maps.value2defined v = some x) :
    ∃ node, st.graph.node? x.1 = some node ∧ node.outputs[x.2]? = some v := by
  obtain ⟨-, hlast, -⟩ := consistent_iff.mp hst
  rw [hlast] at h
  exact mem_outputPairs.mp (lastOf_mem h)

/-- `extract_other_binary_input`. -/
def extractOtherBinaryInput (node : Node) (known : ValueId) : Except Stop (Option ValueId) :=
  match node.inputs with
  | [a, b] =>
      (orPanic a).bind fun a =>
        if a = known then (orPanic b).map some
        else (orPanic b).map fun b => if b = known then some a else none
  | _ => .ok none

theorem extractOtherBinaryInput_eq {node : Node} {known other : ValueId}
    (h : extractOtherBinaryInput node known = .ok (some other)) :
    node.inputs = [some known, some other] ∨ node.inputs = [some other, some known] := by
  unfold extractOtherBinaryInput at h
  split at h
  · rename_i a b hins
    rw [bind_eq_ok] at h
    obtain ⟨a', ha, h⟩ := h
    cases a with
    | none => cases ha
    | some a =>
        obtain rfl := Except.ok.inj ha
        cases b with
        | none => split at h <;> cases h
        | some b =>
            split at h
            · rename_i hknown
              obtain rfl := Option.some.inj (Except.ok.inj h)
              exact .inl (by rw [hins, hknown])
            · have hb : (if b = known then some a else none) = some other := Except.ok.inj h
              split at hb
              · rename_i hknown
                obtain rfl := Option.some.inj hb
                exact .inr (by rw [hins, hknown])
              · cases hb
  · cases h

/-- `&&` of conditions that may panic: the right one is not evaluated if the left one fails. -/
def andAlso (a b : Except Stop Bool) : Except Stop Bool := a.bind fun holds => if holds then b else .ok false

@[simp] theorem andAlso_eq_ok {a b : Except Stop Bool} : andAlso a b = .ok true ↔ a = .ok true ∧ b = .ok true := by
  unfold andAlso
  rw [bind_eq_ok]
  constructor
  · rintro ⟨_ | _, ha, hb⟩
    · cases hb
    · exact ⟨ha, hb⟩
  · exact fun ⟨ha, hb⟩ => ⟨true, ha, hb⟩

/-- `node.inputs[i].unwrap() == v`. -/
def readsAt (node : Node) (i : Nat) (v : ValueId) : Except Stop Bool :=
  (orPanic node.inputs[i]?.join).map (· == v)

@[simp] theorem readsAt_eq_ok {node : Node} {i : Nat} {v : ValueId} :
    readsAt node i v = .ok true ↔ node.inputs[i]? = some (some v) := by
  unfold readsAt
  rw [← Option.join_eq_some_iff]
  cases node.inputs[i]?.join <;> simp [orPanic, Except.map]

/-- A node of a commutative operator with another operand for which this holds. -/
def isBinaryWith (op : Operator) (p : ValueId → Bool) (node : Node) (known : ValueId) : Except Stop Bool :=
  andAlso (.ok (node.op == op)) ((extractOtherBinaryInput node known).map fun other => other.any p)

theorem isBinaryWith_eq_ok {op : Operator} {p : ValueId → Bool} {node : Node} {known : ValueId}
    (h : isBinaryWith op p node known = .ok true) :
    node.op = op ∧ ∃ v, extractOtherBinaryInput node known = .ok (some v) ∧ p v = true := by
  obtain ⟨hop, hother⟩ := andAlso_eq_ok.mp h
  obtain ⟨o, ho, hany⟩ := map_eq_ok.mp hother
  obtain ⟨v, rfl, hv⟩ := (Option.any_eq_true ..).mp hany
  exact ⟨beq_iff_eq.mp (Except.ok.inj hop), v, ho, hv⟩

structure PatternMatcher where
  currentValue : ValueId
  lastNode : NodeId
  deriving DecidableEq, Repr

namespace PatternMatcher

/-- `new`. -/
def new (st : GraphState) (id : NodeId) (idx : Nat) : Match PatternMatcher := do
  let node ← Match.unwrap (st.graph.node? id)
  let out ← Match.unwrap node.outputs[idx]?
  pure { currentValue := out, lastNode := id }

/-- The loop of `try_then` over the users. -/
def tryUsers (st : GraphState) (pred : Node → Except Stop Bool) :
    List Place → Except Stop (Option PatternMatcher)
  | [] => .ok none
  | x :: users =>
      (orPanic (st.graph.node? x.1)).bind fun node =>
        (pred node).bind fun b =>
          if b then (orPanic node.outputs[0]?).map fun out => some { currentValue := out, lastNode := x.1 }
          else tryUsers st pred users

/-- `try_then`: the first user of the value that satisfies the predicate. -/
def tryThen (st : GraphState) (m : PatternMatcher) (pred : Node → ValueId → Except Stop Bool) :
    Except Stop (Option PatternMatcher) :=
  tryUsers st (fun node => pred node m.currentValue) (places st.maps.value2used m.currentValue)

/-- `then`. -/
def andThen (st : GraphState) (m : PatternMatcher) (pred : Node → ValueId → Except Stop Bool) :
    Match PatternMatcher := OptionT.mk (tryThen st m pred)

/-- `try_then`, and the matcher as it was if there is no such user. -/
def orStay (st : GraphState) (m : PatternMatcher) (pred : Node → ValueId → Except Stop Bool) :
    Match PatternMatcher := OptionT.mk ((tryThen st m pred).map fun m' => some (m'.getD m))

/-- The last node of a matcher, which defines its value. -/
def At (g : Graph) (m : PatternMatcher) (node : Node) : Prop :=
  g.node? m.lastNode = some node ∧ node.outputs[0]? = some m.currentValue

/-- A user of the value of a matcher at which a predicate holds. -/
def Next (g : Graph) (pred : Node → ValueId → Except Stop Bool) (m m' : PatternMatcher) (node : Node) :
    Prop :=
  m'.At g node ∧ some m.currentValue ∈ node.inputs ∧ pred node m.currentValue = .ok true

variable {st : GraphState} {m m' : PatternMatcher} {pred : Node → ValueId → Except Stop Bool}

theorem tryUsers_spec {pred : Node → Except Stop Bool} : ∀ (users : List Place),
    tryUsers st pred users = .ok (some m') →
      ∃ x ∈ users, ∃ node, m'.lastNode = x.1 ∧ m'.At st.graph node ∧ pred node = .ok true := by
  intro users
  induction users with
  | nil => nofun
  | cons x users ih =>
      intro h
      obtain ⟨node, hnode, h⟩ := orPanic_bind_eq_ok h
      rw [bind_eq_ok] at h
      obtain ⟨b, hb, h⟩ := h
      cases b with
      | true =>
          obtain ⟨out, hout, rfl⟩ := (orPanic_map_eq_ok h).imp fun _ h => h.imp_right Option.some.inj
          exact ⟨x, List.mem_cons_self, node, rfl, ⟨hnode, hout⟩, hb⟩
      | false =>
          obtain ⟨y, hy, rest⟩ := ih h
          exact ⟨y, List.mem_cons_of_mem x hy, rest⟩

theorem tryThen_spec (hst : Consistent st) (h : tryThen st m pred = .ok (some m')) :
    ∃ node, Next st.graph pred m m' node := by
  obtain ⟨hindex, -, -⟩ := consistent_iff.mp hst
  obtain ⟨x, hx, node, hlast, hat, hpred⟩ := tryUsers_spec _ h
  obtain ⟨node', hnode', hget⟩ := (hindex.mem _ x).mp hx
  rw [← hlast] at hnode'
  obtain rfl := Option.some.inj (hat.1.symm.trans hnode')
  exact ⟨node, hat, List.mem_of_getElem? hget, hpred⟩

theorem finds_andThen (hst : Consistent st) (h : (andThen st m pred).Finds m') :
    ∃ node, Next st.graph pred m m' node := tryThen_spec hst h

theorem finds_orStay (hst : Consistent st) (h : (orStay st m pred).Finds m') :
    m' = m ∨ ∃ node, Next st.graph pred m m' node := by
  change (tryThen st m pred).map _ = .ok (some m') at h
  rw [map_eq_ok] at h
  obtain ⟨o, ho, hm'⟩ := h
  cases o with
  | none => exact .inl (Option.some.inj hm').symm
  | some m₁ =>
      obtain rfl := Option.some.inj hm'
      exact .inr (tryThen_spec hst ho)

theorem finds_new {id : NodeId} {idx : Nat} (h : (new st id idx).Finds m) :
    ∃ node, st.graph.node? id = some node ∧ node.outputs[idx]? = some m.currentValue ∧ m.lastNode = id := by
  unfold new at h
  simp only [Match.finds_bind, Match.finds_unwrap, Match.finds_pure] at h
  obtain ⟨node, hnode, out, hout, rfl⟩ := h
  exact ⟨node, hnode, hout, rfl⟩

end PatternMatcher

/-- The parameters of a `Gemm`. -/
def Operator.gemm? : Operator → Option Gemm
  | .gemm g => some g
  | _ => none

theorem Operator.gemm?_eq_some {op : Operator} {g : Gemm} : op.gemm? = some g ↔ op = .gemm g := by
  unfold gemm?
  split <;> simp_all

/-- The `Gemm` nodes of a graph. -/
def gemms (g : Graph) : List NodeId := (g.iter.filter fun x => x.2.op.gemm?.isSome).map Prod.fst

theorem mem_gemms {g : Graph} {id : NodeId} :
    id ∈ gemms g ↔ ∃ node gm, g.node? id = some node ∧ node.op = .gemm gm := by
  unfold gemms
  simp only [List.mem_map, List.mem_filter, Option.isSome_iff_exists, Operator.gemm?_eq_some]
  constructor
  · rintro ⟨x, ⟨hx, gm, hgm⟩, rfl⟩
    exact ⟨x.2, gm, mem_iter.mp hx, hgm⟩
  · rintro ⟨node, gm, hnode, hgm⟩
    exact ⟨(id, node), ⟨mem_iter.mpr hnode, gm, hgm⟩, rfl⟩

/-- The text of an id in a name. -/
def debugId (id : Nat) : String := "Id \x7b idx: " ++ toString id ++ " \x7d"

/-! ### Replacing a value by a new node -/

/-- `register_new_value` and `register_new_node` for a node with one output. -/
def GraphState.registerOutput (st : GraphState) (valueName : String) (ty : ResolvedTensorType)
    (nodeName : String) (inputs : List (Option ValueId)) (op : Operator) : ValueId × GraphState :=
  let (new, st) := st.registerNewValue valueName ty
  (new, st.registerNewNode { inputs, outputs := [new], name := nodeName, op, markAsDeleted := false })

/-- The steps that end most fusions: a new value of the type of the old one, a new node for it, and
`replace_input_value`. -/
def GraphState.replaceByNode (st : GraphState) (old : ValueId) (valueName nodeName : String)
    (inputs : List (Option ValueId)) (op : Operator) : Except Stop GraphState :=
  (orPanic (st.graph.getResolvedTensorType old)).bind fun ty =>
    let (new, st) := st.registerOutput valueName ty nodeName inputs op
    st.replaceInputValueIf old new fun _ _ => true

variable {α : Type} {M : Meaning α} {st st' st₁ : GraphState} {P : (ValueId → α) → Prop} {old : ValueId}
  {ty : ResolvedTensorType} {valueName nodeName : String} {inputs : List (Option ValueId)} {op : Operator}

@[simp] theorem registerOutput_fst :
    (st.registerOutput valueName ty nodeName inputs op).1 = st.graph.values.length := rfl

@[simp] theorem registerOutput_length :
    (st.registerOutput valueName ty nodeName inputs op).2.graph.values.length =
      st.graph.values.length + 1 := by
  simp [registerOutput, registerNewValue, registerNewNode]

theorem Grown.registerOutput (h : Grown M st st₁ P) (hP : LocalTo st₁.graph P) {x : (ValueId → α) → α}
    (hlocal : ∀ ρ ρ', AgreeOn st₁.graph ρ ρ' → x ρ' = x ρ)
    (hin : ∀ v, some v ∈ inputs → v < st₁.graph.values.length)
    (hop : ∀ ρ, M.Holds st₁.graph ρ → P ρ →
      M.hasType ty (x ρ) ∧ M.op op (inputs.map (Option.map ρ)) [x ρ]) :
    Grown M st (st₁.registerOutput valueName ty nodeName inputs op).2 fun ρ =>
      P ρ ∧ ρ st₁.graph.values.length = x ρ :=
  h.newOutput hP hlocal rfl rfl hin hop

/-- The replacement keeps the meaning if the new node computes the old value. -/
theorem Grown.replaceByNode (hst : Intact st) (h : Grown M st st₁ P) (hP : LocalTo st₁.graph P)
    (hin : ∀ v, some v ∈ inputs → v < st₁.graph.values.length)
    (hop : ∀ ρ, M.Holds st₁.graph ρ → P ρ → M.op op (inputs.map (Option.map ρ)) [ρ old])
    (hok : st₁.replaceByNode old valueName nodeName inputs op = .ok st') :
    Keeps M st st' ∧ Intact st' ∧ st.graph.values.length ≤ st'.graph.values.length := by
  obtain ⟨ty, hty, hok⟩ := orPanic_bind_eq_ok hok
  have hgrown : Grown M st (st₁.registerOutput valueName ty nodeName inputs op).2 fun ρ =>
      P ρ ∧ ρ st₁.graph.values.length = ρ old := h.registerOutput hP (fun ρ ρ' hρ => hρ old (type_lt hty)) hin
    fun ρ hρ hPρ => ⟨hρ.types old ty hty, hop ρ hρ hPρ⟩
  refine hgrown.replace hst (fun ρ hPρ => hPρ.2) ?_ hok
  rw [registerOutput_length]
  exact Nat.lt_succ_self _

theorem keeps_replaceByNode (hst : Intact st) (hin : ∀ v, some v ∈ inputs → v < st.graph.values.length)
    (hop : ∀ ρ, M.Holds st.graph ρ → M.op op (inputs.map (Option.map ρ)) [ρ old])
    (hok : st.replaceByNode old valueName nodeName inputs op = .ok st') :
    Keeps M st st' ∧ Intact st' ∧ st.graph.values.length ≤ st'.graph.values.length :=
  (Grown.refl hst).replaceByNode hst (localTo_holds hst.inRange) hin (fun ρ hρ _ => hop ρ hρ) hok

theorem replaceByNode_intact (hst : Intact st)
    (hin : ∀ v, some v ∈ inputs → v < st.graph.values.length)
    (hok : st.replaceByNode old valueName nodeName inputs op = .ok st') :
    Intact st' ∧ st.graph.values.length ≤ st'.graph.values.length :=
  (keeps_replaceByNode (M := .any) hst hin (fun _ _ => trivial) hok).2

theorem registerOutput_intact (hst : Intact st) (hin : ∀ v, some v ∈ inputs → v < st.graph.values.length) :
    Intact (st.registerOutput valueName ty nodeName inputs op).2 :=
  ((Grown.refl (M := .any) hst).registerOutput (localTo_holds hst.inRange) (x := fun _ => ())
    (fun _ _ _ => rfl) hin fun _ _ _ => ⟨trivial, trivial⟩).intact

theorem registerOutput_consistent (hst : Consistent st) :
    Consistent (st.registerOutput valueName ty nodeName inputs op).2 :=
  registerNewNode_consistent (hst.of_nodes rfl rfl rfl rfl) rfl

theorem registerOutput_extended (st : GraphState) (valueName : String) (ty : ResolvedTensorType)
    (nodeName : String) (inputs : List (Option ValueId)) (op : Operator) :
    Extended st.graph (st.registerOutput valueName ty nodeName inputs op).2.graph := by
  refine registerNewNode_extended _ rfl (registerNewValue_extended st valueName ty) fun v hv => ?_
  exact Nat.le_of_eq (List.mem_singleton.mp hv).symm

theorem registerOutput_pairs {p : ValueId × Place} (hp : p ∈ inputPairs st.graph) :
    p ∈ inputPairs (st.registerOutput valueName ty nodeName inputs op).2.graph := by
  have hlive : (⟨inputs, [st.graph.values.length], nodeName, op, false⟩ : Node).markAsDeleted = false := rfl
  exact (inputPairs_registerNewNode (st.registerNewValue valueName ty).2 hlive).symm ▸ Or.inl hp

theorem registerOutput_type :
    (st.registerOutput valueName ty nodeName inputs op).2.graph.getResolvedTensorType
      st.graph.values.length = some ty := registerNewValue_type st valueName ty

theorem registerOutput_carries (hop : ∀ v, op ≠ .output v) (hst : CarriesOutputs st.graph) :
    CarriesOutputs (st.registerOutput valueName ty nodeName inputs op).2.graph := by
  intro id node v hnode hv
  have hlive : (⟨inputs, [st.graph.values.length], nodeName, op, false⟩ : Node).markAsDeleted = false := rfl
  have hcases := (node?_registerNewNode (st.registerNewValue valueName ty).2 hlive id).symm.trans hnode
  split at hcases
  · obtain rfl := Option.some.inj hcases
    exact absurd hv (hop v)
  · exact hst id node v hcases hv

/-- What a replacement does to the graph. -/
theorem replaceByNode_spec (hst : Consistent st)
    (hok : st.replaceByNode old valueName nodeName inputs op = .ok st') :
    Extended st.graph st'.graph ∧ ∀ v x, (v, x) ∈ inputPairs st.graph →
      (moved old st.graph.values.length v, x) ∈ inputPairs st'.graph ∧
        (v < st.graph.values.length → st'.graph.getResolvedTensorType (moved old st.graph.values.length v) =
          st.graph.getResolvedTensorType v) := by
  obtain ⟨ty, hty, hok⟩ := orPanic_bind_eq_ok hok
  obtain ⟨-, hrewired, hpairs, -⟩ := replaceInputValueIf_spec (registerOutput_consistent hst) hok
  have hext := registerOutput_extended st valueName ty nodeName inputs op
  refine ⟨hext.trans hrewired.extended, fun v x hv => ⟨hpairs v x (registerOutput_pairs hv), fun hlt => ?_⟩⟩
  rw [hrewired.type]
  unfold moved
  split
  · rename_i hvold
    rw [hvold, hty]
    exact registerOutput_type
  · exact hext.type hlt

/-- The types after a replacement. -/
theorem replaceByNode_type (hst : Consistent st)
    (hok : st.replaceByNode old valueName nodeName inputs op = .ok st') :
    st'.graph.getResolvedTensorType st.graph.values.length = st.graph.getResolvedTensorType old ∧
      ∀ v < st.graph.values.length,
        st'.graph.getResolvedTensorType v = st.graph.getResolvedTensorType v := by
  obtain ⟨ty, hty, hok⟩ := orPanic_bind_eq_ok hok
  obtain ⟨-, hrewired, -⟩ := replaceInputValueIf_spec (registerOutput_consistent hst) hok
  have hext := registerOutput_extended st valueName ty nodeName inputs op
  refine ⟨?_, fun v hv => ?_⟩
  · rw [hrewired.type, hty]
    exact registerOutput_type
  · rw [hrewired.type]
    exact hext.type hv

theorem replaceInputValueIf_ok (hst : Consistent st) (hcarries : CarriesOutputs st.graph) {new : ValueId}
    (hold : st.graph.getResolvedTensorType old = some ty) (hnew : st.graph.getResolvedTensorType new = some ty) :
    ∃ st', st.replaceInputValueIf old new (fun _ _ => true) = .ok st' ∧ CarriesOutputs st'.graph := by
  unfold GraphState.replaceInputValueIf
  rw [hold, hnew]
  show ∃ st', (if ty ≠ ty then _ else _) = _ ∧ _
  rw [if_neg (not_not.mpr rfl)]
  exact replaceInputValue_ok hst hcarries old new

/-- A replacement of a value with a type does not panic. -/
theorem replaceByNode_ok (hst : Consistent st) (hcarries : CarriesOutputs st.graph)
    (hop : ∀ v, op ≠ .output v) (hty : st.graph.getResolvedTensorType old = some ty) :
    ∃ st', st.replaceByNode old valueName nodeName inputs op = .ok st' ∧ CarriesOutputs st'.graph := by
  have hold := (registerOutput_extended st valueName ty nodeName inputs op).type (type_lt hty)
  unfold GraphState.replaceByNode
  rw [hty]
  exact replaceInputValueIf_ok (registerOutput_consistent hst) (registerOutput_carries hop hcarries)
    (hold.trans hty) registerOutput_type

/-- The node that is new. -/
theorem replaceByNode_node (hst : Consistent st) (hop : ∀ v, op ≠ .output v)
    (hok : st.replaceByNode old valueName nodeName inputs op = .ok st') :
    ∃ node, st'.graph.node? st.graph.nodes.length = some node ∧ node.op = op := by
  obtain ⟨ty, -, hok⟩ := orPanic_bind_eq_ok hok
  have hlive : (⟨inputs, [st.graph.values.length], nodeName, op, false⟩ : Node).markAsDeleted = false := rfl
  obtain ⟨-, hrewired, -⟩ := replaceInputValueIf_spec (registerOutput_consistent hst) hok
  have hnode := (node?_registerNewNode (st.registerNewValue valueName ty).2 hlive
    st.graph.nodes.length).trans (if_pos rfl)
  obtain ⟨node, hnode', -, -, hsame⟩ := hrewired.nodes _ _ hnode
  exact ⟨node, hnode', hsame.resolve_right fun ⟨v, _, h, _⟩ => hop v h⟩

/-- A turn of a fusion: the search, and the rewriting of what it finds. -/
def fuse {Plan : Type} (search : GraphState → NodeId → Match Plan)
    (rewrite : GraphState → Plan → Except Stop GraphState) (st : GraphState) (id : NodeId) :
    Except Stop GraphState :=
  (search st id).run.bind fun
    | none => .ok st
    | some plan => rewrite st plan

variable {Plan : Type} {search : GraphState → NodeId → Match Plan}
  {rewrite : GraphState → Plan → Except Stop GraphState} {id : NodeId}

theorem fuse_eq_ok (h : fuse search rewrite st id = .ok st') :
    st' = st ∨ ∃ plan, (search st id).Finds plan ∧ rewrite st plan = .ok st' := by
  rw [fuse, bind_eq_ok] at h
  obtain ⟨o, ho, h⟩ := h
  cases o with
  | none => exact .inl (Except.ok.inj h).symm
  | some plan => exact .inr ⟨plan, ho, h⟩

end NnEngine
