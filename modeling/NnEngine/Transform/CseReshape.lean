import NnEngine.Transform.Decomposition
import NnEngine.Transform.PassManager

/-!
# Common reshapes

`CseReshape` of `src/transform/optimize/cse_reshape.rs`: what reads a `Reshape` of a value to a shape that is a
constant reads the first such `Reshape` instead.  The table of the loop is right for an assignment if its entries
are reshapes in it.
-/

namespace NnEngine

open DepthFirst InverseIndex SimpleGraphOp GraphState

namespace CseReshape

/-- The nodes that the loop goes over. -/
def reshapeNodes (g : Graph) : List NodeId := g.nodesOf .reshape

/-- `seen`. -/
abbrev Seen := ValueId × List Int64 → Option ValueId

/-- The key of a node: its operand, and the numbers of its shape if they are known. -/
def key (files : Onnx.Files) (g : Graph) (node : Node) : Option (ValueId × List Int64) :=
  (node.inputs[0]?).join.bind fun input =>
    (node.inputs[1]?).join.bind fun shapeInput =>
      (Onnx.getInitializer files g shapeInput).bind fun shapeTensor =>
        match shapeTensor.data with
        | .sInt _ shapeVals => some (input, shapeVals)
        | _ => none

/-- The body of the loop. -/
def visit (files : Onnx.Files) (s : GraphState × Seen) (id : NodeId) : Except Stop (GraphState × Seen) :=
  (orPanic (s.1.graph.node? id)).bind fun node =>
    match key files s.1.graph node with
    | none => .ok s
    | some k =>
        (orPanic node.outputs[0]?).bind fun output =>
          match (s.2 k).filter fun canonical => canonical != output with
          | some canonical => (s.1.replaceInputValueIf output canonical fun _ _ => true).map fun st => (st, s.2)
          | none => .ok (s.1, Function.update s.2 k (some output))

/-- `run`. -/
def run (files : Onnx.Files) (st : GraphState) : Except Stop GraphState :=
  ((reshapeNodes st.graph).foldlM (visit files) (st, fun _ => none)).map Prod.fst

variable {α : Type} {M : Meaning α} {files : Onnx.Files} {st st' : GraphState} {s s' : GraphState × Seen}
  {id : NodeId} {ρ : ValueId → α}

/-- The value is a reshape of another one to a shape of these numbers. -/
def Reshaped (M : Meaning α) (x : α) (shape : List Int64) (y : α) : Prop :=
  ∃ ins outs s t i, M.op .reshape ins outs ∧ ins[0]? = some (some x) ∧ ins[1]? = some (some s) ∧ M.constant t s ∧
    t.data = .sInt i shape ∧ outs[0]? = some y

/-- A reshape is determined by its operand, the numbers of the shape and its type, and an external tensor is the
one of its file. -/
structure Determined (M : Meaning α) (files : Onnx.Files) : Prop where
  external : ∀ r t x, M.external r x → Onnx.loadExternal files r = some t → M.constant t x
  unique : ∀ x shape y y' ty, Reshaped M x shape y → Reshaped M x shape y' → M.hasType ty y → M.hasType ty y' → y = y'

/-- The entries are reshapes. -/
def Valid (M : Meaning α) (ρ : ValueId → α) (seen : Seen) : Prop :=
  ∀ k v, seen k = some v → Reshaped M (ρ k.1) k.2 (ρ v)

theorem reshaped_of_key (hM : Determined M files) {g : Graph} {node : Node} {k : ValueId × List Int64}
    {output : ValueId} (hρ : M.Holds g ρ) (hnode : g.node? id = some node) (hop : node.op = .reshape)
    (hk : key files g node = some k) (hout : node.outputs[0]? = some output) :
    Reshaped M (ρ k.1) k.2 (ρ output) := by
  unfold key at hk
  obtain ⟨input, hinput, hk⟩ := Option.bind_eq_some_iff.mp hk
  obtain ⟨shapeInput, hshape, hk⟩ := Option.bind_eq_some_iff.mp hk
  obtain ⟨t, ht, hk⟩ := Option.bind_eq_some_iff.mp hk
  have hconst : M.constant t (ρ shapeInput) := by
    unfold Onnx.getInitializer at ht
    split at ht
    · rename_i t' ht'
      obtain rfl := Option.some.inj ht
      exact hρ.constants _ _ ht'
    · obtain ⟨r, hr, hload⟩ := Option.bind_eq_some_iff.mp ht
      exact hM.external r t _ (hρ.externals _ r hr) hload
  split at hk
  · rename_i i shapeVals hdata
    obtain rfl := Option.some.inj hk
    have hmeans := hρ.nodes id node hnode
    rw [hop] at hmeans
    refine ⟨_, _, ρ shapeInput, t, i, hmeans, ?_, ?_, hconst, hdata, ?_⟩
    · rw [List.getElem?_map, Option.join_eq_some_iff.mp hinput]
      rfl
    · rw [List.getElem?_map, Option.join_eq_some_iff.mp hshape]
      rfl
    · rw [List.getElem?_map, hout]
      rfl
  · cases hk

/-- What a turn keeps, for every assignment for which the table is right. -/
theorem visit_spec (hM : Determined M files) (h : Tidy s.1) (hid : s.1.graph.IsOf .reshape id)
    (hok : visit files s id = .ok s') : Tidy s'.1 ∧ Reread s.1.graph s'.1.graph ∧
      ∀ ρ, M.Holds s.1.graph ρ → Valid M ρ s.2 → Carried M s.1 s'.1 ρ ∧ Valid M ρ s'.2 := by
  obtain ⟨node, hnode, hop⟩ := hid
  obtain ⟨n, hn, hok⟩ := orPanic_bind_eq_ok hok
  obtain rfl := Option.some.inj (hnode.symm.trans hn)
  split at hok
  · obtain rfl := Except.ok.inj hok
    exact ⟨h, .refl _, fun ρ hρ hvalid => ⟨.refl hρ, hvalid⟩⟩
  rename_i k hk
  obtain ⟨output, hout, hok⟩ := orPanic_bind_eq_ok hok
  split at hok
  · rename_i canonical hseen
    obtain ⟨st, hreplace, rfl⟩ := map_eq_ok.mp hok
    obtain ⟨h', hreread, ⟨ty, hold, hnew⟩, hcarried⟩ := h.replace (M := M) hreplace
    refine ⟨h', hreread, fun ρ hρ hvalid => ⟨hcarried ρ hρ ?_, hvalid⟩⟩
    -- both are the reshape of the same value to the same shape
    exact hM.unique _ k.2 _ _ ty (hvalid k canonical (Option.filter_eq_some_iff.mp hseen).1)
      (reshaped_of_key hM hρ hnode hop hk hout) (hρ.types _ ty hnew) (hρ.types _ ty hold)
  · obtain rfl := Except.ok.inj hok
    refine ⟨h, .refl _, fun ρ hρ hvalid => ⟨.refl hρ, fun k' v hv => ?_⟩⟩
    dsimp only at hv
    by_cases heq : k' = k
    · rw [heq, Function.update_self] at hv
      obtain rfl := Option.some.inj hv
      rw [heq]
      exact reshaped_of_key hM hρ hnode hop hk hout
    · rw [Function.update_of_ne heq] at hv
      exact hvalid k' v hv

/-- From every state between passes, a run keeps what every place reads. -/
theorem run_spec (hM : Determined M files) (h : Tidy st) (hok : run files st = .ok st') :
    Tidy st' ∧ Reread st.graph st'.graph ∧ ∀ ρ, M.Holds st.graph ρ → Carried M st st' ρ := by
  obtain ⟨s', hfold, rfl⟩ := map_eq_ok.mp hok
  obtain ⟨h', hreread, hcarried⟩ := loop_relates Prod.fst (show ∀ v, Operator.reshape ≠ .output v from nofun)
    (R := fun s s' : GraphState × Seen =>
      ∀ ρ, M.Holds s.1.graph ρ → Valid M ρ s.2 → Carried M s.1 s'.1 ρ ∧ Valid M ρ s'.2)
    (fun s ρ hρ hvalid => ⟨.refl hρ, hvalid⟩)
    (fun hab hbc ρ hρ hvalid => by
      obtain ⟨hcarried, hvalid⟩ := hab ρ hρ hvalid
      exact (hbc ρ hcarried.holds hvalid).imp_left hcarried.trans)
    (fun _ _ _ h hid hok => visit_spec hM h hid hok) (s := (st, fun _ => none)) h hfold
  exact ⟨h', hreread, fun ρ hρ => (hcarried ρ hρ nofun).1⟩

/-- The pass, for a meaning that determines reshapes. -/
def pass (hM : Determined M files) : Pass M where
  run := run files
  sound h hok := by
    obtain ⟨h', hreread, hcarried⟩ := run_spec hM h hok
    exact ⟨h', hreread.keepsOutputs hcarried⟩

end CseReshape
end NnEngine
