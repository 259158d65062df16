import NnEngine.Transform.PassManager

/-!
# Elimination of identities

`IdentityElimination` of `src/transform/optimize/identity_elimination.rs`: what reads the output of an `Identity`
reads its input instead, if both have the same type.
-/

namespace NnEngine

open DepthFirst InverseIndex SimpleGraphOp GraphState

namespace IdentityElimination

/-- The nodes that the loop goes over. -/
def identityNodes (g : Graph) : List NodeId := g.nodesOf .identity

/-- The body of the loop. -/
def visit (st : GraphState) (id : NodeId) : Except Stop GraphState :=
  (orPanic (st.graph.node? id)).bind fun node =>
    (orPanic (node.inputs[0]?).join).bind fun input =>
      (orPanic node.outputs[0]?).bind fun output =>
        if st.graph.getResolvedTensorType input ≠ st.graph.getResolvedTensorType output then .ok st
        else st.replaceInputValueIf output input fun _ _ => true

/-- `run`. -/
def run (st : GraphState) : Except Stop GraphState := (identityNodes st.graph).foldlM visit st

/-- An `Identity` has the value of its input. -/
def Copies {α : Type} (M : Meaning α) : Prop :=
  ∀ ins outs x y, M.op .identity ins outs → ins[0]? = some (some x) → outs[0]? = some y → x = y

variable {α : Type} {M : Meaning α} {st st' : GraphState} {id : NodeId}

theorem visit_spec (hM : Copies M) (h : Tidy st) (hid : st.graph.IsOf .identity id) (hok : visit st id = .ok st') :
    Tidy st' ∧ Reread st.graph st'.graph ∧ ∀ ρ, M.Holds st.graph ρ → Carried M st st' ρ := by
  obtain ⟨node, hnode, hop⟩ := hid
  obtain ⟨n, hn, hok⟩ := orPanic_bind_eq_ok hok
  obtain rfl := Option.some.inj (hnode.symm.trans hn)
  obtain ⟨input, hinput, hok⟩ := orPanic_bind_eq_ok hok
  obtain ⟨output, houtput, hok⟩ := orPanic_bind_eq_ok hok
  split at hok
  · obtain rfl := Except.ok.inj hok
    exact ⟨h, .refl _, fun ρ hρ => .refl hρ⟩
  · obtain ⟨h', hreread, -, hcarried⟩ := h.replace (M := M) hok
    refine ⟨h', hreread, fun ρ hρ => hcarried ρ hρ ?_⟩
    have hmeans := hρ.nodes id node hnode
    rw [hop] at hmeans
    refine hM _ _ _ _ hmeans ?_ ?_
    · rw [List.getElem?_map, Option.join_eq_some_iff.mp hinput]
      rfl
    · rw [List.getElem?_map, houtput]
      rfl

/-- From every state between passes, a run keeps what every place reads. -/
theorem run_spec (hM : Copies M) (h : Tidy st) (hok : run st = .ok st') :
    Tidy st' ∧ Reread st.graph st'.graph ∧ ∀ ρ, M.Holds st.graph ρ → Carried M st st' ρ :=
  loop_relates id (show ∀ v, Operator.identity ≠ .output v from nofun) (R := fun s s' => ∀ ρ, M.Holds s.graph ρ → Carried M s s' ρ)
    (fun _ _ hρ => .refl hρ) (fun hab hbc ρ hρ => (hab ρ hρ).trans (hbc ρ (hab ρ hρ).holds))
    (fun _ _ _ h hid hok => visit_spec hM h hid hok) h hok

/-- The pass, for a meaning in which an `Identity` copies. -/
def pass (hM : Copies M) : Pass M where
  run := run
  sound h hok := by
    obtain ⟨h', hreread, hcarried⟩ := run_spec hM h hok
    exact ⟨h', hreread.keepsOutputs hcarried⟩

end IdentityElimination
end NnEngine
