import NnEngine.Transform.CseReshape
import NnEngine.Transform.IdentityElimination

/-!
# Runs of passes

What a run of the manager of `src/transform.rs` keeps, whatever its passes are, and a run over the two
passes that keep the meaning of every graph.
-/

namespace NnEngine

open DepthFirst InverseIndex SimpleGraphOp GraphState

namespace Optimize

variable {α : Type} {M : Meaning α} {st st' : GraphState}

/-- A run of the manager over any passes that keep what the outputs compute keeps it. -/
theorem passManager_keeps (passes : List (Pass M)) (h : Tidy st)
    (hok : SimplePassManager.run (passes.map Pass.run) st = .ok st') :
    Tidy st' ∧ KeepsOutputs M st st' ∧ (passes ≠ [] → st'.graph.unitStrides = true) := by
  unfold SimplePassManager.run at hok
  -- on the passes, from the last one
  induction passes using List.reverseRecOn generalizing st' with
  | nil =>
      obtain rfl := Except.ok.inj hok
      exact ⟨h, .refl M st, fun hne => absurd rfl hne⟩
  | append_singleton passes pass ih =>
      rw [List.map_append, List.foldlM_append, do_eq_ok] at hok
      obtain ⟨st₁, hpasses, hlast⟩ := hok
      rw [List.map_singleton, List.foldlM_cons, do_eq_ok] at hlast
      obtain ⟨st₂, hpass, hlast⟩ := hlast
      obtain rfl := Except.ok.inj hlast
      obtain ⟨h₁, hkeeps, -⟩ := ih hpasses
      obtain ⟨h₂, hkeeps', hunit⟩ := runPass_keeps pass h₁ hpass
      exact ⟨h₂, hkeeps.trans hkeeps', fun _ => hunit⟩

/-- The elimination of identities keeps the meaning of every graph in which they copy. -/
theorem identityElimination_keeps (hM : IdentityElimination.Copies M) (h : Tidy st)
    (hok : IdentityElimination.run st = .ok st') : Tidy st' ∧ Keeps M st st' := by
  obtain ⟨h', -, hcarried⟩ := IdentityElimination.run_spec hM h hok
  exact ⟨h', keeps_of_carried hcarried⟩

/-- The sharing of reshapes keeps the meaning of every graph in which operand, shape and type determine them. -/
theorem cseReshape_keeps {files : Onnx.Files} (hM : CseReshape.Determined M files) (h : Tidy st)
    (hok : CseReshape.run files st = .ok st') : Tidy st' ∧ Keeps M st st' := by
  obtain ⟨h', -, hcarried⟩ := CseReshape.run_spec hM h hok
  exact ⟨h', keeps_of_carried hcarried⟩

/-- Exact arithmetic with reshapes and copies. -/
def copying (c : Exact.GeLUConstants) (files : Onnx.Files) : Meaning Exact.Arr :=
  { reducing c files with
    op := fun op ins outs =>
      (op = .identity → Exact.One (fun x y => y = x) ins outs) ∧ (reducing c files).op op ins outs
    output := fun _ _ _ => ⟨nofun, trivial⟩ }

theorem copying_copies (c : Exact.GeLUConstants) (files : Onnx.Files) :
    IdentityElimination.Copies (copying c files) := by
  intro ins outs x y hop hx hy
  obtain ⟨a, b, rfl, rfl, rfl⟩ := hop.1 rfl
  exact (Option.some.inj (Option.some.inj hx)).symm.trans (Option.some.inj hy)

theorem copying_determined (c : Exact.GeLUConstants) (files : Onnx.Files) :
    CseReshape.Determined (copying c files) files where
  external r t x hx ht := hx t ht
  unique x shape y y' ty := by
    have hvalue {z : Exact.Arr} (h : CseReshape.Reshaped (copying c files) x shape z) (hty : z.shape = ty.dims) :
        z = x.reshaped ty.dims := by
      obtain ⟨ins, outs, s, t, i, ⟨-, a, rest, b, rfl, rfl, -, hb⟩, hx, -, -, -, hz⟩ := h
      obtain rfl := Option.some.inj (Option.some.inj hx)
      obtain rfl := Option.some.inj hz
      rwa [hty] at hb
    exact fun h h' hty hty' => (hvalue h hty).trans (hvalue h' hty').symm

/-- Two reshapes of a copy of the input, added. -/
def sharedGraph : Graph where
  nodes :=
    [{ inputs := [], outputs := [0], name := "x", op := .input 0, markAsDeleted := false },
      { inputs := [some 0], outputs := [1], name := "i", op := .identity, markAsDeleted := false },
      { inputs := [some 1, some 2], outputs := [4], name := "a", op := .reshape, markAsDeleted := false },
      { inputs := [some 1, some 3], outputs := [5], name := "b", op := .reshape, markAsDeleted := false },
      { inputs := [some 4, some 5], outputs := [6], name := "y", op := .add, markAsDeleted := false },
      { inputs := [some 6], outputs := [], name := "y", op := .output 6, markAsDeleted := false }]
  inputs := [0]
  outputs := [5]
  values := List.replicate 2 { name := "x", ty := some (.resolved (.new (.float .F32) [4])) } ++
    List.replicate 2 { name := "s", ty := some (.resolved (.new (.sInt .I64) [2])) } ++
    List.replicate 3 { name := "y", ty := some (.resolved (.new (.float .F32) [2, 2])) }
  initializer := fun v => if v = 2 ∨ v = 3 then some ⟨.sInt .I64 [2, 2], [2], rfl⟩ else none
  externalRefs := fun _ => none

theorem sharedGraph_tidy : Tidy (.new sharedGraph) := by
  have hlt {id : NodeId} {node : Node} (h : sharedGraph.node? id = some node) : id < 6 :=
    (List.getElem?_eq_some_iff.mp (node?_eq_some.mp h).1).1
  refine ⟨settled_new ⟨⟨fun id hid => ?_, fun id hid => ?_⟩, fun id node hnode hdummy => ?_, fun id hid node hnode => ?_,
    fun a b node node' v hnode hnode' hv hv' => ?_⟩, (intact_new rfl (fun v t ht => ?_) fun _ _ h => by cases h).inRange⟩
  · obtain rfl := List.mem_singleton.mp hid
    exact ⟨_, 0, rfl, .inl rfl, rfl⟩
  · obtain rfl := List.mem_singleton.mp hid
    exact ⟨_, 6, rfl, rfl, rfl⟩
  · have hid := hlt hnode
    interval_cases id <;> obtain rfl := Option.some.inj hnode <;> first | decide | cases hdummy
  · obtain rfl := List.mem_singleton.mp hid
    obtain rfl := Option.some.inj hnode
    rfl
  · have ha := hlt hnode
    have hb := hlt hnode'
    interval_cases a <;> obtain rfl := Option.some.inj hnode <;>
      interval_cases b <;> obtain rfl := Option.some.inj hnode' <;> simp_all
  · change (if v = 2 ∨ v = 3 then _ else _) = _ at ht
    split at ht
    · rename_i hv
      rcases hv with rfl | rfl <;> decide
    · cases ht

/-- The copy and the second reshape are removed. -/
theorem sharedGraph_kept : ∃ st', SimplePassManager.run
      [IdentityElimination.run, CseReshape.run fun _ => none] (.new sharedGraph) = .ok st' ∧
    st'.graph.iter.map Prod.fst = [0, 2, 4, 5] ∧
    KeepsOutputs (copying ⟨0, 0, 0, 0⟩ fun _ => none) (.new sharedGraph) st' :=
  ⟨_, rfl, rfl, (passManager_keeps [IdentityElimination.pass (copying_copies _ _), CseReshape.pass (copying_determined _ _)]
    sharedGraph_tidy rfl).2.1⟩

/-- The readers of the copy read the input. -/
theorem sharedGraph_eliminated : ∃ st', IdentityElimination.run (.new sharedGraph) = .ok st' ∧
    (st'.graph.node? 3).map Node.inputs = some [some 0, some 3] ∧
    Tidy st' ∧ Keeps (copying ⟨0, 0, 0, 0⟩ fun _ => none) (.new sharedGraph) st' :=
  ⟨_, rfl, rfl, identityElimination_keeps (copying_copies _ _) sharedGraph_tidy rfl⟩

/-- The sum reads the first reshape twice. -/
theorem sharedGraph_shared : ∃ st', CseReshape.run (fun _ => none) (.new sharedGraph) = .ok st' ∧
    (st'.graph.node? 4).map Node.inputs = some [some 4, some 4] ∧
    Tidy st' ∧ Keeps (copying ⟨0, 0, 0, 0⟩ fun _ => none) (.new sharedGraph) st' :=
  ⟨_, rfl, rfl, cseReshape_keeps (copying_determined _ _) sharedGraph_tidy rfl⟩

end Optimize
end NnEngine
