import NnEngine.Graph.Modify
import NnEngine.Result
import NnEngine.Tensor.BroadcastShape

/-!
# The types of the inputs

`unify_types`, `try_unify_type` and `resolve_input_types` of `src/graph.rs`.  A symbolic dimension takes the
first size that it meets; the sizes that the parameters have taken stay in the graph, also when a later
dimension does not fit.
-/

namespace NnEngine

open DepthFirst

/-- `resolved_params`. -/
abbrev Params := String → Option Nat

/-- The body of the loop of `unify_types` replaces a parameter whose size is known. -/
def Dimension.known (params : Params) : Dimension → Dimension
  | .const x => .const x
  | .param k =>
      match params k with
      | some x => .const x
      | none => .param k

/-- The loop of `unify_types`, with the parameters as it leaves them. -/
def unifyDims : List Dimension → List Nat → Params → Option (List Nat) × Params
  | ld :: lhs, rd :: rhs, params =>
      match ld.known params with
      | .const x =>
          if x ≠ rd then (none, params)
          else
            let (res, params) := unifyDims lhs rhs params
            (res.map (rd :: ·), params)
      | .param k =>
          let (res, params) := unifyDims lhs rhs (Function.update params k (some rd))
          (res.map (rd :: ·), params)
  | _, _, params => (some [], params)

/-- `unify_types`. -/
def unifyTypes (lhs : List Dimension) (rhs : List Nat) (params : Params) : Option ResolvedTensorDims × Params :=
  if lhs.length ≠ rhs.length then (none, params)
  else
    let (res, params) := unifyDims lhs rhs params
    (res.map .new, params)

inductive UnifyMode
  | checkStrides
  | overwriteStrides
  | ignoreStrides
  deriving DecidableEq, Repr

/-- A graph with its `resolved_params`. -/
structure TypedGraph where
  graph : Graph
  resolvedParams : Params

namespace TypedGraph

/-- The type that a value has in the graph. -/
def type (t : TypedGraph) (v : ValueId) : Option TensorType := (t.graph.values[v]?).bind ValueInfo.ty

/-- The assignment of a resolved type to a value. -/
def setType (t : TypedGraph) (v : ValueId) (ty : ResolvedTensorType) : TypedGraph :=
  { t with
    graph :=
      { t.graph with values := t.graph.values.modify v fun info => { info with ty := some (.resolved ty) } } }

/-- `try_unify_type`, with the graph as it leaves it. -/
def tryUnifyType (t : TypedGraph) (v : ValueId) (resolved : ResolvedTensorType) (mode : UnifyMode) :
    Except Stop (Except TypeError Unit × TypedGraph) :=
  match t.graph.values[v]? with
  | none => .error .panic
  | some info =>
      match info.ty with
      | some (.resolved ty) =>
          if ty.dims ≠ resolved.dims then .ok (.error .inconsistentInput, t)
          else
            match mode with
            | .checkStrides =>
                if ty.stride ≠ resolved.stride then .ok (.error .inconsistentInput, t) else .ok (.ok (), t)
            | .overwriteStrides => .ok (.ok (), t.setType v resolved)
            | .ignoreStrides => .ok (.ok (), t)
      | some (.unresolved ty) =>
          if mode = .checkStrides then .ok (.error .inconsistentInput, t)
          else
            match ty.dims with
            | none => .ok (.ok (), t.setType v resolved)
            | some dims =>
                match unifyTypes dims resolved.dims t.resolvedParams with
                | (none, params) => .ok (.error .inconsistentInput, { t with resolvedParams := params })
                | (some _, params) => .ok (.ok (), { t with resolvedParams := params }.setType v resolved)
      | none => .ok (.ok (), t.setType v resolved)

/-- The `ids` of `resolve_input_types`. -/
def inputIds (t : TypedGraph) : Except Stop (List ValueId) :=
  let values : Except Stop (List ValueId) := t.graph.inputs.mapM fun n =>
    match (t.graph.node? n).map Node.op with
    | some (.input v) => .ok v
    | _ => .error .panic
  values.map fun ids => ids.filter fun v => !t.graph.hasInitializer v

/-- The loop of `resolve_input_types`. -/
def unifyInputs : TypedGraph → List (ValueId × ResolvedTensorType) → Except Stop (Except TypeError Unit × TypedGraph)
  | t, [] => .ok (.ok (), t)
  | t, (v, ty) :: rest =>
      (t.tryUnifyType v ty .ignoreStrides).bind fun
        | (.error e, t) => .ok (.error e, t)
        | (.ok _, t) => unifyInputs t rest

/-- `resolve_input_types`, with the graph as it leaves it. -/
def resolveInputTypes (t : TypedGraph) (inputTys : List ResolvedTensorType) :
    Except Stop (Except TypeError Unit × TypedGraph) :=
  t.inputIds.bind fun ids =>
    if inputTys.length ≠ ids.length then .ok (.error .inconsistentInput, t)
    else t.unifyInputs (ids.zip inputTys)

end TypedGraph

/-! ### Symbolic dimensions -/

/-- The parameters keep their sizes. -/
def Params.Extends (params params' : Params) : Prop := ∀ k x, params k = some x → params' k = some x

theorem Params.Extends.refl (params : Params) : params.Extends params := fun _ _ h => h

theorem Params.Extends.trans {p q r : Params} (hpq : p.Extends q) (hqr : q.Extends r) : p.Extends r :=
  fun k x h => hqr k x (hpq k x h)

theorem Params.extends_update {params : Params} {k : String} (h : params k = none) (x : Nat) :
    params.Extends (Function.update params k (some x)) := by
  intro k' x' hk'
  by_cases hne : k' = k
  · rw [hne, h] at hk'
    cases hk'
  · rw [Function.update_of_ne hne]
    exact hk'

/-- The size of a dimension under an assignment of the parameters. -/
def Dimension.under (params : Params) : Dimension → Option Nat
  | .const x => some x
  | .param k => params k

theorem Dimension.under_mono {p q : Params} (h : p.Extends q) {d : Dimension} {n : Nat} (hd : d.under p = some n) :
    d.under q = some n := by
  cases d with
  | const x => exact hd
  | param k => exact h k n hd

/-- The dimensions have these sizes. -/
def Sized (params : Params) (dims : List Dimension) (sizes : List Nat) : Prop :=
  List.Forall₂ (fun d n => Dimension.under params d = some n) dims sizes

theorem Sized.mono {p q : Params} (h : p.Extends q) {dims : List Dimension} {sizes : List Nat}
    (hs : Sized p dims sizes) : Sized q dims sizes :=
  hs.imp fun _ _ => Dimension.under_mono h

/-- The parameters are only added to, and when no size clashes all dimensions have theirs. -/
theorem unifyDims_spec (lhs : List Dimension) : ∀ (rhs : List Nat) (params : Params), lhs.length = rhs.length →
    params.Extends (unifyDims lhs rhs params).2 ∧
      ∀ res, (unifyDims lhs rhs params).1 = some res → Sized (unifyDims lhs rhs params).2 lhs rhs := by
  induction lhs with
  | nil =>
      intro rhs params hlen
      obtain rfl := List.length_eq_zero_iff.mp hlen.symm
      exact ⟨Params.Extends.refl _, fun _ _ => List.Forall₂.nil⟩
  | cons ld lhs ih =>
      intro rhs params hlen
      cases rhs with
      | nil => cases hlen
      | cons rd rhs =>
          have hlen' : lhs.length = rhs.length := Nat.succ.inj hlen
          -- a dimension whose size is known is compared, any other takes the size
          have hconst {x : Nat} (hx : ld.known params = .const x) (hunder : ld.under params = some x) :
              params.Extends (unifyDims (ld :: lhs) (rd :: rhs) params).2 ∧
                ∀ res, (unifyDims (ld :: lhs) (rd :: rhs) params).1 = some res →
                  Sized (unifyDims (ld :: lhs) (rd :: rhs) params).2 (ld :: lhs) (rd :: rhs) := by
            obtain ⟨hext, hsized⟩ := ih rhs params hlen'
            unfold unifyDims
            rw [hx]
            dsimp only
            split
            · exact ⟨Params.Extends.refl _, nofun⟩
            · rename_i heq
              refine ⟨hext, fun res hres => ?_⟩
              obtain ⟨res', hres', -⟩ := Option.map_eq_some_iff.mp hres
              rw [not_not.mp heq] at hunder
              exact .cons (Dimension.under_mono hext hunder) (hsized res' hres')
          cases ld with
          | const x => exact hconst rfl rfl
          | param k =>
              cases hk : params k with
              | some x => exact hconst (by simp [Dimension.known, hk]) hk
              | none =>
                  obtain ⟨hext, hsized⟩ := ih rhs (Function.update params k (some rd)) hlen'
                  have hknown : (Dimension.param k).known params = .param k := by
                    simp [Dimension.known, hk]
                  unfold unifyDims
                  rw [hknown]
                  refine ⟨(Params.extends_update hk rd).trans hext, fun res hres => ?_⟩
                  obtain ⟨res', hres', -⟩ := Option.map_eq_some_iff.mp hres
                  exact .cons (hext k rd (Function.update_self ..)) (hsized res' hres')

theorem unifyTypes_spec (lhs : List Dimension) (rhs : List Nat) (params : Params) :
    params.Extends (unifyTypes lhs rhs params).2 ∧
      ∀ res, (unifyTypes lhs rhs params).1 = some res → Sized (unifyTypes lhs rhs params).2 lhs rhs := by
  unfold unifyTypes
  split
  · exact ⟨Params.Extends.refl _, nofun⟩
  · rename_i hlen
    obtain ⟨hext, hsized⟩ := unifyDims_spec lhs rhs params (not_not.mp hlen)
    refine ⟨hext, fun res hres => ?_⟩
    obtain ⟨res', hres', -⟩ := Option.map_eq_some_iff.mp hres
    exact hsized res' hres'

/-! ### One input -/

/-- The sizes that a value is declared with are those of a type. -/
def Fits (params : Params) (declared : Option TensorType) (ty : ResolvedTensorType) : Prop :=
  match declared with
  | some (.resolved old) => old.dims = ty.dims
  | some (.unresolved u) => ∀ dims, u.dims = some dims → Sized params dims ty.dims
  | none => True

theorem Fits.mono {p q : Params} (h : p.Extends q) {declared : Option TensorType} {ty : ResolvedTensorType}
    (hfits : Fits p declared ty) : Fits q declared ty := by
  unfold Fits at hfits ⊢
  split
  · exact hfits
  · exact fun dims hdims => (hfits dims hdims).mono h
  · trivial

/-- The type that a value declared so takes when it is given a type. -/
def taken (declared : Option TensorType) (ty : ResolvedTensorType) : ResolvedTensorType :=
  match declared with
  | some (.resolved old) => old
  | _ => ty

theorem taken_dims {params : Params} {declared : Option TensorType} {ty : ResolvedTensorType}
    (h : Fits params declared ty) : (taken declared ty).dims = ty.dims := by
  unfold Fits at h
  unfold taken
  split
  · exact h
  · rfl

namespace TypedGraph

variable {t t' : TypedGraph} {v : ValueId} {ty : ResolvedTensorType}

/-- Only the types of values have changed. -/
structure SameGraph (t t' : TypedGraph) : Prop where
  graph : { t'.graph with values := t.graph.values } = t.graph
  names : t'.graph.values.map ValueInfo.name = t.graph.values.map ValueInfo.name

theorem SameGraph.refl (t : TypedGraph) : SameGraph t t := ⟨rfl, rfl⟩

theorem SameGraph.trans {t₁ t₂ t₃ : TypedGraph} (h : SameGraph t₁ t₂) (h' : SameGraph t₂ t₃) : SameGraph t₁ t₃ := by
  refine ⟨?_, h'.names.trans h.names⟩
  have hgraph := h.graph
  rw [← h'.graph] at hgraph
  exact hgraph

theorem setType_type (w : ValueId) (hv : v < t.graph.values.length) :
    (t.setType v ty).type w = if w = v then some (.resolved ty) else t.type w := by
  unfold type setType
  dsimp only
  rw [List.getElem?_modify]
  by_cases h : w = v
  · rw [if_pos h, h, List.getElem?_eq_getElem hv]
    simp
  · rw [if_neg h]
    simp [Ne.symm h]

theorem setType_same : SameGraph t (t.setType v ty) := by
  refine ⟨rfl, ?_⟩
  ext i name
  simp only [setType, List.getElem?_map, List.getElem?_modify]
  split <;> simp [*]

/-- What `try_unify_type` does to an input. -/
theorem tryUnifyType_spec {r : Except TypeError Unit}
    (h : t.tryUnifyType v ty .ignoreStrides = .ok (r, t')) :
    t.resolvedParams.Extends t'.resolvedParams ∧ SameGraph t t' ∧
      match r with
      | .error e => e = .inconsistentInput ∧ ∀ w, t'.type w = t.type w
      | .ok _ => Fits t'.resolvedParams (t.type v) ty ∧
          ∀ w, t'.type w = if w = v then some (.resolved (taken (t.type v) ty)) else t.type w := by
  unfold tryUnifyType at h
  cases hinfo : t.graph.values[v]? with
  | none =>
      rw [hinfo] at h
      cases h
  | some info =>
      have hv : v < t.graph.values.length := (List.getElem?_eq_some_iff.mp hinfo).1
      have htype : t.type v = info.ty := by
        unfold type
        rw [hinfo]
        rfl
      rw [hinfo] at h
      dsimp only at h
      -- a value without a resolved type takes the type
      have hset {u : TypedGraph} (hgraph : u.graph = t.graph) (htaken : taken info.ty ty = ty) (w : ValueId) :
          (u.setType v ty).type w = if w = v then some (.resolved (taken (t.type v) ty)) else t.type w := by
        rw [setType_type w (hgraph ▸ hv), htype, htaken]
        unfold type
        rw [hgraph]
      cases hty : info.ty with
      | none =>
          rw [hty] at h
          obtain ⟨rfl, rfl⟩ := Prod.mk.inj (Except.ok.inj h)
          exact ⟨Params.Extends.refl _, setType_same, by rw [htype, hty]; trivial, hset rfl (by rw [hty]; rfl)⟩
      | some declared =>
          rw [hty] at h
          cases declared with
          | resolved old =>
              dsimp only at h
              split at h
              · obtain ⟨rfl, rfl⟩ := Prod.mk.inj (Except.ok.inj h)
                exact ⟨Params.Extends.refl _, SameGraph.refl _, rfl, fun _ => rfl⟩
              · rename_i hdims
                obtain ⟨rfl, rfl⟩ := Prod.mk.inj (Except.ok.inj h)
                refine ⟨Params.Extends.refl _, SameGraph.refl _, ?_, fun w => ?_⟩
                · rw [htype, hty]
                  exact not_not.mp hdims
                · split
                  · rename_i hw
                    rw [hw, htype, hty]
                    rfl
                  · rfl
          | unresolved u =>
              dsimp only at h
              rw [if_neg (by decide)] at h
              cases hdims : u.dims with
              | none =>
                  rw [hdims] at h
                  obtain ⟨rfl, rfl⟩ := Prod.mk.inj (Except.ok.inj h)
                  refine ⟨Params.Extends.refl _, setType_same, ?_, hset rfl (by rw [hty]; rfl)⟩
                  rw [htype, hty]
                  intro dims hsome
                  rw [hdims] at hsome
                  cases hsome
              | some dims =>
                  obtain ⟨hext, hsized⟩ := unifyTypes_spec dims ty.dims t.resolvedParams
                  rw [hdims] at h
                  dsimp only at h
                  split at h
                  · rename_i params heq
                    rw [heq] at hext
                    obtain ⟨rfl, rfl⟩ := Prod.mk.inj (Except.ok.inj h)
                    exact ⟨hext, ⟨rfl, rfl⟩, rfl, fun _ => rfl⟩
                  · rename_i res params heq
                    rw [heq] at hext hsized
                    obtain ⟨rfl, rfl⟩ := Prod.mk.inj (Except.ok.inj h)
                    have hsame : SameGraph t { t with resolvedParams := params } := ⟨rfl, rfl⟩
                    refine ⟨hext, hsame.trans setType_same, ?_, hset rfl (by rw [hty]; rfl)⟩
                    rw [htype, hty]
                    intro dims' hsome
                    obtain rfl := Option.some.inj (hdims.symm.trans hsome)
                    exact hsized res rfl

/-! ### All inputs -/

/-- What has become of the inputs that the loop has been over. -/
structure Typed (t t' : TypedGraph) (inputs : List (ValueId × ResolvedTensorType)) : Prop where
  /-- One assignment gives the symbolic dimensions of all these inputs their sizes. -/
  fits : ∀ x ∈ inputs, Fits t'.resolvedParams (t.type x.1) x.2
  dims : ∀ x ∈ inputs, ∃ ty, t'.type x.1 = some (.resolved ty) ∧ ty.dims = x.2.dims
  /-- An input without a resolved type has the first type that it was given. -/
  types : ∀ l x l', inputs = l ++ x :: l' → (∀ y ∈ l, y.1 ≠ x.1) →
    t'.type x.1 = some (.resolved (taken (t.type x.1) x.2))
  others : ∀ v, (∀ x ∈ inputs, x.1 ≠ v) → t'.type v = t.type v

theorem Typed.nil (h : ∀ v, t'.type v = t.type v) : Typed t t' [] where
  fits := nofun
  dims := nofun
  types l x l' heq := by cases l <;> cases heq
  others v _ := h v

/-- One more input in front. -/
theorem Typed.cons {t₁ : TypedGraph} {rest : List (ValueId × ResolvedTensorType)}
    (hext : t₁.resolvedParams.Extends t'.resolvedParams) (hfits : Fits t₁.resolvedParams (t.type v) ty)
    (hstep : ∀ w, t₁.type w = if w = v then some (.resolved (taken (t.type v) ty)) else t.type w)
    (h : Typed t₁ t' rest) : Typed t t' ((v, ty) :: rest) := by
  have hself : t₁.type v = some (.resolved (taken (t.type v) ty)) := by rw [hstep, if_pos rfl]
  -- a second type for the same value has the same sizes
  have hagain : ∀ x ∈ rest, x.1 = v → x.2.dims = ty.dims := by
    intro x hx hxv
    have hfit := h.fits x hx
    rw [hxv, hself] at hfit
    exact hfit.symm.trans (taken_dims hfits)
  -- a type that is resolved stays
  have hstays : t'.type v = some (.resolved (taken (t.type v) ty)) := by
    by_cases hmem : ∃ x ∈ rest, x.1 = v
    · obtain ⟨x, hx, hxv⟩ := hmem
      obtain ⟨y, hy⟩ := Option.isSome_iff_exists.mp
        (List.find?_isSome.mpr ⟨x, hx, decide_eq_true hxv⟩ : (rest.find? fun y => decide (y.1 = v)).isSome)
      obtain ⟨hyv, l, l', hsplit, hfirst⟩ := List.find?_eq_some_iff_append.mp hy
      have hy : y.1 = v := of_decide_eq_true hyv
      have hfirst : ∀ z ∈ l, z.1 ≠ v := fun z hz => by simpa using hfirst z hz
      have htype := h.types l y l' hsplit fun z hz => hy ▸ hfirst z hz
      rw [hy, hself] at htype
      exact htype
    · rw [h.others v fun x hx hxv => hmem ⟨x, hx, hxv⟩, hself]
  constructor
  · intro x hx
    rcases List.mem_cons.mp hx with rfl | hx
    · exact hfits.mono hext
    · by_cases hxv : x.1 = v
      · have hsame : Fits t'.resolvedParams (t.type v) ty := hfits.mono hext
        rw [hxv]
        unfold Fits at hsame ⊢
        rw [hagain x hx hxv]
        exact hsame
      · have hfit := h.fits x hx
        rwa [hstep, if_neg hxv] at hfit
  · intro x hx
    rcases List.mem_cons.mp hx with rfl | hx
    · exact ⟨_, hstays, taken_dims hfits⟩
    · exact h.dims x hx
  · intro l x l' hsplit hfirst
    cases l with
    | nil =>
        obtain ⟨rfl, rfl⟩ := List.cons.inj hsplit
        exact hstays
    | cons y l =>
        obtain ⟨rfl, rfl⟩ := List.cons.inj hsplit
        have hne : x.1 ≠ v := (hfirst _ List.mem_cons_self).symm
        have htype := h.types l x l' rfl fun z hz => hfirst z (List.mem_cons_of_mem _ hz)
        rwa [hstep, if_neg hne] at htype
  · intro w hw
    rw [h.others w fun x hx => hw x (List.mem_cons_of_mem _ hx), hstep,
      if_neg (Ne.symm (hw (v, ty) List.mem_cons_self))]

/-- The loop types the inputs up to the first that does not fit. -/
theorem unifyInputs_spec (inputs : List (ValueId × ResolvedTensorType)) : ∀ {t t' : TypedGraph}
    {r : Except TypeError Unit}, t.unifyInputs inputs = .ok (r, t') →
    t.resolvedParams.Extends t'.resolvedParams ∧ SameGraph t t' ∧
      match r with
      | .error e => e = .inconsistentInput ∧ ∃ l x l', inputs = l ++ x :: l' ∧ Typed t t' l
      | .ok _ => Typed t t' inputs := by
  induction inputs with
  | nil =>
      intro t t' r h
      obtain ⟨rfl, rfl⟩ := Prod.mk.inj (Except.ok.inj h)
      exact ⟨Params.Extends.refl _, SameGraph.refl _, Typed.nil fun _ => rfl⟩
  | cons x rest ih =>
      intro t t' r h
      obtain ⟨v, ty⟩ := x
      unfold unifyInputs at h
      rw [bind_eq_ok] at h
      obtain ⟨⟨r₁, t₁⟩, hstep, h⟩ := h
      obtain ⟨hext, hsame, hr₁⟩ := tryUnifyType_spec hstep
      cases r₁ with
      | error e =>
          obtain ⟨rfl, rfl⟩ := Prod.mk.inj (Except.ok.inj h)
          exact ⟨hext, hsame, hr₁.1, [], _, _, rfl, Typed.nil hr₁.2⟩
      | ok _ =>
          obtain ⟨hext', hsame', hr⟩ := ih h
          refine ⟨hext.trans hext', hsame.trans hsame', ?_⟩
          cases r with
          | error e =>
              obtain ⟨he, l, x, l', rfl, htyped⟩ := hr
              exact ⟨he, _ :: l, x, l', rfl, htyped.cons hext' hr₁.1 hr₁.2⟩
          | ok _ => exact hr.cons hext' hr₁.1 hr₁.2

/-- Resolving the types of the inputs: the inputs that it has been over when it returns are typed consistently. -/
theorem resolveInputTypes_spec {inputTys : List ResolvedTensorType} {r : Except TypeError Unit}
    (h : t.resolveInputTypes inputTys = .ok (r, t')) :
    t.resolvedParams.Extends t'.resolvedParams ∧ SameGraph t t' ∧ ∃ ids, t.inputIds = .ok ids ∧
      match r with
      | .error e => e = .inconsistentInput ∧
          (inputTys.length ≠ ids.length ∧ t' = t ∨ inputTys.length = ids.length ∧
            ∃ l x l', ids.zip inputTys = l ++ x :: l' ∧ Typed t t' l)
      | .ok _ => inputTys.length = ids.length ∧ Typed t t' (ids.zip inputTys) := by
  unfold resolveInputTypes at h
  rw [bind_eq_ok] at h
  obtain ⟨ids, hids, h⟩ := h
  split at h
  · rename_i hlen
    obtain ⟨rfl, rfl⟩ := Prod.mk.inj (Except.ok.inj h)
    exact ⟨Params.Extends.refl _, SameGraph.refl _, ids, hids, rfl, .inl ⟨hlen, rfl⟩⟩
  · rename_i hlen
    obtain ⟨hext, hsame, hr⟩ := unifyInputs_spec _ h
    refine ⟨hext, hsame, ids, hids, ?_⟩
    cases r with
    | error e =>
        obtain ⟨he, hprefix⟩ := hr
        exact ⟨he, .inr ⟨not_not.mp hlen, hprefix⟩⟩
    | ok _ => exact ⟨not_not.mp hlen, hr⟩

/-! ### Two inputs of one size -/

/-- A graph with two inputs of the size `N`. -/
def twins : TypedGraph where
  graph :=
    { nodes := [⟨[], [0], "a", .input 0, false⟩, ⟨[], [1], "b", .input 1, false⟩]
      inputs := [0, 1]
      outputs := []
      values := ["a", "b"].map fun name => ⟨name, some (.unresolved ⟨.float .F32, some [.param "N"]⟩)⟩
      initializer := fun _ => none
      externalRefs := fun _ => none }
  resolvedParams := fun _ => none

/-- A vector. -/
def vectorType (n : Nat) : ResolvedTensorType := .new (.float .F32) [n]

theorem twins_resolved : ∃ t', twins.resolveInputTypes [vectorType 2, vectorType 2] = .ok (.ok (), t') ∧
    Typed twins t' [(0, vectorType 2), (1, vectorType 2)] := by
  obtain ⟨r, t', hrun, hr⟩ : ∃ r t', twins.resolveInputTypes [vectorType 2, vectorType 2] = .ok (r, t') ∧
    r = .ok () := ⟨_, _, rfl, rfl⟩
  subst hr
  obtain ⟨-, -, ids, hids, -, htyped⟩ := resolveInputTypes_spec hrun
  obtain rfl : [0, 1] = ids := Except.ok.inj hids
  exact ⟨t', hrun, htyped⟩

/-- The second vector does not fit, and the first has been taken. -/
theorem twins_changed : ¬ ∀ (t t' : TypedGraph) (inputTys : List ResolvedTensorType) (e : TypeError),
    t.resolveInputTypes inputTys = .ok (.error e, t') →
      (∀ v, t'.type v = t.type v) ∧ t'.resolvedParams = t.resolvedParams := by
  intro hall
  obtain ⟨htypes, -⟩ := hall twins _ [vectorType 2, vectorType 3] _ rfl
  exact absurd (htypes 0) (by decide)

end TypedGraph

end NnEngine
