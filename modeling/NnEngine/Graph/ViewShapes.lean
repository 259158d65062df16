import NnEngine.Graph.InputTypes
import NnEngine.Tensor.Contiguity

/-!
# The types of reshaped and squeezed values

`reshape` of `src/transform/shape.rs`, and what `infer_node_output` does there for Squeeze and Unsqueeze.  The
dims and the strides of a view are both built by `ResolvedTensorDims::new`, which makes a list of zeros empty.
-/

namespace NnEngine

/-- Why no type is inferred: a panic, or `TypeError::InferError`. -/
inductive InferStop
  | panic
  | inferError (message : String)
  deriving DecidableEq, Repr

namespace ResolvedTensorType

/-- The dim for an entry that is not `-1`, with its position: zero copies the dim of the input. -/
def askedDim (dims : ResolvedTensorDims) (e : Int64 × Nat) : Except InferStop Nat :=
  if e.1 = 0 then (dims[e.2]?).elim (.error .panic) .ok else .ok e.1.toUInt64.toNat

/-- The rest of `reshape`, when the dims are known. -/
def reshapeTo (a : ResolvedTensorType) (target : ResolvedTensorDims) (mode : UnifyMode) :
    Except InferStop ResolvedTensorType :=
  if ResolvedTensorDims.size a.dims = ResolvedTensorDims.size target ∨
      (ResolvedTensorDims.compatibleWithScalar a.dims && ResolvedTensorDims.compatibleWithScalar target) = true then
    if mode = .checkStrides then
      match a.tryReshape target with
      | .ok ty => .ok ty
      | .error .panic => .error .panic
      | .error .notReshapable => .error (.inferError "Unsupported reshape")
    else .ok (.new a.elemType target)
  else .error .panic

/-- `reshape`; `i64` is `Int64`. -/
def reshape (a : ResolvedTensorType) (shape : List Int64) (mode : UnifyMode) :
    Except InferStop ResolvedTensorType := do
  let prod0 := ResolvedTensorDims.size a.dims
  let factors ← (shape.zipIdx.filter fun e => e.1 ≠ -1).mapM (askedDim a.dims)
  let prod1 := factors.prod
  let dims ← shape.zipIdx.mapM fun e =>
    if e.1 = -1 then
      if prod1 = 0 then .error .panic else .ok (prod0 / prod1)
    else askedDim a.dims e
  a.reshapeTo (.new dims) mode

/-! ### What the operand asks for -/

/-- The dim that an entry of the operand stands for. -/
def Fits (dims : ResolvedTensorDims) (e : Int64 × Nat) (d : Nat) : Prop :=
  (e.1 = 0 → dims[e.2]? = some d) ∧ (0 < e.1 → e.1.toInt = d)

/-- The dims that the operand asks for.  The count decides the dim for `-1`; a scalar has one element. -/
structure Asks (dims : ResolvedTensorDims) (shape : List Int64) (target : ResolvedTensorDims) : Prop where
  fits : List.Forall₂ (Fits dims) shape.zipIdx target
  count : target.prod = dims.prod

/-- An operand for these dims: one `-1` at most, and zeros where the input has a dim. -/
structure ShapeOperand (dims : ResolvedTensorDims) (shape : List Int64) : Prop where
  entries : ∀ e ∈ shape.zipIdx, e.1 = -1 ∨ e.1 = 0 ∧ e.2 < dims.length ∨ 0 < e.1
  inferred : shape.count (-1) ≤ 1

/-- Every valid shape is returned, and nothing else is. -/
def KeepsCount (ty : ResolvedTensorType) (shape : List Int64) (mode : UnifyMode) : Prop :=
  (∀ target, Asks ty.dims shape target →
    ∃ u, ty.reshape shape mode = .ok u ∧ u.elemType = ty.elemType ∧ u.dims = target) ∧
  ∀ u, ty.reshape shape mode = .ok u → Asks ty.dims shape u.dims

variable {dims target : ResolvedTensorDims} {shape : List Int64} {e : Int64 × Nat} {l : List (Int64 × Nat)}

/-- The dims with `q` for `-1`. -/
def filled (dims : ResolvedTensorDims) (q : Nat) (e : Int64 × Nat) : Nat :=
  if e.1 = -1 then q else if e.1 = 0 then dims.getD e.2 0 else e.1.toUInt64.toNat

theorem toNat_toUInt64 {x : Int64} (h : 0 < x) : (x.toUInt64.toNat : Int) = x.toInt ∧ 0 < x.toUInt64.toNat := by
  have hlt : 0 < x.toInt := Int64.lt_iff_toInt_lt.mp h
  have hnat : x.toInt = if 2 * x.toUInt64.toNat < 2 ^ 64 then (x.toUInt64.toNat : Int)
      else (x.toUInt64.toNat : Int) - 2 ^ 64 := BitVec.toInt_eq_toNat_cond x.toBitVec
  have hbound := x.toUInt64.toNat_lt
  split at hnat <;> omega

/-- An entry that is not `-1` stands for one dim, which the code finds. -/
theorem askedDim_spec (he : e.1 = 0 ∧ e.2 < dims.length ∨ 0 < e.1) (q : Nat) :
    askedDim dims e = .ok (filled dims q e) ∧ (∀ d, Fits dims e d ↔ d = filled dims q e) ∧
      ((∀ d ∈ dims, 0 < d) → 0 < filled dims q e) := by
  unfold askedDim filled Fits
  rcases he with ⟨hzero, hlt⟩ | hpos
  · have hget : dims[e.2]? = some dims[e.2] := List.getElem?_eq_getElem hlt
    simp [hzero, hget, eq_comm]
    exact fun h => h _ (List.getElem_mem hlt)
  · have hne : e.1 ≠ -1 ∧ e.1 ≠ 0 := by
      constructor <;> rintro h <;> rw [h] at hpos <;> exact absurd hpos (by decide)
    obtain ⟨hnat, hnatPos⟩ := toNat_toUInt64 hpos
    refine ⟨by simp [hne], fun d => ?_, fun _ => by simpa [hne] using hnatPos⟩
    simp only [hne, hpos, if_false, false_implies, true_and, true_implies]
    omega

/-- The operand leaves one dim open at most. -/
theorem forall_fits_iff (hentries : ∀ e ∈ l, e.1 = -1 ∨ e.1 = 0 ∧ e.2 < dims.length ∨ 0 < e.1)
    (hcount : (l.map Prod.fst).count (-1) ≤ 1) :
    List.Forall₂ (Fits dims) l target ↔ ∃ q, target = l.map (filled dims q) := by
  induction l generalizing target with
  | nil => simp
  | cons e l ih =>
      obtain ⟨he, hl⟩ := List.forall_mem_cons.mp hentries
      rw [List.map_cons, List.count_cons] at hcount
      have htail := fun target => @ih target hl (by omega)
      simp only [List.forall₂_cons_left_iff, htail]
      by_cases hminus : e.1 = -1
      · -- The dims of the other entries do not depend on the dim that is left open.
        have hconst : ∀ q q', l.map (filled dims q) = l.map (filled dims q') := by
          intro q q'
          refine List.map_congr_left fun e' he' => ?_
          have hne : e'.1 ≠ -1 := by
            intro h
            have hmem : (-1 : Int64) ∈ l.map Prod.fst := List.mem_map.mpr ⟨e', he', h⟩
            have := List.count_pos_iff.mpr hmem
            simp [hminus] at hcount
            omega
          simp [filled, hne]
        constructor
        · rintro ⟨d, rest, -, ⟨q, rfl⟩, rfl⟩
          exact ⟨d, by simp [filled, hminus, hconst d q]⟩
        · rintro ⟨q, rfl⟩
          refine ⟨q, _, ?_, ⟨q, rfl⟩, by simp [filled, hminus]⟩
          unfold Fits
          rw [hminus]
          exact ⟨fun h => absurd h (by decide), fun h => absurd h (by decide)⟩
      · have he' := he.resolve_left hminus
        constructor
        · rintro ⟨d, rest, hd, ⟨q, rfl⟩, rfl⟩
          exact ⟨q, by rw [List.map_cons, ← ((askedDim_spec he' q).2.1 d).mp hd]⟩
        · rintro ⟨q, rfl⟩
          exact ⟨_, _, ((askedDim_spec he' q).2.1 _).mpr rfl, ⟨q, rfl⟩, rfl⟩

/-- The product of the dims that are not left open. -/
def known (dims : ResolvedTensorDims) (l : List (Int64 × Nat)) : Nat :=
  ((l.filter fun e => e.1 ≠ -1).map (filled dims 0)).prod

/-- The quotient that the code fills in. -/
def quotient (dims : ResolvedTensorDims) (shape : List Int64) : Nat :=
  ResolvedTensorDims.size dims / known dims shape.zipIdx

theorem prod_filled (dims : ResolvedTensorDims) (l : List (Int64 × Nat)) (q : Nat) :
    (l.map (filled dims q)).prod = q ^ (l.map Prod.fst).count (-1) * known dims l := by
  induction l with
  | nil => rfl
  | cons e l ih =>
      unfold known at ih ⊢
      by_cases hminus : e.1 = -1
      · simp [ih, hminus, filled, Nat.pow_succ]
        ring
      · simp [ih, hminus, filled]
        ring

theorem known_pos (hentries : ∀ e ∈ l, e.1 = -1 ∨ e.1 = 0 ∧ e.2 < dims.length ∨ 0 < e.1)
    (hpos : ∀ d ∈ dims, 0 < d) : 0 < known dims l := by
  refine List.prod_pos fun d hd => ?_
  obtain ⟨e, he, rfl⟩ := List.mem_map.mp hd
  obtain ⟨hmem, hne⟩ := List.mem_filter.mp he
  exact (askedDim_spec ((hentries e hmem).resolve_left (of_decide_eq_true hne)) 0).2.2 hpos

/-- `reshape` fills the open dim with the quotient. -/
theorem reshape_eq {ty : ResolvedTensorType} (h : ShapeOperand ty.dims shape) (hpos : ∀ d ∈ ty.dims, 0 < d)
    (mode : UnifyMode) :
    ty.reshape shape mode =
      ty.reshapeTo (.new (shape.zipIdx.map (filled ty.dims (quotient ty.dims shape)))) mode := by
  have hfactors : ((shape.zipIdx.filter fun e => e.1 ≠ -1).mapM (askedDim ty.dims)) =
      .ok ((shape.zipIdx.filter fun e => e.1 ≠ -1).map (filled ty.dims 0)) := by
    refine mapM_ok fun e he => ?_
    obtain ⟨hmem, hne⟩ := List.mem_filter.mp he
    exact (askedDim_spec ((h.entries e hmem).resolve_left (of_decide_eq_true hne)) 0).1
  have hknown : known ty.dims shape.zipIdx ≠ 0 := Nat.ne_of_gt (known_pos h.entries hpos)
  unfold reshape
  rw [hfactors]
  change ((shape.zipIdx.mapM fun e =>
    if e.1 = -1 then
      if known ty.dims shape.zipIdx = 0 then .error .panic
      else .ok (quotient ty.dims shape)
    else askedDim ty.dims e) >>= fun dims => ty.reshapeTo (.new dims) mode) = _
  rw [mapM_ok (g := filled ty.dims (quotient ty.dims shape))]
  · rfl
  · intro e he
    by_cases hminus : e.1 = -1
    · simp [hminus, hknown, filled]
    · rw [if_neg hminus]
      exact (askedDim_spec ((h.entries e he).resolve_left hminus) _).1

/-- The assertion and the mode decide, and the dims are the ones that were asked for. -/
theorem reshapeTo_eq_ok {ty u : ResolvedTensorType} {mode : UnifyMode} (h : ty.reshapeTo target mode = .ok u) :
    u.elemType = ty.elemType ∧ u.dims = target ∧
      (ResolvedTensorDims.size ty.dims = ResolvedTensorDims.size target ∨ ty.dims.prod = 1 ∧ target.prod = 1) := by
  unfold reshapeTo at h
  split at h
  · rename_i hsize
    rw [Bool.and_eq_true, compatibleWithScalar_iff, compatibleWithScalar_iff] at hsize
    split at h
    · split at h
      · rename_i u' hu'
        cases h
        exact ⟨(tryReshape_type hu').1, (tryReshape_type hu').2.1, hsize⟩
      · cases h
      · cases h
    · cases h
      exact ⟨rfl, rfl, hsize⟩
  · cases h

/-- Dims for all elements are returned, unless the mode asks for strides that do not exist. -/
theorem reshapeTo_of_prod {ty : ResolvedTensorType} (hty : ty.HasStrides) (hpos : ∀ d ∈ ty.dims, 0 < d)
    (hcount : target.prod = ty.dims.prod) (mode : UnifyMode) :
    (∃ u, ty.reshapeTo target mode = .ok u) ↔ (mode = .checkStrides → ty.Reshapable target) := by
  have hsize : ResolvedTensorDims.size ty.dims = ResolvedTensorDims.size target ∨
      (ResolvedTensorDims.compatibleWithScalar ty.dims && ResolvedTensorDims.compatibleWithScalar target) = true := by
    by_cases hone : ty.dims.prod = 1
    · simp [compatibleWithScalar_iff, hone, hcount]
    · simp [size_of_prod_ne_one hone, size_of_prod_ne_one (hcount ▸ hone), hcount]
  unfold reshapeTo
  rw [if_pos hsize]
  by_cases hmode : mode = .checkStrides
  · rw [if_pos hmode]
    simp only [hmode, true_implies]
    by_cases hdims : ty.dims = []
    · -- A scalar becomes axes of one element.
      have haxes : ty.reshapedAxes = [] := by simp [reshapedAxes, hdims]
      have hone : ty.dims.prod = 1 := by rw [hdims, List.prod_nil]
      have hview : ty.tryReshape target = .ok (.new ty.elemType target) := by
        unfold tryReshape
        rw [if_pos (by simp [compatibleWithScalar_iff, hone, hcount])]
      refine iff_of_true ⟨_, by rw [hview]⟩ ?_
      rw [Reshapable, haxes]
      exact List.isChain_nil
    · obtain ⟨hstop, hnot⟩ | ⟨u, hok, hreshapable, -⟩ := tryReshape_spec (hty hdims) hpos hcount
      · exact iff_of_false (by rw [hstop]; rintro ⟨u, h⟩; cases h) hnot
      · exact iff_of_true ⟨u, by rw [hok]⟩ hreshapable
  · rw [if_neg hmode]
    exact iff_of_true ⟨_, rfl⟩ fun h => absurd h hmode

theorem new_of_prod_pos (h : 0 < target.prod) : ResolvedTensorDims.new target = target := by
  unfold ResolvedTensorDims.new
  split
  · rename_i hsum
    cases target with
    | nil => rfl
    | cons d target =>
        have hd : d = 0 := by simp at hsum; exact hsum.1
        simp [hd] at h
  · rfl

theorem asks_iff (h : ShapeOperand dims shape) :
    Asks dims shape target ↔
      ∃ q, target = shape.zipIdx.map (filled dims q) ∧ q ^ shape.count (-1) * known dims shape.zipIdx = dims.prod := by
  have hfits := @forall_fits_iff dims target shape.zipIdx h.entries (by rw [List.zipIdx_map_fst]; exact h.inferred)
  have hprod := prod_filled dims shape.zipIdx
  rw [List.zipIdx_map_fst] at hprod
  constructor
  · rintro ⟨htarget, hcount⟩
    obtain ⟨q, rfl⟩ := hfits.mp htarget
    exact ⟨q, rfl, by rw [← hprod, hcount]⟩
  · rintro ⟨q, rfl, hcount⟩
    exact ⟨hfits.mpr ⟨q, rfl⟩, by rw [hprod, hcount]⟩

theorem filled_congr (h : -1 ∉ shape) (q q' : Nat) :
    shape.zipIdx.map (filled dims q) = shape.zipIdx.map (filled dims q') := by
  refine List.map_congr_left fun e he => ?_
  have hne : e.1 ≠ -1 := by
    intro hminus
    have hmem : e.1 ∈ shape.zipIdx.map Prod.fst := List.mem_map_of_mem he
    rw [List.zipIdx_map_fst, hminus] at hmem
    exact h hmem
  simp [filled, hne]

theorem size_of_ne_nil (h : dims ≠ []) : ResolvedTensorDims.size dims = dims.prod := by
  simp [ResolvedTensorDims.size, h]

/-- The only dims that a valid operand asks for are the ones that the code finds. -/
theorem asks_unique (h : ShapeOperand dims shape) (hpos : ∀ d ∈ dims, 0 < d) (hopen : dims = [] → -1 ∉ shape)
    (hasks : Asks dims shape target) : target = shape.zipIdx.map (filled dims (quotient dims shape)) := by
  obtain ⟨q, rfl, hcount⟩ := (asks_iff h).mp hasks
  by_cases hmem : -1 ∈ shape
  · have hone : shape.count (-1) = 1 := Nat.le_antisymm h.inferred (List.count_pos_iff.mpr hmem)
    rw [hone, Nat.pow_one] at hcount
    have hq : quotient dims shape = q := by
      rw [quotient, size_of_ne_nil fun hnil => hopen hnil hmem, ← hcount]
      exact Nat.mul_div_cancel q (known_pos h.entries hpos)
    rw [hq]
  · exact filled_congr hmem _ _

/-- The collapse of zeros does not take place. -/
theorem new_filled (h : ShapeOperand dims shape) (hpos : ∀ d ∈ dims, 0 < d) (hopen : dims = [] → -1 ∉ shape) :
    ResolvedTensorDims.new (shape.zipIdx.map (filled dims (quotient dims shape))) =
      shape.zipIdx.map (filled dims (quotient dims shape)) := by
  unfold ResolvedTensorDims.new
  split
  · rename_i hsum
    have hzero : ∀ e ∈ shape.zipIdx, filled dims (quotient dims shape) e = 0 := by
      intro e he
      exact List.sum_eq_zero_iff.mp hsum _ (List.mem_map_of_mem he)
    have hminus : ∀ e ∈ shape.zipIdx, e.1 = -1 := by
      intro e he
      by_contra hne
      have hlt := (askedDim_spec ((h.entries e he).resolve_left hne) (quotient dims shape)).2.2 hpos
      exact absurd (hzero e he) (Nat.ne_of_gt hlt)
    cases hlist : shape.zipIdx with
    | nil => rfl
    | cons e l =>
        -- Without other dims the quotient is the count of the input.
        exfalso
        have he : e ∈ shape.zipIdx := by simp [hlist]
        have hmem : -1 ∈ shape := by
          rw [← List.zipIdx_map_fst 0 shape, ← hminus e he]
          exact List.mem_map_of_mem he
        have hone : known dims shape.zipIdx = 1 := by
          unfold known
          rw [List.filter_eq_nil_iff.mpr (fun e' he' => by simp [hminus e' he'])]
          rfl
        have hquot : quotient dims shape = dims.prod := by
          rw [quotient, hone, Nat.div_one, size_of_ne_nil fun hnil => hopen hnil hmem]
        have hlast := hzero e he
        rw [filled, if_pos (hminus e he), hquot] at hlast
        exact absurd hlast (Nat.ne_of_gt (List.prod_pos hpos))
  · rfl

/-- What the code returns has the count, if the input is no scalar with an open dim. -/
theorem asks_of_reshape {ty u : ResolvedTensorType} (h : ShapeOperand ty.dims shape) (hpos : ∀ d ∈ ty.dims, 0 < d)
    (hopen : ty.dims = [] → -1 ∉ shape) {mode : UnifyMode} (hu : ty.reshape shape mode = .ok u) :
    Asks ty.dims shape u.dims := by
  rw [reshape_eq h hpos, new_filled h hpos hopen] at hu
  obtain ⟨-, hdims, hsize⟩ := reshapeTo_eq_ok hu
  refine ⟨(forall_fits_iff h.entries (by rw [List.zipIdx_map_fst]; exact h.inferred)).mpr ⟨_, hdims⟩, ?_⟩
  rw [hdims]
  obtain hsize | ⟨hone, hone'⟩ := hsize
  · by_cases hnil : ty.dims = []
    · -- The size of a scalar is zero, and the dims that are asked for are positive.
      have htarget : ∀ d ∈ shape.zipIdx.map (filled ty.dims (quotient ty.dims shape)), 0 < d := by
        intro d hd
        obtain ⟨e, he, rfl⟩ := List.mem_map.mp hd
        refine (askedDim_spec ((h.entries e he).resolve_left fun hminus => ?_) _).2.2 hpos
        refine hopen hnil ?_
        rw [← List.zipIdx_map_fst 0 shape, ← hminus]
        exact List.mem_map_of_mem he
      have hprod := List.prod_pos htarget
      have hzero : ResolvedTensorDims.size ty.dims = 0 := by simp [hnil, ResolvedTensorDims.size]
      have hone : ty.dims.prod = 1 := by simp [hnil]
      by_contra hne
      rw [hone] at hne
      rw [size_of_prod_ne_one hne, hzero] at hsize
      exact absurd hsize.symm (Nat.ne_of_gt hprod)
    · have hprod : 0 < ty.dims.prod := List.prod_pos hpos
      rw [size_of_ne_nil hnil] at hsize
      rw [hsize, size_of_ne_nil]
      intro htarget
      rw [hsize, htarget] at hprod
      exact absurd hprod (by decide)
  · rw [hone, hone']

/-- With an open dim on a scalar the code asks for no element. -/
theorem prod_filled_scalar (h : ShapeOperand [] shape) (hmem : -1 ∈ shape) :
    (shape.zipIdx.map (filled [] (quotient [] shape))).prod = 0 := by
  have hone : shape.count (-1) = 1 := Nat.le_antisymm h.inferred (List.count_pos_iff.mpr hmem)
  have hprod := prod_filled [] shape.zipIdx (quotient [] shape)
  rw [List.zipIdx_map_fst, hone, Nat.pow_one] at hprod
  rw [hprod, quotient]
  simp [ResolvedTensorDims.size]

/-- On a scalar with an open dim, the code returns no dims or dims without an element. -/
theorem reshape_scalar {ty u : ResolvedTensorType} (h : ShapeOperand [] shape) (hnil : ty.dims = []) (hmem : -1 ∈ shape)
    {mode : UnifyMode} (hu : ty.reshape shape mode = .ok u) : ¬ Asks [] shape u.dims := by
  rw [reshape_eq (hnil ▸ h) (by simp [hnil]), hnil] at hu
  have hdims := (reshapeTo_eq_ok hu).2.1
  rintro ⟨hfits, hcount⟩
  unfold ResolvedTensorDims.new at hdims
  split at hdims
  · rw [hdims, List.forall₂_nil_right_iff] at hfits
    have hshape := List.zipIdx_map_fst 0 shape
    rw [hfits] at hshape
    rw [← hshape] at hmem
    cases hmem
  · rw [hdims, prod_filled_scalar h hmem] at hcount
    cases hcount

theorem tryReshape_scalar {ty u : ResolvedTensorType} (hnil : ty.dims = []) (hprod : target.prod = 0) :
    ty.tryReshape target ≠ .ok u := by
  have hone : target.prod ≠ 1 := by omega
  have hcompat : ResolvedTensorDims.compatibleWithScalar target = false := by
    rw [Bool.eq_false_iff, ne_eq, compatibleWithScalar_iff]
    exact hone
  have haxes : ty.reshapedAxes = [] := by simp [reshapedAxes, hnil]
  have hmem : 0 ∈ (target.filter fun d => d ≠ 1).reverse := by
    simpa using List.prod_eq_zero_iff.mp hprod
  unfold tryReshape
  have hsize : ¬ ResolvedTensorDims.size ty.dims ≠ ResolvedTensorDims.size target := by
    rw [size_of_prod_ne_one hone, hprod, hnil]
    exact not_not_intro rfl
  rw [hcompat, Bool.and_false, if_neg Bool.false_ne_true, if_neg hsize, haxes]
  -- There is no axis for the dim that is zero.
  cases hdims : (target.filter fun d => d ≠ 1).reverse with
  | nil =>
      rw [hdims] at hmem
      cases hmem
  | cons t targetDims =>
      intro h
      cases h

/-- In stride-checking mode a scalar with an open dim is returned only if the operand is valid. -/
theorem asks_of_reshape_scalar {ty u : ResolvedTensorType} (h : ShapeOperand [] shape) (hnil : ty.dims = [])
    (hmem : -1 ∈ shape) (hu : ty.reshape shape .checkStrides = .ok u) : ∃ target, Asks [] shape target := by
  rw [reshape_eq (hnil ▸ h) (by simp [hnil]), hnil] at hu
  have hview : ∃ u', ty.tryReshape (.new (shape.zipIdx.map (filled [] (quotient [] shape)))) = .ok u' := by
    unfold reshapeTo at hu
    split at hu
    · split at hu
      · split at hu
        · rename_i u' hu'
          exact ⟨u', hu'⟩
        · cases hu
        · cases hu
      · rename_i hmode
        exact absurd rfl hmode
    · cases hu
  obtain ⟨u', hu'⟩ := hview
  unfold ResolvedTensorDims.new at hu'
  split at hu'
  · -- Only the open dim can be zero, so it is the only dim.
    rename_i hsum
    refine ⟨_, (asks_iff h).mpr ⟨1, rfl, ?_⟩⟩
    have hnone : (shape.zipIdx.filter fun e => e.1 ≠ -1) = [] := by
      rw [List.filter_eq_nil_iff]
      intro e he hne
      have hzero := List.sum_eq_zero_iff.mp hsum _ (List.mem_map_of_mem he)
      have hlt := (askedDim_spec ((h.entries e he).resolve_left (of_decide_eq_true hne)) (quotient [] shape)).2.2 nofun
      exact absurd hzero (Nat.ne_of_gt hlt)
    rw [known, hnone, Nat.one_pow]
    rfl
  · exact absurd hu' (tryReshape_scalar hnil (prod_filled_scalar h hmem))

/-- `reshape` returns exactly the valid shapes, unless it is to infer a dim of a scalar; in stride-checking mode
the axes that it joins must have no gap. -/
theorem keepsCount_iff (ty : ResolvedTensorType) (shape : List Int64) (mode : UnifyMode) (hty : ty.HasStrides)
    (hpos : ∀ d ∈ ty.dims, 0 < d) (h : ShapeOperand ty.dims shape) :
    ty.KeepsCount shape mode ↔
      (ty.dims = [] → -1 ∈ shape → mode = .checkStrides ∧ ∀ target, ¬ Asks ty.dims shape target) ∧
        (mode = .checkStrides → ∀ target, Asks ty.dims shape target → ty.Reshapable target) := by
  by_cases hopen : ty.dims = [] → -1 ∉ shape
  · have heq := reshape_eq h hpos mode
    rw [new_filled h hpos hopen] at heq
    constructor
    · intro hkeeps
      refine ⟨fun hnil hmem => absurd hmem (hopen hnil), fun hmode target hasks => ?_⟩
      obtain ⟨u, hu, -⟩ := hkeeps.1 target hasks
      rw [heq, ← asks_unique h hpos hopen hasks] at hu
      exact (reshapeTo_of_prod hty hpos hasks.count mode).mp ⟨u, hu⟩ hmode
    · rintro ⟨-, hview⟩
      refine ⟨fun target hasks => ?_, fun u hu => asks_of_reshape h hpos hopen hu⟩
      rw [heq, ← asks_unique h hpos hopen hasks]
      obtain ⟨u, hu⟩ := (reshapeTo_of_prod hty hpos hasks.count mode).mpr fun hmode => hview hmode target hasks
      obtain ⟨helem, hdims, -⟩ := reshapeTo_eq_ok hu
      exact ⟨u, hu, helem, hdims⟩
  · have hnil : ty.dims = [] := by
      by_contra hne
      exact hopen fun hnil => absurd hnil hne
    have hmem : -1 ∈ shape := by
      by_contra hnot
      exact hopen fun _ => hnot
    have hscalar : ShapeOperand [] shape := hnil ▸ h
    constructor
    · intro hkeeps
      have hinvalid : ∀ target, ¬ Asks ty.dims shape target := by
        intro target hasks
        obtain ⟨u, hu, -, hdims⟩ := hkeeps.1 target hasks
        rw [hnil, ← hdims] at hasks
        exact reshape_scalar hscalar hnil hmem hu hasks
      refine ⟨fun _ _ => ⟨?_, hinvalid⟩, fun _ target hasks => absurd hasks (hinvalid target)⟩
      -- Outside the mode the assertion holds, as the sizes are zero.
      by_contra hmode
      have hsize : ResolvedTensorDims.size ty.dims = ResolvedTensorDims.size
          (.new (shape.zipIdx.map (filled [] (quotient [] shape)))) := by
        have hzero := prod_filled_scalar hscalar hmem
        have hscalarSize : ResolvedTensorDims.size ty.dims = 0 := by simp [hnil, ResolvedTensorDims.size]
        rw [hscalarSize]
        unfold ResolvedTensorDims.new
        split
        · rfl
        · rw [size_of_prod_ne_one (by omega), hzero]
      have hok : ty.reshape shape mode =
          .ok (.new ty.elemType (.new (shape.zipIdx.map (filled [] (quotient [] shape))))) := by
        rw [reshape_eq h hpos, hnil]
        unfold reshapeTo
        rw [if_pos (Or.inl hsize), if_neg hmode]
      exact hinvalid _ (hkeeps.2 _ hok)
    · rintro ⟨hstop, -⟩
      obtain ⟨hmode, hinvalid⟩ := hstop hnil hmem
      refine ⟨fun target hasks => absurd hasks (hinvalid target), fun u hu => ?_⟩
      subst hmode
      obtain ⟨target, hasks⟩ := asks_of_reshape_scalar hscalar hnil hmem hu
      exact absurd (hnil ▸ hasks) (hinvalid target)

/-- Twelve elements in rows of four. -/
theorem rows_of_four :
    (ResolvedTensorType.new (.float .F32) [2, 6]).KeepsCount [-1, 4] .ignoreStrides :=
  (keepsCount_iff (.new (.float .F32) [2, 6]) [-1, 4] .ignoreStrides (fun _ => calcStride_length _) (by decide)
    ⟨by decide, by decide⟩).mpr ⟨nofun, nofun⟩

/-- A scalar as a vector stays a scalar, and as a matrix it is empty; two rows of it are accepted. -/
theorem scalar_as_vector :
    (ResolvedTensorType.new (.float .F32) []).reshape [-1] .ignoreStrides = .ok (.new (.float .F32) []) ∧
      Asks [] [-1] [1] ∧
      (ResolvedTensorType.new (.float .F32) []).reshape [1, -1] .ignoreStrides = .ok (.new (.float .F32) [1, 0]) ∧
      (ResolvedTensorType.new (.float .F32) []).reshape [1, -1] .checkStrides = .error .panic ∧
      Asks [] [1, -1] [1, 1] ∧
      (ResolvedTensorType.new (.float .F32) []).reshape [2, -1] .ignoreStrides = .ok (.new (.float .F32) [2, 0]) ∧
      ¬ (ResolvedTensorType.new (.float .F32) []).KeepsCount [-1] .ignoreStrides := by
  have hone : Asks [] [-1] [1] := ⟨.cons (by unfold Fits; decide) .nil, rfl⟩
  have htwo : Asks [] [1, -1] [1, 1] :=
    ⟨.cons (by unfold Fits; decide) (.cons (by unfold Fits; decide) .nil), rfl⟩
  refine ⟨by decide, hone, by decide, by decide, htwo, by decide, fun h => ?_⟩
  obtain ⟨u, hu, -, hdims⟩ := h.1 [1] hone
  have hscalar : (ResolvedTensorType.new (.float .F32) []).reshape [-1] .ignoreStrides = .ok (.new (.float .F32) []) := by
    decide
  rw [hscalar] at hu
  cases hu
  cases hdims

end ResolvedTensorType
end NnEngine
