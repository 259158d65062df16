import NnEngine.Strided
import NnEngine.Tensor.Footprint

/-!
# Reshaping without a copy

`try_reshape` of `src/tensor/types.rs`.  A vector that is used as a stack is a list whose first entry is
the last one of the vector.
-/

namespace NnEngine

/-- Why there is no reshaped type: a panic, or the answer `None`. -/
inductive ReshapeStop
  | panic
  | notReshapable
  deriving DecidableEq, Repr

/-- The variables of the loops of `try_reshape`; `orig` is `orig_dims` and `orig_strides`. -/
structure Regroup where
  targetDims : List Nat
  orig : List (Nat × Nat)
  newStrides : List Nat
  cur : Nat
  target : Nat
  stride : Nat
  lastDim : Nat
  lastStride : Nat
  deriving DecidableEq, Repr

namespace Regroup

/-- The body of the inner loop after its first test. -/
def step (g : Regroup) : Except ReshapeStop Regroup :=
  if g.target < g.cur then
    match g.targetDims with
    | [] => .error .panic
    | t :: targetDims =>
        .ok { g with target := g.target * t, targetDims, newStrides := g.stride :: g.newStrides }
  else
    match g.orig with
    | [] => .error .panic
    | (d, s) :: orig =>
        if g.lastStride * g.lastDim = s then
          .ok { g with lastDim := d, lastStride := s, cur := g.cur * d, orig }
        else .error .notReshapable

/-- The inner loop.  Each round pops a stack, so the number of entries bounds the rounds. -/
def loop (fuel : Nat) (g : Regroup) : Except ReshapeStop Regroup :=
  -- A remainder by zero panics.
  if g.target = 0 then .error .panic
  else if g.cur % g.target = 0 then .ok g
  else match fuel with
    | 0 => .error .panic
    | fuel + 1 => g.step.bind (loop fuel)

/-- The variables before the inner loop, after a target dim and an axis of the source were popped. -/
def start (t : Nat) (targetDims : List Nat) (d s : Nat) (orig : List (Nat × Nat)) (newStrides : List Nat) : Regroup :=
  { targetDims, orig, newStrides := s :: newStrides, cur := d, target := t, stride := s, lastDim := d,
    lastStride := s }

/-- The number of entries on the stacks. -/
def entries (g : Regroup) : Nat := g.targetDims.length + g.orig.length

end Regroup

/-- The outer loop, which pops a target dim in each round, and the assertion after it. -/
def reshapeLoop : Nat → List Nat → List (Nat × Nat) → List Nat → Except ReshapeStop (List Nat)
  | _, [], orig, newStrides => if orig.isEmpty then .ok newStrides else .error .panic
  | 0, _ :: _, _, _ => .error .panic
  | _ + 1, _ :: _, [], _ => .error .panic
  | fuel + 1, t :: targetDims, (d, s) :: orig, newStrides => do
      let start := Regroup.start t targetDims d s orig newStrides
      let g ← start.loop start.entries
      let div := g.cur / g.target
      reshapeLoop fuel g.targetDims (if div ≠ 1 then (div, g.target * s) :: g.orig else g.orig) g.newStrides

/-- The strides with zeros on the axes of one element. -/
def fillStrides : List Nat → List Nat → Except ReshapeStop (List Nat)
  | [], strides => if strides.isEmpty then .ok [] else .error .panic
  | d :: dims, strides =>
      if d = 1 then (fillStrides dims strides).map (0 :: ·)
      else match strides with
        | [] => .error .panic
        | s :: strides => (fillStrides dims strides).map (s :: ·)

/-- `compatible_with_scalar`. -/
def ResolvedTensorDims.compatibleWithScalar (dims : ResolvedTensorDims) : Bool :=
  dims.isEmpty || ResolvedTensorDims.size dims == 1

namespace ResolvedTensorType

/-- The axes that `try_reshape` looks at, the innermost first. -/
def reshapedAxes (ty : ResolvedTensorType) : List (Nat × Nat) :=
  ((ty.dims.zip ty.stride).filter fun a => a.1 ≠ 1).reverse

/-- `try_reshape`. -/
def tryReshape (ty : ResolvedTensorType) (target : ResolvedTensorDims) :
    Except ReshapeStop ResolvedTensorType :=
  if ResolvedTensorDims.compatibleWithScalar ty.dims && ResolvedTensorDims.compatibleWithScalar target then
    .ok (.new ty.elemType target)
  else if ResolvedTensorDims.size ty.dims ≠ ResolvedTensorDims.size target then .error .notReshapable
  else do
    let targetDims := (target.filter fun d => d ≠ 1).reverse
    let newStrides ← reshapeLoop targetDims.length targetDims ty.reshapedAxes []
    let stride ← fillStrides target newStrides
    pure { elemType := ty.elemType, dims := target, stride }

end ResolvedTensorType

/-! ### The inner loop -/

namespace Regroup

open Strided

/-- The source axes that are left, with the group. -/
def axes (g : Regroup) : List (Nat × Nat) := (g.cur, g.stride) :: g.orig

/-- The target dims that are left, with the group. -/
def dims (g : Regroup) : List Nat := g.target :: g.targetDims

/-- What holds at the head of the inner loop: no axis has one element, both sides have the same elements,
and the axes of the group have no gap. -/
structure Inv (g : Regroup) : Prop where
  cur : 1 < g.cur
  target : 1 < g.target
  targetDims : ∀ t ∈ g.targetDims, 1 < t
  orig : ∀ a ∈ g.orig, 1 < a.1
  size : g.cur * size g.orig = g.target * g.targetDims.prod
  last : g.lastStride * g.lastDim = g.stride * g.cur

/-- What rounds that pop these target dims keep: each dim after the first gets the stride of the group. -/
structure Leads (b : Nat) (popped : List Nat) (g g' : Regroup) : Prop where
  stride : g'.stride = g.stride
  target : g'.target = g.target * popped.prod
  targetDims : g.targetDims = popped ++ g'.targetDims
  newStrides : g'.newStrides = List.replicate popped.length g.stride ++ g.newStrides
  joins : Joins b g.axes g.dims ↔ Joins b g'.axes g'.dims
  splits : Splits b g.axes g.dims ↔ (popped = [] ∨ g.stride = 0) ∧ Splits b g'.axes g'.dims
  agree : ∀ rest, 0 < Strided.size rest →
    (Agree ((g.target, g.stride) :: (popped.map (·, g.stride) ++ rest)) g.axes ↔
      (popped = [] ∨ g.stride = 0) ∧ Agree ((g'.target, g.stride) :: rest) g'.axes)
  spread : ∀ context, Spread (g.axes ++ context) → Spread (g'.axes ++ context)

theorem Leads.refl (b : Nat) (g : Regroup) : Leads b [] g g where
  stride := rfl
  target := (Nat.mul_one g.target).symm
  targetDims := rfl
  newStrides := rfl
  joins := Iff.rfl
  splits := (and_iff_right (Or.inl rfl)).symm
  agree := fun _ _ => (and_iff_right (Or.inl rfl)).symm
  spread := fun _ h => h

variable {b : Nat} {g g' : Regroup}

/-- A boundary that does not divide the group. -/
theorem Leads.cut {t : Nat} {targetDims popped : List Nat} (hb : 0 < b) (hg : g.Inv)
    (hdims : g.targetDims = t :: targetDims) (hlt : g.target < g.cur) (hdvd : ¬ g.target ∣ g.cur)
    (hpopped : ∀ x ∈ popped, 0 < x)
    (h : Leads b popped { g with target := g.target * t, targetDims, newStrides := g.stride :: g.newStrides } g') :
    Leads b (t :: popped) g g' := by
  have ht : 1 < t := hg.targetDims t (hdims ▸ List.mem_cons_self)
  have haxes : ∀ a ∈ g.orig, 0 < a.1 := fun a ha => Nat.lt_of_succ_lt (hg.orig a ha)
  have hdimsEq : g.dims = g.target :: t :: targetDims := congrArg (g.target :: ·) hdims
  have hflag : ((t :: popped) = [] ∨ g.stride = 0) ↔ g.stride = 0 := or_iff_right (List.cons_ne_nil t popped)
  constructor
  case stride => exact h.stride
  case target => rw [h.target, List.prod_cons, Nat.mul_assoc]
  case spread => exact h.spread
  case targetDims =>
      rw [hdims]
      exact congrArg (t :: ·) h.targetDims
  case newStrides =>
      rw [h.newStrides, List.length_cons, List.replicate_succ', List.append_assoc]
      rfl
  case joins =>
      rw [hdimsEq]
      exact (joins_cut hb haxes hlt).trans h.joins
  case splits =>
      rw [hdimsEq, hflag]
      refine (splits_cut hb haxes hg.target hlt hdvd).trans (and_congr_right fun hzero => ?_)
      exact h.splits.trans (and_iff_right (Or.inr hzero))
  case agree =>
      intro rest hrest
      have hsize : 0 < Strided.size (popped.map (·, g.stride) ++ rest) := by
        rw [Strided.size, List.map_append, List.prod_append]
        refine Nat.mul_pos (List.prod_pos ?_) hrest
        intro x hx
        obtain ⟨y, hy, rfl⟩ := List.mem_map.mp hx
        obtain ⟨z, hz, rfl⟩ := List.mem_map.mp hy
        exact hpopped z hz
      rw [hflag]
      refine (agree_cut hg.target ht hlt g.stride hsize).trans (and_congr_right fun hzero => ?_)
      exact (h.agree rest hrest).trans (and_iff_right (Or.inr hzero))

/-- An axis that continues the group. -/
theorem Leads.merge {d : Nat} {orig : List (Nat × Nat)} {popped : List Nat} (hb : 0 < b) (hg : g.Inv)
    (horig : g.orig = (d, g.stride * g.cur) :: orig) (hlt : g.cur < g.target)
    (h : Leads b popped { g with lastDim := d, lastStride := g.stride * g.cur, cur := g.cur * d, orig } g') :
    Leads b popped g g' := by
  have hpos : ∀ x ∈ g.targetDims, 0 < x := fun x hx => Nat.lt_of_succ_lt (hg.targetDims x hx)
  have haxes : g.axes = (g.cur, g.stride) :: (d, g.stride * g.cur) :: orig := congrArg (_ :: ·) horig
  have hd : 1 < d := hg.orig (d, g.stride * g.cur) (horig ▸ List.mem_cons_self)
  constructor
  case stride => exact h.stride
  case target => exact h.target
  case targetDims => exact h.targetDims
  case newStrides => exact h.newStrides
  case spread =>
      intro context hspread
      rw [haxes] at hspread
      exact h.spread context (Spread.merge hg.cur hd hspread)
  case joins =>
      rw [haxes]
      exact (joins_merge hb hpos hlt).trans ((and_iff_right rfl).trans h.joins)
  case splits =>
      rw [haxes]
      exact (splits_merge hb (Nat.lt_of_succ_lt hg.cur) hpos hlt).trans h.splits
  case agree =>
      intro rest hrest
      rw [haxes]
      exact (agree_merge g.cur d g.stride _ orig).trans (h.agree rest hrest)

/-- What one round of the inner loop does. -/
theorem step_cases (hg : g.Inv) (hdvd : ¬ g.target ∣ g.cur) :
    (∃ t targetDims, g.targetDims = t :: targetDims ∧ g.target < g.cur ∧
      g.step = .ok { g with target := g.target * t, targetDims, newStrides := g.stride :: g.newStrides }) ∨
    (∃ d s orig, g.orig = (d, s) :: orig ∧ g.cur < g.target ∧
      g.step = if s = g.stride * g.cur then .ok { g with lastDim := d, lastStride := s, cur := g.cur * d, orig }
        else .error .notReshapable) := by
  have hne : g.cur ≠ g.target := fun h => hdvd (h ▸ dvd_rfl)
  by_cases hlt : g.target < g.cur
  · left
    cases htarget : g.targetDims with
    | nil =>
        -- The rest of the source would be less than one element.
        have hsize := hg.size
        rw [htarget, List.prod_nil, Nat.mul_one] at hsize
        have hpos : 0 < Strided.size g.orig := by
          refine Nat.pos_of_ne_zero fun hzero => ?_
          rw [hzero, Nat.mul_zero] at hsize
          have := hg.target
          omega
        have hle : g.cur * 1 ≤ g.cur * Strided.size g.orig := Nat.mul_le_mul_left g.cur hpos
        omega
    | cons t targetDims =>
        refine ⟨t, targetDims, rfl, hlt, ?_⟩
        rw [step, if_pos hlt, htarget]
  · right
    cases horig : g.orig with
    | nil =>
        have hsize := hg.size
        rw [horig, size_nil, Nat.mul_one] at hsize
        exact absurd ⟨_, hsize⟩ hdvd
    | cons a orig =>
        obtain ⟨d, s⟩ := a
        refine ⟨d, s, orig, rfl, by omega, ?_⟩
        rw [step, if_neg hlt, horig, hg.last]
        exact if_congr eq_comm rfl rfl

theorem Inv.cut {t : Nat} {targetDims : List Nat} (hg : g.Inv) (hdims : g.targetDims = t :: targetDims) :
    Inv { g with target := g.target * t, targetDims, newStrides := g.stride :: g.newStrides } where
  cur := hg.cur
  target := by
    have ht : 1 < t := hg.targetDims t (hdims ▸ List.mem_cons_self)
    have htarget := hg.target
    show 1 < g.target * t
    nlinarith
  targetDims := fun x hx => hg.targetDims x (hdims ▸ List.mem_cons_of_mem t hx)
  orig := hg.orig
  size := by
    have hsize := hg.size
    rw [hdims, List.prod_cons, ← Nat.mul_assoc] at hsize
    exact hsize
  last := hg.last

theorem Inv.merge {d : Nat} {orig : List (Nat × Nat)} (hg : g.Inv)
    (horig : g.orig = (d, g.stride * g.cur) :: orig) :
    Inv { g with lastDim := d, lastStride := g.stride * g.cur, cur := g.cur * d, orig } where
  cur := by
    have hd : 1 < d := hg.orig (d, g.stride * g.cur) (horig ▸ List.mem_cons_self)
    have hcur := hg.cur
    show 1 < g.cur * d
    nlinarith
  target := hg.target
  targetDims := hg.targetDims
  orig := fun a ha => hg.orig a (horig ▸ List.mem_cons_of_mem _ ha)
  size := by
    have hsize := hg.size
    rw [horig, size_cons, ← Nat.mul_assoc] at hsize
    exact hsize
  last := Nat.mul_assoc g.stride g.cur d

theorem Inv.target_ne_zero (hg : g.Inv) : g.target ≠ 0 := Nat.ne_of_gt (Nat.lt_of_succ_lt hg.target)

theorem loop_of_dvd (hg : g.Inv) (fuel : Nat) (hdvd : g.target ∣ g.cur) : g.loop fuel = .ok g := by
  unfold loop
  rw [if_neg hg.target_ne_zero, if_pos (Nat.mod_eq_zero_of_dvd hdvd)]

theorem loop_succ (hg : g.Inv) (fuel : Nat) (hdvd : ¬ g.target ∣ g.cur) :
    g.loop (fuel + 1) = g.step.bind (loop fuel) := by
  rw [loop, if_neg hg.target_ne_zero, if_neg fun h => hdvd (Nat.dvd_of_mod_eq_zero h)]

/-- The inner loop ends with a group that the target divides, or at a gap that no boundary covers. -/
theorem loop_spec (hb : 0 < b) {fuel : Nat} (hg : g.Inv) (hfuel : g.entries ≤ fuel) :
    (g.loop fuel = .error .notReshapable ∧ ¬ Joins b g.axes g.dims) ∨
      ∃ g' popped, g.loop fuel = .ok g' ∧ g'.Inv ∧ g'.target ∣ g'.cur ∧ Leads b popped g g' := by
  induction fuel generalizing g with
  | zero =>
      have hentries : g.targetDims.length + g.orig.length = 0 := Nat.le_zero.mp hfuel
      have htarget : g.targetDims = [] := List.length_eq_zero_iff.mp (by omega)
      have horig : g.orig = [] := List.length_eq_zero_iff.mp (by omega)
      have hsize := hg.size
      rw [htarget, horig, size_nil, List.prod_nil, Nat.mul_one, Nat.mul_one] at hsize
      have hdvd : g.target ∣ g.cur := hsize ▸ dvd_rfl
      exact Or.inr ⟨g, [], loop_of_dvd hg 0 hdvd, hg, hdvd, .refl b g⟩
  | succ fuel ih =>
      by_cases hdvd : g.target ∣ g.cur
      · exact Or.inr ⟨g, [], loop_of_dvd hg (fuel + 1) hdvd, hg, hdvd, .refl b g⟩
      rw [loop_succ hg fuel hdvd]
      obtain ⟨t, targetDims, hdims, hlt, hstep⟩ | ⟨d, s, orig, horig, hlt, hstep⟩ := step_cases hg hdvd
      · rw [hstep]
        have hentries : entries
            { g with target := g.target * t, targetDims, newStrides := g.stride :: g.newStrides } ≤ fuel := by
          unfold entries at hfuel ⊢
          rw [hdims, List.length_cons] at hfuel
          dsimp only
          omega
        obtain ⟨hstop, hjoins⟩ | ⟨g', popped, hok, hinv, hdvd', hleads⟩ := ih (hg.cut hdims) hentries
        · refine Or.inl ⟨hstop, fun h => hjoins ?_⟩
          have hdimsEq : g.dims = g.target :: t :: targetDims := congrArg (g.target :: ·) hdims
          rw [hdimsEq] at h
          exact (joins_cut hb (fun a ha => Nat.lt_of_succ_lt (hg.orig a ha)) hlt).mp h
        · have hpopped : ∀ x ∈ popped, 0 < x := by
            intro x hx
            have hmem : x ∈ targetDims := by
              have heq : targetDims = popped ++ g'.targetDims := hleads.targetDims
              rw [heq]
              exact List.mem_append_left _ hx
            exact Nat.lt_of_succ_lt (hg.targetDims x (hdims ▸ List.mem_cons_of_mem t hmem))
          exact Or.inr ⟨g', t :: popped, hok, hinv, hdvd', hleads.cut hb hg hdims hlt hdvd hpopped⟩
      · rw [hstep]
        by_cases hs : s = g.stride * g.cur
        · subst hs
          rw [if_pos rfl]
          have hentries : entries
              { g with lastDim := d, lastStride := g.stride * g.cur, cur := g.cur * d, orig } ≤ fuel := by
            unfold entries at hfuel ⊢
            rw [horig, List.length_cons] at hfuel
            dsimp only
            omega
          obtain ⟨hstop, hjoins⟩ | ⟨g', popped, hok, hinv, hdvd', hleads⟩ := ih (hg.merge horig) hentries
          · refine Or.inl ⟨hstop, fun h => hjoins ?_⟩
            have haxes : g.axes = (g.cur, g.stride) :: (d, g.stride * g.cur) :: orig := congrArg (_ :: ·) horig
            rw [haxes] at h
            exact ((joins_merge hb (fun x hx => Nat.lt_of_succ_lt (hg.targetDims x hx)) hlt).mp h).2
          · exact Or.inr ⟨g', popped, hok, hinv, hdvd', hleads.merge hb hg horig hlt⟩
        · rw [if_neg hs]
          refine Or.inl ⟨rfl, fun h => hs ?_⟩
          have haxes : g.axes = (g.cur, g.stride) :: (d, s) :: orig := congrArg (_ :: ·) horig
          rw [haxes] at h
          exact ((joins_merge hb (fun x hx => Nat.lt_of_succ_lt (hg.targetDims x hx)) hlt).mp h).1

/-- The source axes after the group. -/
def rest (g : Regroup) : List (Nat × Nat) :=
  if g.cur / g.target ≠ 1 then (g.cur / g.target, g.target * g.stride) :: g.orig else g.orig

/-- A group that ends inside an axis, or at its end. -/
theorem rest_cases (hg : g.Inv) (hdvd : g.target ∣ g.cur) :
    (∃ q, 1 < q ∧ g.cur = g.target * q ∧ g.rest = (q, g.stride * g.target) :: g.orig) ∨
      g.cur = g.target ∧ g.rest = g.orig := by
  obtain ⟨q, hq⟩ := hdvd
  have hdiv : g.cur / g.target = q := by
    rw [hq]
    exact Nat.mul_div_cancel_left q (Nat.lt_of_succ_lt hg.target)
  have hpos : q ≠ 0 := by
    rintro rfl
    have := hg.cur
    omega
  unfold rest
  rw [hdiv]
  by_cases hone : q = 1
  · right
    exact ⟨by rw [hq, hone, Nat.mul_one], if_neg (not_not_intro hone)⟩
  · left
    exact ⟨q, by omega, hq, by rw [if_pos hone, Nat.mul_comm]⟩

theorem rest_orig (hg : g.Inv) (hdvd : g.target ∣ g.cur) : ∀ a ∈ g.rest, 1 < a.1 := by
  obtain ⟨q, hq, -, heq⟩ | ⟨-, heq⟩ := rest_cases hg hdvd
  · rw [heq, List.forall_mem_cons]
    exact ⟨hq, hg.orig⟩
  · rw [heq]
    exact hg.orig

theorem rest_size (hg : g.Inv) (hdvd : g.target ∣ g.cur) : Strided.size g.rest = g.targetDims.prod := by
  have hpos : 0 < g.target := Nat.lt_of_succ_lt hg.target
  have hsize := hg.size
  obtain ⟨q, -, hcur, heq⟩ | ⟨hcur, heq⟩ := rest_cases hg hdvd
  · rw [hcur, Nat.mul_assoc] at hsize
    rw [heq, size_cons]
    exact Nat.eq_of_mul_eq_mul_left hpos hsize
  · rw [hcur] at hsize
    rw [heq]
    exact Nat.eq_of_mul_eq_mul_left hpos hsize

theorem rest_joins (hb : 0 < b) (hg : g.Inv) (hdvd : g.target ∣ g.cur) :
    Joins b g.axes g.dims ↔ Joins (b * g.target) g.rest g.targetDims := by
  have hpos : 0 < g.target := Nat.lt_of_succ_lt hg.target
  unfold axes dims
  obtain ⟨q, hq, hcur, heq⟩ | ⟨hcur, heq⟩ := rest_cases hg hdvd
  · rw [hcur, heq]
    exact joins_divide hb (fun a ha => Nat.lt_of_succ_lt (hg.orig a ha)) hq hpos
  · rw [hcur, heq]
    exact joins_end hb hg.orig hpos

theorem rest_splits (hb : 0 < b) (hg : g.Inv) (hdvd : g.target ∣ g.cur) :
    Splits b g.axes g.dims ↔ Splits (b * g.target) g.rest g.targetDims := by
  have hpos : 0 < g.target := Nat.lt_of_succ_lt hg.target
  have horig : ∀ a ∈ g.orig, 0 < a.1 := fun a ha => Nat.lt_of_succ_lt (hg.orig a ha)
  unfold axes dims
  obtain ⟨q, hq, hcur, heq⟩ | ⟨hcur, heq⟩ := rest_cases hg hdvd
  · rw [hcur, heq]
    exact splits_divide hb horig hg.targetDims hpos (Nat.lt_of_succ_lt hq)
  · rw [hcur, heq]
    exact splits_end hb horig hg.targetDims hpos

theorem rest_agree (hg : g.Inv) (hdvd : g.target ∣ g.cur) (inner : List (Nat × Nat)) :
    Agree ((g.target, g.stride) :: inner) g.axes ↔ Agree inner g.rest := by
  have hpos : 0 < g.target := Nat.lt_of_succ_lt hg.target
  unfold axes
  obtain ⟨q, -, hcur, heq⟩ | ⟨hcur, heq⟩ := rest_cases hg hdvd
  · rw [heq, hcur, ← agree_merge]
    exact agree_cons hpos g.stride inner _
  · rw [heq, hcur]
    exact agree_cons hpos g.stride inner g.orig

/-- The axis that the target gets from the group moves to the context. -/
theorem rest_spread (hg : g.Inv) (hdvd : g.target ∣ g.cur) {context : List (Nat × Nat)}
    (h : Spread (g.axes ++ context)) : Spread (g.rest ++ (g.target, g.stride) :: context) := by
  unfold axes at h
  obtain ⟨q, hq, hcur, heq⟩ | ⟨hcur, heq⟩ := rest_cases hg hdvd
  · rw [hcur] at h
    rw [heq]
    exact (Spread.split hg.target hq h).perm (List.perm_middle.symm.cons _)
  · rw [hcur] at h
    rw [heq]
    exact Spread.perm h List.perm_middle.symm

end Regroup

/-! ### The outer loop -/

theorem size_zip {dims strides : List Nat} (h : strides.length = dims.length) :
    Strided.size (dims.zip strides) = dims.prod := by
  rw [Strided.size, List.map_fst_zip (Nat.le_of_eq h.symm)]

theorem zip_replicate_self (dims : List Nat) (s : Nat) :
    dims.zip (List.replicate dims.length s) = dims.map (·, s) := by
  induction dims with
  | nil => rfl
  | cons d dims ih =>
      rw [List.length_cons, List.replicate_succ, List.zip_cons_cons, List.map_cons, ih]

theorem one_lt_prod {t : Nat} {dims : List Nat} (h : ∀ x ∈ t :: dims, 1 < x) : 1 < (t :: dims).prod := by
  have ht := h t List.mem_cons_self
  have hprod : 0 < dims.prod := List.prod_pos fun x hx => Nat.lt_of_succ_lt (h x (List.mem_cons_of_mem t hx))
  rw [List.prod_cons]
  nlinarith

/-- The target axes of a group: one, or some with stride 0. -/
theorem spread_group {popped : List Nat} {s t t' : Nat} {outer context : List (Nat × Nat)}
    (hflag : popped = [] ∨ s = 0) (ht : t' = t * popped.prod)
    (h : Strided.Spread (outer ++ (t', s) :: context)) :
    Strided.Spread ((t, s) :: (popped.map (·, s) ++ outer) ++ context) := by
  have h' : Strided.Spread ((t', s) :: (outer ++ context)) := h.perm List.perm_middle
  obtain rfl | rfl := hflag
  · rw [List.prod_nil, Nat.mul_one] at ht
    exact ht ▸ h'
  · have hzero : ∀ x ∈ popped.map (·, 0), x.2 = 0 := by
      intro x hx
      obtain ⟨y, -, rfl⟩ := List.mem_map.mp hx
      rfl
    rw [List.cons_append, List.append_assoc]
    refine List.pairwise_cons.mpr ⟨fun y _ => Or.inl rfl, List.pairwise_append.mpr ⟨?_, ?_, ?_⟩⟩
    · exact List.pairwise_of_forall_mem_list fun x hx y _ => Or.inl (hzero x hx)
    · exact (List.pairwise_cons.mp h').2
    · exact fun x hx y _ => Or.inl (hzero x hx)

open Strided in
theorem reshapeLoop_nil {b : Nat} (fuel : Nat) (newStrides : List Nat) {orig : List (Nat × Nat)}
    (horig : ∀ a ∈ orig, 1 < a.1) (hsize : size orig = 1) :
    ∃ strides : List Nat, reshapeLoop fuel [] orig newStrides = .ok (strides.reverse ++ newStrides) ∧
      strides.length = 0 ∧ Joins b orig [] ∧ (Agree ([].zip strides) orig ↔ Splits b orig []) ∧
      (Splits b orig [] → ∀ context, Spread (orig ++ context) → Spread ([].zip strides ++ context)) := by
  cases orig with
  | cons a orig =>
      have hlt : 1 < ((a :: orig).map Prod.fst).prod := by
        refine one_lt_prod fun x hx => ?_
        obtain ⟨y, hy, rfl⟩ := List.mem_map.mp (show x ∈ (a :: orig).map Prod.fst from hx)
        exact horig y hy
      exact absurd hsize (Nat.ne_of_gt hlt)
  | nil =>
      refine ⟨[], ?_, rfl, List.isChain_nil, iff_of_true (fun n _ => rfl) nofun, fun _ _ h => h⟩
      cases fuel <;> rfl

open Strided in
/-- The strides are found if and only if axes without a boundary between them have no gap, and they number
the elements as the source does if and only if each boundary inside an axis divides its end.  Then axes that
are apart stay apart. -/
theorem reshapeLoop_spec {b fuel : Nat} (hb : 0 < b) {targetDims newStrides : List Nat} {orig : List (Nat × Nat)}
    (hdims : ∀ t ∈ targetDims, 1 < t) (horig : ∀ a ∈ orig, 1 < a.1) (hsize : size orig = targetDims.prod)
    (hfuel : targetDims.length ≤ fuel) :
    (reshapeLoop fuel targetDims orig newStrides = .error .notReshapable ∧ ¬ Joins b orig targetDims) ∨
      ∃ strides, reshapeLoop fuel targetDims orig newStrides = .ok (strides.reverse ++ newStrides) ∧
        strides.length = targetDims.length ∧ Joins b orig targetDims ∧
        (Agree (targetDims.zip strides) orig ↔ Splits b orig targetDims) ∧
        (Splits b orig targetDims → ∀ context, Spread (orig ++ context) →
          Spread (targetDims.zip strides ++ context)) := by
  induction fuel generalizing b targetDims newStrides orig with
  | zero =>
      obtain rfl : targetDims = [] := List.length_eq_zero_iff.mp (Nat.le_zero.mp hfuel)
      exact Or.inr (reshapeLoop_nil 0 newStrides horig hsize)
  | succ fuel ih =>
      cases targetDims with
      | nil => exact Or.inr (reshapeLoop_nil (fuel + 1) newStrides horig hsize)
      | cons t targetDims =>
          cases orig with
          | nil => exact absurd hsize (Nat.ne_of_lt (one_lt_prod hdims))
          | cons a orig =>
              obtain ⟨d, s⟩ := a
              have hstart : (Regroup.start t targetDims d s orig newStrides).Inv :=
                { cur := horig (d, s) List.mem_cons_self
                  target := hdims t List.mem_cons_self
                  targetDims := fun x hx => hdims x (List.mem_cons_of_mem t hx)
                  orig := fun a ha => horig a (List.mem_cons_of_mem _ ha)
                  size := hsize
                  last := rfl }
              obtain ⟨hstop, hjoins⟩ | ⟨g, popped, hok, hinv, hdvd, hleads⟩ :=
                Regroup.loop_spec hb hstart (Nat.le_refl _)
              · left
                refine ⟨?_, hjoins⟩
                rw [reshapeLoop]
                dsimp only
                rw [hstop]
                rfl
              · have hstride : g.stride = s := hleads.stride
                have htarget : targetDims = popped ++ g.targetDims := hleads.targetDims
                have hlen : g.targetDims.length ≤ fuel := by
                  rw [htarget, List.length_cons, List.length_append] at hfuel
                  omega
                have hb' : 0 < b * g.target := Nat.mul_pos hb (Nat.lt_of_succ_lt hinv.target)
                have hnext : ∀ x : Except ReshapeStop (List Nat),
                    reshapeLoop fuel g.targetDims g.rest g.newStrides = x →
                    reshapeLoop (fuel + 1) (t :: targetDims) ((d, s) :: orig) newStrides = x := by
                  intro x hx
                  rw [reshapeLoop]
                  dsimp only
                  rw [hok, ← hx, Regroup.rest, hstride]
                  rfl
                have hjoins := hleads.joins.trans (Regroup.rest_joins hb hinv hdvd)
                have hsplits := Regroup.rest_splits hb hinv hdvd
                obtain ⟨hstop, hnot⟩ | ⟨strides, hstrides, hlength, hrest, hagree, hspread⟩ :=
                  ih hb' hinv.targetDims (Regroup.rest_orig hinv hdvd) (Regroup.rest_size hinv hdvd) hlen
                · exact Or.inl ⟨hnext _ hstop, fun h => hnot (hjoins.mp h)⟩
                · right
                  have hzip : (t :: targetDims).zip (s :: (List.replicate popped.length s ++ strides)) =
                      (t, s) :: (popped.map (·, s) ++ g.targetDims.zip strides) := by
                    rw [List.zip_cons_cons, htarget, List.zip_append (List.length_replicate.symm),
                      zip_replicate_self]
                  refine ⟨s :: (List.replicate popped.length s ++ strides), ?_, ?_, hjoins.mpr hrest, ?_, ?_⟩
                  · refine (hnext _ hstrides).trans (congrArg Except.ok ?_)
                    rw [hleads.newStrides]
                    simp [Regroup.start]
                  · rw [htarget]
                    simp [hlength]
                  · have hpos : 0 < Strided.size (g.targetDims.zip strides) := by
                      rw [size_zip hlength]
                      exact List.prod_pos fun x hx => Nat.lt_of_succ_lt (hinv.targetDims x hx)
                    rw [hzip]
                    refine (hleads.agree _ hpos).trans (Iff.trans ?_ hleads.splits.symm)
                    refine and_congr_right fun _ => ?_
                    rw [hsplits, ← hagree]
                    have hgroup := Regroup.rest_agree hinv hdvd (g.targetDims.zip strides)
                    rwa [hstride] at hgroup
                  · intro hall context hcontext
                    obtain ⟨hflag, hall⟩ := hleads.splits.mp hall
                    have houter := hspread (hsplits.mp hall) _
                      (Regroup.rest_spread hinv hdvd (hleads.spread context hcontext))
                    rw [hzip]
                    exact spread_group hflag hleads.target (hstride ▸ houter)

end NnEngine
