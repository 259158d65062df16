import NnEngine.Graph.ConvShape
import NnEngine.Result
import NnEngine.SlidingWindow

/-!
# The windows of a pooling

The sizes that `Pooling::output_shape` gives the output tell how many windows there are along each axis.  With
`ceil_mode` off the windows are those that fit the padded input; with `ceil_mode` on one more is taken when
those do not reach the end of the padded input.
-/

namespace NnEngine
namespace Pooling

open SlidingWindow (Axis)

/-- A pooling of an image whose axes the windows `a` cross, with the pads `post` after them. -/
structure Slides (p : Pooling) (x : ResolvedTensorDims) (a : Nat → Axis) (post : Nat → Nat) : Prop where
  rank : 2 ≤ x.length
  pads : ∃ pad, (p.pad = .notSet pad ∨ p.pad = .valid ∧ pad = defaultPad) ∧
    ∀ i, i + 2 < x.length → pad.at? i = some ((a i).pad, post i)
  sizes : ∀ i, i + 2 < x.length → x[p.layout.spatialAxis i]? = some (a i).size
  kernels : ∀ i, i + 2 < x.length → p.kernelShape[i]? = some (a i).kernel
  strides : ∀ i, i + 2 < x.length → p.strides.at? i = some (a i).stride
  dilations : ∀ i, i + 2 < x.length → p.dilations.at? i = some (a i).dilation
  kernel_pos : ∀ i, i + 2 < x.length → 0 < (a i).kernel
  stride_pos : ∀ i, i + 2 < x.length → 0 < (a i).stride
  fits : ∀ i, i + 2 < x.length → (a i).extent ≤ (a i).padded (post i)
  pads_lt : ∀ i, i + 2 < x.length → (a i).pad < (a i).extent ∧ post i < (a i).extent

/-- Window `o` begins before the end of the axis, and a window without gaps holds a position of it. -/
def Begins (a : Axis) (o : Nat) : Prop :=
  o * a.stride < a.size + a.pad ∧ (a.dilation = 1 → 0 < a.size → (a.positions o).Nonempty)

/-- What `out` windows cover: with the quotient rounded down all windows that fit, and with the quotient rounded
up no more than it takes to reach the end of the padded axis. -/
def Covers (ceilMode : Bool) (a : Axis) (post out : Nat) : Prop :=
  if ceilMode then
    0 < out ∧ (∀ o, o + 1 < out → Begins a o ∧ o * a.stride + a.extent < a.padded post) ∧
      a.padded post ≤ (out - 1) * a.stride + a.extent
  else
    (∀ o < out, Begins a o ∧ o * a.stride + a.extent ≤ a.padded post) ∧
      a.padded post < out * a.stride + a.extent

/-! ### One axis -/

section Axis

variable {a : Axis} {post o : Nat}

/-- A window that fits begins before the pad after the axis. -/
theorem begins_of_fits (hkernel : 0 < a.kernel) (hpad : a.pad < a.extent) (hpost : post < a.extent)
    (h : o * a.stride + a.extent ≤ a.padded post) : Begins a o := by
  have hlt : o * a.stride < a.size + a.pad := by
    unfold Axis.padded at h
    omega
  exact ⟨hlt, fun hdilation hsize => Axis.positions_nonempty hdilation hkernel hsize hpad hlt⟩

theorem covers_floor (hkernel : 0 < a.kernel) (hstride : 0 < a.stride) (hfits : a.extent ≤ a.padded post)
    (hpad : a.pad < a.extent) (hpost : post < a.extent) :
    Covers false a post ((a.padded post - a.extent) / a.stride + 1) := by
  refine ⟨fun o ho => ?_, ?_⟩
  · have hle := (Axis.lt_floor_iff hstride hfits).mp ho
    exact ⟨begins_of_fits hkernel hpad hpost hle, hle⟩
  · exact not_le.mp fun hle => Nat.lt_irrefl _ ((Axis.lt_floor_iff hstride hfits).mpr hle)

theorem covers_ceil (hkernel : 0 < a.kernel) (hstride : 0 < a.stride) (hfits : a.extent ≤ a.padded post)
    (hpad : a.pad < a.extent) (hpost : post < a.extent) :
    Covers true a post ((a.padded post - a.extent + a.stride - 1) / a.stride + 1) := by
  refine ⟨Nat.succ_pos _, fun o ho => ?_, ?_⟩
  · have hlt := (Axis.succ_lt_ceil_iff hstride hfits).mp ho
    exact ⟨begins_of_fits hkernel hpad hpost hlt.le, hlt⟩
  · rw [Nat.add_sub_cancel]
    exact not_lt.mp fun hlt => Nat.lt_irrefl _ ((Axis.succ_lt_ceil_iff hstride hfits).mpr hlt)

end Axis

/-! ### The shape of the output -/

section Shape

variable {p : Pooling} {x : ResolvedTensorDims} {a : Nat → Axis} {post : Nat → Nat}

/-- The sizes along the axes of an image. -/
theorem Slides.split (h : p.Slides x a post) : ∃ n c, split p.layout x =
    some (n, c, (List.range (x.length - 2)).map fun i => (a i).size) := by
  have hrank := h.rank
  have hne : x ≠ [] := List.ne_nil_of_length_pos (by omega)
  -- a list of sizes is told by what is read at each index
  have hlist {l : List Nat} (hget : ∀ i, l[i]? = if i + 2 < x.length then x[p.layout.spatialAxis i]? else none) :
      l = (List.range (x.length - 2)).map fun i => (a i).size := by
    ext i size
    rw [hget, List.getElem?_map]
    split
    · rename_i hi
      rw [h.sizes i hi, List.getElem?_range (by omega)]
      rfl
    · rw [List.getElem?_eq_none (by rw [List.length_range]; omega)]
      rfl
  cases hl : p.layout with
  | NCHW =>
      rw [hl] at hlist
      refine ⟨x[0], x[1], ?_⟩
      have hdrop := hlist (l := x.drop 2) fun i => by
        rw [List.getElem?_drop, Nat.add_comm]
        split
        · rfl
        · exact List.getElem?_eq_none (by omega)
      unfold Pooling.split
      simp [← hdrop, List.getElem?_eq_getElem (show 0 < x.length by omega),
        List.getElem?_eq_getElem (show 1 < x.length by omega)]
  | NHWC =>
      rw [hl] at hlist
      refine ⟨x[0], x.getLast hne, ?_⟩
      have hdrop := hlist (l := x.dropLast.drop 1) fun i => by
        rw [List.getElem?_drop, List.getElem?_dropLast, Nat.add_comm]
        simp only [Layout.spatialAxis, Nat.lt_sub_iff_add_lt]
      unfold Pooling.split
      simp [← hdrop, List.getElem?_eq_getElem (show 0 < x.length by omega), show 1 < x.length by omega,
        List.getLast?_eq_getLast_of_ne_nil hne]

theorem Slides.outputSize (h : p.Slides x a post) {i : Nat} (hi : i + 2 < x.length) :
    ∃ out, p.outputSize ((List.range (x.length - 2)).map fun i => (a i).size) i = some out ∧
      Covers p.ceilMode (a i) (post i) out := by
  have hkernel := h.kernel_pos i hi
  have hstride := h.stride_pos i hi
  have hfits := h.fits i hi
  obtain ⟨hpre, hpost⟩ := h.pads_lt i hi
  obtain ⟨pad, hpad, hat⟩ := h.pads
  have hget : ((List.range (x.length - 2)).map fun i => (a i).size)[i]? = some (a i).size := by
    rw [List.getElem?_map, List.getElem?_range (by omega)]
    rfl
  have hpadded : subUsize ((a i).size + (a i).pad + post i) ((a i).dilation * ((a i).kernel - 1) + 1) =
      some ((a i).padded (post i) - (a i).extent) := subUsize_eq_some.mpr ⟨hfits, rfl⟩
  have hgaps : subUsize (a i).kernel 1 = some ((a i).kernel - 1) := subUsize_eq_some.mpr ⟨hkernel, rfl⟩
  have hbody : p.outputSize ((List.range (x.length - 2)).map fun i => (a i).size) i =
      (if p.ceilMode then divCeil ((a i).padded (post i) - (a i).extent) (a i).stride
        else divUsize ((a i).padded (post i) - (a i).extent) (a i).stride).map (· + 1) := by
    unfold Pooling.outputSize
    rcases hpad with hpad | ⟨hpad, rfl⟩ <;> rw [hpad] <;> cases p.ceilMode <;>
      simp [ConvShape.paddedInputSize, ConvShape.distancePerConv, hget, hat i hi, h.kernels i hi, h.strides i hi,
        h.dilations i hi, hgaps, hpadded, Option.map_eq_bind]
  rw [hbody]
  cases p.ceilMode with
  | false =>
      rw [if_neg (by decide), divUsize_eq_some.mpr ⟨hstride.ne', rfl⟩]
      exact ⟨_, rfl, covers_floor hkernel hstride hfits hpre hpost⟩
  | true =>
      rw [if_pos rfl, divCeil_eq_some.mpr ⟨hstride.ne', rfl⟩]
      exact ⟨_, rfl, covers_ceil hkernel hstride hfits hpre hpost⟩

theorem Covers.pos {c : Bool} {b : Axis} {r out : Nat} (hfits : b.extent ≤ b.padded r) (h : Covers c b r out) :
    0 < out := by
  cases c with
  | true => exact h.1
  | false =>
      obtain ⟨-, hnext⟩ := h
      refine Nat.pos_of_ne_zero fun hzero => ?_
      rw [hzero, Nat.zero_mul, Nat.zero_add] at hnext
      omega

end Shape

/-! ### Windows that begin on the axis and are not taken -/

/-- With the quotient rounded down the next window does not fit; with the quotient rounded up it begins after the
axis. -/
def NoneMissing (ceilMode : Bool) (a : Axis) (post out : Nat) : Prop :=
  if ceilMode then a.size + a.pad ≤ out * a.stride else a.padded post < out * a.stride + a.extent

/-- Windows of three that move by two. -/
def ceilPool : Pooling where
  pad := .notSet defaultPad
  ceilMode := true
  dilations := ⟨none, 1⟩
  kernelShape := [3, 3]
  strides := ⟨none, 2⟩
  layout := .NCHW

theorem ceilPool_slides : ceilPool.Slides [1, 1, 7, 7] (fun _ => ⟨7, 3, 2, 1, 0⟩) fun _ => 0 := by
  have hcases {i : Nat} (hi : i + 2 < [1, 1, 7, 7].length) : i = 0 ∨ i = 1 := by
    simp only [List.length_cons, List.length_nil] at hi
    omega
  refine ⟨by decide, ⟨_, .inl rfl, fun _ _ => rfl⟩, fun i hi => ?_, fun i hi => ?_, fun _ _ => rfl, fun _ _ => rfl,
    fun _ _ => by decide, fun _ _ => by decide, fun _ _ => by decide, fun _ _ => by decide⟩
  all_goals obtain rfl | rfl := hcases hi <;> rfl

end Pooling
end NnEngine
