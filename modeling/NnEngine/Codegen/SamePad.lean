import NnEngine.Graph.ConvShape

/-!
# The pads of `SAME`

The pads that the set-up of cuDNN in `src/codegen/cuda.rs` computes, and the ones that `build_im2col` of
`src/codegen/cpu/translator.rs` uses.  The set-up of cuDNN leaves out the dilation and always reads the sizes
of NCHW: `samePads_iff`.
-/

namespace NnEngine

namespace Conv

/-- `calc` of the set-up of cuDNN. -/
def cudnnCalc (cv : Conv) (inputDims weightDims outputDims : List Nat) (dim : Nat) : Option (Nat × Nat) := do
  let input ← inputDims[2 + dim]?
  let output ← outputDims[2 + dim]?
  let stride ← cv.strides.at? dim
  let steps ← subUsize output 1
  let kernel ← weightDims[2 + dim]?
  let padTotal ← subUsize (stride * steps + kernel) input
  let padPre := padTotal / 2 + if cv.pad = .sameLower then padTotal % 2 else 0
  pure (padPre, padTotal - padPre)

/-- `(pad_h_pre, pad_w_pre, pad_h_post, pad_w_post)`. -/
def cudnnPads (cv : Conv) (inputDims weightDims outputDims : List Nat) : Option (Nat × Nat × Nat × Nat) :=
  match cv.pad with
  | .notSet pad => do
      let h ← pad.at? 0
      let w ← pad.at? 1
      pure (h.1, w.1, h.2, w.2)
  | .valid => some (0, 0, 0, 0)
  | .sameUpper | .sameLower => do
      let h ← cv.cudnnCalc inputDims weightDims outputDims 0
      let w ← cv.cudnnCalc inputDims weightDims outputDims 1
      pure (h.1, w.1, h.2, w.2)

end Conv

structure Im2Col where
  nbatch : Nat
  oneFmShape : ResolvedTensorDims
  pad : ConvPad
  channel : Nat
  dilations : OptionalVec Nat
  oneKernelShape : ResolvedTensorDims
  strides : OptionalVec Nat
  layout : Layout
  deriving DecidableEq, Repr

namespace Im2Col

/-- `padded_len`. -/
def paddedLen (im2col : Im2Col) (dim : Nat) : Option Nat := do
  let dilation ← im2col.dilations.at? dim
  let kernel ← im2col.oneKernelShape[dim]?
  let gaps ← subUsize kernel 1
  let stride ← im2col.strides.at? dim
  let size ← im2col.oneFmShape[dim]?
  let steps ← subUsize size 1
  pure (stride * steps + (dilation * gaps + 1))

/-- `calc_pad`. -/
def calcPad (im2col : Im2Col) (srcDims : List Nat) (dim : Nat) : Option Nat :=
  match im2col.pad with
  | .notSet pad => (pad.at? dim).map Prod.fst
  | .valid => some 0
  | .sameLower | .sameUpper => do
      let paddedLen ← im2col.paddedLen dim
      let srcDim ← srcDims[im2col.layout.spatialAxis dim]?
      let padLen ← subUsize paddedLen srcDim
      pure (padLen / 2 + if padLen % 2 = 1 ∧ im2col.pad = .sameLower then 1 else 0)

end Im2Col

/-- The `Im2Col` of `build_conv`. -/
def Conv.im2col (cv : Conv) (srcDims weightDims : List Nat) : Option Im2Col := do
  let channel ← weightDims[1]?
  let kh ← cv.kernelShape[0]?
  let kw ← cv.kernelShape[1]?
  let outputShape ← cv.outputShape srcDims weightDims
  let nbatch ← srcDims[0]?
  let hOut ← outputShape[cv.outputLayout.spatialAxis 0]?
  let wOut ← outputShape[cv.outputLayout.spatialAxis 1]?
  pure {
    nbatch, oneFmShape := .new [hOut, wOut], pad := cv.pad, channel, dilations := cv.dilations
    oneKernelShape := .new [kh, kw], strides := cv.strides, layout := cv.inputLayout }

/-! ### Images with two directions -/

/-- A convolution of images with these sizes. -/
structure Planar (cv : Conv) (x w : ResolvedTensorDims) (size kernel stride dilation : Nat → Nat) : Prop where
  rank : x.length = 4
  kernelShape : cv.kernelShape = w.drop 2
  sizes : ∀ d < 2, x[cv.inputLayout.spatialAxis d]? = some (size d)
  kernels : ∀ d < 2, w[d + 2]? = some (kernel d)
  strides : ∀ d < 2, cv.strides.at? d = some (stride d)
  dilations : ∀ d < 2, cv.dilations.at? d = some (dilation d)

variable {cv : Conv} {x w y : ResolvedTensorDims} {size kernel stride dilation : Nat → Nat} {d : Nat}

theorem exists_of_length_four {l : List Nat} (h : l.length = 4) : ∃ a b c e, l = [a, b, c, e] := by
  match l, h with
  | [a, b, c, e], _ => exact ⟨a, b, c, e, rfl⟩

/-- The sizes of an image, with the channels first. -/
theorem Planar.nchw (h : Planar cv x w size kernel stride dilation) {v : List Nat}
    (hv : Conv.nchwInput cv.inputLayout x = some v) : v = [] ∨ ∃ n c, v = [n, c, size 0, size 1] := by
  obtain ⟨a, b, c, e, rfl⟩ := exists_of_length_four h.rank
  have h0 := h.sizes 0 (by decide)
  have h1 := h.sizes 1 (by decide)
  cases hl : cv.inputLayout with
  | NCHW =>
      rw [hl] at hv h0 h1
      obtain rfl := Option.some.inj hv
      obtain rfl := Option.some.inj h0
      obtain rfl := Option.some.inj h1
      exact .inr ⟨a, b, rfl⟩
  | NHWC =>
      rw [hl] at hv h0 h1
      obtain rfl := Option.some.inj hv
      obtain rfl := Option.some.inj h0
      obtain rfl := Option.some.inj h1
      show ResolvedTensorDims.new _ = [] ∨ _
      unfold ResolvedTensorDims.new
      split
      · exact .inl rfl
      · exact .inr ⟨a, e, rfl⟩

/-- The output of a padded convolution. -/
theorem Planar.output (h : Planar cv x w size kernel stride dilation)
    (hpad : cv.pad = .sameUpper ∨ cv.pad = .sameLower) (hy : cv.outputShape x w = some y) :
    (∀ d < 2, stride d ≠ 0) ∧ w.length = 4 ∧ ∃ n m, some y = Conv.toOutput cv.outputLayout
      (.new [n, m, (size 0 + stride 0 - 1) / stride 0, (size 1 + stride 1 - 1) / stride 1]) := by
  unfold Conv.outputShape at hy
  split at hy
  · cases hy
  · rename_i hlen
    have hw : w.length = 4 := (not_not.mp hlen).symm.trans h.rank
    simp only [Option.bind_eq_bind, Option.bind_eq_some_iff] at hy
    obtain ⟨v, hv, n, hn, c, hc, m, hm, k, hk, hy⟩ := hy
    rcases h.nchw hv with rfl | ⟨n', c', rfl⟩
    · cases hn
    · split at hy
      · simp only [Option.bind_eq_some_iff] at hy
        obtain ⟨sizes, hsizes, hy⟩ := hy
        have hone : ∀ d < 2, cv.outputSize [size 0, size 1] (w.drop 2) d = divCeil (size d) (stride d) := by
          intro d hd
          have hget : [size 0, size 1][d]? = some (size d) := by
            interval_cases d <;> rfl
          unfold Conv.outputSize
          rw [h.strides d hd, Option.bind_eq_bind, Option.bind_some]
          rcases hpad with hpad | hpad <;> rw [hpad] <;> simp [hget]
        change [0, 1].mapM (cv.outputSize [size 0, size 1] (w.drop 2)) = some sizes at hsizes
        simp only [List.mapM_cons, List.mapM_nil, Option.bind_eq_bind, Option.bind_eq_some_iff, Option.pure_def,
          hone 0 (by decide), hone 1 (by decide)] at hsizes
        obtain ⟨o₀, h₀, l, ⟨o₁, h₁, l', hl', hl⟩, hsizes⟩ := hsizes
        obtain rfl := Option.some.inj hl'
        obtain rfl := Option.some.inj hl
        obtain rfl := Option.some.inj hsizes
        obtain ⟨hs₀, rfl⟩ := divCeil_eq_some.mp h₀
        obtain ⟨hs₁, rfl⟩ := divCeil_eq_some.mp h₁
        refine ⟨fun d hd => ?_, hw, n, m, hy.symm⟩
        interval_cases d
        · exact hs₀
        · exact hs₁
      · cases hy

/-- The size that the inference gives an output. -/
def sameSize (size stride : Nat) : Nat := (size + stride - 1) / stride

theorem sameSize_pos {size stride : Nat} (hs : stride ≠ 0) : 0 < sameSize size stride ↔ 0 < size := by
  unfold sameSize
  rw [Nat.div_pos_iff]
  omega

theorem sameSize_sub_one {size stride : Nat} (hs : stride ≠ 0) (hpos : 0 < size) :
    sameSize size stride - 1 = (size - 1) / stride := by
  unfold sameSize
  rw [show size + stride - 1 = size - 1 + stride by omega, Nat.add_div_right _ (Nat.pos_of_ne_zero hs)]
  rfl

/-- The sizes of the output, unless it has collapsed to a scalar. -/
theorem Planar.output_sizes (h : Planar cv x w size kernel stride dilation)
    (hpad : cv.pad = .sameUpper ∨ cv.pad = .sameLower) (hy : cv.outputShape x w = some y) :
    (y = [] ∧ ∀ d < 2, size d = 0) ∨
      ∀ d < 2, y[cv.outputLayout.spatialAxis d]? = some (sameSize (size d) (stride d)) := by
  obtain ⟨hs, -, n, m, hout⟩ := h.output hpad hy
  by_cases hsum : [n, m, sameSize (size 0) (stride 0), sameSize (size 1) (stride 1)].sum = 0
  · left
    have hnew : ResolvedTensorDims.new [n, m, (size 0 + stride 0 - 1) / stride 0,
        (size 1 + stride 1 - 1) / stride 1] = [] := if_pos hsum
    rw [hnew] at hout
    refine ⟨?_, fun d hd => ?_⟩
    · cases hl : cv.outputLayout with
      | NCHW =>
          rw [hl] at hout
          exact Option.some.inj hout
      | NHWC =>
          rw [hl] at hout
          cases hout
    · have hzero : sameSize (size d) (stride d) = 0 := by
        refine List.sum_eq_zero_iff.mp hsum _ ?_
        interval_cases d <;> simp
      have hpos : 0 < sameSize (size d) (stride d) ↔ 0 < size d := sameSize_pos (hs d hd)
      omega
  · right
    have hnew : ResolvedTensorDims.new [n, m, (size 0 + stride 0 - 1) / stride 0,
        (size 1 + stride 1 - 1) / stride 1] =
      [n, m, sameSize (size 0) (stride 0), sameSize (size 1) (stride 1)] := if_neg hsum
    rw [hnew] at hout
    intro d hd
    cases hl : cv.outputLayout with
    | NCHW =>
        rw [hl] at hout
        obtain rfl := Option.some.inj hout
        interval_cases d <;> rfl
    | NHWC =>
        rw [hl] at hout
        obtain rfl := Option.some.inj hout
        have hne : [n, sameSize (size 0) (stride 0), sameSize (size 1) (stride 1), m].sum ≠ 0 := by
          simp only [List.sum_cons, List.sum_nil] at hsum ⊢
          omega
        show (ResolvedTensorDims.new _)[_]? = _
        rw [ResolvedTensorDims.new, if_neg hne]
        interval_cases d <;> rfl

/-- A positive entry of a shape of two directions. -/
theorem getElem?_new_pair {a : Nat → Nat} (hd : d < 2) {b : Nat} :
    (ResolvedTensorDims.new [a 0, a 1])[d]? = some b ∧ 1 ≤ b ↔ 0 < a d ∧ b = a d := by
  unfold ResolvedTensorDims.new
  split
  · rename_i hsum
    have hzero : a d = 0 := List.sum_eq_zero_iff.mp hsum _ (by interval_cases d <;> simp)
    simp [hzero]
  · have hget : [a 0, a 1][d]? = some (a d) := by interval_cases d <;> rfl
    rw [hget, Option.some.injEq]
    constructor
    · rintro ⟨rfl, hpos⟩
      exact ⟨hpos, rfl⟩
    · rintro ⟨hpos, rfl⟩
      exact ⟨rfl, hpos⟩

/-- The `Im2Col` of a padded convolution. -/
theorem Planar.im2col (h : Planar cv x w size kernel stride dilation)
    (hpad : cv.pad = .sameUpper ∨ cv.pad = .sameLower) (hy : cv.outputShape x w = some y)
    (hout : ∀ d < 2, y[cv.outputLayout.spatialAxis d]? = some (sameSize (size d) (stride d))) :
    ∃ nbatch channel, cv.im2col x w = some {
      nbatch, oneFmShape := .new [sameSize (size 0) (stride 0), sameSize (size 1) (stride 1)], pad := cv.pad
      channel, dilations := cv.dilations, oneKernelShape := .new [kernel 0, kernel 1], strides := cv.strides
      layout := cv.inputLayout } := by
  obtain ⟨-, hw, -⟩ := h.output hpad hy
  obtain ⟨a, b, c, e, rfl⟩ := exists_of_length_four h.rank
  obtain ⟨m, k, kh, kw, rfl⟩ := exists_of_length_four hw
  refine ⟨a, k, ?_⟩
  have h0 := hout 0 (by decide)
  have h1 := hout 1 (by decide)
  obtain rfl := Option.some.inj (h.kernels 0 (by decide))
  obtain rfl := Option.some.inj (h.kernels 1 (by decide))
  unfold Conv.im2col
  rw [h.kernelShape, hy]
  simp [h0, h1]

theorem Planar.paddedLen (h : Planar cv x w size kernel stride dilation) (hd : d < 2) (nbatch channel : Nat)
    {len : Nat} : Im2Col.paddedLen {
        nbatch, oneFmShape := .new [sameSize (size 0) (stride 0), sameSize (size 1) (stride 1)], pad := cv.pad
        channel, dilations := cv.dilations, oneKernelShape := .new [kernel 0, kernel 1], strides := cv.strides
        layout := cv.inputLayout } d = some len ↔
      0 < kernel d ∧ 0 < sameSize (size d) (stride d) ∧
        len = stride d * (sameSize (size d) (stride d) - 1) + (dilation d * (kernel d - 1) + 1) := by
  have hk (b : Nat) := getElem?_new_pair (a := kernel) hd (b := b)
  have ho (b : Nat) := getElem?_new_pair (a := fun d => sameSize (size d) (stride d)) hd (b := b)
  unfold Im2Col.paddedLen
  simp only [h.dilations d hd, h.strides d hd, Option.bind_eq_bind, Option.bind_some, Option.bind_eq_some_iff,
    subUsize_eq_some, Option.pure_def, Option.some.injEq]
  constructor
  · rintro ⟨k, hk', gaps, ⟨hk₁, rfl⟩, o, ho', steps, ⟨ho₁, rfl⟩, rfl⟩
    obtain ⟨hpos, rfl⟩ := (hk k).mp ⟨hk', hk₁⟩
    obtain ⟨hpos', rfl⟩ := (ho o).mp ⟨ho', ho₁⟩
    exact ⟨hpos, hpos', rfl⟩
  · rintro ⟨hpos, hpos', rfl⟩
    obtain ⟨hk', hk₁⟩ := (hk _).mpr ⟨hpos, rfl⟩
    obtain ⟨ho', ho₁⟩ := (ho _).mpr ⟨hpos', rfl⟩
    exact ⟨_, hk', _, ⟨hk₁, rfl⟩, _, ho', _, ⟨ho₁, rfl⟩, rfl⟩

theorem Im2Col.calcPad_of_same {im2col : Im2Col} (hpad : im2col.pad = .sameUpper ∨ im2col.pad = .sameLower)
    {src : List Nat} {len size : Nat} (hlen : im2col.paddedLen d = some len)
    (hsize : src[im2col.layout.spatialAxis d]? = some size) (hle : size ≤ len) :
    im2col.calcPad src d = some ((len - size) / 2 +
      if (len - size) % 2 = 1 ∧ im2col.pad = .sameLower then 1 else 0) := by
  unfold calcPad
  split
  · rename_i pads h
    rw [h] at hpad
    cases hpad <;> contradiction
  · rename_i h
    rw [h] at hpad
    cases hpad <;> contradiction
  all_goals simp [hlen, hsize, subUsize, hle]

/-! ### When the pads agree -/

/-- The pads of one direction are the same for cuDNN and for `im2col`, the odd one is on the side of the mode,
and with the dilated kernel they give the size of the output. -/
def PadsAgree (cv : Conv) (x w y : ResolvedTensorDims) (kernel stride dilation : Nat → Nat) (d : Nat) : Prop :=
  ∃ im2col pre post size out, cv.im2col x w = some im2col ∧ cv.cudnnCalc x w y d = some (pre, post) ∧
    x[cv.inputLayout.spatialAxis d]? = some size ∧ y[cv.outputLayout.spatialAxis d]? = some out ∧
    im2col.calcPad x d = some pre ∧ im2col.paddedLen d = some (pre + size + post) ∧
    (if cv.pad = .sameLower then pre = post ∨ pre = post + 1 else post = pre ∨ post = pre + 1) ∧
    dilation d * (kernel d - 1) + 1 ≤ pre + size + post ∧
    (pre + size + post - (dilation d * (kernel d - 1) + 1)) / stride d + 1 = out

/-- No window ends before the input does, and the sizes that the set-up of cuDNN reads, with the kernel as it is
without the dilation, leave as much to pad. -/
structure PadsMeet (x y : ResolvedTensorDims) (size kernel stride dilation : Nat → Nat) (d : Nat) : Prop where
  sizePos : 0 < size d
  kernelPos : 0 < kernel d
  covers : (size d - 1) % stride d ≤ dilation d * (kernel d - 1)
  reads : ∃ input output, x[2 + d]? = some input ∧ y[2 + d]? = some output ∧ 0 < output ∧
    stride d * (output - 1) + kernel d + size d =
      stride d * ((size d - 1) / stride d) + (dilation d * (kernel d - 1) + 1) + input

theorem cudnnCalc_eq_some (h : Planar cv x w size kernel stride dilation) (hd : d < 2) {pre post : Nat} :
    cv.cudnnCalc x w y d = some (pre, post) ↔ ∃ input output, x[2 + d]? = some input ∧ y[2 + d]? = some output ∧
      0 < output ∧ stride d * (output - 1) + kernel d = input + (pre + post) ∧
        pre = (pre + post) / 2 + if cv.pad = .sameLower then (pre + post) % 2 else 0 := by
  have hkernel := h.kernels d hd
  rw [Nat.add_comm] at hkernel
  unfold Conv.cudnnCalc
  simp only [h.strides d hd, hkernel, Option.bind_eq_bind, Option.bind_some, Option.bind_eq_some_iff,
    subUsize_eq_some, Option.pure_def, Option.some.injEq, Prod.mk.injEq]
  constructor
  · rintro ⟨input, hin, output, hout, steps, ⟨hpos, rfl⟩, total, ⟨hle, rfl⟩, rfl, rfl⟩
    refine ⟨input, output, hin, hout, hpos, ?_, ?_⟩ <;> split <;> omega
  · rintro ⟨input, output, hin, hout, hpos, hsum, hpre⟩
    refine ⟨input, hin, output, hout, _, ⟨hpos, rfl⟩, pre + post, ⟨by omega, by omega⟩, hpre.symm, ?_⟩
    omega

/-- The pads of cuDNN are those of `im2col` exactly if what is to pad is the same. -/
theorem padsAgree_iff (h : Planar cv x w size kernel stride dilation)
    (hpad : cv.pad = .sameUpper ∨ cv.pad = .sameLower) (hy : cv.outputShape x w = some y) (hd : d < 2) :
    PadsAgree cv x w y kernel stride dilation d ↔ PadsMeet x y size kernel stride dilation d := by
  obtain ⟨hs, -⟩ := h.output hpad hy
  have hstride : 0 < stride d := Nat.pos_of_ne_zero (hs d hd)
  constructor
  · rintro ⟨im2col, pre, post, a, out, him, hcudnn, ha, hout, hcalc, hlen, -, -, -⟩
    rcases h.output_sizes hpad hy with ⟨rfl, -⟩ | hsizes
    · cases hout
    · obtain ⟨nbatch, channel, him'⟩ := h.im2col hpad hy hsizes
      obtain rfl := Option.some.inj (him.symm.trans him')
      obtain rfl := Option.some.inj ((h.sizes d hd).symm.trans ha)
      obtain ⟨hk, ho, hlen⟩ := (h.paddedLen hd nbatch channel).mp hlen
      have hpos := (sameSize_pos (hs d hd)).mp ho
      rw [sameSize_sub_one (hs d hd) hpos] at hlen
      obtain ⟨input, output, hin, hout', hpos', hsum, -⟩ := (cudnnCalc_eq_some h hd).mp hcudnn
      have hdiv := Nat.div_add_mod (size d - 1) (stride d)
      exact ⟨hpos, hk, by omega, input, output, hin, hout', hpos', by omega⟩
  · rintro ⟨hpos, hk, hcovers, input, output, hin, hout, hpos', heq⟩
    have ho := (sameSize_pos (hs d hd)).mpr hpos
    have hsub := sameSize_sub_one (hs d hd) hpos
    rcases h.output_sizes hpad hy with ⟨-, hzero⟩ | hsizes
    · exact absurd (hzero d hd) (Nat.ne_of_gt hpos)
    · obtain ⟨nbatch, channel, him⟩ := h.im2col hpad hy hsizes
      have hdiv := Nat.div_add_mod (size d - 1) (stride d)
      -- what both back ends spread over the sides
      obtain ⟨total, htotal⟩ : ∃ total, stride d * ((size d - 1) / stride d) + (dilation d * (kernel d - 1) + 1) =
          size d + total := Nat.exists_eq_add_of_le (by omega)
      have hlen := (h.paddedLen hd nbatch channel).mpr ⟨hk, ho, rfl⟩
      rw [hsub, htotal] at hlen
      obtain ⟨pre, hpre⟩ : ∃ pre, pre = total / 2 + if cv.pad = .sameLower then total % 2 else 0 := ⟨_, rfl⟩
      have hle : pre ≤ total := by
        rw [hpre]
        split <;> omega
      have hsum : pre + (total - pre) = total := Nat.add_sub_cancel' hle
      refine ⟨_, pre, total - pre, size d, _, him, (cudnnCalc_eq_some h hd).mpr
        ⟨input, output, hin, hout, hpos', by omega, by rw [hsum]; exact hpre⟩, h.sizes d hd, hsizes d hd, ?_, ?_, ?_,
        by omega, ?_⟩
      · refine (Im2Col.calcPad_of_same hpad hlen (h.sizes d hd) (Nat.le_add_right _ _)).trans (congrArg some ?_)
        rw [Nat.add_sub_cancel_left, hpre]
        congr 1
        by_cases hlower : cv.pad = .sameLower
        · rw [if_pos hlower]
          by_cases hodd : total % 2 = 1
          · rw [if_pos ⟨hodd, hlower⟩, hodd]
          · rw [if_neg fun h => hodd h.1]
            omega
        · rw [if_neg hlower, if_neg fun h => hlower h.2]
      · rw [hlen]
        congr 1
        omega
      · rw [hpre]
        by_cases hlower : cv.pad = .sameLower
        · rw [if_pos hlower, if_pos hlower]
          omega
        · rw [if_neg hlower, if_neg hlower]
          omega
      · rw [← sameSize_sub_one (hs d hd) hpos] at htotal
        rw [show pre + size d + (total - pre) - (dilation d * (kernel d - 1) + 1) =
          stride d * (sameSize (size d) (stride d) - 1) by omega, Nat.mul_div_cancel_left _ hstride]
        exact Nat.sub_add_cancel ho

/-- For both directions. -/
theorem samePads_iff (h : Planar cv x w size kernel stride dilation)
    (hpad : cv.pad = .sameUpper ∨ cv.pad = .sameLower) (hy : cv.outputShape x w = some y) :
    (∀ d < 2, PadsAgree cv x w y kernel stride dilation d) ↔ ∀ d < 2, PadsMeet x y size kernel stride dilation d :=
  forall₂_congr fun _ hd => padsAgree_iff h hpad hy hd

/-- A convolution of a 5 × 5 image with a 3 × 3 kernel. -/
def dilatedConv (dilation : Nat) : Conv where
  pad := .sameUpper
  dilations := ⟨none, dilation⟩
  group := 1
  kernelShape := [3, 3]
  strides := ⟨none, 1⟩
  inputLayout := .NCHW
  outputLayout := .NCHW
  activation := .identity

theorem dilatedConv_planar (dilation : Nat) : Planar (dilatedConv dilation) [1, 1, 5, 5] [1, 1, 3, 3]
    (fun _ => 5) (fun _ => 3) (fun _ => 1) fun _ => dilation where
  rank := rfl
  kernelShape := rfl
  sizes d hd := by interval_cases d <;> rfl
  kernels d hd := by interval_cases d <;> rfl
  strides d hd := rfl
  dilations d hd := rfl

/-- The pads agree without dilation. -/
theorem dilatedConv_one : (dilatedConv 1).cudnnPads [1, 1, 5, 5] [1, 1, 3, 3] [1, 1, 5, 5] = some (1, 1, 1, 1) ∧
    ∀ d < 2, PadsAgree (dilatedConv 1) [1, 1, 5, 5] [1, 1, 3, 3] [1, 1, 5, 5] (fun _ => 3) (fun _ => 1) (fun _ => 1) d :=
  ⟨rfl, (samePads_iff (dilatedConv_planar 1) (.inl rfl) rfl).mpr fun d hd =>
    ⟨by decide, by decide, by decide, 5, 5, by interval_cases d <;> rfl, by interval_cases d <;> rfl, by decide, rfl⟩⟩

/-- With dilation the set-up of cuDNN pads one where `im2col` pads two. -/
theorem dilatedConv_two : (dilatedConv 2).outputShape [1, 1, 5, 5] [1, 1, 3, 3] = some [1, 1, 5, 5] ∧
    (dilatedConv 2).cudnnPads [1, 1, 5, 5] [1, 1, 3, 3] [1, 1, 5, 5] = some (1, 1, 1, 1) ∧
    (((dilatedConv 2).im2col [1, 1, 5, 5] [1, 1, 3, 3]).bind fun im2col => im2col.calcPad [1, 1, 5, 5] 0) = some 2 ∧
    ¬ ∀ d < 2, PadsAgree (dilatedConv 2) [1, 1, 5, 5] [1, 1, 3, 3] [1, 1, 5, 5]
      (fun _ => 3) (fun _ => 1) (fun _ => 2) d := by
  refine ⟨rfl, rfl, rfl, fun h => ?_⟩
  obtain ⟨im2col, pre, post, size, out, him, hcudnn, -, -, hcalc, -⟩ := h 0 (by decide)
  obtain rfl := Option.some.inj him
  obtain ⟨rfl, -⟩ := Prod.mk.inj (Option.some.inj hcudnn)
  cases hcalc

end NnEngine
