import NnEngine.Blocks
import NnEngine.Codegen.Coverage
import NnEngine.Tensor.DenseStrides

/-!
# Concat and Split on CUDA

`concat_kernel` of `concat.cuh` with its launch, and the kernel of `SplitBuilder`, as moves of elements between
storage positions.  Both decode the index of an element from its storage position, axis by axis, shift it along
one axis, and number it in row-major order.  `concat_kernel` leaves the axes without a stride out; the kernel of
`SplitBuilder` divides by the stride of the split axis as it is.

The number of a thread and the numbers that a kernel is given or made with are `int`s; a kernel with a number that
does not fit has no launch.
-/

namespace NnEngine
namespace ConcatSplit

open Blocks

/-- The move of an element from a buffer and a position in it to another. -/
structure Move where
  source : Nat × Nat
  target : Nat × Nat
  deriving DecidableEq, Repr

/-- All the numbers fit an `int`. -/
def FitInt (l : List Nat) : Prop := ∀ n ∈ l, n < 2 ^ 31

instance (l : List Nat) : Decidable (FitInt l) := inferInstanceAs (Decidable (∀ n ∈ l, n < 2 ^ 31))

/-- The loop that numbers an index in row-major order. -/
def outOffset (outputDims indexes : List Nat) : Nat :=
  (outputDims.zip indexes).foldl (fun out p => out * p.1 + p.2) 0

/-- `a / b`, which has no value for a divisor of 0. -/
def divInt (a b : Nat) : Option Nat := if b = 0 then none else some (a / b)

/-- `a % b`. -/
def modInt (a b : Nat) : Option Nat := if b = 0 then none else some (a % b)

/-! ### Concat -/

/-- The arguments of `concat_kernel` that the launch computes from the types. -/
structure ConcatKernel where
  axis : Nat
  totalSize : Nat
  inSizesAcc : List Nat
  inAxisSizesAcc : List Nat
  inputDims : List (List Nat)
  inputStrides : List (List Nat)
  outputDims : List Nat

/-- The sums of the sizes before each part. -/
def accSizes (sizes : List Nat) : List Nat := (List.range sizes.length).map (offset sizes)

/-- The launch of a `Concat`, whose output has to be contiguous. -/
def ConcatKernel.build (inputs : List ResolvedTensorType) (output : ResolvedTensorType) (axis : Nat) :
    Option ConcatKernel :=
  if output.isContiguous then
    some
      { axis
        totalSize := output.dims.size
        inSizesAcc := accSizes (inputs.map (·.dims.size))
        inAxisSizesAcc := accSizes (inputs.map (·.dims.getD axis 0))
        inputDims := inputs.map (·.dims)
        inputStrides := inputs.map (·.stride)
        outputDims := output.dims }
  else none

namespace ConcatKernel

variable (k : ConcatKernel)

/-- The last part that begins at or before the thread. -/
def select (gid : Nat) : Nat :=
  (List.range' 1 (k.inSizesAcc.length - 1)).foldl
    (fun select i => if k.inSizesAcc.getD i 0 ≤ gid then i else select) 0

/-- The coordinate on an axis. -/
def index (inOffset dim stride : Nat) : Option Nat :=
  if dim ≤ 1 ∨ stride = 0 then some 0 else (divInt inOffset stride).bind (modInt · dim)

/-- A thread of `concat_kernel`. -/
def thread (gid : Nat) : Option Move := do
  let select := k.select gid
  let inOffset := gid - k.inSizesAcc.getD select 0
  let indexes ← ((k.inputDims.getD select []).zip (k.inputStrides.getD select [])).mapM fun (dim, stride) =>
    index inOffset dim stride
  let indexes := indexes.set k.axis (indexes.getD k.axis 0 + k.inAxisSizesAcc.getD select 0)
  pure { source := (select, inOffset), target := (0, outOffset k.outputDims indexes) }

/-- What is written as an `int`: `NDIM`, `N_INPUTS`, and the entries of `ConcatInputs`. -/
def ints : List Nat :=
  [k.outputDims.length, k.inSizesAcc.length, k.axis, k.totalSize] ++ k.inSizesAcc ++ k.inAxisSizesAcc ++
    k.inputDims.flatten ++ k.inputStrides.flatten ++ k.outputDims

/-- The threads of the launch. -/
def run : Option (List Move) :=
  if FitInt k.ints then (Coverage.launchGuarded k.totalSize k.totalSize).bind (·.mapM k.thread) else none

end ConcatKernel

/-- A `Concat`. -/
def concat (inputs : List ResolvedTensorType) (output : ResolvedTensorType) (axis : Nat) : Option (List Move) :=
  (ConcatKernel.build inputs output axis).bind ConcatKernel.run

/-! ### Split -/

/-- `select_rec`, read as the expression it prints.  There is no expression without a part. -/
def selectRec (pivot : Nat) : List Nat → Nat → Nat → Option Nat
  | [], _, _ => none
  | [_], _, depth => some depth
  | size :: sizes, accSz, depth =>
      let nextAccSz := accSz + size
      if pivot < nextAccSz then some depth else selectRec pivot sizes nextAccSz (depth + 1)

/-- A thread of the kernel of `SplitBuilder`. -/
def splitThread (input : ResolvedTensorType) (outputs : List ResolvedTensorType) (axis gid : Nat) : Option Move := do
  let sizes := outputs.map (·.dims.getD axis 0)
  let axisIdx ← (divInt gid (input.stride.getD axis 0)).bind (modInt · (input.dims.getD axis 0))
  let select ← selectRec axisIdx sizes 0 0
  let indexes ← (input.dims.zip input.stride).mapM fun (dim, stride) =>
    (divInt gid (max stride 1)).bind (modInt · dim)
  let indexes := indexes.set axis (axisIdx - (accSizes sizes).getD select 0)
  let outputDims := input.dims.set axis (sizes.getD select 0)
  pure { source := (0, gid), target := (select, outOffset outputDims indexes) }

/-- The numbers written in the kernel, besides the bound of its guard. -/
def splitInts (input : ResolvedTensorType) (outputs : List ResolvedTensorType) (axis : Nat) : List Nat :=
  let sizes := outputs.map (·.dims.getD axis 0)
  input.dims ++ input.stride ++ sizes ++ accSizes sizes

/-- A `Split`. -/
def split (input : ResolvedTensorType) (outputs : List ResolvedTensorType) (axis : Nat) : Option (List Move) :=
  if FitInt (splitInts input outputs axis) then
    (Coverage.launchGuarded input.dims.size input.dims.size).bind (·.mapM (splitThread input outputs axis))
  else none

/-! ### What the kernels are for -/

/-- The types of a `Concat`. -/
structure ConcatTypes (inputs : List ResolvedTensorType) (output : ResolvedTensorType) (axis : Nat) : Prop where
  cut : Cut output.dims axis (inputs.map (·.dims))
  nonempty : inputs ≠ []
  dense : ∀ ty ∈ inputs, ty.Dense
  contiguous : output.stride = calcStride output.dims

/-- The types of a `Split`. -/
structure SplitTypes (input : ResolvedTensorType) (outputs : List ResolvedTensorType) (axis : Nat) : Prop where
  cut : Cut input.dims axis (outputs.map (·.dims))
  nonempty : outputs ≠ []
  dense : input.Dense
  contiguous : ∀ ty ∈ outputs, ty.stride = calcStride ty.dims

/-- Each storage position of the sources is moved once, each of the targets is written once, and each element comes
from its place in the sources to its place in the targets. -/
structure MovesOnce (sources targets : List ResolvedTensorType) (elements : Set Move) (moves : List Move) :
    Prop where
  sources : (moves.map Move.source).Perm (places (sources.map (·.dims.prod)))
  targets : (moves.map Move.target).Perm (places (targets.map (·.dims.prod)))
  elements : ∀ m ∈ moves, m ∈ elements

/-- The moves of an element of part `k` to its place in the whole. -/
def joins (parts : List ResolvedTensorType) (whole : ResolvedTensorType) (axis : Nat) : Set Move :=
  { m | ∃ k ty idx, parts[k]? = some ty ∧ Inside idx ty.dims ∧ m.source = (k, elementAt ty.stride idx) ∧
    m.target = (0, elementAt whole.stride (join axis (parts.map (·.dims.getD axis 0)) k idx)) }

/-- The moves of an element of the whole to its place in part `k`. -/
def cuts (whole : ResolvedTensorType) (parts : List ResolvedTensorType) (axis : Nat) : Set Move :=
  { m | ∃ k ty idx, parts[k]? = some ty ∧ Inside idx ty.dims ∧ m.target = (k, elementAt ty.stride idx) ∧
    m.source = (0, elementAt whole.stride (join axis (parts.map (·.dims.getD axis 0)) k idx)) }

/-! ### Decoding and numbering -/

variable {inputs outputs : List ResolvedTensorType} {input output : ResolvedTensorType} {axis k i gid : Nat}

theorem outOffset_eq {dims idx : List Nat} (h : Inside idx dims) : outOffset dims idx = rowMajor dims idx := by
  have hfold : ∀ out, (dims.zip idx).foldl (fun out p => out * p.1 + p.2) out =
      out * dims.prod + rowMajor dims idx := by
    induction h with
    | nil => exact fun out => by simp [rowMajor]
    | cons _ _ ih =>
        intro out
        rw [List.zip_cons_cons, List.foldl_cons, ih, rowMajor, List.prod_cons]
        ring
  rw [outOffset, hfold, Nat.zero_mul, Nat.zero_add]

theorem accSizes_getD {sizes : List Nat} (h : k < sizes.length) : (accSizes sizes).getD k 0 = offset sizes k := by
  simp [accSizes, h]

/-- The last part that begins at or before a position is the one it lies in. -/
theorem select_eq {c : ConcatKernel} {sizes : List Nat} (hacc : c.inSizesAcc = accSizes sizes)
    (hat : At sizes k i gid) : c.select gid = k := by
  have hblock := hat.block
  have hfold : ∀ m, m < sizes.length → (List.range' 1 m).foldl
      (fun select i => if (accSizes sizes).getD i 0 ≤ gid then i else select) 0 = min m k := by
    intro m
    induction m with
    | zero => exact fun _ => (Nat.zero_min k).symm
    | succ m ih =>
        intro hm
        rw [List.range'_1_concat, List.foldl_append, ih (Nat.lt_of_succ_lt hm), List.foldl_cons, List.foldl_nil,
          Nat.add_comm 1 m, accSizes_getD hm]
        by_cases hle : m + 1 ≤ k
        · rw [if_pos (hat.offset_le_iff.mpr hle)]
          omega
        · rw [if_neg (mt hat.offset_le_iff.mp hle)]
          omega
  have hlen : (accSizes sizes).length = sizes.length := by simp [accSizes]
  unfold ConcatKernel.select
  rw [hacc, hlen, hfold _ (by omega)]
  omega

/-- The printed tests find the part that a coordinate lies in. -/
theorem selectRec_eq {sizes : List Nat} {pivot : Nat} (hat : At sizes k i pivot) :
    selectRec pivot sizes 0 0 = some k := by
  have hrec : ∀ accSz depth, selectRec (accSz + pivot) sizes accSz depth = some (depth + k) := by
    induction sizes generalizing k pivot with
    | nil => exact absurd hat.block (Nat.not_lt_zero k)
    | cons size sizes ih =>
        intro accSz depth
        have hblock := hat.block
        have hinside := hat.inside
        have hpos := hat.pos
        cases sizes with
        | nil =>
            obtain rfl : k = 0 := by simpa using hblock
            rfl
        | cons next sizes =>
            show (if accSz + pivot < accSz + size then some depth
              else selectRec (accSz + pivot) (next :: sizes) (accSz + size) (depth + 1)) = some (depth + k)
            cases k with
            | zero =>
                rw [offset_zero, Nat.zero_add] at hpos
                exact if_pos (Nat.add_lt_add_left (hpos ▸ hinside) accSz)
            | succ k =>
                rw [offset_cons_succ] at hpos
                have hrest : At (next :: sizes) k i (pivot - size) :=
                  ⟨Nat.lt_of_succ_lt_succ hblock, hinside, by omega⟩
                have hnext := ih hrest (accSz + size) (depth + 1)
                rw [show accSz + size + (pivot - size) = accSz + pivot by omega] at hnext
                rw [if_neg (by omega), hnext]
                congr 1
                omega
  simpa using hrec 0 0

theorem mapM_zip {f : Nat × Nat → Option Nat} {g : Nat → Nat → Nat} {a b : List Nat}
    (h : ∀ p ∈ a.zip b, f p = some (g p.1 p.2)) : (a.zip b).mapM f = some (List.zipWith g a b) := by
  rw [mapM_some h]
  congr 1
  rw [List.zip, List.map_zipWith]

/-- `concat_kernel` leaves out what it cannot divide by. -/
theorem index_eq (inOffset dim stride : Nat) :
    ConcatKernel.index inOffset dim stride = some (axisIndex inOffset dim stride) := by
  unfold ConcatKernel.index axisIndex divInt modInt
  split
  · rfl
  · rename_i hnot
    rw [if_neg fun h => hnot (.inr h), Option.bind_some, if_neg (by omega)]

/-- The kernel of `SplitBuilder` divides by 1 where there is no stride. -/
theorem indexes_eq (hdense : input.Dense) (hpos : ∀ d ∈ input.dims, 0 < d) :
    (input.dims.zip input.stride).mapM (fun (dim, stride) => (divInt gid (max stride 1)).bind (modInt · dim)) =
      some (input.indexAt gid) := by
  refine mapM_zip fun p hp => ?_
  obtain ⟨a, ha, hget⟩ := List.getElem_of_mem hp
  have hlen := hdense.length
  rw [List.length_zip, hlen, Nat.min_self] at ha
  rw [List.getElem_zip] at hget
  have hd : 0 < p.1 := hpos _ (List.of_mem_zip hp).1
  have hzero : p.2 = 0 → p.1 = 1 := by
    intro hstride
    have := (hdense.stride_eq_zero_iff hpos ha).mp (by rw [getD_of_lt (by omega), ← hstride, ← hget])
    rw [getD_of_lt ha] at this
    rw [← hget, this]
  show (divInt gid (max p.2 1)).bind (modInt · p.1) = some (axisIndex gid p.1 p.2)
  unfold divInt modInt axisIndex
  rw [if_neg (by omega), Option.bind_some, if_neg hd.ne']
  split
  · have hone : p.1 = 1 := by omega
    rw [hone, Nat.mod_one]
  · rw [Nat.max_eq_left (by omega)]

/-! ### Whole launches -/

/-- Threads that each make a move make a list of moves. -/
theorem exists_run {thread : Nat → Option Move} {n : Nat} {P : Nat → Move → Prop}
    (h : ∀ gid < n, ∃ m, thread gid = some m ∧ P gid m) :
    ∃ f : Nat → Move, (List.range n).mapM thread = some ((List.range n).map f) ∧ ∀ gid < n, P gid (f gid) := by
  have : Nonempty Move := ⟨⟨(0, 0), (0, 0)⟩⟩
  choose! f hf using h
  refine ⟨f, mapM_some fun gid hgid => ?_, fun gid hgid => (hf gid hgid).2⟩
  exact (hf gid (List.mem_range.mp hgid)).1

theorem map_range_perm_places {sizes : List Nat} {n : Nat} (hn : sizes.sum = n) {f : Nat → Nat × Nat}
    (hmem : ∀ x < n, f x ∈ places sizes) (hinj : ∀ x < n, ∀ y < n, f x = f y → x = y) :
    ((List.range n).map f).Perm (places sizes) := by
  rw [← length_places] at hn
  subst hn
  exact map_range_perm hmem hinj

theorem mem_places_single {n p : Nat} : (0, p) ∈ places [n] ↔ p < n := by
  rw [mem_places]
  simp

theorem launchGuarded_self {n : Nat} (h : n ≤ 2 ^ 31) : Coverage.launchGuarded n n = some (List.range n) := by
  rw [Coverage.launchGuarded_eq_some h, Nat.min_eq_right (Coverage.le_threads n)]

theorem extents_dims (tys : List ResolvedTensorType) (axis : Nat) :
    Blocks.extents axis (tys.map (·.dims)) = tys.map (·.dims.getD axis 0) := List.map_map

theorem getElem?_dims {tys : List ResolvedTensorType} {ty : ResolvedTensorType} (h : tys[k]? = some ty) :
    (tys.map (·.dims))[k]? = some ty.dims := by
  rw [List.getElem?_map, h]
  rfl

theorem size_dims {whole : List Nat} {tys : List ResolvedTensorType} (h : Cut whole axis (tys.map (·.dims))) :
    tys.map (·.dims.size) = tys.map (·.dims.prod) := by
  refine List.map_congr_left fun ty hty => ?_
  refine Coverage.size_of_ne_nil fun hnil => ?_
  have hpart := congrArg List.length (h.part ty.dims (List.mem_map.mpr ⟨ty, hty, rfl⟩))
  have haxis := h.axis_lt
  rw [hnil, List.length_set, List.length_nil] at hpart
  omega

theorem sum_dims {whole : List Nat} {tys : List ResolvedTensorType} (h : Cut whole axis (tys.map (·.dims))) :
    (tys.map (·.dims.prod)).sum = whole.prod := by
  rw [← h.sum_prod, List.map_map]
  rfl

theorem size_whole {whole : ResolvedTensorDims} {parts : List (List Nat)} (h : Cut whole axis parts) :
    whole.size = whole.prod := by
  refine Coverage.size_of_ne_nil fun hnil => ?_
  have haxis := h.axis_lt
  rw [hnil] at haxis
  exact absurd haxis (Nat.not_lt_zero axis)

/-- A thread of `concat_kernel`, with what it looks up for its part. -/
theorem ConcatKernel.thread_eq {c : ConcatKernel} (ty : ResolvedTensorType) (hselect : c.select gid = k)
    (hdims : c.inputDims.getD k [] = ty.dims) (hstride : c.inputStrides.getD k [] = ty.stride) {start : Nat}
    (hstart : c.inSizesAcc.getD k 0 = start) (hgid : start + i = gid) :
    c.thread gid = some ⟨(k, i), (0, outOffset c.outputDims ((ty.indexAt i).set c.axis
      ((ty.indexAt i).getD c.axis 0 + c.inAxisSizesAcc.getD k 0)))⟩ := by
  have hi : gid - start = i := by omega
  have hindexes : (ty.dims.zip ty.stride).mapM (fun (dim, stride) => ConcatKernel.index i dim stride) =
      some (ty.indexAt i) := mapM_zip fun p _ => index_eq i p.1 p.2
  unfold ConcatKernel.thread
  simp only [hselect, hdims, hstride, hstart, hi, hindexes]
  rfl

theorem fitInt_append {l l' : List Nat} : FitInt (l ++ l') ↔ FitInt l ∧ FitInt l' := List.forall_mem_append

theorem fitInt_cons {n : Nat} {l : List Nat} : FitInt (n :: l) ↔ n < 2 ^ 31 ∧ FitInt l := List.forall_mem_cons

theorem fitInt_accSizes {sizes : List Nat} {n : Nat} (hsum : sizes.sum = n) (hn : n < 2 ^ 31) :
    FitInt (accSizes sizes) := by
  intro x hx
  obtain ⟨k, hk, rfl⟩ := List.mem_map.mp hx
  have hle : offset sizes k ≤ offset sizes sizes.length := offset_mono (List.mem_range.mp hk).le
  rw [offset_length, hsum] at hle
  exact Nat.lt_of_le_of_lt hle hn

/-- The extents of a part fit if those of the array do. -/
theorem fitInt_part {whole p : List Nat} {parts : List (List Nat)} (h : Cut whole axis parts) (hwhole : FitInt whole)
    (hp : p ∈ parts) : FitInt p := by
  have hle : p.getD axis 0 ≤ whole.getD axis 0 := by
    rw [← h.sum]
    exact List.single_le_sum (fun _ _ => Nat.zero_le _) _ (List.mem_map.mpr ⟨p, hp, rfl⟩)
  rw [getD_of_lt h.axis_lt] at hle
  rw [h.part p hp]
  intro n hn
  rcases List.mem_or_eq_of_mem_set hn with hn | rfl
  · exact hwhole n hn
  · exact Nat.lt_of_le_of_lt hle (hwhole _ (List.getElem_mem h.axis_lt))

namespace ConcatTypes

variable (h : ConcatTypes inputs output axis)
include h

/-- The index of a storage position of part `k`, and its place in the output. -/
theorem indexAt_spec {ty : ResolvedTensorType} (hget : inputs[k]? = some ty)
    (hat : At (inputs.map (·.dims.prod)) k i gid) :
    Inside (ty.indexAt i) ty.dims ∧ elementAt ty.stride (ty.indexAt i) = i ∧
      Inside (join axis (inputs.map (·.dims.getD axis 0)) k (ty.indexAt i)) output.dims := by
  have hi : i < ty.dims.prod := by simpa [hget] using hat.inside
  have hin := (h.dense ty (List.mem_of_getElem? hget)).indexAt_spec (pos_of_prod_pos (Nat.zero_lt_of_lt hi)) hi
  have hjoin := (h.cut.join_spec (getElem?_dims hget) hin.1).2
  rw [extents_dims] at hjoin
  exact ⟨hin.1, hin.2, hjoin⟩

/-- What a thread of `concat_kernel` moves. -/
theorem thread_eq {c : ConcatKernel} (hc : ConcatKernel.build inputs output axis = some c)
    (hgid : gid < output.dims.prod) : ∃ m, c.thread gid = some m ∧
      ∃ k i ty, inputs[k]? = some ty ∧ At (inputs.map (·.dims.prod)) k i gid ∧ m.source = (k, i) ∧
        m.target = (0, rowMajor output.dims (join axis (inputs.map (·.dims.getD axis 0)) k (ty.indexAt i))) := by
  rw [← sum_dims h.cut] at hgid
  obtain ⟨k, i, hat⟩ := exists_at hgid
  have hk : k < inputs.length := by simpa using hat.block
  have hget : inputs[k]? = some inputs[k] := List.getElem?_eq_getElem hk
  unfold ConcatKernel.build at hc
  split at hc
  · obtain rfl := Option.some.inj hc
    refine ⟨_, ConcatKernel.thread_eq inputs[k] (select_eq ?_ hat) ?_ ?_ ?_ hat.pos, k, i, inputs[k], hget, hat, rfl, ?_⟩
    · rw [size_dims h.cut]
    · simp [hk]
    · simp [hk]
    · rw [size_dims h.cut]
      exact accSizes_getD hat.block
    · show (0, outOffset output.dims ((inputs[k].indexAt i).set axis ((inputs[k].indexAt i).getD axis 0 +
        (accSizes (inputs.map (·.dims.getD axis 0))).getD k 0))) = _
      rw [accSizes_getD (by simpa using hk), Nat.add_comm, ← join, outOffset_eq (h.indexAt_spec hget hat).2.2]
  · cases hc

/-- What the launch computes fits if the types do. -/
theorem build_eq : ∃ c, ConcatKernel.build inputs output axis = some c ∧ c.totalSize = output.dims.prod ∧
    (FitInt c.ints ↔ FitInt (inputs.length :: output.dims.length :: output.dims.prod :: output.dims) ∧
      ∀ ty ∈ inputs, FitInt ty.stride) := by
  have hcontiguous : output.isContiguous = true := by
    have hnew : output = ResolvedTensorType.new output.elemType output.dims :=
      congrArg (ResolvedTensorType.mk output.elemType output.dims) h.contiguous
    rw [hnew]
    exact ResolvedTensorType.new_isContiguous output.elemType output.dims
  refine ⟨_, if_pos hcontiguous, size_whole h.cut, ?_⟩
  unfold ConcatKernel.ints
  simp only [fitInt_append, fitInt_cons, size_whole h.cut, size_dims h.cut]
  constructor
  · rintro ⟨⟨⟨⟨⟨⟨hrank, hcount, -, htotal, -⟩, -⟩, -⟩, -⟩, hstrides⟩, houtput⟩
    refine ⟨⟨by simpa [accSizes] using hcount, hrank, htotal, houtput⟩, fun ty hty n hn => ?_⟩
    exact hstrides n (List.mem_flatten.mpr ⟨ty.stride, List.mem_map.mpr ⟨ty, hty, rfl⟩, hn⟩)
  · rintro ⟨⟨hcount, hrank, htotal, houtput⟩, hstrides⟩
    have hdim := houtput _ (List.getElem_mem h.cut.axis_lt)
    rw [← getD_of_lt h.cut.axis_lt] at hdim
    have haxes : FitInt (accSizes (inputs.map (·.dims.getD axis 0))) := by
      rw [← extents_dims]
      exact fitInt_accSizes h.cut.sum hdim
    refine ⟨⟨⟨⟨⟨⟨hrank, by simpa [accSizes] using hcount, h.cut.axis_lt.trans hrank, htotal, nofun⟩,
      fitInt_accSizes (sum_dims h.cut) htotal⟩, haxes⟩, ?_⟩, ?_⟩, houtput⟩
    · intro n hn
      obtain ⟨p, hp, hn⟩ := List.mem_flatten.mp hn
      exact fitInt_part h.cut houtput hp n hn
    · intro n hn
      obtain ⟨_, hstride, hn⟩ := List.mem_flatten.mp hn
      obtain ⟨ty, hty, rfl⟩ := List.mem_map.mp hstride
      exact hstrides ty hty n hn

/-- Every thread makes a move, and together they concatenate. -/
theorem concat_eq (hints : FitInt (inputs.length :: output.dims.length :: output.dims.prod :: output.dims))
    (hstride : ∀ ty ∈ inputs, FitInt ty.stride) :
    ∃ moves, concat inputs output axis = some moves ∧
      MovesOnce inputs [output] (joins inputs output axis) moves := by
  obtain ⟨c, hc, htotal, hfit⟩ := h.build_eq
  have hints : FitInt c.ints := hfit.mpr ⟨hints, hstride⟩
  have hlarge : output.dims.prod ≤ 2 ^ 31 := by
    rw [← htotal]
    exact (hints c.totalSize (by simp [ConcatKernel.ints])).le
  obtain ⟨f, hrun, hf⟩ := exists_run fun gid hgid => h.thread_eq hc hgid
  refine ⟨(List.range output.dims.prod).map f, ?_, ?_, ?_, ?_⟩
  · rw [concat, hc, Option.bind_some, ConcatKernel.run, if_pos hints, htotal, launchGuarded_self hlarge,
      Option.bind_some, hrun]
  · rw [List.map_map]
    refine map_range_perm_places (sum_dims h.cut) ?_ ?_
    · intro gid hgid
      obtain ⟨k, i, ty, -, hat, hsource, -⟩ := hf gid hgid
      rw [Function.comp_apply, hsource]
      exact mem_places.mpr ⟨hat.block, hat.inside⟩
    · intro gid hgid gid' hgid' heq
      obtain ⟨k, i, ty, -, hat, hsource, -⟩ := hf gid hgid
      obtain ⟨k', i', ty', -, hat', hsource', -⟩ := hf gid' hgid'
      rw [Function.comp_apply, Function.comp_apply, hsource, hsource', Prod.mk.injEq] at heq
      obtain ⟨rfl, rfl⟩ := heq
      rw [← hat.pos, ← hat'.pos]
  · rw [List.map_map]
    refine map_range_perm_places (by simp) ?_ ?_
    · intro gid hgid
      obtain ⟨k, i, ty, hget, hat, -, htarget⟩ := hf gid hgid
      rw [Function.comp_apply, htarget]
      exact mem_places_single.mpr (rowMajor_lt (h.indexAt_spec hget hat).2.2)
    · intro gid hgid gid' hgid' heq
      obtain ⟨k, i, ty, hget, hat, -, htarget⟩ := hf gid hgid
      obtain ⟨k', i', ty', hget', hat', -, htarget'⟩ := hf gid' hgid'
      obtain ⟨hin, hi, hjoin⟩ := h.indexAt_spec hget hat
      obtain ⟨hin', hi', hjoin'⟩ := h.indexAt_spec hget' hat'
      rw [Function.comp_apply, Function.comp_apply, htarget, htarget', Prod.mk.injEq] at heq
      have hsame := rowMajor_injective hjoin hjoin' heq.2
      rw [← extents_dims] at hsame
      obtain ⟨rfl, hindex⟩ := h.cut.join_injective (getElem?_dims hget) (getElem?_dims hget') hin hin' hsame
      obtain rfl : ty = ty' := Option.some.inj (hget.symm.trans hget')
      rw [← hat.pos, ← hat'.pos, ← hi, ← hi', hindex]
  · intro m hm
    obtain ⟨gid, hgid, rfl⟩ := List.mem_map.mp hm
    obtain ⟨k, i, ty, hget, hat, hsource, htarget⟩ := hf gid (List.mem_range.mp hgid)
    obtain ⟨hin, hi, hjoin⟩ := h.indexAt_spec hget hat
    refine ⟨k, ty, ty.indexAt i, hget, hin, ?_, ?_⟩
    · rw [hsource, hi]
    · rw [htarget, h.contiguous, elementAt_calcStride hjoin]

end ConcatTypes

namespace SplitTypes

variable (h : SplitTypes input outputs axis)
include h

/-- The index of a storage position of the input, and its place in part `k`. -/
theorem indexAt_spec (hgid : gid < input.dims.prod) {ty : ResolvedTensorType} (hget : outputs[k]? = some ty)
    (hat : At (outputs.map (·.dims.getD axis 0)) k i ((input.indexAt gid).getD axis 0)) :
    Inside ((input.indexAt gid).set axis i) ty.dims ∧
      join axis (outputs.map (·.dims.getD axis 0)) k ((input.indexAt gid).set axis i) = input.indexAt gid := by
  have hin := h.dense.indexAt_spec (pos_of_prod_pos (Nat.zero_lt_of_lt hgid)) hgid
  rw [← extents_dims] at hat ⊢
  exact h.cut.part_spec (getElem?_dims hget) hin.1 hat

/-- What a thread of the kernel of `SplitBuilder` moves, if there is a stride to divide by. -/
theorem thread_eq (haxis : input.dims.getD axis 0 ≠ 1) (hgid : gid < input.dims.prod) :
    ∃ m, splitThread input outputs axis gid = some m ∧ ∃ k i ty, outputs[k]? = some ty ∧
      At (outputs.map (·.dims.getD axis 0)) k i ((input.indexAt gid).getD axis 0) ∧ m.source = (0, gid) ∧
        m.target = (k, rowMajor ty.dims ((input.indexAt gid).set axis i)) := by
  have hpos := pos_of_prod_pos (Nat.zero_lt_of_lt hgid)
  have hlt := h.cut.axis_lt
  have hstride : input.stride.getD axis 0 ≠ 0 := mt (h.dense.stride_eq_zero_iff hpos hlt).mp haxis
  have hdim : 0 < input.dims.getD axis 0 := by
    rw [getD_of_lt hlt]
    exact hpos _ (List.getElem_mem hlt)
  have hin := (h.dense.indexAt_spec hpos hgid).1
  have hcoord : (input.indexAt gid).getD axis 0 = gid / input.stride.getD axis 0 % input.dims.getD axis 0 := by
    have hlen := h.dense.length
    rw [getD_of_lt (by rwa [hin.length_eq]), getD_of_lt (by omega), getD_of_lt hlt]
    unfold ResolvedTensorType.indexAt
    rw [List.getElem_zipWith]
    rw [getD_of_lt hlt] at haxis hdim
    rw [getD_of_lt (by omega)] at hstride
    exact if_neg (by omega)
  have hsum : (input.indexAt gid).getD axis 0 < (outputs.map (·.dims.getD axis 0)).sum := by
    rw [← extents_dims, h.cut.sum]
    exact inside_getD hin hlt
  obtain ⟨k, i, hat⟩ := exists_at hsum
  have hk : k < outputs.length := by simpa using hat.block
  have hget : outputs[k]? = some outputs[k] := List.getElem?_eq_getElem hk
  have hpart := (h.indexAt_spec hgid hget hat).1
  have hdims : input.dims.set axis ((outputs.map (·.dims.getD axis 0)).getD k 0) = outputs[k].dims := by
    rw [h.cut.getElem?_part (getElem?_dims hget), extents_dims]
  have haxisIdx : (divInt gid (input.stride.getD axis 0)).bind (modInt · (input.dims.getD axis 0)) =
      some ((input.indexAt gid).getD axis 0) := by
    unfold divInt modInt
    rw [if_neg hstride, Option.bind_some, if_neg hdim.ne', hcoord]
  have hi : (input.indexAt gid).getD axis 0 - offset (outputs.map (·.dims.getD axis 0)) k = i := by
    rw [← hat.pos, Nat.add_sub_cancel_left]
  refine ⟨⟨(0, gid), (k, rowMajor outputs[k].dims ((input.indexAt gid).set axis i))⟩, ?_, k, i, outputs[k], hget, hat,
    rfl, rfl⟩
  unfold splitThread
  simp only [haxisIdx, selectRec_eq hat, indexes_eq h.dense hpos, accSizes_getD hat.block, hi, hdims,
    outOffset_eq hpart, Option.bind_eq_bind, Option.bind_some, Option.pure_def]

/-- What the kernel is made with fits if the type of the input does. -/
theorem fitInt_iff : FitInt (splitInts input outputs axis) ↔ FitInt input.dims ∧ FitInt input.stride := by
  unfold splitInts
  simp only [fitInt_append]
  constructor
  · rintro ⟨⟨⟨hdims, hstride⟩, -⟩, -⟩
    exact ⟨hdims, hstride⟩
  · rintro ⟨hdims, hstride⟩
    have haxis := h.cut.axis_lt
    have hdim := hdims _ (List.getElem_mem haxis)
    rw [← getD_of_lt haxis, ← h.cut.sum, extents_dims] at hdim
    refine ⟨⟨⟨hdims, hstride⟩, ?_⟩, fitInt_accSizes rfl hdim⟩
    intro n hn
    exact Nat.lt_of_le_of_lt (List.single_le_sum (fun _ _ => Nat.zero_le _) n hn) hdim

/-- Moves of all storage positions of the input, each to its place in a part. -/
theorem movesOnce {f : Nat → Move} (hf : ∀ gid < input.dims.prod, ∃ k i ty, outputs[k]? = some ty ∧
      At (outputs.map (·.dims.getD axis 0)) k i ((input.indexAt gid).getD axis 0) ∧ (f gid).source = (0, gid) ∧
        (f gid).target = (k, rowMajor ty.dims ((input.indexAt gid).set axis i))) :
    MovesOnce [input] outputs (cuts input outputs axis) ((List.range input.dims.prod).map f) := by
  refine ⟨?_, ?_, ?_⟩
  · rw [List.map_map]
    refine map_range_perm_places (by simp) ?_ ?_
    · intro gid hgid
      obtain ⟨k, i, ty, -, -, hsource, -⟩ := hf gid hgid
      rw [Function.comp_apply, hsource]
      exact mem_places_single.mpr hgid
    · intro gid hgid gid' hgid' heq
      obtain ⟨-, -, -, -, -, hsource, -⟩ := hf gid hgid
      obtain ⟨-, -, -, -, -, hsource', -⟩ := hf gid' hgid'
      rw [Function.comp_apply, Function.comp_apply, hsource, hsource', Prod.mk.injEq] at heq
      exact heq.2
  · rw [List.map_map]
    refine map_range_perm_places (sum_dims h.cut) ?_ ?_
    · intro gid hgid
      obtain ⟨k, i, ty, hget, hat, -, htarget⟩ := hf gid hgid
      have hk := (List.getElem?_eq_some_iff.mp hget).1
      rw [Function.comp_apply, htarget]
      refine mem_places.mpr ⟨by simpa using hk, ?_⟩
      simpa [hget] using rowMajor_lt (h.indexAt_spec hgid hget hat).1
    · intro gid hgid gid' hgid' heq
      obtain ⟨k, i, ty, hget, hat, -, htarget⟩ := hf gid hgid
      obtain ⟨k', i', ty', hget', hat', -, htarget'⟩ := hf gid' hgid'
      obtain ⟨hin, hjoin⟩ := h.indexAt_spec hgid hget hat
      obtain ⟨hin', hjoin'⟩ := h.indexAt_spec hgid' hget' hat'
      rw [Function.comp_apply, Function.comp_apply, htarget, htarget', Prod.mk.injEq] at heq
      obtain ⟨rfl, hoffset⟩ := heq
      obtain rfl : ty = ty' := Option.some.inj (hget.symm.trans hget')
      have hindex := rowMajor_injective hin hin' hoffset
      have hsame : input.indexAt gid = input.indexAt gid' := by rw [← hjoin, hindex, hjoin']
      have hgid := (h.dense.indexAt_spec (pos_of_prod_pos (Nat.zero_lt_of_lt hgid)) hgid).2
      have hgid' := (h.dense.indexAt_spec (pos_of_prod_pos (Nat.zero_lt_of_lt hgid')) hgid').2
      rw [← hgid, ← hgid', hsame]
  · intro m hm
    obtain ⟨gid, hgid, rfl⟩ := List.mem_map.mp hm
    have hgid := List.mem_range.mp hgid
    obtain ⟨k, i, ty, hget, hat, hsource, htarget⟩ := hf gid hgid
    obtain ⟨hin, hjoin⟩ := h.indexAt_spec hgid hget hat
    refine ⟨k, ty, (input.indexAt gid).set axis i, hget, hin, ?_, ?_⟩
    · rw [htarget, h.contiguous ty (List.mem_of_getElem? hget), elementAt_calcStride hin]
    · rw [hsource, hjoin, (h.dense.indexAt_spec (pos_of_prod_pos (Nat.zero_lt_of_lt hgid)) hgid).2]

/-- Every thread makes a move, and together they split. -/
theorem split_eq (hdims : FitInt input.dims) (hstride : FitInt input.stride) (hsize : input.dims.prod ≤ 2 ^ 31)
    (haxis : input.dims.prod = 0 ∨ input.dims.getD axis 0 ≠ 1) :
    ∃ moves, split input outputs axis = some moves ∧
      MovesOnce [input] outputs (cuts input outputs axis) moves := by
  obtain ⟨f, hrun, hf⟩ := exists_run (n := input.dims.prod) fun gid hgid =>
    h.thread_eq (haxis.resolve_left (Nat.zero_lt_of_lt hgid).ne') hgid
  refine ⟨(List.range input.dims.prod).map f, ?_, h.movesOnce hf⟩
  rw [split, if_pos (h.fitInt_iff.mpr ⟨hdims, hstride⟩), size_whole h.cut, launchGuarded_self hsize, Option.bind_some, hrun]

/-- A thread divides by the stride of the axis. -/
theorem split_eq_none (hpos : 0 < input.dims.prod) (haxis : input.dims.getD axis 0 = 1) :
    split input outputs axis = none := by
  have hstride := (h.dense.stride_eq_zero_iff (pos_of_prod_pos hpos) h.cut.axis_lt).mpr haxis
  have hthread : splitThread input outputs axis 0 = none := by
    unfold splitThread divInt
    rw [if_pos hstride]
    rfl
  unfold split
  split
  · rw [size_whole h.cut]
    rcases le_or_gt input.dims.prod (2 ^ 31) with hle | hlt
    · rw [launchGuarded_self hle, Option.bind_some]
      exact mapM_eq_none (List.mem_range.mpr hpos) hthread
    · rw [Coverage.launchGuarded_eq_none hlt]
      rfl
  · rfl

end SplitTypes

/-- `Concat` moves every element once unless a number is too large.  `Split` besides needs a stride on the axis it
splits: an axis of extent one has none, and its kernel divides by it. -/
theorem movesOnce_iff {inputs outputs : List ResolvedTensorType} {output input : ResolvedTensorType}
    {axis axis' : Nat} (hconcat : ConcatTypes inputs output axis) (hsplit : SplitTypes input outputs axis') :
    ((∃ moves, concat inputs output axis = some moves ∧ MovesOnce inputs [output] (joins inputs output axis) moves) ↔
      FitInt (inputs.length :: output.dims.length :: output.dims.prod :: output.dims) ∧
        ∀ ty ∈ inputs, FitInt ty.stride) ∧
    ((∃ moves, split input outputs axis' = some moves ∧ MovesOnce [input] outputs (cuts input outputs axis') moves) ↔
      FitInt input.dims ∧ FitInt input.stride ∧ input.dims.prod ≤ 2 ^ 31 ∧
        (input.dims.prod = 0 ∨ input.dims.getD axis' 0 ≠ 1)) := by
  refine ⟨⟨?_, fun h => hconcat.concat_eq h.1 h.2⟩, ⟨?_, fun h => hsplit.split_eq h.1 h.2.1 h.2.2.1 h.2.2.2⟩⟩
  · rintro ⟨moves, hrun, -⟩
    obtain ⟨c, hc, -, hfit⟩ := hconcat.build_eq
    rw [← hfit]
    by_contra hints
    rw [concat, hc, Option.bind_some, ConcatKernel.run, if_neg hints] at hrun
    cases hrun
  · rintro ⟨moves, hrun, -⟩
    rw [← and_assoc, ← hsplit.fitInt_iff]
    refine ⟨?_, ?_, ?_⟩
    · by_contra hints
      rw [split, if_neg hints] at hrun
      cases hrun
    · by_contra hsize
      rw [split, size_whole hsplit.cut, Coverage.launchGuarded_eq_none (Nat.lt_of_not_le hsize), Option.bind_none,
        ite_self] at hrun
      cases hrun
    · by_contra haxis
      push Not at haxis
      rw [hsplit.split_eq_none (Nat.pos_of_ne_zero haxis.1) haxis.2] at hrun
      cases hrun

/-- `[2, 2]` and `[1, 2]` beside each other, and cut again. -/
theorem rows_move : (∃ moves, concat [.new (.float .F32) [2, 2], .new (.float .F32) [1, 2]]
      (.new (.float .F32) [3, 2]) 0 = some moves ∧
      MovesOnce [.new (.float .F32) [2, 2], .new (.float .F32) [1, 2]] [.new (.float .F32) [3, 2]]
        (joins [.new (.float .F32) [2, 2], .new (.float .F32) [1, 2]] (.new (.float .F32) [3, 2]) 0) moves) ∧
    ∃ moves, split (.new (.float .F32) [3, 2]) [.new (.float .F32) [2, 2], .new (.float .F32) [1, 2]] 0 = some moves ∧
      MovesOnce [.new (.float .F32) [3, 2]] [.new (.float .F32) [2, 2], .new (.float .F32) [1, 2]]
        (cuts (.new (.float .F32) [3, 2]) [.new (.float .F32) [2, 2], .new (.float .F32) [1, 2]] 0) moves := by
  have hcut : Cut [3, 2] 0 [[2, 2], [1, 2]] := ⟨by decide, by decide, by decide⟩
  have hparts : ∀ ty ∈ [ResolvedTensorType.new (.float .F32) [2, 2], .new (.float .F32) [1, 2]],
      ty.Dense ∧ ty.stride = calcStride ty.dims := by
    intro ty hty
    rcases List.mem_pair.mp hty with rfl | rfl
    · exact ⟨ResolvedTensorType.dense_new _ _, rfl⟩
    · exact ⟨ResolvedTensorType.dense_new _ _, rfl⟩
  have hconcat : ConcatTypes [.new (.float .F32) [2, 2], .new (.float .F32) [1, 2]] (.new (.float .F32) [3, 2]) 0 :=
    ⟨hcut, by simp, fun ty hty => (hparts ty hty).1, rfl⟩
  have hsplit : SplitTypes (.new (.float .F32) [3, 2]) [.new (.float .F32) [2, 2], .new (.float .F32) [1, 2]] 0 :=
    ⟨hcut, by simp, ResolvedTensorType.dense_new _ _, fun ty hty => (hparts ty hty).2⟩
  obtain ⟨hconcat, hsplit⟩ := movesOnce_iff hconcat hsplit
  exact ⟨hconcat.mpr (by decide), hsplit.mpr (by decide)⟩

/-- A `[1, 4]` tensor split along its first axis: there is no stride to divide by. -/
theorem row_split_fails : SplitTypes (.new (.float .F32) [1, 4]) [.new (.float .F32) [1, 4]] 0 ∧
    ¬∃ moves, split (.new (.float .F32) [1, 4]) [.new (.float .F32) [1, 4]] 0 = some moves ∧
      MovesOnce [.new (.float .F32) [1, 4]] [.new (.float .F32) [1, 4]]
        (cuts (.new (.float .F32) [1, 4]) [.new (.float .F32) [1, 4]] 0) moves := by
  have htypes : SplitTypes (.new (.float .F32) [1, 4]) [.new (.float .F32) [1, 4]] 0 :=
    ⟨⟨by decide, by decide, by decide⟩, by simp, ResolvedTensorType.dense_new _ _, by simp [ResolvedTensorType.new]⟩
  refine ⟨htypes, ?_⟩
  rintro ⟨moves, hrun, -⟩
  rw [htypes.split_eq_none (by decide) rfl] at hrun
  cases hrun

end ConcatSplit
end NnEngine
