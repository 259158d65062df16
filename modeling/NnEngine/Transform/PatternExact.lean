import NnEngine.Graph.Exact
import NnEngine.Transform.Pattern

/-!
# What the nodes of a pattern compute

The equations of exact arithmetic along a pattern, with its constants, and the means over the last axis.
-/

namespace NnEngine

open DepthFirst InverseIndex SimpleGraphOp GraphState NdArray

/-- The check that a scalar is a number, as in `SInt(_, 2) | UInt(_, 2) | Float(_, 2.0)`. -/
def ScalarData.matchesNat (n : Nat) : ScalarData → Bool
  | .bool _ => false
  | .sInt _ v => v == Int64.ofNat n
  | .uInt _ v => v == UInt64.ofNat n
  | .float _ v => v == (.ofNat n : F64)

/-- The number that a scalar is. -/
noncomputable def ScalarData.real : ScalarData → ℝ
  | .bool v => v.toNat
  | .sInt _ v => v.toInt
  | .uInt _ v => v.toNat
  | .float _ v => F64.real v

theorem F64.real?_ofNat_two : F64.real? (.ofNat 2) = some 2 := by
  have hunpack : (Float.Model.ofNat 2).unpack = .finite .positive (2 ^ 52) (-51) (by decide) := rfl
  unfold F64.real?
  rw [hunpack]
  norm_num

theorem F64.real?_ofNat_three : F64.real? (.ofNat 3) = some 3 := by
  have hunpack : (Float.Model.ofNat 3).unpack = .finite .positive (3 * 2 ^ 51) (-51) (by decide) := rfl
  unfold F64.real?
  rw [hunpack]
  norm_num

theorem ScalarData.real_of_matchesNat {sd : ScalarData} {n : Nat} (hn : n = 1 ∨ n = 2 ∨ n = 3)
    (h : sd.matchesNat n = true) : sd.real = n := by
  cases sd with
  | bool v => cases h
  | sInt t v =>
      obtain rfl := beq_iff_eq.mp h
      rcases hn with rfl | rfl | rfl <;> simp [real]
  | uInt t v =>
      obtain rfl := beq_iff_eq.mp h
      rcases hn with rfl | rfl | rfl <;> simp [real]
  | float t v =>
      show F64.real v = n
      rw [F64.real, F64.real?_of_beq h]
      rcases hn with rfl | rfl | rfl
      · rw [F64.real?_ofNat_one, Option.getD_some, Nat.cast_one]
      · rw [F64.real?_ofNat_two, Option.getD_some, Nat.cast_ofNat]
      · rw [F64.real?_ofNat_three, Option.getD_some, Nat.cast_ofNat]

/-- A constant of one element. -/
def scalarTensor (v : F64) : Tensor := ⟨.float .F32 [v], [], Tensor.hsize_scalar⟩

theorem Exact.isConstant_scalarTensor {v : F64} {r : ℝ} (h : v.real? = some r) :
    IsConstant (scalarTensor v) (fill [] r) := by
  refine ⟨rfl, ?_⟩
  show [v].mapM F64.real? = some [r]
  rw [List.mapM_cons, List.mapM_nil, h]
  rfl

variable {c : Exact.GeLUConstants} {files : Onnx.Files} {g : Graph} {ρ : ValueId → Exact.Arr} {v : ValueId}

/-- A constant of one element. -/
theorem data_of_scalar (hρ : (exact c files).Holds g ρ) {t : Tensor} {sd : ScalarData}
    (h : Onnx.getInitializer files g v = some t) (hsd : t.data.toScalarData = some sd) :
    (ρ v).data = [sd.real] := by
  obtain ⟨-, hreals⟩ := isConstant_of_initializer hρ h
  generalize t.data = data at hsd hreals
  unfold TensorData.toScalarData at hsd
  split at hsd <;> cases hsd
  · exact (Option.some.inj hreals).symm
  · exact (Option.some.inj hreals).symm
  · exact (Option.some.inj hreals).symm
  · rename_i ty x
    change [x].mapM F64.real? = some (ρ v).data at hreals
    rw [List.mapM_cons, List.mapM_nil] at hreals
    show (ρ v).data = [F64.real x]
    unfold F64.real
    cases hx : F64.real? x with
    | none => rw [hx] at hreals; cases hreals
    | some r =>
        rw [hx] at hreals
        exact (Option.some.inj hreals).symm

/-! ### Steps -/

theorem mean_of_node (hρ : (exact c files).Holds g ρ) {id : NodeId} {node : Node} (hnode : g.node? id = some node)
    {axis : Int64} {keepdims : Bool} (hop : node.op = .reduceMean ⟨[axis], keepdims⟩) {u w : ValueId}
    (hin : some u ∈ node.inputs) {k : Nat} (hout : node.outputs[k]? = some w) :
    TensorIndex.index ⟨axis⟩ (ρ u).shape.length < (ρ u).shape.length ∧
      ρ w = Exact.meanAxis keepdims (TensorIndex.index ⟨axis⟩ (ρ u).shape.length) (ρ u) := by
  have h := hρ.nodes _ _ hnode
  rw [hop] at h
  obtain ⟨x, rest, y, hins, hrest, houts, hlt, hy⟩ := h
  obtain rfl := Exact.output_eq houts hout
  obtain rfl : ρ u = x := by
    have hmem : some (ρ u) ∈ node.inputs.map (Option.map ρ) := List.mem_map_of_mem hin
    rw [hins, List.mem_cons] at hmem
    rcases hmem with hmem | hmem
    · exact Option.some.inj hmem
    · cases hrest _ hmem
  exact ⟨hlt, hy⟩

/-- A commutative operator with the value as one operand. -/
theorem other_of_node (hρ : (exact c files).Holds g ρ) {id : NodeId} {node : Node} (hnode : g.node? id = some node)
    {f : ℝ → ℝ → ℝ} (hop : Exact.op c node.op = Exact.Two (Binary f)) (hcomm : ∀ a b, f a b = f b a) {u w : ValueId}
    (hother : extractOtherBinaryInput node u = .ok (some v)) {k : Nat} (hout : node.outputs[k]? = some w) :
    Binary f (ρ u) (ρ v) (ρ w) := by
  have h := hρ.nodes _ _ hnode
  change Exact.op c node.op _ _ at h
  rw [hop] at h
  rcases extractOtherBinaryInput_eq hother with hins | hins
  · exact h.of_inputs (by rw [hins]; rfl) (by rw [hins]; rfl) hout
  · have hswap := (h.of_inputs (u := v) (v := u) (by rw [hins]; rfl) (by rw [hins]; rfl) hout).symm
    have hf : (fun a b => f b a) = f := funext fun a => funext fun b => hcomm b a
    rwa [hf] at hswap

namespace PatternMatcher

variable {pred : Node → ValueId → Except Stop Bool} {m m' : PatternMatcher} {node : Node} {u w : ValueId}

theorem Next.unary (hρ : (exact c files).Holds g ρ) (h : Next g pred m m' node) {P : Exact.Arr → Exact.Arr → Prop}
    (hop : Exact.op c node.op = Exact.One P) : P (ρ m.currentValue) (ρ m'.currentValue) := by
  have hnode := hρ.nodes _ _ h.1.1
  change Exact.op c node.op _ _ at hnode
  rw [hop] at hnode
  exact hnode.of_mem h.2.1 h.1.2

theorem Next.binary (hρ : (exact c files).Holds g ρ) (h : Next g pred m m' node)
    {P : Exact.Arr → Exact.Arr → Exact.Arr → Prop} (hop : Exact.op c node.op = Exact.Two P)
    (hu : node.inputs[0]? = some (some u)) (hv : node.inputs[1]? = some (some v)) :
    P (ρ u) (ρ v) (ρ m'.currentValue) := by
  have hnode := hρ.nodes _ _ h.1.1
  change Exact.op c node.op _ _ at hnode
  rw [hop] at hnode
  exact hnode.of_inputs hu hv h.1.2

theorem Next.other (hρ : (exact c files).Holds g ρ) (h : Next g pred m m' node) {f : ℝ → ℝ → ℝ}
    (hop : Exact.op c node.op = Exact.Two (Binary f)) (hcomm : ∀ a b, f a b = f b a)
    (hother : extractOtherBinaryInput node u = .ok (some v)) :
    Binary f (ρ u) (ρ v) (ρ m'.currentValue) := other_of_node hρ h.1.1 hop hcomm hother h.1.2

theorem Next.with {op : Operator} {p : ValueId → Bool} (hρ : (exact c files).Holds g ρ)
    (h : Next g (isBinaryWith op p) m m' node) {f : ℝ → ℝ → ℝ} (hop : Exact.op c op = Exact.Two (Binary f))
    (hcomm : ∀ a b, f a b = f b a) :
    ∃ v, p v = true ∧ Binary f (ρ m.currentValue) (ρ v) (ρ m'.currentValue) := by
  obtain ⟨rfl, v, hother, hv⟩ := isBinaryWith_eq_ok h.2.2
  exact ⟨v, hv, h.other hρ hop hcomm hother⟩

theorem Next.mean (hρ : (exact c files).Holds g ρ) (h : Next g pred m m' node) {axis : Int64} {keepdims : Bool}
    (hop : node.op = .reduceMean ⟨[axis], keepdims⟩) :
    TensorIndex.index ⟨axis⟩ (ρ m.currentValue).shape.length < (ρ m.currentValue).shape.length ∧
      ρ m'.currentValue = Exact.meanAxis keepdims
        (TensorIndex.index ⟨axis⟩ (ρ m.currentValue).shape.length) (ρ m.currentValue) :=
  mean_of_node hρ h.1.1 hop h.2.1 h.1.2

end PatternMatcher

/-! ### Means over the last axis -/

theorem TensorIndex.index_lt (i : TensorIndex) (n : Nat) : i.index n < 2 ^ 64 := by
  unfold TensorIndex.index
  split <;> exact UInt64.toNat_lt _

theorem TensorIndex.index_negOne {n : Nat} (hpos : n ≠ 0) (hle : n ≤ 2 ^ 64) : index ⟨-1⟩ n = n - 1 := by
  have hindex : index ⟨-1⟩ n = (BitVec.ofNat 64 n + BitVec.ofInt 64 (-1)).toNat := by
    unfold index
    rw [if_pos (by decide)]
    rfl
  have hone : (BitVec.ofInt 64 (-1)).toNat = 2 ^ 64 - 1 := rfl
  rw [hindex, BitVec.toNat_add, BitVec.toNat_ofNat, hone]
  omega

/-- An index that is the last axis says that `-1` is. -/
theorem TensorIndex.index_last {i : TensorIndex} {n : Nat} (hpos : n ≠ 0) (h : i.index n = n - 1) :
    index ⟨-1⟩ n = n - 1 :=
  index_negOne hpos (by have hlt := i.index_lt n; omega)

theorem clamp_set {d idx : List Nat} (h : Inside idx d) (k : Nat) : clamp (d.set k 1) idx = idx.set k 0 := by
  induction h generalizing k with
  | nil => rfl
  | @cons i n idx d hlt hrest ih =>
      cases k with
      | zero =>
          show (if 1 = 1 then 0 else i) :: clamp d idx = 0 :: idx
          rw [clamp_of_inside hrest, if_pos rfl]
      | succ k =>
          show (if n = 1 then 0 else i) :: clamp (d.set k 1) idx = i :: idx.set k 0
          rw [ih k]
          congr 1
          split <;> omega

theorem broadcasts_set (d : List Nat) (k : Nat) : Broadcasts (d.set k 1) d := by
  refine ⟨by simp, ?_⟩
  rw [List.length_set, Nat.sub_self, List.drop_zero]
  induction d generalizing k with
  | nil => exact .nil
  | cons n d ih =>
      cases k with
      | zero => exact .cons (.inl rfl) (List.forall₂_same.mpr fun _ _ => .inr rfl)
      | succ k => exact .cons (.inr rfl) (ih k)

theorem inside_of_set {d idx : List Nat} {k i n : Nat} (h : Inside idx (d.set k n)) (hi : i < d.getD k 0) :
    Inside (idx.set k i) d := by
  induction d generalizing idx k with
  | nil => cases hi
  | cons m d ih =>
      cases k with
      | zero =>
          obtain _ | ⟨-, hrest⟩ := h
          exact .cons hi hrest
      | succ k =>
          obtain _ | ⟨hlt, hrest⟩ := h
          exact .cons hlt (ih hrest hi)

theorem inside_set {d idx : List Nat} (h : Inside idx d) {k i : Nat} (hi : i < d.getD k 0) :
    Inside (idx.set k i) d := by
  refine inside_of_set (n := d.getD k 0) ?_ hi
  by_cases hk : k < d.length
  · rwa [List.getD_eq_getElem _ _ hk, List.set_getElem_self]
  · rwa [List.set_eq_of_length_le (Nat.le_of_not_lt hk)]

namespace Exact

variable {x y : Arr} {d : List Nat} {f : List Nat → ℝ} {k : Nat}

theorem meanAxis_length : (meanAxis true k x).shape.length = x.shape.length := List.length_set

/-- The mean that keeps its axis. -/
theorem spread_meanAxis (hx : x.Spread d f) (hd : x.shape = d) :
    (meanAxis true k x).Spread d fun idx => (∑ i ∈ Finset.range (d.getD k 0), f (idx.set k i)) / d.getD k 0 := by
  have hshape : (meanAxis true k x).shape = d.set k 1 := by rw [← hd]; rfl
  refine ⟨hshape ▸ broadcasts_set d k, fun idx hidx => ?_⟩
  have hsource : broadcastSource (d.set k 1) d idx = idx.set k 0 := by
    unfold broadcastSource
    rw [List.length_set, Nat.sub_self, List.drop_zero, clamp_set hidx]
  have hinside : Inside (idx.set k 0) (d.set k 1) :=
    hsource ▸ inside_broadcastSource (broadcasts_set d k) hidx
  unfold NdArray.read
  rw [hshape, hsource]
  unfold meanAxis
  rw [if_pos rfl, hd, get_tabulate hinside]
  congr 1
  refine Finset.sum_congr rfl fun i hi => ?_
  have hset := inside_set hidx (Finset.mem_range.mp hi)
  rw [if_pos rfl, List.set_set, ← hx.read_eq _ hset, read_of_inside hd hset]

theorem drop_lastAxis (hk : k + 1 = d.length) : d.drop k = [d.getD k 0] := by
  rw [List.drop_eq_getElem_cons (by omega), List.drop_of_length_le (by omega), List.getD_eq_getElem]

/-- The mean over one axis that is the last. -/
theorem meanOf_last (hk : k + 1 = x.shape.length) {idx : List Nat} (hidx : Inside idx x.shape) (op : ℝ → ℝ) :
    meanOf x k op (idx.take k) =
      (∑ i ∈ Finset.range (x.shape.getD k 0), op (x.get (idx.set k i))) / x.shape.getD k 0 := by
  have hlen := hidx.length_eq
  unfold meanOf
  rw [drop_lastAxis hk, List.prod_singleton]
  congr 1
  refine Finset.sum_congr rfl fun i hi => ?_
  have hmulti : multiIndex [x.shape.getD k 0] i = [i] := by
    show [i / 1 % _] = [i]
    rw [Nat.div_one, Nat.mod_eq_of_lt (Finset.mem_range.mp hi)]
  rw [hmulti, List.set_eq_take_append_cons_drop, if_pos (by omega), List.drop_of_length_le (by omega)]

theorem meanAxis_fill {n : Nat} (hk : d[k]? = some n) (hn : n ≠ 0) (a : ℝ) :
    meanAxis true k (fill d a) = fill (d.set k 1) a := by
  have hget : d.getD k 0 = n := by rw [List.getD_eq_getElem?_getD, hk, Option.getD_some]
  refine tabulate_congr fun idx hidx => ?_
  have hsum : ∑ i ∈ Finset.range n, (fill d a).get (idx.set k i) = ∑ _i ∈ Finset.range n, a := by
    refine Finset.sum_congr rfl fun i hi => get_tabulate ?_
    exact inside_of_set hidx (hget ▸ Finset.mem_range.mp hi)
  show (∑ i ∈ Finset.range (d.getD k 0), (fill d a).get (idx.set k i)) / (d.getD k 0 : ℝ) = a
  rw [hget, hsum, Finset.sum_const, Finset.card_range, nsmul_eq_mul]
  exact mul_div_cancel_left₀ a (Nat.cast_ne_zero.mpr hn)

end Exact
end NnEngine
