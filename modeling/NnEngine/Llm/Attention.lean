import NnEngine.Llm.Streaming

/-!
# Attention over the ring

The kernels of `attention.cuh` and `rope.cuh`, and the two graphs that `build_attention` makes of them
for a streaming cache.  A kernel is modelled for one query row of one head, in exact arithmetic: the
threads that share a row only split its sums.

Scores have `-INFINITY`, which is `⊥`.  A row that is no number is `none`.
-/

namespace NnEngine
namespace Llm
namespace Attention

variable {α : Type} [Field α] [LinearOrder α]

/-- `expf(a - b)`. -/
def expSub (exp : α → α) : WithBot α → WithBot α → Option α
  | .some a, .some b => some (exp (a - b))
  | _, .some _ => some 0
  | _, _ => none

/-- The tables of a rotary embedding. -/
structure Rope (α : Type) where
  cosTable : Nat → Nat → α
  sinTable : Nat → Nat → α
  kvPosition : List Nat

/-- `kv_position[i]`, for an `i` inside the table. -/
def Rope.pos (r : Rope α) (i : Nat) : Nat := r.kvPosition.getD i 0

/-- The cache of one K/V head.  An `INT8` cache has a scale for each token. -/
structure KvCache (α : Type) where
  k : Nat → Nat → α
  v : Nat → Nat → α
  kvQuant : Option ((Nat → α) × (Nat → α))

namespace KvCache

def kScale (c : KvCache α) (phys : Nat) : α :=
  match c.kvQuant with
  | some (kScale, _) => kScale phys
  | none => 1

def vScale (c : KvCache α) (phys : Nat) : α :=
  match c.kvQuant with
  | some (_, vScale) => vScale phys
  | none => 1

/-- The cache without its scales, of the same values. -/
def dequantised (c : KvCache α) : KvCache α :=
  { k := fun s i => c.k s i * c.kScale s
    v := fun s i => c.v s i * c.vScale s
    kvQuant := none }

end KvCache

/-- The arguments that the kernels share. -/
structure Args (α : Type) where
  headDim : Nat
  scale : α
  isCausal : Bool
  mask : Option (Nat → Nat → WithBot α)
  qSeqLen : Nat
  kvActiveSeq : Nat
  qPosOffset : Int
  ringSink : Nat
  ringWindow : Nat
  ringStart : Nat
  rope : Option (Rope α)

/-- The slot of a rank. -/
def Args.phys (a : Args α) (rank : Nat) : Nat :=
  ringPhysIndex rank a.ringSink a.ringWindow a.ringStart

/-- `q_pos_offset + g_row < g_col` under a causal mask. -/
def maskedOut (isCausal : Bool) (qPosOffset : Int) (gRow gCol : Nat) : Bool :=
  isCausal && decide (qPosOffset + gRow < gCol)

def Args.maskedOut (a : Args α) : Nat → Nat → Bool := Attention.maskedOut a.isCausal a.qPosOffset

/-- The half-split rotation that the attention kernels apply to a key. -/
def rotated (headDim : Nat) (cos sin x : Nat → α) (i : Nat) : α :=
  let half := headDim / 2
  let pair := if i < half then i + half else i - half
  let sign : α := if i < half then -1 else 1
  x i * cos i + sign * x pair * sin i

/-- `rope`, over the slots of a cache. -/
def rope (headDim : Nat) (r : Rope α) (x : Nat → Nat → α) (s i : Nat) : α :=
  let half := headDim / 2
  let pos := r.pos s
  if i < half then x s i * r.cosTable pos i - x s (i + half) * r.sinTable pos i
  else x s i * r.cosTable pos i + x s (i - half) * r.sinTable pos i

/-- What a kernel keeps of a row from one key, or block of keys, to the next. -/
structure Row (α : Type) where
  rowMax : WithBot α
  rowSum : α
  out : Nat → α

def Row.init : Row α := { rowMax := ⊥, rowSum := 0, out := fun _ => 0 }

/-- The final division by `row_sum`. -/
def Row.normalised (row : Row α) : Option (Nat → α) :=
  if row.rowSum = 0 then none else some fun i => row.out i / row.rowSum

/-! ### `attention_decode` -/

def decodeDot (a : Args α) (c : KvCache α) (q : Nat → α) (rowK : Nat) : α :=
  let phys := a.phys rowK
  match a.rope with
  | some r =>
      ((List.range a.headDim).map fun i => q i *
        rotated a.headDim (r.cosTable (r.pos rowK)) (r.sinTable (r.pos rowK))
          (fun i => c.k phys i * c.kScale phys) i).sum
  | none => ((List.range a.headDim).map fun i => q i * c.k phys i * c.kScale phys).sum

def decodeRow (exp : α → α) (a : Args α) (c : KvCache α) (q : Nat → α) (row : Row α) (rowK : Nat) :
    Option (Row α) := do
  let phys := a.phys rowK
  let val : WithBot α := .some (decodeDot a c q rowK * a.scale)
  let rowMax := max row.rowMax val
  let score ← expSub exp val rowMax
  let coeff ← expSub exp row.rowMax rowMax
  pure
    { rowMax
      rowSum := row.rowSum * coeff + score
      out := fun i => row.out i * coeff + score * c.vScale phys * c.v phys i }

/-- `attention_decode`.  It has no mask. -/
def attentionDecode (exp : α → α) (a : Args α) (c : KvCache α) (q : Nat → α) : Option (Nat → α) :=
  ((List.range a.kvActiveSeq).foldlM (decodeRow exp a c q) .init).bind Row.normalised

/-! ### `attention` -/

def tiledDot (a : Args α) (c : KvCache α) (q : Nat → α) (rank : Nat) : α :=
  let phys := a.phys rank
  match a.rope with
  | some r =>
      ((List.range a.headDim).map fun k => q k *
        rotated a.headDim (r.cosTable (r.pos rank)) (r.sinTable (r.pos rank))
          (fun k => c.k phys k * c.kScale phys) k).sum
  | none => ((List.range a.headDim).map fun k => q k * c.k phys k).sum * c.kScale phys

def tiledScore (a : Args α) (c : KvCache α) (q : Nat → α) (gRow gCol : Nat) : WithBot α :=
  if a.maskedOut gRow gCol then ⊥
  else .some (tiledDot a c q gCol * a.scale) + a.mask.elim 0 fun mask => mask gRow gCol

/-- Block `i` of the keys. -/
def tiledBlock (exp : α → α) (bc : Nat) (a : Args α) (c : KvCache α) (q : Nat → α) (gRow : Nat)
    (row : Row α) (i : Nat) : Option (Row α) := do
  let numKvRow := min bc (a.kvActiveSeq - i * bc)
  let vals := (List.range numKvRow).map fun j => tiledScore a c q gRow (i * bc + j)
  let rowMax := vals.foldl max row.rowMax
  let weights ← vals.mapM (expSub exp · rowMax)
  let coeff ← expSub exp row.rowMax rowMax
  pure
    { rowMax
      rowSum := coeff * row.rowSum + weights.sum
      out := fun k => row.out k * coeff + ((weights.zip (List.range numKvRow)).map fun (pj, j) =>
        pj * c.vScale (a.phys (i * bc + j)) * c.v (a.phys (i * bc + j)) k).sum }

/-- `attention` with blocks of `bc` keys. -/
def attention (exp : α → α) (bc : Nat) (a : Args α) (c : KvCache α) (q : Nat → α) (gRow : Nat) :
    Option (Nat → α) :=
  ((List.range ((a.kvActiveSeq + bc - 1) / bc)).foldlM (tiledBlock exp bc a c q gRow) .init).bind
    Row.normalised

/-! ### `attention_tc` -/

/-- `s_K`. -/
def stagedKey (a : Args α) (c : KvCache α) (rank i : Nat) : α :=
  let phys := a.phys rank
  match a.rope with
  | some r =>
      rotated a.headDim (r.cosTable (r.pos rank)) (r.sinTable (r.pos rank))
        (fun i => c.k phys i * c.kScale phys) i
  | none => c.k phys i * c.kScale phys

/-- A score of `s_S`.  The columns after the last key are `-INFINITY`. -/
def tcScore (a : Args α) (c : KvCache α) (q : Nat → α) (gRow gCol : Nat) : WithBot α :=
  if a.kvActiveSeq ≤ gCol ∨ a.maskedOut gRow gCol then ⊥
  else .some (((List.range a.headDim).map fun i => q i * stagedKey a c gCol i).sum * a.scale) +
    a.mask.elim 0 fun mask => mask gRow gCol

/-- `new_m == -INFINITY ? 1 : expf(old_m - new_m)`. -/
def tcCorr (exp : α → α) (oldM newM : WithBot α) : Option α :=
  if newM = ⊥ then some 1 else expSub exp oldM newM

/-- `S == -INFINITY ? 0 : expf(S - new_m)`. -/
def tcWeight (exp : α → α) (s m : WithBot α) : Option α :=
  if s = ⊥ then some 0 else expSub exp s m

def tcBlock (exp : α → α) (bc : Nat) (a : Args α) (c : KvCache α) (q : Nat → α) (gRow : Nat)
    (row : Row α) (blk : Nat) : Option (Row α) := do
  let vals := (List.range bc).map fun r => tcScore a c q gRow (blk * bc + r)
  let newM := vals.foldl max row.rowMax
  let corr ← tcCorr exp row.rowMax newM
  let p ← vals.mapM (tcWeight exp · newM)
  pure
    { rowMax := newM
      rowSum := row.rowSum * corr + p.sum
      -- `s_V` is zero after the last key
      out := fun k => row.out k * corr + ((p.zip (List.range bc)).map fun (pr, r) => pr *
        if a.kvActiveSeq ≤ blk * bc + r then 0
        else c.v (a.phys (blk * bc + r)) k * c.vScale (a.phys (blk * bc + r))).sum }

/-- `n_kv_blocks`: under a causal mask the blocks after the last visible one are left out. -/
def numKvBlocks (br bc : Nat) (a : Args α) (gRow : Nat) : Nat :=
  let blocks := (a.kvActiveSeq + bc - 1) / bc
  if a.isCausal then
    let block := gRow / br
    let numQRow := min br (a.qSeqLen - block * br)
    let qMaxPos : Int := a.qPosOffset + (block * br + (numQRow - 1) : Nat)
    (min (blocks : Int) (qMaxPos.tdiv bc + 1)).toNat
  else blocks

/-- `attention_tc` with blocks of `br` query rows and `bc` keys. -/
def attentionTc (exp : α → α) (br bc : Nat) (a : Args α) (c : KvCache α) (q : Nat → α) (gRow : Nat) :
    Option (Nat → α) :=
  ((List.range (numKvBlocks br bc a gRow)).foldlM (tcBlock exp bc a c q gRow) .init).map fun row k =>
    row.out k * if 0 < row.rowSum then 1 / row.rowSum else 0

/-! ### The choice of a kernel -/

/-- `ceil_pow2`. -/
def ceilPow2 (x : Nat) : Nat :=
  if x = 0 then 1
  else
    let x := x - 1
    let x := x ||| x >>> 1
    let x := x ||| x >>> 2
    let x := x ||| x >>> 4
    let x := x ||| x >>> 8
    let x := x ||| x >>> 16
    x + 1

/-- The attention of one head in a compiled graph.  The rotation pairs the columns of a key. -/
structure Head (α : Type) where
  bf16 : Bool
  headDim : Nat
  even : headDim % 2 = 0
  seqQ : Nat
  seqK : Nat
  isCausal : Bool
  scale : α

/-- The kernel that the code generator launches for an attention node. -/
def Head.launch (h : Head α) (exp : α → α) (a : Args α) (c : KvCache α) (q : Nat → Nat → α)
    (gRow : Nat) : Option (Nat → α) :=
  if h.seqQ = 1 ∧ 1 < h.seqK then attentionDecode exp a c (q gRow)
  else if h.bf16 ∧ h.headDim % 16 = 0 then attentionTc exp 64 32 a c (q gRow) gRow
  else
    let threadsPerRow := max 1 (min (h.headDim / 8) 32)
    let bc := max 1 (min (ceilPow2 (h.seqK / threadsPerRow)) (256 / threadsPerRow))
    attention exp bc a c (q gRow) gRow

/-- `q_pos_offset` of a node: zero when the queries fill the cache. -/
def qPosOffset (seqQ seqK active : Nat) : Int := if seqQ = seqK then 0 else (active : Int) - seqQ

/-- The arguments of the kernels for a node without mask and rotation. -/
def Head.args (h : Head α) (active : Nat) (ring : RingInputs) : Args α :=
  { headDim := h.headDim
    scale := h.scale
    isCausal := h.isCausal
    mask := none
    qSeqLen := h.seqQ
    kvActiveSeq := active
    qPosOffset := qPosOffset h.seqQ h.seqK active
    ringSink := ring.ringSink
    ringWindow := ring.ringWindow
    ringStart := ring.ringStart
    rope := none }

/-- `attention_streaming`. -/
def Head.attentionStreaming (h : Head α) (exp : α → α) (active : Nat) (ring : RingInputs)
    (rope : Option (Rope α)) (c : KvCache α) : (Nat → Nat → α) → Nat → Option (Nat → α) :=
  h.launch exp { h.args active ring with rope } c

/-- The attention of `build_attention` on a streaming cache: fused for an `INT8` cache, and else on a
cache whose keys have been rotated. -/
def Head.attnOut (h : Head α) (exp : α → α) (quantKvCache : Bool) (active : Nat) (ring : RingInputs)
    (cosTable sinTable : Nat → Nat → α) (c : KvCache α) :
    (Nat → Nat → α) → Nat → Option (Nat → α) :=
  let r : Rope α := { cosTable, sinTable, kvPosition := ring.kvPosition }
  match quantKvCache with
  | true => h.attentionStreaming exp active ring (some r) c
  | false =>
      let kRecomputed := rope h.headDim r c.k
      h.attentionStreaming exp active ring none { c with k := kRecomputed }

/-! ### What a kernel reads

A query row reads the cache through the keys and the values of the columns that it sees. -/

/-- A column is active and not masked out.  `attention_decode` does not look at the mask. -/
def Head.Sees (h : Head α) (a : Args α) (gRow gCol : Nat) : Prop :=
  gCol < a.kvActiveSeq ∧ (h.seqQ = 1 ∧ 1 < h.seqK ∨ a.maskedOut gRow gCol = false)

/-- The same for the node of a graph. -/
def seesColumn (isCausal : Bool) (seqQ seqK active gRow gCol : Nat) : Bool :=
  decide (gCol < active) && (decide (seqQ = 1 ∧ 1 < seqK) ||
    !maskedOut isCausal (qPosOffset seqQ seqK active) gRow gCol)

omit [Field α] [LinearOrder α] in
theorem Head.sees_iff (h : Head α) (active : Nat) (ring : RingInputs) (gRow gCol : Nat) :
    h.Sees (h.args active ring) gRow gCol ↔
      seesColumn h.isCausal h.seqQ h.seqK active gRow gCol = true := by
  unfold Head.Sees seesColumn
  rw [Bool.and_eq_true, decide_eq_true_eq, Bool.or_eq_true, decide_eq_true_eq, Bool.not_eq_true']
  rfl

/-- Two caches, each with its rotation, have the same keys and values at the ranks of `seen`. -/
structure SameRows (a : Args α) (r r' : Option (Rope α)) (c c' : KvCache α) (seen : Nat → Prop) :
    Prop where
  key : ∀ rank, seen rank → ∀ i,
    stagedKey { a with rope := r } c rank i = stagedKey { a with rope := r' } c' rank i
  value : ∀ rank, seen rank → ∀ i,
    c.v (a.phys rank) i * c.vScale (a.phys rank) = c'.v (a.phys rank) i * c'.vScale (a.phys rank)

omit [LinearOrder α] in
theorem SameRows.mono {a : Args α} {r r' : Option (Rope α)} {c c' : KvCache α} {seen seen' : Nat → Prop}
    (h : SameRows a r r' c c' seen) (hseen : ∀ rank, seen' rank → seen rank) :
    SameRows a r r' c c' seen' where
  key := fun rank hrank => h.key rank (hseen rank hrank)
  value := fun rank hrank => h.value rank (hseen rank hrank)

omit [LinearOrder α] in
theorem decodeDot_eq (a : Args α) (c : KvCache α) (q : Nat → α) (rank : Nat) :
    decodeDot a c q rank = ((List.range a.headDim).map fun i => q i * stagedKey a c rank i).sum := by
  unfold decodeDot stagedKey
  cases a.rope with
  | some r => rfl
  | none => simp only [mul_assoc]

omit [LinearOrder α] in
theorem tiledDot_eq (a : Args α) (c : KvCache α) (q : Nat → α) (rank : Nat) :
    tiledDot a c q rank = ((List.range a.headDim).map fun i => q i * stagedKey a c rank i).sum := by
  unfold tiledDot stagedKey
  cases a.rope with
  | some r => rfl
  | none => simp only [← List.sum_map_mul_right, mul_assoc]

theorem foldlM_congr {σ : Type} {f g : σ → Nat → Option σ} {l : List Nat}
    (h : ∀ x ∈ l, ∀ b, f b x = g b x) (b : σ) : l.foldlM f b = l.foldlM g b := by
  induction l generalizing b with
  | nil => rfl
  | cons x l ih =>
      rw [List.foldlM_cons, List.foldlM_cons, h x List.mem_cons_self]
      congr 1
      funext b'
      exact ih (fun y hy => h y (List.mem_cons_of_mem _ hy)) b'

omit [Field α] [LinearOrder α] in
/-- The weight that goes with a column is the weight of its score. -/
theorem weight_of_mem_zip {f : WithBot α → Option α} {g : Nat → WithBot α} {l : List Nat}
    {weights : List α} (h : (l.map g).mapM f = some weights) {w : α} {j : Nat}
    (hmem : (w, j) ∈ weights.zip l) : j ∈ l ∧ f (g j) = some w := by
  induction l generalizing weights with
  | nil => simp at hmem
  | cons x l ih =>
      simp only [List.map_cons, List.mapM_cons, Option.bind_eq_bind, Option.bind_eq_some_iff] at h
      obtain ⟨y, hy, ys, hys, hw⟩ := h
      obtain rfl := Option.some.inj hw
      rw [List.zip_cons_cons] at hmem
      rcases List.mem_cons.mp hmem with hhead | htail
      · obtain ⟨rfl, rfl⟩ := Prod.mk.inj hhead
        exact ⟨List.mem_cons_self, hy⟩
      · obtain ⟨hj, hw⟩ := ih hys htail
        exact ⟨List.mem_cons_of_mem _ hj, hw⟩

omit [LinearOrder α] in
theorem expSub_bot {exp : α → α} {m : WithBot α} {w : α} (h : expSub exp ⊥ m = some w) : w = 0 := by
  cases m with
  | bot => cases h
  | coe m => exact (Option.some.inj h).symm

section
variable {a : Args α} {r r' : Option (Rope α)} {c c' : KvCache α} {seen : Nat → Prop}

omit [LinearOrder α] in
theorem SameRows.dot (h : SameRows a r r' c c' seen) {rank : Nat} (hrank : seen rank) (q : Nat → α) :
    ((List.range a.headDim).map fun i => q i * stagedKey { a with rope := r } c rank i).sum =
      ((List.range a.headDim).map fun i => q i * stagedKey { a with rope := r' } c' rank i).sum := by
  simp only [h.key rank hrank]

omit [LinearOrder α] in
theorem SameRows.weighted (h : SameRows a r r' c c' seen) {rank : Nat} (hrank : seen rank) (p : α)
    (i : Nat) : p * c.vScale (a.phys rank) * c.v (a.phys rank) i =
      p * c'.vScale (a.phys rank) * c'.v (a.phys rank) i := by
  have hvalue := h.value rank hrank i
  rw [mul_assoc, mul_assoc, mul_comm (c.vScale _), mul_comm (c'.vScale _), hvalue]

theorem SameRows.attentionDecode (h : SameRows a r r' c c' (· < a.kvActiveSeq)) (exp : α → α)
    (q : Nat → α) :
    attentionDecode exp { a with rope := r } c q = attentionDecode exp { a with rope := r' } c' q := by
  have hrow : ∀ rank ∈ List.range a.kvActiveSeq, ∀ row,
      decodeRow exp { a with rope := r } c q row rank =
        decodeRow exp { a with rope := r' } c' q row rank := by
    intro rank hrank row
    have hlt := List.mem_range.mp hrank
    have hphys : ({ a with rope := r } : Args α).phys rank = a.phys rank := rfl
    have hphys' : ({ a with rope := r' } : Args α).phys rank = a.phys rank := rfl
    unfold decodeRow
    simp only [decodeDot_eq, h.dot hlt, hphys, hphys', h.weighted hlt]
  unfold Attention.attentionDecode
  rw [foldlM_congr hrow]

theorem SameRows.attention {gRow : Nat}
    (h : SameRows a r r' c c' fun rank => rank < a.kvActiveSeq ∧ a.maskedOut gRow rank = false)
    (exp : α → α) (bc : Nat) (q : Nat → α) :
    attention exp bc { a with rope := r } c q gRow =
      attention exp bc { a with rope := r' } c' q gRow := by
  have hblock : ∀ i ∈ List.range ((a.kvActiveSeq + bc - 1) / bc), ∀ row,
      tiledBlock exp bc { a with rope := r } c q gRow row i =
        tiledBlock exp bc { a with rope := r' } c' q gRow row i := by
    intro i _ row
    have hlt : ∀ j ∈ List.range (min bc (a.kvActiveSeq - i * bc)), i * bc + j < a.kvActiveSeq := by
      intro j hj
      have := List.mem_range.mp hj
      omega
    have hvals : ((List.range (min bc (a.kvActiveSeq - i * bc))).map fun j =>
        tiledScore { a with rope := r } c q gRow (i * bc + j)) =
          (List.range (min bc (a.kvActiveSeq - i * bc))).map fun j =>
            tiledScore { a with rope := r' } c' q gRow (i * bc + j) := by
      refine List.map_congr_left fun j hj => ?_
      unfold tiledScore
      by_cases hmask : a.maskedOut gRow (i * bc + j) = true
      · exact (if_pos hmask).trans (if_pos hmask).symm
      · rw [tiledDot_eq, tiledDot_eq, h.dot ⟨hlt j hj, by simpa using hmask⟩]
        rfl
    unfold tiledBlock
    dsimp only
    rw [hvals]
    refine Option.bind_congr fun weights hw => ?_
    -- a masked column has weight zero
    have hout : ∀ k : Nat,
        ((weights.zip (List.range (min bc (a.kvActiveSeq - i * bc)))).map fun (pj, j) =>
          pj * c.vScale (a.phys (i * bc + j)) * c.v (a.phys (i * bc + j)) k) =
        (weights.zip (List.range (min bc (a.kvActiveSeq - i * bc)))).map fun (pj, j) =>
          pj * c'.vScale (a.phys (i * bc + j)) * c'.v (a.phys (i * bc + j)) k := by
      intro k
      refine List.map_congr_left ?_
      intro ⟨pj, j⟩ hmem
      obtain ⟨hj, hpj⟩ := weight_of_mem_zip hw hmem
      by_cases hmask : a.maskedOut gRow (i * bc + j) = true
      · have hbot : tiledScore { a with rope := r' } c' q gRow (i * bc + j) = ⊥ := if_pos hmask
        rw [hbot] at hpj
        simp only [expSub_bot hpj, zero_mul]
      · exact h.weighted ⟨hlt j hj, by simpa using hmask⟩ pj k
    have hphys : ({ a with rope := r } : Args α).phys = a.phys := rfl
    have hphys' : ({ a with rope := r' } : Args α).phys = a.phys := rfl
    simp only [hphys, hphys', hout]
  unfold Attention.attention
  rw [foldlM_congr hblock]

theorem SameRows.attentionTc {gRow : Nat}
    (h : SameRows a r r' c c' fun rank => rank < a.kvActiveSeq ∧ a.maskedOut gRow rank = false)
    (exp : α → α) (br bc : Nat) (q : Nat → α) :
    attentionTc exp br bc { a with rope := r } c q gRow =
      attentionTc exp br bc { a with rope := r' } c' q gRow := by
  have hblock : ∀ blk ∈ List.range (numKvBlocks br bc a gRow), ∀ row,
      tcBlock exp bc { a with rope := r } c q gRow row blk =
        tcBlock exp bc { a with rope := r' } c' q gRow row blk := by
    intro blk _ row
    have hscore : ∀ gCol, tcScore { a with rope := r } c q gRow gCol =
        tcScore { a with rope := r' } c' q gRow gCol := by
      intro gCol
      unfold tcScore
      by_cases hcol : a.kvActiveSeq ≤ gCol ∨ a.maskedOut gRow gCol = true
      · exact (if_pos hcol).trans (if_pos hcol).symm
      · rw [not_or] at hcol
        rw [h.dot ⟨by omega, by simpa using hcol.2⟩]
        rfl
    unfold tcBlock
    dsimp only
    simp only [hscore]
    refine Option.bind_congr fun corr _ => Option.bind_congr fun p hw => ?_
    -- the columns that the row does not see have weight zero
    have hout : ∀ k : Nat,
        ((p.zip (List.range bc)).map fun (pr, r) => pr *
          if a.kvActiveSeq ≤ blk * bc + r then 0
          else c.v (a.phys (blk * bc + r)) k * c.vScale (a.phys (blk * bc + r))) =
        (p.zip (List.range bc)).map fun (pr, r) => pr *
          if a.kvActiveSeq ≤ blk * bc + r then 0
          else c'.v (a.phys (blk * bc + r)) k * c'.vScale (a.phys (blk * bc + r)) := by
      intro k
      refine List.map_congr_left ?_
      intro ⟨pr, r₁⟩ hmem
      obtain ⟨-, hpr⟩ := weight_of_mem_zip hw hmem
      by_cases hcol : a.kvActiveSeq ≤ blk * bc + r₁ ∨ a.maskedOut gRow (blk * bc + r₁) = true
      · have hbot : tcScore { a with rope := r' } c' q gRow (blk * bc + r₁) = ⊥ := if_pos hcol
        rw [hbot] at hpr
        obtain rfl : 0 = pr := Option.some.inj ((if_pos rfl).symm.trans hpr)
        simp only [zero_mul]
      · rw [not_or] at hcol
        have hvalue := h.value (blk * bc + r₁) ⟨by omega, by simpa using hcol.2⟩ k
        simp only [if_neg hcol.1, hvalue]
    have hphys : ({ a with rope := r } : Args α).phys = a.phys := rfl
    have hphys' : ({ a with rope := r' } : Args α).phys = a.phys := rfl
    simp only [hphys, hphys', hout]
  exact congrArg (Option.map _) (foldlM_congr hblock _)

/-- Two caches with the same rows in the columns that a query row sees give it the same attention. -/
theorem SameRows.launch {head : Head α} {gRow : Nat} (h : SameRows a r r' c c' (head.Sees a gRow))
    (exp : α → α) (q : Nat → Nat → α) :
    head.launch exp { a with rope := r } c q gRow = head.launch exp { a with rope := r' } c' q gRow := by
  have htiled : ¬(head.seqQ = 1 ∧ 1 < head.seqK) →
      SameRows a r r' c c' fun rank => rank < a.kvActiveSeq ∧ a.maskedOut gRow rank = false :=
    fun _ => h.mono fun _ hrank => ⟨hrank.1, .inr hrank.2⟩
  unfold Head.launch
  split
  · rename_i hdecode
    exact (h.mono fun rank (hrank : rank < _) => ⟨hrank, .inl hdecode⟩).attentionDecode exp (q gRow)
  · rename_i hseq
    split
    · exact (htiled hseq).attentionTc exp 64 32 (q gRow)
    · exact (htiled hseq).attention exp _ (q gRow)

end

/-- A causal head with two queries. -/
def causalHead : Head ℚ :=
  { bf16 := false, headDim := 2, even := rfl, seqQ := 2, seqK := 2, isCausal := true, scale := 1 }

end Attention
end Llm
end NnEngine
