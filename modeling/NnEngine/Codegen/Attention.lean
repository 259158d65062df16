import NnEngine.Llm.Attention
import NnEngine.OnlineSoftmax
import NnEngine.Result
import Mathlib.Analysis.SpecialFunctions.Exp

/-!
# Attention by online softmax

The loops of `attention.cuh`, and that of `build_attention` in `codegen/cpu/translator.rs`, beside the attention
of a row as it is defined: the values of the active keys, weighted by the softmax of their scores.

The kernels differ in what they do while all scores are `-INFINITY`.  `attention_tc` tests for it;
`attention` and the loop on the CPU subtract `-INFINITY` from itself.
-/

namespace NnEngine
namespace Llm
namespace Attention

open OnlineSoftmax

/-! ### The definition -/

section Direct

variable {α : Type} [Field α]

/-- The score of a key: the scaled product with the query and the additive mask, or `-INFINITY` for a key after
the position of the query. -/
def Args.score (a : Args α) (c : KvCache α) (q : Nat → α) (gRow gCol : Nat) : WithBot α :=
  if a.maskedOut gRow gCol then ⊥
  else .some (((List.range a.headDim).map fun i => q i * stagedKey a c gCol i).sum * a.scale) +
    a.mask.elim 0 fun mask => mask gRow gCol

def Args.key (a : Args α) (c : KvCache α) (q : Nat → α) (gRow gCol : Nat) : Key α :=
  { score := a.score c q gRow gCol
    value := fun i => c.v (a.phys gCol) i * c.vScale (a.phys gCol) }

/-- Column `i` of the attention of a row: `∑ j, softmax (scores) j * v j i` over the active keys. -/
def direct (exp : α → α) (a : Args α) (c : KvCache α) (q : Nat → α) (gRow i : Nat) : α :=
  attend exp (·.value i) (firstKeys (a.key c q gRow) a.kvActiveSeq)

/-- Neither the causal flag nor the mask hides the key from the row. -/
def Args.Visible (a : Args α) (gRow gCol : Nat) : Prop :=
  a.maskedOut gRow gCol = false ∧ ∀ mask ∈ a.mask, mask gRow gCol ≠ ⊥

variable {a : Args α} {c : KvCache α} {q : Nat → α} {gRow gCol : Nat}

theorem score_ne_bot : a.score c q gRow gCol ≠ ⊥ ↔ a.Visible gRow gCol := by
  unfold Args.score Args.Visible
  cases a.maskedOut gRow gCol with
  | true => simp
  | false =>
      cases a.mask with
      | none => simp [← WithBot.coe_zero, ← WithBot.coe_add]
      | some mask => simp [WithBot.add_eq_bot]

theorem score_eq_bot (h : ¬a.Visible gRow gCol) : a.score c q gRow gCol = ⊥ :=
  not_ne_iff.mp (score_ne_bot.not.mpr h)

omit [Field α] in
/-- A causal mask that hides a key hides the keys after it. -/
theorem maskedOut_of_le {j j' : Nat} (hle : j ≤ j') (h : a.maskedOut gRow j' = false) :
    a.maskedOut gRow j = false := by
  unfold Args.maskedOut Attention.maskedOut at *
  rw [Bool.and_eq_false_iff, decide_eq_false_iff_not] at *
  exact h.imp_right fun h => by omega

end Direct

/-! ### The CPU -/

/-- A node for which `build_attention` makes a loop.  It has no ring and no rotation. -/
structure CpuAttention (α : Type) where
  headDim : Nat
  scale : α
  isCausal : Bool
  mask : Option (Nat → Nat → WithBot α)
  seqQ : Nat
  seqK : Nat
  activeSeqKv : Nat

namespace CpuAttention

variable {α : Type}

/-- `k_bound`, with `past_len`. -/
def kBound (n : CpuAttention α) (sq : Nat) : Int :=
  let kBound : Int :=
    if n.isCausal then
      let pastLen : Int := n.activeSeqKv - n.seqQ
      let cap := pastLen + sq + 1
      if cap < n.activeSeqKv then cap else n.activeSeqKv
    else n.activeSeqKv
  if kBound < n.seqK then kBound else n.seqK

/-- The same node for the CUDA kernels.  The keys that the loop may come to are in the cache. -/
def args (n : CpuAttention α) : Args α :=
  { headDim := n.headDim
    scale := n.scale
    isCausal := n.isCausal
    mask := n.mask
    qSeqLen := n.seqQ
    kvActiveSeq := min n.activeSeqKv n.seqK
    qPosOffset := n.activeSeqKv - n.seqQ
    ringSink := 0
    ringWindow := 0
    ringStart := 0
    rope := none }

variable [Field α] [LinearOrder α]

/-- `qk`. -/
def qk (n : CpuAttention α) (c : KvCache α) (q : Nat → α) (sq k : Nat) : WithBot α :=
  .some (((List.range n.headDim).map fun d => q d * c.k k d).sum * c.kScale k * n.scale) +
    n.mask.elim 0 fun mask => mask sq k

/-- The body of the `k` loop. -/
def kStep (exp : α → α) (n : CpuAttention α) (c : KvCache α) (q : Nat → α) (sq : Nat) (row : Row α) (k : Nat) :
    Option (Row α) := do
  let qk := n.qk c q sq k
  let mNew := max row.rowMax qk
  let factor ← expSub exp row.rowMax mNew
  let e ← expSub exp qk mNew
  pure
    { rowMax := mNew
      rowSum := row.rowSum * factor + e
      out := fun d => row.out d * factor + e * c.vScale k * c.v k d }

/-- A row of `build_attention`.  The `k` loop ends when `k` meets its bound, so that a bound below zero is never
met. -/
def run (exp : α → α) (n : CpuAttention α) (c : KvCache α) (q : Nat → α) (sq : Nat) : Option (Nat → α) :=
  if n.kBound sq < 0 then none
  else ((List.range (n.kBound sq).toNat).foldlM (n.kStep exp c q sq) .init).bind Row.normalised

end CpuAttention

/-! ### What a row holds

After some keys a row holds their largest score and the sums relative to it. -/

section Runs

variable {α : Type} [Field α] [LinearOrder α]

/-- The row after the keys of a list. -/
def Row.after (exp : α → α) (keys : List (Key α)) : Row α :=
  { rowMax := top keys
    rowSum := running exp (fun _ => 1) keys
    out := fun i => running exp (·.value i) keys }

variable {exp : α → α} {a : Args α} {c : KvCache α} {q : Nat → α} {gRow : Nat} {keys tile : List (Key α)}

theorem after_nil : Row.after exp [] = (Row.init : Row α) := by
  unfold Row.after Row.init
  simp only [running_nil]
  rfl

theorem expSub_eq (hexp : Exponential exp) {s m : WithBot α} (hm : m ≠ ⊥) :
    expSub exp s m = some (weight exp s / weight exp m) := by
  cases m with
  | bot => exact absurd rfl hm
  | coe m =>
      cases s with
      | bot => exact congrArg some (zero_div _).symm
      | coe s => exact congrArg some (hexp.sub s m)

omit [LinearOrder α] in
theorem expSub_bot_bot : expSub exp ⊥ ⊥ = none := rfl

/-- The update of a row by a tile of keys. -/
theorem after_append (hexp : Exponential exp) :
    Row.after exp (keys ++ tile) =
      { rowMax := (tile.map Key.score).foldl max (top keys)
        rowSum := (Row.after exp keys).rowSum * (weight exp (top keys) / weight exp (top (keys ++ tile))) +
          (tile.map fun k => weight exp k.score / weight exp (top (keys ++ tile))).sum
        out := fun i =>
          (Row.after exp keys).out i * (weight exp (top keys) / weight exp (top (keys ++ tile))) +
            (tile.map fun k => weight exp k.score / weight exp (top (keys ++ tile)) * k.value i).sum } := by
  unfold Row.after
  simp only [hexp.running_append, top_append, mul_one]

/-- The update by one key. -/
theorem after_concat (hexp : Exponential exp) {k : Key α} :
    Row.after exp (keys ++ [k]) =
      { rowMax := max (top keys) k.score
        rowSum := (Row.after exp keys).rowSum * (weight exp (top keys) / weight exp (max (top keys) k.score)) +
          weight exp k.score / weight exp (max (top keys) k.score)
        out := fun i =>
          (Row.after exp keys).out i * (weight exp (top keys) / weight exp (max (top keys) k.score)) +
            weight exp k.score / weight exp (max (top keys) k.score) * k.value i } := by
  have htop : top (keys ++ [k]) = max (top keys) k.score := top_append
  rw [after_append hexp, htop]
  simp

variable [IsStrictOrderedRing α]

/-- The division at the end. -/
theorem after_normalised (hexp : Exponential exp) (h : top keys ≠ ⊥) :
    (Row.after exp keys).normalised = some fun i => attend exp (·.value i) keys := by
  have hpos := hexp.running_one_pos h
  refine (if_neg hpos.ne').trans (congrArg some (funext fun i => ?_))
  exact hexp.running_div h

/-! ### `attention` -/

omit [LinearOrder α] [IsStrictOrderedRing α] in
theorem tiledScore_eq {gCol : Nat} : tiledScore a c q gRow gCol = a.score c q gRow gCol := by
  unfold tiledScore Args.score
  rw [tiledDot_eq]

omit [IsStrictOrderedRing α] in
/-- A tile that leaves the row with a largest score. -/
theorem tiledBlock_after (hexp : Exponential exp) {bc i n : Nat} (hn : min bc (a.kvActiveSeq - i * bc) = n)
    (h : top (firstKeys (a.key c q gRow) (i * bc + n)) ≠ ⊥) :
    tiledBlock exp bc a c q gRow (.after exp (firstKeys (a.key c q gRow) (i * bc))) i =
      some (.after exp (firstKeys (a.key c q gRow) (i * bc + n))) := by
  rw [firstKeys_add] at h ⊢
  have hscores : ((List.range n).map fun j => a.key c q gRow (i * bc + j)).map Key.score =
      (List.range n).map fun j => tiledScore a c q gRow (i * bc + j) := by
    rw [List.map_map]
    exact List.map_congr_left fun j _ => tiledScore_eq.symm
  have hmax := @top_append _ (firstKeys (a.key c q gRow) (i * bc))
    ((List.range n).map fun j => a.key c q gRow (i * bc + j)) _
  rw [hscores] at hmax
  rw [after_append hexp]
  unfold tiledBlock
  simp only [hn]
  rw [show (Row.after exp (firstKeys (a.key c q gRow) (i * bc))).rowMax = top _ from rfl, ← hmax,
    mapM_some fun s _ => expSub_eq hexp h, expSub_eq hexp h]
  simp only [Option.bind_eq_bind, Option.bind_some, Option.pure_def, List.map_map, hscores, ← hmax]
  congr 2
  · rw [mul_comm]
    congr 2
    exact List.map_congr_left fun j _ => congrArg (weight exp · / _) tiledScore_eq
  · funext k
    rw [← List.map_prod_right_eq_zip, List.map_map]
    congr 2
    refine List.map_congr_left fun j _ => ?_
    simp only [Function.comp_apply, tiledScore_eq, Args.key]
    ring

/-- The first tile of `attention` has a key that the row sees. -/
def Args.VisibleFirst (a : Args α) (gRow bc : Nat) : Prop := ∃ j < min bc a.kvActiveSeq, a.Visible gRow j

omit [IsStrictOrderedRing α] in
theorem attention_blocks (hexp : Exponential exp) {bc i : Nat} (hbc : 0 < bc) (hvis : a.VisibleFirst gRow bc)
    (hi : i ≤ (a.kvActiveSeq + bc - 1) / bc) :
    (List.range i).foldlM (tiledBlock exp bc a c q gRow) .init =
      some (.after exp (firstKeys (a.key c q gRow) (min (i * bc) a.kvActiveSeq))) := by
  induction i with
  | zero =>
      rw [Nat.zero_mul, Nat.zero_min]
      exact congrArg some after_nil.symm
  | succ i ih =>
      -- Block `i` begins before the end of the keys.
      have hlt : i * bc < a.kvActiveSeq := by
        have hmul : (i + 1) * bc ≤ a.kvActiveSeq + bc - 1 := (Nat.le_div_iff_mul_le hbc).mp hi
        rw [Nat.succ_mul] at hmul
        omega
      have hstop : min ((i + 1) * bc) a.kvActiveSeq = i * bc + min bc (a.kvActiveSeq - i * bc) := by
        rw [Nat.succ_mul]
        omega
      rw [List.range_succ, List.foldlM_append, ih (Nat.le_of_succ_le hi), Nat.min_eq_left hlt.le, hstop]
      simp only [List.foldlM_cons, List.foldlM_nil, Option.bind_eq_bind, Option.bind_some, bind_pure]
      refine tiledBlock_after hexp rfl ?_
      obtain ⟨j, hj, hsee⟩ := hvis
      exact top_firstKeys_ne_bot.mpr ⟨j, by omega, score_ne_bot.mpr hsee⟩

theorem attention_eq_direct (hexp : Exponential exp) {bc : Nat} (hbc : 0 < bc) (hvis : a.VisibleFirst gRow bc) :
    attention exp bc a c q gRow = some (direct exp a c q gRow) := by
  have hend : a.kvActiveSeq ≤ (a.kvActiveSeq + bc - 1) / bc * bc := by
    have hdiv := Nat.div_add_mod (a.kvActiveSeq + bc - 1) bc
    have hmod := Nat.mod_lt (a.kvActiveSeq + bc - 1) hbc
    rw [Nat.mul_comm] at hdiv
    omega
  unfold attention
  rw [attention_blocks hexp hbc hvis le_rfl, Nat.min_eq_right hend, Option.bind_some, after_normalised hexp]
  · rfl
  · obtain ⟨j, hj, hsee⟩ := hvis
    exact top_firstKeys_ne_bot.mpr ⟨j, by omega, score_ne_bot.mpr hsee⟩

omit [IsStrictOrderedRing α] in
/-- A first tile without a key that the row sees subtracts `-INFINITY` from itself. -/
theorem attention_eq_none {bc : Nat} (hbc : 0 < bc) (hactive : 0 < a.kvActiveSeq)
    (hvis : ¬a.VisibleFirst gRow bc) : attention exp bc a c q gRow = none := by
  have hblocks : 0 < (a.kvActiveSeq + bc - 1) / bc := Nat.div_pos (by omega) hbc
  have hscore : ∀ j ∈ List.range (min bc a.kvActiveSeq), tiledScore a c q gRow j = ⊥ := by
    intro j hj
    rw [tiledScore_eq]
    exact score_eq_bot fun hsee => hvis ⟨j, List.mem_range.mp hj, hsee⟩
  have hmax : ((List.range (min bc a.kvActiveSeq)).map fun j => tiledScore a c q gRow j).foldl max ⊥ = ⊥ := by
    rw [foldl_max_eq_bot]
    exact ⟨rfl, List.forall_mem_map.mpr hscore⟩
  obtain ⟨n, hn⟩ : ∃ n, min bc a.kvActiveSeq = n + 1 := ⟨min bc a.kvActiveSeq - 1, by omega⟩
  have hfirst : tiledBlock exp bc a c q gRow .init 0 = none := by
    unfold tiledBlock
    simp only [Nat.zero_mul, Nat.sub_zero, Nat.zero_add]
    rw [show (Row.init : Row α).rowMax = ⊥ from rfl, hmax, hn, List.range_succ_eq_map, List.map_cons,
      List.mapM_cons, hscore 0 (by rw [hn]; simp), expSub_bot_bot]
    rfl
  unfold attention
  obtain ⟨m, hm⟩ := Nat.exists_eq_succ_of_ne_zero hblocks.ne'
  rw [hm, List.range_succ_eq_map, List.foldlM_cons, hfirst]
  rfl

/-! ### `attention_tc` -/

/-- A column of `s_S`, with its column of `s_V`. -/
def Args.tcKey (a : Args α) (c : KvCache α) (q : Nat → α) (gRow gCol : Nat) : Key α :=
  { score := tcScore a c q gRow gCol
    value := fun i => if a.kvActiveSeq ≤ gCol then 0 else c.v (a.phys gCol) i * c.vScale (a.phys gCol) }

omit [LinearOrder α] [IsStrictOrderedRing α] in
theorem tcKey_eq {gCol : Nat} (h : gCol < a.kvActiveSeq) : a.tcKey c q gRow gCol = a.key c q gRow gCol := by
  unfold Args.tcKey Args.key tcScore Args.score
  simp [h.not_ge]

omit [LinearOrder α] [IsStrictOrderedRing α] in
theorem tcKey_score_eq_bot {gCol : Nat} (h : a.kvActiveSeq ≤ gCol) : (a.tcKey c q gRow gCol).score = ⊥ :=
  if_pos (.inl h)

omit [IsStrictOrderedRing α] in
/-- The kernel tests for `-INFINITY` before it subtracts. -/
theorem tcWeight_eq (hexp : Exponential exp) {s m : WithBot α} (h : s ≤ m) :
    tcWeight exp s m = some (weight exp s / weight exp m) := by
  unfold tcWeight
  by_cases hs : s = ⊥
  · rw [if_pos hs, hs, weight_bot, zero_div]
  · rw [if_neg hs]
    exact expSub_eq hexp fun hm => hs (le_bot_iff.mp (hm ▸ h))

omit [IsStrictOrderedRing α] in
theorem tcBlock_after (hexp : Exponential exp) {bc blk : Nat} :
    tcBlock exp bc a c q gRow (.after exp (firstKeys (a.tcKey c q gRow) (blk * bc))) blk =
      some (.after exp (firstKeys (a.tcKey c q gRow) (blk * bc + bc))) := by
  rw [firstKeys_add]
  set keys := firstKeys (a.tcKey c q gRow) (blk * bc)
  set tile := (List.range bc).map fun r => a.tcKey c q gRow (blk * bc + r) with htile
  have hscores : (List.range bc).map (fun r => tcScore a c q gRow (blk * bc + r)) = tile.map Key.score := by
    rw [htile, List.map_map]
    rfl
  have hmax : (tile.map Key.score).foldl max (Row.after exp keys).rowMax = top (keys ++ tile) := top_append.symm
  have hweights : (tile.map Key.score).mapM (tcWeight exp · (top (keys ++ tile))) =
      some ((tile.map Key.score).map (weight exp · / weight exp (top (keys ++ tile)))) := by
    refine mapM_some fun s hs => tcWeight_eq hexp ?_
    obtain ⟨k, hk, rfl⟩ := List.mem_map.mp hs
    exact le_top (List.mem_append_right keys hk)
  have hout : ∀ i : Nat, ((((tile.map Key.score).map (weight exp · / weight exp (top (keys ++ tile)))).zip
      (List.range bc)).map fun p => p.1 *
        if a.kvActiveSeq ≤ blk * bc + p.2 then 0
        else c.v (a.phys (blk * bc + p.2)) i * c.vScale (a.phys (blk * bc + p.2))) =
      tile.map fun k => weight exp k.score / weight exp (top (keys ++ tile)) * k.value i := by
    intro i
    rw [htile, List.map_map, List.map_map, ← List.map_prod_right_eq_zip, List.map_map, List.map_map]
    rfl
  -- While all scores are `-INFINITY` there is nothing to rescale.
  have hcorr : ∃ corr, tcCorr exp (Row.after exp keys).rowMax (top (keys ++ tile)) = some corr ∧
      ∀ f : Key α → α, running exp f keys * corr =
        running exp f keys * (weight exp (top keys) / weight exp (top (keys ++ tile))) := by
    unfold tcCorr
    by_cases hbot : top (keys ++ tile) = ⊥
    · refine ⟨1, if_pos hbot, fun f => ?_⟩
      have hkeys : top keys = ⊥ := by
        rw [top_append, foldl_max_eq_bot] at hbot
        exact hbot.1
      rw [running_of_bot hkeys, zero_mul, zero_mul]
    · exact ⟨_, (if_neg hbot).trans (expSub_eq hexp hbot), fun f => rfl⟩
  obtain ⟨corr, hcorr, hrescale⟩ := hcorr
  unfold tcBlock
  simp only [hscores, hmax, hcorr, hweights, hout, Option.bind_eq_bind, Option.bind_some, Option.pure_def]
  rw [after_append hexp, ← top_append, List.map_map]
  unfold Row.after
  simp only [hrescale]
  rfl

omit [IsStrictOrderedRing α] in
theorem tc_blocks (hexp : Exponential exp) {bc : Nat} (n : Nat) :
    (List.range n).foldlM (tcBlock exp bc a c q gRow) .init =
      some (.after exp (firstKeys (a.tcKey c q gRow) (n * bc))) := by
  induction n with
  | zero =>
      rw [Nat.zero_mul]
      exact congrArg some after_nil.symm
  | succ n ih =>
      rw [List.range_succ, List.foldlM_append, ih, Nat.succ_mul]
      simp only [List.foldlM_cons, List.foldlM_nil, Option.bind_eq_bind, Option.bind_some, bind_pure]
      exact tcBlock_after hexp

omit [Field α] [LinearOrder α] [IsStrictOrderedRing α] in
/-- The blocks that the kernel leaves out have no key that the row sees. -/
theorem lt_numKvBlocks {br bc j : Nat} (hbr : 0 < br) (hbc : 0 < bc) (hrow : gRow < a.qSeqLen)
    (hj : j < a.kvActiveSeq) (hsee : a.maskedOut gRow j = false) : j < numKvBlocks br bc a gRow * bc := by
  rw [← Nat.div_lt_iff_lt_mul hbc]
  have hblocks : j / bc < (a.kvActiveSeq + bc - 1) / bc := by
    rw [Nat.lt_iff_add_one_le, Nat.le_div_iff_mul_le hbc, Nat.succ_mul]
    have hmul := Nat.div_mul_le_self j bc
    omega
  unfold numKvBlocks
  unfold Args.maskedOut maskedOut at hsee
  by_cases hcausal : a.isCausal = true
  · rw [hcausal, Bool.true_and, decide_eq_false_iff_not, not_lt] at hsee
    rw [if_pos hcausal]
    -- The last row of the block is at or after this row.
    have hrows : gRow ≤ gRow / br * br + (min br (a.qSeqLen - gRow / br * br) - 1) := by
      have hdiv := Nat.div_add_mod gRow br
      have hmod := Nat.mod_lt gRow hbr
      rw [Nat.mul_comm] at hdiv
      omega
    have hmax : (j : Int) ≤
        a.qPosOffset + (gRow / br * br + (min br (a.qSeqLen - gRow / br * br) - 1) : Nat) := by omega
    obtain ⟨qMaxPos, hpos⟩ := Int.eq_ofNat_of_zero_le ((Int.natCast_nonneg j).trans hmax)
    dsimp only
    rw [hpos] at hmax ⊢
    have hle : j / bc ≤ qMaxPos / bc := Nat.div_le_div_right (Int.ofNat_le.mp hmax)
    rw [← Int.ofNat_tdiv]
    omega
  · rw [if_neg hcausal]
    exact hblocks

theorem attentionTc_eq_direct (hexp : Exponential exp) {br bc : Nat} (hbr : 0 < br) (hbc : 0 < bc)
    (hrow : gRow < a.qSeqLen) (hvis : ∃ j < a.kvActiveSeq, a.Visible gRow j) :
    attentionTc exp br bc a c q gRow = some (direct exp a c q gRow) := by
  set n := numKvBlocks br bc a gRow * bc with hn
  -- Between the two ends there is no key that the row sees.
  have hseen : ∀ j, min n a.kvActiveSeq ≤ j → j < a.kvActiveSeq → (a.key c q gRow j).score = ⊥ := by
    intro j hle hj
    refine score_eq_bot fun hsee => ?_
    have hlt := lt_numKvBlocks hbr hbc hrow hj hsee.1
    omega
  have hpad : ∀ j, min n a.kvActiveSeq ≤ j → j < n → (a.tcKey c q gRow j).score = ⊥ := by
    intro j hle hj
    exact tcKey_score_eq_bot (by omega)
  have hsame : firstKeys (a.tcKey c q gRow) (min n a.kvActiveSeq) =
      firstKeys (a.key c q gRow) (min n a.kvActiveSeq) :=
    firstKeys_congr fun j hj => tcKey_eq (by omega)
  have hattend : ∀ i, attend exp (·.value i) (firstKeys (a.tcKey c q gRow) n) = direct exp a c q gRow i := by
    intro i
    unfold direct
    rw [attend_firstKeys (Nat.min_le_left _ _) hpad, attend_firstKeys (Nat.min_le_right _ _) hseen, hsame]
  have htop : top (firstKeys (a.tcKey c q gRow) n) ≠ ⊥ := by
    obtain ⟨j, hj, hsee⟩ := hvis
    refine top_firstKeys_ne_bot.mpr ⟨j, lt_numKvBlocks hbr hbc hrow hj hsee.1, ?_⟩
    rw [tcKey_eq hj]
    exact score_ne_bot.mpr hsee
  unfold attentionTc
  rw [tc_blocks hexp, ← hn, Option.map_some]
  have hpos : 0 < (Row.after exp (firstKeys (a.tcKey c q gRow) n)).rowSum := hexp.running_one_pos htop
  refine congrArg some (funext fun i => ?_)
  rw [← hattend i, ← hexp.running_div htop, if_pos hpos, mul_one_div]
  rfl

/-! ### `attention_decode` -/

/-- The node as the kernel sees it. -/
def Args.unmasked (a : Args α) : Args α := { a with isCausal := false, mask := none }

omit [Field α] [LinearOrder α] [IsStrictOrderedRing α] in
theorem unmasked_visible {gCol : Nat} : a.unmasked.Visible gRow gCol := ⟨rfl, nofun⟩

omit [IsStrictOrderedRing α] in
theorem decodeRow_after (hexp : Exponential exp) {n : Nat} :
    decodeRow exp a c q (.after exp (firstKeys (a.unmasked.key c q gRow) n)) n =
      some (.after exp (firstKeys (a.unmasked.key c q gRow) (n + 1))) := by
  have hscore : (WithBot.some (decodeDot a c q n * a.scale) : WithBot α) = (a.unmasked.key c q gRow n).score := by
    rw [decodeDot_eq]
    exact (add_zero _).symm
  have hne : max (top (firstKeys (a.unmasked.key c q gRow) n)) (a.unmasked.key c q gRow n).score ≠ ⊥ := by
    rw [Ne, max_eq_bot]
    exact fun h => score_ne_bot.mpr unmasked_visible h.2
  rw [firstKeys_succ, after_concat hexp]
  unfold decodeRow
  simp only [hscore]
  rw [show (Row.after exp (firstKeys (a.unmasked.key c q gRow) n)).rowMax = top _ from rfl, expSub_eq hexp hne,
    expSub_eq hexp hne]
  simp only [Option.bind_eq_bind, Option.bind_some, Option.pure_def]
  congr 2
  funext i
  simp only [Args.key, Args.unmasked, Args.phys]
  ring

theorem attentionDecode_eq_direct (hexp : Exponential exp) (hactive : 0 < a.kvActiveSeq) :
    attentionDecode exp a c q = some (direct exp a.unmasked c q gRow) := by
  have hrows : ∀ n, (List.range n).foldlM (decodeRow exp a c q) .init =
      some (.after exp (firstKeys (a.unmasked.key c q gRow) n)) := by
    intro n
    induction n with
    | zero => exact congrArg some after_nil.symm
    | succ n ih =>
        rw [List.range_succ, List.foldlM_append, ih]
        simp only [List.foldlM_cons, List.foldlM_nil, Option.bind_eq_bind, Option.bind_some, bind_pure]
        exact decodeRow_after hexp
  unfold attentionDecode
  rw [hrows, Option.bind_some, after_normalised hexp]
  · rfl
  · exact top_firstKeys_ne_bot.mpr ⟨0, hactive, score_ne_bot.mpr unmasked_visible⟩

/-! ### `build_attention` -/

namespace CpuAttention

variable {n : CpuAttention α} {sq k : Nat}

omit [Field α] [LinearOrder α] [IsStrictOrderedRing α] in
/-- The loop comes to the active keys that are not causally masked. -/
theorem lt_kBound : (k : Int) < n.kBound sq ↔ k < n.args.kvActiveSeq ∧ n.args.maskedOut sq k = false := by
  have hmask : n.args.maskedOut sq k = false ↔
      n.isCausal = true → (k : Int) ≤ n.activeSeqKv - n.seqQ + sq := by
    change (n.isCausal && decide ((n.activeSeqKv - n.seqQ + sq : Int) < k)) = false ↔ _
    simp
  rw [hmask]
  unfold kBound
  simp only [args]
  cases n.isCausal with
  | false =>
      simp only [Bool.false_eq_true, if_false, false_implies, and_true]
      split <;> omega
  | true =>
      simp only [if_true, true_implies]
      split <;> split <;> omega

omit [LinearOrder α] [IsStrictOrderedRing α] in
theorem qk_eq (h : (k : Int) < n.kBound sq) : n.qk c q sq k = (n.args.key c q sq k).score := by
  have hdot : ((List.range n.headDim).map fun d => q d * c.k k d).sum * c.kScale k =
      ((List.range n.args.headDim).map fun i => q i * stagedKey n.args c k i).sum := by
    rw [← List.sum_map_mul_right]
    simp only [mul_assoc]
    rfl
  unfold qk Args.key Args.score
  rw [(lt_kBound.mp h).2, hdot]
  rfl

omit [IsStrictOrderedRing α] in
theorem kStep_after (hexp : Exponential exp) (hk : (k : Int) < n.kBound sq)
    (h : top (firstKeys (n.args.key c q sq) (k + 1)) ≠ ⊥) :
    n.kStep exp c q sq (.after exp (firstKeys (n.args.key c q sq) k)) k =
      some (.after exp (firstKeys (n.args.key c q sq) (k + 1))) := by
  rw [firstKeys_succ] at h ⊢
  have hne : max (top (firstKeys (n.args.key c q sq) k)) (n.args.key c q sq k).score ≠ ⊥ := by
    rwa [top_append] at h
  rw [after_concat hexp]
  unfold kStep
  simp only [qk_eq hk]
  rw [show (Row.after exp (firstKeys (n.args.key c q sq) k)).rowMax = top _ from rfl, expSub_eq hexp hne,
    expSub_eq hexp hne]
  simp only [Option.bind_eq_bind, Option.bind_some, Option.pure_def]
  congr 2
  funext i
  have hphys : n.args.phys k = k := rfl
  simp only [Args.key, hphys]
  ring

omit [IsStrictOrderedRing α] in
theorem run_keys (hexp : Exponential exp) (hsee : n.args.Visible sq 0) {m : Nat} (hm : (m : Int) ≤ n.kBound sq) :
    (List.range m).foldlM (n.kStep exp c q sq) .init = some (.after exp (firstKeys (n.args.key c q sq) m)) := by
  induction m with
  | zero => exact congrArg some after_nil.symm
  | succ m ih =>
      rw [List.range_succ, List.foldlM_append, ih (by omega)]
      simp only [List.foldlM_cons, List.foldlM_nil, Option.bind_eq_bind, Option.bind_some, bind_pure]
      refine kStep_after hexp (by omega) (top_firstKeys_ne_bot.mpr ⟨0, Nat.succ_pos m, ?_⟩)
      exact score_ne_bot.mpr hsee

theorem run_eq_direct (hexp : Exponential exp) (hactive : 0 < n.args.kvActiveSeq) (hsee : n.args.Visible sq 0) :
    n.run exp c q sq = some (direct exp n.args c q sq) := by
  have hpos : 0 < n.kBound sq := lt_kBound.mpr ⟨hactive, hsee.1⟩
  obtain ⟨m, hm⟩ := Int.eq_ofNat_of_zero_le hpos.le
  have hle : m ≤ n.args.kvActiveSeq := by
    by_contra hnot
    have hend : (n.args.kvActiveSeq : Int) < n.kBound sq := by omega
    exact absurd (lt_kBound.mp hend).1 (Nat.lt_irrefl _)
  have hrest : ∀ j, m ≤ j → j < n.args.kvActiveSeq → (n.args.key c q sq j).score = ⊥ := by
    intro j hmj hj
    refine score_eq_bot fun hvis => ?_
    have hlt : (j : Int) < n.kBound sq := lt_kBound.mpr ⟨hj, hvis.1⟩
    omega
  unfold run
  rw [if_neg hpos.not_gt, hm, Int.toNat_natCast, run_keys hexp hsee hm.ge, Option.bind_some,
    after_normalised hexp]
  · exact congrArg some (funext fun i => (attend_firstKeys hle hrest).symm)
  · exact top_firstKeys_ne_bot.mpr ⟨0, by omega, score_ne_bot.mpr hsee⟩

omit [IsStrictOrderedRing α] in
/-- A first key that the row does not see subtracts `-INFINITY` from itself. -/
theorem run_eq_none (hpos : 0 < n.kBound sq) (hsee : ¬n.args.Visible sq 0) : n.run exp c q sq = none := by
  have hbot : n.qk c q sq 0 = ⊥ := (qk_eq hpos).trans (score_eq_bot hsee)
  have hfirst : n.kStep exp c q sq .init 0 = none := by
    unfold kStep
    simp only [hbot]
    rfl
  obtain ⟨m, hm⟩ : ∃ m, (n.kBound sq).toNat = m + 1 := ⟨(n.kBound sq).toNat - 1, by omega⟩
  unfold run
  rw [if_neg hpos.not_gt, hm, List.range_succ_eq_map, List.foldlM_cons, hfirst]
  rfl

end CpuAttention

/-! ### The loops and the definition -/

/-- On a row that sees a key, `attention_tc` and `attention_decode` compute the attention of the row; `attention`
computes it if and only if its first tile has a key that the row sees, and the loop on the CPU if and only if
the row sees the first key. -/
theorem onlineSoftmax_iff (hexp : Exponential exp) {br bc : Nat} (hbr : 0 < br) (hbc : 0 < bc) :
    -- `attention`
    ((∃ j < a.kvActiveSeq, a.Visible gRow j) →
      (attention exp bc a c q gRow = some (direct exp a c q gRow) ↔ a.VisibleFirst gRow bc)) ∧
    -- `attention_tc`
    (gRow < a.qSeqLen → (∃ j < a.kvActiveSeq, a.Visible gRow j) →
      attentionTc exp br bc a c q gRow = some (direct exp a c q gRow)) ∧
    -- `attention_decode`
    (0 < a.kvActiveSeq → attentionDecode exp a c q = some (direct exp a.unmasked c q gRow)) ∧
    -- `build_attention`
    (∀ n : CpuAttention α, (∃ j < n.args.kvActiveSeq, n.args.Visible gRow j) →
      (n.run exp c q gRow = some (direct exp n.args c q gRow) ↔ n.args.Visible gRow 0)) := by
  refine ⟨fun hvis => ⟨fun h => ?_, attention_eq_direct hexp hbc⟩, fun hrow hvis => ?_, fun hactive => ?_,
    fun n hvis => ⟨fun h => ?_, fun hsee => ?_⟩⟩
  · by_contra hnot
    obtain ⟨j, hj, -⟩ := hvis
    rw [attention_eq_none hbc (by omega) hnot] at h
    exact nomatch h
  · exact attentionTc_eq_direct hexp hbr hbc hrow hvis
  · exact attentionDecode_eq_direct hexp hactive
  · by_contra hnot
    obtain ⟨j, hj, hsee⟩ := hvis
    have hpos : 0 < n.kBound gRow :=
      (CpuAttention.lt_kBound (k := 0)).mpr ⟨by omega, maskedOut_of_le (Nat.zero_le j) hsee.1⟩
    rw [CpuAttention.run_eq_none hpos hnot] at h
    exact nomatch h
  · obtain ⟨j, hj, -⟩ := hvis
    exact CpuAttention.run_eq_direct hexp (by omega) hsee

end Runs

/-! ### A padded batch -/

/-- A node with two tokens and one padded key, for a head of 16 columns. -/
def padded (pad : Nat) : CpuAttention ℝ :=
  { headDim := 16
    scale := 1
    isCausal := false
    mask := some fun _ gCol => if gCol = pad then ⊥ else 0
    seqQ := 2
    seqK := 2
    activeSeqKv := 2 }

/-- The head of the node. -/
def paddedHead : Head ℝ :=
  { bf16 := false, headDim := 16, even := rfl, seqQ := 2, seqK := 2, isCausal := false, scale := 1 }

/-- Its cache. -/
def paddedCache : KvCache ℝ := { k := fun _ _ => 1, v := fun _ _ => 1, kvQuant := none }

theorem padded_visible {pad gCol : Nat} : (padded pad).args.Visible 0 gCol ↔ gCol ≠ pad := by
  simp [Args.Visible, Args.maskedOut, maskedOut, CpuAttention.args, padded]

theorem paddedHead_launch (a : Args ℝ) (q : Nat → Nat → ℝ) :
    paddedHead.launch Real.exp a paddedCache q 0 = attention Real.exp 1 a paddedCache (q 0) 0 := rfl

/-- The loops with the padded key after the first key. -/
theorem paddedLast_attends :
    attention Real.exp 1 (padded 1).args paddedCache 0 0 = some (direct Real.exp (padded 1).args paddedCache 0 0) ∧
      attentionTc Real.exp 64 1 (padded 1).args paddedCache 0 0 =
        some (direct Real.exp (padded 1).args paddedCache 0 0) ∧
      attentionDecode Real.exp (padded 1).args paddedCache 0 =
        some (direct Real.exp (padded 1).args.unmasked paddedCache 0 0) ∧
      (padded 1).run Real.exp paddedCache 0 0 = some (direct Real.exp (padded 1).args paddedCache 0 0) := by
  have hexp : Exponential Real.exp := ⟨Real.exp_add, Real.exp_pos⟩
  have hsee : (padded 1).args.Visible 0 0 := padded_visible.mpr (by decide)
  have hactive : 0 < (padded 1).args.kvActiveSeq := by decide
  obtain ⟨htiled, htc, hdecode, hcpu⟩ := @onlineSoftmax_iff ℝ _ _ Real.exp (padded 1).args paddedCache 0 0 _ hexp
    64 1 (by decide) (by decide)
  exact ⟨(htiled ⟨0, hactive, hsee⟩).mpr ⟨0, by decide, hsee⟩, htc (by decide) ⟨0, hactive, hsee⟩,
    hdecode hactive, (hcpu (padded 1) ⟨0, hactive, hsee⟩).mpr hsee⟩

/-- With the padded key first, the row still sees a key, and is no number. -/
theorem paddedFirst_fails :
    (∃ j < (padded 0).args.kvActiveSeq, (padded 0).args.Visible 0 j) ∧
      paddedHead.launch Real.exp (padded 0).args paddedCache 0 0 ≠
        some (direct Real.exp (padded 0).args paddedCache 0 0) ∧
      (padded 0).run Real.exp paddedCache 0 0 ≠ some (direct Real.exp (padded 0).args paddedCache 0 0) := by
  have hhide : ¬(padded 0).args.Visible 0 0 := fun h => padded_visible.mp h rfl
  refine ⟨⟨1, by decide, padded_visible.mpr (by decide)⟩, ?_, ?_⟩
  · rw [paddedHead_launch, attention_eq_none (by decide) (by decide)]
    · exact nofun
    · rintro ⟨j, hj, hsee⟩
      obtain rfl : j = 0 := Nat.lt_one_iff.mp (hj.trans_le (Nat.min_le_left _ _))
      exact hhide hsee
  · rw [CpuAttention.run_eq_none (by decide) hhide]
    exact nofun

end Attention
end Llm
end NnEngine
