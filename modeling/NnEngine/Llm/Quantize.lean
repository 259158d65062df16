import NnEngine.LeBytes
import NnEngine.Result
import NnEngine.Tensor.Bf16Encoders
import NnEngine.Tensor.F32Arithmetic

/-!
# Weights of eight bits

`quantize_per_channel` of `quantize.rs`: the rows of a weight are divided by a scale of their own, and the quotients
are stored as integers beside the scales, which are rounded to `bf16`.
-/

namespace NnEngine
namespace Quantize

open FloatPattern

/-- `Dtype`. -/
inductive Dtype
  | F32
  | BF16
  | F16
  | I8
  | other (name : String)
  deriving DecidableEq, Repr

/-- The bytes of an element. -/
def Dtype.size : Dtype → Option Nat
  | F32 => some 4
  | BF16 => some 2
  | F16 => some 2
  | I8 => some 1
  | other _ => none

/-- `TensorView`, whose bytes are counted when a file is opened. -/
structure TensorView where
  dtype : Dtype
  shape : List Nat
  data : List UInt8
  valid : ∀ k, dtype.size = some k → data.length = shape.prod * k

/-- `OwnedTensor`. -/
structure OwnedTensor where
  dtype : Dtype
  shape : List Nat
  data : List UInt8
  deriving DecidableEq, Repr

/-- `QuantizeError`, as far as `quantize_per_channel` returns it. -/
inductive QuantizeError
  | unsupportedDtype (d : Dtype)
  | badShape (shape : List Nat)
  deriving DecidableEq, Repr

/-- An error, or a slice that is out of range. -/
inductive Stop
  | error (e : QuantizeError)
  | panic
  deriving DecidableEq, Repr

/-! ### Reading -/

/-- The loop over a mantissa without its first bit.  Ten steps are enough for one that is not zero. -/
def shiftUp : Nat → UInt32 → UInt32 → UInt32 × UInt32
  | 0, e, m => (e, m)
  | n + 1, e, m => if m &&& 0x400 = 0 then shiftUp n (e + 1) (m <<< 1) else (e, m)

/-- `f16_bits_to_f32`, as a pattern. -/
def f16BitsToF32 (bits : UInt16) : UInt32 :=
  let sign := (bits.toUInt32 >>> 15) &&& 0x1
  let exp := (bits.toUInt32 >>> 10) &&& 0x1F
  let mantissa := bits.toUInt32 &&& 0x3FF
  if exp = 0 then
    if mantissa = 0 then sign <<< 31
    else
      let (e, m) := shiftUp 10 1 mantissa
      let m := m &&& 0x3FF
      (sign <<< 31) ||| ((127 - 15 + 1 - e) <<< 23) ||| (m <<< 13)
  else if exp = 0x1F then (sign <<< 31) ||| ((0xFF : UInt32) <<< 23) ||| (mantissa <<< 13)
  else
    let newExp := exp + (127 - 15)
    (sign <<< 31) ||| (newExp <<< 23) ||| (mantissa <<< 13)

/-- `read_as_f32`. -/
def readAsF32 (view : TensorView) : Except Stop (List F32) :=
  match view.dtype with
  | .F32 => .ok ((chunksExact 4 view.data).map fun c => .ofBits (UInt32.ofNat (fromLeBytes c)))
  | .BF16 => .ok ((chunksExact 2 view.data).map fun c => .ofBits (Bf16.bf16BitsToF32 (UInt16.ofNat (fromLeBytes c))))
  | .F16 => .ok ((chunksExact 2 view.data).map fun c => .ofBits (f16BitsToF32 (UInt16.ofNat (fromLeBytes c))))
  | d => .error (.error (.unsupportedDtype d))

/-! ### Quantising -/

/-- `&data[start..stop]`. -/
def slice (data : List F32) (start stop : Nat) : Except Stop (List F32) :=
  if stop ≤ data.length then .ok ((data.take stop).drop start) else .error .panic

/-- `scale[ch]`. -/
def channelScale (row : List F32) : F32 :=
  let maxAbs := row.foldl (fun a b => F32.max a b.abs) (.ofInt 0)
  if maxAbs == .ofInt 0 then .ofInt 1 else maxAbs / .ofInt 127

/-- `int8[ch * inner + j]`. -/
def quantized (s x : F32) : Int8 := (F32.clamp (F32.round (x / s)) (.ofInt (-128)) (.ofInt 127)).toInt8

/-- `quantize_per_channel`. -/
def quantizePerChannel (view : TensorView) : Except Stop (OwnedTensor × OwnedTensor) := do
  let shape := view.shape
  if shape.length < 2 then throw (.error (.badShape shape))
  let outChannels := shape.headD 0
  let inner := shape.tail.prod
  let f32Data ← readAsF32 view
  let rows ← (List.range outChannels).mapM fun ch => slice f32Data (ch * inner) ((ch + 1) * inner)
  let scale := rows.map channelScale
  let int8 := (rows.zip scale).flatMap fun (row, s) => row.map (quantized s)
  let int8Bytes := int8.map fun x => x.toUInt8
  let scaleBytes := scale.flatMap fun s => toLeBytes 2 (Bf16.f32ToBf16BitsRne s.toBits).toNat
  return ({ dtype := .I8, shape := shape, data := int8Bytes },
    { dtype := .BF16, shape := [outChannels], data := scaleBytes })

/-! ### What is in a file -/

/-- The numbers of a tensor's bytes. -/
def numbers : Dtype → List UInt8 → List ℚ
  | .F32, raw => (chunksExact 4 raw).map fun c => number 23 8 (fromLeBytes c)
  | .BF16, raw => (chunksExact 2 raw).map fun c => number 7 8 (fromLeBytes c)
  | .F16, raw => (chunksExact 2 raw).map fun c => number 10 5 (fromLeBytes c)
  | .I8, raw => raw.map fun b => (b.toInt8.toInt : ℚ)
  | .other _, _ => []

/-- Numbers are all that the bytes stand for. -/
def AllFinite : Dtype → List UInt8 → Prop
  | .F32, raw => ∀ c ∈ chunksExact 4 raw, IsFinite 23 8 (fromLeBytes c)
  | .BF16, raw => ∀ c ∈ chunksExact 2 raw, IsFinite 7 8 (fromLeBytes c)
  | .F16, raw => ∀ c ∈ chunksExact 2 raw, IsFinite 10 5 (fromLeBytes c)
  | _, _ => False

/-- The number at a place. -/
def numberAt (d : Dtype) (raw : List UInt8) (i : Nat) : ℚ := (numbers d raw).getD i 0

/-! ### One channel -/

/-- The stored scale of a row. -/
def storedScale (s : F32) : ℚ := number 7 8 (Bf16.f32ToBf16BitsRne s.toBits).toNat

variable {s x : F32} {row : List F32}

/-- A number that is not much larger than `127` scales becomes the integer next to the rounded quotient. -/
theorem quantized_spec {p q : ℚ} (hs : F32.toRat s = some p) (hp : 0 < p) (hx : F32.toRat x = some q)
    (hle : |q| ≤ (127 + 1 / 4) * p) :
    |((quantized s x).toInt : ℚ)| ≤ 127 ∧ |(quantized s x).toInt * p - q| ≤ (1 / 2 + 1 / 2 ^ 16) * p := by
  have hquot : |q / p| ≤ 127 + 1 / 4 := by rwa [abs_div, abs_of_pos hp, div_le_iff₀ hp]
  obtain ⟨r, hr, herror, -⟩ := F32.toRat_div hx hs hp.ne' (lt_of_le_of_lt hquot (by norm_num))
  have hsmall : |r - q / p| ≤ 1 / 2 ^ 16 := by
    apply herror.trans
    rw [F32.roundingError_eq]
    apply max_le
    · rw [div_le_iff₀ (by positivity)]
      apply hquot.trans
      norm_num
    · norm_num
  obtain ⟨n, hn, hround⟩ := F32.toRat_round hr
  have hnear : |(n : ℚ) - q / p| ≤ 1 / 2 + 1 / 2 ^ 16 := by
    have htriangle := abs_sub_le (n : ℚ) r (q / p)
    linarith
  obtain ⟨hquot', hquot⟩ := abs_le.mp hquot
  obtain ⟨hnear', hnear''⟩ := abs_le.mp hnear
  have hhigh : n < 128 := by
    have hcast : (n : ℚ) < 128 := by norm_num at hnear'' hquot ⊢; linarith
    exact_mod_cast hcast
  have hlow : -128 < n := by
    have hcast : (-128 : ℚ) < n := by norm_num at hnear' hquot' ⊢; linarith
    exact_mod_cast hcast
  have hbelow : ((-128 : Int) : ℚ) ≤ n := by exact_mod_cast hlow.le
  have habove : (n : ℚ) ≤ ((127 : Int) : ℚ) := by exact_mod_cast Int.lt_add_one_iff.mp hhigh
  have hclamp := F32.clamp_eq_self hn (F32.toRat_ofInt (by decide)) (F32.toRat_ofInt (by decide)) hbelow habove
  have hint : (quantized s x).toInt = n := by
    rw [quantized, hclamp]
    exact F32.toInt8_of_int hn hlow.le (Int.lt_add_one_iff.mp hhigh)
  rw [hint]
  constructor
  · rw [abs_le]
    constructor
    · exact_mod_cast (by omega : (-127 : Int) ≤ n)
    · exact_mod_cast Int.lt_add_one_iff.mp hhigh
  · have hscale : n * p - q = (n - q / p) * p := by field_simp
    rw [hscale, abs_mul, abs_of_pos hp]
    exact mul_le_mul_of_nonneg_right hnear hp.le

/-- The largest magnitude of a row. -/
theorem toRat_maxAbs {a : F32} {p : ℚ} (ha : F32.toRat a = some p) (hrow : ∀ x ∈ row, ∃ q, F32.toRat x = some q) :
    ∃ m, F32.toRat (row.foldl (fun a b => F32.max a b.abs) a) = some m ∧ p ≤ m ∧
      (∀ x ∈ row, ∀ q, F32.toRat x = some q → |q| ≤ m) ∧
      (m = p ∨ ∃ x ∈ row, ∃ q, F32.toRat x = some q ∧ m = |q|) := by
  induction row generalizing a p with
  | nil => exact ⟨p, ha, le_refl p, nofun, .inl rfl⟩
  | cons x row ih =>
      obtain ⟨q, hq⟩ := hrow x List.mem_cons_self
      have hmax := F32.toRat_max ha (F32.toRat_abs hq)
      obtain ⟨m, hm, hle, hall, hfrom⟩ := ih hmax fun y hy => hrow y (List.mem_cons_of_mem x hy)
      refine ⟨m, hm, (le_max_left _ _).trans hle, ?_, ?_⟩
      · intro y hy r hr
        rcases List.mem_cons.mp hy with rfl | hy
        · rw [hq, Option.some_inj] at hr
          rw [← hr]
          exact (le_max_right _ _).trans hle
        · exact hall y hy r hr
      · rcases hfrom with rfl | ⟨y, hy, r, hr, rfl⟩
        · rcases max_choice p |q| with hchoice | hchoice
          · exact .inl hchoice
          · exact .inr ⟨x, List.mem_cons_self, q, hq, hchoice⟩
        · exact .inr ⟨y, List.mem_cons_of_mem x hy, r, hr, rfl⟩

/-- A pattern without a sign. -/
theorem number_of_lt {f w n : Nat} (h : n < 2 ^ (f + w)) : number f w n = units f n * 2 ^ (2 - 2 ^ (w - 1) - f : Int) := by
  rw [number, Nat.div_eq_of_lt h, Nat.mod_eq_of_lt h, if_pos rfl, one_mul]

/-- The scale that is stored is the pattern of the scale, rounded. -/
theorem storedScale_eq (h : s.toBits.toNat < 0x7F800000) :
    storedScale s = units 23 (2 ^ 16 * rounded (2 ^ 16) s.toBits.toNat) * 2 ^ (-149 : Int) := by
  have hnan : ¬Bf16.IsNan32 s.toBits := by
    unfold Bf16.IsNan32
    omega
  have hle := Bf16.rounded_le s.toBits hnan
  rw [Nat.mod_eq_of_lt (by omega)] at hle
  have hscale := units_mul 7 16 (rounded (2 ^ 16) s.toBits.toNat)
  rw [storedScale, Bf16.rne_toNat _ hnan, number_of_lt (by omega), hscale]
  push_cast
  norm_num
  ring

/-- Storing a scale that has all its bits moves it by half a last place at most. -/
theorem storedScale_spec {p : ℚ} (hs : F32.toRat s = some p) (hp : 2 ^ (-126 : Int) ≤ p) :
    ∃ least, 0 < least ∧ least ≤ p ∧ least ≤ storedScale s ∧ 256 * |p - storedScale s| ≤ least := by
  rw [F32.toRat_eq] at hs
  split at hs
  · rename_i hfinite
    obtain rfl := Option.some.inj hs
    unfold IsFinite at hfinite
    have hlt := s.toBits.toNat_lt
    have hplus : s.toBits.toNat < 2 ^ (23 + 8) := by
      by_contra hge
      have hdiv : s.toBits.toNat / 2 ^ (23 + 8) ≠ 0 := by omega
      have hneg : (-1 : ℚ) * (units 23 (s.toBits.toNat % 2 ^ (23 + 8)) * 2 ^ (2 - 2 ^ (8 - 1) - (23 : Nat) : Int)) ≤ 0 := by
        rw [neg_one_mul, neg_nonpos]
        positivity
      have hpos : (0 : ℚ) < 2 ^ (-126 : Int) := zpow_pos two_pos _
      rw [number, if_neg hdiv] at hp
      linarith
    rw [Nat.mod_eq_of_lt hplus] at hfinite
    have hbelow : s.toBits.toNat < 0x7F800000 := by omega
    have hunit : (0 : ℚ) < 2 ^ (-149 : Int) := zpow_pos two_pos _
    have hnumber : number 23 8 s.toBits.toNat = units 23 s.toBits.toNat * 2 ^ (-149 : Int) := number_of_lt hplus
    have hall : 2 ^ 23 ≤ s.toBits.toNat := by
      by_contra hsmall
      have hunits : units 23 s.toBits.toNat = s.toBits.toNat := if_pos (Nat.div_eq_of_lt (by omega))
      have hcast : (s.toBits.toNat : ℚ) < 2 ^ 23 := by exact_mod_cast Nat.not_le.mp hsmall
      have hmul := mul_lt_mul_of_pos_right hcast hunit
      rw [hnumber, hunits] at hp
      norm_num at hp hmul
      linarith
    rw [hnumber, storedScale_eq hbelow]
    obtain ⟨least, hpos, hle, hle', hdist⟩ := rounded_error (show 16 ≤ 23 by decide) hall
    generalize units 23 (2 ^ 16 * rounded (2 ^ 16) s.toBits.toNat) = b at hle' hdist ⊢
    generalize units 23 s.toBits.toNat = a at hle hdist ⊢
    have hdist : 256 * |(a : ℚ) - b| ≤ least := by
      have hcast : ((Nat.dist a b : Nat) : ℚ) = |(a : ℚ) - b| := by
        rcases le_total a b with hab | hab
        · have hrat : (a : ℚ) ≤ b := by exact_mod_cast hab
          rw [Nat.dist_eq_sub_of_le hab, Nat.cast_sub hab, abs_of_nonpos (by linarith)]
          ring
        · have hrat : (b : ℚ) ≤ a := by exact_mod_cast hab
          rw [Nat.dist_eq_sub_of_le_right hab, Nat.cast_sub hab, abs_of_nonneg (by linarith)]
      rw [← hcast]
      exact_mod_cast hdist
    refine ⟨least * 2 ^ (-149 : Int), mul_pos (by exact_mod_cast hpos) hunit,
      mul_le_mul_of_nonneg_right (by exact_mod_cast hle) hunit.le,
      mul_le_mul_of_nonneg_right (by exact_mod_cast hle') hunit.le, ?_⟩
    rw [← sub_mul, abs_mul, abs_of_pos hunit, ← mul_assoc]
    exact mul_le_mul_of_nonneg_right hdist hunit.le
  · cases hs

/-- The scale of a row of zeros. -/
theorem storedScale_one : storedScale (.ofInt 1) = 1 := by
  have hbits : (Bf16.f32ToBf16BitsRne (Float32.Model.ofInt 1).toBits).toNat = 0x3F80 := by decide
  rw [storedScale, hbits]
  norm_num [number, units]

/-- A scale that a row's largest magnitude gives. -/
theorem toRat_scale {a : F32} {m : ℚ} (ha : F32.toRat a = some m) (hm : 127 * 2 ^ (-126 : Int) ≤ m) :
    ∃ p, F32.toRat (a / .ofInt 127) = some p ∧ 2 ^ (-126 : Int) ≤ p ∧ 127 * (1 - 1 / 2 ^ 24) * p ≤ m ∧
      m * (1 - 1 / 2 ^ 24) ≤ 127 * p := by
  have hlt := F32.abs_toRat_lt ha
  have hten : F32.toRat (.ofInt 127) = some ((127 : Int) : ℚ) := F32.toRat_ofInt (by decide)
  norm_num at hten
  have hpos : (0 : ℚ) < 2 ^ (-126 : Int) := zpow_pos two_pos _
  have hquot : 2 ^ (-126 : Int) ≤ m / 127 := by
    rw [le_div_iff₀ (by norm_num)]
    linarith
  have habs : |m / 127| = m / 127 := abs_of_pos (hpos.trans_le hquot)
  have hsmall : |m / 127| < 2 ^ 127 := by
    rw [habs, div_lt_iff₀ (by norm_num)]
    have hle := (abs_lt.mp hlt).2
    norm_num at hle ⊢
    linarith
  obtain ⟨p, hp, herror, hpower⟩ := F32.toRat_div ha hten (by norm_num) hsmall
  rw [habs] at herror hpower
  have hrelative : |p - m / 127| ≤ m / 127 / 2 ^ 24 := by
    apply herror.trans
    rw [F32.roundingError_eq]
    apply max_le le_rfl
    rw [div_le_div_iff₀ two_pos (by positivity)]
    norm_num at hquot ⊢
    linarith
  obtain ⟨hlow, hhigh⟩ := abs_le.mp hrelative
  have hp0 : 0 < p := by linarith
  have hleast := hpower (-126) le_rfl hquot
  rw [abs_of_pos hp0] at hleast
  exact ⟨p, hp, hleast, by linarith, by linarith⟩

/-- The integers of a row and its stored scale, for a largest magnitude of zero or one whose scale has all its bits:
an element is less than a stored scale away, and not further than a `127`-th of the largest magnitude. -/
theorem channel_spec (hrow : ∀ x ∈ row, ∃ q, F32.toRat x = some q)
    (hmax : (∀ x ∈ row, F32.toRat x = some 0) ∨
      ∃ x ∈ row, ∃ q, F32.toRat x = some q ∧ 127 * 2 ^ (-126 : Int) ≤ |q|) :
    0 < storedScale (channelScale row) ∧ storedScale (channelScale row) < 2 ^ 128 ∧
      ∀ x ∈ row, ∀ q, F32.toRat x = some q →
        |(quantized (channelScale row) x).toInt * storedScale (channelScale row) - q| < storedScale (channelScale row) ∧
        ∃ y ∈ row, ∃ r, F32.toRat y = some r ∧
          127 * |(quantized (channelScale row) x).toInt * storedScale (channelScale row) - q| ≤ |r| := by
  have hzero : F32.toRat (.ofInt 0) = some ((0 : Int) : ℚ) := F32.toRat_ofInt (by decide)
  have hone : F32.toRat (.ofInt 1) = some ((1 : Int) : ℚ) := F32.toRat_ofInt (by decide)
  obtain ⟨m, hm, hle, hall, hfrom⟩ := toRat_maxAbs hzero hrow
  norm_num at hle hfrom hone
  unfold channelScale
  dsimp only
  generalize row.foldl (fun a b => F32.max a b.abs) (.ofInt 0) = a at hm ⊢
  have hbeq := F32.beq_zero_iff hm
  rcases eq_or_ne m 0 with rfl | hne
  · -- a row of zeros
    rw [if_pos (hbeq.mpr rfl), storedScale_one]
    refine ⟨one_pos, by norm_num, ?_⟩
    intro x hx q hq
    obtain rfl : q = 0 := abs_nonpos_iff.mp (hall x hx q hq)
    obtain ⟨-, hnear⟩ := quantized_spec hone one_pos hq (by norm_num)
    have hint : (quantized (.ofInt 1) x).toInt = 0 := by
      have hcast : |((quantized (.ofInt 1) x).toInt : ℚ)| < 1 := by
        norm_num at hnear ⊢
        linarith
      have hlt : |(quantized (.ofInt 1) x).toInt| < 1 := by exact_mod_cast hcast
      exact Int.abs_lt_one_iff.mp hlt
    rw [hint]
    exact ⟨by norm_num, x, hx, 0, hq, by norm_num⟩
  · obtain ⟨y, hy, r, hr, hmr⟩ := hfrom.resolve_left hne
    have hlarge : 127 * 2 ^ (-126 : Int) ≤ m := by
      rcases hmax with hnone | ⟨x, hx, q, hq, hle⟩
      · rw [hnone y hy, Option.some_inj] at hr
        rw [← hr, abs_zero] at hmr
        exact absurd hmr hne
      · exact hle.trans (hall x hx q hq)
    obtain ⟨p, hp, hleast, hpm, hmp⟩ := toRat_scale hm hlarge
    rw [if_neg (mt hbeq.mp hne)]
    generalize a / .ofInt 127 = s at hp ⊢
    obtain ⟨least, hpos, hle, hle', hdist⟩ := storedScale_spec hp hleast
    have hmlt : m < 2 ^ 128 := (le_abs_self m).trans_lt (F32.abs_toRat_lt hm)
    obtain ⟨hdist', hdist''⟩ := abs_le.mp (show |p - storedScale s| ≤ least / 256 by linarith)
    have hp0 : 0 < p := hpos.trans_le hle
    refine ⟨hpos.trans_le hle', ?_, ?_⟩
    · norm_num at hmlt ⊢
      linarith
    · intro x hx q hq
      have hqm := hall x hx q hq
      obtain ⟨hint, hnear⟩ := quantized_spec hp hp0 hq (by linarith)
      -- the error of the scale comes on top of that of the integer
      have hsplit : |(quantized s x).toInt * storedScale s - q| ≤ 127 * (least / 256) + (1 / 2 + 1 / 2 ^ 16) * p := by
        have hsum : (quantized s x).toInt * storedScale s - q =
            (quantized s x).toInt * (storedScale s - p) + ((quantized s x).toInt * p - q) := by ring
        have hscale : |((quantized s x).toInt : ℚ) * (storedScale s - p)| ≤ 127 * (least / 256) := by
          rw [abs_mul, abs_sub_comm]
          exact mul_le_mul hint (by linarith) (abs_nonneg _) (by norm_num)
        rw [hsum]
        exact (abs_add_le _ _).trans (add_le_add hscale hnear)
      constructor
      · linarith
      · refine ⟨y, hy, r, hr, ?_⟩
        rw [← hmr]
        linarith

/-! ### What is read -/

/-- Three fields side by side. -/
theorem toNat_fields {sign exp frac : Nat} (he : exp < 2 ^ 8) (hf : frac < 2 ^ 10) :
    (sign <<< 31 ||| exp <<< 23) ||| frac <<< 13 = 2 ^ 31 * sign + 2 ^ 23 * exp + 2 ^ 13 * frac := by
  have hexp : exp <<< 23 < 2 ^ 31 := by
    rw [Nat.shiftLeft_eq]
    omega
  have hfrac : frac <<< 13 < 2 ^ 23 := by
    rw [Nat.shiftLeft_eq]
    omega
  have hupper : sign <<< 31 + exp <<< 23 = (sign * 2 ^ 8 + exp) <<< 23 := by
    simp only [Nat.shiftLeft_eq]
    ring
  rw [← Nat.shiftLeft_add_eq_or_of_lt hexp, hupper, ← Nat.shiftLeft_add_eq_or_of_lt hfrac]
  simp only [Nat.shiftLeft_eq]
  ring

theorem toNat_and_ones (x : UInt32) (k : Nat) (ones : UInt32) (h : ones.toNat = 2 ^ k - 1) :
    (x &&& ones).toNat = x.toNat % 2 ^ k := by
  rw [UInt32.toNat_and, h, Nat.and_two_pow_sub_one_eq_mod]

/-- A half that is zero or has its first bit is read as what it is, with another bias. -/
theorem f16BitsToF32_toNat (b : UInt16) (hfinite : b.toNat % 2 ^ 15 < 2 ^ 10 * 31)
    (h : b.toNat % 2 ^ 15 = 0 ∨ 2 ^ 10 ≤ b.toNat % 2 ^ 15) :
    (f16BitsToF32 b).toNat = 2 ^ 31 * (b.toNat / 2 ^ 15) +
      if b.toNat % 2 ^ 15 = 0 then 0 else 2 ^ 23 * 112 + 2 ^ 13 * (b.toNat % 2 ^ 15) := by
  have hlt := b.toNat_lt
  have hsign : ((b.toUInt32 >>> 15) &&& 0x1).toNat = b.toNat / 2 ^ 15 := by
    rw [toNat_and_ones _ 1 _ rfl, UInt32.toNat_shiftRight, Nat.shiftRight_eq_div_pow, UInt16.toNat_toUInt32]
    simp only [UInt32.reduceToNat, Nat.reduceMod]
    omega
  have hexp : ((b.toUInt32 >>> 10) &&& 0x1F).toNat = b.toNat / 2 ^ 10 % 2 ^ 5 := by
    rw [toNat_and_ones _ 5 _ rfl, UInt32.toNat_shiftRight, Nat.shiftRight_eq_div_pow, UInt16.toNat_toUInt32]
    simp only [UInt32.reduceToNat, Nat.reduceMod]
  have hman : (b.toUInt32 &&& 0x3FF).toNat = b.toNat % 2 ^ 10 := by
    rw [toNat_and_ones _ 10 _ rfl, UInt16.toNat_toUInt32]
  unfold f16BitsToF32
  dsimp only
  generalize (b.toUInt32 >>> 15) &&& 0x1 = sign at hsign ⊢
  generalize (b.toUInt32 >>> 10) &&& 0x1F = exp at hexp ⊢
  generalize b.toUInt32 &&& 0x3FF = mantissa at hman ⊢
  have hexp0 : exp = 0 ↔ b.toNat / 2 ^ 10 % 2 ^ 5 = 0 := by
    rw [← UInt32.toNat_inj, hexp]
    rfl
  have hexp31 : exp = 0x1F ↔ b.toNat / 2 ^ 10 % 2 ^ 5 = 31 := by
    rw [← UInt32.toNat_inj, hexp]
    rfl
  have hman0 : mantissa = 0 ↔ b.toNat % 2 ^ 10 = 0 := by
    rw [← UInt32.toNat_inj, hman]
    rfl
  have hshift : (sign <<< 31).toNat = sign.toNat <<< 31 := by
    rw [UInt32.toNat_shiftLeft]
    simp only [UInt32.reduceToNat, Nat.reduceMod, Nat.shiftLeft_eq]
    omega
  rcases h with hzero | hnormal
  · rw [if_pos (hexp0.mpr (by omega)), if_pos (hman0.mpr (by omega)), if_pos hzero, hshift, Nat.shiftLeft_eq, hsign]
    omega
  · rw [if_neg (by rw [hexp0]; omega), if_neg (by rw [hexp31]; omega), if_neg (by omega)]
    have hnew : (exp + (127 - 15)).toNat = b.toNat / 2 ^ 10 % 2 ^ 5 + 112 := by
      rw [UInt32.toNat_add, hexp]
      exact Nat.mod_eq_of_lt (by simp; omega)
    have hshift' : ((exp + (127 - 15)) <<< 23).toNat = (exp + (127 - 15)).toNat <<< 23 := by
      rw [UInt32.toNat_shiftLeft, hnew]
      simp only [UInt32.reduceToNat, Nat.reduceMod, Nat.shiftLeft_eq]
      omega
    have hshift'' : (mantissa <<< 13).toNat = mantissa.toNat <<< 13 := by
      rw [UInt32.toNat_shiftLeft, hman]
      simp only [UInt32.reduceToNat, Nat.reduceMod, Nat.shiftLeft_eq]
      omega
    rw [UInt32.toNat_or, UInt32.toNat_or, hshift, hshift', hshift'', hnew, hman, hsign,
      toNat_fields (by omega) (by omega)]
    omega

/-- A half whose first bit is missing is excluded: it is read as half of what it is. -/
def NotSubnormal (q : ℚ) : Prop := q = 0 ∨ 2 ^ (-14 : Int) ≤ |q|

theorem number_f16 {b : UInt16} (hfinite : IsFinite 10 5 b.toNat) (h : NotSubnormal (number 10 5 b.toNat)) :
    F32.toRat (.ofBits (f16BitsToF32 b)) = some (number 10 5 b.toNat) := by
  have hlt := b.toNat_lt
  have hunit : (0 : ℚ) < 2 ^ (-24 : Int) := zpow_pos two_pos _
  have habs : |number 10 5 b.toNat| = units 10 (b.toNat % 2 ^ 15) * 2 ^ (-24 : Int) := by
    have hsign : |(if b.toNat / 2 ^ (10 + 5) = 0 then (1 : ℚ) else -1)| = 1 := by split <;> simp
    rw [number, abs_mul, hsign, one_mul, abs_of_nonneg (by positivity)]
    rfl
  have hpattern : b.toNat % 2 ^ 15 = 0 ∨ 2 ^ 10 ≤ b.toNat % 2 ^ 15 := by
    rcases h with hzero | hlarge
    · left
      rw [hzero, abs_zero, eq_comm, mul_eq_zero, or_iff_left hunit.ne', Nat.cast_eq_zero, units_eq_zero_iff] at habs
      exact habs
    · right
      by_contra hsmall
      have hunits : units 10 (b.toNat % 2 ^ 15) = b.toNat % 2 ^ 15 := if_pos (Nat.div_eq_of_lt (by omega))
      have hcast : ((b.toNat % 2 ^ 15 : Nat) : ℚ) < 2 ^ 10 := by exact_mod_cast Nat.not_le.mp hsmall
      have hmul := mul_lt_mul_of_pos_right hcast hunit
      rw [habs, hunits] at hlarge
      norm_num at hlarge hmul
      linarith
  unfold IsFinite at hfinite
  have hread := f16BitsToF32_toNat b hfinite hpattern
  have hbias : units 23 (if b.toNat % 2 ^ 15 = 0 then 0 else 2 ^ 23 * 112 + 2 ^ 13 * (b.toNat % 2 ^ 15)) =
      2 ^ 125 * units 10 (b.toNat % 2 ^ 15) := by
    split
    · rename_i hzero
      rw [hzero]
      simp [units]
    · have hsame : 2 ^ 23 * 112 + 2 ^ 13 * (b.toNat % 2 ^ 15) = 2 ^ 13 * (2 ^ 10 * 112 + b.toNat % 2 ^ 15) := by ring
      rw [hsame, units_mul 10 13, units_exponent (by omega)]
      ring
  have hbelow : (if b.toNat % 2 ^ 15 = 0 then 0 else 2 ^ 23 * 112 + 2 ^ 13 * (b.toNat % 2 ^ 15)) < 2 ^ 23 * 255 := by
    split <;> omega
  generalize (if b.toNat % 2 ^ 15 = 0 then 0 else 2 ^ 23 * 112 + 2 ^ 13 * (b.toNat % 2 ^ 15)) = t at hread hbias hbelow
  have hdiv : (f16BitsToF32 b).toNat / 2 ^ (23 + 8) = b.toNat / 2 ^ 15 := by omega
  have hmod : (f16BitsToF32 b).toNat % 2 ^ (23 + 8) = t := by omega
  have hall : IsFinite 23 8 (f16BitsToF32 b).toNat := by
    unfold IsFinite
    rw [hmod]
    exact hbelow
  have hexp : (2 : ℚ) ^ (2 - 2 ^ (5 - 1) - (10 : Nat) : Int) = 2 ^ 125 * 2 ^ (2 - 2 ^ (8 - 1) - (23 : Nat) : Int) := by
    rw [← zpow_natCast, ← zpow_add₀ two_ne_zero]
    norm_num
  rw [F32.toRat_ofBits, if_pos hall, number, hdiv, hmod, hbias, number, hexp]
  push_cast
  congr 1
  ring

/-- An element is read as the number that it is. -/
theorem readAsF32_spec {view : TensorView} (hfinite : AllFinite view.dtype view.data) :
    ∃ xs, readAsF32 view = .ok xs ∧ xs.length = view.shape.prod ∧
      ∀ i (hi : i < xs.length), (view.dtype = .F16 → NotSubnormal (numberAt view.dtype view.data i)) →
        F32.toRat xs[i] = some (numberAt view.dtype view.data i) := by
  have hvalid := view.valid
  have hmap : ∀ {k : Nat} (read : List UInt8 → F32) (num : List UInt8 → ℚ), 0 < k → view.dtype.size = some k →
      numbers view.dtype view.data = (chunksExact k view.data).map num →
      (∀ c ∈ chunksExact k view.data, (view.dtype = .F16 → NotSubnormal (num c)) → F32.toRat (read c) = some (num c)) →
      ((chunksExact k view.data).map read).length = view.shape.prod ∧
        ∀ i (hi : i < ((chunksExact k view.data).map read).length),
          (view.dtype = .F16 → NotSubnormal (numberAt view.dtype view.data i)) →
          F32.toRat ((chunksExact k view.data).map read)[i] = some (numberAt view.dtype view.data i) := by
    intro k read num hk hsize hnum hread
    constructor
    · rw [List.length_map, chunksExact, chunks_length, hvalid k hsize, Nat.mul_div_cancel _ hk]
    · intro i hi hhalf
      have hi' : i < (chunksExact k view.data).length := by simpa using hi
      have hat : numberAt view.dtype view.data i = num (chunksExact k view.data)[i] := by
        rw [numberAt, hnum, List.getD_eq_getElem?_getD, List.getElem?_map, List.getElem?_eq_getElem hi']
        rfl
      rw [hat] at hhalf ⊢
      rw [List.getElem_map]
      exact hread _ (List.getElem_mem hi') hhalf
  unfold readAsF32
  cases hd : view.dtype with
  | F32 =>
      rw [hd] at hfinite hmap
      refine ⟨_, rfl, hmap _ _ (by decide) rfl rfl ?_⟩
      intro c hc _
      have hlt := fromLeBytes_lt c
      rw [length_of_mem_chunksExact hc] at hlt
      have hnat : (UInt32.ofNat (fromLeBytes c)).toNat = fromLeBytes c := Nat.mod_eq_of_lt hlt
      rw [F32.toRat_ofBits, hnat, if_pos (hfinite c hc)]
  | BF16 =>
      rw [hd] at hfinite hmap
      refine ⟨_, rfl, hmap _ _ (by decide) rfl rfl ?_⟩
      intro c hc _
      have hlt := fromLeBytes_lt c
      rw [length_of_mem_chunksExact hc] at hlt
      have hnat : (UInt16.ofNat (fromLeBytes c)).toNat = fromLeBytes c := Nat.mod_eq_of_lt hlt
      have hpattern : (Bf16.bf16BitsToF32 (UInt16.ofNat (fromLeBytes c))).toNat = 2 ^ 16 * fromLeBytes c := by
        rw [Bf16.bf16BitsToF32, UInt32.toNat_shiftLeft, UInt16.toNat_toUInt32, hnat, Nat.shiftLeft_eq]
        simp only [UInt32.reduceToNat, Nat.reduceMod]
        omega
      rw [F32.toRat_ofBits, hpattern, if_pos ((isFinite_mul 7 16 8 _).mpr (hfinite c hc)),
        number_mul 7 16 8]
  | F16 =>
      rw [hd] at hfinite hmap
      refine ⟨_, rfl, hmap _ _ (by decide) rfl rfl ?_⟩
      intro c hc hhalf
      have hlt := fromLeBytes_lt c
      rw [length_of_mem_chunksExact hc] at hlt
      have hnat : (UInt16.ofNat (fromLeBytes c)).toNat = fromLeBytes c := Nat.mod_eq_of_lt hlt
      have hnumber := @number_f16 (UInt16.ofNat (fromLeBytes c)) (by rw [hnat]; exact hfinite c hc)
        (by rw [hnat]; exact hhalf rfl)
      rwa [hnat] at hnumber
  | I8 =>
      rw [hd] at hfinite
      cases hfinite
  | other name =>
      rw [hd] at hfinite
      cases hfinite

/-! ### The whole weight -/

/-- Lists of one length after each other. -/
theorem getElem?_flatten_of_length {α : Type} {n : Nat} {l : List (List α)} (h : ∀ x ∈ l, x.length = n) (c : Nat) {j : Nat}
    (hj : j < n) : l.flatten[c * n + j]? = l[c]?.bind (·[j]?) := by
  induction l generalizing c with
  | nil => simp
  | cons x l ih =>
      have hx := h x List.mem_cons_self
      rw [List.flatten_cons]
      cases c with
      | zero =>
          rw [Nat.zero_mul, Nat.zero_add, List.getElem?_append_left (by omega)]
          rfl
      | succ c =>
          have hindex : (c + 1) * n + j - x.length = c * n + j := by
            rw [hx, Nat.succ_mul]
            omega
          rw [List.getElem?_append_right (by rw [hx, Nat.succ_mul]; omega), hindex,
            ih (fun y hy => h y (List.mem_cons_of_mem x hy)) c]
          rfl

section Weight

variable (view : TensorView) (q scale : OwnedTensor) (c : Nat)

/-- `out_channels`. -/
def TensorView.channels : Nat := view.shape.headD 0

/-- `inner`. -/
def TensorView.inner : Nat := view.shape.tail.prod

/-- The `j`-th number of a channel of the weight. -/
def TensorView.weight (j : Nat) : ℚ := numberAt view.dtype view.data (c * view.inner + j)

/-- What an element is when it is read back. -/
def dequantized (j : Nat) : ℚ := numberAt q.dtype q.data (c * view.inner + j) * numberAt scale.dtype scale.data c

/-- The channel is zero or large enough for a scale with all its bits, and no element is a subnormal half. -/
structure ChannelReady : Prop where
  magnitude : (∀ j < view.inner, view.weight c j = 0) ∨ ∃ j < view.inner, 127 * 2 ^ (-126 : Int) ≤ |view.weight c j|
  normal : view.dtype = .F16 → ∀ j < view.inner, NotSubnormal (view.weight c j)

/-- The stored scale is a positive number, the elements are less than it away, and not further than the `127`-th of
one of them. -/
structure ChannelStored : Prop where
  positive : 0 < numberAt scale.dtype scale.data c
  finite : numberAt scale.dtype scale.data c < 2 ^ 128
  step : ∀ j < view.inner, |dequantized view q scale c j - view.weight c j| < numberAt scale.dtype scale.data c
  tolerance : ∀ j < view.inner, ∃ i < view.inner,
    127 * |dequantized view q scale c j - view.weight c j| ≤ |view.weight c i|
  zeros : (∀ j < view.inner, view.weight c j = 0) → ∀ j < view.inner, dequantized view q scale c j = 0

end Weight

/-- The rows that are quantised. -/
def rowOf (xs : List F32) (inner c : Nat) : List F32 := (xs.take ((c + 1) * inner)).drop (c * inner)

theorem rowOf_length {xs : List F32} {inner c out : Nat} (h : xs.length = out * inner) (hc : c < out) :
    (rowOf xs inner c).length = inner := by
  have hle : (c + 1) * inner ≤ out * inner := Nat.mul_le_mul_right _ hc
  rw [rowOf, List.length_drop, List.length_take, h, Nat.min_eq_left hle, Nat.succ_mul]
  omega

theorem getElem?_rowOf {xs : List F32} {inner c j : Nat} (hj : j < inner) :
    (rowOf xs inner c)[j]? = xs[c * inner + j]? := by
  rw [rowOf, List.getElem?_drop, List.getElem?_take_of_lt (by rw [Nat.succ_mul]; omega)]

/-- What the two files hold. -/
theorem quantizePerChannel_eq {view : TensorView} {xs : List F32} (hrank : 2 ≤ view.shape.length)
    (hread : readAsF32 view = .ok xs) (hlen : xs.length = view.channels * view.inner) :
    quantizePerChannel view = .ok
      ({ dtype := .I8, shape := view.shape,
         data := ((List.range view.channels).map fun c =>
           (rowOf xs view.inner c).map fun x => (quantized (channelScale (rowOf xs view.inner c)) x).toUInt8).flatten },
       { dtype := .BF16, shape := [view.channels],
         data := ((List.range view.channels).map fun c =>
           toLeBytes 2 (Bf16.f32ToBf16BitsRne (channelScale (rowOf xs view.inner c)).toBits).toNat).flatten }) := by
  have hrows : ((List.range view.channels).mapM fun ch => slice xs (ch * view.inner) ((ch + 1) * view.inner)) =
      .ok ((List.range view.channels).map (rowOf xs view.inner)) := by
    apply mapM_ok
    intro c hc
    have hle : (c + 1) * view.inner ≤ view.channels * view.inner := Nat.mul_le_mul_right _ (List.mem_range.mp hc)
    rw [slice, if_pos (by omega)]
    rfl
  unfold quantizePerChannel
  rw [if_neg (by omega), hread]
  show Except.bind ((List.range view.channels).mapM fun ch => slice xs (ch * view.inner) ((ch + 1) * view.inner)) _ = _
  rw [hrows]
  have hzip : ((List.range view.channels).map (rowOf xs view.inner)).zip
      (((List.range view.channels).map (rowOf xs view.inner)).map channelScale) =
      (List.range view.channels).map fun c => (rowOf xs view.inner c, channelScale (rowOf xs view.inner c)) := by
    rw [← List.map_prod_left_eq_zip, List.map_map]
    rfl
  show Except.ok _ = _
  rw [hzip]
  simp only [List.flatMap_def, List.map_map, List.map_flatten]
  congr 3
  · congr 2
    funext c
    simp
/-- The integer of an element and the scale of its channel, as they are read back. -/
theorem stored_spec {view : TensorView} {xs : List F32} {q scale : OwnedTensor} (hrank : 2 ≤ view.shape.length)
    (hread : readAsF32 view = .ok xs) (hlen : xs.length = view.channels * view.inner)
    (h : quantizePerChannel view = .ok (q, scale)) {c : Nat} (hc : c < view.channels) :
    numberAt scale.dtype scale.data c = storedScale (channelScale (rowOf xs view.inner c)) ∧
      ∀ j (hj : j < (rowOf xs view.inner c).length), numberAt q.dtype q.data (c * view.inner + j) =
        (quantized (channelScale (rowOf xs view.inner c)) (rowOf xs view.inner c)[j]).toInt := by
  rw [quantizePerChannel_eq hrank hread hlen] at h
  obtain ⟨rfl, rfl⟩ := Prod.mk.inj (Except.ok.inj h)
  have hat : (List.range view.channels)[c]? = some c := List.getElem?_range hc
  constructor
  · have hchunks : ∀ x ∈ (List.range view.channels).map fun c =>
        toLeBytes 2 (Bf16.f32ToBf16BitsRne (channelScale (rowOf xs view.inner c)).toBits).toNat, x.length = 2 := by
      intro x hx
      obtain ⟨-, -, rfl⟩ := List.mem_map.mp hx
      exact toLeBytes_length 2 _
    have hlt := (Bf16.f32ToBf16BitsRne (channelScale (rowOf xs view.inner c)).toBits).toNat_lt
    simp only [numberAt, numbers, chunksExact_flatten two_pos _ hchunks, List.getD_eq_getElem?_getD, List.getElem?_map, hat,
      Option.map_some, Option.getD_some, fromLeBytes_toLeBytes, storedScale]
    rw [Nat.mod_eq_of_lt (show _ < 256 ^ 2 from hlt)]
  · intro j hj
    have hrows : ∀ x ∈ (List.range view.channels).map fun c =>
        (rowOf xs view.inner c).map fun x => (quantized (channelScale (rowOf xs view.inner c)) x).toUInt8,
        x.length = view.inner := by
      intro x hx
      obtain ⟨d, hd, rfl⟩ := List.mem_map.mp hx
      rw [List.length_map]
      exact rowOf_length hlen (List.mem_range.mp hd)
    have hj' : j < view.inner := by rwa [rowOf_length hlen hc] at hj
    simp only [numberAt, numbers, List.getD_eq_getElem?_getD, List.getElem?_map, getElem?_flatten_of_length hrows c hj',
      hat, Option.map_some, Option.bind_some, List.getElem?_eq_getElem hj, Option.getD_some]
    rfl

/-- Every weight of finite numbers is quantised, and a channel that is zero or large enough is stored well. -/
theorem quantizePerChannel_stores {view : TensorView} (hrank : 2 ≤ view.shape.length)
    (hfinite : AllFinite view.dtype view.data) :
    ∃ q scale, quantizePerChannel view = .ok (q, scale) ∧ q.dtype = .I8 ∧ q.shape = view.shape ∧
      scale.dtype = .BF16 ∧ scale.shape = [view.channels] ∧
      ∀ c < view.channels, ChannelReady view c → ChannelStored view q scale c := by
  obtain ⟨xs, hread, hcount, hnumbers⟩ := readAsF32_spec hfinite
  have hlen : xs.length = view.channels * view.inner := by
    rw [hcount, TensorView.channels, TensorView.inner]
    cases hshape : view.shape with
    | nil => rw [hshape] at hrank; exact absurd hrank (by decide)
    | cons d ds => exact List.prod_cons
  obtain ⟨q, scale, hquantize, hqtype, hqshape, hstype, hsshape⟩ : ∃ q scale, quantizePerChannel view = .ok (q, scale) ∧
      q.dtype = .I8 ∧ q.shape = view.shape ∧ scale.dtype = .BF16 ∧ scale.shape = [view.channels] :=
    ⟨_, _, quantizePerChannel_eq hrank hread hlen, rfl, rfl, rfl, rfl⟩
  refine ⟨q, scale, hquantize, hqtype, hqshape, hstype, hsshape, ?_⟩
  intro c hc hready
  obtain ⟨hscale, hint⟩ := stored_spec hrank hread hlen hquantize hc
  have hrow := rowOf_length hlen hc
  -- an element of the row is a number of the weight
  have hweight : ∀ j (hj : j < (rowOf xs view.inner c).length),
      F32.toRat (rowOf xs view.inner c)[j] = some (view.weight c j) := by
    intro j hj
    have hj' : j < view.inner := by rwa [hrow] at hj
    have hin : c * view.inner + j < xs.length := by
      have hle : (c + 1) * view.inner ≤ view.channels * view.inner := Nat.mul_le_mul_right _ hc
      rw [Nat.succ_mul] at hle
      omega
    have hsame : (rowOf xs view.inner c)[j] = xs[c * view.inner + j] := by
      have hoption := @getElem?_rowOf xs _ c j hj'
      rwa [List.getElem?_eq_getElem hj, List.getElem?_eq_getElem hin, Option.some_inj] at hoption
    rw [hsame]
    exact hnumbers _ hin fun hhalf => hready.normal hhalf j hj'
  obtain ⟨hpos, hlt, hnear⟩ := @channel_spec (rowOf xs view.inner c)
    (by
      intro x hx
      obtain ⟨j, hj, rfl⟩ := List.mem_iff_getElem.mp hx
      exact ⟨_, hweight j hj⟩)
    (by
      rcases hready.magnitude with hzero | ⟨j, hj, hlarge⟩
      · left
        intro x hx
        obtain ⟨j, hj, rfl⟩ := List.mem_iff_getElem.mp hx
        rw [hweight j hj, hzero j (by rwa [hrow] at hj)]
      · have hj' : j < (rowOf xs view.inner c).length := by rwa [hrow]
        exact .inr ⟨_, List.getElem_mem hj', _, hweight j hj', hlarge⟩)
  rw [← hscale] at hpos hlt hnear
  have hstep : ∀ j < view.inner, |dequantized view q scale c j - view.weight c j| < numberAt scale.dtype scale.data c ∧
      ∃ i < view.inner, 127 * |dequantized view q scale c j - view.weight c j| ≤ |view.weight c i| := by
    intro j hj
    have hj' : j < (rowOf xs view.inner c).length := by rwa [hrow]
    obtain ⟨hlt, y, hy, r, hr, hle⟩ := hnear _ (List.getElem_mem hj') _ (hweight j hj')
    obtain ⟨i, hi, rfl⟩ := List.mem_iff_getElem.mp hy
    rw [hweight i hi, Option.some_inj] at hr
    rw [← hint j hj'] at hlt hle
    rw [← hr] at hle
    exact ⟨hlt, i, by rwa [hrow] at hi, hle⟩
  refine ⟨hpos, hlt, fun j hj => (hstep j hj).1, fun j hj => (hstep j hj).2, ?_⟩
  intro hzero j hj
  obtain ⟨-, i, hi, hle⟩ := hstep j hj
  rw [hzero i hi, hzero j hj, abs_zero, sub_zero] at hle
  exact abs_nonpos_iff.mp (by linarith)

/-- One channel of `127.49609375` and `126.99413299560547`, whose scale of `1 + 2 ^ -8` is stored as `1`. -/
def wideRow : TensorView where
  dtype := .F32
  shape := [1, 2]
  data := [0x00, 0xFE, 0xFE, 0x42, 0xFF, 0xFC, 0xFD, 0x42]
  valid := by
    rintro k ⟨⟩
    rfl

theorem wideRow_finite : AllFinite wideRow.dtype wideRow.data := by
  show ∀ c ∈ chunksExact 4 wideRow.data, IsFinite 23 8 (fromLeBytes c)
  decide

theorem wideRow_weight : wideRow.weight 0 0 = 32639 / 256 ∧ wideRow.weight 0 1 = 16645375 / 131072 := by
  have hfirst : wideRow.weight 0 0 = number 23 8 0x42FEFE00 := rfl
  have hsecond : wideRow.weight 0 1 = number 23 8 0x42FDFCFF := rfl
  rw [hfirst, hsecond]
  norm_num [number, units]

theorem wideRow_stored : ∃ q scale, quantizePerChannel wideRow = .ok (q, scale) ∧ ChannelStored wideRow q scale 0 := by
  obtain ⟨q, scale, hok, -, -, -, -, hstored⟩ := @quantizePerChannel_stores wideRow (by decide) wideRow_finite
  refine ⟨q, scale, hok, hstored 0 (by decide) ⟨.inr ⟨0, by decide, ?_⟩, nofun⟩⟩
  rw [wideRow_weight.1]
  norm_num

/-- The elements are stored to the nearest multiple of the stored scale. -/
def StoresNearest (view : TensorView) : Prop :=
  ∃ q scale, quantizePerChannel view = .ok (q, scale) ∧ ∀ c < view.channels,
    0 < numberAt scale.dtype scale.data c ∧
    (∀ j < view.inner, |dequantized view q scale c j - view.weight c j| ≤ numberAt scale.dtype scale.data c / 2) ∧
    ((∀ j < view.inner, view.weight c j = 0) → ∀ j < view.inner, dequantized view q scale c j = 0)

/-- The second element is stored as `126`. -/
theorem wideRow_not_nearest :
    ¬∀ view : TensorView, 2 ≤ view.shape.length → AllFinite view.dtype view.data → StoresNearest view := by
  intro hall
  obtain ⟨q, scale, hok, hstored⟩ := hall wideRow (by decide) wideRow_finite
  have hvalue : quantizePerChannel wideRow = .ok ({ dtype := .I8, shape := [1, 2], data := [127, 126] },
      { dtype := .BF16, shape := [1], data := [0x80, 0x3F] }) := rfl
  obtain ⟨rfl, rfl⟩ := Prod.mk.inj (Except.ok.inj (hvalue.symm.trans hok))
  have hhalf := (hstored 0 (by decide)).2.1 1 (by decide)
  have hscale : numberAt .BF16 [0x80, 0x3F] 0 = 1 := by
    have hpattern : numberAt .BF16 [0x80, 0x3F] 0 = number 7 8 0x3F80 := rfl
    rw [hpattern]
    norm_num [number, units]
  have hint : numberAt .I8 [127, 126] 1 = 126 := rfl
  rw [dequantized, wideRow_weight.2] at hhalf
  simp only [Nat.zero_mul, Nat.zero_add, hscale, hint] at hhalf
  norm_num [abs_le] at hhalf

end Quantize
end NnEngine
