import NnEngine.Codegen.CastAgreement
import NnEngine.FloatPattern
import NnEngine.FloatRounding

/-!
# The numbers of `f32`

What the operations of `f32` do to the numbers that the patterns stand for: the sign, the order, a division, and
the way to an integer.
-/

namespace NnEngine

open FloatFormat FloatPattern Float.Model Float.Model.UnpackedFloat

/-! ### The number of an unpacked float -/

/-- The factor of a sign. -/
def signFactor : Sign → ℚ
  | .positive => 1
  | .negative => -1

/-- The number, if it is one. -/
def toRat : UnpackedFloat → Option ℚ
  | .zero _ => some 0
  | .finite s m e _ => some (signFactor s * value m e)
  | _ => none

theorem abs_signFactor (s : Sign) : |signFactor s| = 1 := by cases s <;> simp [signFactor]

theorem signFactor_div (s s' : Sign) : signFactor (s / s') = signFactor s / signFactor s' := by
  cases s <;> cases s' <;>
    first
      | exact (div_one _).symm
      | (show _ = _ / (-1 : ℚ); simp [signFactor]; rfl)

theorem value_pos {m : Nat} {e : Int} (hm : 0 < m) : 0 < value m e :=
  mul_pos (by exact_mod_cast hm) (zpow_pos two_pos e)

namespace F32

/-- The number of an `f32`, if it is one. -/
def toRat (x : F32) : Option ℚ := NnEngine.toRat x.unpack

theorem minExponent_eq : Format.binary32.minExponent = -149 := by decide

theorem mantissaBits_eq : Format.binary32.mantissaBits = 24 := rfl

theorem signFactor_unpackSign (n : UInt32) :
    signFactor (Sign.ofBitVec (@unpackSign .binary32 n.toBitVec)) = if n.toNat / 2 ^ 31 = 0 then 1 else -1 := by
  have hnat : (@unpackSign .binary32 n.toBitVec).toNat = n.toNat / 2 ^ 31 % 2 := by
    unfold unpackSign
    rw [BitVec.toNat_cast, BitVec.extractLsb_toNat, Nat.shiftRight_eq_div_pow]
    rfl
  have hlt := n.toNat_lt
  have hiff : @unpackSign .binary32 n.toBitVec = 0#1 ↔ n.toNat / 2 ^ 31 = 0 := by
    rw [← BitVec.toNat_inj, hnat]
    simp only [BitVec.toNat_ofNat]
    omega
  unfold Sign.ofBitVec
  split
  · rw [if_pos (hiff.mp ‹_›)]
    rfl
  · rw [if_neg (mt hiff.mpr ‹_›)]
    rfl

/-- The number of a pattern. -/
theorem toRat_ofBits (n : UInt32) :
    F32.toRat (.ofBits n) = if IsFinite 23 8 n.toNat then some (number 23 8 n.toNat) else none := by
  have hunpack : (Float32.Model.ofBits n).unpack = UnpackedFloat.unpack .binary32 n.toBitVec :=
    unpack_pack (canonical_unpack (by decide) _)
  have hexp := CpuCast.toNat_unpackExponent n
  have hman := CpuCast.toNat_unpackMantissa n
  have hsign := signFactor_unpackSign n
  have hbias : (Format.binary32.exponentBias : Int) + Format.binary32.mantissaBitsWithoutImplicit = 150 := by decide
  rw [F32.toRat, hunpack]
  unfold UnpackedFloat.unpack number units
  dsimp only
  rw [hbias, hexp]
  have hones : @unpackExponent .binary32 n.toBitVec = -1#_ ↔ n.toNat / 2 ^ 23 % 2 ^ 8 = 255 := by
    rw [← BitVec.toNat_inj, hexp]
    rfl
  have hzeros : @unpackExponent .binary32 n.toBitVec = 0#_ ↔ n.toNat / 2 ^ 23 % 2 ^ 8 = 0 := by
    rw [← BitVec.toNat_inj, hexp]
    rfl
  have hzero : @unpackMantissa .binary32 n.toBitVec = 0#_ ↔ n.toNat % 2 ^ 23 = 0 := by
    rw [← BitVec.toNat_inj, hman]
    rfl
  split
  · rename_i h
    rw [hones] at h
    have hinf : ¬IsFinite 23 8 n.toNat := by unfold IsFinite; omega
    rw [if_neg hinf]
    split <;> rfl
  · rename_i h
    rw [hones] at h
    have hfinite : IsFinite 23 8 n.toNat := by unfold IsFinite; omega
    rw [if_pos hfinite]
    split
    · rename_i h0
      rw [hzeros] at h0
      have hfield : n.toNat % 2 ^ (23 + 8) / 2 ^ 23 = 0 := by omega
      rw [if_pos hfield]
      split
      · rename_i hm
        rw [hzero] at hm
        have hnil : n.toNat % 2 ^ (23 + 8) = 0 := by omega
        rw [hnil]
        simp [NnEngine.toRat]
      · have hfrac : n.toNat % 2 ^ (23 + 8) = n.toNat % 2 ^ 23 := by omega
        rw [hfrac, NnEngine.toRat, hsign, hman, h0]
        rfl
    · rename_i h0
      rw [hzeros] at h0
      have hfield : n.toNat % 2 ^ (23 + 8) / 2 ^ 23 = n.toNat / 2 ^ 23 % 2 ^ 8 := by omega
      have hfrac : n.toNat % 2 ^ (23 + 8) % 2 ^ 23 = n.toNat % 2 ^ 23 := by omega
      have hpow : (2 : ℚ) ^ ((n.toNat / 2 ^ 23 % 2 ^ 8 : Nat) - 150 : Int) =
          2 ^ (n.toNat / 2 ^ 23 % 2 ^ 8 - 1) * 2 ^ (2 - 2 ^ (8 - 1) - (23 : Nat) : Int) := by
        rw [← zpow_natCast, ← zpow_add₀ two_ne_zero]
        congr 1
        push_cast
        omega
      rw [hfield, if_neg h0, hfrac, NnEngine.toRat, hsign, toNat_implicit, hman, value, hpow]
      push_cast
      rw [mul_assoc]

/-- The number of an `f32` by its pattern. -/
theorem toRat_eq (x : F32) :
    F32.toRat x = if IsFinite 23 8 x.toBits.toNat then some (number 23 8 x.toBits.toNat) else none := by
  have hself : Float32.Model.ofBits x.toBits = x := F32.pack_unpack x
  rw [← toRat_ofBits, hself]

/-- No number is as large as what the pattern of infinity would stand for. -/
theorem abs_toRat_lt {x : F32} {q : ℚ} (h : F32.toRat x = some q) : |q| < 2 ^ 128 := by
  rw [toRat_eq] at h
  split at h
  · rename_i hfinite
    obtain rfl := Option.some.inj h
    have hlt : units 23 (x.toBits.toNat % 2 ^ 31) < units 23 (2 ^ 23 * 255) := units_strictMono 23 hfinite
    have hlast : units 23 (2 ^ 23 * 255) = 2 ^ 277 := by decide
    have hcast : (units 23 (x.toBits.toNat % 2 ^ (23 + 8)) : ℚ) < 2 ^ 277 := by exact_mod_cast hlast ▸ hlt
    have hmul := mul_lt_mul_of_pos_right hcast (zpow_pos (two_pos : (0 : ℚ) < 2) (-149))
    have hsign : |(if x.toBits.toNat / 2 ^ (23 + 8) = 0 then (1 : ℚ) else -1)| = 1 := by split <;> simp
    rw [number, abs_mul, hsign, one_mul, abs_of_nonneg (by positivity)]
    refine lt_of_lt_of_eq hmul ?_
    rw [← zpow_natCast, ← zpow_natCast, ← zpow_add₀ two_ne_zero]
    norm_num
  · cases h

theorem canonical (x : F32) : Canonical .binary32 x.unpack := canonical_unpack (by decide) _

/-- The number of what is packed. -/
theorem toRat_pack {u : UnpackedFloat} (h : Canonical .binary32 u) : F32.toRat (.pack u) = NnEngine.toRat u :=
  congrArg NnEngine.toRat (unpack_pack h)

/-- A number is a zero or has a mantissa. -/
theorem cases_of_toRat {x : F32} {q : ℚ} (h : F32.toRat x = some q) :
    (∃ s, x.unpack = .zero s ∧ q = 0) ∨
      ∃ s m e, ∃ hm : 0 < m, x.unpack = .finite s m e hm ∧ q = signFactor s * value m e := by
  unfold F32.toRat at h
  cases hx : x.unpack with
  | notANumber => rw [hx] at h; cases h
  | infinity s => rw [hx] at h; cases h
  | zero s =>
      rw [hx] at h
      exact .inl ⟨s, rfl, (Option.some.inj h).symm⟩
  | finite s m e hm =>
      rw [hx] at h
      exact .inr ⟨s, m, e, hm, rfl, (Option.some.inj h).symm⟩

/-! ### Sign and order -/

theorem toRat_abs {x : F32} {q : ℚ} (h : F32.toRat x = some q) : F32.toRat x.abs = some |q| := by
  have hx := canonical x
  rcases cases_of_toRat h with ⟨s, hu, rfl⟩ | ⟨s, m, e, hm, hu, rfl⟩
  · rw [Float32.Model.abs, hu, abs_zero]
    exact @toRat_pack (.zero .positive) trivial
  · rw [hu] at hx
    rw [Float32.Model.abs, hu, abs_mul, abs_signFactor, abs_of_pos (value_pos hm)]
    exact toRat_pack hx

/-- A larger exponent makes a larger number. -/
theorem value_lt_of_exponent {m m' : Nat} {e e' : Int} (hm' : 0 < m')
    (h : e = Format.binary32.targetExponent (totalExponent m e))
    (h' : e' = Format.binary32.targetExponent (totalExponent m' e')) (hlt : e < e') : value m e < value m' e' := by
  obtain ⟨hmin, hbits, -⟩ := canonical_cases h
  obtain ⟨-, -, hfull⟩ := canonical_cases h'
  have hfull : m'.log2 + 1 = Format.binary32.mantissaBits := hfull.resolve_right (by omega)
  rw [mantissaBits_eq] at hbits hfull
  have hlow : (2 : ℚ) ^ 23 ≤ m' := by
    have hle : 2 ^ m'.log2 ≤ m' := Nat.log2_self_le hm'.ne'
    rw [show m'.log2 = 23 by omega] at hle
    exact_mod_cast hle
  have hhigh : (m : ℚ) < 2 ^ 24 := by
    have hlt : m < 2 ^ 24 := lt_of_lt_of_le Nat.lt_log2_self (Nat.pow_le_pow_right Nat.two_pos hbits)
    exact_mod_cast hlt
  have hstep : (2 : ℚ) ^ (e + 1) ≤ 2 ^ e' := zpow_le_zpow_right₀ one_le_two (by omega)
  calc value m e < 2 ^ 24 * 2 ^ e := mul_lt_mul_of_pos_right hhigh (zpow_pos two_pos e)
    _ = 2 ^ 23 * 2 ^ (e + 1) := by rw [zpow_add_one₀ two_ne_zero]; ring
    _ ≤ m' * 2 ^ e' := mul_le_mul hlow hstep (zpow_pos two_pos _).le (by positivity)

theorem value_lt_iff {m m' : Nat} {e e' : Int} (hm : 0 < m) (hm' : 0 < m')
    (h : e = Format.binary32.targetExponent (totalExponent m e))
    (h' : e' = Format.binary32.targetExponent (totalExponent m' e')) :
    (compare e e').then (compare m m') = .lt ↔ value m e < value m' e' := by
  rw [Ordering.then_eq_lt, compare_lt_iff_lt, compare_eq_iff_eq, compare_lt_iff_lt]
  rcases lt_trichotomy e e' with hlt | rfl | hgt
  · exact iff_of_true (.inl hlt) (value_lt_of_exponent hm' h h' hlt)
  · have hpos : (0 : ℚ) < 2 ^ e := zpow_pos two_pos e
    rw [value, value, mul_lt_mul_iff_left₀ hpos, Nat.cast_lt]
    simp
  · refine iff_of_false ?_ (value_lt_of_exponent hm h' h hgt).le.not_gt
    omega

/-- The order of the numbers. -/
theorem lt_iff {x y : F32} {p q : ℚ} (hx : F32.toRat x = some p) (hy : F32.toRat y = some q) : x < y ↔ p < q := by
  have hcx := canonical x
  have hcy := canonical y
  show x.unpack.lt y.unpack = true ↔ _
  rw [UnpackedFloat.lt, beq_iff_eq]
  rcases cases_of_toRat hx with ⟨s, hu, rfl⟩ | ⟨s, m, e, hm, hu, rfl⟩ <;>
    rcases cases_of_toRat hy with ⟨s', hu', rfl⟩ | ⟨s', m', e', hm', hu', rfl⟩ <;> rw [hu] at hcx ⊢ <;>
    rw [hu'] at hcy ⊢
  · simp [UnpackedFloat.compare]
  · have hpos := value_pos (e := e') hm'
    cases s' <;> simp [UnpackedFloat.compare, signFactor, hpos, hpos.le]
  · have hpos := value_pos (e := e) hm
    cases s <;> simp [UnpackedFloat.compare, signFactor, hpos, hpos.le]
  · have hpos := value_pos (e := e) hm
    have hpos' := value_pos (e := e') hm'
    cases s <;> cases s'
    · rw [UnpackedFloat.compare, Option.some_inj, Ordering.swap_eq_lt, signFactor, neg_one_mul, neg_one_mul, neg_lt_neg_iff,
        ← value_lt_iff hm' hm hcy.1 hcx.1]
      rw [Ordering.then_eq_gt, Ordering.then_eq_lt, compare_gt_iff_gt, compare_eq_iff_eq, compare_gt_iff_gt,
        compare_lt_iff_lt, compare_eq_iff_eq, compare_lt_iff_lt]
      omega
    · have hneg : -value m e < value m' e' := by linarith
      simp [UnpackedFloat.compare, signFactor, hneg]
    · have hneg : ¬value m e < -value m' e' := by linarith
      simp [UnpackedFloat.compare, signFactor, hneg]
    · rw [UnpackedFloat.compare, Option.some_inj, signFactor, one_mul, one_mul]
      exact value_lt_iff hm hm' hcx.1 hcy.1

theorem isNaN_of_toRat {x : F32} {q : ℚ} (h : F32.toRat x = some q) : x.isNaN = false := by
  show x.unpack.isNaN = false
  rcases cases_of_toRat h with ⟨s, hu, -⟩ | ⟨s, m, e, hm, hu, -⟩ <;> rw [hu] <;> rfl

/-- `f32::max`, which passes over a NaN. -/
def max (x y : F32) : F32 := if x.isNaN then y else if y.isNaN then x else if x < y then y else x

theorem toRat_max {x y : F32} {p q : ℚ} (hx : F32.toRat x = some p) (hy : F32.toRat y = some q) :
    F32.toRat (F32.max x y) = some (Max.max p q) := by
  simp only [F32.max, isNaN_of_toRat hx, isNaN_of_toRat hy, Bool.false_eq_true, if_false, lt_iff hx hy]
  split
  · rw [hy, max_eq_right_of_lt ‹_›]
  · rw [hx, max_eq_left (not_lt.mp ‹_›)]

/-- `== 0.0`. -/
theorem beq_zero_iff {x : F32} {q : ℚ} (h : F32.toRat x = some q) : (x == .ofInt 0) = true ↔ q = 0 := by
  have hzero : (Float32.Model.ofInt 0).unpack = .zero .positive := @unpack_pack .binary32 (.zero .positive) trivial
  show (x.unpack.compare (Float32.Model.ofInt 0).unpack == some .eq) = true ↔ _
  rw [hzero, beq_iff_eq]
  rcases cases_of_toRat h with ⟨s, hu, rfl⟩ | ⟨s, m, e, hm, hu, rfl⟩ <;> rw [hu]
  · simp [UnpackedFloat.compare]
  · have hpos := value_pos (e := e) hm
    cases s <;> simp [UnpackedFloat.compare, signFactor, hpos.ne']

/-! ### Rounding -/

/-- A rounded number that is not too large. -/
theorem toRat_pack_isRounded {s : Sign} {q : ℚ} {u : UnpackedFloat} (h : IsRounded .binary32 s q u) (hq : q < 2 ^ 128) :
    F32.toRat (.pack u) = some (signFactor s * q) := by
  cases u with
  | notANumber => cases h
  | infinity s' => cases h
  | zero s' =>
      obtain ⟨rfl, rfl⟩ := h
      rw [mul_zero]
      exact @toRat_pack (.zero s') trivial
  | finite s' m e hm =>
      obtain ⟨rfl, rfl, htarget⟩ := h
      obtain ⟨hmin, hbits, hfull⟩ := canonical_cases htarget
      have hsmall : e < 105 := by
        by_contra hge
        have hfull : m.log2 + 1 = 24 := hfull.resolve_right (by rw [minExponent_eq]; omega)
        have hlow : (2 : ℚ) ^ 23 ≤ m := by
          have hle : 2 ^ m.log2 ≤ m := Nat.log2_self_le hm.ne'
          rw [show m.log2 = 23 by omega] at hle
          exact_mod_cast hle
        have hpow : (2 : ℚ) ^ (105 : Int) ≤ 2 ^ e := zpow_le_zpow_right₀ one_le_two (by omega)
        have hmul : (2 : ℚ) ^ 23 * 2 ^ (105 : Int) ≤ value m e := mul_le_mul hlow hpow (by positivity) (by positivity)
        norm_num at hmul hq
        linarith
      exact toRat_pack ⟨htarget, by
        have hbias : (Format.binary32.exponentBias : Int) = 127 := by decide
        rw [hbias]
        show e + 127 + 23 + 1 < 2 ^ 8
        omega⟩

theorem roundingError_eq (q : ℚ) : roundingError .binary32 q = Max.max (q / 2 ^ 24) (2 ^ (-149 : Int) / 2) := rfl

/-- A division of numbers. -/
theorem toRat_div {x y : F32} {p q : ℚ} (hx : F32.toRat x = some p) (hy : F32.toRat y = some q) (hq : q ≠ 0)
    (hsmall : |p / q| < 2 ^ 127) :
    ∃ r, F32.toRat (x / y) = some r ∧ |r - p / q| ≤ roundingError .binary32 |p / q| ∧
      ∀ j : Int, -126 ≤ j → 2 ^ j ≤ |p / q| → 2 ^ j ≤ |r| := by
  have hdiv : F32.toRat (x / y) = F32.toRat (.pack (UnpackedFloat.div .binary32 x.unpack y.unpack)) := rfl
  rw [hdiv]
  rcases cases_of_toRat hy with ⟨s', hu', rfl⟩ | ⟨s', m', e', hm', hu', rfl⟩
  · exact absurd rfl hq
  rw [hu']
  rcases cases_of_toRat hx with ⟨s, hu, rfl⟩ | ⟨s, m, e, hm, hu, rfl⟩ <;> rw [hu]
  · refine ⟨0, @toRat_pack (.zero (s / s')) trivial, ?_, ?_⟩
    · rw [zero_div, sub_zero, abs_zero]
      exact le_max_of_le_right (by positivity)
    · intro j _ hle
      rwa [zero_div] at hle
  · obtain ⟨r, hrounded, hnear⟩ := @div_spec .binary32 s s' m m' e e' hm hm'
    have hpos : 0 < value m e / value m' e' := div_pos (value_pos hm) (value_pos hm')
    have hquot : signFactor s * value m e / (signFactor s' * value m' e') =
        signFactor (s / s') * (value m e / value m' e') := by
      rw [signFactor_div, mul_div_mul_comm]
    have habs : |signFactor s * value m e / (signFactor s' * value m' e')| = value m e / value m' e' := by
      rw [hquot, abs_mul, abs_signFactor, one_mul, abs_of_pos hpos]
    rw [habs] at hsmall ⊢
    have hr : r < 2 ^ 128 := by
      have herror := (abs_le.mp hnear.error).2
      have hbound : roundingError .binary32 (value m e / value m' e') ≤ 2 ^ 127 := by
        rw [roundingError_eq]
        apply max_le
        · have hdiv : value m e / value m' e' / 2 ^ 24 ≤ value m e / value m' e' := div_le_self hpos.le (by norm_num)
          linarith
        · norm_num
      norm_num at hsmall hbound ⊢
      linarith
    refine ⟨_, toRat_pack_isRounded hrounded hr, ?_, ?_⟩
    · rw [hquot, ← mul_sub, abs_mul, abs_signFactor, one_mul]
      exact hnear.error
    · intro j hj hle
      have hpow := hnear.power j (by rw [minExponent_eq, mantissaBits_eq]; omega) hle
      rw [abs_mul, abs_signFactor, one_mul]
      exact hpow.trans (le_abs_self r)

/-! ### Integers -/

/-- An integer that has no more bits than a mantissa. -/
theorem toRat_round_int {s : Sign} {n : Nat} (hn : 0 < n) (hbits : n.log2 < 24) :
    F32.toRat (.pack (UnpackedFloat.round .binary32 s n 0)) = some (signFactor s * n) := by
  obtain ⟨m, e, hm, hround, htarget, hvalue, -⟩ := @round_int .binary32 s n (by decide) hn
  rw [significant_of_le (by rw [mantissaBits_eq]; omega)] at hvalue
  rw [hround]
  have hlt : (n : ℚ) < 2 ^ 24 := by exact_mod_cast (Nat.log2_lt hn.ne').mp hbits
  refine toRat_pack_isRounded ⟨rfl, hvalue, htarget⟩ (hlt.trans ?_)
  norm_num

theorem toRat_ofInt {n : Int} (h : n.natAbs.log2 < 24) : F32.toRat (.ofInt n) = some (n : ℚ) := by
  show F32.toRat (.pack (UnpackedFloat.ofInt .binary32 n)) = _
  rw [ofInt_eq]
  rcases lt_trichotomy n 0 with hlt | rfl | hgt
  · have habs : (n : ℚ) = -(n.natAbs : ℚ) := by
      rw [← Int.cast_natCast, ← Int.cast_neg]
      congr 1
      omega
    rw [if_neg hlt.ne, if_pos hlt, toRat_round_int (Int.natAbs_pos.mpr hlt.ne) h, habs, signFactor, neg_one_mul]
  · exact @toRat_pack (.zero .positive) trivial
  · have habs : (n : ℚ) = (n.natAbs : ℚ) := by
      rw [← Int.cast_natCast]
      congr 1
      omega
    rw [if_neg hgt.ne', if_neg hgt.not_gt, toRat_round_int (Int.natAbs_pos.mpr hgt.ne') h, habs, signFactor, one_mul]

/-- `f32::round`, away from zero from the middle.  From an exponent of zero on there is nothing to round. -/
def roundAway : UnpackedFloat → UnpackedFloat
  | .finite s m e hm =>
    if 0 ≤ e then .finite s m e hm
    else
      let n := (m + 2 ^ ((-e).toNat - 1)) / 2 ^ (-e).toNat
      if n = 0 then .zero s else UnpackedFloat.round .binary32 s n 0
  | x => x

def round (x : F32) : F32 := .pack (roundAway x.unpack)

/-- The integer next to a number. -/
theorem toRat_round {x : F32} {q : ℚ} (h : F32.toRat x = some q) :
    ∃ n : Int, F32.toRat x.round = some (n : ℚ) ∧ |(n : ℚ) - q| ≤ 1 / 2 := by
  have hx := canonical x
  unfold F32.round
  rcases cases_of_toRat h with ⟨s, hu, rfl⟩ | ⟨s, m, e, hm, hu, rfl⟩ <;> rw [hu] at hx ⊢
  · exact ⟨0, @toRat_pack (.zero s) trivial, by norm_num⟩
  · rw [roundAway]
    split
    · rename_i he
      obtain ⟨k, rfl⟩ := Int.eq_ofNat_of_zero_le he
      refine ⟨s.apply (m * 2 ^ k : Nat), ?_, ?_⟩
      · rw [toRat_pack hx, NnEngine.toRat, value, zpow_natCast]
        cases s <;> simp [signFactor, Sign.apply]
      · rw [value, zpow_natCast]
        cases s <;> simp [signFactor, Sign.apply]
    · rename_i he
      obtain ⟨k, rfl⟩ : ∃ k : Nat, e = -(k + 1 : Nat) := ⟨(-e).toNat - 1, by omega⟩
      have hk : (-(-((k + 1 : Nat) : Int))).toNat = k + 1 := by omega
      have hpos : (0 : ℚ) < 2 ^ (k + 1) := pow_pos two_pos _
      have hlog : m.log2 < 24 := by
        obtain ⟨-, hbits, -⟩ := canonical_cases hx.1
        rw [mantissaBits_eq] at hbits
        omega
      simp only [hk, Nat.add_sub_cancel]
      generalize hn : (m + 2 ^ k) / 2 ^ (k + 1) = n
      have hnear : |(n : ℚ) - value m (-(k + 1 : Nat))| ≤ 1 / 2 := by
        have hsplit := Nat.div_add_mod (m + 2 ^ k) (2 ^ (k + 1))
        have hlt := Nat.mod_lt (m + 2 ^ k) (Nat.two_pow_pos (k + 1))
        rw [hn] at hsplit
        have hpow : 2 ^ (k + 1) = 2 * 2 ^ k := by rw [Nat.pow_succ, Nat.mul_comm]
        have hlow : 2 * (2 ^ (k + 1) * n) ≤ 2 * m + 2 ^ (k + 1) := by omega
        have hhigh : 2 * m ≤ 2 * (2 ^ (k + 1) * n) + 2 ^ (k + 1) := by omega
        have hlow : 2 * ((2 : ℚ) ^ (k + 1) * n) ≤ 2 * m + 2 ^ (k + 1) := by exact_mod_cast hlow
        have hhigh : 2 * (m : ℚ) ≤ 2 * (2 ^ (k + 1) * n) + 2 ^ (k + 1) := by exact_mod_cast hhigh
        rw [value, zpow_neg, zpow_natCast, ← div_eq_mul_inv, abs_le]
        constructor
        · rw [neg_le_sub_iff_le_add, div_le_iff₀ hpos]
          linarith
        · rw [sub_le_iff_le_add, ← sub_le_iff_le_add', le_div_iff₀ hpos]
          linarith
      have hmul : signFactor s * n - signFactor s * value m (-(k + 1 : Nat)) =
          signFactor s * (n - value m (-(k + 1 : Nat))) := by ring
      refine ⟨s.apply n, ?_, ?_⟩
      · split
        · rename_i hzero
          rw [hzero]
          cases s <;> exact toRat_pack trivial
        · rename_i hne
          have hle : n ≤ m := by
            rw [← hn]
            have hone := Nat.one_le_two_pow (n := k)
            have hpow : 2 ^ (k + 1) = 2 * 2 ^ k := by rw [Nat.pow_succ, Nat.mul_comm]
            apply Nat.div_le_of_le_mul
            rw [hpow]
            nlinarith
          have hbits : n.log2 < 24 := by
            refine (Nat.log2_lt hne).mpr (lt_of_le_of_lt hle ?_)
            exact (Nat.log2_lt hm.ne').mp hlog
          rw [toRat_round_int (Nat.pos_of_ne_zero hne) hbits]
          cases s <;> simp [signFactor, Sign.apply]
      · have hcast : ((s.apply n : Int) : ℚ) = signFactor s * n := by cases s <;> simp [signFactor, Sign.apply]
        rw [hcast, hmul, abs_mul, abs_signFactor, one_mul]
        exact hnear

/-- `f32::clamp`, which keeps a NaN. -/
def clamp (x low high : F32) : F32 := if x < low then low else if high < x then high else x

theorem clamp_eq_self {x low high : F32} {p q r : ℚ} (hx : F32.toRat x = some p) (hlow : F32.toRat low = some q)
    (hhigh : F32.toRat high = some r) (h : q ≤ p) (h' : p ≤ r) : F32.clamp x low high = x := by
  simp only [F32.clamp, lt_iff hx hlow, lt_iff hhigh hx, h.not_gt, h'.not_gt, if_false]

/-- An integer that fits is kept. -/
theorem toInt8_of_int {x : F32} {n : Int} (hx : F32.toRat x = some (n : ℚ)) (h : -128 ≤ n) (h' : n ≤ 127) :
    x.toInt8.toInt = n := by
  have hint : x.unpack.toInt Int8.minValue.toInt Int8.maxValue.toInt = n := by
    rcases cases_of_toRat hx with ⟨s, hu, hzero⟩ | ⟨s, m, e, hm, hu, hvalue⟩ <;> rw [hu]
    · have hzero : n = 0 := by exact_mod_cast hzero
      rw [hzero]
      rfl
    · show roundToInt s m e = n
      have habs : (n.natAbs : ℚ) = value m e := by
        have hcast : |(n : ℚ)| = value m e := by rw [hvalue, abs_mul, abs_signFactor, one_mul, abs_of_pos (value_pos hm)]
        rw [← hcast]
        simp
      have hmantissa : (mantissaAt m e 0).mantissa = n.natAbs := by
        unfold mantissaAt
        split
        · rename_i he
          obtain ⟨k, rfl⟩ := Int.eq_ofNat_of_zero_le he
          rw [value, zpow_natCast] at habs
          show m <<< (k - 0 : Int).toNat = _
          rw [Int.sub_zero, Int.toNat_natCast, Nat.shiftLeft_eq]
          exact_mod_cast habs.symm
        · rename_i he
          obtain ⟨k, rfl⟩ : ∃ k : Nat, e = -(k : Int) := ⟨(-e).toNat, by omega⟩
          have hk : (0 - -(k : Int)).toNat = k := by omega
          rw [value, zpow_neg, zpow_natCast, ← div_eq_mul_inv, eq_div_iff (by positivity)] at habs
          have hnat : m = n.natAbs * 2 ^ k := by exact_mod_cast habs.symm
          rw [hk, mantissa_shiftRight, hnat, Nat.mul_div_cancel _ (Nat.two_pow_pos k)]
      rw [roundToInt_eq, hmantissa]
      have hpos := value_pos (e := e) hm
      cases s
      · rw [signFactor, neg_one_mul] at hvalue
        have hneg : n < 0 := by exact_mod_cast (show (n : ℚ) < 0 by linarith)
        show -(n.natAbs : Int) = n
        omega
      · rw [signFactor, one_mul] at hvalue
        have hpos : 0 < n := by exact_mod_cast (show (0 : ℚ) < n by linarith)
        show (n.natAbs : Int) = n
        omega
  show (Int8.ofIntClamp (x.unpack.toInt Int8.minValue.toInt Int8.maxValue.toInt)).toInt = n
  rw [hint]
  exact Int8.toInt_ofIntClamp h h'

end F32
end NnEngine
