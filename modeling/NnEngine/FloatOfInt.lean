import NnEngine.FloatFormat

/-!
# Integers as floating-point numbers

A rounded number is told by its value: the rounding depends on the value only (`round_congr`), and a number in
canonical form is determined by it (`canonical_unique`).  An integer keeps its first bits (`significant`), so
that rounding it twice is arithmetic on integers (`convert_ofInt_eq_iff`).
-/

namespace NnEngine
namespace FloatFormat

open Float.Model Float.Model.UnpackedFloat

variable {spec spec' : Format} {s : Sign} {m m' c p : Nat} {e e' : Int}

/-! ### Dropping bits -/

/-- `m / 2 ^ c`, rounded to the nearest integer, and to an even one from the middle. -/
def nearestEven (m c : Nat) : Nat :=
  m / 2 ^ c + if m % 2 ^ c * 2 < 2 ^ c ∨ m % 2 ^ c * 2 = 2 ^ c ∧ m / 2 ^ c % 2 = 0 then 0 else 1

/-- What is left of a mantissa and what has been shifted out of it. -/
theorem shiftRight_succ (m c : Nat) : (ExtendedMantissa.mk m false false) >>> (c + 1) =
    ⟨m / 2 ^ (c + 1), m / 2 ^ c % 2 != 0, m % 2 ^ c != 0⟩ := by
  induction c with
  | zero =>
      show (ExtendedMantissa.mk m false false).shiftRightOne = _
      simp [ExtendedMantissa.shiftRightOne, Nat.mod_one]
  | succ c ih =>
      show ((ExtendedMantissa.mk m false false) >>> (c + 1)).shiftRightOne = _
      rw [ih, ExtendedMantissa.shiftRightOne, Nat.div_div_eq_div_mul, ← Nat.pow_succ]
      congr 1
      have hsplit : m % 2 ^ (c + 1) = m % 2 ^ c + 2 ^ c * (m / 2 ^ c % 2) := Nat.mod_mul
      have hpow := Nat.two_pow_pos c
      rw [Bool.eq_iff_iff]
      simp only [Bool.or_eq_true, bne_iff_ne, ne_eq, hsplit, Nat.add_eq_zero_iff, Nat.mul_eq_zero]
      omega

theorem roundedMantissa_shiftRight (m c : Nat) :
    ((ExtendedMantissa.mk m false false) >>> c).roundedMantissa = nearestEven m c := by
  cases c with
  | zero =>
      show m = _
      simp [nearestEven, Nat.mod_one]
  | succ c =>
      have hsplit : m % 2 ^ (c + 1) = m % 2 ^ c + 2 ^ c * (m / 2 ^ c % 2) := Nat.mod_mul
      have hlow : m % 2 ^ c < 2 ^ c := Nat.mod_lt _ (Nat.two_pow_pos c)
      have hpow : 2 ^ (c + 1) = 2 ^ c * 2 := Nat.pow_succ 2 c
      rw [shiftRight_succ, ExtendedMantissa.roundedMantissa, nearestEven, hsplit]
      rcases Nat.mod_two_eq_zero_or_one (m / 2 ^ c) with hround | hround <;>
        by_cases hsticky : m % 2 ^ c = 0
      · simp [ExtendedMantissa.accuracy, Accuracy.roundToNearestEven, hround, hsticky]
      · have hbit : (m % 2 ^ c != 0) = true := by simpa using hsticky
        rw [if_pos (.inl (by rw [hround]; omega)), hround, hbit]
        rfl
      · have htie : (m % 2 ^ c + 2 ^ c * (m / 2 ^ c % 2)) * 2 = 2 ^ (c + 1) := by
          rw [hround, hsticky]
          omega
        simp only [htie, Nat.lt_irrefl, false_or, true_and]
        simp [ExtendedMantissa.accuracy, Accuracy.roundToNearestEven, hround, hsticky]
        split <;> omega
      · have hbit : (m % 2 ^ c != 0) = true := by simpa using hsticky
        rw [if_neg (by rw [hround]; omega), hround, hbit]
        rfl

/-! ### Rounding is about the value -/

/-- The mantissa at an exponent, with zeros appended or bits shifted out. -/
def mantissaAt (m : Nat) (e d : Int) : ExtendedMantissa :=
  if d ≤ e then ⟨m <<< (e - d).toNat, false, false⟩ else ExtendedMantissa.mk m false false >>> (d - e).toNat

theorem mantissaAt_shiftLeft (m : Nat) (e d : Int) (k : Nat) :
    mantissaAt (m <<< k) (e - k) d = mantissaAt m e d := by
  unfold mantissaAt
  by_cases hle : d ≤ e
  · rw [if_pos hle]
    split
    · rw [← Nat.shiftLeft_add]
      congr 2
      omega
    · -- some of the appended zeros go away again
      have hk : k = (e - d).toNat + (d - (e - k)).toNat := by omega
      conv_lhs => rw [hk, Nat.shiftLeft_add]
      rw [← hk]
      exact shiftRight_shiftLeft _ _
  · obtain ⟨c, hc⟩ : ∃ c, (d - e).toNat = c + 1 := ⟨(d - e).toNat - 1, by omega⟩
    have hck : (d - (e - k)).toNat = c + k + 1 := by omega
    have hpow : 2 ^ (c + k + 1) = 2 ^ (c + 1) * 2 ^ k := by ring
    have hpow' : 2 ^ (c + k) = 2 ^ c * 2 ^ k := Nat.pow_add 2 c k
    have hpos := Nat.two_pow_pos k
    rw [if_neg hle, if_neg (by omega), hc, hck, shiftRight_succ, shiftRight_succ, Nat.shiftLeft_eq, hpow, hpow',
      Nat.mul_div_mul_right _ _ hpos, Nat.mul_div_mul_right _ _ hpos, Nat.mul_mod_mul_right]
    congr 1
    rw [Bool.eq_iff_iff, bne_iff_ne, bne_iff_ne, ne_eq, Nat.mul_eq_zero]
    simp

/-- Round a mantissa that is at its exponent, and shift once more if it has grown. -/
def finishRound (spec : Format) (s : Sign) (em : ExtendedMantissa) (d : Int) : UnpackedFloat :=
  let final := shiftToTargetExponent spec em.roundedMantissa d .exact
  if h : final.1.mantissa = 0 then .zero s else .finite s final.1.mantissa final.2 (Nat.pos_of_ne_zero h)

/-- Bits are appended and shifted out to bring a mantissa to an exponent. -/
theorem shiftToExponent_decrease (m : Nat) (e d : Int) :
    shiftToExponent (m <<< (e - d).toNat) (e - (e - d).toNat) .exact d = (mantissaAt m e d, d) := by
  rw [shiftToExponent, mantissaAt]
  by_cases hle : d ≤ e
  · have hzero : (d - (e - (e - d).toNat)).toNat = 0 := by omega
    rw [if_pos hle, hzero]
    refine Prod.ext rfl ?_
    show e - (e - d).toNat + (0 : Nat) = d
    omega
  · have hzero : (e - d).toNat = 0 := by omega
    have hsame : (d - (e - (0 : Nat))).toNat = (d - e).toNat := by omega
    rw [if_neg hle, hzero, hsame]
    refine Prod.ext rfl ?_
    show e - (0 : Nat) + ((d - e).toNat : Int) = d
    omega

theorem round_eq_finishRound (hm : 0 < m) : round spec s m e =
    finishRound spec s (mantissaAt m e (spec.targetExponent (totalExponent m e)))
      (spec.targetExponent (totalExponent m e)) := by
  have htarget := totalExponent_shiftLeft hm e (e - spec.targetExponent (totalExponent m e)).toNat
  generalize hd : spec.targetExponent (totalExponent m e) = d at htarget ⊢
  have hshift : shiftToTargetExponent spec (m <<< (e - d).toNat) (e - (e - d).toNat) .exact = (mantissaAt m e d, d) := by
    rw [shiftToTargetExponent, htarget, hd, shiftToExponent_decrease]
  unfold UnpackedFloat.round
  rw [hd]
  show roundWithAccuracy spec s (m <<< (e - d).toNat) (e - (e - d).toNat) .exact = _
  unfold roundWithAccuracy
  rw [hshift]
  rfl

theorem round_shiftLeft_left (hm : 0 < m) (k : Nat) : round spec s (m <<< k) (e - k) = round spec s m e := by
  have hpos : 0 < m <<< k := by
    rw [Nat.shiftLeft_eq]
    positivity
  rw [round_eq_finishRound hpos, round_eq_finishRound hm, totalExponent_shiftLeft hm, mantissaAt_shiftLeft]

/-- The number `m * 2 ^ e`. -/
def value (m : Nat) (e : Int) : ℚ := m * 2 ^ e

theorem exists_shift_of_value (h : value m e = value m' e') (hle : e ≤ e') : ∃ k : Nat, m = m' <<< k ∧ e = e' - k := by
  obtain ⟨k, hk⟩ := Int.eq_ofNat_of_zero_le (Int.sub_nonneg_of_le hle)
  refine ⟨k, ?_, by omega⟩
  have hpow : (2 : ℚ) ^ e' = 2 ^ k * 2 ^ e := by
    rw [← zpow_natCast, ← zpow_add₀ two_ne_zero]
    congr 1
    omega
  rw [value, value, hpow, ← mul_assoc] at h
  have hcast := mul_right_cancel₀ (zpow_ne_zero e two_ne_zero) h
  rw [Nat.shiftLeft_eq]
  exact_mod_cast hcast

/-- The rounding of a number depends on its value. -/
theorem round_congr (hm : 0 < m) (hm' : 0 < m') (h : value m e = value m' e') :
    round spec s m e = round spec s m' e' := by
  rcases le_total e e' with hle | hle
  · obtain ⟨k, rfl, rfl⟩ := exists_shift_of_value h hle
    exact round_shiftLeft_left hm' k
  · obtain ⟨k, rfl, rfl⟩ := exists_shift_of_value h.symm hle
    exact (round_shiftLeft_left hm k).symm

/-- A number in canonical form is determined by its value. -/
theorem canonical_unique (hm : 0 < m) (hm' : 0 < m') (he : e = spec.targetExponent (totalExponent m e))
    (he' : e' = spec.targetExponent (totalExponent m' e')) (h : value m e = value m' e') : m = m' ∧ e = e' := by
  have hcase : ∀ {m m' : Nat} {e e' : Int}, 0 < m' → e = spec.targetExponent (totalExponent m e) →
      e' = spec.targetExponent (totalExponent m' e') → value m e = value m' e' → e ≤ e' → m = m' ∧ e = e' := by
    intro m m' e e' hm' he he' h hle
    obtain ⟨k, rfl, rfl⟩ := exists_shift_of_value h hle
    rw [totalExponent_shiftLeft hm', ← he'] at he
    obtain rfl : k = 0 := by omega
    exact ⟨rfl, by simp⟩
  rcases le_total e e' with hle | hle
  · exact hcase hm' he he' h hle
  · obtain ⟨hmant, hexp⟩ := hcase hm he' he h.symm hle
    exact ⟨hmant.symm, hexp.symm⟩

/-! ### Integers -/

/-- An integer with its first `p` bits, the others rounded away. -/
def significant (p m : Nat) : Nat := nearestEven m (m.log2 + 1 - p) * 2 ^ (m.log2 + 1 - p)

@[simp] theorem significant_zero (p : Nat) : significant p 0 = 0 := by
  simp [significant, nearestEven]

theorem significant_of_le (h : m.log2 + 1 ≤ p) : significant p m = m := by
  have hzero : m.log2 + 1 - p = 0 := by omega
  simp [significant, nearestEven, hzero, Nat.mod_one]

theorem nearestEven_mem (hm : 0 < m) (hp : 0 < p) (h : p ≤ m.log2 + 1) :
    2 ^ (p - 1) ≤ nearestEven m (m.log2 + 1 - p) ∧ nearestEven m (m.log2 + 1 - p) ≤ 2 ^ p := by
  have hle := Nat.log2_self_le hm.ne'
  have hlt := (Nat.log2_lt hm.ne').mp (Nat.lt_succ_self _)
  have hpos := Nat.two_pow_pos (m.log2 + 1 - p)
  have hlow : 2 ^ (p - 1) ≤ m / 2 ^ (m.log2 + 1 - p) := by
    rw [Nat.le_div_iff_mul_le hpos, ← Nat.pow_add]
    refine le_trans (Nat.pow_le_pow_right Nat.two_pos ?_) hle
    omega
  have hhigh : m / 2 ^ (m.log2 + 1 - p) < 2 ^ p := by
    rw [Nat.div_lt_iff_lt_mul hpos, ← Nat.pow_add]
    refine hlt.trans_eq ?_
    congr 1
    omega
  unfold nearestEven
  split <;> omega

theorem significant_pos (hm : 0 < m) (hp : 0 < p) : 0 < significant p m := by
  rcases le_total (m.log2 + 1) p with hle | hle
  · rwa [significant_of_le hle]
  · have hq := (nearestEven_mem hm hp hle).1
    have hpow := Nat.two_pow_pos (p - 1)
    exact Nat.mul_pos (by omega) (Nat.two_pow_pos _)

theorem log2_of_mem {q : Nat} (hq : 2 ^ p ≤ q) (hq' : q < 2 ^ (p + 1)) : q.log2 = p := by
  have hpos := Nat.two_pow_pos p
  rw [Nat.log2_eq_iff (by omega)]
  exact ⟨hq, hq'⟩

theorem finishRound_canonical {em : ExtendedMantissa} (hem : em.roundedMantissa = m <<< c) (hm : 0 < m)
    (he : e = spec.targetExponent (totalExponent m e)) : finishRound spec s em (e - c) = .finite s m e hm := by
  have hshift : shiftToTargetExponent spec em.roundedMantissa (e - c) .exact =
      (ExtendedMantissa.mk m false false, e) := by
    rw [hem]
    exact shiftToTargetExponent_shiftLeft hm he
  unfold finishRound
  simp only [hshift]
  exact dif_neg hm.ne'

/-- A rounded integer in canonical form. -/
theorem round_int (hspec : spec.minExponent ≤ 1 - spec.mantissaBits) (hm : 0 < m) :
    ∃ M E, ∃ hM : 0 < M, round spec s m 0 = .finite s M E hM ∧ E = spec.targetExponent (totalExponent M E) ∧
      value M E = significant spec.mantissaBits m ∧ E ≤ m.log2 + 2 - spec.mantissaBits := by
  have hp : 0 < spec.mantissaBits := Nat.lt_of_lt_of_le Nat.one_pos (Nat.le_add_right 1 _)
  have htotal : totalExponent m 0 = m.log2 + 1 := by rw [totalExponent, Int.add_zero]
  have htarget : spec.targetExponent (totalExponent m 0) = m.log2 + 1 - spec.mantissaBits := by
    rw [Format.targetExponent, htotal]
    omega
  rw [round_eq_finishRound hm, htarget]
  rcases le_or_gt (m.log2 + 1) spec.mantissaBits with hle | hlt
  · obtain ⟨k, hk⟩ := Nat.exists_eq_add_of_le hle
    have hpos : 0 < m <<< k := by
      rw [Nat.shiftLeft_eq]
      positivity
    have hexp : (m.log2 : Int) + 1 - spec.mantissaBits = 0 - k := by omega
    have hcanonical : (0 : Int) - k = spec.targetExponent (totalExponent (m <<< k) (0 - k)) := by
      rw [totalExponent_shiftLeft hm, htarget, hexp]
    refine ⟨m <<< k, 0 - k, hpos, ?_, hcanonical, ?_, by omega⟩
    · have hat : (mantissaAt m 0 (0 - k)).roundedMantissa = m <<< k <<< 0 := by
        rw [mantissaAt, if_pos (by omega)]
        show m <<< (0 - (0 - (k : Int))).toNat = m <<< k
        congr 1
        omega
      have hfinish := finishRound_canonical (s := s) hat hpos hcanonical
      rw [hexp]
      simpa using hfinish
    · rw [significant_of_le hle, value, Nat.shiftLeft_eq, zero_sub, zpow_neg, zpow_natCast]
      push_cast
      field_simp
  · obtain ⟨c, hc⟩ : ∃ c : Nat, m.log2 + 1 = spec.mantissaBits + c := Nat.exists_eq_add_of_le hlt.le
    have hcut : m.log2 + 1 - spec.mantissaBits = c := by omega
    have hexp : (m.log2 : Int) + 1 - spec.mantissaBits = c := by omega
    obtain ⟨hlow, hhigh⟩ := nearestEven_mem hm hp hlt.le
    rw [hcut] at hlow hhigh
    have hat : (mantissaAt m 0 c).roundedMantissa = nearestEven m c := by
      rw [mantissaAt, if_neg (by omega), Int.sub_zero, Int.toNat_natCast, roundedMantissa_shiftRight]
    rw [significant, hcut, hexp]
    rcases Nat.lt_or_ge (nearestEven m c) (2 ^ spec.mantissaBits) with hfits | hgrown
    · have hpos : 0 < nearestEven m c := lt_of_lt_of_le (Nat.two_pow_pos _) hlow
      have hlog : (nearestEven m c).log2 = spec.mantissaBits - 1 :=
        log2_of_mem hlow (by rwa [Nat.sub_add_cancel hp])
      have hcanonical : (c : Int) = spec.targetExponent (totalExponent (nearestEven m c) c) := by
        rw [Format.targetExponent, totalExponent, hlog]
        omega
      refine ⟨nearestEven m c, c, hpos, ?_, hcanonical, ?_, by omega⟩
      · have hat' : (mantissaAt m 0 c).roundedMantissa = nearestEven m c <<< 0 := hat
        have hfinish := finishRound_canonical (s := s) hat' hpos hcanonical
        simpa using hfinish
      · rw [value, zpow_natCast]
        push_cast
        rfl
    · -- the mantissa has grown to the next power of two
      have hq : nearestEven m c = 2 ^ (spec.mantissaBits - 1) <<< 1 := by
        rw [Nat.shiftLeft_eq, ← Nat.pow_add, Nat.sub_add_cancel hp]
        exact le_antisymm hhigh hgrown
      have hpos := Nat.two_pow_pos (spec.mantissaBits - 1)
      have hcanonical : (c : Int) + 1 =
          spec.targetExponent (totalExponent (2 ^ (spec.mantissaBits - 1)) (c + 1)) := by
        rw [Format.targetExponent, totalExponent, Nat.log2_two_pow]
        omega
      refine ⟨2 ^ (spec.mantissaBits - 1), c + 1, hpos, ?_, hcanonical, ?_, by omega⟩
      · have hfinish := finishRound_canonical (s := s) (c := 1) (hat.trans hq) hpos hcanonical
        rwa [Nat.cast_one, Int.add_sub_cancel] at hfinish
      · rw [value, hq, Nat.shiftLeft_eq, zpow_add₀ two_ne_zero, zpow_natCast]
        push_cast
        ring

theorem significant_le (hm : 0 < m) (hp : 0 < p) : significant p m ≤ 2 ^ (m.log2 + 1) := by
  rcases le_total (m.log2 + 1) p with hle | hle
  · rw [significant_of_le hle]
    exact ((Nat.log2_lt hm.ne').mp (Nat.lt_succ_self _)).le
  · refine (Nat.mul_le_mul_right _ (nearestEven_mem hm hp hle).2).trans_eq ?_
    rw [← Nat.pow_add]
    congr 1
    omega

/-- An integer that has gone through another format is the integer with the bits of that format. -/
theorem convert_round (hspec' : spec'.minExponent ≤ 1 - spec'.mantissaBits) (hm : 0 < m) :
    convert spec (round spec' s m 0) = round spec s (significant spec'.mantissaBits m) 0 := by
  have hp' : 0 < spec'.mantissaBits := Nat.lt_of_lt_of_le Nat.one_pos (Nat.le_add_right 1 _)
  obtain ⟨M', E', hM', hround', -, hvalue', -⟩ := round_int (s := s) hspec' hm
  rw [hround']
  refine round_congr hM' (significant_pos hm hp') ?_
  rw [hvalue', value, zpow_zero, mul_one]

/-- Rounding an integer to two formats, one after the other. -/
theorem convert_round_eq_iff (hspec : spec.minExponent ≤ 1 - spec.mantissaBits)
    (hspec' : spec'.minExponent ≤ 1 - spec'.mantissaBits) (hm : 0 < m) :
    convert spec (round spec' s m 0) = round spec s m 0 ↔
      significant spec.mantissaBits (significant spec'.mantissaBits m) = significant spec.mantissaBits m := by
  have hp' : 0 < spec'.mantissaBits := Nat.lt_of_lt_of_le Nat.one_pos (Nat.le_add_right 1 _)
  have hpos := significant_pos hm hp'
  obtain ⟨M, E, hM, hround, hcanonical, hvalue, -⟩ := round_int (s := s) hspec hm
  obtain ⟨N, F, hN, hround₂, hcanonical₂, hvalue₂, -⟩ := round_int (s := s) hspec hpos
  rw [convert_round hspec' hm, hround, hround₂, finite.injEq]
  constructor
  · rintro ⟨-, rfl, rfl⟩
    exact_mod_cast hvalue₂.symm.trans hvalue
  · intro h
    have hsame : value N F = value M E := by rw [hvalue₂, hvalue, h]
    exact ⟨rfl, canonical_unique hN hM hcanonical₂ hcanonical hsame⟩

theorem ofInt_eq (spec : Format) (n : Int) : UnpackedFloat.ofInt spec n =
    if n = 0 then .zero .positive
    else round spec (if n < 0 then .negative else .positive) n.natAbs 0 := by
  rcases lt_trichotomy n 0 with hlt | rfl | hgt
  · unfold UnpackedFloat.ofInt UnpackedFloat.normalize
    rw [if_neg hlt.ne, if_pos hlt, compare_lt_iff_lt.mpr hlt]
    show round spec .negative (-n).toNat 0 = _
    congr 1
    omega
  · rfl
  · unfold UnpackedFloat.ofInt UnpackedFloat.normalize
    rw [if_neg hgt.ne', if_neg hgt.not_gt, compare_gt_iff_gt.mpr hgt]
    show round spec .positive n.toNat 0 = _
    congr 1
    omega

theorem convert_ofInt_eq_iff (hspec : spec.minExponent ≤ 1 - spec.mantissaBits)
    (hspec' : spec'.minExponent ≤ 1 - spec'.mantissaBits) (n : Int) :
    convert spec (UnpackedFloat.ofInt spec' n) = UnpackedFloat.ofInt spec n ↔
      significant spec.mantissaBits (significant spec'.mantissaBits n.natAbs) =
        significant spec.mantissaBits n.natAbs := by
  rw [ofInt_eq, ofInt_eq]
  by_cases hzero : n = 0
  · rw [if_pos hzero, if_pos hzero, hzero]
    simp [convert]
  · rw [if_neg hzero, if_neg hzero]
    exact convert_round_eq_iff hspec hspec' (Int.natAbs_pos.mpr hzero)

theorem convert_ofInt (hspec' : spec'.minExponent ≤ 1 - spec'.mantissaBits) (n : Int) :
    convert spec (UnpackedFloat.ofInt spec' n) =
      UnpackedFloat.ofInt spec (n.sign * significant spec'.mantissaBits n.natAbs) := by
  have hp' : 0 < spec'.mantissaBits := Nat.lt_of_lt_of_le Nat.one_pos (Nat.le_add_right 1 _)
  rcases eq_or_ne n 0 with rfl | hne
  · simp [ofInt_eq, convert]
  · have hpos := significant_pos (Int.natAbs_pos.mpr hne) hp'
    rw [ofInt_eq, if_neg hne, convert_round hspec' (Int.natAbs_pos.mpr hne), ofInt_eq]
    rcases lt_or_gt_of_ne hne with hlt | hgt
    · rw [Int.sign_eq_neg_one_of_neg hlt, if_pos hlt, if_neg (by omega), if_pos (by omega)]
      congr 1
      omega
    · rw [Int.sign_eq_one_of_pos hgt, if_neg hgt.not_gt, if_neg (by omega), if_neg (by omega)]
      congr 1
      omega

theorem canonical_ofInt (hspec : spec.minExponent ≤ 1 - spec.mantissaBits) {n : Int}
    (hfits : (n.natAbs.log2 : Int) + 2 + spec.exponentBias < 2 ^ spec.exponentBits) :
    Canonical spec (UnpackedFloat.ofInt spec n) := by
  rw [ofInt_eq]
  split
  · trivial
  · rename_i hzero
    obtain ⟨M, E, hM, hround, hcanonical, -, hle⟩ := round_int hspec (Int.natAbs_pos.mpr hzero)
    have hmb : spec.mantissaBits = 1 + spec.mantissaBitsWithoutImplicit := rfl
    rw [hround]
    refine ⟨hcanonical, ?_⟩
    omega

/-! ### The integer part -/

/-- A number without what stands after the point, if it is finite. -/
def integerPart : UnpackedFloat → Option Int
  | .zero _ => some 0
  | .finite s m e _ => some (roundToInt s m e)
  | _ => none

theorem roundToInt_eq (s : Sign) (m : Nat) (e : Int) : roundToInt s m e = s.apply (mantissaAt m e 0).mantissa := by
  have hshift := shiftToExponent_decrease m e 0
  unfold roundToInt decreaseExponent
  simp only [hshift]

/-- The integer part does not change in a wider format. -/
theorem integerPart_convert (hw : Narrower spec spec') {x : UnpackedFloat} (hx : Canonical spec x) :
    integerPart (convert spec' x) = integerPart x := by
  cases x with
  | finite s m e hm =>
      obtain ⟨k, hmk, hround, -⟩ := round_wider (s := s) hw hm hx.1
      show integerPart (round spec' s m e) = _
      rw [hround, integerPart, integerPart, roundToInt_eq, roundToInt_eq, mantissaAt_shiftLeft]
  | _ => rfl

end FloatFormat
end NnEngine
