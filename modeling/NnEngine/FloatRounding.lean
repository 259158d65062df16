import NnEngine.FloatOfInt

/-!
# The error of a rounding

Between a number and its truncated mantissa stands an accuracy; what is rounded with it is within half a last
place of the number (`roundWithAccuracy_spec`).  For a quotient this bounds the relative error (`div_spec`).
-/

namespace NnEngine
namespace FloatFormat

open Float.Model Float.Model.UnpackedFloat

variable {spec : Format} {s : Sign} {m : Nat} {e : Int} {x : ℚ} {acc : Accuracy} {em : ExtendedMantissa}

/-! ### Where a number lies above its truncated mantissa -/

/-- The mantissa is the number rounded down, and the accuracy tells where the number is in the gap above. -/
def Located (x : ℚ) (m : Nat) : Accuracy → Prop
  | .exact => x = m
  | .inexact .lt => m < x ∧ x < m + 1 / 2
  | .inexact .eq => x = m + 1 / 2
  | .inexact .gt => m + 1 / 2 < x ∧ x < m + 1

theorem Located.floor (h : Located x m acc) : (m : ℚ) ≤ x ∧ x < m + 1 := by
  rcases acc with _ | ⟨_ | _ | _⟩ <;> simp only [Located] at h <;> constructor <;> linarith

/-- Rounding goes to one of the ends of the gap, the one that is not farther. -/
theorem Located.rounded (h : Located x m acc) :
    |(acc.roundToNearestEven m : ℚ) - x| ≤ 1 / 2 ∧ m ≤ acc.roundToNearestEven m ∧ acc.roundToNearestEven m ≤ m + 1 := by
  rcases acc with _ | ⟨_ | _ | _⟩ <;> simp only [Located] at h <;> simp only [Accuracy.roundToNearestEven]
  · refine ⟨?_, le_refl m, Nat.le_succ m⟩
    rw [h, sub_self, abs_zero]
    norm_num
  · refine ⟨?_, le_refl m, Nat.le_succ m⟩
    rw [abs_le]
    constructor <;> linarith
  · have hbit := Nat.mod_two_eq_zero_or_one m
    refine ⟨?_, Nat.le_add_right m _, by omega⟩
    rw [h, abs_le]
    push_cast
    rcases hbit with hbit | hbit <;> rw [hbit] <;> constructor <;> norm_num
  · refine ⟨?_, Nat.le_succ m, le_refl _⟩
    rw [abs_le]
    push_cast
    constructor <;> linarith

/-- An extended mantissa of a number. -/
def Describes (em : ExtendedMantissa) (x : ℚ) : Prop := Located x em.mantissa em.accuracy

theorem describes_ofMantissaAndAccuracy (h : Located x m acc) :
    Describes (.ofMantissaAndAccuracy m acc) x := by
  rcases acc with _ | ⟨_ | _ | _⟩ <;> exact h

theorem shiftRightOne_even (h : Nat) (round sticky : Bool) :
    (ExtendedMantissa.mk (2 * h) round sticky).shiftRightOne = ⟨h, false, round || sticky⟩ := by
  simp [ExtendedMantissa.shiftRightOne]

theorem shiftRightOne_odd (h : Nat) (round sticky : Bool) :
    (ExtendedMantissa.mk (2 * h + 1) round sticky).shiftRightOne = ⟨h, true, round || sticky⟩ := by
  have hhalf : (2 * h + 1) / 2 = h := by omega
  simp [ExtendedMantissa.shiftRightOne, hhalf]

/-- The bit that is dropped halves the gap. -/
theorem Describes.shiftRightOne (hx : Describes em x) : Describes em.shiftRightOne (x / 2) := by
  obtain ⟨m, round, sticky⟩ := em
  obtain ⟨h, rfl | rfl⟩ := Nat.even_or_odd' m
  · rw [shiftRightOne_even]
    cases round <;> cases sticky <;> simp only [Describes, ExtendedMantissa.accuracy, Located, Bool.or_false,
      Bool.or_true] at hx ⊢ <;> push_cast at hx
    · linarith
    · constructor <;> linarith
    · constructor <;> linarith
    · constructor <;> linarith
  · rw [shiftRightOne_odd]
    cases round <;> cases sticky <;> simp only [Describes, ExtendedMantissa.accuracy, Located, Bool.or_false,
      Bool.or_true] at hx ⊢ <;> push_cast at hx
    · linarith
    · constructor <;> linarith
    · constructor <;> linarith
    · constructor <;> linarith

theorem Describes.shiftRight (h : Describes em x) (n : Nat) : Describes (em >>> n) (x / 2 ^ n) := by
  induction n with
  | zero =>
      rw [pow_zero, div_one]
      exact h
  | succ n ih =>
      rw [pow_succ, ← div_div]
      exact ih.shiftRightOne

theorem mantissa_shiftRight (em : ExtendedMantissa) (n : Nat) : (em >>> n).mantissa = em.mantissa / 2 ^ n := by
  induction n with
  | zero => simpa using show (em >>> 0).mantissa = em.mantissa from rfl
  | succ n ih =>
      have hstep : (em >>> (n + 1)).mantissa = (em >>> n).mantissa / 2 := rfl
      rw [hstep, ih, Nat.div_div_eq_div_mul, ← Nat.pow_succ]

/-! ### Rounding -/

/-- A number of the format, in canonical form but for an exponent that may be too large. -/
def IsRounded (spec : Format) (s : Sign) (q : ℚ) : UnpackedFloat → Prop
  | .zero s' => s' = s ∧ q = 0
  | .finite s' m e _ => s' = s ∧ value m e = q ∧ e = spec.targetExponent (totalExponent m e)
  | _ => False

theorem mantissaBits_ge (spec : Format) : 2 ≤ spec.mantissaBits := by
  have hpos := spec.hm
  unfold Format.mantissaBits
  omega

variable {t : Int} {r : Nat}

theorem roundWithAccuracy_eq (ht : t = spec.targetExponent (totalExponent m e)) (he : e ≤ t) :
    roundWithAccuracy spec s m e acc =
      finishRound spec s (ExtendedMantissa.ofMantissaAndAccuracy m acc >>> (t - e).toNat) t := by
  have hexp : e + ((t - e).toNat : Int) = t := by omega
  unfold roundWithAccuracy finishRound
  simp only [shiftToTargetExponent, shiftToExponent, ← ht, hexp]
  rfl

/-- The target exponent leaves at most as many bits as the format has, and not fewer unless it is the least. -/
theorem div_pow_target (ht : t = spec.targetExponent (totalExponent m e)) (he : e ≤ t) :
    m / 2 ^ (t - e).toNat < 2 ^ spec.mantissaBits ∧
      (t = spec.minExponent ∨ 2 ^ (spec.mantissaBits - 1) ≤ m / 2 ^ (t - e).toNat) := by
  have hbits := mantissaBits_ge spec
  have hpos := Nat.two_pow_pos (t - e).toNat
  rw [Format.targetExponent, totalExponent] at ht
  constructor
  · rw [Nat.div_lt_iff_lt_mul hpos, ← Nat.pow_add]
    exact Nat.lt_of_lt_of_le Nat.lt_log2_self (Nat.pow_le_pow_right Nat.two_pos (by omega))
  · rcases le_total (m.log2 + 1 + e - spec.mantissaBits) spec.minExponent with hmin | hmin
    · exact .inl (ht.trans (max_eq_right hmin))
    · right
      rw [max_eq_left hmin] at ht
      have hne : m ≠ 0 := by
        rintro rfl
        rw [Nat.log2_zero] at ht
        omega
      rw [Nat.le_div_iff_mul_le hpos, ← Nat.pow_add]
      exact le_trans (Nat.pow_le_pow_right Nat.two_pos (by omega)) (Nat.log2_self_le hne)

/-- A mantissa of the right size is kept; one that has grown to a power of two is halved. -/
theorem isRounded_finishRound (hr : em.roundedMantissa = r) (hle : r ≤ 2 ^ spec.mantissaBits)
    (hmin : spec.minExponent ≤ t) (hlow : t = spec.minExponent ∨ 2 ^ (spec.mantissaBits - 1) ≤ r) :
    IsRounded spec s (value r t) (finishRound spec s em t) := by
  have hbits := mantissaBits_ge spec
  rcases Nat.eq_zero_or_pos r with rfl | hpos
  · have hzero : finishRound spec s em t = .zero s := by
      unfold finishRound
      rw [dif_pos]
      simp only [shiftToTargetExponent, shiftToExponent, mantissa_shiftRight, hr]
      exact Nat.zero_div _
    rw [hzero]
    exact ⟨rfl, by simp [value]⟩
  rcases Nat.lt_or_eq_of_le hle with hlt | rfl
  · have hlog : r.log2 < spec.mantissaBits := (Nat.log2_lt hpos.ne').mpr hlt
    have htarget : t = spec.targetExponent (totalExponent r t) := by
      rw [Format.targetExponent, totalExponent]
      rcases hlow with rfl | hlow
      · omega
      · have hge : spec.mantissaBits - 1 ≤ r.log2 := (Nat.le_log2 hpos.ne').mpr hlow
        omega
    have hfinish := @finishRound_canonical spec s r 0 t em (by simpa using hr) hpos htarget
    rw [show t - ((0 : Nat) : Int) = t by omega] at hfinish
    rw [hfinish]
    exact ⟨rfl, rfl, htarget⟩
  · have hhalf : 0 < 2 ^ (spec.mantissaBits - 1) := Nat.two_pow_pos _
    have htwice : 2 ^ spec.mantissaBits = 2 ^ (spec.mantissaBits - 1) <<< 1 := by
      rw [Nat.shiftLeft_eq, Nat.pow_one, ← Nat.pow_succ]
      congr 1
      omega
    have htarget : t + 1 = spec.targetExponent (totalExponent (2 ^ (spec.mantissaBits - 1)) (t + 1)) := by
      rw [Format.targetExponent, totalExponent, Nat.log2_two_pow]
      omega
    have hfinish := @finishRound_canonical spec s _ 1 (t + 1) em (hr.trans htwice) hhalf htarget
    rw [show t + 1 - ((1 : Nat) : Int) = t by omega] at hfinish
    rw [hfinish]
    refine ⟨rfl, ?_, htarget⟩
    rw [value, value, htwice, Nat.shiftLeft_eq, zpow_add_one₀ two_ne_zero]
    push_cast
    ring

/-- What is rounded is within half a last place of the number, and not below its truncation. -/
theorem roundWithAccuracy_spec (hx : Located x m acc) (ht : t = spec.targetExponent (totalExponent m e)) (he : e ≤ t) :
    ∃ r : Nat, |(r : ℚ) - x / 2 ^ (t - e).toNat| ≤ 1 / 2 ∧ m / 2 ^ (t - e).toNat ≤ r ∧
      IsRounded spec s (value r t) (roundWithAccuracy spec s m e acc) := by
  have hdescribes := (describes_ofMantissaAndAccuracy hx).shiftRight (t - e).toNat
  obtain ⟨hnear, hfloor, hceil⟩ := Located.rounded hdescribes
  obtain ⟨hlt, hlow⟩ := div_pow_target ht he
  have hmantissa : (ExtendedMantissa.ofMantissaAndAccuracy m acc).mantissa = m := by
    rcases acc with _ | ⟨_ | _ | _⟩ <;> rfl
  rw [mantissa_shiftRight, hmantissa] at hfloor hceil
  have hmin : spec.minExponent ≤ t := by
    rw [ht, Format.targetExponent]
    exact le_max_right _ _
  refine ⟨_, hnear, by rwa [mantissa_shiftRight, hmantissa], ?_⟩
  rw [roundWithAccuracy_eq ht he]
  apply isRounded_finishRound rfl _ hmin
  · rcases hlow with hlow | hlow
    · exact .inl hlow
    · exact .inr (hlow.trans (by rwa [ExtendedMantissa.roundedMantissa, mantissa_shiftRight, hmantissa]))
  · rw [ExtendedMantissa.roundedMantissa, mantissa_shiftRight, hmantissa]
    omega

/-- How far rounding may go: half a last place, of the number itself or of the least exponent. -/
def roundingError (spec : Format) (q : ℚ) : ℚ := max (q / 2 ^ spec.mantissaBits) (2 ^ spec.minExponent / 2)

/-- Rounding stays close, and does not go below a power of two that has all bits. -/
structure IsNear (spec : Format) (x q : ℚ) : Prop where
  error : |q - x| ≤ roundingError spec x
  power : ∀ j, spec.minExponent + spec.mantissaBits - 1 ≤ j → 2 ^ j ≤ x → 2 ^ j ≤ q

theorem roundWithAccuracy_near (hx : Located x m acc) (he : e ≤ spec.targetExponent (totalExponent m e)) :
    ∃ q, IsRounded spec s q (roundWithAccuracy spec s m e acc) ∧ IsNear spec (x * 2 ^ e) q := by
  obtain ⟨r, hnear, hfloor, hrounded⟩ := roundWithAccuracy_spec (s := s) hx rfl he
  obtain ⟨-, hlow⟩ := div_pow_target rfl he
  have hbits := mantissaBits_ge spec
  obtain ⟨hge, hlt⟩ := hx.floor
  generalize spec.targetExponent (totalExponent m e) = t at *
  obtain ⟨k, hk⟩ := Int.eq_ofNat_of_zero_le (Int.sub_nonneg_of_le he)
  rw [hk, Int.toNat_natCast] at hnear hfloor hlow
  have ht : (0 : ℚ) < 2 ^ t := zpow_pos two_pos t
  have hpow : (0 : ℚ) < 2 ^ k := pow_pos two_pos k
  have hscale : x * 2 ^ e = x / 2 ^ k * 2 ^ t := by
    have hexp : t = e + (k : Int) := by omega
    rw [hexp, zpow_add₀ two_ne_zero, zpow_natCast]
    field_simp
  have hquot : ((m / 2 ^ k : Nat) : ℚ) ≤ x / 2 ^ k := by
    rw [le_div_iff₀ hpow]
    refine le_trans ?_ hge
    exact_mod_cast Nat.div_mul_le_self m (2 ^ k)
  have hrq : ((m / 2 ^ k : Nat) : ℚ) ≤ r := by exact_mod_cast hfloor
  refine ⟨value r t, hrounded, ?_, ?_⟩
  · have hhalf : |value r t - x * 2 ^ e| ≤ 2 ^ t / 2 := by
      rw [hscale, value, ← sub_mul, abs_mul, abs_of_pos ht]
      have hmul := mul_le_mul_of_nonneg_right hnear ht.le
      linarith
    apply hhalf.trans
    rcases hlow with rfl | hlow
    · exact le_max_right _ _
    · apply le_max_of_le_left
      have hall : ((2 ^ (spec.mantissaBits - 1) : Nat) : ℚ) ≤ x / 2 ^ k := le_trans (by exact_mod_cast hlow) hquot
      have htwice : (2 : ℚ) ^ spec.mantissaBits = 2 ^ (spec.mantissaBits - 1) * 2 := by
        rw [← pow_succ]
        congr 1
        omega
      push_cast at hall
      have hmul := mul_le_mul_of_nonneg_right hall ht.le
      rw [hscale, le_div_iff₀ (by positivity), htwice]
      linarith
  · intro j hj hle
    rcases le_or_gt t j with htj | htj
    · obtain ⟨n, hn⟩ := Int.eq_ofNat_of_zero_le (Int.sub_nonneg_of_le htj)
      have hsplit : (2 : ℚ) ^ j = 2 ^ n * 2 ^ t := by
        rw [← zpow_natCast, ← zpow_add₀ two_ne_zero]
        congr 1
        omega
      rw [hscale, hsplit] at hle
      have hcancel := le_of_mul_le_mul_right hle ht
      rw [le_div_iff₀ hpow] at hcancel
      have hnat : 2 ^ n * 2 ^ k < m + 1 := by exact_mod_cast lt_of_le_of_lt hcancel hlt
      have hdiv : 2 ^ n ≤ m / 2 ^ k := (Nat.le_div_iff_mul_le (Nat.two_pow_pos k)).mpr (by omega)
      rw [hsplit, value]
      apply mul_le_mul_of_nonneg_right _ ht.le
      exact_mod_cast hdiv.trans hfloor
    · have hall : 2 ^ (spec.mantissaBits - 1) ≤ r := by
        rcases hlow with hlow | hlow
        · omega
        · exact hlow.trans hfloor
      have hone : (1 : ℚ) ≤ r := by exact_mod_cast le_trans Nat.one_le_two_pow hall
      calc (2 : ℚ) ^ j ≤ 2 ^ t := zpow_le_zpow_right₀ one_le_two htj.le
        _ ≤ r * 2 ^ t := le_mul_of_one_le_left ht.le hone

/-! ### Division -/

theorem located_div (num : Nat) {den : Nat} (hden : 0 < den) :
    Located ((num : ℚ) / den) (num / den) (accuracyOfFraction (num % den) den) := by
  have hpos : (0 : ℚ) < den := by exact_mod_cast hden
  have hsplit : (num : ℚ) / den = (num / den : Nat) + ((num % den : Nat) : ℚ) / den := by
    have hcast : (num : ℚ) = den * (num / den : Nat) + (num % den : Nat) := by exact_mod_cast (Nat.div_add_mod num den).symm
    rw [hcast]
    field_simp
  have hlt : ((num % den : Nat) : ℚ) < den := by exact_mod_cast Nat.mod_lt num hden
  rw [hsplit]
  generalize num / den = m
  generalize num % den = r at hlt ⊢
  unfold accuracyOfFraction
  split
  · rename_i h
    simp [Located, h]
  · rename_i h
    have hr : (0 : ℚ) < r := by exact_mod_cast Nat.pos_of_ne_zero h
    have hfrac : 0 < (r : ℚ) / den := div_pos hr hpos
    rcases lt_trichotomy (2 * r) den with hcmp | hcmp | hcmp
    · have hhalf : (r : ℚ) / den < 1 / 2 := by
        rw [div_lt_div_iff₀ hpos two_pos]
        exact_mod_cast (by omega : r * 2 < 1 * den)
      rw [Nat.compare_eq_lt.mpr hcmp]
      constructor <;> linarith
    · have hhalf : (r : ℚ) / den = 1 / 2 := by
        rw [div_eq_div_iff hpos.ne' two_ne_zero]
        exact_mod_cast (by omega : r * 2 = 1 * den)
      rw [Nat.compare_eq_eq.mpr hcmp]
      show (m : ℚ) + r / den = m + 1 / 2
      rw [hhalf]
    · have hhalf : 1 / 2 < (r : ℚ) / den := by
        rw [div_lt_div_iff₀ two_pos hpos]
        exact_mod_cast (by omega : 1 * den < r * 2)
      have hone : (r : ℚ) / den < 1 := (div_lt_one hpos).mpr hlt
      rw [Nat.compare_eq_gt.mpr hcmp]
      constructor <;> linarith

/-- A quotient is rounded once. -/
theorem div_spec {s₁ s₂ : Sign} {m₁ m₂ : Nat} {e₁ e₂ : Int} (h₁ : 0 < m₁) (h₂ : 0 < m₂) :
    ∃ q, IsRounded spec (s₁ / s₂) q (UnpackedFloat.div spec (.finite s₁ m₁ e₁ h₁) (.finite s₂ m₂ e₂ h₂)) ∧
      IsNear spec (value m₁ e₁ / value m₂ e₂) q := by
  have hpos : (0 : ℚ) < m₂ := by exact_mod_cast h₂
  simp only [UnpackedFloat.div, divCore]
  generalize hd : min (e₁ - e₂) (spec.targetExponent (totalExponent m₁ e₁ - totalExponent m₂ e₂)) = d
  obtain ⟨k, hk⟩ := Int.eq_ofNat_of_zero_le (show 0 ≤ e₁ - e₂ - d by omega)
  rw [hk, Int.toNat_natCast]
  have hexact : ((m₁ <<< k : Nat) : ℚ) / m₂ * 2 ^ d = value m₁ e₁ / value m₂ e₂ := by
    have hexp : e₁ = k + d + e₂ := by omega
    rw [value, value, hexp, Nat.shiftLeft_eq, zpow_add₀ two_ne_zero, zpow_add₀ two_ne_zero, zpow_natCast]
    push_cast
    field_simp
  have hlog : (m₁ <<< k).log2 = m₁.log2 + k := log2_shiftLeft h₁ k
  have hquot : (m₁ <<< k).log2 ≤ (m₁ <<< k / m₂).log2 + 1 + m₂.log2 := by
    have hshift : 0 < m₁ <<< k := by
      rw [Nat.shiftLeft_eq]
      positivity
    refine Nat.lt_succ_iff.mp ((Nat.log2_lt hshift.ne').mpr ?_)
    have hlt : m₁ <<< k < m₂ * (m₁ <<< k / m₂ + 1) := Nat.lt_mul_div_succ _ h₂
    have hbelow : m₂ * (m₁ <<< k / m₂ + 1) ≤ 2 ^ (m₂.log2 + 1) * 2 ^ ((m₁ <<< k / m₂).log2 + 1) :=
      Nat.mul_le_mul Nat.lt_log2_self.le Nat.lt_log2_self
    rw [← Nat.pow_add] at hbelow
    refine lt_of_lt_of_le hlt (hbelow.trans_eq ?_)
    congr 1
    omega
  have htarget : d ≤ spec.targetExponent (totalExponent (m₁ <<< k / m₂) d) := by
    rw [Format.targetExponent, totalExponent, totalExponent] at hd
    rw [Format.targetExponent, totalExponent]
    omega
  have hnear := roundWithAccuracy_near (s := s₁ / s₂) (located_div (m₁ <<< k) h₂) htarget
  rwa [hexact] at hnear

end FloatFormat
end NnEngine
