import Mathlib.Tactic

/-!
# Strided axes

The offsets of the elements of an array whose axes have any strides, the innermost axis first, and when
the axes can be regrouped to other extents.
-/

namespace NnEngine
namespace Strided

/-- The offset of the element with this row-major number: an axis is its extent and its stride. -/
def offset : List (Nat × Nat) → Nat → Nat
  | [], _ => 0
  | (d, s) :: axes, n => n % d * s + offset axes (n / d)

/-- The number of elements. -/
def size (axes : List (Nat × Nat)) : Nat := (axes.map Prod.fst).prod

@[simp]
theorem size_nil : size [] = 1 := rfl

@[simp]
theorem size_cons (d s : Nat) (axes : List (Nat × Nat)) : size ((d, s) :: axes) = d * size axes := List.prod_cons

theorem offset_zero (axes : List (Nat × Nat)) : offset axes 0 = 0 := by
  induction axes with
  | nil => rfl
  | cons a axes ih => rw [offset, Nat.zero_mod, Nat.zero_mul, Nat.zero_div, ih]

/-- The innermost axis. -/
theorem offset_cons_of_lt {d n : Nat} (s : Nat) (axes : List (Nat × Nat)) (h : n < d) :
    offset ((d, s) :: axes) n = n * s := by
  rw [offset, Nat.mod_eq_of_lt h, Nat.div_eq_of_lt h, offset_zero, Nat.add_zero]

/-- The other axes. -/
theorem offset_cons_mul {d : Nat} (s : Nat) (axes : List (Nat × Nat)) (hd : 0 < d) (n : Nat) :
    offset ((d, s) :: axes) (d * n) = offset axes n := by
  rw [offset, Nat.mul_mod_right, Nat.zero_mul, Nat.zero_add, Nat.mul_div_cancel_left n hd]

/-- Two axes without a gap are one axis. -/
theorem offset_merge (a b s : Nat) (axes : List (Nat × Nat)) (n : Nat) :
    offset ((a, s) :: (b, s * a) :: axes) n = offset ((a * b, s) :: axes) n := by
  rw [offset, offset, offset, Nat.mod_mul, Nat.div_div_eq_div_mul]
  ring

/-- An axis of one element is no axis. -/
theorem offset_one (s : Nat) (axes : List (Nat × Nat)) (n : Nat) :
    offset ((1, s) :: axes) n = offset axes n := by
  rw [offset, Nat.mod_one, Nat.zero_mul, Nat.zero_add, Nat.div_one]

theorem offset_filter (axes : List (Nat × Nat)) (n : Nat) :
    offset (axes.filter fun a => a.1 ≠ 1) n = offset axes n := by
  induction axes generalizing n with
  | nil => rfl
  | cons a axes ih =>
      obtain ⟨d, s⟩ := a
      by_cases hd : d = 1
      · subst hd
        rw [List.filter_cons_of_neg (by simp), ih, offset_one]
      · rw [List.filter_cons_of_pos (by simpa using hd), offset, offset, ih]

theorem size_filter (axes : List (Nat × Nat)) : size (axes.filter fun a => a.1 ≠ 1) = size axes := by
  induction axes with
  | nil => rfl
  | cons a axes ih =>
      obtain ⟨d, s⟩ := a
      by_cases hd : d = 1
      · subst hd
        rw [List.filter_cons_of_neg (by simp), ih, size_cons, Nat.one_mul]
      · rw [List.filter_cons_of_pos (by simpa using hd), size_cons, size_cons, ih]

theorem offset_append (axes axes' : List (Nat × Nat)) (n : Nat) :
    offset (axes ++ axes') n = offset axes n + offset axes' (n / size axes) := by
  induction axes generalizing n with
  | nil => simp [offset]
  | cons a axes ih =>
      obtain ⟨d, s⟩ := a
      rw [List.cons_append, offset, offset, ih, size_cons, Nat.div_div_eq_div_mul, Nat.add_assoc]

/-! ### Equal offsets -/

/-- The axes number the same offsets. -/
def Agree (axes axes' : List (Nat × Nat)) : Prop := ∀ n < size axes, offset axes n = offset axes' n

theorem agree_merge (a b s : Nat) (axes axes' : List (Nat × Nat)) :
    Agree axes ((a, s) :: (b, s * a) :: axes') ↔ Agree axes ((a * b, s) :: axes') :=
  forall₂_congr fun n _ => by rw [offset_merge]

/-- One more axis inside. -/
theorem agree_cons {d : Nat} (hd : 0 < d) (s : Nat) (axes axes' : List (Nat × Nat)) :
    Agree ((d, s) :: axes) ((d, s) :: axes') ↔ Agree axes axes' := by
  constructor
  · intro h n hn
    have heq := h (d * n) (by rw [size_cons]; exact Nat.mul_lt_mul_of_pos_left hn hd)
    rwa [offset_cons_mul s axes hd, offset_cons_mul s axes' hd] at heq
  · intro h n hn
    rw [size_cons] at hn
    rw [offset, offset, h (n / d) (Nat.div_lt_of_lt_mul hn)]

/-- With stride 0 it does not matter how an axis is cut. -/
theorem offset_zero_stride (a b : Nat) (axes : List (Nat × Nat)) (n : Nat) :
    offset ((a, 0) :: (b, 0) :: axes) n = offset ((a * b, 0) :: axes) n := by
  have h := offset_merge a b 0 axes n
  rwa [Nat.zero_mul] at h

/-- An axis that is cut with one stride for both parts. -/
theorem agree_cut {a b c : Nat} (ha : 2 ≤ a) (hb : 2 ≤ b) (hc : a < c) (s : Nat) {axes axes' : List (Nat × Nat)}
    (hsize : 0 < size axes) :
    Agree ((a, s) :: (b, s) :: axes) ((c, s) :: axes') ↔
      s = 0 ∧ Agree ((a * b, s) :: axes) ((c, s) :: axes') := by
  have hs : size ((a, s) :: (b, s) :: axes) = size ((a * b, s) :: axes) := by
    rw [size_cons, size_cons, size_cons, Nat.mul_assoc]
  constructor
  · intro h
    -- The first element past the inner part.
    have hlt : a < size ((a, s) :: (b, s) :: axes) := by
      have hle : a * b ≤ a * (b * size axes) := Nat.mul_le_mul_left a (Nat.le_mul_of_pos_right b hsize)
      rw [size_cons, size_cons]
      nlinarith
    have heq := h a hlt
    have hleft : offset ((a, s) :: (b, s) :: axes) a = s := by
      rw [offset, Nat.mod_self, Nat.div_self (by omega), offset_cons_of_lt s axes hb]
      omega
    rw [hleft, offset_cons_of_lt s axes' hc] at heq
    have hzero : s = 0 := by nlinarith
    refine ⟨hzero, fun n hn => ?_⟩
    subst hzero
    rw [← offset_zero_stride, h n (hs ▸ hn)]
  · rintro ⟨rfl, h⟩ n hn
    rw [offset_zero_stride, h n (hs ▸ hn)]

/-! ### Boundaries -/

/-- The ends of the axes, which begin at `b`. -/
def ends (b : Nat) : List Nat → List Nat
  | [] => []
  | d :: dims => b * d :: ends (b * d) dims

/-- The axes with their begins. -/
def spans (b : Nat) : List (Nat × Nat) → List (Nat × Nat × Nat)
  | [] => []
  | (d, s) :: axes => (b, d, s) :: spans (b * d) axes

/-- There is no gap between two axes, unless one of these boundaries lies there. -/
def Meets (boundaries : List Nat) (x y : Nat × Nat × Nat) : Prop :=
  y.1 ∈ boundaries ∨ y.2.2 = x.2.2 * x.2.1

/-- Axes that are not cut apart have no gap. -/
def Joins (b : Nat) (axes : List (Nat × Nat)) (dims : List Nat) : Prop :=
  (spans b axes).IsChain (Meets (ends b dims))

/-- A boundary inside an axis divides where the axis ends, or the axis has stride 0. -/
def Splits (b : Nat) (axes : List (Nat × Nat)) (dims : List Nat) : Prop :=
  ∀ e ∈ ends b dims, ∀ x ∈ spans b axes, x.1 < e → e < x.1 * x.2.1 → e ∣ x.1 * x.2.1 ∨ x.2.2 = 0

theorem le_of_mem_ends {b e : Nat} {dims : List Nat} (hdims : ∀ d ∈ dims, 0 < d) (he : e ∈ ends b dims) :
    b ≤ e := by
  induction dims generalizing b with
  | nil => cases he
  | cons d dims ih =>
      have hd := hdims d List.mem_cons_self
      have hle : b ≤ b * d := Nat.le_mul_of_pos_right b hd
      cases he with
      | head => exact hle
      | tail _ he => exact hle.trans (ih (fun x hx => hdims x (List.mem_cons_of_mem d hx)) he)

theorem mul_le_of_mem_ends {b d e : Nat} {dims : List Nat} (hdims : ∀ x ∈ dims, 0 < x) (he : e ∈ ends b (d :: dims)) :
    b * d ≤ e := by
  obtain rfl | he := List.mem_cons.mp he
  · exact Nat.le_refl _
  · exact le_of_mem_ends hdims he

theorem lt_of_mem_ends {b e : Nat} {dims : List Nat} (hb : 0 < b) (hdims : ∀ d ∈ dims, 1 < d) (he : e ∈ ends b dims) :
    b < e := by
  cases dims with
  | nil => cases he
  | cons d dims =>
      have hd := hdims d List.mem_cons_self
      have hle := mul_le_of_mem_ends (fun x hx => Nat.lt_of_succ_lt (hdims x (List.mem_cons_of_mem d hx))) he
      nlinarith

theorem le_of_mem_spans {b : Nat} {axes : List (Nat × Nat)} {x : Nat × Nat × Nat} (haxes : ∀ a ∈ axes, 0 < a.1)
    (hx : x ∈ spans b axes) : b ≤ x.1 := by
  induction axes generalizing b with
  | nil => cases hx
  | cons a axes ih =>
      obtain ⟨d, s⟩ := a
      have hd := haxes (d, s) List.mem_cons_self
      cases hx with
      | head => exact Nat.le_refl b
      | tail _ hx =>
          exact (Nat.le_mul_of_pos_right b hd).trans (ih (fun a ha => haxes a (List.mem_cons_of_mem _ ha)) hx)

/-! ### Regrouping -/

section Regroup

variable {b d s d' s' t t' : Nat} {axes : List (Nat × Nat)} {dims : List Nat}

/-- A boundary further out does not matter. -/
theorem meets_iff {boundaries boundaries' : List Nat} {x y : Nat × Nat × Nat}
    (h : y.1 ∈ boundaries ↔ y.1 ∈ boundaries') : Meets boundaries x y ↔ Meets boundaries' x y :=
  or_congr_left h

/-- Two axes without a boundary between them have no gap, and are one axis. -/
theorem joins_merge (hb : 0 < b) (hdims : ∀ x ∈ dims, 0 < x) (hlt : d < t) :
    Joins b ((d, s) :: (d', s') :: axes) (t :: dims) ↔
      s' = s * d ∧ Joins b ((d * d', s) :: axes) (t :: dims) := by
  have hmem : b * d ∉ ends b (t :: dims) := by
    intro he
    have hle := mul_le_of_mem_ends hdims he
    exact absurd (Nat.le_of_mul_le_mul_left hle hb) (Nat.not_le_of_lt hlt)
  have hhead : Meets (ends b (t :: dims)) (b, d, s) (b * d, d', s') ↔ s' = s * d := or_iff_right hmem
  unfold Joins
  rw [spans, spans, List.isChain_cons_cons, hhead, spans, Nat.mul_assoc]
  refine and_congr_right fun heq => ?_
  subst heq
  rw [List.isChain_cons, List.isChain_cons]
  refine and_congr_left fun _ => forall₂_congr fun y _ => or_congr_right ?_
  rw [Nat.mul_assoc]

theorem splits_merge (hb : 0 < b) (hd : 0 < d) (hdims : ∀ x ∈ dims, 0 < x) (hlt : d < t) :
    Splits b ((d, s) :: (d', s * d) :: axes) (t :: dims) ↔ Splits b ((d * d', s) :: axes) (t :: dims) := by
  have hle : ∀ e ∈ ends b (t :: dims), b * d < e := by
    intro e he
    exact (Nat.mul_lt_mul_of_pos_left hlt hb).trans_le (mul_le_of_mem_ends hdims he)
  refine forall₂_congr fun e he => ?_
  have hlt' := hle e he
  rw [spans, spans, spans, Nat.mul_assoc, List.forall_mem_cons, List.forall_mem_cons, List.forall_mem_cons]
  have hzero : s * d = 0 ↔ s = 0 := by
    rw [Nat.mul_eq_zero]
    exact or_iff_left (Nat.ne_of_gt hd)
  have hb' : b < e := (Nat.le_mul_of_pos_right b hd).trans_lt hlt'
  dsimp only
  rw [hzero, Nat.mul_assoc]
  constructor
  · rintro ⟨-, h, hrest⟩
    exact ⟨fun _ => h hlt', hrest⟩
  · rintro ⟨h, hrest⟩
    exact ⟨fun _ hgt => absurd hgt (Nat.not_lt_of_lt hlt'), fun _ => h hb', hrest⟩

/-- A boundary inside the first axis. -/
theorem joins_cut (hb : 0 < b) (haxes : ∀ a ∈ axes, 0 < a.1) (hlt : t < d) :
    Joins b ((d, s) :: axes) (t :: t' :: dims) ↔ Joins b ((d, s) :: axes) (t * t' :: dims) := by
  refine List.IsChain.iff_of_mem_tail_imp fun x y _ hy => meets_iff ?_
  have hle : b * d ≤ y.1 := le_of_mem_spans haxes hy
  have hne : y.1 ≠ b * t := Nat.ne_of_gt ((Nat.mul_lt_mul_of_pos_left hlt hb).trans_le hle)
  rw [ends, ends, ends, Nat.mul_assoc, List.mem_cons]
  exact or_iff_right hne

theorem splits_cut (hb : 0 < b) (haxes : ∀ a ∈ axes, 0 < a.1) (ht : 1 < t) (hlt : t < d) (hdvd : ¬ t ∣ d) :
    Splits b ((d, s) :: axes) (t :: t' :: dims) ↔ s = 0 ∧ Splits b ((d, s) :: axes) (t * t' :: dims) := by
  have hfirst : (∀ x ∈ spans b ((d, s) :: axes), x.1 < b * t → b * t < x.1 * x.2.1 →
      b * t ∣ x.1 * x.2.1 ∨ x.2.2 = 0) ↔ s = 0 := by
    have hbt : b < b * t := by nlinarith
    have hbd : b * t < b * d := Nat.mul_lt_mul_of_pos_left hlt hb
    rw [spans, List.forall_mem_cons]
    constructor
    · rintro ⟨h, -⟩
      exact (h hbt hbd).resolve_left fun hdiv => hdvd (Nat.dvd_of_mul_dvd_mul_left hb hdiv)
    · intro hs
      refine ⟨fun _ _ => Or.inr hs, fun x hx hgt => absurd hgt (Nat.not_lt_of_le ?_)⟩
      exact hbd.le.trans (le_of_mem_spans haxes hx)
  unfold Splits
  rw [ends, ends, ends, List.forall_mem_cons, hfirst, Nat.mul_assoc]

/-- A boundary that divides the first axis. -/
theorem joins_divide (hb : 0 < b) (haxes : ∀ a ∈ axes, 0 < a.1) (hd' : 1 < d') (ht : 0 < t) :
    Joins b ((t * d', s) :: axes) (t :: dims) ↔ Joins (b * t) ((d', s * t) :: axes) dims := by
  have hmem : ∀ y ∈ spans (b * t * d') axes, y.1 ∈ ends b (t :: dims) ↔ y.1 ∈ ends (b * t) dims := by
    intro y hy
    have hle : b * t * d' ≤ y.1 := le_of_mem_spans haxes hy
    have hbt : 0 < b * t := Nat.mul_pos hb ht
    have hne : y.1 ≠ b * t := by nlinarith
    rw [ends, List.mem_cons]
    exact or_iff_right hne
  unfold Joins
  rw [spans, spans, ← Nat.mul_assoc, List.isChain_cons, List.isChain_cons]
  refine and_congr (forall₂_congr fun y hy => ?_) (List.IsChain.iff_of_mem_imp fun x y _ hy => meets_iff (hmem y hy))
  refine or_congr (hmem y (List.mem_of_mem_head? hy)) ?_
  rw [← Nat.mul_assoc]

theorem splits_divide (hb : 0 < b) (haxes : ∀ a ∈ axes, 0 < a.1) (hdims : ∀ x ∈ dims, 1 < x) (ht : 0 < t)
    (hd' : 0 < d') :
    Splits b ((t * d', s) :: axes) (t :: dims) ↔ Splits (b * t) ((d', s * t) :: axes) dims := by
  have hbt : 0 < b * t := Nat.mul_pos hb ht
  have hfirst : ∀ x ∈ spans b ((t * d', s) :: axes), x.1 < b * t → b * t < x.1 * x.2.1 →
      b * t ∣ x.1 * x.2.1 ∨ x.2.2 = 0 := by
    rw [spans, List.forall_mem_cons]
    refine ⟨fun _ _ => Or.inl ⟨d', (Nat.mul_assoc b t d').symm⟩, fun x hx hgt => absurd hgt (Nat.not_lt_of_le ?_)⟩
    have hle : b * (t * d') ≤ x.1 := le_of_mem_spans haxes hx
    nlinarith
  have hzero : s * t = 0 ↔ s = 0 := by
    rw [Nat.mul_eq_zero]
    exact or_iff_left (Nat.ne_of_gt ht)
  unfold Splits
  rw [ends, List.forall_mem_cons]
  refine (and_iff_right hfirst).trans (forall₂_congr fun e he => ?_)
  have hlt : b * t < e := lt_of_mem_ends hbt hdims he
  have hb' : b < e := (Nat.le_mul_of_pos_right b ht).trans_lt hlt
  rw [spans, spans, List.forall_mem_cons, List.forall_mem_cons, ← Nat.mul_assoc]
  dsimp only
  rw [hzero]
  exact and_congr_left fun _ => ⟨fun h _ => h hb', fun h _ => h hlt⟩

/-- A boundary at the end of the first axis. -/
theorem joins_end (hb : 0 < b) (haxes : ∀ a ∈ axes, 1 < a.1) (ht : 0 < t) :
    Joins b ((t, s) :: axes) (t :: dims) ↔ Joins (b * t) axes dims := by
  have hbt : 0 < b * t := Nat.mul_pos hb ht
  unfold Joins
  rw [spans, List.isChain_cons]
  have hhead : ∀ y ∈ (spans (b * t) axes).head?, Meets (ends b (t :: dims)) (b, t, s) y := by
    intro y hy
    cases axes with
    | nil => cases hy
    | cons a axes =>
        cases hy
        exact Or.inl List.mem_cons_self
  refine (and_iff_right hhead).trans (List.IsChain.iff_of_mem_tail_imp fun x y _ hy => meets_iff ?_)
  cases axes with
  | nil => cases hy
  | cons a axes =>
      have ha := haxes a List.mem_cons_self
      have hle : b * t * a.1 ≤ y.1 :=
        le_of_mem_spans (fun a' ha' => Nat.lt_of_succ_lt (haxes a' (List.mem_cons_of_mem a ha'))) hy
      have hne : y.1 ≠ b * t := by nlinarith
      rw [ends, List.mem_cons]
      exact or_iff_right hne

theorem splits_end (hb : 0 < b) (haxes : ∀ a ∈ axes, 0 < a.1) (hdims : ∀ x ∈ dims, 1 < x) (ht : 0 < t) :
    Splits b ((t, s) :: axes) (t :: dims) ↔ Splits (b * t) axes dims := by
  have hbt : 0 < b * t := Nat.mul_pos hb ht
  have hfirst : ∀ x ∈ spans b ((t, s) :: axes), x.1 < b * t → b * t < x.1 * x.2.1 →
      b * t ∣ x.1 * x.2.1 ∨ x.2.2 = 0 := by
    rw [spans, List.forall_mem_cons]
    exact ⟨fun _ hlt => absurd hlt (Nat.lt_irrefl _),
      fun x hx hgt => absurd hgt (Nat.not_lt_of_le (le_of_mem_spans haxes hx))⟩
  unfold Splits
  rw [ends, List.forall_mem_cons]
  refine (and_iff_right hfirst).trans (forall₂_congr fun e he => ?_)
  have hlt : b * t < e := lt_of_mem_ends hbt hdims he
  rw [spans, List.forall_mem_cons]
  exact and_iff_right fun _ hgt => absurd hgt (Nat.not_lt_of_lt hlt)

/-- The second element tells the stride of the first axis. -/
theorem Agree.head (hd : 1 < d) (ht : 1 < t) (hsize : 0 < size axes) {axes' : List (Nat × Nat)}
    (h : Agree ((d, s) :: axes) ((t, s') :: axes')) : s' = s := by
  have hlt : 1 < size ((d, s) :: axes) := by
    rw [size_cons]
    nlinarith
  have hone := h 1 hlt
  rw [offset_cons_of_lt s axes hd, offset_cons_of_lt s' axes' ht] at hone
  omega

/-- An axis that goes on past the first one on the other side has no gap there. -/
theorem Agree.next (ht' : 1 < t') (htd : 1 < t) (hlt : t < d) (hsize : 0 < size axes) {axes' : List (Nat × Nat)}
    (h : Agree ((d, s) :: axes) ((t, s) :: (t', s') :: axes')) : s' = s * t := by
  have hin : t < size ((d, s) :: axes) := by
    rw [size_cons]
    nlinarith
  have heq := h t hin
  rw [offset_cons_of_lt s axes hlt, offset, Nat.mod_self, Nat.zero_mul, Nat.zero_add, Nat.div_self (by omega),
    offset_cons_of_lt s' axes' ht'] at heq
  rw [Nat.mul_comm s, heq, Nat.one_mul]

/-- The same from the other side. -/
theorem Agree.next' (hd' : 1 < d') (hd : 1 < d) (hlt : d < t) (hsize : 0 < size axes) {axes' : List (Nat × Nat)}
    (h : Agree ((d, s) :: (d', s') :: axes) ((t, s) :: axes')) : s' = s * d := by
  have hin : d < size ((d, s) :: (d', s') :: axes) := by
    have hle : d' ≤ d' * size axes := Nat.le_mul_of_pos_right d' hsize
    rw [size_cons, size_cons]
    nlinarith
  have heq := h d hin
  rw [offset_cons_of_lt s axes' hlt, offset, Nat.mod_self, Nat.zero_mul, Nat.zero_add, Nat.div_self (by omega),
    offset_cons_of_lt s' axes hd'] at heq
  rw [Nat.mul_comm s, ← heq, Nat.one_mul]

theorem size_pos (haxes : ∀ a ∈ axes, 1 < a.1) : 0 < size axes :=
  List.prod_pos fun x hx => by
    obtain ⟨y, hy, rfl⟩ := List.mem_map.mp hx
    exact Nat.lt_of_succ_lt (haxes y hy)

/-- If the axes of the other extents have strides at all, then the axes that they do not cut apart have no gap. -/
theorem joins_of_agree {strides : List Nat} (hb : 0 < b) (haxes : ∀ a ∈ axes, 1 < a.1) (hdims : ∀ x ∈ dims, 1 < x)
    (hlen : strides.length = dims.length) (hsize : size axes = dims.prod) (h : Agree axes (dims.zip strides)) :
    Joins b axes dims := by
  -- Each step takes an axis or an extent away.
  induction hk : axes.length + dims.length using Nat.strong_induction_on generalizing b axes dims strides with
  | _ k ih =>
    cases axes with
    | nil => exact List.isChain_nil
    | cons a axes =>
      obtain ⟨d, s⟩ := a
      obtain ⟨hd, haxes'⟩ := List.forall_mem_cons.mp haxes
      dsimp only at hd
      have hrest : 0 < size axes := size_pos haxes'
      rw [size_cons] at hsize
      cases dims with
      | nil =>
          have hone : d * size axes = 1 := hsize
          exact absurd (Nat.eq_one_of_mul_eq_one_right hone) (by omega)
      | cons t dims =>
        cases strides with
        | nil => cases hlen
        | cons r strides =>
          obtain ⟨ht, hdims'⟩ := List.forall_mem_cons.mp hdims
          have hlen' : strides.length = dims.length := Nat.succ.inj hlen
          rw [List.prod_cons] at hsize
          rw [List.zip_cons_cons] at h
          have hpos : ∀ a ∈ axes, 0 < a.1 := fun a ha => Nat.lt_of_succ_lt (haxes' a ha)
          obtain rfl : r = s := h.head hd ht hrest
          obtain hlt | heq | hgt := Nat.lt_trichotomy t d
          · by_cases hdvd : t ∣ d
            · -- The target boundary divides the axis.
              obtain ⟨d', rfl⟩ := hdvd
              have hd' : 1 < d' := by nlinarith
              have ht0 : 0 < t := by omega
              refine (joins_divide hb hpos hd' ht0).mpr (ih _ ?_ (Nat.mul_pos hb ht0) ?_ hdims' hlen' ?_ ?_ rfl)
              · rw [← hk]
                simp
              · exact List.forall_mem_cons.mpr ⟨hd', haxes'⟩
              · rw [size_cons]
                exact Nat.eq_of_mul_eq_mul_left ht0 (by rw [← hsize, Nat.mul_assoc])
              · refine (agree_cons ht0 r _ _).mp fun n hn => ?_
                rw [offset_merge]
                refine h n ?_
                rwa [size_cons, size_cons, ← Nat.mul_assoc, ← size_cons (t * d') r] at hn
            · -- The target boundary lies in the axis, and the next target axis goes on without a gap.
              cases dims with
              | nil =>
                  have hle : d ≤ d * size axes := Nat.le_mul_of_pos_right d hrest
                  rw [hsize, List.prod_nil, Nat.mul_one] at hle
                  omega
              | cons t' dims =>
                cases strides with
                | nil => cases hlen'
                | cons r' strides =>
                  obtain ⟨ht', hdims''⟩ := List.forall_mem_cons.mp hdims'
                  obtain rfl : r' = r * t := h.next ht' ht hlt hrest
                  refine (joins_cut hb hpos hlt).mpr (@ih _ ?_ b _ (t * t' :: dims) (r :: strides) hb haxes ?_
                    (congrArg Nat.succ (Nat.succ.inj hlen')) ?_ ?_ rfl)
                  · rw [← hk]
                    simp
                  · exact List.forall_mem_cons.mpr ⟨by nlinarith, hdims''⟩
                  · rw [size_cons, hsize, List.prod_cons, List.prod_cons, Nat.mul_assoc]
                  · exact (agree_merge t t' r _ _).mp h
          · -- The axis ends where the target axis does.
            subst heq
            have ht0 : 0 < t := by omega
            refine (joins_end hb haxes' ht0).mpr (ih _ ?_ (Nat.mul_pos hb ht0) haxes' hdims' hlen' ?_ ?_ rfl)
            · rw [← hk]
              simp only [List.length_cons]
              omega
            · exact Nat.eq_of_mul_eq_mul_left ht0 hsize
            · exact (agree_cons ht0 r _ _).mp h
          · -- The target axis goes past the axis, so the next axis begins there without a gap.
            cases axes with
            | nil =>
                have hle : t ≤ t * dims.prod :=
                  Nat.le_mul_of_pos_right t (List.prod_pos fun x hx => Nat.lt_of_succ_lt (hdims' x hx))
                rw [← hsize, size_nil, Nat.mul_one] at hle
                omega
            | cons a' axes =>
                obtain ⟨d', s'⟩ := a'
                obtain ⟨hd', haxes''⟩ := List.forall_mem_cons.mp haxes'
                dsimp only at hd'
                obtain rfl : s' = r * d := h.next' hd' hd hgt (size_pos haxes'')
                refine (joins_merge hb (fun x hx => Nat.lt_of_succ_lt (hdims' x hx)) hgt).mpr ⟨rfl, ?_⟩
                refine @ih _ ?_ b _ (t :: dims) (r :: strides) hb ?_ hdims (congrArg Nat.succ hlen') ?_ ?_ rfl
                · rw [← hk]
                  simp
                · exact List.forall_mem_cons.mpr ⟨by nlinarith, haxes''⟩
                · rw [size_cons, List.prod_cons, ← hsize, size_cons, Nat.mul_assoc]
                · intro n hn
                  rw [← offset_merge]
                  refine h n ?_
                  rwa [size_cons, Nat.mul_assoc, ← size_cons d' (r * d), ← size_cons d r] at hn

end Regroup

/-! ### Footprints -/

/-- Two axes of which one lies between the elements of the other, unless one has stride 0. -/
def Apart (x y : Nat × Nat) : Prop :=
  x.2 = 0 ∨ y.2 = 0 ∨ 1 < x.1 ∧ 1 < y.1 ∧ (x.1 * x.2 ≤ y.2 ∨ y.1 * y.2 ≤ x.2)

theorem Apart.symm {x y : Nat × Nat} (h : Apart x y) : Apart y x := by
  obtain h | h | ⟨hx, hy, h⟩ := h
  · exact Or.inr (Or.inl h)
  · exact Or.inl h
  · exact Or.inr (Or.inr ⟨hy, hx, h.symm⟩)

/-- Axes that are pairwise apart. -/
abbrev Spread (axes : List (Nat × Nat)) : Prop := axes.Pairwise Apart

theorem Spread.perm {axes axes' : List (Nat × Nat)} (h : Spread axes) (hperm : axes.Perm axes') : Spread axes' :=
  (hperm.pairwise_iff fun h => h.symm).mp h

/-- The last element comes before any bound of the extents. -/
theorem Spread.sum_lt {axes : List (Nat × Nat)} (h : Spread axes) (hpos : ∀ a ∈ axes, 0 < a.1) {m : Nat} (hm : 0 < m)
    (hbound : ∀ a ∈ axes, a.1 * a.2 ≤ m) : (axes.map fun a => (a.1 - 1) * a.2).sum < m := by
  induction hlen : axes.length generalizing axes m with
  | zero =>
      obtain rfl := List.length_eq_zero_iff.mp hlen
      exact hm
  | succ k ih =>
      -- The axis of the greatest extent goes around the others.
      cases hmax : axes.argmax fun a => a.1 * a.2 with
      | none =>
          obtain rfl := List.argmax_eq_none.mp hmax
          cases hlen
      | some a =>
          have ha : a ∈ axes := List.argmax_mem hmax
          have hperm := List.perm_cons_erase ha
          obtain ⟨hhead, htail⟩ := List.pairwise_cons.mp (h.perm hperm)
          have hlen' : (axes.erase a).length = k := by
            rw [List.length_erase_of_mem ha, hlen]
            rfl
          have hpos' : ∀ x ∈ axes.erase a, 0 < x.1 := fun x hx => hpos x (List.mem_of_mem_erase hx)
          rw [(hperm.map _).sum_eq, List.map_cons, List.sum_cons]
          by_cases hs : a.2 = 0
          · rw [hs, Nat.mul_zero, Nat.zero_add]
            exact ih htail hpos' hm (fun x hx => hbound x (List.mem_of_mem_erase hx)) hlen'
          · have hrest : ∀ x ∈ axes.erase a, x.1 * x.2 ≤ a.2 := by
              intro x hx
              have hle : x.1 * x.2 ≤ a.1 * a.2 := List.le_of_mem_argmax (List.mem_of_mem_erase hx) hmax
              obtain hzero | hzero | ⟨ha', hx', hgt | hgt⟩ := hhead x hx
              · exact absurd hzero hs
              · rw [hzero, Nat.mul_zero]
                exact Nat.zero_le _
              · have hx2 : 0 < x.2 := lt_of_lt_of_le (Nat.mul_pos (by omega) (Nat.pos_of_ne_zero hs)) hgt
                nlinarith
              · exact hgt
            have hlt := ih htail hpos' (Nat.pos_of_ne_zero hs) hrest hlen'
            have hsucc : (a.1 - 1) * a.2 + a.2 = a.1 * a.2 := by
              rw [← Nat.succ_mul, Nat.succ_eq_add_one, Nat.sub_add_cancel (hpos a ha)]
            have hle := hbound a ha
            omega

/-- Two axes that are one axis. -/
theorem Apart.merge {a b s : Nat} {y : Nat × Nat} (ha : 1 < a) (hb : 1 < b) (h : Apart (a, s) y)
    (h' : Apart (b, s * a) y) : Apart (a * b, s) y := by
  by_cases hs : s = 0
  · exact Or.inl hs
  by_cases hy : y.2 = 0
  · exact Or.inr (Or.inl hy)
  have hsa : s * a ≠ 0 := Nat.mul_ne_zero hs (by omega)
  obtain ⟨-, hy1, h⟩ := (h.resolve_left hs).resolve_left hy
  obtain ⟨-, -, h'⟩ := (h'.resolve_left hsa).resolve_left hy
  dsimp only at h h'
  refine Or.inr (Or.inr ⟨by nlinarith, hy1, ?_⟩)
  obtain h | h := h
  · obtain h' | h' := h'
    · exact Or.inl (by nlinarith)
    · have hlt : 0 < y.2 := Nat.pos_of_ne_zero hy
      nlinarith
  · exact Or.inr h

/-- One axis that is two. -/
theorem Apart.split {a b s : Nat} {y : Nat × Nat} (ha : 1 < a) (hb : 1 < b) (h : Apart (a * b, s) y) :
    Apart (a, s) y ∧ Apart (b, s * a) y := by
  obtain h | h | ⟨-, hy, h⟩ := h
  · have hs : s * a = 0 := by rw [show s = 0 from h, Nat.zero_mul]
    exact ⟨Or.inl h, Or.inl hs⟩
  · exact ⟨Or.inr (Or.inl h), Or.inr (Or.inl h)⟩
  · dsimp only at h
    refine ⟨Or.inr (Or.inr ⟨ha, hy, ?_⟩), Or.inr (Or.inr ⟨hb, hy, ?_⟩)⟩
    · obtain h | h := h
      · exact Or.inl (by nlinarith)
      · exact Or.inr h
    · obtain h | h := h
      · exact Or.inl (by nlinarith)
      · exact Or.inr (by nlinarith)

theorem Spread.merge {a b s : Nat} {axes : List (Nat × Nat)} (ha : 1 < a) (hb : 1 < b)
    (h : Spread ((a, s) :: (b, s * a) :: axes)) : Spread ((a * b, s) :: axes) := by
  obtain ⟨hfirst, h⟩ := List.pairwise_cons.mp h
  obtain ⟨hsecond, htail⟩ := List.pairwise_cons.mp h
  exact List.pairwise_cons.mpr
    ⟨fun y hy => Apart.merge ha hb (hfirst y (List.mem_cons_of_mem _ hy)) (hsecond y hy), htail⟩

theorem Spread.split {a b s : Nat} {axes : List (Nat × Nat)} (ha : 1 < a) (hb : 1 < b)
    (h : Spread ((a * b, s) :: axes)) : Spread ((b, s * a) :: (a, s) :: axes) := by
  obtain ⟨hhead, htail⟩ := List.pairwise_cons.mp h
  have hpair : Apart (b, s * a) (a, s) := by
    refine Or.inr (Or.inr ⟨hb, ha, Or.inr ?_⟩)
    exact Nat.le_of_eq (Nat.mul_comm a s)
  refine List.pairwise_cons.mpr ⟨fun y hy => ?_, List.pairwise_cons.mpr ⟨fun y hy => ?_, htail⟩⟩
  · obtain rfl | hy := List.mem_cons.mp hy
    · exact hpair
    · exact ((hhead y hy).split ha hb).2
  · exact ((hhead y hy).split ha hb).1

/-- An axis of more than one element with a stride reaches other offsets. -/
theorem exists_offset_ne_zero {axes : List (Nat × Nat)} (hpos : ∀ a ∈ axes, 0 < a.1) {a : Nat × Nat} (ha : a ∈ axes)
    (hone : 1 < a.1) (hs : a.2 ≠ 0) : ∃ n < size axes, offset axes n ≠ 0 := by
  induction axes with
  | nil => cases ha
  | cons x axes ih =>
      obtain ⟨d, s⟩ := x
      have hpos' : ∀ a ∈ axes, 0 < a.1 := fun a ha => hpos a (List.mem_cons_of_mem _ ha)
      have hd : 0 < d := hpos (d, s) List.mem_cons_self
      cases ha with
      | head =>
          refine ⟨1, ?_, ?_⟩
          · have hsize : 0 < size axes := List.prod_pos fun x hx => by
              obtain ⟨y, hy, rfl⟩ := List.mem_map.mp hx
              exact hpos' y hy
            rw [size_cons]
            have hone' : 1 < d := hone
            nlinarith
          · rw [offset_cons_of_lt s axes hone, Nat.one_mul]
            exact hs
      | tail _ ha =>
          obtain ⟨n, hn, hne⟩ := ih hpos' ha
          refine ⟨d * n, ?_, ?_⟩
          · rw [size_cons]
            exact Nat.mul_lt_mul_of_pos_left hn hd
          · rwa [offset_cons_mul s axes hd]

theorem offset_eq_zero {axes : List (Nat × Nat)} (h : ∀ a ∈ axes, a.2 = 0) (n : Nat) : offset axes n = 0 := by
  induction axes generalizing n with
  | nil => rfl
  | cons x axes ih =>
      obtain ⟨d, s⟩ := x
      have hs : s = 0 := h (d, s) List.mem_cons_self
      rw [offset, hs, Nat.mul_zero, Nat.zero_add, ih fun a ha => h a (List.mem_cons_of_mem _ ha)]

/-! ### Axes without gaps -/

/-- Axes that follow each other without gaps, the innermost first. -/
def dense (s : Nat) : List Nat → List (Nat × Nat)
  | [] => []
  | d :: dims => (d, s) :: dense (s * d) dims

theorem dense_concat (s : Nat) (dims : List Nat) (d : Nat) :
    dense s (dims ++ [d]) = dense s dims ++ [(d, s * dims.prod)] := by
  induction dims generalizing s with
  | nil => simp [dense]
  | cons x dims ih => simp [dense, ih, Nat.mul_assoc]

/-- They meet, wherever the boundaries lie. -/
theorem isChain_dense (boundaries : List Nat) (b s : Nat) (dims : List Nat) :
    (spans b (dense s dims)).IsChain (Meets boundaries) := by
  induction dims generalizing b s with
  | nil => exact List.isChain_nil
  | cons d dims ih =>
      cases dims with
      | nil => exact List.isChain_singleton _
      | cons d' dims => exact List.isChain_cons_cons.mpr ⟨.inr rfl, ih (b * d) (s * d)⟩

/-- A boundary divides the size. -/
theorem dvd_of_mem_ends {b n : Nat} {dims : List Nat} (h : n ∈ ends b dims) : n ∣ b * dims.prod := by
  induction dims generalizing b with
  | nil => cases h
  | cons d dims ih =>
      rw [List.prod_cons, ← Nat.mul_assoc]
      rcases List.mem_cons.mp h with rfl | h
      · exact Nat.dvd_mul_right _ _
      · exact ih h

end Strided
end NnEngine
