import NnEngine.Graph.Reinterpret
import NnEngine.Result
import NnEngine.Tensor.Contiguity

/-!
# The shape of a broadcast

`broadcast_shape` of `src/tensor/types.rs`, and what `ResolvedTensorType::broadcast` to its result
addresses.  Dims are aligned on the right, so they are seen as functions that count the axes from the
right and are 1 past the outermost one; `broadcast_shape` is then a join at each axis.
-/

namespace NnEngine

inductive TypeError
  | broadcastError (lhs rhs : ResolvedTensorDims)
  | inconsistentInput
  deriving DecidableEq, Repr

/-- The body of the loop of `broadcast_shape_body`: the dim that replaces `v`. -/
def broadcastDim (v r : Nat) : Option Nat :=
  if v = r then some v
  else if v = 1 then some r
  else if r ≠ 1 then none
  else some v

/-- The loop of `broadcast_shape_body`, over the dims that the shorter shape aligns with. -/
def broadcastDims : List Nat → List Nat → Option (List Nat)
  | v :: lhs, r :: rhs => do
      let d ← broadcastDim v r
      let dims ← broadcastDims lhs rhs
      some (d :: dims)
  | lhs, _ => some lhs

/-- `broadcast_shape_body`; `lhs` is not the shorter one. -/
def broadcastShapeBody (lhs rhs : ResolvedTensorDims) : Except TypeError ResolvedTensorDims :=
  let rem := lhs.length - rhs.length
  match broadcastDims (lhs.drop rem) rhs with
  | some res => .ok (lhs.take rem ++ res)
  | none => .error (.broadcastError lhs rhs)

/-- `broadcast_shape`. -/
def broadcastShape (lhs rhs : ResolvedTensorDims) : Except TypeError ResolvedTensorDims :=
  if lhs.length < rhs.length then broadcastShapeBody rhs lhs else broadcastShapeBody lhs rhs

/-! ### Joins -/

/-- `z` is one of the extents, and the other one is the same or 1. -/
def JoinsTo (x y z : Nat) : Prop := z = x ∧ (y = x ∨ y = 1) ∨ z = y ∧ x = 1

theorem broadcastDim_eq_some {v r d : Nat} : broadcastDim v r = some d ↔ JoinsTo v r d := by
  unfold broadcastDim JoinsTo
  split
  · simp
    omega
  · split
    · simp
      omega
    · split
      · simp
        omega
      · simp
        omega

namespace JoinsTo

variable {x y z u v w : Nat}

theorem self (x : Nat) : JoinsTo x x x := .inl ⟨rfl, .inl rfl⟩

theorem one_iff : JoinsTo x 1 z ↔ z = x := by
  unfold JoinsTo
  omega

theorem comm : JoinsTo x y z ↔ JoinsTo y x z := by
  unfold JoinsTo
  omega

theorem assoc (h : JoinsTo x y u) (hu : JoinsTo u z v) (h' : JoinsTo y z w) (hw : JoinsTo x w v') : v = v' := by
  unfold JoinsTo at h hu h' hw
  omega

/-- There is a join exactly when the extents are equal or one of them is 1. -/
theorem exists_iff : (∃ z, JoinsTo x y z) ↔ x = y ∨ x = 1 ∨ y = 1 := by
  unfold JoinsTo
  constructor
  · rintro ⟨z, h⟩
    omega
  · rintro (rfl | rfl | rfl)
    · exact ⟨x, .inl ⟨rfl, .inl rfl⟩⟩
    · exact ⟨y, .inr ⟨rfl, rfl⟩⟩
    · exact ⟨x, .inl ⟨rfl, .inr rfl⟩⟩

end JoinsTo

/-! ### Axes from the right -/

/-- The extent of the axis with this number from the right. -/
def fromRight (dims : List Nat) (k : Nat) : Nat := dims.reverse.getD k 1

theorem fromRight_of_le {dims : List Nat} {k : Nat} (h : dims.length ≤ k) : fromRight dims k = 1 := by
  rw [fromRight, List.getD_eq_default]
  rwa [List.length_reverse]

theorem fromRight_cons_of_lt {dims : List Nat} {k : Nat} (d : Nat) (h : k < dims.length) :
    fromRight (d :: dims) k = fromRight dims k := by
  rw [fromRight, fromRight, List.reverse_cons, List.getD_append]
  rwa [List.length_reverse]

theorem fromRight_cons_length (d : Nat) (dims : List Nat) : fromRight (d :: dims) dims.length = d := by
  rw [fromRight, List.reverse_cons, List.getD_append_right _ _ _ _ (by rw [List.length_reverse]),
    List.length_reverse, Nat.sub_self, List.getD_cons_zero]

theorem fromRight_append_of_lt {dims : List Nat} {k : Nat} (outer : List Nat) (h : k < dims.length) :
    fromRight (outer ++ dims) k = fromRight dims k := by
  rw [fromRight, fromRight, List.reverse_append, List.getD_append]
  rwa [List.length_reverse]

theorem fromRight_append_add (outer dims : List Nat) (k : Nat) :
    fromRight (outer ++ dims) (dims.length + k) = fromRight outer k := by
  rw [fromRight, fromRight, List.reverse_append,
    List.getD_append_right _ _ _ _ (by rw [List.length_reverse]; exact Nat.le_add_right _ _), List.length_reverse,
    Nat.add_sub_cancel_left]

theorem ext_fromRight {dims dims' : List Nat} (hlen : dims.length = dims'.length)
    (h : ∀ k, fromRight dims k = fromRight dims' k) : dims = dims' := by
  refine List.reverse_injective (List.ext_getElem (by simp [hlen]) fun k hk hk' => ?_)
  have heq := h k
  rwa [fromRight, fromRight, List.getD_eq_getElem _ _ hk, List.getD_eq_getElem _ _ hk'] at heq

theorem mem_iff_fromRight {dims : List Nat} : 0 ∈ dims ↔ ∃ k, fromRight dims k = 0 := by
  rw [← List.mem_reverse, List.mem_iff_getElem]
  constructor
  · rintro ⟨k, hk, h⟩
    exact ⟨k, by rw [fromRight, List.getD_eq_getElem _ _ hk, h]⟩
  · rintro ⟨k, h⟩
    by_cases hk : k < dims.reverse.length
    · exact ⟨k, hk, by rwa [fromRight, List.getD_eq_getElem _ _ hk] at h⟩
    · rw [fromRight_of_le (by simpa using hk)] at h
      cases h

theorem mem_of_join_left {a b d : List Nat} (hjoin : ∀ k, JoinsTo (fromRight a k) (fromRight b k) (fromRight d k))
    (h : 0 ∈ a) : 0 ∈ d := by
  obtain ⟨k, hk⟩ := mem_iff_fromRight.mp h
  have hk' := hjoin k
  unfold JoinsTo at hk'
  exact mem_iff_fromRight.mpr ⟨k, by omega⟩

theorem broadcastDims_eq_some {lhs rhs res : List Nat} (hlen : lhs.length = rhs.length) :
    broadcastDims lhs rhs = some res ↔ res.length = lhs.length ∧
      ∀ k < lhs.length, JoinsTo (fromRight lhs k) (fromRight rhs k) (fromRight res k) := by
  induction lhs generalizing rhs res with
  | nil =>
      obtain rfl : rhs = [] := List.length_eq_zero_iff.mp hlen.symm
      rw [show broadcastDims [] [] = some [] from rfl, Option.some_inj, eq_comm, List.length_nil,
        List.length_eq_zero_iff]
      exact ⟨fun h => ⟨h, nofun⟩, And.left⟩
  | cons v lhs ih =>
      cases rhs with
      | nil => cases hlen
      | cons r rhs =>
          have hlen' : lhs.length = rhs.length := Nat.succ.inj hlen
          have hsplit : broadcastDims (v :: lhs) (r :: rhs) = some res ↔
              ∃ d dims, broadcastDim v r = some d ∧ broadcastDims lhs rhs = some dims ∧ res = d :: dims := by
            simp only [broadcastDims, bind, Option.bind_eq_some_iff, Option.some_inj]
            exact ⟨fun ⟨d, hd, dims, hdims, hres⟩ => ⟨d, dims, hd, hdims, hres.symm⟩,
              fun ⟨d, dims, hd, hdims, hres⟩ => ⟨d, hd, dims, hdims, hres.symm⟩⟩
          rw [hsplit]
          constructor
          · rintro ⟨d, dims, hd, hdims, rfl⟩
            obtain ⟨hdlen, hjoin⟩ := (ih hlen').mp hdims
            refine ⟨congrArg Nat.succ hdlen, fun k hk => ?_⟩
            obtain hlt | rfl : k < lhs.length ∨ k = lhs.length := Nat.lt_succ_iff_lt_or_eq.mp hk
            · rw [fromRight_cons_of_lt v hlt, fromRight_cons_of_lt r (hlen' ▸ hlt),
                fromRight_cons_of_lt d (hdlen ▸ hlt)]
              exact hjoin k hlt
            · have hv := fromRight_cons_length v lhs
              have hr := fromRight_cons_length r rhs
              have hd' := fromRight_cons_length d dims
              rw [← hlen'] at hr
              rw [hdlen] at hd'
              rw [hv, hr, hd']
              exact broadcastDim_eq_some.mp hd
          · rintro ⟨hreslen, hjoin⟩
            cases res with
            | nil => cases hreslen
            | cons d dims =>
                have hdlen : dims.length = lhs.length := Nat.succ.inj hreslen
                refine ⟨d, dims, ?_, (ih hlen').mpr ⟨hdlen, fun k hk => ?_⟩, rfl⟩
                · have hlast := hjoin lhs.length (Nat.lt_succ_self _)
                  have hr := fromRight_cons_length r rhs
                  have hd' := fromRight_cons_length d dims
                  rw [← hlen'] at hr
                  rw [hdlen] at hd'
                  rw [fromRight_cons_length, hr, hd'] at hlast
                  exact broadcastDim_eq_some.mpr hlast
                · have hk' := hjoin k (Nat.lt_succ_of_lt hk)
                  rwa [fromRight_cons_of_lt v hk, fromRight_cons_of_lt r (hlen' ▸ hk),
                    fromRight_cons_of_lt d (hdlen ▸ hk)] at hk'

theorem broadcastShapeBody_eq_ok {lhs rhs d : List Nat} (hle : rhs.length ≤ lhs.length) :
    broadcastShapeBody lhs rhs = .ok d ↔ d.length = lhs.length ∧
      ∀ k, JoinsTo (fromRight lhs k) (fromRight rhs k) (fromRight d k) := by
  have hdrop : (lhs.drop (lhs.length - rhs.length)).length = rhs.length := by
    rw [List.length_drop]
    omega
  generalize hrem : lhs.length - rhs.length = rem at hdrop
  have hlength : lhs.length = rem + rhs.length := by omega
  have hbody : broadcastShapeBody lhs rhs = .ok d ↔
      ∃ res, broadcastDims (lhs.drop rem) rhs = some res ∧ lhs.take rem ++ res = d := by
    unfold broadcastShapeBody
    dsimp only
    rw [hrem]
    cases broadcastDims (lhs.drop rem) rhs with
    | none => simp
    | some res => simp
  have hinner : ∀ (l : List Nat), l.length = lhs.length → ∀ k < rhs.length,
      fromRight l k = fromRight (l.drop rem) k := by
    intro l hl k hk
    have hpart := @fromRight_append_of_lt (l.drop rem) k (l.take rem) (by rw [List.length_drop]; omega)
    rwa [List.take_append_drop] at hpart
  have houter : ∀ (l : List Nat), l.length = lhs.length → ∀ k,
      fromRight l (rhs.length + k) = fromRight (l.take rem) k := by
    intro l hl k
    have hpart := fromRight_append_add (l.take rem) (l.drop rem) k
    rwa [List.take_append_drop, List.length_drop, hl, hlength, Nat.add_sub_cancel_left] at hpart
  have hpad : ∀ k, fromRight rhs (rhs.length + k) = 1 := fun k => fromRight_of_le (Nat.le_add_right _ k)
  rw [hbody]
  simp only [broadcastDims_eq_some hdrop, hdrop]
  constructor
  · rintro ⟨res, ⟨hres, hjoin⟩, rfl⟩
    have hlen : (lhs.take rem ++ res).length = lhs.length := by
      rw [List.length_append, List.length_take, hres]
      omega
    have htake : (lhs.take rem).length = rem := by
      rw [List.length_take]
      omega
    refine ⟨hlen, fun k => ?_⟩
    obtain hk | ⟨j, rfl⟩ : k < rhs.length ∨ ∃ j, k = rhs.length + j := by
      by_cases hk : k < rhs.length
      · exact Or.inl hk
      · exact Or.inr ⟨k - rhs.length, by omega⟩
    · rw [hinner lhs rfl k hk, hinner _ hlen k hk, List.drop_left' htake]
      exact hjoin k hk
    · rw [hpad, JoinsTo.one_iff, houter lhs rfl, houter _ hlen, List.take_left' htake]
  · rintro ⟨hlen, hjoin⟩
    refine ⟨d.drop rem, ⟨by rw [List.length_drop]; omega, fun k hk => ?_⟩, ?_⟩
    · rw [← hinner lhs rfl k hk, ← hinner d hlen k hk]
      exact hjoin k
    · have htake : lhs.take rem = d.take rem := by
        refine ext_fromRight (by rw [List.length_take, List.length_take, hlen]) fun k => ?_
        have hk := hjoin (rhs.length + k)
        rw [hpad, JoinsTo.one_iff, houter lhs rfl, houter d hlen] at hk
        exact hk.symm
      rw [htake, List.take_append_drop]

theorem broadcastShape_eq_ok {a b d : ResolvedTensorDims} :
    broadcastShape a b = .ok d ↔ d.length = max a.length b.length ∧
      ∀ k, JoinsTo (fromRight a k) (fromRight b k) (fromRight d k) := by
  unfold broadcastShape
  split
  · rename_i hlt
    rw [broadcastShapeBody_eq_ok hlt.le, Nat.max_eq_right hlt.le]
    exact and_congr_right fun _ => forall_congr' fun k => JoinsTo.comm
  · rename_i hge
    rw [broadcastShapeBody_eq_ok (Nat.le_of_not_lt hge), Nat.max_eq_left (Nat.le_of_not_lt hge)]

/-! ### The rule -/

/-- The dims agree on every axis, or one of them is 1 there. -/
def Compatible (a b : ResolvedTensorDims) : Prop :=
  ∀ k, fromRight a k = fromRight b k ∨ fromRight a k = 1 ∨ fromRight b k = 1

/-- The general broadcasting rule of numpy. -/
def NumpyRule (a b : ResolvedTensorDims) : Prop :=
  ((∃ d, broadcastShape a b = .ok d) ↔ Compatible a b) ∧
    ∀ d, broadcastShape a b = .ok d → d.length = max a.length b.length ∧
      ∀ k, fromRight d k = if fromRight a k = 1 then fromRight b k else fromRight a k

theorem broadcastShape_self (a : ResolvedTensorDims) : broadcastShape a a = .ok a :=
  broadcastShape_eq_ok.mpr ⟨(Nat.max_self _).symm, fun _ => JoinsTo.self _⟩

/-- Dims that broadcast to others, axis by axis. -/
theorem broadcasts_iff {before after : List Nat} : Broadcasts before after ↔
    before.length ≤ after.length ∧ ∀ k, fromRight before k = fromRight after k ∨ fromRight before k = 1 := by
  unfold Broadcasts
  refine and_congr_right fun hle => ?_
  have hlen : before.length = (after.drop (after.length - before.length)).length := by
    rw [List.length_drop]
    omega
  rw [← List.forall₂_reverse_iff, List.forall₂_iff_get]
  simp only [List.length_reverse, ← hlen, List.get_eq_getElem, true_and]
  -- an axis of the longer dims, counted from the right
  have hright : ∀ k < before.length, fromRight (after.drop (after.length - before.length)) k = fromRight after k := by
    intro k hk
    conv_rhs => rw [← List.take_append_drop (after.length - before.length) after]
    rw [fromRight_append_of_lt _ (by omega)]
  constructor
  · intro h k
    by_cases hk : k < before.length
    · have haxis := h k hk (by omega)
      rw [← hright k hk, fromRight, fromRight, List.getD_eq_getElem _ _ (by simpa using hk),
        List.getD_eq_getElem _ _ (by simpa [← hlen] using hk)]
      exact haxis.symm
    · exact .inr (fromRight_of_le (by omega))
  · intro h k hk _
    have haxis := h k
    rw [← hright k hk, fromRight, fromRight, List.getD_eq_getElem _ _ (by simpa using hk),
      List.getD_eq_getElem _ _ (by simpa [← hlen] using hk)] at haxis
    exact haxis.symm

/-- The shape of a broadcast is that of one side exactly if the other one broadcasts to it. -/
theorem broadcastShape_eq_left {a b : ResolvedTensorDims} : broadcastShape a b = .ok a ↔ Broadcasts b a := by
  rw [broadcastShape_eq_ok, broadcasts_iff, eq_comm, max_eq_left_iff]
  refine and_congr_right fun _ => forall_congr' fun k => ?_
  unfold JoinsTo
  omega

theorem broadcastShape_comm {a b d : ResolvedTensorDims} :
    broadcastShape a b = .ok d ↔ broadcastShape b a = .ok d := by
  rw [broadcastShape_eq_ok, broadcastShape_eq_ok, Nat.max_comm]
  exact and_congr_right fun _ => forall_congr' fun k => JoinsTo.comm

theorem broadcastShape_assoc {a b c ab bc d d' : ResolvedTensorDims} (hab : broadcastShape a b = .ok ab)
    (h : broadcastShape ab c = .ok d) (hbc : broadcastShape b c = .ok bc) (h' : broadcastShape a bc = .ok d') :
    d = d' := by
  obtain ⟨hablen, hab⟩ := broadcastShape_eq_ok.mp hab
  obtain ⟨hbclen, hbc⟩ := broadcastShape_eq_ok.mp hbc
  obtain ⟨hlen, h⟩ := broadcastShape_eq_ok.mp h
  obtain ⟨hlen', h'⟩ := broadcastShape_eq_ok.mp h'
  refine ext_fromRight ?_ fun k => JoinsTo.assoc (hab k) (h k) (hbc k) (h' k)
  rw [hlen, hablen, hlen', hbclen, Nat.max_assoc]

/-- Compatible dims have a join, which is found axis by axis. -/
theorem exists_broadcastShape {a b : ResolvedTensorDims} (h : Compatible a b) : ∃ d, broadcastShape a b = .ok d := by
  choose join hjoin using fun k => JoinsTo.exists_iff.mpr (h k)
  refine ⟨((List.range (max a.length b.length)).map join).reverse, broadcastShape_eq_ok.mpr ⟨by simp, fun k => ?_⟩⟩
  rw [fromRight.eq_def (List.reverse _), List.reverse_reverse]
  by_cases hk : k < max a.length b.length
  · rw [List.getD_eq_getElem _ _ (by simpa using hk), List.getElem_map, List.getElem_range]
    exact hjoin k
  · rw [List.getD_eq_default _ _ (by simpa using hk), fromRight_of_le (by omega), fromRight_of_le (by omega)]
    exact JoinsTo.self 1

theorem numpyRule (a b : ResolvedTensorDims) : NumpyRule a b := by
  refine ⟨⟨?_, exists_broadcastShape⟩, fun d hd => ?_⟩
  · rintro ⟨d, hd⟩ k
    exact JoinsTo.exists_iff.mp ⟨_, (broadcastShape_eq_ok.mp hd).2 k⟩
  · obtain ⟨hlen, hjoin⟩ := broadcastShape_eq_ok.mp hd
    refine ⟨hlen, fun k => ?_⟩
    have hk := hjoin k
    unfold JoinsTo at hk
    split <;> omega

/-! ### Addresses -/

theorem elementAt_append {stride idx : List Nat} (h : idx.length = stride.length) (stride' idx' : List Nat) :
    elementAt (stride ++ stride') (idx ++ idx') = elementAt stride idx + elementAt stride' idx' := by
  rw [elementAt, List.zipWith_append h, List.sum_append]
  rfl

theorem elementAt_zeros (k : Nat) (idx : List Nat) : elementAt (List.replicate k 0) idx = 0 := by
  induction k generalizing idx with
  | zero => rw [List.replicate_zero, elementAt, List.zipWith_nil_right, List.sum_nil]
  | succ k ih =>
      cases idx with
      | nil => rfl
      | cons i idx => rw [List.replicate_succ, elementAt_cons, ih, Nat.mul_zero]

theorem elementAt_reverse {stride idx : List Nat} (h : idx.length = stride.length) :
    elementAt stride.reverse idx.reverse = elementAt stride idx := by
  rw [elementAt, ← List.reverse_zipWith h, List.sum_reverse]
  rfl

/-- Axes further out than the strides do not count. -/
theorem elementAt_reverse_append {stride idx : List Nat} (h : idx.length = stride.length) (outer : List Nat) :
    elementAt stride.reverse (outer ++ idx).reverse = elementAt stride idx := by
  have hnil := @elementAt_append stride.reverse idx.reverse (by simpa using h) [] outer.reverse
  rw [List.append_nil, elementAt_reverse h] at hnil
  have hzero : elementAt [] outer.reverse = 0 := by rw [elementAt, List.zipWith_nil_right, List.sum_nil]
  rw [List.reverse_append, hnil, hzero, Nat.add_zero]

theorem clamp_reverse_append {dims idx : List Nat} (h : idx.length = dims.length) (outer : List Nat) :
    clamp dims.reverse (outer ++ idx).reverse = (clamp dims idx).reverse := by
  have hlen : dims.reverse.length = idx.reverse.length := by simpa using h.symm
  have hnil : clamp (dims.reverse ++ []) (idx.reverse ++ outer.reverse) =
      clamp dims.reverse idx.reverse ++ clamp [] outer.reverse := List.zipWith_append hlen
  rw [List.append_nil, show clamp [] outer.reverse = [] from List.zipWith_nil_left, List.append_nil] at hnil
  rw [List.reverse_append, hnil, clamp, clamp, List.reverse_zipWith h.symm]

/-- The index of a stretched axis is dropped without a change of the address exactly when its stride is 0.  The
lists begin with the last axis. -/
theorem clamp_addresses_iff {dims target stride : List Nat} (hlen : stride.length = dims.length)
    (hle : dims.length ≤ target.length) (hpos : ∀ d ∈ target, 0 < d)
    (hstretch : ∀ k, dims.getD k 1 = 1 ∨ dims.getD k 1 = target.getD k 1) :
    (∀ idx, Inside idx target → elementAt stride idx = elementAt stride (clamp dims idx)) ↔
      ∀ k, dims.getD k 1 = 1 → target.getD k 1 ≠ 1 → stride.getD k 0 = 0 := by
  induction dims generalizing target stride with
  | nil =>
      obtain rfl := List.length_eq_zero_iff.mp hlen
      refine iff_of_true (fun idx _ => ?_) fun _ _ _ => rfl
      rw [elementAt, elementAt, List.zipWith_nil_right, List.zipWith_nil_right]
  | cons d dims ih =>
      cases stride with
      | nil => cases hlen
      | cons s stride =>
          cases target with
          | nil => exact absurd hle (Nat.not_succ_le_zero _)
          | cons t target =>
              obtain ⟨ht, hpos'⟩ := List.forall_mem_cons.mp hpos
              have hhead : d = 1 ∨ d = t := hstretch 0
              have hih := @ih target stride (Nat.succ.inj hlen) (Nat.le_of_succ_le_succ hle) hpos'
                fun k => hstretch (k + 1)
              constructor
              · intro h k
                cases k with
                | zero =>
                    intro hd ht1
                    change d = 1 at hd
                    change t ≠ 1 at ht1
                    show s = 0
                    -- The first two elements along the axis come from the same one.
                    have hlt : 1 < t := by omega
                    have hone := h (1 :: List.replicate target.length 0) (.cons hlt (inside_replicate_zero hpos'))
                    have hzero := h (0 :: List.replicate target.length 0) (.cons ht (inside_replicate_zero hpos'))
                    rw [clamp, List.zipWith_cons_cons, ← clamp, elementAt_cons, elementAt_cons, if_pos hd] at hone hzero
                    omega
                | succ k =>
                    refine hih.mp (fun idx hidx => ?_) k
                    have heq := h (0 :: idx) (.cons ht hidx)
                    rw [clamp, List.zipWith_cons_cons, ← clamp, elementAt_cons, elementAt_cons, ite_self] at heq
                    omega
              · intro h idx hidx
                cases hidx with
                | @cons i _ idx _ hi hidx =>
                    have htail := hih.mpr (fun k => h (k + 1)) idx hidx
                    rw [clamp, List.zipWith_cons_cons, ← clamp, elementAt_cons, elementAt_cons, htail]
                    split
                    · rename_i hd
                      by_cases ht1 : t = 1
                      · obtain rfl : i = 0 := by omega
                        rfl
                      · have hs : s = 0 := h 0 hd ht1
                        rw [hs]
                        omega
                    · rfl

namespace ResolvedTensorType

/-- `broadcast` to these dims addresses the element that numpy selects: the axes are aligned on the right, and
the index of an axis of extent one is 0. -/
def BroadcastAddresses (ty : ResolvedTensorType) (d : ResolvedTensorDims) : Prop :=
  ∃ ty', ty.broadcast d = some ty' ∧ ty'.dims = d ∧ ∀ idx, Inside idx d →
    elementAt ty'.stride idx = elementAt ty.stride (clamp ty.dims (idx.drop (d.length - ty.dims.length)))

/-- No axis that the other dims stretch has a stride. -/
def StretchesFlat (ty : ResolvedTensorType) (other : ResolvedTensorDims) : Prop :=
  ∀ k, fromRight ty.dims k = 1 → fromRight other k ≠ 1 → ty.stride.reverse.getD k 0 = 0

/-- The type has no strides at all, or a stride for every axis, 0 on the axes that the other dims stretch unless
there are no elements. -/
def BroadcastsFlat (ty : ResolvedTensorType) (other : ResolvedTensorDims) : Prop :=
  ty.stride = [] ∨ ty.stride.length = ty.dims.length ∧ (0 ∈ ty.dims ∨ 0 ∈ other ∨ ty.StretchesFlat other)

variable {ty : ResolvedTensorType} {other d : ResolvedTensorDims}

theorem broadcast_eq_some (hlen : ty.stride.length = ty.dims.length) (hle : ty.dims.length ≤ d.length) :
    ty.broadcast d = some ⟨ty.elemType, d, List.replicate (d.length - ty.dims.length) 0 ++ ty.stride⟩ := by
  unfold broadcast
  split
  · rename_i hnil
    have hzero : ty.dims.length = 0 := by rw [← hlen, List.isEmpty_iff.mp hnil, List.length_nil]
    rw [List.isEmpty_iff.mp hnil, hzero, Nat.sub_zero, List.append_nil]
  · exact if_neg (by omega)

/-- The addresses with the axes from the last one on. -/
theorem broadcastAddresses_aligned (hlen : ty.stride.length = ty.dims.length) (hle : ty.dims.length ≤ d.length) :
    ty.BroadcastAddresses d ↔ ∀ idx, Inside idx d.reverse →
      elementAt ty.stride.reverse idx = elementAt ty.stride.reverse (clamp ty.dims.reverse idx) := by
  have hone : ∀ idx, idx.length = d.length →
      (elementAt (List.replicate (d.length - ty.dims.length) 0 ++ ty.stride) idx =
        elementAt ty.stride (clamp ty.dims (idx.drop (d.length - ty.dims.length))) ↔
      elementAt ty.stride.reverse idx.reverse =
        elementAt ty.stride.reverse (clamp ty.dims.reverse idx.reverse)) := by
    intro idx hidx
    have htake : (idx.take (d.length - ty.dims.length)).length =
        (List.replicate (d.length - ty.dims.length) 0).length := by
      rw [List.length_take, List.length_replicate]
      omega
    have hdrop : (idx.drop (d.length - ty.dims.length)).length = ty.dims.length := by
      rw [List.length_drop]
      omega
    have hclamp : (clamp ty.dims (idx.drop (d.length - ty.dims.length))).length = ty.stride.length := by
      rw [clamp, List.length_zipWith, hdrop, Nat.min_self, hlen]
    have hsplit := List.take_append_drop (d.length - ty.dims.length) idx
    have hleft := elementAt_append htake ty.stride (idx.drop (d.length - ty.dims.length))
    rw [hsplit, elementAt_zeros, Nat.zero_add] at hleft
    have hright := elementAt_reverse_append (hdrop.trans hlen.symm) (idx.take (d.length - ty.dims.length))
    rw [hsplit] at hright
    have hclamped := clamp_reverse_append hdrop (idx.take (d.length - ty.dims.length))
    rw [hsplit] at hclamped
    rw [hleft, hright, hclamped, elementAt_reverse hclamp]
  constructor
  · rintro ⟨ty', hty, -, h⟩ idx hidx
    rw [broadcast_eq_some hlen hle] at hty
    cases hty
    have hinside : Inside idx.reverse d := List.forall₂_reverse_iff.mp (by rwa [List.reverse_reverse])
    have heq := (hone _ hinside.length_eq).mp (h _ hinside)
    rwa [List.reverse_reverse] at heq
  · intro h
    exact ⟨_, broadcast_eq_some hlen hle, rfl, fun idx hidx =>
      (hone idx hidx.length_eq).mpr (h _ (List.forall₂_reverse_iff.mpr hidx))⟩

theorem broadcastAddresses_iff (hd : broadcastShape ty.dims other = .ok d) :
    ty.BroadcastAddresses d ↔ ty.BroadcastsFlat other := by
  obtain ⟨hlength, hjoin⟩ := broadcastShape_eq_ok.mp hd
  have hle : ty.dims.length ≤ d.length := hlength ▸ Nat.le_max_left _ _
  unfold BroadcastsFlat
  by_cases hnil : ty.stride = []
  · refine iff_of_true ⟨_, if_pos (by rw [hnil]; rfl), rfl, fun idx _ => ?_⟩ (Or.inl hnil)
    rw [hnil, elementAt_zeros, elementAt, List.zipWith_nil_right, List.sum_nil]
  rw [or_iff_right hnil]
  by_cases hlen : ty.stride.length = ty.dims.length
  swap
  · refine iff_of_false ?_ fun h => hlen h.1
    rintro ⟨ty', hty, -⟩
    unfold broadcast at hty
    rw [if_neg (by rwa [List.isEmpty_iff]), if_pos (Or.inr hlen)] at hty
    cases hty
  rw [and_iff_right hlen, broadcastAddresses_aligned hlen hle]
  by_cases hzero : 0 ∈ d
  · -- No index is inside the dims.
    refine iff_of_true (fun idx hidx => ?_) ?_
    · exact absurd (hidx.pos 0 (List.mem_reverse.mpr hzero)) (Nat.lt_irrefl 0)
    · obtain ⟨k, hk⟩ := mem_iff_fromRight.mp hzero
      have hk' := hjoin k
      rw [hk] at hk'
      obtain ⟨hleft, -⟩ | ⟨hright, -⟩ := hk'
      · exact Or.inl (mem_iff_fromRight.mpr ⟨k, hleft.symm⟩)
      · exact Or.inr (Or.inl (mem_iff_fromRight.mpr ⟨k, hright.symm⟩))
  · have hdims : 0 ∉ ty.dims := fun hmem => hzero (mem_of_join_left hjoin hmem)
    have hother : 0 ∉ other := fun hmem => hzero (mem_of_join_left (fun k => JoinsTo.comm.mp (hjoin k)) hmem)
    rw [or_iff_right hdims, or_iff_right hother]
    have hpos : ∀ x ∈ d.reverse, 0 < x :=
      fun x hx => Nat.pos_of_ne_zero fun h => hzero (h ▸ List.mem_reverse.mp hx)
    rw [clamp_addresses_iff (by simpa using hlen) (by simpa using hle) hpos fun k => ?_]
    · -- Where the extent is 1, the target has the other extent.
      refine forall_congr' fun k => forall_congr' fun hk => ?_
      have hk' := hjoin k
      unfold JoinsTo at hk'
      have heq : fromRight d k = fromRight other k := by
        change fromRight ty.dims k = 1 at hk
        omega
      rw [← heq]
      rfl
    · have hk := hjoin k
      unfold JoinsTo at hk
      change fromRight ty.dims k = 1 ∨ fromRight ty.dims k = fromRight d k
      omega

/-- `broadcast_shape` is numpy's rule, commutative, idempotent and associative, and the operands that are
broadcast to its result address what numpy selects exactly if the strides of the stretched axes are 0. -/
theorem broadcastShape_numpy_iff (a b c : ResolvedTensorDims) (lhs rhs : ResolvedTensorType) :
    (NumpyRule a b ∧ (∀ d, broadcastShape a b = .ok d ↔ broadcastShape b a = .ok d) ∧
      broadcastShape a a = .ok a ∧
      (∀ ab bc d d', broadcastShape a b = .ok ab → broadcastShape ab c = .ok d → broadcastShape b c = .ok bc →
        broadcastShape a bc = .ok d' → d = d') ∧
      ∀ d, broadcastShape lhs.dims rhs.dims = .ok d → lhs.BroadcastAddresses d ∧ rhs.BroadcastAddresses d) ↔
      (Compatible lhs.dims rhs.dims → lhs.BroadcastsFlat rhs.dims ∧ rhs.BroadcastsFlat lhs.dims) := by
  rw [and_iff_right (numpyRule a b), and_iff_right fun d => broadcastShape_comm,
    and_iff_right (broadcastShape_self a),
    and_iff_right fun ab bc d d' hab h hbc h' => broadcastShape_assoc hab h hbc h']
  constructor
  · intro h hcompat
    obtain ⟨d, hd⟩ := exists_broadcastShape hcompat
    exact ⟨(broadcastAddresses_iff hd).mp (h d hd).1,
      (broadcastAddresses_iff (broadcastShape_comm.mp hd)).mp (h d hd).2⟩
  · intro h d hd
    obtain ⟨hlhs, hrhs⟩ := h ((numpyRule _ _).1.mp ⟨d, hd⟩)
    exact ⟨(broadcastAddresses_iff hd).mpr hlhs, (broadcastAddresses_iff (broadcastShape_comm.mp hd)).mpr hrhs⟩

/-- Parameters of one channel, spread over an image and then stretched to four channels. -/
theorem channel_broadcast_moves :
    Built ⟨.float .F32, [2, 1, 3], [0, 1, 0]⟩ ∧ broadcastShape [2, 1, 3] [2, 4, 3] = .ok [2, 4, 3] ∧
      ¬ (⟨.float .F32, [2, 1, 3], [0, 1, 0]⟩ : ResolvedTensorType).BroadcastAddresses [2, 4, 3] := by
  refine ⟨@Built.extendPerChannelParams (.new (.float .F32) [1]) _ [2, 1, 3] (.new _ _) rfl, rfl, ?_⟩
  rintro ⟨ty', hty, -, h⟩
  cases hty
  exact absurd (h [0, 1, 0] (by simp)) (by decide)

end ResolvedTensorType

end NnEngine
