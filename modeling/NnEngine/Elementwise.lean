import NnEngine.NdArray
import NnEngine.Tensor.BroadcastShape

/-!
# Elementwise operators

Operators on arrays that broadcast.  An expression of such operators is seen from one shape: an operand
that broadcasts to it is `Spread`, and the element of the result at an index is the expression of the
elements that the operands are read at there.
-/

namespace NnEngine

variable {before mid after d idx : List Nat}

/-! ### Broadcasts to a third shape -/

theorem clamp_clamp {s t i : List Nat} (h : List.Forall₂ (fun b a => b = 1 ∨ b = a) s t) :
    clamp s (clamp t i) = clamp s i := by
  induction h generalizing i with
  | nil => rfl
  | cons hab _ ih =>
      cases i with
      | nil => rfl
      | cons j i =>
          unfold clamp at ih ⊢
          rw [List.zipWith_cons_cons, List.zipWith_cons_cons, List.zipWith_cons_cons, ih]
          congr 1
          split
          · rfl
          · rename_i hne
            rw [← hab.resolve_left hne, if_neg hne]

theorem drop_clamp (k : Nat) (s i : List Nat) : (clamp s i).drop k = clamp (s.drop k) (i.drop k) := by
  unfold clamp
  rw [List.drop_zipWith]

/-- The sources of two broadcasts compose. -/
theorem broadcastSource_trans (h : Broadcasts before mid) (h' : Broadcasts mid after) (idx : List Nat) :
    broadcastSource before mid (broadcastSource mid after idx) = broadcastSource before after idx := by
  unfold broadcastSource
  rw [drop_clamp, clamp_clamp h.2, List.drop_drop]
  congr 2
  have hle := h.1
  have hle' := h'.1
  omega

theorem Broadcasts.refl (s : List Nat) : Broadcasts s s := broadcasts_iff.mpr ⟨Nat.le_refl _, fun _ => .inl rfl⟩

theorem Broadcasts.trans (h : Broadcasts before mid) (h' : Broadcasts mid after) : Broadcasts before after := by
  rw [broadcasts_iff] at h h' ⊢
  refine ⟨Nat.le_trans h.1 h'.1, fun k => ?_⟩
  have hk := h.2 k
  have hk' := h'.2 k
  omega

theorem Broadcasts.antisymm {a b : List Nat} (h : Broadcasts a b) (h' : Broadcasts b a) : a = b :=
  Except.ok.inj ((broadcastShape_eq_left.mpr h').symm.trans
    (broadcastShape_comm.mp (broadcastShape_eq_left.mpr h)))

theorem inside_broadcastSource (h : Broadcasts before after) (hidx : Inside idx after) :
    Inside (broadcastSource before after idx) before :=
  inside_clamp h.2 (List.forall₂_drop _ hidx)

/-- The shape of a broadcast, of which both sides are broadcasts. -/
theorem broadcasts_of_shape {a b : List Nat} (h : broadcastShape a b = .ok d) :
    Broadcasts a d ∧ Broadcasts b d := by
  obtain ⟨hlen, hjoin⟩ := broadcastShape_eq_ok.mp h
  rw [broadcasts_iff, broadcasts_iff]
  refine ⟨⟨by omega, fun k => ?_⟩, by omega, fun k => ?_⟩ <;>
  · have hk := hjoin k
    unfold JoinsTo at hk
    omega

/-- It broadcasts to every shape that both sides broadcast to. -/
theorem broadcasts_of_join {a b e : List Nat} (h : broadcastShape a b = .ok d) (ha : Broadcasts a e)
    (hb : Broadcasts b e) : Broadcasts d e := by
  obtain ⟨hlen, hjoin⟩ := broadcastShape_eq_ok.mp h
  rw [broadcasts_iff] at ha hb ⊢
  refine ⟨by omega, fun k => ?_⟩
  have hk := hjoin k
  have hak := ha.2 k
  have hbk := hb.2 k
  unfold JoinsTo at hk
  omega

/-- A shape of one element broadcasts to every shape of its rank or more. -/
theorem broadcasts_of_prod_one {s : List Nat} (h : s.prod = 1) (hle : s.length ≤ d.length) :
    Broadcasts s d := by
  refine broadcasts_iff.mpr ⟨hle, fun k => .inr ?_⟩
  unfold fromRight
  by_cases hk : k < s.reverse.length
  · rw [List.getD_eq_getElem _ _ hk]
    exact Nat.eq_one_of_dvd_one (h ▸ List.dvd_prod (List.mem_reverse.mp (List.getElem_mem hk)))
  · rw [List.getD_eq_default _ _ (Nat.le_of_not_lt hk)]

namespace NdArray

variable {α β γ : Type} [Zero α] [Zero β] {x x' : NdArray α} {y y' : NdArray β} {z : NdArray γ}
  {f : List Nat → α} {g : List Nat → β}

/-- The element that a broadcast to `d` has at an index. -/
def read (x : NdArray α) (d idx : List Nat) : α := x.get (broadcastSource x.shape d idx)

/-- An elementwise operator of one operand. -/
def unary (op : α → β) (x : NdArray α) : NdArray β := .tabulate x.shape fun idx => op (x.get idx)

/-- An elementwise operator of two operands, which broadcast. -/
def Binary (op : α → β → γ) (x : NdArray α) (y : NdArray β) (z : NdArray γ) : Prop :=
  ∃ d, broadcastShape x.shape y.shape = .ok d ∧
    z = .tabulate d fun idx => op (x.read d idx) (y.read d idx)

/-- A broadcast. -/
def expand (x : NdArray α) (d : List Nat) : NdArray α := .tabulate d (x.read d)

theorem read_of_inside (h : x.shape = d) (hidx : Inside idx d) : x.read d idx = x.get idx := by
  unfold read broadcastSource
  rw [h, Nat.sub_self, List.drop_zero, clamp_of_inside hidx]

theorem expand_self (x : NdArray α) : x.expand x.shape = x := by
  refine ext_get rfl fun idx hidx => ?_
  have hinside : Inside idx x.shape := hidx
  rw [expand, get_tabulate hinside, read_of_inside rfl hinside]

theorem Binary.symm {op : α → β → γ} (h : Binary op x y z) : Binary (fun a b => op b a) y x z := by
  obtain ⟨d, hd, rfl⟩ := h
  exact ⟨d, broadcastShape_comm.mp hd, rfl⟩

theorem Binary.length_left {op : α → β → γ} (h : Binary op x y z) : x.shape.length ≤ z.shape.length := by
  obtain ⟨d, hd, rfl⟩ := h
  exact (broadcasts_of_shape hd).1.1

theorem Binary.length_right {op : α → β → γ} (h : Binary op x y z) : y.shape.length ≤ z.shape.length := by
  obtain ⟨d, hd, rfl⟩ := h
  exact (broadcasts_of_shape hd).2.1

/-! ### Arrays seen from a shape -/

/-- The array broadcasts to the shape, and this is what it is read as. -/
structure Spread (x : NdArray α) (d : List Nat) (f : List Nat → α) : Prop where
  broadcasts : Broadcasts x.shape d
  read_eq : ∀ idx, Inside idx d → x.read d idx = f idx

theorem spread_read (h : Broadcasts x.shape d) : x.Spread d (x.read d) := ⟨h, fun _ _ => rfl⟩

theorem spread_self (x : NdArray α) : x.Spread x.shape x.get :=
  ⟨.refl _, fun _ hidx => read_of_inside rfl hidx⟩

/-- An array of one element. -/
theorem spread_single {a : α} (h : x.data = [a]) (hle : x.shape.length ≤ d.length) :
    x.Spread d fun _ => a := by
  have hprod : x.shape.prod = 1 := by rw [← x.hsize, h, List.length_singleton]
  have hb := broadcasts_of_prod_one hprod hle
  refine ⟨hb, fun idx hidx => ?_⟩
  have hlt := rowMajor_lt (inside_broadcastSource hb hidx)
  rw [hprod, Nat.lt_one_iff] at hlt
  rw [read, get, at?, hlt, h]
  rfl

theorem Spread.congr {f' : List Nat → α} (h : x.Spread d f) (hf : ∀ idx, Inside idx d → f idx = f' idx) :
    x.Spread d f' := ⟨h.broadcasts, fun idx hidx => (h.read_eq idx hidx).trans (hf idx hidx)⟩

theorem Spread.unary (h : x.Spread d f) (op : α → β) : (unary op x).Spread d fun idx => op (f idx) := by
  refine ⟨h.broadcasts, fun idx hidx => ?_⟩
  rw [← h.read_eq idx hidx]
  exact get_tabulate (inside_broadcastSource h.broadcasts hidx)

/-- An operator is seen from every shape that its operands are seen from. -/
theorem Spread.binary [Zero γ] {op : α → β → γ} (hx : x.Spread d f) (hy : y.Spread d g) (h : Binary op x y z) :
    z.Spread d fun idx => op (f idx) (g idx) := by
  obtain ⟨e, he, rfl⟩ := h
  obtain ⟨hxe, hye⟩ := broadcasts_of_shape he
  have hed := broadcasts_of_join he hx.broadcasts hy.broadcasts
  refine ⟨hed, fun idx hidx => ?_⟩
  rw [← hx.read_eq idx hidx, ← hy.read_eq idx hidx]
  have hget : (tabulate e fun idx => op (x.read e idx) (y.read e idx)).read d idx =
      op (x.read e (broadcastSource e d idx)) (y.read e (broadcastSource e d idx)) :=
    get_tabulate (inside_broadcastSource hed hidx)
  rw [hget]
  unfold read
  rw [broadcastSource_trans hxe hed, broadcastSource_trans hye hed]

/-- An array of the shape is what it is read as. -/
theorem Spread.eq_tabulate (h : x.Spread d f) (hd : x.shape = d) : x = .tabulate d f := by
  refine ext_get hd fun idx hidx => ?_
  rw [hd] at hidx
  rw [get_tabulate hidx, ← h.read_eq idx hidx, read_of_inside hd hidx]

/-- An operator whose second operand broadcasts to the first. -/
theorem Binary.of_broadcasts [Zero γ] {op : α → β → γ} (h : Binary op x y z) (hb : Broadcasts y.shape x.shape) :
    z = .tabulate x.shape fun idx => op (x.get idx) (y.read x.shape idx) := by
  refine ((spread_self x).binary (spread_read hb) h).eq_tabulate ?_
  obtain ⟨d, hd, rfl⟩ := h
  exact (Except.ok.inj (hd.symm.trans (broadcastShape_eq_left.mpr hb)))

/-- The operand may be broadcast first. -/
theorem Binary.expand_right [Zero γ] {op : α → β → γ} (h : Binary op x y z) (hb : Broadcasts y.shape x.shape) :
    Binary op x (y.expand x.shape) z := by
  refine ⟨x.shape, broadcastShape_self x.shape, ?_⟩
  rw [h.of_broadcasts hb]
  refine tabulate_congr fun idx hidx => ?_
  have hread : (y.expand x.shape).read x.shape idx = (y.expand x.shape).get idx := read_of_inside rfl hidx
  rw [read_of_inside rfl hidx, hread, expand, get_tabulate hidx]

/-- The trailing axes. -/
theorem spread_drop {k : Nat} (hk : k ≤ d.length) (h : x.shape = d.drop k) :
    x.Spread d fun idx => x.get (idx.drop k) := by
  have hrank : d.length - (d.drop k).length = k := by
    rw [List.length_drop]
    omega
  refine ⟨⟨by rw [h, List.length_drop]; omega, ?_⟩, fun idx hidx => ?_⟩
  · rw [h, hrank]
    exact List.forall₂_same.mpr fun _ _ => .inr rfl
  · unfold read broadcastSource
    rw [h, hrank, clamp_of_inside (List.forall₂_drop k hidx)]

/-! ### Chains of operators -/

/-- An array computed from the elements of another one.  Operands of one element may raise the rank. -/
structure Pointwise (op : α → β) (x : NdArray α) (y : NdArray β) : Prop where
  broadcasts : Broadcasts x.shape y.shape
  spread : ∀ {d f}, y.shape.length ≤ d.length → x.Spread d f → y.Spread d fun idx => op (f idx)

variable {op : α → β}

theorem pointwise_unary (op : α → β) (x : NdArray α) : Pointwise op x (unary op x) :=
  ⟨.refl _, fun _ h => h.unary op⟩

theorem Pointwise.trans [Zero γ] {op' : β → γ} (h : Pointwise op x y) (h' : Pointwise op' y z) :
    Pointwise (fun a => op' (op a)) x z where
  broadcasts := h.broadcasts.trans h'.broadcasts
  spread hle hx := h'.spread hle (h.spread (Nat.le_trans h'.broadcasts.1 hle) hx)

/-- Both operands are the array. -/
theorem Binary.pointwise_self {op : α → α → β} (h : Binary op x x y) : Pointwise (fun a => op a a) x y where
  broadcasts := by
    obtain ⟨d, hd, rfl⟩ := h
    exact (broadcasts_of_shape hd).1
  spread _ hx := hx.binary hx h

/-- The second operand has one element. -/
theorem Binary.pointwise [Zero γ] {op : α → β → γ} {b : β} (h : Binary op x y z) (hy : y.data = [b]) :
    Pointwise (fun a => op a b) x z where
  broadcasts := by
    obtain ⟨d, hd, rfl⟩ := h
    exact (broadcasts_of_shape hd).1
  spread hle hx := hx.binary (spread_single hy (Nat.le_trans h.length_right hle)) h

/-- The same for an array of no greater rank. -/
theorem Pointwise.shape_eq (h : Pointwise op x y) (hle : y.shape.length ≤ x.shape.length) : y.shape = x.shape :=
  (h.spread hle (spread_self x)).broadcasts.antisymm h.broadcasts

/-! ### Arrays of one value -/

/-- The array with this value everywhere. -/
def fill (d : List Nat) (a : α) : NdArray α := .tabulate d fun _ => a

theorem unary_fill (op : α → β) (d : List Nat) (a : α) : unary op (fill d a) = fill d (op a) :=
  tabulate_congr fun _ hidx => congrArg op (get_tabulate hidx)

theorem binary_fill [Zero γ] (op : α → β → γ) {s t : List Nat} (h : broadcastShape s t = .ok d) (a : α) (b : β) :
    Binary op (fill s a) (fill t b) (fill d (op a b)) := by
  obtain ⟨hs, ht⟩ := broadcasts_of_shape h
  refine ⟨d, h, tabulate_congr fun idx hidx => ?_⟩
  have hread : (fill s a).read d idx = a := get_tabulate (inside_broadcastSource hs hidx)
  have hread' : (fill t b).read d idx = b := get_tabulate (inside_broadcastSource ht hidx)
  rw [hread, hread']

end NdArray
end NnEngine
