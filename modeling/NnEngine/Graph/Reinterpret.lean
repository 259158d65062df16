import NnEngine.Graph.Operator
import NnEngine.RowMajor

/-!
# Reinterpretations

What the steps of a `Contiguous` or a `Reinterpret` mean: the dims that they lead to, and the index of
the input from which they take the element at an index of the output.  A `Transpose` without `perm`
reverses the axes, and a `Broadcast` aligns the dims on the right.
-/

namespace NnEngine

variable {dims dims' idx : List Nat} {op : ReinterpretType} {ops : List ReinterpretType}

/-- Dims that broadcast, aligned on the right. -/
def Broadcasts (before after : List Nat) : Prop :=
  before.length ≤ after.length ∧
    List.Forall₂ (fun b a => b = 1 ∨ b = a) before (after.drop (after.length - before.length))

instance (before after : List Nat) : Decidable (Broadcasts before after) :=
  inferInstanceAs (Decidable (_ ∧ _))

/-- Zero on the axes of extent one. -/
def clamp (before idx : List Nat) : List Nat := List.zipWith (fun d i => if d = 1 then 0 else i) before idx

theorem inside_clamp {before l js : List Nat} (hall : List.Forall₂ (fun b a => b = 1 ∨ b = a) before l)
    (hjs : Inside js l) : Inside (clamp before js) before := by
  induction hall generalizing js with
  | nil => exact .nil
  | cons hba _ ih =>
      cases hjs with
      | cons hja hrest =>
          refine .cons ?_ (ih hrest)
          dsimp only
          split
          · omega
          · rename_i hne
            rw [hba.resolve_left hne]
            exact hja

theorem clamp_of_inside {js ds : List Nat} (h : Inside js ds) : clamp ds js = js := by
  induction h with
  | nil => rfl
  | cons hlt _ ih =>
      rw [clamp, List.zipWith_cons_cons, ← clamp, ih]
      congr 1
      split <;> omega

namespace ReinterpretType

/-- The axes of a `Transpose`. -/
def axes (perm : Option (List Nat)) (rank : Nat) : List Nat := perm.getD (List.range rank).reverse

/-- The dims after a step, which must fit the dims before it. -/
def outDims : ReinterpretType → List Nat → Option (List Nat)
  | reshape before after, dims =>
      if dims = before ∧ before.prod = after.prod then some after else none
  | transpose perm, dims =>
      if IsPerm (axes perm dims.length) dims.length then some (permute (axes perm dims.length) dims)
      else none
  | broadcast before after, dims =>
      if dims = before ∧ Broadcasts before after then some after else none

/-- The index that a step takes the element at `idx` from. -/
def source : ReinterpretType → List Nat → List Nat → List Nat
  | reshape before after, _, idx => multiIndex before (rowMajor after idx)
  | transpose perm, dims, idx => unpermute (axes perm dims.length) idx
  | broadcast before after, _, idx => clamp before (idx.drop (after.length - before.length))

/-- The row-major number that a `Transpose` takes element `n` from. -/
def turn : ReinterpretType → List Nat → Nat → Nat
  | transpose perm, dims, n =>
      rowMajor dims (unpermute (axes perm dims.length)
        (multiIndex (permute (axes perm dims.length) dims) n))
  | _, _, n => n

end ReinterpretType

open ReinterpretType

/-- The dims after all steps. -/
def outDims : List ReinterpretType → List Nat → Option (List Nat)
  | [], dims => some dims
  | op :: ops, dims => (op.outDims dims).bind (outDims ops)

/-- The index that the steps together take the element at `idx` from. -/
def source : List ReinterpretType → List Nat → List Nat → List Nat
  | [], _, idx => idx
  | op :: ops, dims, idx =>
      match op.outDims dims with
      | some dims' => op.source dims (source ops dims' idx)
      | none => []

/-- The row-major number that the transposes among the steps together take element `n` from. -/
def turns : List ReinterpretType → List Nat → Nat → Nat
  | [], _, n => n
  | op :: ops, dims, n =>
      match op.outDims dims with
      | some dims' => op.turn dims (turns ops dims' n)
      | none => n

theorem outDims_cons_eq_some (h : outDims (op :: ops) dims = some dims') :
    ∃ mid, op.outDims dims = some mid ∧ outDims ops mid = some dims' := by
  exact Option.bind_eq_some_iff.mp h

/-! ### One step -/

theorem Broadcasts.pos {before after : List Nat} (h : Broadcasts before after)
    (hpos : ∀ a ∈ after, 0 < a) : ∀ b ∈ before, 0 < b := by
  obtain ⟨-, hall⟩ := h
  have hdrop : ∀ a ∈ after.drop (after.length - before.length), 0 < a :=
    fun a ha => hpos a (List.mem_of_mem_drop ha)
  clear hpos
  generalize after.drop (after.length - before.length) = l at hall hdrop
  clear after
  induction hall with
  | nil => nofun
  | @cons b a before l hba _ ih =>
      intro x hx
      rcases List.mem_cons.mp hx with rfl | hx
      · have := hdrop a List.mem_cons_self
        rcases hba with rfl | rfl <;> omega
      · exact ih (fun y hy => hdrop y (List.mem_cons_of_mem a hy)) x hx

/-- A step takes its elements from inside the array. -/
theorem ReinterpretType.inside_source (h : op.outDims dims = some dims') (hidx : Inside idx dims') :
    Inside (op.source dims idx) dims := by
  cases op with
  | reshape before after =>
      obtain ⟨⟨rfl, hprod⟩, hdims⟩ := Option.ite_none_right_eq_some.mp h
      obtain rfl := Option.some.inj hdims
      refine multiIndex_lt (pos_of_prod_pos ?_) _
      rw [hprod]
      exact prod_pos_of_pos hidx.pos
  | transpose perm =>
      obtain ⟨hperm, hdims⟩ := Option.ite_none_right_eq_some.mp h
      obtain rfl := Option.some.inj hdims
      exact inside_unpermute hperm hidx
  | broadcast before after =>
      obtain ⟨⟨rfl, hlen, hall⟩, hdims⟩ := Option.ite_none_right_eq_some.mp h
      obtain rfl := Option.some.inj hdims
      exact inside_clamp hall (List.forall₂_drop (after.length - dims.length) hidx)

/-- A broadcast that adds no elements adds unit axes only. -/
theorem Broadcasts.prod_le {before after : List Nat} (h : Broadcasts before after)
    (hpos : ∀ a ∈ after, 0 < a) : before.prod ≤ after.prod ∧ (before.prod = after.prod →
      before = after.drop (after.length - before.length) ∧
        (after.take (after.length - before.length)).prod = 1) := by
  have hsplit : after.prod = (after.take (after.length - before.length)).prod *
      (after.drop (after.length - before.length)).prod := by
    rw [← List.prod_append, List.take_append_drop]
  have htake : 0 < (after.take (after.length - before.length)).prod :=
    prod_pos_of_pos fun a ha => hpos a (List.mem_of_mem_take ha)
  have hdrop : ∀ a ∈ after.drop (after.length - before.length), 0 < a :=
    fun a ha => hpos a (List.mem_of_mem_drop ha)
  have hinner : ∀ {before l : List Nat}, List.Forall₂ (fun b a => b = 1 ∨ b = a) before l →
      (∀ a ∈ l, 0 < a) → before.prod ≤ l.prod ∧ (before.prod = l.prod → before = l) := by
    intro before l hall
    induction hall with
    | nil => exact fun _ => ⟨Nat.le_refl _, fun _ => rfl⟩
    | @cons b a before l hba _ ih =>
        intro hl
        obtain ⟨hle, heq⟩ := ih fun x hx => hl x (List.mem_cons_of_mem a hx)
        have ha := hl a List.mem_cons_self
        have hlpos : 0 < l.prod := prod_pos_of_pos fun x hx => hl x (List.mem_cons_of_mem a hx)
        have hb : b ≤ a := by rcases hba with rfl | rfl <;> omega
        rw [List.prod_cons, List.prod_cons]
        refine ⟨Nat.mul_le_mul hb hle, fun hprod => ?_⟩
        have hbeq : b = a := by
          by_contra hne
          have hlt : b < a := by omega
          have : b * before.prod < a * l.prod :=
            Nat.lt_of_le_of_lt (Nat.mul_le_mul_left b hle) (Nat.mul_lt_mul_of_pos_right hlt hlpos)
          omega
        rw [hbeq] at hprod ⊢
        rw [heq (Nat.eq_of_mul_eq_mul_left ha hprod)]
  obtain ⟨hle, heq⟩ := hinner h.2 hdrop
  have hlpos : 0 < (after.drop (after.length - before.length)).prod := prod_pos_of_pos hdrop
  rw [hsplit]
  constructor
  · exact Nat.le_trans hle (Nat.le_mul_of_pos_left _ htake)
  · intro hprod
    have hone : (after.take (after.length - before.length)).prod = 1 := by
      have hle' : (after.take (after.length - before.length)).prod *
          (after.drop (after.length - before.length)).prod ≤
            1 * (after.drop (after.length - before.length)).prod := by omega
      have := Nat.le_of_mul_le_mul_right hle' hlpos
      omega
    rw [hone, Nat.one_mul] at hprod
    exact ⟨heq hprod, hone⟩

/-- A step that keeps the number of elements moves them only if it is a `Transpose`. -/
theorem ReinterpretType.rowMajor_source (h : op.outDims dims = some dims') (hidx : Inside idx dims')
    (hprod : dims.prod = dims'.prod) :
    rowMajor dims (op.source dims idx) = op.turn dims (rowMajor dims' idx) := by
  cases op with
  | reshape before after =>
      obtain ⟨⟨rfl, hsize⟩, hdims⟩ := Option.ite_none_right_eq_some.mp h
      obtain rfl := Option.some.inj hdims
      exact rowMajor_multiIndex (by rw [hsize]; exact rowMajor_lt hidx)
  | transpose perm =>
      obtain ⟨hperm, hdims⟩ := Option.ite_none_right_eq_some.mp h
      obtain rfl := Option.some.inj hdims
      show rowMajor dims (unpermute _ idx) = rowMajor dims (unpermute _ (multiIndex _ (rowMajor _ idx)))
      rw [multiIndex_rowMajor hidx]
  | broadcast before after =>
      obtain ⟨⟨rfl, hcast⟩, hdims⟩ := Option.ite_none_right_eq_some.mp h
      obtain rfl := Option.some.inj hdims
      obtain ⟨heq, hone⟩ := (hcast.prod_le hidx.pos).2 hprod
      have htake := List.forall₂_take (after.length - dims.length) hidx
      have hdrop := List.forall₂_drop (after.length - dims.length) hidx
      have hnumber : rowMajor after idx = rowMajor dims (idx.drop (after.length - dims.length)) := by
        conv_lhs =>
          rw [← List.take_append_drop (after.length - dims.length) after,
            ← List.take_append_drop (after.length - dims.length) idx]
        rw [rowMajor_append htake, rowMajor_of_prod_one htake hone, Nat.zero_mul, Nat.zero_add, ← heq]
      rw [← heq] at hdrop
      show rowMajor dims (clamp dims _) = rowMajor after idx
      rw [clamp_of_inside hdrop, hnumber]

theorem ReinterpretType.outDims_pos (h : op.outDims dims = some dims') (hpos : 0 < dims'.prod) :
    dims.prod ≤ dims'.prod ∧ 0 < dims.prod := by
  cases op with
  | reshape before after =>
      obtain ⟨⟨rfl, hsize⟩, hdims⟩ := Option.ite_none_right_eq_some.mp h
      obtain rfl := Option.some.inj hdims
      omega
  | transpose perm =>
      obtain ⟨hperm, hdims⟩ := Option.ite_none_right_eq_some.mp h
      obtain rfl := Option.some.inj hdims
      rw [prod_permute hperm] at hpos ⊢
      omega
  | broadcast before after =>
      obtain ⟨⟨rfl, hcast⟩, hdims⟩ := Option.ite_none_right_eq_some.mp h
      obtain rfl := Option.some.inj hdims
      have hall := pos_of_prod_pos hpos
      exact ⟨(hcast.prod_le hall).1, prod_pos_of_pos (hcast.pos hall)⟩

/-! ### All steps -/

theorem inside_source (h : outDims ops dims = some dims') (hidx : Inside idx dims') :
    Inside (source ops dims idx) dims := by
  induction ops generalizing dims with
  | nil =>
      obtain rfl := Option.some.inj h
      exact hidx
  | cons op ops ih =>
      obtain ⟨mid, hmid, hrest⟩ := outDims_cons_eq_some h
      rw [source, hmid]
      exact ReinterpretType.inside_source hmid (ih hrest)

theorem outDims_pos (h : outDims ops dims = some dims') (hpos : 0 < dims'.prod) :
    dims.prod ≤ dims'.prod ∧ 0 < dims.prod := by
  induction ops generalizing dims with
  | nil =>
      obtain rfl := Option.some.inj h
      exact ⟨Nat.le_refl _, hpos⟩
  | cons op ops ih =>
      obtain ⟨mid, hmid, hrest⟩ := outDims_cons_eq_some h
      obtain ⟨hle, hmidpos⟩ := ih hrest
      obtain ⟨hle', hpos'⟩ := ReinterpretType.outDims_pos hmid hmidpos
      exact ⟨Nat.le_trans hle' hle, hpos'⟩

/-- Steps that keep the number of elements move them by their transposes only. -/
theorem rowMajor_source (h : outDims ops dims = some dims') (hidx : Inside idx dims')
    (hprod : dims.prod = dims'.prod) :
    rowMajor dims (source ops dims idx) = turns ops dims (rowMajor dims' idx) := by
  induction ops generalizing dims with
  | nil =>
      obtain rfl := Option.some.inj h
      rfl
  | cons op ops ih =>
      obtain ⟨mid, hmid, hrest⟩ := outDims_cons_eq_some h
      have hpos := prod_pos_of_pos hidx.pos
      obtain ⟨hle, hmidpos⟩ := outDims_pos hrest hpos
      obtain ⟨hle', -⟩ := ReinterpretType.outDims_pos hmid hmidpos
      rw [source, turns, hmid]
      dsimp only
      rw [ReinterpretType.rowMajor_source hmid (inside_source hrest hidx) (by omega), ih hrest (by omega)]

end NnEngine
