import NnEngine.RowMajor
import NnEngine.Graph.Reinterpret

/-!
# Arrays

Arrays of any rank, observed by the element at each index, and what is used of the functions of the
`ndarray` crate, by its documentation: what they return, and when they panic or fail (`none`).
-/

namespace NnEngine

/-- The elements are in row-major order. -/
structure NdArray (α : Type) where
  shape : List Nat
  data : List α
  hsize : data.length = shape.prod

namespace NdArray

variable {α : Type} {a b : NdArray α} {idx : List Nat}

/-- The element at an index. -/
def at? (a : NdArray α) (idx : List Nat) : Option α := a.data[rowMajor a.shape idx]?

theorem exists_at (h : Inside idx a.shape) : ∃ x, a.at? idx = some x := by
  have hlt : rowMajor a.shape idx < a.data.length := a.hsize ▸ rowMajor_lt h
  exact ⟨_, List.getElem?_eq_getElem hlt⟩

/-- Arrays with the same elements are the same. -/
theorem ext_at (hshape : a.shape = b.shape) (h : ∀ idx, Inside idx a.shape → a.at? idx = b.at? idx) : a = b := by
  obtain ⟨shape, data, hsize⟩ := a
  obtain ⟨shape', data', hsize'⟩ := b
  obtain rfl : shape = shape' := hshape
  have hdata : data = data' := by
    refine List.ext_getElem? fun n => ?_
    by_cases hn : n < shape.prod
    · have hidx := h _ (multiIndex_lt (pos_of_prod_pos (Nat.zero_lt_of_lt hn)) n)
      unfold at? at hidx
      rw [rowMajor_multiIndex hn] at hidx
      exact hidx
    · rw [List.getElem?_eq_none (by omega), List.getElem?_eq_none (by omega)]
  subst hdata
  rfl

/-- `from_shape`. -/
def fromShape (shape : List Nat) (data : List α) : Option (NdArray α) :=
  if h : data.length = shape.prod then some ⟨shape, data, h⟩ else none

/-! ### Arrays of known elements -/

/-- The array with these elements. -/
def tabulate (shape : List Nat) (f : List Nat → α) : NdArray α where
  shape := shape
  data := (List.range shape.prod).map fun n => f (multiIndex shape n)
  hsize := by rw [List.length_map, List.length_range]

/-- The element at an index inside the array. -/
def get [Zero α] (a : NdArray α) (idx : List Nat) : α := (a.at? idx).getD 0

@[simp] theorem tabulate_shape (shape : List Nat) (f : List Nat → α) : (tabulate shape f).shape = shape := rfl

theorem get_tabulate [Zero α] {shape : List Nat} {f : List Nat → α} (h : Inside idx shape) :
    (tabulate shape f).get idx = f idx := by
  unfold get at? tabulate
  rw [List.getElem?_map, List.getElem?_range (rowMajor_lt h)]
  show f (multiIndex shape (rowMajor shape idx)) = f idx
  rw [multiIndex_rowMajor h]

theorem ext_get [Zero α] (hshape : a.shape = b.shape)
    (h : ∀ idx, Inside idx a.shape → a.get idx = b.get idx) : a = b := by
  refine ext_at hshape fun idx hidx => ?_
  obtain ⟨x, hx⟩ := exists_at hidx
  obtain ⟨y, hy⟩ := exists_at (hshape ▸ hidx)
  have hget := h idx hidx
  unfold get at hget
  rw [hx, hy] at hget
  rw [hx, hy]
  exact congrArg some hget

theorem tabulate_congr {shape : List Nat} {f f' : List Nat → α}
    (h : ∀ idx, Inside idx shape → f idx = f' idx) : tabulate shape f = tabulate shape f' := by
  unfold tabulate
  congr 1
  refine List.map_congr_left fun n hn => h _ (multiIndex_lt (pos_of_prod_pos ?_) n)
  exact Nat.zero_lt_of_lt (List.mem_range.mp hn)

@[simp] theorem tabulate_get [Zero α] (a : NdArray α) : tabulate a.shape a.get = a :=
  ext_get rfl fun _ hidx => get_tabulate hidx

/-- What a function returns: the element at each index, unless it panics. -/
structure Yields (result : Option (NdArray α)) (ok : Prop) (shape : List Nat) (elem : List Nat → Option α) :
    Prop where
  fails : ¬ ok → result = none
  returns : ok → ∃ b, result = some b ∧ b.shape = shape ∧ ∀ idx, Inside idx shape → b.at? idx = elem idx

/-- The array with these elements, if there is one at each index. -/
def ofElements (shape : List Nat) (elem : List Nat → Option α) : Option (NdArray α) :=
  ((List.range shape.prod).mapM fun n => elem (multiIndex shape n)).bind (fromShape shape)

theorem ofElements_eq {shape : List Nat} {elem : List Nat → Option α}
    (h : ∀ idx, Inside idx shape → ∃ x, elem idx = some x) :
    ∃ b, ofElements shape elem = some b ∧ b.shape = shape ∧ ∀ idx, Inside idx shape → b.at? idx = elem idx := by
  have hmapM : ∃ data, (List.range shape.prod).mapM (fun n => elem (multiIndex shape n)) = some data ∧
      data.length = shape.prod ∧ ∀ n < shape.prod, data[n]? = elem (multiIndex shape n) := by
    refine ⟨(List.range shape.prod).filterMap fun n => elem (multiIndex shape n), ?_⟩
    have hall : ∀ ns : List Nat, (∀ n ∈ ns, n < shape.prod) →
        ns.mapM (fun n => elem (multiIndex shape n)) = some (ns.filterMap fun n => elem (multiIndex shape n)) ∧
        (ns.filterMap fun n => elem (multiIndex shape n)).length = ns.length ∧
        ∀ k, (hk : k < ns.length) →
          (ns.filterMap fun n => elem (multiIndex shape n))[k]? = elem (multiIndex shape ns[k]) := by
      intro ns
      induction ns with
      | nil => exact fun _ => ⟨rfl, rfl, nofun⟩
      | cons n ns ih =>
          intro hns
          obtain ⟨hsome, hlen, helem⟩ := ih fun m hm => hns m (List.mem_cons_of_mem n hm)
          have hn := hns n List.mem_cons_self
          obtain ⟨x, hx⟩ := h _ (multiIndex_lt (pos_of_prod_pos (Nat.zero_lt_of_lt hn)) n)
          rw [List.filterMap_cons_some (f := fun n => elem (multiIndex shape n)) hx]
          refine ⟨?_, by rw [List.length_cons, hlen, List.length_cons], fun k hk => ?_⟩
          · rw [List.mapM_cons, hx, hsome]
            rfl
          · cases k with
            | zero => exact hx.symm
            | succ k => exact helem k (Nat.lt_of_succ_lt_succ hk)
    obtain ⟨hsome, hlen, helem⟩ := hall (List.range shape.prod) fun n hn => List.mem_range.mp hn
    refine ⟨hsome, by rw [hlen, List.length_range], fun n hn => ?_⟩
    rw [helem n (by rw [List.length_range]; exact hn), List.getElem_range]
  obtain ⟨data, hdata, hlen, helem⟩ := hmapM
  refine ⟨⟨shape, data, hlen⟩, ?_, rfl, fun idx hidx => ?_⟩
  · rw [ofElements, hdata, Option.bind_some, fromShape, dif_pos hlen]
  · rw [at?, helem _ (rowMajor_lt hidx), multiIndex_rowMajor hidx]

/-- The array with these elements, if this is the case. -/
theorem yields_ofElements {ok : Prop} [Decidable ok] {shape : List Nat} {elem : List Nat → Option α}
    (h : ok → ∀ idx, Inside idx shape → ∃ x, elem idx = some x) :
    Yields (if ok then ofElements shape elem else none) ok shape elem where
  fails hnot := if_neg hnot
  returns hok := by
    rw [if_pos hok]
    exact ofElements_eq (h hok)

/-- A function returns one array at most. -/
theorem Yields.eq_some_iff {result : Option (NdArray α)} {ok : Prop} {shape : List Nat}
    {elem : List Nat → Option α} (h : Yields result ok shape elem) :
    result = some b ↔ ok ∧ b.shape = shape ∧ ∀ idx, Inside idx shape → b.at? idx = elem idx := by
  constructor
  · intro hb
    by_cases hok : ok
    · obtain ⟨b', hb', hshape, helem⟩ := h.returns hok
      obtain rfl : b = b' := Option.some.inj (hb.symm.trans hb')
      exact ⟨hok, hshape, helem⟩
    · rw [h.fails hok] at hb
      cases hb
  · rintro ⟨hok, hshape, helem⟩
    obtain ⟨b', hb', hshape', helem'⟩ := h.returns hok
    rw [hb', ext_at (a := b) (b := b') (by rw [hshape, hshape']) fun idx hidx => by
      rw [hshape] at hidx
      rw [helem idx hidx, helem' idx hidx]]

end NdArray

/-! ### The index arithmetic of the functions -/

/-- The part that holds place `i` of parts of these sizes after each other, and its place there. -/
def locate : List Nat → Nat → Nat × Nat
  | [], i => (0, i)
  | s :: sizes, i => if i < s then (0, i) else ((locate sizes (i - s)).1 + 1, (locate sizes (i - s)).2)

theorem locate_lt {sizes : List Nat} {i : Nat} (h : i < sizes.sum) :
    ∃ hlt : (locate sizes i).1 < sizes.length, (locate sizes i).2 < sizes[(locate sizes i).1] := by
  induction sizes generalizing i with
  | nil => cases h
  | cons s sizes ih =>
      rw [List.sum_cons] at h
      by_cases hs : i < s
      · simp [locate, hs]
      · obtain ⟨hlt, hplace⟩ := ih (i := i - s) (by omega)
        rw [locate, if_neg hs]
        exact ⟨Nat.succ_lt_succ hlt, hplace⟩

/-- The shapes agree on all axes but this one. -/
def AgreeBut (axis : Nat) (shape shape' : List Nat) : Prop :=
  shape'.length = shape.length ∧ shape'.set axis 0 = shape.set axis 0

instance (axis : Nat) (shape shape' : List Nat) : Decidable (AgreeBut axis shape shape') :=
  inferInstanceAs (Decidable (_ ∧ _))

/-- The extents of arrays on an axis. -/
def extents (axis : Nat) (shapes : List (List Nat)) : List Nat := shapes.map fun s => s.getD axis 0

/-- Arrays with these shapes can be put after each other along the axis. -/
def Concats (axis : Nat) : List (List Nat) → Prop
  | [] => False
  | shape :: shapes => axis < shape.length ∧ ∀ s ∈ shapes, AgreeBut axis shape s

instance (axis : Nat) (shapes : List (List Nat)) : Decidable (Concats axis shapes) :=
  match shapes with
  | [] => inferInstanceAs (Decidable False)
  | _ :: _ => inferInstanceAs (Decidable (_ ∧ _))

/-- The shape of arrays put after each other. -/
def concatShape (axis : Nat) (shapes : List (List Nat)) : List Nat :=
  (shapes.headD []).set axis (extents axis shapes).sum

/-- The array and the index there from which a concatenation has its element. -/
def concatSource (axis : Nat) (shapes : List (List Nat)) (idx : List Nat) : Nat × List Nat :=
  let place := locate (extents axis shapes) (idx.getD axis 0)
  (place.1, idx.set axis place.2)

/-- The index that a selection on an axis has its element from. -/
def selectSource (axis : Nat) (indices idx : List Nat) : List Nat :=
  idx.set axis (indices.getD (idx.getD axis 0) 0)

/-- The index that a slice has its element from. -/
def sliceSource (starts idx : List Nat) : List Nat := List.zipWith (· + ·) starts idx

/-- The index that a broadcast has its element from. -/
def broadcastSource (shape target idx : List Nat) : List Nat :=
  clamp shape (idx.drop (target.length - shape.length))

/-- The functions of `ndarray`.  A slice starts and ends inside the array; one that ends before it starts
is empty. -/
structure Ndarray where
  permutedAxes {α : Type} (a : NdArray α) (axes : List Nat) : Option (NdArray α)
  sliceEachAxis {α : Type} (a : NdArray α) (starts ends : List Nat) : Option (NdArray α)
  concatenate {α : Type} (axis : Nat) (arrays : List (NdArray α)) : Option (NdArray α)
  select {α : Type} (axis : Nat) (a : NdArray α) (indices : List Nat) : Option (NdArray α)
  broadcast {α : Type} (a : NdArray α) (target : List Nat) : Option (NdArray α)
  permutedAxes_yields {α : Type} (a : NdArray α) (axes : List Nat) :
    NdArray.Yields (permutedAxes a axes) (IsPerm axes a.shape.length) (permute axes a.shape)
      fun idx => a.at? (unpermute axes idx)
  sliceEachAxis_yields {α : Type} (a : NdArray α) (starts ends : List Nat) :
    NdArray.Yields (sliceEachAxis a starts ends)
      (List.Forall₂ (· ≤ ·) starts a.shape ∧ List.Forall₂ (· ≤ ·) ends a.shape)
      (List.zipWith (· - ·) ends starts) fun idx => a.at? (sliceSource starts idx)
  concatenate_yields {α : Type} (axis : Nat) (arrays : List (NdArray α)) :
    NdArray.Yields (concatenate axis arrays) (Concats axis (arrays.map NdArray.shape))
      (concatShape axis (arrays.map NdArray.shape)) fun idx =>
        let place := concatSource axis (arrays.map NdArray.shape) idx
        (arrays[place.1]?).bind fun a => a.at? place.2
  select_yields {α : Type} (axis : Nat) (a : NdArray α) (indices : List Nat) :
    NdArray.Yields (select axis a indices) (axis < a.shape.length ∧ ∀ i ∈ indices, i < a.shape.getD axis 0)
      (a.shape.set axis indices.length) fun idx => a.at? (selectSource axis indices idx)
  broadcast_yields {α : Type} (a : NdArray α) (target : List Nat) :
    NdArray.Yields (broadcast a target) (Broadcasts a.shape target) target
      fun idx => a.at? (broadcastSource a.shape target idx)

namespace Ndarray

theorem inside_sliceSource {starts ends shape idx : List Nat} (hends : List.Forall₂ (· ≤ ·) ends shape)
    (hlen : starts.length = shape.length) (hidx : Inside idx (List.zipWith (· - ·) ends starts)) :
    Inside (sliceSource starts idx) shape := by
  induction hends generalizing starts idx with
  | nil =>
      cases hidx
      rw [sliceSource, List.zipWith_nil_right]
      exact .nil
  | @cons e d ends shape hle _ ih =>
      cases starts with
      | nil => cases hlen
      | cons s starts =>
          cases hidx with
          | @cons i _ idx _ hi hrest =>
              refine .cons ?_ (ih (Nat.succ.inj hlen) hrest)
              dsimp only at hi ⊢
              omega

theorem inside_set {shape shape' idx : List Nat} {axis i : Nat} (hlen : shape'.length = shape.length)
    (hagree : shape'.set axis 0 = shape.set axis 0) {d : Nat} (hidx : Inside idx (shape.set axis d))
    (hi : i < shape'.getD axis 0) : Inside (idx.set axis i) shape' := by
  obtain ⟨hidxlen, hall⟩ := inside_iff.mp hidx
  rw [List.length_set] at hidxlen hall
  refine inside_iff.mpr ⟨by rw [List.length_set, hidxlen, hlen], fun k hk => ?_⟩
  rw [hlen] at hk
  by_cases hk' : k = axis
  · subst hk'
    rw [List.getD_eq_getElem?_getD, List.getElem?_set_self (by omega), Option.getD_some]
    exact hi
  · have hne : axis ≠ k := fun heq => hk' heq.symm
    have hextent : shape'.getD k 0 = shape.getD k 0 := by
      have := congrArg (fun l : List Nat => l.getD k 0) hagree
      simpa only [List.getD_eq_getElem?_getD, List.getElem?_set_ne hne] using this
    have hlt := hall k hk
    rw [List.getD_eq_getElem?_getD (l := shape.set axis d), List.getElem?_set_ne hne,
      ← List.getD_eq_getElem?_getD] at hlt
    rw [List.getD_eq_getElem?_getD, List.getElem?_set_ne hne, ← List.getD_eq_getElem?_getD, hextent]
    exact hlt

theorem exists_concat {α : Type} {axis : Nat} {arrays : List (NdArray α)}
    (h : Concats axis (arrays.map NdArray.shape)) {idx : List Nat}
    (hidx : Inside idx (concatShape axis (arrays.map NdArray.shape))) :
    ∃ a, arrays[(concatSource axis (arrays.map NdArray.shape) idx).1]? = some a ∧
      Inside (concatSource axis (arrays.map NdArray.shape) idx).2 a.shape := by
  cases arrays with
  | nil => cases h
  | cons first rest =>
      obtain ⟨haxis, hagree⟩ : axis < first.shape.length ∧
        ∀ s ∈ rest.map NdArray.shape, AgreeBut axis first.shape s := h
      have hidx : Inside idx (first.shape.set axis (extents axis ((first :: rest).map NdArray.shape)).sum) := hidx
      have hplace : idx.getD axis 0 < (extents axis ((first :: rest).map NdArray.shape)).sum := by
        have hlt := (inside_iff.mp hidx).2 axis (by rw [List.length_set]; exact haxis)
        rw [List.getD_eq_getElem?_getD (l := List.set _ _ _), List.getElem?_set_self haxis, Option.getD_some] at hlt
        exact hlt
      obtain ⟨hlt, hinner⟩ := locate_lt hplace
      have hlt' : (locate (extents axis ((first :: rest).map NdArray.shape)) (idx.getD axis 0)).1 <
          (first :: rest).length := by simpa [extents] using hlt
      refine ⟨(first :: rest)[_], List.getElem?_eq_getElem hlt', ?_⟩
      have hextent : (locate (extents axis ((first :: rest).map NdArray.shape)) (idx.getD axis 0)).2 <
          ((first :: rest)[(locate (extents axis ((first :: rest).map NdArray.shape))
            (idx.getD axis 0)).1]).shape.getD axis 0 := by
        have hsize : ∀ (k : Nat) (hk : k < (first :: rest).length)
            (hk' : k < (extents axis ((first :: rest).map NdArray.shape)).length),
            (extents axis ((first :: rest).map NdArray.shape))[k] = ((first :: rest)[k]).shape.getD axis 0 := by
          intro k hk hk'
          simp only [extents, List.getElem_map]
        rw [← hsize _ hlt' hlt]
        exact hinner
      have hshape : AgreeBut axis first.shape ((first :: rest)[(locate (extents axis
          ((first :: rest).map NdArray.shape)) (idx.getD axis 0)).1]).shape := by
        rcases List.mem_cons.mp (List.getElem_mem hlt') with heq | hmem
        · rw [heq]
          exact ⟨rfl, rfl⟩
        · exact hagree _ (List.mem_map_of_mem hmem)
      exact inside_set hshape.1 hshape.2 hidx hextent

/-- The functions with exactly the documented results. -/
def documented : Ndarray where
  permutedAxes a axes :=
    if IsPerm axes a.shape.length then
      NdArray.ofElements (permute axes a.shape) fun idx => a.at? (unpermute axes idx)
    else none
  sliceEachAxis a starts ends :=
    if List.Forall₂ (· ≤ ·) starts a.shape ∧ List.Forall₂ (· ≤ ·) ends a.shape then
      NdArray.ofElements (List.zipWith (· - ·) ends starts) fun idx => a.at? (sliceSource starts idx)
    else none
  concatenate axis arrays :=
    if Concats axis (arrays.map NdArray.shape) then
      NdArray.ofElements (concatShape axis (arrays.map NdArray.shape)) fun idx =>
        let place := concatSource axis (arrays.map NdArray.shape) idx
        (arrays[place.1]?).bind fun a => a.at? place.2
    else none
  select axis a indices :=
    if axis < a.shape.length ∧ ∀ i ∈ indices, i < a.shape.getD axis 0 then
      NdArray.ofElements (a.shape.set axis indices.length) fun idx => a.at? (selectSource axis indices idx)
    else none
  broadcast a target :=
    if Broadcasts a.shape target then
      NdArray.ofElements target fun idx => a.at? (broadcastSource a.shape target idx)
    else none
  permutedAxes_yields a axes := NdArray.yields_ofElements fun hok idx hidx =>
    NdArray.exists_at (inside_unpermute hok hidx)
  sliceEachAxis_yields a starts ends := NdArray.yields_ofElements fun hok idx hidx =>
    NdArray.exists_at (inside_sliceSource hok.2 hok.1.length_eq hidx)
  concatenate_yields axis arrays := NdArray.yields_ofElements fun hok idx hidx => by
    obtain ⟨a, ha, hinside⟩ := exists_concat hok hidx
    obtain ⟨x, hx⟩ := NdArray.exists_at hinside
    exact ⟨x, by dsimp only; rw [ha, Option.bind_some, hx]⟩
  select_yields axis a indices := NdArray.yields_ofElements fun hok idx hidx => by
    refine NdArray.exists_at (inside_set rfl rfl hidx ?_)
    have hlt := (inside_iff.mp hidx).2 axis (by rw [List.length_set]; exact hok.1)
    rw [List.getD_eq_getElem?_getD (l := List.set _ _ _), List.getElem?_set_self hok.1, Option.getD_some] at hlt
    rw [getD_of_lt hlt]
    exact hok.2 _ (List.getElem_mem hlt)
  broadcast_yields a target := NdArray.yields_ofElements fun hok idx hidx =>
    NdArray.exists_at (inside_clamp hok.2 (List.forall₂_drop (target.length - a.shape.length) hidx))

end Ndarray

end NnEngine
