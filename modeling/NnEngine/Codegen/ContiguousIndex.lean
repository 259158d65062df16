import NnEngine.Codegen.Contiguous

/-!
# Where `Contiguous` reads

When the kernel and the translator read the element that the steps put at each place of the output.
A list of steps goes wrong in the kernel by a second declaration of the same names, and in both by a
`Transpose` without `perm`, which they take for the identity, and by a `Broadcast` to more axes, which
they align on the left.
-/

namespace NnEngine

open StraightLine ReinterpretType ContiguousBuilder

variable {op : ReinterpretType} {ops : List ReinterpretType} {dims mid out : List Nat}

namespace ReinterpretType

/-- The step names the coordinates of an array that has axes. -/
def moves : ReinterpretType → List Nat → Bool
  | reshape _ _, _ => false
  | transpose _, dims => !dims.isEmpty
  | broadcast _ after, _ => !after.isEmpty

def isReshape : ReinterpretType → Bool
  | reshape _ _ => true
  | _ => false

/-- The backward walk follows the step.  A `Reshape` right before the step resets the extents. -/
def Follows (reshaped : Bool) : ReinterpretType → List Nat → Prop
  | transpose none, dims => SingleAxis dims ∧ (reshaped = true ∨ dims.reverse = dims)
  | broadcast before after, _ => before.length = after.length ∨ before.prod = 1
  | _, _ => True

end ReinterpretType

/-- The number of steps that name coordinates. -/
def moveCount : List ReinterpretType → List Nat → Nat
  | [], _ => 0
  | op :: ops, dims =>
      (if op.moves dims then 1 else 0) + match op.outDims dims with
        | some mid => moveCount ops mid
        | none => 0

/-- The backward walk follows every step. -/
def Followed (reshaped : Bool) : List ReinterpretType → List Nat → Prop
  | [], _ => True
  | op :: ops, dims =>
      op.Follows reshaped dims ∧ match op.outDims dims with
        | some mid => Followed op.isReshape ops mid
        | none => True

theorem moveCount_cons (h : op.outDims dims = some mid) :
    moveCount (op :: ops) dims = (if op.moves dims then 1 else 0) + moveCount ops mid := by
  rw [moveCount, h]

theorem followed_cons {reshaped : Bool} (h : op.outDims dims = some mid) :
    Followed reshaped (op :: ops) dims ↔ op.Follows reshaped dims ∧ Followed op.isReshape ops mid := by
  rw [Followed, h]

/-! ### Declarations -/

/-- The names of the coordinates of an array of this rank, as a loop declares them. -/
def names (c : Coord) (rank : Nat) : List Name := ((List.range rank).map (Name.coord c)).reverse

theorem declared_decode (c : Coord) (shape : List Nat) :
    declared (ContiguousBuilder.decode c shape) = names c shape.length := by
  have hloop : ∀ (ps : List (Nat × Nat)), declared (ps.flatMap fun p =>
      [Stmt.decl (Name.coord c p.2) (.mod (.var .offset) (.lit p.1)),
        .assign .offset (.div (.var .offset) (.lit p.1))]) = ps.map fun p => Name.coord c p.2 := by
    intro ps
    induction ps with
    | nil => rfl
    | cons p ps ih =>
        rw [List.flatMap_cons, declared_append, ih]
        rfl
  refine (hloop shape.zipIdx.reverse).trans ?_
  rw [List.map_reverse, names, List.range_eq_range', ← List.zipIdx_map_snd, List.map_map]
  rfl

theorem declared_encode (axes : List (Nat × Option Name)) : declared (ContiguousBuilder.encode axes) = [] := by
  refine List.filterMap_eq_nil_iff.mpr fun s hs => ?_
  rcases List.mem_cons.mp hs with rfl | hs
  · rfl
  · obtain ⟨⟨d, x⟩, -, rfl⟩ := List.mem_map.mp hs
    cases x <;> rfl

theorem names_nodup (c : Coord) (rank : Nat) : (names c rank).Nodup := by
  refine List.nodup_reverse.mpr (List.Nodup.map (fun i j h => ?_) List.nodup_range)
  exact (Name.coord.inj h).2

theorem mem_names {c : Coord} {rank : Nat} {y : Name} : y ∈ names c rank ↔ ∃ i < rank, Name.coord c i = y := by
  simp [names]

/-- What a step declares. -/
theorem declared_step (h : op.outDims dims = some mid) {shape : List Nat} (hshape : shape.length = mid.length) :
    declared (ContiguousBuilder.step op shape).1 = if op.moves dims then names .t mid.length else [] := by
  cases op with
  | reshape before after => rfl
  | transpose perm =>
      obtain ⟨hperm, hdims⟩ := Option.ite_none_right_eq_some.mp h
      obtain rfl := Option.some.inj hdims
      show declared (_ ++ _) = _
      rw [declared_append, declared_decode, declared_encode, List.append_nil, hshape, permute_length,
        hperm.length]
      cases dims <;> rfl
  | broadcast before after =>
      obtain ⟨-, hdims⟩ := Option.ite_none_right_eq_some.mp h
      obtain rfl := Option.some.inj hdims
      show declared (_ ++ _) = _
      rw [declared_append, declared_decode, declared_encode, List.append_nil, hshape]
      cases after <;> rfl

theorem length_pos_of_moves (h : op.outDims dims = some mid) (hmoves : op.moves dims = true) : 0 < mid.length := by
  cases op with
  | reshape before after => cases hmoves
  | transpose perm =>
      obtain ⟨hperm, hdims⟩ := Option.ite_none_right_eq_some.mp h
      obtain rfl := Option.some.inj hdims
      rw [permute_length, hperm.length]
      cases dims with
      | nil => cases hmoves
      | cons d dims => exact Nat.zero_lt_succ _
  | broadcast before after =>
      obtain ⟨-, hdims⟩ := Option.ite_none_right_eq_some.mp h
      obtain rfl := Option.some.inj hdims
      cases after with
      | nil => cases hmoves
      | cons d after => exact Nat.zero_lt_succ _

theorem declared_steps_cons (h : op.outDims dims = some mid) (hrest : outDims ops mid = some out) :
    declared (steps (op :: ops) out).1 =
      declared (steps ops out).1 ++ if op.moves dims then names .t mid.length else [] := by
  have hlen : (steps ops out).2.length = mid.length := by
    have hback := congrArg Prod.fst (run_steps (σ := fun _ => 0) hrest rfl)
    dsimp only at hback
    rw [hback, back_length hrest rfl]
  show declared ((steps ops out).1 ++ (ContiguousBuilder.step op (steps ops out).2).1) = _
  rw [declared_append, declared_step h hlen]

/-- The steps declare coordinates only, and the first one if and only if some step names coordinates. -/
theorem mem_declared_steps (h : outDims ops dims = some out) :
    (∀ y ∈ declared (steps ops out).1, ∃ i, Name.coord .t i = y) ∧
      (Name.coord .t 0 ∈ declared (steps ops out).1 ↔ 0 < moveCount ops dims) ∧
      (moveCount ops dims = 0 → declared (steps ops out).1 = []) := by
  induction ops generalizing dims with
  | nil => exact ⟨nofun, by simp [steps, declared, moveCount], fun _ => rfl⟩
  | cons op ops ih =>
      obtain ⟨mid, hmid, hrest⟩ := outDims_cons_eq_some h
      obtain ⟨hcoords, hfirst, hnone⟩ := ih hrest
      rw [declared_steps_cons hmid hrest, moveCount_cons hmid]
      by_cases hmoves : op.moves dims = true
      · rw [if_pos hmoves, if_pos hmoves]
        refine ⟨fun y hy => ?_, iff_of_true ?_ (by omega), by omega⟩
        · rcases List.mem_append.mp hy with hy | hy
          · exact hcoords y hy
          · obtain ⟨i, -, hi⟩ := mem_names.mp hy
            exact ⟨i, hi⟩
        · exact List.mem_append_right _ (mem_names.mpr ⟨0, length_pos_of_moves hmid hmoves, rfl⟩)
      · rw [if_neg hmoves, if_neg hmoves, List.append_nil, Nat.zero_add]
        exact ⟨hcoords, hfirst, hnone⟩

theorem declared_steps_nodup_iff (h : outDims ops dims = some out) :
    (declared (steps ops out).1).Nodup ↔ moveCount ops dims ≤ 1 := by
  induction ops generalizing dims with
  | nil => exact iff_of_true List.nodup_nil (Nat.zero_le _)
  | cons op ops ih =>
      obtain ⟨mid, hmid, hrest⟩ := outDims_cons_eq_some h
      obtain ⟨-, hfirst, hnone⟩ := mem_declared_steps hrest
      rw [declared_steps_cons hmid hrest, moveCount_cons hmid]
      by_cases hmoves : op.moves dims = true
      · rw [if_pos hmoves, if_pos hmoves]
        constructor
        · intro hnodup
          -- a second step would declare `t_0` again
          have hzero : ¬ 0 < moveCount ops mid := fun hpos =>
            (List.nodup_append.mp hnodup).2.2 _ (hfirst.mpr hpos) _
              (mem_names.mpr ⟨0, length_pos_of_moves hmid hmoves, rfl⟩) rfl
          omega
        · intro hone
          rw [hnone (by omega), List.nil_append]
          exact names_nodup _ _
      · rw [if_neg hmoves, if_neg hmoves, List.append_nil, Nat.zero_add]
        exact ih hrest

/-! ### Elements -/

theorem moves_eq_false (hcount : (if op.moves dims then 1 else 0) + moveCount ops mid = 0) :
    op.moves dims = false := by
  cases hop : op.moves dims with
  | false => rfl
  | true =>
      rw [hop, if_pos rfl] at hcount
      omega

/-- A step that names no coordinates is a `Reshape` or works on one element without axes. -/
theorem nil_of_not_moves (h : op.outDims dims = some mid) (hmoves : op.moves dims = false)
    (hreshape : op.isReshape = false) : dims = [] ∧ mid = [] := by
  cases op with
  | reshape before after => cases hreshape
  | transpose perm =>
      obtain ⟨hperm, hdims⟩ := Option.ite_none_right_eq_some.mp h
      obtain rfl := Option.some.inj hdims
      cases dims with
      | nil => exact ⟨rfl, List.eq_nil_of_length_eq_zero (by rw [permute_length, hperm.length]; rfl)⟩
      | cons d dims => cases hmoves
  | broadcast before after =>
      obtain ⟨⟨rfl, hlen, -⟩, hdims⟩ := Option.ite_none_right_eq_some.mp h
      obtain rfl := Option.some.inj hdims
      cases after with
      | nil => exact ⟨List.eq_nil_of_length_eq_zero (Nat.le_zero.mp hlen), rfl⟩
      | cons d after => cases hmoves

theorem inside_nil {idx : List Nat} (h : Inside idx []) : idx = [] := List.eq_nil_of_length_eq_zero h.length_eq

/-- The steps that name no coordinates keep the row-major number. -/
theorem rowMajor_source_of_moveCount (h : outDims ops dims = some out) (hcount : moveCount ops dims = 0)
    {idx : List Nat} (hidx : Inside idx out) :
    dims.prod = out.prod ∧ rowMajor dims (source ops dims idx) = rowMajor out idx := by
  induction ops generalizing dims with
  | nil =>
      obtain rfl := Option.some.inj h
      exact ⟨rfl, rfl⟩
  | cons op ops ih =>
      obtain ⟨mid, hmid, hrest⟩ := outDims_cons_eq_some h
      rw [moveCount_cons hmid] at hcount
      obtain ⟨hprod, hnumber⟩ := ih hrest (by omega)
      have hinside := inside_source hrest hidx
      have hsource := ReinterpretType.inside_source hmid hinside
      rw [source, hmid]
      dsimp only
      rw [← hprod, ← hnumber]
      cases hreshape : op.isReshape with
      | false =>
          obtain ⟨rfl, rfl⟩ := nil_of_not_moves hmid (moves_eq_false hcount) hreshape
          rw [inside_nil hsource]
          exact ⟨rfl, rfl⟩
      | true =>
          cases op with
          | transpose | broadcast => cases hreshape
          | reshape before after =>
              obtain ⟨⟨rfl, hsize⟩, hdims⟩ := Option.ite_none_right_eq_some.mp hmid
              obtain rfl := Option.some.inj hdims
              exact ⟨hsize, rowMajor_multiIndex (by rw [hsize]; exact rowMajor_lt hinside)⟩

theorem rowMajor_clamp_eq_zero {before idx : List Nat} (hlen : before.length ≤ idx.length)
    (h : ∀ j < before.length, before.getD j 0 ≠ 1 → idx.getD j 0 = 0) : rowMajor before (clamp before idx) = 0 := by
  induction before generalizing idx with
  | nil => rfl
  | cons b before ih =>
      cases idx with
      | nil => cases hlen
      | cons i idx =>
          have htail := ih (Nat.le_of_succ_le_succ hlen) fun j hj => h (j + 1) (Nat.succ_lt_succ hj)
          rw [clamp, List.zipWith_cons_cons, ← clamp, rowMajor, htail, Nat.add_zero]
          split
          · rw [Nat.zero_mul]
          · rename_i hne
            have hzero : i = 0 := h 0 (Nat.zero_lt_succ _) hne
            rw [hzero, Nat.zero_mul]

/-- Aligning a broadcast on the left reads the same elements if and only if it is aligned on both sides
or there is one element. -/
theorem clamp_left_iff {before after : List Nat} (hcast : Broadcasts before after)
    (hpos : ∀ a ∈ after, 0 < a) :
    (∀ idx, Inside idx after → rowMajor before (clamp before idx) % before.prod =
      rowMajor before (clamp before (idx.drop (after.length - before.length)))) ↔
      before.length = after.length ∨ before.prod = 1 := by
  have hbefore : 0 < before.prod := prod_pos_of_pos (hcast.pos hpos)
  obtain ⟨hlen, hall⟩ := hcast
  constructor
  · intro h
    by_contra hnot
    obtain ⟨hne, hprod⟩ := not_or.mp hnot
    obtain ⟨i, hi, hextent, hlast⟩ := exists_last_axis hprod
    -- the index that is one on the broadcast's last axis with elements
    generalize hk : after.length - before.length = k at h hall
    have hrank : after.length = k + before.length := by omega
    have hdims : 1 < after.getD (k + i) 0 := by
      have hba : before.getD i 0 = 1 ∨ before.getD i 0 = (after.drop k).getD i 0 := by
        have := (List.forall₂_iff_get.mp hall).2 i hi (by rw [List.length_drop]; omega)
        rw [getD_of_lt hi, getD_of_lt (by rw [List.length_drop]; omega)]
        exact this
      have hb : 0 < before.getD i 0 := by
        rw [getD_of_lt hi]
        exact pos_of_prod_pos hbefore _ (List.getElem_mem hi)
      have hdrop : (after.drop k).getD i 0 = after.getD (k + i) 0 := by
        rw [List.getD_eq_getElem?_getD, List.getElem?_drop, ← List.getD_eq_getElem?_getD]
      have := hba.resolve_left hextent
      omega
    have hidx := inside_single hpos hdims
    have heq := h _ hidx
    have hleft : rowMajor before (clamp before (single after.length (k + i))) = 0 := by
      refine rowMajor_clamp_eq_zero (by rw [hidx.length_eq]; omega) fun j hj hj1 => single_getD_of_ne ?_
      rintro rfl
      refine hj1 ?_
      rw [getD_of_lt hj]
      refine eq_one_of_prod_eq_one hlast _ ?_
      rw [List.mem_iff_getElem]
      refine ⟨k + i - (i + 1), by rw [List.length_drop]; omega, ?_⟩
      rw [List.getElem_drop]
      congr 1
      omega
    have hright : rowMajor before (clamp before ((single after.length (k + i)).drop k)) = 1 := by
      have hclamp : clamp before (single before.length i) = single before.length i := by
        refine clamp_of_inside (inside_single (pos_of_prod_pos hbefore) ?_)
        have : 0 < before.getD i 0 := by
          rw [getD_of_lt hi]
          exact pos_of_prod_pos hbefore _ (List.getElem_mem hi)
        omega
      rw [hrank, single_drop, hclamp, rowMajor_single hi, hlast]
    rw [hleft, hright, Nat.zero_mod] at heq
    exact Nat.zero_ne_one heq
  · rintro (heq | hone) idx hidx
    · rw [heq, Nat.sub_self, List.drop_zero]
      rw [heq, Nat.sub_self, List.drop_zero] at hall
      exact Nat.mod_eq_of_lt (rowMajor_lt (inside_clamp hall hidx))
    · have hzero : ∀ l : List Nat, before.length ≤ l.length → rowMajor before (clamp before l) = 0 := by
        intro l hl
        refine rowMajor_clamp_eq_zero hl fun j hj hne => absurd ?_ hne
        rw [getD_of_lt hj]
        exact eq_one_of_prod_eq_one hone _ (List.getElem_mem hj)
      rw [hzero idx (by rw [hidx.length_eq]; exact hlen), hzero _ (by
        rw [List.length_drop, hidx.length_eq]; omega), Nat.zero_mod]

/-! ### The backward walk -/

theorem back_transpose_none {idx : List Nat} (hidx : Inside idx dims) :
    (transpose none).back (dims, rowMajor dims idx) = (dims, rowMajor dims idx) := by
  show (unpermute (List.range dims.length) dims, rowMajor (unpermute (List.range dims.length) dims)
    (unpermute (List.range dims.length) (multiIndex dims (rowMajor dims idx)))) = _
  rw [unpermute_range rfl, multiIndex_rowMajor hidx, unpermute_range hidx.length_eq]

theorem back_transpose_some {perm idx : List Nat} (hperm : IsPerm perm dims.length)
    (hidx : Inside idx (permute perm dims)) :
    (transpose (some perm)).back (permute perm dims, rowMajor (permute perm dims) idx) =
      (dims, rowMajor dims (unpermute perm idx)) := by
  show (unpermute perm (permute perm dims), rowMajor (unpermute perm (permute perm dims))
    (unpermute perm (multiIndex (permute perm dims) (rowMajor (permute perm dims) idx)))) = _
  rw [unpermute_permute hperm rfl, multiIndex_rowMajor hidx]

theorem outDims_transpose_none (dims : List Nat) : (transpose none).outDims dims = some dims.reverse := by
  show (if IsPerm (List.range dims.length).reverse dims.length then
    some (permute (List.range dims.length).reverse dims) else none) = _
  rw [if_pos (isPerm_reverse dims.length), permute_reverse rfl]

theorem source_transpose_none {idx : List Nat} (hlen : idx.length = dims.length) :
    (transpose none).source dims idx = idx.reverse := unpermute_reverse hlen

/-- A step that is followed: the number is right, and so are the extents unless a `Reshape` resets them. -/
theorem back_of_follows {reshaped : Bool} (h : op.outDims dims = some mid) (hfollows : op.Follows reshaped dims)
    {idx shape : List Nat} (hidx : Inside idx mid) (hshape : op.isReshape = false → shape = mid) :
    (op.back (shape, rowMajor mid idx)).2 = rowMajor dims (op.source dims idx) ∧
      (reshaped = false → (op.back (shape, rowMajor mid idx)).1 = dims) := by
  cases op with
  | reshape before after =>
      obtain ⟨⟨rfl, hsize⟩, hdims⟩ := Option.ite_none_right_eq_some.mp h
      obtain rfl := Option.some.inj hdims
      exact ⟨(rowMajor_multiIndex (by rw [hsize]; exact rowMajor_lt hidx)).symm, fun _ => rfl⟩
  | transpose perm =>
      obtain rfl := hshape rfl
      cases perm with
      | none =>
          obtain ⟨hsingle, hreset⟩ : SingleAxis dims ∧ (reshaped = true ∨ dims.reverse = dims) := hfollows
          rw [outDims_transpose_none] at h
          obtain rfl := Option.some.inj h
          have hlen : idx.length = dims.length := by rw [hidx.length_eq, List.length_reverse]
          have hpos : ∀ d ∈ dims.reverse, 0 < d := hidx.pos
          have hnumber := (rowMajor_reverse_iff hpos).mpr (singleAxis_reverse.mpr hsingle) idx hidx
          rw [back_transpose_none hidx, source_transpose_none hlen, ← hnumber, List.reverse_reverse]
          refine ⟨rfl, fun hfalse => hreset.resolve_left ?_⟩
          rw [hfalse]
          nofun
      | some perm =>
          obtain ⟨hperm, hdims⟩ := Option.ite_none_right_eq_some.mp h
          have hperm : IsPerm perm dims.length := hperm
          obtain rfl := Option.some.inj hdims
          rw [axes, Option.getD_some, back_transpose_some hperm hidx]
          exact ⟨rfl, fun _ => rfl⟩
  | broadcast before after =>
      obtain rfl := hshape rfl
      obtain ⟨⟨rfl, hcast⟩, hdims⟩ := Option.ite_none_right_eq_some.mp h
      obtain rfl := Option.some.inj hdims
      refine ⟨?_, fun _ => rfl⟩
      have hbefore : 0 < dims.prod := prod_pos_of_pos (hcast.pos hidx.pos)
      have hleft := (clamp_left_iff hcast hidx.pos).mpr hfollows idx hidx
      show rowMajor dims (clamp dims (multiIndex after (rowMajor after idx))) = _
      rw [multiIndex_rowMajor hidx]
      refine Eq.trans (Nat.mod_eq_of_lt ?_).symm hleft
      rcases hfollows with heq | hone
      · have hall := hcast.2
        rw [heq, Nat.sub_self, List.drop_zero] at hall
        exact rowMajor_lt (inside_clamp hall hidx)
      · rw [rowMajor_clamp_eq_zero (by rw [hidx.length_eq]; exact hcast.1) fun j hj hne => absurd ?_ hne]
        · exact hbefore
        · rw [getD_of_lt hj]
          exact eq_one_of_prod_eq_one hone _ (List.getElem_mem hj)

theorem back_of_followed {reshaped : Bool} (h : outDims ops dims = some out)
    (hfollowed : Followed reshaped ops dims) {idx : List Nat} (hidx : Inside idx out) :
    (back ops (out, rowMajor out idx)).2 = rowMajor dims (source ops dims idx) ∧
      (reshaped = false → (back ops (out, rowMajor out idx)).1 = dims) := by
  induction ops generalizing dims reshaped with
  | nil =>
      obtain rfl := Option.some.inj h
      exact ⟨rfl, fun _ => rfl⟩
  | cons op ops ih =>
      obtain ⟨mid, hmid, hrest⟩ := outDims_cons_eq_some h
      obtain ⟨hfollows, htail⟩ := (followed_cons hmid).mp hfollowed
      obtain ⟨hnumber, hshape⟩ := ih hrest htail
      have hstep := back_of_follows hmid hfollows (inside_source hrest hidx) hshape
      rw [← hnumber] at hstep
      rw [source, hmid]
      exact hstep

theorem follows_of_not_moves {reshaped : Bool} (h : op.outDims dims = some mid)
    (hmoves : op.moves dims = false) : op.Follows reshaped dims := by
  cases op with
  | reshape before after => trivial
  | transpose perm =>
      obtain ⟨rfl, -⟩ := nil_of_not_moves h hmoves rfl
      cases perm with
      | none => exact ⟨Nat.zero_le _, .inr rfl⟩
      | some perm => trivial
  | broadcast before after =>
      obtain ⟨hdims, rfl⟩ := nil_of_not_moves h hmoves rfl
      obtain ⟨⟨rfl, -⟩, hafter⟩ := Option.ite_none_right_eq_some.mp h
      exact .inl (by rw [hdims, Option.some.inj hafter])

/-- The steps that name no coordinates are followed. -/
theorem followed_of_moveCount {reshaped : Bool} (h : outDims ops dims = some out)
    (hcount : moveCount ops dims = 0) : Followed reshaped ops dims := by
  induction ops generalizing dims reshaped with
  | nil => trivial
  | cons op ops ih =>
      obtain ⟨mid, hmid, hrest⟩ := outDims_cons_eq_some h
      rw [moveCount_cons hmid] at hcount
      exact (followed_cons hmid).mpr ⟨follows_of_not_moves hmid (moves_eq_false hcount), ih hrest (by omega)⟩

/-- The walk ends at the right element: at the right number alone if a `Reshape` resets the extents. -/
def Ends (reshaped : Bool) (walk : List Nat × Nat) (dims idx : List Nat) : Prop :=
  match reshaped with
  | true => walk.2 % dims.prod = rowMajor dims idx
  | false => multiIndex walk.1 walk.2 = idx

/-- A step that leads the walk to the right elements is followed. -/
theorem follows_of_ends {reshaped : Bool} (h : op.outDims dims = some mid) (hpos : ∀ d ∈ mid, 0 < d)
    (hends : ∀ idx, Inside idx mid → Ends reshaped (op.back (mid, rowMajor mid idx)) dims (op.source dims idx)) :
    op.Follows reshaped dims := by
  cases op with
  | reshape before after => trivial
  | transpose perm =>
      cases perm with
      | some perm => trivial
      | none =>
          rw [outDims_transpose_none] at h
          obtain rfl := Option.some.inj h
          have hlen : ∀ {idx : List Nat}, Inside idx dims.reverse → idx.length = dims.length := fun hidx => by
            rw [hidx.length_eq, List.length_reverse]
          cases reshaped with
          | true =>
              refine ⟨singleAxis_reverse.mp ((rowMajor_reverse_iff hpos).mp fun idx hidx => ?_), .inl rfl⟩
              have hnumber : (((transpose none).back (dims.reverse, rowMajor dims.reverse idx)).2 %
                  dims.prod) = rowMajor dims ((transpose none).source dims idx) := hends idx hidx
              rw [back_transpose_none hidx, source_transpose_none (hlen hidx)] at hnumber
              rw [List.reverse_reverse, ← hnumber, Nat.mod_eq_of_lt]
              rw [← List.prod_reverse]
              exact rowMajor_lt hidx
          | false =>
              obtain ⟨hsingle, hsymm⟩ := (reverse_eq_iff hpos).mp fun idx hidx => by
                have hindex : multiIndex ((transpose none).back (dims.reverse, rowMajor dims.reverse idx)).1
                    ((transpose none).back (dims.reverse, rowMajor dims.reverse idx)).2 =
                      (transpose none).source dims idx := hends idx hidx
                rw [back_transpose_none hidx, source_transpose_none (hlen hidx), multiIndex_rowMajor hidx]
                  at hindex
                exact hindex.symm
              refine ⟨singleAxis_reverse.mp hsingle, .inr ?_⟩
              rw [List.reverse_reverse] at hsymm
              exact hsymm.symm
  | broadcast before after =>
      obtain ⟨⟨rfl, hcast⟩, hdims⟩ := Option.ite_none_right_eq_some.mp h
      obtain rfl := Option.some.inj hdims
      refine (clamp_left_iff hcast hpos).mp fun idx hidx => ?_
      have hback : (broadcast dims after).back (after, rowMajor after idx) =
          (dims, rowMajor dims (clamp dims idx)) := by
        show (dims, rowMajor dims (clamp dims (multiIndex after (rowMajor after idx)))) = _
        rw [multiIndex_rowMajor hidx]
      have hend := hends idx hidx
      rw [hback] at hend
      cases reshaped with
      | true => exact hend
      | false =>
          have hindex : multiIndex dims (rowMajor dims (clamp dims idx)) = (broadcast dims after).source dims idx :=
            hend
          rw [← rowMajor_multiIndex_mod (prod_pos_of_pos (hcast.pos hpos)), hindex]
          rfl

theorem followed_of_ends {reshaped : Bool} (h : outDims ops dims = some out) (hpos : ∀ d ∈ out, 0 < d)
    (hcount : moveCount ops dims ≤ 1)
    (hends : ∀ idx, Inside idx out →
      Ends reshaped (back ops (out, rowMajor out idx)) dims (source ops dims idx)) :
    Followed reshaped ops dims := by
  induction ops generalizing dims reshaped with
  | nil => trivial
  | cons op ops ih =>
      obtain ⟨mid, hmid, hrest⟩ := outDims_cons_eq_some h
      have hsource : ∀ idx, source (op :: ops) dims idx = op.source dims (source ops mid idx) := fun idx => by
        rw [source, hmid]
      rw [moveCount_cons hmid] at hcount
      rw [followed_cons hmid]
      by_cases hmoves : op.moves dims = true
      · rw [if_pos hmoves] at hcount
        have hzero : moveCount ops mid = 0 := by omega
        refine ⟨follows_of_ends hmid ?_ fun idx hidx => ?_, followed_of_moveCount hrest hzero⟩
        · exact pos_of_prod_pos (outDims_pos hrest (prod_pos_of_pos hpos)).2
        · -- the other steps keep the number, so the walk comes to every element of the array in between
          have hsize : mid.prod = out.prod :=
            (rowMajor_source_of_moveCount hrest hzero (multiIndex_lt hpos 0)).1
          have hlt : rowMajor mid idx < out.prod := hsize ▸ rowMajor_lt hidx
          have hout := multiIndex_lt hpos (rowMajor mid idx)
          have hreach : source ops mid (multiIndex out (rowMajor mid idx)) = idx := by
            refine rowMajor_injective (inside_source hrest hout) hidx ?_
            rw [(rowMajor_source_of_moveCount hrest hzero hout).2, rowMajor_multiIndex hlt]
          obtain ⟨hnumber, hshape⟩ :=
            back_of_followed hrest (show Followed false ops mid from followed_of_moveCount hrest hzero) hout
          have hend := hends _ hout
          rw [hsource, hreach] at hend
          rw [hreach] at hnumber
          have hwalk : back ops (out, rowMajor out (multiIndex out (rowMajor mid idx))) =
              (mid, rowMajor mid idx) := Prod.ext (hshape rfl) hnumber
          have hcons : back (op :: ops) (out, rowMajor out (multiIndex out (rowMajor mid idx))) =
              op.back (mid, rowMajor mid idx) := by
            rw [← hwalk]
            rfl
          rw [← hcons]
          exact hend
      · rw [if_neg hmoves, Nat.zero_add] at hcount
        cases hreshape : op.isReshape with
        | false =>
            have hfalse := Bool.eq_false_iff.mpr hmoves
            refine ⟨follows_of_not_moves hmid hfalse, ih hrest hcount fun idx hidx => ?_⟩
            obtain ⟨rfl, rfl⟩ := nil_of_not_moves hmid hfalse hreshape
            have hwalk : (back ops (out, rowMajor out idx)).1 = [] :=
              List.eq_nil_of_length_eq_zero (back_length hrest rfl _)
            show multiIndex (back ops (out, rowMajor out idx)).1 _ = source ops [] idx
            rw [hwalk, inside_nil (inside_source hrest hidx)]
            rfl
        | true =>
            cases op with
            | transpose | broadcast => cases hreshape
            | reshape before after =>
                obtain ⟨⟨rfl, hsize⟩, hdims⟩ := Option.ite_none_right_eq_some.mp hmid
                obtain rfl := Option.some.inj hdims
                refine ⟨trivial, ih hrest hcount fun idx hidx => ?_⟩
                have hend := hends idx hidx
                rw [hsource] at hend
                have hlt : rowMajor after (source ops after idx) < dims.prod := by
                  rw [hsize]
                  exact rowMajor_lt (inside_source hrest hidx)
                have hnumber : (back ops (out, rowMajor out idx)).2 % dims.prod =
                    rowMajor dims (multiIndex dims (rowMajor after (source ops after idx))) := by
                  cases reshaped with
                  | true => exact hend
                  | false =>
                      have hindex : multiIndex dims (back ops (out, rowMajor out idx)).2 =
                          multiIndex dims (rowMajor after (source ops after idx)) := hend
                      rw [← hindex, rowMajor_multiIndex_mod (by omega)]
                show (back ops (out, rowMajor out idx)).2 % after.prod = rowMajor after (source ops after idx)
                rw [← hsize, hnumber, rowMajor_multiIndex hlt]

/-! ### Both programs -/

/-- Both programs read the right element for every place of the output, and the kernel compiles. -/
def Places (input : ValueId) (ops : List ReinterpretType) (inTy outTy : ResolvedTensorType) : Prop :=
  (∃ k, build input inTy outTy ops = .ok k ∧ k.declared.Nodup ∧ ∀ n < outTy.dims.prod,
    k.reads n = elementAt inTy.stride (source ops inTy.dims (multiIndex outTy.dims n))) ∧
  ∀ n < outTy.dims.prod, Translator.buildContiguous outTy inTy ops n =
    elementAt inTy.stride (source ops inTy.dims (multiIndex outTy.dims n))

/-- Indices that every stride vector takes to one element are the same. -/
theorem eq_of_elementAt {a b : List Nat} (hlen : a.length = b.length)
    (h : ∀ stride : List Nat, stride.length = a.length → elementAt stride a = elementAt stride b) : a = b := by
  induction a generalizing b with
  | nil => exact (List.eq_nil_of_length_eq_zero hlen.symm).symm
  | cons i a ih =>
      cases b with
      | nil => cases hlen
      | cons j b =>
          have hzero : ∀ l : List Nat, elementAt (List.replicate a.length 0) l = 0 := fun l => by
            refine List.sum_eq_zero fun x hx => ?_
            obtain ⟨k, hk, rfl⟩ := List.mem_iff_getElem.mp hx
            simp
          have hhead := h (1 :: List.replicate a.length 0) (by simp)
          have htail : a = b := ih (Nat.succ.inj hlen) fun stride hstride => by
            have := h (0 :: stride) (by simp [hstride])
            simpa [elementAt] using this
          rw [elementAt, elementAt, List.zipWith_cons_cons, List.zipWith_cons_cons, List.sum_cons, List.sum_cons,
            ← elementAt, ← elementAt, hzero, hzero] at hhead
          rw [htail, show i = j by omega]

/-- The blocks of the kernel's declarations, in their order. -/
def block : Name → Nat
  | .gid => 0
  | .offset => 1
  | .coord .idx _ => 2
  | .coord .t _ => 3
  | .coord .s _ => 4
  | .srcIdx => 5

/-- A block goes in front of the later ones. -/
theorem nodup_append_of_block {a b : List Name} {i j : Nat} (hij : i < j)
    (ha : a.Nodup ∧ ∀ y ∈ a, block y = i) (hb : b.Nodup ∧ ∀ z ∈ b, j ≤ block z) :
    (a ++ b).Nodup ∧ ∀ z ∈ a ++ b, i ≤ block z := by
  obtain ⟨hanodup, hai⟩ := ha
  obtain ⟨hbnodup, hbj⟩ := hb
  refine ⟨List.nodup_append.mpr ⟨hanodup, hbnodup, fun y hy z hz heq => ?_⟩, fun z hz => ?_⟩
  · have hle := hbj z hz
    rw [← heq, hai y hy] at hle
    omega
  · rcases List.mem_append.mp hz with hz | hz
    · exact Nat.le_of_eq (hai z hz).symm
    · exact Nat.le_trans (Nat.le_of_lt hij) (hbj z hz)

theorem kernel_declared {input : ValueId} {inTy outTy : ResolvedTensorType} {k : ContiguousBuilder.Kernel}
    (hne : ops ≠ []) (hk : build input inTy outTy ops = .ok k) :
    k.declared = [.gid] ++ ([.offset] ++ (names .idx outTy.dims.length ++ (declared (steps ops outTy.dims).1 ++
      (names .s (steps ops outTy.dims).2.length ++ [.srcIdx])))) := by
  have hempty : ops.isEmpty = false := by simpa using hne
  rw [build, hempty] at hk
  obtain rfl := Except.ok.inj hk
  have hadd : ∀ ps : List (Nat × Nat), declared (ps.map fun p => Stmt.addAssign Name.srcIdx
      (.mul (.var (.coord .s p.2)) (.lit p.1))) = [] := by
    intro ps
    induction ps with
    | nil => rfl
    | cons p ps ih => exact ih
  simp only [ContiguousBuilder.Kernel.declared, declared_append, declared_decl, declared_decode, declared_encode, hadd,
    List.cons_append, List.nil_append, List.append_assoc]
  rfl

theorem kernel_declared_nodup_iff {input : ValueId} {inTy outTy : ResolvedTensorType} {k : ContiguousBuilder.Kernel}
    (hne : ops ≠ []) (hout : outDims ops inTy.dims = some outTy.dims) (hk : build input inTy outTy ops = .ok k) :
    k.declared.Nodup ↔ moveCount ops inTy.dims ≤ 1 := by
  rw [← declared_steps_nodup_iff hout, kernel_declared hne hk]
  have hnames : ∀ {c : Coord} {rank : Nat} {y : Name}, y ∈ names c rank → block y = block (.coord c 0) := by
    intro c rank y hy
    obtain ⟨i, -, rfl⟩ := mem_names.mp hy
    cases c <;> rfl
  have hcoords : ∀ y ∈ declared (steps ops outTy.dims).1, block y = 3 := by
    intro y hy
    obtain ⟨i, rfl⟩ := (mem_declared_steps hout).1 y hy
    rfl
  constructor
  · intro h
    have htail := h.of_append_right.of_append_right.of_append_right
    exact htail.of_append_left
  · intro h
    have hone : ∀ y : Name, [y].Nodup ∧ ∀ z ∈ [y], block z = block y := fun y =>
      ⟨List.nodup_singleton y, fun z hz => by rw [List.mem_singleton.mp hz]⟩
    have hlast := nodup_append_of_block (j := 5) (by decide)
      ⟨names_nodup .s (steps ops outTy.dims).2.length, fun y hy => hnames hy⟩
      ⟨(hone .srcIdx).1, fun z hz => Nat.le_of_eq ((hone .srcIdx).2 z hz).symm⟩
    have hsteps := nodup_append_of_block (by decide) ⟨h, hcoords⟩ hlast
    have hidx := nodup_append_of_block (by decide)
      ⟨names_nodup .idx outTy.dims.length, fun y hy => hnames hy⟩ hsteps
    have hoffset := nodup_append_of_block (by decide) (hone .offset) hidx
    exact (nodup_append_of_block (by decide) (hone .gid) hoffset).1

/-- With a list of steps, both programs read where the backward walk ends. -/
theorem places_iff {input : ValueId} {inTy outTy : ResolvedTensorType} (hne : ops ≠ [])
    (hout : outDims ops inTy.dims = some outTy.dims) (hpos : ∀ d ∈ outTy.dims, 0 < d)
    (hstride : inTy.stride.length = inTy.dims.length) (hnew : outTy.stride = calcStride outTy.dims) :
    Places input ops inTy outTy ↔ moveCount ops inTy.dims ≤ 1 ∧ ∀ n < outTy.dims.prod,
      elementAt inTy.stride (multiIndex (back ops (outTy.dims, n)).1 (back ops (outTy.dims, n)).2) =
        elementAt inTy.stride (source ops inTy.dims (multiIndex outTy.dims n)) := by
  obtain ⟨k, hk, hreads⟩ := (build_of_ne_nil hne hout hstride : ∃ k, build input inTy outTy ops = .ok k ∧ _)
  have hdeclared := kernel_declared_nodup_iff hne hout hk
  constructor
  · rintro ⟨⟨k', hk', hnodup, hall⟩, -⟩
    obtain rfl : k = k' := Except.ok.inj (hk.symm.trans hk')
    exact ⟨hdeclared.mp hnodup, fun n hn => by rw [← hreads n hn, hall n hn]⟩
  · rintro ⟨hcount, hall⟩
    refine ⟨⟨k, hk, hdeclared.mpr hcount, fun n hn => ?_⟩, fun n hn => ?_⟩
    · rw [hreads n hn, hall n hn]
    · rw [Translator.buildContiguous_eq hout hpos hnew hn, hall n hn]

/-- The device functions on a number inside the array. -/
theorem toTensorIdx_eq {axes : List (Nat × Nat)} {n : Nat} (hn : n < Strided.size axes) :
    toTensorIdx axes n = Strided.offset axes n := by
  induction axes generalizing n with
  | nil => rfl
  | cons a axes ih =>
      obtain ⟨d, s⟩ := a
      cases axes with
      | nil =>
          have hlt : n < d := by simpa using hn
          rw [toTensorIdx, Strided.offset_cons_of_lt s [] hlt]
      | cons b axes =>
          rw [Strided.size_cons] at hn
          rw [Strided.offset, ← ih (Nat.div_lt_of_lt_mul hn)]
          rfl

theorem tensorIdx_call {value : ValueId} {ty : ResolvedTensorType} (hlow : 2 ≤ ty.dims.length)
    (hhigh : ty.dims.length ≤ 5) :
    tensorIdx value ty = .ok (.call (toTensorIdx (ty.dims.zip ty.stride).reverse) (.var .gid)) := by
  have hrank : ty.dims.length = 2 ∨ ty.dims.length = 3 ∨ ty.dims.length = 4 ∨ ty.dims.length = 5 := by omega
  rw [tensorIdx]
  rcases hrank with h | h | h | h <;> rw [h] <;> rfl

theorem tensorIdx_error {value : ValueId} {ty : ResolvedTensorType}
    (h : ty.dims.length = 0 ∨ 6 ≤ ty.dims.length) :
    tensorIdx value ty = .error (.unsupportedTensorDim value ty.dims.length) := by
  unfold tensorIdx
  generalize ty.dims.length = rank at h
  split
  · omega
  · omega
  · omega
  · omega
  · omega
  · rfl

/-- Without steps, the kernel exists from rank one to five, and a vector is read without its stride. -/
theorem places_nil_iff {input : ValueId} {inTy outTy : ResolvedTensorType}
    (hdims : outTy.dims = inTy.dims) (hpos : ∀ d ∈ outTy.dims, 0 < d)
    (hstride : inTy.stride.length = inTy.dims.length) (hnew : outTy.stride = calcStride outTy.dims) :
    Places input [] inTy outTy ↔ 1 ≤ inTy.dims.length ∧ inTy.dims.length ≤ 5 ∧
      (inTy.dims.length = 1 → inTy.dims = [1] ∨ inTy.stride = [1]) := by
  have hcpu : ∀ n < outTy.dims.prod, Translator.buildContiguous outTy inTy [] n =
      elementAt inTy.stride (multiIndex outTy.dims n) := fun n hn =>
    Translator.buildContiguous_eq (by rw [hdims]; rfl) hpos hnew hn
  have hoffset : ∀ n, elementAt inTy.stride (multiIndex outTy.dims n) =
      Strided.offset (inTy.dims.zip inTy.stride).reverse n := fun n => by
    rw [hdims]
    exact elementAt_multiIndex hstride n
  have hbuild : build input inTy outTy [] =
      (tensorIdx input inTy).map fun e => { body := [], inputIdx := e } := rfl
  by_cases hrank : inTy.dims.length = 0 ∨ 6 ≤ inTy.dims.length
  · refine iff_of_false ?_ fun h => by omega
    rintro ⟨⟨k, hk, -⟩, -⟩
    rw [hbuild, tensorIdx_error hrank] at hk
    cases hk
  by_cases hone : inTy.dims.length = 1
  · obtain ⟨d, hd⟩ := List.length_eq_one_iff.mp hone
    obtain ⟨s, hs⟩ := List.length_eq_one_iff.mp (hstride.trans hone)
    have hsize : outTy.dims.prod = d := by rw [hdims, hd, List.prod_singleton]
    have hright : ∀ n < d, elementAt inTy.stride (multiIndex outTy.dims n) = n * s := fun n hn => by
      rw [hoffset, hd, hs]
      exact Strided.offset_cons_of_lt s [] hn
    have hdpos : 0 < d := hpos d (by rw [hdims, hd]; exact List.mem_cons_self)
    have hindex : tensorIdx input inTy = .ok (.var .gid) := by
      rw [tensorIdx, hone]
      rfl
    constructor
    · rintro ⟨⟨k, hk, -, hall⟩, -⟩
      rw [hbuild, hindex] at hk
      obtain rfl := Except.ok.inj hk
      refine ⟨by omega, by omega, fun _ => ?_⟩
      rcases Nat.eq_or_lt_of_le (Nat.succ_le_of_lt hdpos) with hunit | hlt
      · exact .inl (by rw [hd, ← hunit])
      · -- the second element of the vector is one stride away
        have hsecond : 1 = elementAt inTy.stride (multiIndex outTy.dims 1) := hall 1 (by rw [hsize]; exact hlt)
        rw [hright 1 hlt, Nat.one_mul] at hsecond
        exact .inr (by rw [hs, ← hsecond])
    · rintro ⟨-, -, hcond⟩
      refine ⟨⟨{ body := [], inputIdx := .var .gid }, by rw [hbuild, hindex]; rfl, List.nodup_singleton _,
        fun n hn => ?_⟩, hcpu⟩
      show n = elementAt inTy.stride (multiIndex outTy.dims n)
      rw [hsize] at hn
      rw [hright n hn]
      rcases hcond hone with hunit | hunit
      · rw [hd, List.singleton_inj] at hunit
        have hzero : n = 0 := by omega
        rw [hzero, Nat.zero_mul]
      · rw [hs, List.singleton_inj] at hunit
        rw [hunit, Nat.mul_one]
  · have hindex : tensorIdx input inTy =
        .ok (.call (toTensorIdx (inTy.dims.zip inTy.stride).reverse) (.var .gid)) :=
      tensorIdx_call (by omega) (by omega)
    refine iff_of_true ⟨⟨{ body := [], inputIdx := _ }, by rw [hbuild, hindex]; rfl, List.nodup_singleton _,
      fun n hn => ?_⟩, hcpu⟩ ?_
    · refine Eq.trans (toTensorIdx_eq ?_) (hoffset n).symm
      have hsize : Strided.size (inTy.dims.zip inTy.stride).reverse = inTy.dims.prod := by
        rw [Strided.size, List.map_reverse, List.prod_reverse, List.map_fst_zip (Nat.le_of_eq hstride.symm)]
      rw [hsize, ← hdims]
      exact hn
    · exact ⟨by omega, by omega, fun h => absurd h hone⟩

end NnEngine
