import NnEngine.StraightLine
import NnEngine.Graph.Reinterpret
import NnEngine.Tensor.Layout

/-!
# The index programs of `Contiguous`

What `ContiguousBuilder::build` of `src/codegen/cuda/kernel.rs` and `build_contiguous` of
`src/codegen/cpu/translator.rs` emit to find, for an element of the output, the element of the input to
copy: both walk the steps backwards with a row-major number and the extents that it counts in.  The
`int` of the kernel and the `i64` of the translator are natural numbers.
-/

namespace NnEngine

open StraightLine

/-- The loop over `perm` that sets entry `perm[i]` to `vals i`. -/
def scatter {α : Type} (perm : List Nat) (vals : Nat → α) (base : List α) : List α :=
  perm.zipIdx.foldl (fun acc (p, i) => acc.set p (vals i)) base

theorem scatter_length {α : Type} (perm : List Nat) (vals : Nat → α) (base : List α) :
    (scatter perm vals base).length = base.length := by
  rw [scatter]
  generalize perm.zipIdx = ps
  induction ps generalizing base with
  | nil => rfl
  | cons p ps ih => rw [List.foldl_cons, ih, List.length_set]

theorem scatter_eq {α : Type} {perm : List Nat} {base : List α} (h : IsPerm perm base.length)
    (vals : Nat → α) : scatter perm vals base = (List.range base.length).map fun j => vals (perm.idxOf j) := by
  have hloop : ∀ (perm : List Nat) (k : Nat) (base : List α), perm.Nodup → ∀ j < base.length,
      ((perm.zipIdx k).foldl (fun acc (p, i) => acc.set p (vals i)) base)[j]? =
        if j ∈ perm then some (vals (k + perm.idxOf j)) else base[j]? := by
    intro perm
    induction perm with
    | nil => intro k base _ j _; simp
    | cons p perm ih =>
        intro k base hnodup j hj
        obtain ⟨hnot, hrest⟩ := List.nodup_cons.mp hnodup
        rw [List.zipIdx_cons, List.foldl_cons, ih (k + 1) _ hrest j (by simpa using hj)]
        by_cases hjp : j = p
        · subst hjp
          rw [if_neg hnot, if_pos List.mem_cons_self, List.idxOf_cons_self, List.getElem?_set_self hj,
            Nat.add_zero]
        · rw [List.idxOf_cons_ne _ (fun heq => hjp heq.symm), List.getElem?_set_ne fun heq => hjp heq.symm]
          simp only [List.mem_cons, hjp, false_or]
          rw [Nat.succ_eq_add_one, Nat.add_assoc, Nat.add_comm 1]
  refine List.ext_getElem? fun j => ?_
  by_cases hj : j < base.length
  · rw [scatter, hloop perm 0 base h.nodup j hj, if_pos (h.mem_iff.mpr hj)]
    simp [hj]
  · rw [List.getElem?_eq_none (by rw [scatter_length]; omega), List.getElem?_eq_none (by simp; omega)]

theorem scatter_getD {perm l base : List Nat} (h : IsPerm perm base.length) :
    scatter perm (fun i => l.getD i 0) base = unpermute perm l := by
  rw [scatter_eq h, unpermute, h.length]

namespace ReinterpretType

/-- The permutation that both emitters use. -/
def walked (perm : Option (List Nat)) (rank : Nat) : List Nat := perm.getD (List.range rank)

/-- What one step does to the extents and the row-major number in the backward walk. -/
def back : ReinterpretType → List Nat × Nat → List Nat × Nat
  | reshape before _, (_, n) => (before, n)
  | transpose perm, (shape, n) =>
      let turned := unpermute (walked perm shape.length) shape
      (turned, rowMajor turned (unpermute (walked perm shape.length) (multiIndex shape n)))
  | broadcast before _, (shape, n) => (before, rowMajor before (clamp before (multiIndex shape n)))

/-- The step can be walked back from an array of this rank. -/
def Walks : ReinterpretType → Nat → Prop
  | reshape _ _, _ => True
  | transpose perm, rank => IsPerm (walked perm rank) rank
  | broadcast before _, rank => before.length ≤ rank

end ReinterpretType

/-- The backward walk over all steps. -/
def back (ops : List ReinterpretType) (out : List Nat × Nat) : List Nat × Nat :=
  ops.foldr ReinterpretType.back out

section Walk

variable {op : ReinterpretType} {ops : List ReinterpretType} {dims mid out shape : List Nat}

theorem ReinterpretType.walks (h : op.outDims dims = some mid) : op.Walks mid.length := by
  cases op with
  | reshape before after => trivial
  | transpose perm =>
      obtain ⟨hperm, hdims⟩ := Option.ite_none_right_eq_some.mp h
      obtain rfl := Option.some.inj hdims
      show IsPerm (walked perm (permute _ dims).length) (permute _ dims).length
      rw [permute_length, hperm.length]
      cases perm with
      | none => exact List.Perm.refl _
      | some perm => exact hperm
  | broadcast before after =>
      obtain ⟨⟨-, hlen, -⟩, hdims⟩ := Option.ite_none_right_eq_some.mp h
      obtain rfl := Option.some.inj hdims
      exact hlen

/-- The walk keeps the rank of the dims, whatever the extents. -/
theorem ReinterpretType.back_length (h : op.outDims dims = some mid) (hshape : shape.length = mid.length)
    (n : Nat) : (op.back (shape, n)).1.length = dims.length := by
  have hwalks := walks h
  cases op with
  | reshape before after =>
      obtain ⟨⟨rfl, -⟩, -⟩ := Option.ite_none_right_eq_some.mp h
      rfl
  | transpose perm =>
      obtain ⟨hperm, hdims⟩ := Option.ite_none_right_eq_some.mp h
      obtain rfl := Option.some.inj hdims
      rw [← hshape] at hwalks
      show (unpermute (walked perm shape.length) shape).length = dims.length
      rw [unpermute_length, IsPerm.length hwalks, hshape, permute_length, hperm.length]
  | broadcast before after =>
      obtain ⟨⟨rfl, -⟩, -⟩ := Option.ite_none_right_eq_some.mp h
      rfl

theorem back_length (h : outDims ops dims = some out) (hshape : shape.length = out.length) (n : Nat) :
    (back ops (shape, n)).1.length = dims.length := by
  induction ops generalizing dims with
  | nil =>
      obtain rfl := Option.some.inj h
      exact hshape
  | cons op ops ih =>
      obtain ⟨mid, hmid, hrest⟩ := outDims_cons_eq_some h
      exact ReinterpretType.back_length hmid (ih hrest) _

end Walk

/-! ### The kernel -/

namespace ContiguousBuilder

/-- The names of the coordinates in the kernel's text. -/
inductive Coord
  | idx
  | t
  | s
  deriving DecidableEq

/-- The variables of the kernel's text. -/
inductive Name
  | gid
  | offset
  | srcIdx
  | coord (c : Coord) (i : Nat)
  deriving DecidableEq

abbrev Code := List (Stmt Name)

/-- The loop that takes `offset` apart, from the last axis on. -/
def decode (c : Coord) (shape : List Nat) : Code :=
  shape.zipIdx.reverse.flatMap fun (d, i) =>
    [.decl (.coord c i) (.mod (.var .offset) (.lit d)), .assign .offset (.div (.var .offset) (.lit d))]

/-- One axis of the loop that puts `offset` together. -/
def encodeAxis (d : Nat) : Option Name → Stmt Name
  | some x => .assign .offset (.add (.mul (.var .offset) (.lit d)) (.var x))
  | none => .assign .offset (.mul (.var .offset) (.lit d))

/-- The loop that puts `offset` together, over the extents and their coordinates. -/
def encode (axes : List (Nat × Option Name)) : Code :=
  .assign .offset (.lit 0) :: axes.map fun (d, x) => encodeAxis d x

/-- The text for one step, and the extents before it. -/
def step : ReinterpretType → List Nat → Code × List Nat
  | .reshape before _, _ => ([], before)
  | .transpose perm, shape =>
      let perm := perm.getD (List.range shape.length)
      let oldShape := shape
      let shape := scatter perm (fun i => oldShape.getD i 0) shape
      let invPerm := scatter perm id (List.replicate oldShape.length 0)
      (decode .t oldShape ++ encode (shape.zipIdx.map fun (d, k) => (d, some (.coord .t (invPerm.getD k 0)))),
        shape)
  | .broadcast before _, shape =>
      (decode .t shape ++
        encode (before.zipIdx.map fun (d, i) => (d, if d = 1 then none else some (.coord .t i))), before)

/-- The text for all steps, and the extents before them. -/
def steps (ops : List ReinterpretType) (shape : List Nat) : Code × List Nat :=
  ops.foldr (fun op (body, shape) => (body ++ (step op shape).1, (step op shape).2)) ([], shape)

/-- `to_tensor_idx2d` .. `to_tensor_idx5d` on the axes from the last one on. -/
def toTensorIdx : List (Nat × Nat) → Nat → Nat
  | [], _ => 0
  | [(_, stride)], flat => flat * stride
  | (dim, stride) :: axes, flat => flat % dim * stride + toTensorIdx axes (flat / dim)

inductive BuildError
  | unsupportedTensorDim (value : ValueId) (ndim : Nat)
  deriving DecidableEq, Repr

/-- `tensor_idx` without `target_dims`. -/
def tensorIdx (value : ValueId) (ty : ResolvedTensorType) : Except BuildError (Expr Name) :=
  match ty.dims.length with
  | 1 => .ok (.var .gid)
  | 2 | 3 | 4 | 5 => .ok (.call (toTensorIdx (ty.dims.zip ty.stride).reverse) (.var .gid))
  | d => .error (.unsupportedTensorDim value d)

/-- The text of a kernel: its statements after `gid` is declared, and the index that it reads. -/
structure Kernel where
  body : Code
  inputIdx : Expr Name

/-- `ContiguousBuilder::build`. -/
def build (input : ValueId) (inTy outTy : ResolvedTensorType) (ops : List ReinterpretType) :
    Except BuildError Kernel :=
  if ops.isEmpty then
    (tensorIdx input inTy).map fun e => { body := [], inputIdx := e }
  else
    let (body, shape) := steps ops outTy.dims
    .ok
      { body :=
          .decl .offset (.var .gid) :: decode .idx outTy.dims ++
            encode (outTy.dims.zipIdx.map fun (d, i) => (d, some (.coord .idx i))) ++
            body ++ decode .s shape ++
            .decl .srcIdx (.lit 0) ::
              inTy.stride.zipIdx.map fun (s, i) => .addAssign .srcIdx (.mul (.var (.coord .s i)) (.lit s))
        inputIdx := .var .srcIdx }

/-- The variables declared in the kernel's scope. -/
def Kernel.declared (k : Kernel) : List Name := .gid :: StraightLine.declared k.body

/-- The input index that the thread with this `gid` reads, whatever the other variables held. -/
def Kernel.reads (k : Kernel) (gid : Nat) : Nat :=
  k.inputIdx.eval (run (fun x => if x = .gid then gid else 0) k.body)

section Text

variable {σ : Name → Nat} {c : Coord} {y : Name}

theorem decode_cons (c : Coord) (d k : Nat) (shape : List Nat) :
    ((d :: shape).zipIdx k).reverse.flatMap (fun (d, i) =>
      [Stmt.decl (Name.coord c i) (.mod (.var .offset) (.lit d)),
        .assign .offset (.div (.var .offset) (.lit d))]) =
    (shape.zipIdx (k + 1)).reverse.flatMap (fun (d, i) =>
      [Stmt.decl (Name.coord c i) (.mod (.var .offset) (.lit d)),
        .assign .offset (.div (.var .offset) (.lit d))]) ++
      [.decl (.coord c k) (.mod (.var .offset) (.lit d)), .assign .offset (.div (.var .offset) (.lit d))] := by
  simp

/-- The loop leaves the coordinates of the number that `offset` was. -/
theorem run_decode (σ : Name → Nat) (c : Coord) (shape : List Nat) {i : Nat} (hi : i < shape.length) :
    run σ (decode c shape) (.coord c i) = (multiIndex shape (σ .offset)).getD i 0 := by
  have hloop : ∀ (shape : List Nat) (k : Nat),
      let code := (shape.zipIdx k).reverse.flatMap fun (d, i) =>
        [Stmt.decl (Name.coord c i) (.mod (.var .offset) (.lit d)),
          .assign .offset (.div (.var .offset) (.lit d))]
      run σ code .offset = σ .offset / shape.prod ∧
        ∀ i < shape.length, run σ code (.coord c (k + i)) = (multiIndex shape (σ .offset)).getD i 0 := by
    intro shape
    induction shape with
    | nil => intro k; simp
    | cons d shape ih =>
        intro k
        obtain ⟨hoffset, hcoord⟩ := ih (k + 1)
        dsimp only
        rw [decode_cons, StraightLine.run_append]
        refine ⟨?_, fun i hi => ?_⟩
        · simp [Stmt.exec, Expr.eval, hoffset, Nat.div_div_eq_div_mul, Nat.mul_comm]
        · cases i with
          | zero => simp [Stmt.exec, Expr.eval, hoffset, multiIndex]
          | succ i =>
              have h := hcoord i (by simpa using hi)
              rw [Nat.add_assoc, Nat.add_comm 1] at h
              simp [Stmt.exec, h, multiIndex]
  have h := (hloop shape 0).2 i hi
  rw [Nat.zero_add] at h
  exact h

/-- What an axis of the loop adds. -/
def coordValue (σ : Name → Nat) : Option Name → Nat
  | some x => σ x
  | none => 0

theorem run_encode {axes : List (Nat × Option Name)} (h : ∀ p ∈ axes, p.2 ≠ some .offset) :
    run σ (encode axes) .offset = rowMajor (axes.map Prod.fst) (axes.map fun p => coordValue σ p.2) := by
  have hloop : ∀ (axes : List (Nat × Option Name)) (σ' : Name → Nat), (∀ p ∈ axes, p.2 ≠ some .offset) →
      (∀ y, y ≠ .offset → σ' y = σ y) →
      run σ' (axes.map fun (d, x) => encodeAxis d x) .offset =
        σ' .offset * (axes.map Prod.fst).prod +
          rowMajor (axes.map Prod.fst) (axes.map fun p => coordValue σ p.2) := by
    intro axes
    induction axes with
    | nil => intro σ' _ _; simp [rowMajor]
    | cons p axes ih =>
        intro σ' hne hσ
        obtain ⟨d, x⟩ := p
        have hx : x ≠ some .offset := hne (d, x) List.mem_cons_self
        have hexec : (encodeAxis d x).exec σ' = Function.update σ' .offset (σ' .offset * d + coordValue σ x) := by
          cases x with
          | none => rfl
          | some x =>
              have : σ' x = σ x := hσ x fun heq => hx (by rw [heq])
              simp [encodeAxis, Stmt.exec, Expr.eval, coordValue, this]
        rw [List.map_cons, run_cons, hexec, ih _ (fun q hq => hne q (List.mem_cons_of_mem _ hq))]
        · simp only [Function.update_self, List.map_cons, List.prod_cons, rowMajor]
          ring
        · intro y hy
          rw [Function.update_of_ne hy, hσ y hy]
  rw [encode, run_cons, hloop axes _ h fun y hy => Stmt.exec_of_ne (s := .assign Name.offset (.lit 0)) hy]
  simp [Stmt.exec, Expr.eval]

/-- The text for a step walks it back. -/
theorem run_step {op : ReinterpretType} {shape : List Nat} (h : op.Walks shape.length) :
    ((step op shape).2, run σ (step op shape).1 .offset) = op.back (shape, σ .offset) := by
  cases op with
  | reshape before after => rfl
  | transpose perm =>
      have hperm : IsPerm (ReinterpretType.walked perm shape.length) shape.length := h
      have hinv : scatter (ReinterpretType.walked perm shape.length) id (List.replicate shape.length 0) =
          (List.range shape.length).map fun j => (ReinterpretType.walked perm shape.length).idxOf j := by
        rw [scatter_eq (by simpa using hperm), List.length_replicate]
        rfl
      have hshape : scatter (ReinterpretType.walked perm shape.length) (fun i => shape.getD i 0) shape =
          unpermute (ReinterpretType.walked perm shape.length) shape := scatter_getD hperm
      have hcoords : (unpermute (ReinterpretType.walked perm shape.length) shape).zipIdx.map (fun p =>
          coordValue (run σ (decode .t shape)) (some (Name.coord .t
            (((List.range shape.length).map fun j =>
              (ReinterpretType.walked perm shape.length).idxOf j).getD p.2 0)))) =
          unpermute (ReinterpretType.walked perm shape.length) (multiIndex shape (σ .offset)) := by
        refine List.ext_getElem (by simp) fun j hj _ => ?_
        have hj' : j < shape.length := by simpa [hperm.length] using hj
        have hidx : (ReinterpretType.walked perm shape.length).idxOf j < shape.length := by
          have := List.idxOf_lt_length_of_mem (hperm.mem_iff.mpr hj')
          rwa [hperm.length] at this
        simp [hj', coordValue, run_decode σ .t shape hidx, unpermute]
      show (scatter (ReinterpretType.walked perm shape.length) (fun i => shape.getD i 0) shape, run σ
        (decode .t shape ++ encode ((scatter (ReinterpretType.walked perm shape.length)
          (fun i => shape.getD i 0) shape).zipIdx.map fun p => (p.1, some (Name.coord .t
            ((scatter (ReinterpretType.walked perm shape.length) id
              (List.replicate shape.length 0)).getD p.2 0))))) .offset) = _
      rw [hshape, hinv, StraightLine.run_append, run_encode]
      · simp only [List.map_map, Function.comp_def, List.zipIdx_map_fst]
        rw [hcoords]
        rfl
      · intro p hp
        obtain ⟨q, -, rfl⟩ := List.mem_map.mp hp
        intro h
        cases h
  | broadcast before after =>
      have hlen : before.length ≤ shape.length := h
      have hcoords : before.zipIdx.map (fun p => coordValue (run σ (decode .t shape))
          (if p.1 = 1 then none else some (Name.coord .t p.2))) =
          clamp before (multiIndex shape (σ .offset)) := by
        refine List.ext_getElem (by simp [clamp, hlen]) fun i hi _ => ?_
        have hi' : i < before.length := by simpa using hi
        have hcoord := run_decode σ .t shape (show i < shape.length by omega)
        rw [getD_of_lt (by simp; omega)] at hcoord
        by_cases hone : before[i] = 1
        · simp [clamp, hone, coordValue]
        · simp [clamp, hone, coordValue, hcoord]
      show (before, run σ (decode .t shape ++ encode (before.zipIdx.map fun p =>
        (p.1, if p.1 = 1 then none else some (Name.coord .t p.2)))) .offset) = _
      rw [StraightLine.run_append, run_encode]
      · simp only [List.map_map, Function.comp_def, List.zipIdx_map_fst]
        rw [hcoords]
        rfl
      · intro p hp
        obtain ⟨q, -, rfl⟩ := List.mem_map.mp hp
        dsimp only
        split <;> simp

/-- The text for all steps walks them back. -/
theorem run_steps {ops : List ReinterpretType} {dims out shape : List Nat} (h : outDims ops dims = some out)
    (hshape : shape.length = out.length) :
    ((steps ops shape).2, run σ (steps ops shape).1 .offset) = back ops (shape, σ .offset) := by
  induction ops generalizing dims with
  | nil => rfl
  | cons op ops ih =>
      obtain ⟨mid, hmid, hrest⟩ := outDims_cons_eq_some h
      have hback := ih hrest
      have hwalks : op.Walks (steps ops shape).2.length := by
        have hlen := back_length hrest hshape (σ .offset)
        rw [← hback] at hlen
        exact hlen.symm ▸ ReinterpretType.walks hmid
      have hstep := run_step (σ := run σ (steps ops shape).1) hwalks
      show ((step op (steps ops shape).2).2,
        run σ ((steps ops shape).1 ++ (step op (steps ops shape).2).1) .offset) =
          op.back (back ops (shape, σ .offset))
      rw [StraightLine.run_append, hstep, hback]

theorem exec_srcIdx {s : Stmt Name} (h : s.target = .srcIdx) (σ : Name → Nat) (c : Coord) (i : Nat) :
    s.exec σ (.coord c i) = σ (.coord c i) := by
  refine Stmt.exec_of_ne ?_
  rw [h]
  nofun

theorem run_addressing (strides coords : List Nat) (hlen : strides.length = coords.length)
    (hcoords : ∀ i < coords.length, σ (.coord .s i) = coords.getD i 0) :
    run σ (strides.zipIdx.map fun (s, i) =>
      .addAssign .srcIdx (.mul (.var (.coord .s i)) (.lit s))) .srcIdx =
        σ .srcIdx + elementAt strides coords := by
  have hloop : ∀ (strides coords : List Nat) (k : Nat) (σ : Name → Nat), strides.length = coords.length →
      (∀ i < coords.length, σ (.coord .s (k + i)) = coords.getD i 0) →
      run σ ((strides.zipIdx k).map fun (s, i) =>
        .addAssign .srcIdx (.mul (.var (.coord .s i)) (.lit s))) .srcIdx =
          σ .srcIdx + elementAt strides coords := by
    intro strides
    induction strides with
    | nil => intro coords k σ _ _; simp [elementAt]
    | cons s strides ih =>
        intro coords k σ hlen hcoords
        cases coords with
        | nil => cases hlen
        | cons c coords =>
            have hhead : σ (.coord .s k) = c := hcoords 0 (Nat.zero_lt_succ _)
            rw [List.zipIdx_cons, List.map_cons, run_cons, ih coords (k + 1) _ (Nat.succ.inj hlen)]
            · simp [Stmt.exec, Expr.eval, hhead, elementAt, Nat.add_assoc]
            · intro i hi
              rw [exec_srcIdx rfl, Nat.add_assoc, Nat.add_comm 1]
              exact hcoords (i + 1) (Nat.succ_lt_succ hi)
  exact hloop strides coords 0 σ hlen fun i hi => by rw [Nat.zero_add]; exact hcoords i hi

end Text

variable {input : ValueId} {inTy outTy : ResolvedTensorType} {ops : List ReinterpretType}

/-- A list of steps always has a kernel, which reads the element that the backward walk ends at. -/
theorem build_of_ne_nil (hne : ops ≠ []) (hout : outDims ops inTy.dims = some outTy.dims)
    (hstride : inTy.stride.length = inTy.dims.length) :
    ∃ k, build input inTy outTy ops = .ok k ∧ ∀ n < outTy.dims.prod,
      k.reads n = elementAt inTy.stride
        (multiIndex (back ops (outTy.dims, n)).1 (back ops (outTy.dims, n)).2) := by
  have hempty : ops.isEmpty = false := by simpa using hne
  refine ⟨_, by rw [build, hempty]; rfl, fun n hn => ?_⟩
  simp only [Kernel.reads, Expr.eval, StraightLine.run_append, run_cons]
  generalize hσ : Stmt.exec (fun x : Name => if x = .gid then n else 0) (.decl .offset (.var .gid)) = σ
  have hgid : σ .offset = n := by
    rw [← hσ]
    rfl
  -- the coordinates of the output come apart and together again
  generalize hstart : run (run σ (decode .idx outTy.dims))
    (encode (outTy.dims.zipIdx.map fun p => (p.1, some (.coord .idx p.2)))) = start
  have hoffset : start .offset = n := by
    rw [← hstart, run_encode]
    · have hcoords : outTy.dims.zipIdx.map (fun p =>
          coordValue (run σ (decode .idx outTy.dims)) (some (Name.coord .idx p.2))) =
            multiIndex outTy.dims n := by
        refine List.ext_getElem (by simp) fun i hi _ => ?_
        have hi' : i < outTy.dims.length := by simpa using hi
        have hcoord := run_decode σ .idx outTy.dims hi'
        rw [getD_of_lt (by simpa using hi'), hgid] at hcoord
        simp [coordValue, hcoord]
      simp only [List.map_map, Function.comp_def, List.zipIdx_map_fst]
      rw [hcoords, rowMajor_multiIndex hn]
    · intro p hp
      obtain ⟨q, -, rfl⟩ := List.mem_map.mp hp
      nofun
  have hsteps := run_steps (σ := start) hout rfl
  rw [hoffset] at hsteps
  obtain ⟨hshape, hnumber⟩ : (steps ops outTy.dims).2 = (back ops (outTy.dims, n)).1 ∧
      run start (steps ops outTy.dims).1 .offset = (back ops (outTy.dims, n)).2 :=
    ⟨congrArg Prod.fst hsteps, congrArg Prod.snd hsteps⟩
  rw [run_addressing _ (multiIndex (back ops (outTy.dims, n)).1 (back ops (outTy.dims, n)).2)
    (by rw [multiIndex_length, back_length hout rfl, hstride])]
  · simp [Stmt.exec, Expr.eval]
  · intro i hi
    rw [multiIndex_length, ← hshape] at hi
    rw [exec_srcIdx rfl]
    show run (run start (steps ops outTy.dims).1) (decode .s (steps ops outTy.dims).2) (.coord .s i) = _
    rw [run_decode _ .s _ hi, hshape, hnumber]

end ContiguousBuilder

/-! ### The translator -/

namespace Translator

/-- The loops that take a number apart, from the last axis on. -/
def decode (shape : List Nat) (cur : Nat) : List Nat :=
  (shape.reverse.foldl (fun (indexes, cur) d => (cur % d :: indexes, cur / d)) ([], cur)).1

/-- The loops that put a number together. -/
def encode (indexes shape : List Nat) : Nat :=
  (indexes.zip shape).foldl (fun acc (i, d) => acc * d + i) 0

def step : ReinterpretType → List Nat × Nat → List Nat × Nat
  | .reshape before _, (_, offset) => (before, offset)
  | .transpose perm, (shape, offset) =>
      let newIndexes := decode shape offset
      let perm := perm.getD (List.range shape.length)
      let indexes := scatter perm (fun i => newIndexes.getD i 0) (List.replicate shape.length 0)
      let newShape := shape
      let shape := scatter perm (fun i => newShape.getD i 0) shape
      (shape, encode indexes shape)
  | .broadcast before _, (shape, offset) =>
      let indexes := decode shape offset
      (before, encode (List.zipWith (fun idx d => if d = 1 then 0 else idx) indexes before) before)

/-- `build_contiguous`: the offset in the source that is loaded for the loop counter `ind`. -/
def buildContiguous (dst src : ResolvedTensorType) (ops : List ReinterpretType) (ind : Nat) : Nat :=
  let indexes := List.zipWith (fun d s => ind / max s 1 % d) dst.dims dst.stride
  let (shape, offset) := ops.foldr step (dst.dims, encode indexes dst.dims)
  ((decode shape offset).zip src.stride).foldl (fun acc (i, s) => acc + i * s) 0

theorem decode_eq (shape : List Nat) (cur : Nat) : decode shape cur = multiIndex shape cur := by
  have hloop : shape.reverse.foldl (fun (indexes, cur) d => (cur % d :: indexes, cur / d))
      (([] : List Nat), cur) = (multiIndex shape cur, cur / shape.prod) := by
    induction shape with
    | nil => simp [multiIndex]
    | cons d shape ih =>
        rw [List.reverse_cons, List.foldl_append, ih, List.foldl_cons, List.foldl_nil, multiIndex,
          List.prod_cons, Nat.mul_comm d, ← Nat.div_div_eq_div_mul]
  exact congrArg Prod.fst hloop

theorem encode_eq {indexes shape : List Nat} (h : shape.length ≤ indexes.length) :
    encode indexes shape = rowMajor shape indexes := by
  have hloop : ∀ (shape indexes : List Nat) (acc : Nat), shape.length ≤ indexes.length →
      (indexes.zip shape).foldl (fun acc (i, d) => acc * d + i) acc =
        acc * shape.prod + rowMajor shape indexes := by
    intro shape
    induction shape with
    | nil => intro indexes acc _; simp [rowMajor]
    | cons d shape ih =>
        intro indexes acc hlen
        cases indexes with
        | nil => cases hlen
        | cons i indexes =>
            rw [List.zip_cons_cons, List.foldl_cons, ih indexes _ (Nat.le_of_succ_le_succ hlen), rowMajor,
              List.prod_cons]
            ring
  rw [encode, hloop shape indexes 0 h, Nat.zero_mul, Nat.zero_add]

/-- The translator's step walks back. -/
theorem step_eq {op : ReinterpretType} {shape : List Nat} (h : op.Walks shape.length) (n : Nat) :
    step op (shape, n) = op.back (shape, n) := by
  cases op with
  | reshape before after => rfl
  | transpose perm =>
      have hperm : IsPerm (ReinterpretType.walked perm shape.length) shape.length := h
      show (scatter (ReinterpretType.walked perm shape.length) (fun i => shape.getD i 0) shape,
        encode (scatter (ReinterpretType.walked perm shape.length) (fun i => (decode shape n).getD i 0)
          (List.replicate shape.length 0))
          (scatter (ReinterpretType.walked perm shape.length) (fun i => shape.getD i 0) shape)) = _
      rw [scatter_getD hperm, scatter_getD (by simpa using hperm), decode_eq, encode_eq (by simp)]
      rfl
  | broadcast before after =>
      have hlen : before.length ≤ shape.length := h
      show (before, encode (List.zipWith (fun idx d => if d = 1 then 0 else idx) (decode shape n) before)
        before) = _
      rw [decode_eq, List.zipWith_comm, encode_eq (by simp; omega)]
      rfl

variable {src dst : ResolvedTensorType} {ops : List ReinterpretType}

/-- The coordinates that the strides of a contiguous destination give. -/
theorem indexes_of_new {dims : List Nat} (hpos : ∀ d ∈ dims, 0 < d) (n : Nat) :
    List.zipWith (fun d s => n / max s 1 % d) dims (calcStride dims) = multiIndex dims n := by
  induction dims with
  | nil => rfl
  | cons d dims ih =>
      have hinner : ∀ x ∈ dims, 0 < x := fun x hx => hpos x (List.mem_cons_of_mem d hx)
      have hsize := prod_pos_of_pos hinner
      rw [calcStride, List.zipWith_cons_cons, ih hinner, multiIndex]
      congr 1
      split
      · rename_i hone
        rw [hone, Nat.mod_one, Nat.mod_one]
      · rw [Nat.max_eq_left hsize]

theorem buildContiguous_eq (hout : outDims ops src.dims = some dst.dims) (hpos : ∀ d ∈ dst.dims, 0 < d)
    (hdst : dst.stride = calcStride dst.dims) {n : Nat} (hn : n < dst.dims.prod) :
    buildContiguous dst src ops n =
      elementAt src.stride (multiIndex (back ops (dst.dims, n)).1 (back ops (dst.dims, n)).2) := by
  have hwalk : ∀ (ops : List ReinterpretType) (dims : List Nat), outDims ops dims = some dst.dims →
      ops.foldr step (dst.dims, n) = back ops (dst.dims, n) := by
    intro ops
    induction ops with
    | nil => exact fun _ _ => rfl
    | cons op ops ih =>
        intro dims h
        obtain ⟨mid, hmid, hrest⟩ := outDims_cons_eq_some h
        have hwalks : op.Walks (back ops (dst.dims, n)).1.length := by
          rw [back_length hrest rfl]
          exact ReinterpretType.walks hmid
        rw [List.foldr_cons, ih mid hrest]
        exact step_eq hwalks _
  have hsum : ∀ (l : List (Nat × Nat)) (acc : Nat),
      l.foldl (fun acc (i, s) => acc + i * s) acc = acc + (l.map fun p => p.1 * p.2).sum := by
    intro l
    induction l with
    | nil => exact fun acc => rfl
    | cons p l ih =>
        intro acc
        rw [List.foldl_cons, ih, List.map_cons, List.sum_cons, Nat.add_assoc]
  rw [buildContiguous, hdst, indexes_of_new hpos, encode_eq (by simp), rowMajor_multiIndex hn, hwalk ops _ hout]
  dsimp only
  rw [decode_eq, hsum, Nat.zero_add, elementAt, List.zip_eq_zipWith, List.map_zipWith]

end Translator

end NnEngine
