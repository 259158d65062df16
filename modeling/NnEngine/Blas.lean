import Mathlib.Tactic

/-!
# Matrix products of BLAS

What a `gemm` does to a memory of named buffers: with its matrices stored by rows or by columns, each with a
leading dimension and perhaps transposed.  A call with a leading dimension that is too small, or that reads
or writes past the end of a buffer, has no result.
-/

namespace NnEngine
namespace Blas

/-- A memory of named buffers. -/
abbrev Memory (B R : Type) := B → Nat → R

inductive Order
  | rowMajor
  | colMajor
  deriving DecidableEq, Repr

/-- A matrix in a buffer: its rows, or its columns, are `ld` elements apart. -/
structure Matrix (B : Type) where
  buf : B
  start : Nat
  ld : Nat
  trans : Bool
  deriving DecidableEq, Repr

/-- The row and the column of the matrix are the two coordinates of the storage, the slow one first. -/
def Order.slowFast : Order → Bool → Nat → Nat → Nat × Nat
  | rowMajor, false, i, j => (i, j)
  | rowMajor, true, i, j => (j, i)
  | colMajor, false, i, j => (j, i)
  | colMajor, true, i, j => (i, j)

namespace Matrix

variable {B : Type}

/-- Where entry `i`, `j` of the matrix lies, after it is transposed. -/
def address (o : Order) (x : Matrix B) (i j : Nat) : Nat :=
  x.start + ((o.slowFast x.trans i j).1 * x.ld + (o.slowFast x.trans i j).2)

/-- The leading dimension is large enough for this many rows and columns. -/
def Legal (o : Order) (x : Matrix B) (rows cols : Nat) : Prop :=
  max 1 (o.slowFast x.trans rows cols).2 ≤ x.ld

/-- The entries lie inside a buffer of this size. -/
def Inside (o : Order) (size : B → Nat) (x : Matrix B) (rows cols : Nat) : Prop :=
  ∀ i < rows, ∀ j < cols, x.address o i j < size x.buf

instance (o : Order) (x : Matrix B) (rows cols : Nat) : Decidable (x.Legal o rows cols) :=
  inferInstanceAs (Decidable (_ ≤ _))

instance (o : Order) (size : B → Nat) (x : Matrix B) (rows cols : Nat) :
    Decidable (x.Inside o size rows cols) :=
  inferInstanceAs (Decidable (∀ i < rows, ∀ j < cols, _))

/-- The matrix that lies `d` elements further on. -/
def shift (x : Matrix B) (d : Nat) : Matrix B := { x with start := x.start + d }

variable {o : Order} {x : Matrix B} {i j d rows cols : Nat} {size : B → Nat}

theorem address_shift : (x.shift d).address o i j = d + x.address o i j := by
  dsimp only [address, shift]
  omega

theorem address_rowMajor :
    x.address .rowMajor i j = x.start + if x.trans then j * x.ld + i else i * x.ld + j := by
  unfold address
  cases x.trans <;> rfl

theorem legal_rowMajor : x.Legal .rowMajor rows cols ↔ max 1 (if x.trans then rows else cols) ≤ x.ld := by
  unfold Legal
  cases x.trans <;> rfl

end Matrix

namespace Order

variable {o : Order} {t : Bool} {i j rows cols : Nat}

def other : Order → Order
  | rowMajor => colMajor
  | colMajor => rowMajor

theorem slowFast_slowFast : o.slowFast t (o.slowFast t i j).1 (o.slowFast t i j).2 = (i, j) := by
  cases o <;> cases t <;> rfl

/-- Rows in the one order are columns in the other. -/
theorem slowFast_other : o.other.slowFast t i j = o.slowFast t j i := by
  cases o <;> cases t <;> rfl

theorem slowFast_lt : (o.slowFast t i j).1 < (o.slowFast t rows cols).1 ∧
    (o.slowFast t i j).2 < (o.slowFast t rows cols).2 ↔ i < rows ∧ j < cols := by
  cases o <;> cases t <;> simp [slowFast, and_comm]

end Order

/-- A call: `c := alpha * a * b + beta * c`. -/
structure Call (B R : Type) where
  order : Order
  m : Nat
  n : Nat
  k : Nat
  alpha : R
  a : Matrix B
  b : Matrix B
  beta : R
  c : Matrix B

namespace Call

variable {B R : Type} [CommSemiring R] {size : B → Nat} {g : Call B R} {μ μ' : Memory B R} {i j : Nat}

def Legal (g : Call B R) : Prop :=
  g.a.Legal g.order g.m g.k ∧ g.b.Legal g.order g.k g.n ∧ g.c.Legal g.order g.m g.n

/-- Everything that is read or written lies inside its buffer.  With `alpha` zero the factors are not read. -/
def Inside (size : B → Nat) (g : Call B R) : Prop :=
  g.c.Inside g.order size g.m g.n ∧
    (g.alpha ≠ 0 → (0 < g.n → g.a.Inside g.order size g.m g.k) ∧ (0 < g.m → g.b.Inside g.order size g.k g.n))

/-- Entry `i`, `j` of the result. -/
def value (g : Call B R) (μ : Memory B R) (i j : Nat) : R :=
  g.alpha * ∑ l ∈ Finset.range g.k,
      μ g.a.buf (g.a.address g.order i l) * μ g.b.buf (g.b.address g.order l j) +
    g.beta * μ g.c.buf (g.c.address g.order i j)

/-- The entry of the result that lies at `p`. -/
def entryAt (g : Call B R) (p : Nat) : Nat × Nat :=
  g.order.slowFast g.c.trans ((p - g.c.start) / g.c.ld) ((p - g.c.start) % g.c.ld)

/-- The element at `p` is written. -/
def Writes (g : Call B R) (p : Nat) : Prop :=
  g.c.start ≤ p ∧ (g.entryAt p).1 < g.m ∧ (g.entryAt p).2 < g.n

instance [DecidableEq R] (size : B → Nat) (g : Call B R) : Decidable (g.Inside size) :=
  inferInstanceAs (Decidable (_ ∧ (_ → _)))

instance (g : Call B R) : Decidable g.Legal := inferInstanceAs (Decidable (_ ∧ _ ∧ _))

instance (g : Call B R) (p : Nat) : Decidable (g.Writes p) := inferInstanceAs (Decidable (_ ∧ _ ∧ _))

/-- The memory after the call. -/
def result [DecidableEq B] (g : Call B R) (μ : Memory B R) : Memory B R := fun x p =>
  if x = g.c.buf ∧ g.Writes p then g.value μ (g.entryAt p).1 (g.entryAt p).2 else μ x p

def run [DecidableEq B] [DecidableEq R] (size : B → Nat) (g : Call B R) (μ : Memory B R) :
    Option (Memory B R) :=
  if g.Legal ∧ g.Inside size then some (g.result μ) else none

theorem run_eq_some [DecidableEq B] [DecidableEq R] :
    g.run size μ = some μ' ↔ g.Legal ∧ g.Inside size ∧ g.result μ = μ' := by
  unfold run
  rw [Option.ite_none_right_eq_some, Option.some_inj, and_assoc]

/-- The product of the transposed matrices is the transposed product. -/
def swap (g : Call B R) : Call B R :=
  { order := g.order.other, m := g.n, n := g.m, k := g.k, alpha := g.alpha, a := g.b, b := g.a
    beta := g.beta, c := g.c }

section Swap

theorem address_other (o : Order) (x : Matrix B) : x.address o.other i j = x.address o j i := by
  unfold Matrix.address
  rw [Order.slowFast_other]

theorem legal_other (o : Order) (x : Matrix B) {rows cols : Nat} :
    x.Legal o.other rows cols ↔ x.Legal o cols rows := by
  unfold Matrix.Legal
  rw [Order.slowFast_other]

theorem inside_other (o : Order) (x : Matrix B) {rows cols : Nat} :
    x.Inside o.other size rows cols ↔ x.Inside o size cols rows := by
  unfold Matrix.Inside
  simp only [address_other]
  exact ⟨fun h i hi j hj => h j hj i hi, fun h i hi j hj => h j hj i hi⟩

theorem swap_value : g.swap.value μ j i = g.value μ i j := by
  unfold value swap
  simp only [address_other, mul_comm]

omit [CommSemiring R] in
theorem swap_entryAt (p : Nat) : g.swap.entryAt p = (g.entryAt p).swap := by
  unfold entryAt swap
  cases g.order <;> cases g.c.trans <;> rfl

omit [CommSemiring R] in
theorem swap_writes {p : Nat} : g.swap.Writes p ↔ g.Writes p := by
  unfold Writes
  rw [swap_entryAt]
  exact and_congr_right fun _ => and_comm

/-- A call by columns is a call by rows with the factors exchanged, and the other way round. -/
theorem swap_run [DecidableEq B] [DecidableEq R] : g.swap.run size μ = g.run size μ := by
  have hlegal : g.swap.Legal ↔ g.Legal := by
    unfold Legal
    simp only [swap, legal_other]
    tauto
  have hinside : g.swap.Inside size ↔ g.Inside size := by
    unfold Inside
    simp only [swap, inside_other]
    tauto
  have hresult : g.swap.result μ = g.result μ := by
    ext x p
    unfold result
    rw [swap_entryAt, Prod.fst_swap, Prod.snd_swap, swap_value]
    simp only [swap_writes]
    rfl
  unfold run
  simp only [hlegal, hinside, hresult]

end Swap

section Result

variable [DecidableEq B]

theorem result_of_ne {x : B} (hx : x ≠ g.c.buf) (p : Nat) : g.result μ x p = μ x p :=
  if_neg fun h => hx h.1

omit [CommSemiring R] [DecidableEq B] in
theorem entryAt_address (hlegal : g.Legal) (hi : i < g.m) (hj : j < g.n) :
    g.entryAt (g.c.address g.order i j) = (i, j) := by
  obtain ⟨-, -, hc⟩ := hlegal
  have hfast := (Order.slowFast_lt (o := g.order) (t := g.c.trans)).mpr ⟨hi, hj⟩
  have hld : (g.order.slowFast g.c.trans i j).2 < g.c.ld :=
    hfast.2.trans_le ((Nat.le_max_right _ _).trans hc)
  unfold entryAt Matrix.address
  rw [Nat.add_sub_cancel_left, Nat.mul_comm, Nat.mul_add_div (Nat.zero_lt_of_lt hld), Nat.div_eq_of_lt hld,
    Nat.mul_add_mod, Nat.mod_eq_of_lt hld, Nat.add_zero, Order.slowFast_slowFast]

/-- The entries of the product. -/
theorem result_address (hlegal : g.Legal) (hi : i < g.m) (hj : j < g.n) :
    g.result μ g.c.buf (g.c.address g.order i j) = g.value μ i j := by
  have hentry := entryAt_address hlegal hi hj
  have hwrites : g.Writes (g.c.address g.order i j) :=
    ⟨Nat.le_add_right _ _, by rw [hentry]; exact ⟨hi, hj⟩⟩
  unfold result
  rw [if_pos ⟨rfl, hwrites⟩, hentry]

/-- How far the product reaches. -/
def span (g : Call B R) : Nat := (g.order.slowFast g.c.trans g.m g.n).1 * g.c.ld

theorem result_of_outside {p : Nat} (hlegal : g.Legal) (hp : p < g.c.start ∨ g.c.start + g.span ≤ p) :
    g.result μ g.c.buf p = μ g.c.buf p := by
  refine if_neg fun h => ?_
  obtain ⟨-, hle, hentry⟩ := h
  obtain ⟨-, -, hc⟩ := hlegal
  have hld : 0 < g.c.ld := (Nat.le_max_left _ _).trans hc
  have hfast := (Order.slowFast_lt (o := g.order) (t := g.c.trans)).mpr hentry
  unfold entryAt at hfast
  rw [Order.slowFast_slowFast, Nat.div_lt_iff_lt_mul hld] at hfast
  unfold span at hp
  omega

end Result

end Call

/-- The calls one after the other. -/
def runAll {B R : Type} [CommSemiring R] [DecidableEq B] [DecidableEq R] (size : B → Nat)
    (calls : List (Call B R)) (μ : Memory B R) : Option (Memory B R) :=
  calls.foldlM (fun μ g => g.run size μ) μ

/-- Call number `t` of a batch. -/
def Call.step {B R : Type} (g : Call B R) (da db dc t : Nat) : Call B R :=
  { g with a := g.a.shift (t * da), b := g.b.shift (t * db), c := g.c.shift (t * dc) }

/-- A call for each of a number of matrices, which lie `da`, `db` and `dc` elements apart. -/
def Call.batch {B R : Type} (g : Call B R) (da db dc count : Nat) : List (Call B R) :=
  (List.range count).map (g.step da db dc)

section Batch

variable {B R : Type} [CommSemiring R] [DecidableEq B] [DecidableEq R] {size : B → Nat} {g : Call B R}
  {da db dc count : Nat} {μ : Memory B R}

/-- If all calls have a result, none of them goes past the end of a buffer. -/
theorem inside_of_runAll {calls : List (Call B R)} {μ' : Memory B R} (h : runAll size calls μ = some μ') :
    ∀ g ∈ calls, g.Inside size := by
  induction calls generalizing μ with
  | nil => exact nofun
  | cons g calls ih =>
      obtain ⟨μ₁, hfirst, hrest⟩ := Option.bind_eq_some_iff.mp h
      exact List.forall_mem_cons.mpr ⟨(Call.run_eq_some.mp hfirst).2.1, ih hrest⟩

/-- What a batch leaves in the memory, if its products do not overlap. -/
structure Batched (g : Call B R) (da db dc count : Nat) (μ μ' : Memory B R) : Prop where
  entry : ∀ t < count, ∀ i < g.m, ∀ j < g.n,
    μ' g.c.buf (t * dc + g.c.address g.order i j) = (g.step da db dc t).value μ i j
  rest : ∀ p, g.c.start + count * dc ≤ p → μ' g.c.buf p = μ g.c.buf p
  frame : ∀ x ≠ g.c.buf, μ' x = μ x

omit [CommSemiring R] [DecidableEq B] [DecidableEq R] in
theorem batch_succ (g : Call B R) (da db dc count : Nat) :
    g.batch da db dc (count + 1) = g.batch da db dc count ++ [g.step da db dc count] := by
  unfold Call.batch
  rw [List.range_succ, List.map_append]
  rfl

theorem runAll_batch (hlegal : g.Legal) (hspan : g.span ≤ dc) (ha : g.a.buf ≠ g.c.buf)
    (hb : g.b.buf ≠ g.c.buf) (hinside : ∀ t < count, (g.step da db dc t).Inside size) :
    ∃ μ', runAll size (g.batch da db dc count) μ = some μ' ∧ Batched g da db dc count μ μ' := by
  induction count with
  | zero => exact ⟨μ, rfl, nofun, fun _ _ => rfl, fun _ _ => rfl⟩
  | succ count ih =>
      obtain ⟨μ', hrun, hbatch⟩ := ih fun t ht => hinside t (Nat.lt_succ_of_lt ht)
      have hstep : (g.step da db dc count).Legal := hlegal
      have hspan' : (g.step da db dc count).span ≤ dc := hspan
      refine ⟨(g.step da db dc count).result μ', ?_, ?_, ?_, ?_⟩
      · unfold runAll at hrun ⊢
        rw [batch_succ, List.foldlM_append, hrun]
        simp [Call.run, hstep, hinside count (Nat.lt_succ_self _)]
      · intro t ht i hi j hj
        obtain hlt | rfl := Nat.lt_succ_iff_lt_or_eq.mp ht
        · -- an earlier product ends before this one begins
          have hpos := (Order.slowFast_lt (o := g.order) (t := g.c.trans)).mpr ⟨hi, hj⟩
          have hfast := hpos.2.trans_le ((Nat.le_max_right _ _).trans hlegal.2.2)
          have hwithin : g.c.address g.order i j < g.c.start + g.span := by
            unfold Matrix.address Call.span
            have hrow := Nat.mul_le_mul_right g.c.ld (Nat.succ_le_of_lt hpos.1)
            rw [Nat.succ_mul] at hrow
            omega
          have hnext : (t + 1) * dc ≤ count * dc := Nat.mul_le_mul_right dc hlt
          rw [Nat.succ_mul] at hnext
          have hout : t * dc + g.c.address g.order i j < (g.step da db dc count).c.start := by
            show _ < g.c.start + count * dc
            omega
          rw [show g.c.buf = (g.step da db dc count).c.buf from rfl,
            Call.result_of_outside hstep (.inl hout)]
          exact hbatch.entry t hlt i hi j hj
        · have hentry := Call.result_address (μ := μ') hstep hi hj
          have haddr : (g.step da db dc t).c.address (g.step da db dc t).order i j =
              t * dc + g.c.address g.order i j := Matrix.address_shift
          rw [haddr] at hentry
          refine hentry.trans ?_
          -- the factors are not written, and the product has not been written yet
          have hbefore : μ' g.c.buf (t * dc + g.c.address g.order i j) =
              μ g.c.buf (t * dc + g.c.address g.order i j) := by
            refine hbatch.rest _ ?_
            unfold Matrix.address
            omega
          unfold Call.value
          rw [haddr]
          show g.alpha * ∑ l ∈ Finset.range g.k, μ' g.a.buf _ * μ' g.b.buf _ + g.beta * μ' g.c.buf _ = _
          rw [hbefore, hbatch.frame _ ha, hbatch.frame _ hb]
          rfl
      · intro p hp
        rw [Nat.succ_mul] at hp
        refine (Call.result_of_outside (g := g.step da db dc count) hstep (.inr ?_)).trans
          (hbatch.rest p (by omega))
        show g.c.start + count * dc + _ ≤ p
        omega
      · intro x hx
        ext p
        rw [Call.result_of_ne (g := g.step da db dc count) hx, hbatch.frame x hx]

end Batch

/-! ### Matrices without gaps -/

theorem mul_add_lt {i j m n : Nat} (hi : i < m) (hj : j < n) : i * n + j < m * n :=
  calc i * n + j < (i + 1) * n := by rw [Nat.succ_mul]; omega
    _ ≤ m * n := Nat.mul_le_mul_right n hi

/-- Where entry `i`, `j` of a matrix lies that is stored by rows, or by columns. -/
def entryAddress (trans : Bool) (ld i j : Nat) : Nat := if trans then j * ld + i else i * ld + j

theorem entryAddress_lt {trans : Bool} {i j rows cols : Nat} (hi : i < rows) (hj : j < cols) :
    entryAddress trans (if !trans then cols else rows) i j < rows * cols := by
  cases trans with
  | false => exact mul_add_lt hi hj
  | true =>
      rw [Nat.mul_comm rows]
      exact mul_add_lt hj hi

/-- The last entry of a matrix lies last. -/
theorem entryAddress_last {trans : Bool} {rows cols l : Nat} (hrows : 0 < rows) (hl : l < cols) :
    entryAddress trans (if !trans then cols else rows) (rows - 1) l = rows * cols - 1 ↔ l = cols - 1 := by
  obtain ⟨r, rfl⟩ : ∃ r, rows = r + 1 := ⟨rows - 1, by omega⟩
  obtain ⟨c, rfl⟩ : ∃ c, cols = c + 1 := ⟨cols - 1, by omega⟩
  have hlast : (r + 1) * (c + 1) - 1 = r * (c + 1) + c := by
    rw [Nat.succ_mul]
    omega
  rw [hlast]
  cases trans with
  | false =>
      show r * (c + 1) + l = r * (c + 1) + c ↔ l = c
      omega
  | true =>
      show l * (r + 1) + r = r * (c + 1) + c ↔ l = c
      have hflip : r * (c + 1) + c = c * (r + 1) + r := by ring
      rw [hflip, Nat.add_right_cancel_iff, Nat.mul_left_inj (Nat.succ_ne_zero r)]

/-- A call by rows on matrices without gaps: a factor that is transposed lies by columns. -/
def Call.dense {B R : Type} (m n k : Nat) (alpha beta : R) (a b : B × Nat × Bool) (c : B × Nat) : Call B R :=
  { order := .rowMajor, m, n, k, alpha, beta
    a := { buf := a.1, start := a.2.1, ld := if !a.2.2 then k else m, trans := a.2.2 }
    b := { buf := b.1, start := b.2.1, ld := if !b.2.2 then n else k, trans := b.2.2 }
    c := { buf := c.1, start := c.2, ld := n, trans := false } }

/-- Where entry `i`, `j` of a matrix without gaps lies. -/
def denseEntry (trans : Bool) (rows cols i j : Nat) : Nat :=
  entryAddress trans (if !trans then cols else rows) i j

section Dense

variable {B R : Type} {m n k : Nat} {alpha beta : R} {a b : B × Nat × Bool} {c : B × Nat} {size : B → Nat}

theorem dense_legal (hm : 0 < m) (hn : 0 < n) (hk : 0 < k) : (Call.dense m n k alpha beta a b c).Legal := by
  refine ⟨Matrix.legal_rowMajor.mpr ?_, Matrix.legal_rowMajor.mpr ?_, ?_⟩
  · show max 1 (if a.2.2 then m else k) ≤ if !a.2.2 then k else m
    cases a.2.2 <;> simp <;> omega
  · show max 1 (if b.2.2 then k else n) ≤ if !b.2.2 then n else k
    cases b.2.2 <;> simp <;> omega
  · show max 1 n ≤ n
    omega

variable [CommSemiring R]

theorem dense_inside (hm : 0 < m) (hn : 0 < n) : (Call.dense m n k alpha beta a b c).Inside size ↔
    (∀ i < m, ∀ j < n, c.2 + (i * n + j) < size c.1) ∧
      (alpha ≠ 0 → (∀ i < m, ∀ l < k, a.2.1 + denseEntry a.2.2 m k i l < size a.1) ∧
        ∀ l < k, ∀ j < n, b.2.1 + denseEntry b.2.2 k n l j < size b.1) := by
  unfold Call.Inside Matrix.Inside
  simp only [Call.dense, Matrix.address_rowMajor, hm, hn, true_implies]
  rfl

theorem dense_value {μ : Memory B R} {i j : Nat} : (Call.dense m n k alpha beta a b c).value μ i j =
    alpha * ∑ l ∈ Finset.range k,
        μ a.1 (a.2.1 + denseEntry a.2.2 m k i l) * μ b.1 (b.2.1 + denseEntry b.2.2 k n l j) +
      beta * μ c.1 (c.2 + (i * n + j)) := by
  unfold Call.value
  simp only [Call.dense, Matrix.address_rowMajor]
  rfl

/-- The call leaves the product of what lies where it finds the factors. -/
theorem dense_result [DecidableEq B] {μ : Memory B R} {i j : Nat} (hm : 0 < m) (hn : 0 < n) (hk : 0 < k)
    (hi : i < m) (hj : j < n) : (Call.dense m n k alpha beta a b c).result μ c.1 (c.2 + (i * n + j)) =
      alpha * ∑ l ∈ Finset.range k,
          μ a.1 (a.2.1 + denseEntry a.2.2 m k i l) * μ b.1 (b.2.1 + denseEntry b.2.2 k n l j) +
        beta * μ c.1 (c.2 + (i * n + j)) := by
  have hentry := Call.result_address (g := Call.dense m n k alpha beta a b c) (μ := μ) (dense_legal hm hn hk) hi hj
  rw [dense_value] at hentry
  exact (congrArg _ Matrix.address_rowMajor.symm).trans hentry

variable [DecidableEq B] [DecidableEq R]

variable (alpha beta size a b c) in
/-- The calls of a batch without gaps leave all products. -/
theorem runAll_dense (hm : 0 < m) (hn : 0 < n) (hk : 0 < k) (ha : a.1 ≠ c.1) (hb : b.1 ≠ c.1) {count : Nat}
    (hsizeA : a.2.1 + count * (m * k) ≤ size a.1) (hsizeB : b.2.1 + count * (k * n) ≤ size b.1)
    (hsizeC : c.2 + count * (m * n) ≤ size c.1) (μ : Memory B R) :
    ∃ μ', runAll size ((Call.dense m n k alpha beta a b c).batch (m * k) (k * n) (m * n) count) μ = some μ' ∧
      ∀ t < count, ∀ i < m, ∀ j < n, μ' c.1 (c.2 + (t * (m * n) + (i * n + j))) =
        alpha * ∑ l ∈ Finset.range k, μ a.1 (a.2.1 + (t * (m * k) + denseEntry a.2.2 m k i l)) *
            μ b.1 (b.2.1 + (t * (k * n) + denseEntry b.2.2 k n l j)) +
          beta * μ c.1 (c.2 + (t * (m * n) + (i * n + j))) := by
  have hstep (t : Nat) : (Call.dense m n k alpha beta a b c).step (m * k) (k * n) (m * n) t =
      Call.dense m n k alpha beta (a.1, a.2.1 + t * (m * k), a.2.2) (b.1, b.2.1 + t * (k * n), b.2.2)
        (c.1, c.2 + t * (m * n)) := rfl
  have hpast {s t d p size : Nat} (ht : t < count) (hp : p < d) (hsize : s + count * d ≤ size) :
      s + t * d + p < size := by
    have hnext := Nat.mul_le_mul_right d (Nat.succ_le_of_lt ht)
    rw [Nat.succ_mul] at hnext
    omega
  have hinside : ∀ t < count,
      ((Call.dense m n k alpha beta a b c).step (m * k) (k * n) (m * n) t).Inside size := by
    intro t ht
    rw [hstep]
    refine (dense_inside hm hn).mpr
      ⟨fun i hi j hj => hpast ht (mul_add_lt hi hj) hsizeC, fun _ => ⟨fun i hi l hl => ?_, fun l hl j hj => ?_⟩⟩
    · exact hpast ht (entryAddress_lt hi hl) hsizeA
    · exact hpast ht (entryAddress_lt hl hj) hsizeB
  obtain ⟨μ', hrun, hbatch⟩ := runAll_batch (μ := μ) (dense_legal hm hn hk) (Nat.le_refl (m * n)) ha hb hinside
  refine ⟨μ', hrun, fun t ht i hi j hj => ?_⟩
  have hentry := hbatch.entry t ht i hi j hj
  have haddr : t * (m * n) + (Call.dense m n k alpha beta a b c).c.address .rowMajor i j =
      c.2 + (t * (m * n) + (i * n + j)) := by
    rw [Matrix.address_rowMajor]
    exact Nat.add_left_comm _ _ _
  change μ' c.1 (t * (m * n) + (Call.dense m n k alpha beta a b c).c.address .rowMajor i j) = _ at hentry
  rw [haddr, hstep, dense_value] at hentry
  simp only [Nat.add_assoc] at hentry
  exact hentry

end Dense

/-- A batch by columns is a batch by rows with the factors exchanged. -/
theorem runAll_swap {B R : Type} [CommSemiring R] [DecidableEq B] [DecidableEq R] {size : B → Nat}
    {g : Call B R} {da db dc count : Nat} {μ : Memory B R} :
    runAll size (g.swap.batch db da dc count) μ = runAll size (g.batch da db dc count) μ := by
  unfold runAll Call.batch
  rw [List.foldlM_map, List.foldlM_map]
  have hrun (t : Nat) (μ : Memory B R) :
      (g.swap.step db da dc t).run size μ = (g.step da db dc t).run size μ := Call.swap_run (g := g.step da db dc t)
  simp only [hrun]

end Blas
end NnEngine
