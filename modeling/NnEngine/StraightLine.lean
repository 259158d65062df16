import Mathlib.Tactic

/-!
# Straight-line integer programs

Declarations and assignments of integer variables, one after the other, in one scope.
-/

namespace NnEngine
namespace StraightLine

variable {V : Type}

inductive Expr (V : Type)
  | lit (n : Nat)
  | var (x : V)
  | add (a b : Expr V)
  | mul (a b : Expr V)
  | div (a b : Expr V)
  | mod (a b : Expr V)
  | call (f : Nat → Nat) (a : Expr V)

inductive Stmt (V : Type)
  | decl (x : V) (e : Expr V)
  | assign (x : V) (e : Expr V)
  | addAssign (x : V) (e : Expr V)

namespace Expr

def eval (σ : V → Nat) : Expr V → Nat
  | lit n => n
  | var x => σ x
  | add a b => a.eval σ + b.eval σ
  | mul a b => a.eval σ * b.eval σ
  | div a b => a.eval σ / b.eval σ
  | mod a b => a.eval σ % b.eval σ
  | call f a => f (a.eval σ)

end Expr

namespace Stmt

/-- The variable that a statement sets. -/
def target : Stmt V → V
  | decl x _ | assign x _ | addAssign x _ => x

/-- The variable that a statement declares. -/
def declares : Stmt V → Option V
  | decl x _ => some x
  | assign _ _ | addAssign _ _ => none

variable [DecidableEq V]

def exec (σ : V → Nat) : Stmt V → V → Nat
  | decl x e => Function.update σ x (e.eval σ)
  | assign x e => Function.update σ x (e.eval σ)
  | addAssign x e => Function.update σ x (σ x + e.eval σ)

theorem exec_of_ne {σ : V → Nat} {s : Stmt V} {y : V} (h : y ≠ s.target) : s.exec σ y = σ y := by
  cases s <;> exact Function.update_of_ne h _ _

end Stmt

/-- The variables that a program declares, in order. -/
def declared (body : List (Stmt V)) : List V := body.filterMap Stmt.declares

@[simp] theorem declared_append (body rest : List (Stmt V)) :
    declared (body ++ rest) = declared body ++ declared rest := List.filterMap_append

@[simp] theorem declared_decl (x : V) (e : Expr V) (rest : List (Stmt V)) :
    declared (.decl x e :: rest) = x :: declared rest := rfl

@[simp] theorem declared_assign (x : V) (e : Expr V) (rest : List (Stmt V)) :
    declared (.assign x e :: rest) = declared rest := rfl

@[simp] theorem declared_addAssign (x : V) (e : Expr V) (rest : List (Stmt V)) :
    declared (.addAssign x e :: rest) = declared rest := rfl

variable [DecidableEq V] {σ : V → Nat} {body rest : List (Stmt V)} {y : V}

def run (σ : V → Nat) (body : List (Stmt V)) : V → Nat := body.foldl Stmt.exec σ

@[simp] theorem run_nil (σ : V → Nat) : run σ [] = σ := rfl

@[simp] theorem run_cons (σ : V → Nat) (s : Stmt V) (rest : List (Stmt V)) :
    run σ (s :: rest) = run (s.exec σ) rest := rfl

@[simp] theorem run_append (σ : V → Nat) (body rest : List (Stmt V)) :
    run σ (body ++ rest) = run (run σ body) rest := List.foldl_append

end StraightLine
end NnEngine
