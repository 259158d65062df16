import Mathlib.Tactic

/-!
# Little-endian bytes

`to_le_bytes` and `from_le_bytes` of unsigned integers of any width, and cutting bytes into chunks of
one width (`chunks_exact`).
-/

namespace NnEngine

/-- `to_le_bytes` of an integer of `k` bytes. -/
def toLeBytes : Nat → Nat → List UInt8
  | 0, _ => []
  | k + 1, n => UInt8.ofNat n :: toLeBytes k (n / 256)

/-- `from_le_bytes`. -/
def fromLeBytes : List UInt8 → Nat
  | [] => 0
  | b :: bs => b.toNat + 256 * fromLeBytes bs

@[simp] theorem toLeBytes_length (k n : Nat) : (toLeBytes k n).length = k := by
  induction k generalizing n with
  | zero => rfl
  | succ k ih => simp [toLeBytes, ih]

theorem fromLeBytes_toLeBytes (k n : Nat) : fromLeBytes (toLeBytes k n) = n % 256 ^ k := by
  induction k generalizing n with
  | zero => simp [toLeBytes, fromLeBytes, Nat.mod_one]
  | succ k ih =>
      have hbyte : (UInt8.ofNat n).toNat = n % 256 := UInt8.toNat_ofNat'
      rw [toLeBytes, fromLeBytes, ih, hbyte, pow_succ' 256 k, Nat.mod_mul]

theorem fromLeBytes_lt (bs : List UInt8) : fromLeBytes bs < 256 ^ bs.length := by
  induction bs with
  | nil => simp [fromLeBytes]
  | cons b bs ih =>
      have hb := b.toNat_lt
      rw [fromLeBytes, List.length_cons, pow_succ]
      omega

/-- The first `n` chunks of width `k`. -/
def chunks (k : Nat) : Nat → List UInt8 → List (List UInt8)
  | 0, _ => []
  | n + 1, raw => raw.take k :: chunks k n (raw.drop k)

/-- `chunks_exact`, which leaves out what is shorter than a chunk at the end. -/
def chunksExact (k : Nat) (raw : List UInt8) : List (List UInt8) := chunks k (raw.length / k) raw

@[simp] theorem chunks_length (k n : Nat) (raw : List UInt8) : (chunks k n raw).length = n := by
  induction n generalizing raw with
  | zero => rfl
  | succ n ih => simp [chunks, ih]

theorem length_of_mem_chunks {k n : Nat} {raw c : List UInt8} (h : n * k ≤ raw.length) (hc : c ∈ chunks k n raw) :
    c.length = k := by
  induction n generalizing raw with
  | zero => cases hc
  | succ n ih =>
      rw [Nat.succ_mul] at h
      rcases List.mem_cons.mp hc with rfl | hc
      · rw [List.length_take]
        omega
      · refine ih ?_ hc
        rw [List.length_drop]
        omega

/-- Chunks have their width. -/
theorem length_of_mem_chunksExact {k : Nat} {raw c : List UInt8} (hc : c ∈ chunksExact k raw) : c.length = k :=
  length_of_mem_chunks (Nat.div_mul_le_self _ _) hc

theorem chunks_flatten {k : Nat} : ∀ (l : List (List UInt8)), (∀ x ∈ l, x.length = k) →
    chunks k l.length l.flatten = l := by
  intro l
  induction l with
  | nil => exact fun _ => rfl
  | cons x l ih =>
      intro h
      have hx := h x List.mem_cons_self
      rw [List.length_cons, List.flatten_cons, chunks, List.take_left' hx, List.drop_left' hx,
        ih fun y hy => h y (List.mem_cons_of_mem x hy)]

/-- Cutting what was put together from chunks. -/
theorem chunksExact_flatten {k : Nat} (hk : 0 < k) (l : List (List UInt8))
    (h : ∀ x ∈ l, x.length = k) : chunksExact k l.flatten = l := by
  have hlen : l.flatten.length = l.length * k := by
    induction l with
    | nil => simp
    | cons x l ih =>
        rw [List.flatten_cons, List.length_append, h x List.mem_cons_self,
          ih fun y hy => h y (List.mem_cons_of_mem x hy), List.length_cons]
        ring
  rw [chunksExact, hlen, Nat.mul_div_cancel _ hk]
  exact chunks_flatten l h

end NnEngine
