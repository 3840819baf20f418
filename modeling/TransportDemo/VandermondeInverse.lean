import Mathlib

/-!
# The inverse of a Vandermonde matrix and the systematic code it gives

The column of the inverse that belongs to a node is the coefficient list of the
polynomial vanishing at the other nodes, scaled to value one at its own. That
polynomial is a synthetic division of the nodal polynomial by one linear factor.
Multiplying taller Vandermonde matrices by the inverse gives a code whose first
`k` rows are the identity and any `k` rows of which are invertible.
-/

namespace VandermondeInverse

open Polynomial Lagrange Finset Matrix

variable {F : Type*} [Field F]

theorem nodal_quotient (k : Nat) (p : Nat → F) {r : Nat} (hr : r ∈ range k) :
    nodal (range k) p /ₘ (X - C (p r)) = nodal ((range k).erase r) p := by
  rw [nodal_eq_mul_nodal_erase hr, mul_divByMonic_cancel_left _ (monic_X_sub_C _)]

/-- Synthetic division of the nodal polynomial, highest coefficient first. -/
theorem quotient_coeff_rec (k : Nat) (p : Nat → F) {r : Nat} (hr : r ∈ range k) (n : Nat) :
    (nodal ((range k).erase r) p).coeff n =
      (nodal (range k) p).coeff (n + 1) + p r * (nodal ((range k).erase r) p).coeff (n + 1) := by
  rw [← nodal_quotient k p hr]
  exact coeff_divByMonic_X_sub_C_rec _ _ _

theorem quotient_natDegree (k : Nat) (p : Nat → F) {r : Nat} (hr : r ∈ range k) :
    (nodal ((range k).erase r) p).natDegree = k - 1 := by
  rw [natDegree_nodal, card_erase_of_mem hr, card_range]

/-- The division starts from the leading coefficient one. -/
theorem quotient_coeff_last (k : Nat) (p : Nat → F) {r : Nat} (hr : r ∈ range k) :
    (nodal ((range k).erase r) p).coeff (k - 1) = 1 := by
  rw [← quotient_natDegree k p hr]
  exact nodal_monic

/-- Coefficient `col` of the polynomial that is one at node `row` and zero at the others. -/
noncomputable def weight (k : Nat) (p : Nat → F) (col row : Nat) : F :=
  (eval (p row) (nodal ((range k).erase row) p))⁻¹ * (nodal ((range k).erase row) p).coeff col

theorem sum_pow_mul_weight (k : Nat) (p : Nat → F) (x : F) {row : Nat} (hr : row ∈ range k) :
    ∑ col ∈ range k, x ^ col * weight k p col row =
      (eval (p row) (nodal ((range k).erase row) p))⁻¹ * eval x (nodal ((range k).erase row) p) := by
  have hk : 0 < k := Nat.zero_lt_of_lt (mem_range.mp hr)
  have hdeg : (nodal ((range k).erase row) p).natDegree < k := by
    rw [quotient_natDegree k p hr]; omega
  rw [eval_eq_sum_range' hdeg x, mul_sum]
  exact sum_congr rfl fun col _ => by rw [weight]; ring

/-- The weights invert the Vandermonde matrix of distinct nodes. -/
theorem sum_node_mul_weight (k : Nat) (p : Nat → F) (hp : Set.InjOn p (range k)) {i row : Nat}
    (hi : i ∈ range k) (hr : row ∈ range k) :
    ∑ col ∈ range k, p i ^ col * weight k p col row = if i = row then 1 else 0 := by
  rw [sum_pow_mul_weight k p (p i) hr]
  by_cases h : i = row
  · subst i
    have hne : eval (p row) (nodal ((range k).erase row) p) ≠ 0 := by
      apply eval_nodal_not_at_node
      intro j hj he
      exact (mem_erase.mp hj).1 (hp (mem_erase.mp hj).2 hr he.symm)
    rw [inv_mul_cancel₀ hne, if_pos rfl]
  · rw [eval_nodal_at_node (mem_erase.mpr ⟨h, hi⟩), mul_zero, if_neg h]

/-- Row `row` of the systematic generator matrix. -/
noncomputable def systematic (k : Nat) (p : Nat → F) (row col : Nat) : F :=
  ∑ c ∈ range k, p row ^ c * weight k p c col

theorem systematic_top (k : Nat) (p : Nat → F) (hp : Set.InjOn p (range k)) {row col : Nat}
    (hr : row < k) (hc : col < k) : systematic k p row col = if row = col then 1 else 0 :=
  sum_node_mul_weight k p hp (mem_range.mpr hr) (mem_range.mpr hc)

/-- Any `k` rows at distinct nodes are invertible. -/
theorem systematic_isUnit (k : Nat) (p : Nat → F) (hp : Set.InjOn p (range k))
    (row : Fin k → Nat) (hrow : Function.Injective fun i => p (row i)) :
    IsUnit (of fun i j : Fin k => systematic k p (row i) j) := by
  let W : Matrix (Fin k) (Fin k) F := of fun c j => weight k p c j
  have hfac : ∀ r : Fin k → Nat, (of fun i j : Fin k => systematic k p (r i) j) =
      vandermonde (fun i => p (r i)) * W := by
    intro r
    ext i j
    simp [mul_apply, vandermonde_apply, systematic, W, sum_range]
  have hone : vandermonde (fun i : Fin k => p i) * W = 1 := by
    rw [← hfac]
    ext i j
    simp [systematic_top k p hp i.isLt j.isLt, one_apply, Fin.ext_iff]
  have hW : IsUnit W := IsUnit.of_mul_eq_one_right _ hone
  rw [hfac]
  refine IsUnit.mul ?_ hW
  rw [isUnit_iff_isUnit_det]
  exact isUnit_iff_ne_zero.mpr (det_vandermonde_ne_zero_iff.mpr hrow)

end VandermondeInverse
