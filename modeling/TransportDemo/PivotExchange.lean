import Mathlib

/-!
# Inverting a matrix in its own storage

Gauss-Jordan elimination needs two matrices, but a column that has become a
unit vector on the left need not be stored. In place, `M` holds the unfinished
columns of the left factor and the finished columns of the right one; `left` and
`right` unpack them. The relation `left = right * A` survives swapping two
unfinished rows, when the rows of `A` are swapped too, and pivoting.
-/

namespace PivotExchange

open Matrix

variable {ι F : Type*} [DecidableEq ι] [Field F]

/-- The factor being reduced: the columns in `D` are already unit vectors. -/
def left (D : Finset ι) (M : Matrix ι ι F) : Matrix ι ι F :=
  of fun i j => if j ∈ D then (1 : Matrix ι ι F) i j else M i j

/-- The record of the row operations: only the columns in `D` have moved. -/
def right (D : Finset ι) (M : Matrix ι ι F) : Matrix ι ι F :=
  of fun i j => if j ∈ D then M i j else (1 : Matrix ι ι F) i j

/-- Rows `r` and `c` change places. -/
def swapRows (r c : ι) (M : Matrix ι ι F) : Matrix ι ι F := M.submatrix (Equiv.swap r c) id

/-- Columns `r` and `c` change places. -/
def swapCols (r c : ι) (M : Matrix ι ι F) : Matrix ι ι F := M.submatrix id (Equiv.swap r c)

/-- One elimination step at the diagonal entry `c`, with the finished column stored
over the eliminated one. -/
def pivot (c : ι) (M : Matrix ι ι F) : Matrix ι ι F :=
  of fun i j =>
    if i = c then if j = c then (M c c)⁻¹ else (M c c)⁻¹ * M c j
    else if j = c then -(M i c * (M c c)⁻¹) else M i j - M i c * ((M c c)⁻¹ * M c j)

variable [Fintype ι]

/-- Add a multiple of row `c` to every row; the multiples are `u`. -/
def rowOp (u : ι → F) (c : ι) : Matrix ι ι F := 1 + vecMulVec u (Pi.single c 1)

theorem rowOp_mul (u : ι → F) (c : ι) (X : Matrix ι ι F) (i j : ι) :
    (rowOp u c * X) i j = X i j + u i * X c j := by
  simp [rowOp, add_mul, vecMulVec_mul, vecMulVec_apply]

theorem swapRows_eq_mul (r c : ι) (M : Matrix ι ι F) :
    swapRows r c M = (Equiv.swap r c).permMatrix F * M := by
  rw [swapRows, Equiv.Perm.permMatrix, PEquiv.toMatrix_toPEquiv_mul]

theorem swapCols_eq_mul (r c : ι) (M : Matrix ι ι F) :
    swapCols r c M = M * (Equiv.swap r c).permMatrix F := by
  rw [swapCols, Equiv.Perm.permMatrix, PEquiv.mul_toMatrix_toPEquiv, Equiv.symm_swap]

theorem swap_mul_swap (r c : ι) :
    (Equiv.swap r c).permMatrix F * (Equiv.swap r c).permMatrix F = 1 := by
  rw [← swapRows_eq_mul]
  ext i j
  simp [swapRows, Equiv.Perm.permMatrix, PEquiv.toMatrix_apply, one_apply]

/-- In place, `M` stands for a reduction of `A` whose finished columns are `D`. -/
structure Exchanged (A : Matrix ι ι F) (D : Finset ι) (M : Matrix ι ι F) : Prop where
  eq : left D M = right D M * A
  unit : IsUnit (right D M)

/-- Nothing is finished at the start. -/
theorem Exchanged.start (A : Matrix ι ι F) : Exchanged A ∅ A := by
  have hl : left ∅ A = A := by ext i j; simp [left]
  have hr : right ∅ A = 1 := by ext i j; simp [right]
  exact ⟨by rw [hl, hr, one_mul], by rw [hr]; exact isUnit_one⟩

/-- When every column is finished, the storage holds the inverse. -/
theorem Exchanged.finish {A M : Matrix ι ι F} (h : Exchanged A Finset.univ M) : M * A = 1 := by
  have hl : left Finset.univ M = 1 := by ext i j; simp [left]
  have hr : right Finset.univ M = M := by ext i j; simp [right]
  rw [← hl, h.eq, hr]

/-- Two unfinished rows may change places, if they do so in `A` as well. -/
theorem Exchanged.swap {A M : Matrix ι ι F} {D : Finset ι} (h : Exchanged A D M) {r c : ι}
    (hr : r ∉ D) (hc : c ∉ D) : Exchanged (swapRows r c A) D (swapRows r c M) := by
  let S : Matrix ι ι F := (Equiv.swap r c).permMatrix F
  have hmem : ∀ j, Equiv.swap r c j ∈ D ↔ j ∈ D := by
    intro j
    by_cases hjr : j = r
    · subst j; simp [hr, hc]
    · by_cases hjc : j = c
      · subst j; simp [hr, hc]
      · rw [Equiv.swap_apply_of_ne_of_ne hjr hjc]
  have hleft : left D (swapRows r c M) = S * left D M := by
    rw [← swapRows_eq_mul]
    ext i j
    by_cases hj : j ∈ D
    · have hne : ∀ l, l = r ∨ l = c → l ≠ j := by
        rintro l (rfl | rfl) he
        · exact hr (he ▸ hj)
        · exact hc (he ▸ hj)
      have hone : (1 : Matrix ι ι F) (Equiv.swap r c i) j = (1 : Matrix ι ι F) i j := by
        by_cases hir : i = r
        · subst i; simp [one_apply, hne]
        · by_cases hic : i = c
          · subst i; simp [one_apply, hne]
          · rw [Equiv.swap_apply_of_ne_of_ne hir hic]
      simp [left, swapRows, hj, hone]
    · simp [left, swapRows, hj]
  have hright : right D (swapRows r c M) = S * right D M * S := by
    rw [← swapRows_eq_mul, ← swapCols_eq_mul]
    ext i j
    by_cases hj : j ∈ D
    · have hjr : j ≠ r := fun he => hr (he ▸ hj)
      have hjc : j ≠ c := fun he => hc (he ▸ hj)
      simp [right, swapRows, swapCols, hj, Equiv.swap_apply_of_ne_of_ne hjr hjc]
    · simp [right, swapRows, swapCols, hj, hmem, one_apply]
  constructor
  · rw [hleft, hright, h.eq, swapRows_eq_mul]
    calc S * (right D M * A) = S * right D M * (1 * A) := by rw [one_mul, mul_assoc]
      _ = S * right D M * (S * S * A) := by rw [swap_mul_swap]
      _ = S * right D M * S * (S * A) := by simp only [mul_assoc]
  · have hS : IsUnit S := IsUnit.of_mul_eq_one S (swap_mul_swap r c)
    rw [hright]
    exact (hS.mul h.unit).mul hS

/-- The row operation of a pivot step, and its inverse. -/
theorem rowOp_isUnit {M : Matrix ι ι F} {c : ι} (hp : M c c ≠ 0) :
    IsUnit (rowOp (fun i => if i = c then (M c c)⁻¹ - 1 else -(M i c * (M c c)⁻¹)) c) := by
  let v : ι → F := fun i => if i = c then M c c - 1 else M i c
  have h : rowOp v c *
      rowOp (fun i => if i = c then (M c c)⁻¹ - 1 else -(M i c * (M c c)⁻¹)) c = 1 := by
    ext i j
    rw [rowOp_mul]
    by_cases hj : j = c
    · subst j
      by_cases hi : i = c
      · subst i
        simp [rowOp, v, vecMulVec_apply]
        field_simp
        ring
      · simp [rowOp, v, vecMulVec_apply, hi]
    · simp [rowOp, vecMulVec_apply, hj, one_apply, Ne.symm hj]
  exact IsUnit.of_mul_eq_one_right _ h

/-- A pivot step at an unfinished diagonal entry finishes its column. -/
theorem Exchanged.pivot {A M : Matrix ι ι F} {D : Finset ι} (h : Exchanged A D M) {c : ι}
    (hc : c ∉ D) (hp : M c c ≠ 0) : Exchanged A (insert c D) (pivot c M) := by
  let u : ι → F := fun i => if i = c then (M c c)⁻¹ - 1 else -(M i c * (M c c)⁻¹)
  have hleft : left (insert c D) (PivotExchange.pivot c M) = rowOp u c * left D M := by
    ext i j
    rw [rowOp_mul]
    by_cases hj : j = c
    · subst j
      by_cases hi : i = c
      · subst i; simp [left, hc, u]; field_simp; ring
      · simp [left, hc, u, hi, hp]
    · by_cases hjD : j ∈ D
      · simp [left, hjD, one_apply, Ne.symm hj]
      · by_cases hi : i = c
        · subst i; simp [left, PivotExchange.pivot, hj, hjD, u]; ring
        · simp [left, PivotExchange.pivot, hj, hjD, hi, u]; ring
  have hright : right (insert c D) (PivotExchange.pivot c M) = rowOp u c * right D M := by
    ext i j
    rw [rowOp_mul]
    by_cases hj : j = c
    · subst j
      by_cases hi : i = c
      · subst i; simp [right, PivotExchange.pivot, hc, u]
      · simp [right, PivotExchange.pivot, hc, u, hi]
    · by_cases hjD : j ∈ D
      · by_cases hi : i = c
        · subst i; simp [right, PivotExchange.pivot, hj, hjD, u]; ring
        · simp [right, PivotExchange.pivot, hj, hjD, hi, u]; ring
      · simp [right, hj, hjD, one_apply, Ne.symm hj]
  constructor
  · rw [hleft, hright, h.eq, mul_assoc]
  · rw [hright]
    exact (rowOp_isUnit hp).mul h.unit

/-- A reduction of an invertible matrix never runs out of pivots early. -/
theorem Exchanged.exists_pivot {A M : Matrix ι ι F} {D : Finset ι} (h : Exchanged A D M)
    (hA : IsUnit A) {r : ι} (hr : r ∉ D) : ∃ c, c ∉ D ∧ M r c ≠ 0 := by
  by_contra hnone
  push Not at hnone
  have hrow : ∀ j, left D M r j = 0 := by
    intro j
    by_cases hj : j ∈ D
    · have hne : r ≠ j := fun he => hr (he ▸ hj)
      simp [left, hj, one_apply, hne]
    · simp [left, hj, hnone j hj]
  have hunit : IsUnit (left D M) := h.eq ▸ h.unit.mul hA
  obtain ⟨B, hB⟩ := hunit.exists_right_inv
  have hone : (left D M * B) r r = 1 := by rw [hB, one_apply_eq]
  rw [mul_apply, Finset.sum_eq_zero fun j _ => by rw [hrow j, zero_mul]] at hone
  exact zero_ne_one hone

/-- Undoing a row exchange on the inverse exchanges the same columns. -/
theorem swapCols_mul_of_mul_swapRows {A M : Matrix ι ι F} {r c : ι}
    (h : M * swapRows r c A = 1) : swapCols r c M * A = 1 := by
  rw [swapRows_eq_mul, ← mul_assoc] at h
  rw [swapCols_eq_mul, h]

end PivotExchange
