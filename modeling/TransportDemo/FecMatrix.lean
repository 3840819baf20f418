import TransportDemo.FecField
import TransportDemo.PivotExchange
import TransportDemo.VandermondeInverse

/-!
# Linear algebra over GF(256)

The matrix routines of the erasure code: `addmul`, `matmul`, the Gauss-Jordan
inversion `invert_mat` in place, and the fast inversion `invert_vdm` of the
Vandermonde matrix whose first node is zero. A `gf *` that the source indexes
as `m[row * k + col]` is a function of the row and the column.
-/

namespace FecMatrix

open CountedLoop FecField

/-- A row-major `gf` matrix. -/
abbrev GfMatrix := Nat → Nat → Gf

/-- `UNROLL`. -/
def unroll : Nat := 16

/-- `GF_ADDMULC(dst[i], src[i])` after `GF_MULC0(c)`. -/
def addmulc (src : Nat → Gf) (c : Gf) (i : Nat) (dst : Nat → Gf) : Nat → Gf :=
  store dst i (dst i ^^^ gfMul c (src i))

/-- `addmul1`: blocks of `UNROLL` entries, then the final components. -/
def addmul1 (dst src : Nat → Gf) (c : Gf) (sz : Nat) : Nat → Gf :=
  let dst := loop (sz / unroll)
    (fun a => loop unroll (fun r => addmulc src c (a * unroll + r))) dst
  loopFrom (sz / unroll * unroll) sz (addmulc src c) dst

/-- The macro `addmul`: `dst[] = dst[] + c * src[]`. -/
def addmul (dst src : Nat → Gf) (c : Gf) (sz : Nat) : Nat → Gf :=
  if c ≠ 0 then addmul1 dst src c sz else dst

/-- `matmul`: `c = a * b` where `a` is `n * k` and `b` is `k * m`. -/
def matmul (a b c : GfMatrix) (n k m : Nat) : GfMatrix :=
  loop n (fun row c => loop m (fun col c =>
    store c row (store (c row) col
      (loop k (fun i acc => acc ^^^ gfMul (a row i) (b i col)) 0))) c) c

/-! ## Gauss-Jordan inversion -/

/-- The locals of `invert_mat` that live across columns. -/
structure Inversion where
  src : GfMatrix
  ipiv : Nat → Nat
  indxr : Nat → Nat
  indxc : Nat → Nat

/-- How the search for a pivot ends: by `goto found_piv`, by `goto fail`, or past the loop. -/
inductive Search where
  | exhausted
  | found (irow icol : Nat)
  | singular
  deriving DecidableEq, Repr

/-- The inner search loop over the columns of one row. -/
def searchCols (s : Inversion) (row : Nat) : List Nat → Search
  | [] => .exhausted
  | ix :: rest =>
    if s.ipiv ix = 0 then
      if s.src row ix ≠ 0 then .found row ix else searchCols s row rest
    else if 1 < s.ipiv ix then .singular
    else searchCols s row rest

def searchRows (s : Inversion) (k : Nat) : List Nat → Search
  | [] => .exhausted
  | row :: rest =>
    if s.ipiv row ≠ 1 then
      match searchCols s row (List.range k) with
      | .exhausted => searchRows s k rest
      | result => result
    else searchRows s k rest

/-- The diagonal is tried first. -/
def findPivot (s : Inversion) (k col : Nat) : Search :=
  if s.ipiv col ≠ 1 ∧ s.src col col ≠ 0 then .found col col
  else searchRows s k (List.range k)

/-- `SWAP` over the entries of two rows. -/
def swapRows (src : GfMatrix) (k irow icol : Nat) : GfMatrix :=
  loop k (fun ix src =>
    let tmp := src irow ix
    let src := store src irow (store (src irow) ix (src icol ix))
    store src icol (store (src icol) ix tmp)) src

/-- `SWAP` over the entries of two columns. -/
def swapCols (src : GfMatrix) (k c₁ c₂ : Nat) : GfMatrix :=
  loop k (fun row src =>
    let tmp := src row c₁
    let src := store src row (store (src row) c₁ (src row c₂))
    store src row (store (src row) c₂ tmp)) src

/-- Divide the pivot row by its pivot `c`, leaving the inverse in the pivot's place. -/
def normalizeRow (pivotRow : Nat → Gf) (k icol : Nat) (c : Gf) : Nat → Gf :=
  let c := gfTables.inverse c
  let pivotRow := store pivotRow icol 1
  loop k (fun ix p => store p ix (gfMul c (p ix))) pivotRow

/-- Remove multiples of the pivot row from all other rows. -/
def eliminate (src : GfMatrix) (k icol : Nat) : GfMatrix :=
  loop k (fun ix src =>
    if ix ≠ icol then
      let c := src ix icol
      let p := store (src ix) icol 0
      store src ix (addmul p (src icol) c k)
    else src) src

/-- `bcmp(pivot_row, id_row, k) != 0`. -/
def differs (pivotRow idRow : Nat → Gf) (k : Nat) : Bool :=
  (List.range k).any fun ix => pivotRow ix ≠ idRow ix

/-- The turn of the main loop for one column; `none` is `goto fail`. -/
def pivotColumn (k col : Nat) (s : Inversion) : Option Inversion :=
  match findPivot s k col with
  | .found irow icol =>
    let ipiv := store s.ipiv icol (s.ipiv icol + 1)
    let src := if irow ≠ icol then swapRows s.src k irow icol else s.src
    let c := src icol icol
    if c = 0 then none
    else
      let src := if c ≠ 1 then store src icol (normalizeRow (src icol) k icol c) else src
      let idRow := store (fun _ => 0) icol 1
      let src := if differs (src icol) idRow k then eliminate src k icol else src
      some { src, ipiv, indxr := store s.indxr col irow, indxc := store s.indxc col icol }
  | _ => none

/-- One turn of the last loop: put the columns back where the rows came from. -/
def unscramble (k : Nat) (s : Inversion) (col : Nat) (src : GfMatrix) : GfMatrix :=
  if k ≤ s.indxr col then src
  else if k ≤ s.indxc col then src
  else if s.indxr col ≠ s.indxc col then swapCols src k (s.indxr col) (s.indxc col)
  else src

/-- `invert_mat`: the inverse of the leading `k * k` matrix, or `none` for a nonzero return. -/
def invertMat (src : GfMatrix) (k : Nat) : Option GfMatrix :=
  (loopOption k (pivotColumn k) ⟨src, fun _ => 0, fun _ => 0, fun _ => 0⟩).map
    fun s => loopDown k (unscramble k s) s.src

/-! ## Inversion of a Vandermonde matrix -/

/-- The coefficients below the leading one of the product of all `x - p_i`, highest last. -/
def vdmCoeffs (p : Nat → Gf) (k : Nat) : Nat → Gf :=
  let c := store (fun _ => 0) (k - 1) (p 0)
  loopFrom 1 k (fun i c =>
    let c := loopFrom (k - 1 - (i - 1)) (k - 1)
      (fun j c => store c j (c j ^^^ gfMul (p i) (c (j + 1)))) c
    store c (k - 1) (c (k - 1) ^^^ p i)) c

/-- Synthetic division by `x - xx`: the quotient and its value at `xx`. -/
def vdmDivide (c : Nat → Gf) (k : Nat) (xx : Gf) : (Nat → Gf) × Gf :=
  loopDown (k - 1) (fun i s =>
    let b := store s.1 i (c (i + 1) ^^^ gfMul xx (s.1 (i + 1)))
    (b, gfMul xx s.2 ^^^ b i)) (store (fun _ => 0) (k - 1) 1, 1)

/-- `invert_vdm`; only the second column of the matrix is read. -/
def invertVdm (src : GfMatrix) (k : Nat) : GfMatrix :=
  if k = 1 then src
  else
    let p := fun i => src i 1
    let c := vdmCoeffs p k
    loop k (fun row src =>
      let (b, t) := vdmDivide c k (p row)
      loop k (fun col src =>
        store src col (store (src col) row (gfMul (gfTables.inverse t) (b col)))) src) src

/-! ## Row operations -/

theorem addmulc_eq (src : Nat → Gf) (c : Gf) (i : Nat) (dst : Nat → Gf) :
    addmulc src c i dst = store dst i ((fun j d => d + c * src j) i (dst i)) := rfl

/-- The unrolled loop and its remainder together visit every entry once. -/
theorem addmul1_eq (dst src : Nat → Gf) (c : Gf) (sz : Nat) :
    addmul1 dst src c sz = fun b => if b < sz then dst b + c * src b else dst b := by
  have hsz : sz / unroll * unroll + (sz - sz / unroll * unroll) = sz :=
    Nat.add_sub_cancel' (Nat.div_mul_le_self sz unroll)
  have hloop : addmul1 dst src c sz = loop sz (addmulc src c) dst := by
    simp only [addmul1, loopFrom]
    rw [loop_blocks, ← loop_add, hsz]
  rw [hloop]
  simp only [funext fun i => funext fun d => addmulc_eq src c i d]
  exact loop_store sz (fun j d => d + c * src j) dst

@[simp] theorem addmul_eq (dst src : Nat → Gf) (c : Gf) (sz : Nat) :
    addmul dst src c sz = fun b => if b < sz then dst b + c * src b else dst b := by
  by_cases hc : c = 0
  · subst c; funext b; simp [addmul]
  · rw [addmul, if_pos hc, addmul1_eq]

theorem matmul_eq (a b c : GfMatrix) (n k m : Nat) :
    matmul a b c n k m = fun i j =>
      if i < n ∧ j < m then ∑ l ∈ Finset.range k, a i l * b l j else c i j := by
  have hacc : ∀ i j, loop k (fun l acc => acc ^^^ gfMul (a i l) (b l j)) 0 =
      ∑ l ∈ Finset.range k, a i l * b l j := by
    intro i j
    exact (loop_sum k (fun l => a i l * b l j) 0).trans (zero_add _)
  rw [matmul]
  simp only [hacc]
  exact loop_store_table n m (fun i j => ∑ l ∈ Finset.range k, a i l * b l j) c

/-- The leading square block as a matrix of the library. -/
def toMatrix (k : Nat) (m : GfMatrix) : Matrix (Fin k) (Fin k) Gf := Matrix.of fun i j => m i j

@[simp] theorem toMatrix_apply (k : Nat) (m : GfMatrix) (i j : Fin k) :
    toMatrix k m i j = m i j := rfl

theorem swapRows_eq (src : GfMatrix) (k : Nat) {irow icol : Nat} (h : irow ≠ icol) :
    swapRows src k irow icol = fun i j =>
      if j < k then if i = irow then src icol j else if i = icol then src irow j else src i j
      else src i j := by
  induction k with
  | zero => rfl
  | succ k ih =>
    rw [swapRows, loop_succ, ← swapRows, ih]
    funext i j
    by_cases hj : j = k
    · subst j
      by_cases hr : i = irow
      · subst i; simp [store, h]
      · by_cases hc : i = icol <;> simp [store, hr, hc, h.symm]
    · have hlt : j < k + 1 ↔ j < k := by omega
      by_cases hr : i = irow
      · subst i; simp [store, hj, hlt, h]
      · by_cases hc : i = icol
        · subst i; simp [store, hj, hlt, hr]
        · simp [store, hr, hc, hlt]

theorem swapCols_eq (src : GfMatrix) (k : Nat) {c₁ c₂ : Nat} (h : c₁ ≠ c₂) :
    swapCols src k c₁ c₂ = fun i j =>
      if i < k then if j = c₁ then src i c₂ else if j = c₂ then src i c₁ else src i j
      else src i j := by
  induction k with
  | zero => rfl
  | succ k ih =>
    rw [swapCols, loop_succ, ← swapCols, ih]
    funext i j
    by_cases hi : i = k
    · subst i
      by_cases h1 : j = c₁
      · subst j; simp [store, h]
      · by_cases h2 : j = c₂ <;> simp [store, h1, h2, h.symm]
    · have hlt : i < k + 1 ↔ i < k := by omega
      simp [store, hi, hlt]

theorem toMatrix_swapRows (src : GfMatrix) {k irow icol : Nat} (hr : irow < k) (hc : icol < k) :
    toMatrix k (if irow ≠ icol then swapRows src k irow icol else src) =
      PivotExchange.swapRows ⟨irow, hr⟩ ⟨icol, hc⟩ (toMatrix k src) := by
  ext i j
  by_cases h : irow = icol
  · subst icol; simp [PivotExchange.swapRows]
  · simp only [ne_eq, h, not_false_eq_true, if_true, swapRows_eq src k h, toMatrix_apply, j.isLt,
      PivotExchange.swapRows, Matrix.submatrix_apply, id, Equiv.swap_apply_def, Fin.ext_iff]
    split_ifs <;> rfl

theorem toMatrix_swapCols (src : GfMatrix) {k c₁ c₂ : Nat} (h₁ : c₁ < k) (h₂ : c₂ < k) :
    toMatrix k (if c₁ ≠ c₂ then swapCols src k c₁ c₂ else src) =
      PivotExchange.swapCols ⟨c₁, h₁⟩ ⟨c₂, h₂⟩ (toMatrix k src) := by
  ext i j
  by_cases h : c₁ = c₂
  · subst c₂; simp [PivotExchange.swapCols]
  · simp only [ne_eq, h, not_false_eq_true, if_true, swapCols_eq src k h, toMatrix_apply, i.isLt,
      PivotExchange.swapCols, Matrix.submatrix_apply, id, Equiv.swap_apply_def, Fin.ext_iff]
    split_ifs <;> rfl

theorem normalizeRow_eq (p : Nat → Gf) {k icol : Nat} (hc : icol < k) (c : Gf) :
    ∀ j < k, normalizeRow p k icol c j = if j = icol then c⁻¹ else c⁻¹ * p j := by
  intro j hj
  rw [normalizeRow, loop_store k (fun _ d => gfMul (gfTables.inverse c) d)]
  by_cases h : j = icol <;> simp [h, hj, hc, store]

theorem eliminate_eq (src : GfMatrix) (k icol : Nat) :
    eliminate src k icol = fun i j =>
      if i < k ∧ i ≠ icol then
        (if j = icol then 0 else src i j) + (if j < k then src i icol * src icol j else 0)
      else src i j := by
  have hstep : ∀ n ≤ k, loop n (fun ix src =>
      if ix ≠ icol then store src ix (addmul (store (src ix) icol 0) (src icol) (src ix icol) k)
      else src) src = fun i j =>
      if i < n ∧ i ≠ icol then
        (if j = icol then 0 else src i j) + (if j < k then src i icol * src icol j else 0)
      else src i j := by
    intro n hn
    induction n with
    | zero => simp
    | succ n ih =>
      rw [loop_succ, ih (by omega)]
      funext i j
      by_cases hi : i = n
      · subst i
        by_cases hc : n = icol
        · subst n; simp
        · simp only [ne_eq, hc, not_false_eq_true, if_true, store_same, addmul_eq]
          by_cases hj : j < k <;> by_cases hjc : j = icol <;> simp [store, hj, hjc]
      · have hlt : i < n + 1 ↔ i < n := by omega
        simp only [hlt]
        by_cases hc : n = icol <;> simp [store, hi, hc]
  exact hstep k le_rfl

/-! ## The pivot step and the whole inversion -/

theorem differs_eq_false {p q : Nat → Gf} {k : Nat} (h : differs p q k = false) :
    ∀ j < k, p j = q j := by
  simpa [differs] using h

/-- Normalizing the pivot row and eliminating its column is the exchange step of the
library. Skipping the elimination when the pivot row is a unit vector is sound because
subtraction is addition: the finished column would be its own negative. -/
theorem toMatrix_pivot (src : GfMatrix) {k icol : Nat} (hc : icol < k) :
    let c := src icol icol
    let src₁ := if c ≠ 1 then store src icol (normalizeRow (src icol) k icol c) else src
    toMatrix k (if differs (src₁ icol) (store (fun _ => 0) icol 1) k then eliminate src₁ k icol
      else src₁) = PivotExchange.pivot ⟨icol, hc⟩ (toMatrix k src) := by
  intro c src₁
  have hrow : ∀ j < k, src₁ icol j = if j = icol then c⁻¹ else c⁻¹ * src icol j := by
    intro j hj
    by_cases h1 : c = 1
    · by_cases he : j = icol
      · subst j; simp [src₁, h1]; exact h1
      · simp [src₁, h1, he]
    · simp only [src₁, ne_eq, h1, not_false_eq_true, if_true, store_same]
      exact normalizeRow_eq (src icol) hc c j hj
  have hother : ∀ i, i ≠ icol → src₁ i = src i := by
    intro i hi
    by_cases h1 : c = 1
    · simp [src₁, h1]
    · simp [src₁, h1, store_other _ _ hi]
  ext i j
  simp only [PivotExchange.pivot, Matrix.of_apply, toMatrix_apply, Fin.ext_iff]
  by_cases hi : (i : Nat) = icol
  · have hkeep : (if differs (src₁ icol) (store (fun _ => 0) icol 1) k then eliminate src₁ k icol
        else src₁) icol = src₁ icol := by
      split
      · rw [eliminate_eq]; simp
      · rfl
    rw [hi, hkeep, hrow j j.isLt]
    simp [c]
  · rw [if_neg hi]
    by_cases hd : differs (src₁ icol) (store (fun _ => 0) icol 1) k = true
    · rw [if_pos hd, eliminate_eq]
      simp only [i.isLt, ne_eq, hi, not_false_eq_true, and_self, if_true, j.isLt, hother i hi,
        hrow j j.isLt]
      by_cases hj : (j : Nat) = icol
      · simp [hj, c]
      · simp [hj, c]
    · rw [if_neg hd, hother i hi]
      have hunit := differs_eq_false (by simpa using hd) j j.isLt
      rw [hrow j j.isLt] at hunit
      by_cases hj : (j : Nat) = icol
      · rw [if_pos hj, hj, store_same] at hunit
        have hcone : (src icol icol)⁻¹ = 1 := hunit
        simp [hj, hcone]
      · rw [if_neg hj, store_other _ _ hj] at hunit
        have hzero : c⁻¹ * src icol j = 0 := hunit
        simp only [hj, if_false]
        rw [show (src icol icol)⁻¹ * src icol j = 0 from hzero, mul_zero, sub_zero]

/-- What a successful or an exhausted search of one row says about it. -/
theorem searchCols_spec (s : Inversion) (row : Nat) (cols : List Nat)
    (hpiv : ∀ ix ∈ cols, s.ipiv ix ≤ 1) :
    (searchCols s row cols = .exhausted ∧ ∀ ix ∈ cols, s.ipiv ix = 0 → s.src row ix = 0) ∨
      ∃ icol ∈ cols, searchCols s row cols = .found row icol ∧
        s.ipiv icol = 0 ∧ s.src row icol ≠ 0 := by
  induction cols with
  | nil => exact .inl ⟨rfl, by simp⟩
  | cons ix rest ih =>
    have hix := hpiv ix (by simp)
    have ih' := ih fun j hj => hpiv j (by simp [hj])
    rw [searchCols]
    by_cases h0 : s.ipiv ix = 0
    · rw [if_pos h0]
      by_cases hs : s.src row ix ≠ 0
      · exact .inr ⟨ix, by simp, by rw [if_pos hs], h0, hs⟩
      · rw [if_neg hs]
        rcases ih' with ⟨he, hz⟩ | ⟨icol, hmem, hf⟩
        · refine .inl ⟨he, ?_⟩
          intro j hj hj0
          rcases List.mem_cons.mp hj with rfl | hj
          · exact not_not.mp hs
          · exact hz j hj hj0
        · exact .inr ⟨icol, by simp [hmem], hf⟩
    · rw [if_neg h0, if_neg (by omega)]
      rcases ih' with ⟨he, hz⟩ | ⟨icol, hmem, hf⟩
      · refine .inl ⟨he, ?_⟩
        intro j hj hj0
        rcases List.mem_cons.mp hj with rfl | hj
        · exact absurd hj0 h0
        · exact hz j hj hj0
      · exact .inr ⟨icol, by simp [hmem], hf⟩

theorem searchRows_spec (s : Inversion) (k : Nat) (rows : List Nat)
    (hpiv : ∀ ix < k, s.ipiv ix ≤ 1)
    (hex : ∃ row ∈ rows, s.ipiv row ≠ 1 ∧ ∃ ix < k, s.ipiv ix = 0 ∧ s.src row ix ≠ 0) :
    ∃ irow ∈ rows, ∃ icol < k, searchRows s k rows = .found irow icol ∧
      s.ipiv irow ≠ 1 ∧ s.ipiv icol = 0 ∧ s.src irow icol ≠ 0 := by
  induction rows with
  | nil => obtain ⟨row, hmem, -⟩ := hex; simp at hmem
  | cons row rest ih =>
    have hcols := searchCols_spec s row (List.range k) (by simpa using hpiv)
    rw [searchRows]
    by_cases h1 : s.ipiv row ≠ 1
    · rw [if_pos h1]
      rcases hcols with ⟨he, hz⟩ | ⟨icol, hmem, hf, h0, hs⟩
      · rw [he]
        have hrest : ∃ r ∈ rest, s.ipiv r ≠ 1 ∧ ∃ ix < k, s.ipiv ix = 0 ∧ s.src r ix ≠ 0 := by
          obtain ⟨r, hr, hr1, ix, hix, hi0, hne⟩ := hex
          rcases List.mem_cons.mp hr with rfl | hr
          · exact absurd (hz ix (by simpa using hix) hi0) hne
          · exact ⟨r, hr, hr1, ix, hix, hi0, hne⟩
        obtain ⟨irow, hmem, h⟩ := ih hrest
        exact ⟨irow, by simp [hmem], h⟩
      · rw [hf]
        exact ⟨row, by simp, icol, by simpa using hmem, rfl, h1, h0, hs⟩
    · rw [if_neg h1]
      have hrest : ∃ r ∈ rest, s.ipiv r ≠ 1 ∧ ∃ ix < k, s.ipiv ix = 0 ∧ s.src r ix ≠ 0 := by
        obtain ⟨r, hr, hr1, h⟩ := hex
        rcases List.mem_cons.mp hr with rfl | hr
        · exact absurd hr1 h1
        · exact ⟨r, hr, hr1, h⟩
      obtain ⟨irow, hmem, h⟩ := ih hrest
      exact ⟨irow, by simp [hmem], h⟩

/-- While an unused row still has a nonzero entry in an unused column, the search finds one. -/
theorem findPivot_spec (s : Inversion) {k col : Nat} (hcol : col < k)
    (hpiv : ∀ ix < k, s.ipiv ix ≤ 1)
    (hex : ∃ row < k, s.ipiv row ≠ 1 ∧ ∃ ix < k, s.ipiv ix = 0 ∧ s.src row ix ≠ 0) :
    ∃ irow < k, ∃ icol < k, findPivot s k col = .found irow icol ∧
      s.ipiv irow = 0 ∧ s.ipiv icol = 0 ∧ s.src irow icol ≠ 0 := by
  rw [findPivot]
  by_cases hd : s.ipiv col ≠ 1 ∧ s.src col col ≠ 0
  · have h0 : s.ipiv col = 0 := by have := hpiv col hcol; omega
    exact ⟨col, hcol, col, hcol, by rw [if_pos hd], h0, h0, hd.2⟩
  · rw [if_neg hd]
    obtain ⟨irow, hmem, icol, hic, hf, h1, h0, hs⟩ :=
      searchRows_spec s k (List.range k) hpiv (by simpa using hex)
    have hir : irow < k := by simpa using hmem
    have hir0 : s.ipiv irow = 0 := by have := hpiv irow hir; omega
    exact ⟨irow, hir, icol, hic, hf, hir0, h0, hs⟩

/-- The invariant of `invert_mat` after `t` columns. `A j` is the input with the row
exchanges of the first `j` columns applied; `D` are the columns used as pivots. -/
structure Reduced (k : Nat) (A : Nat → Matrix (Fin k) (Fin k) Gf) (t : Nat) (s : Inversion) :
    Prop where
  swaps : ∀ j < t, ∃ (hr : s.indxr j < k) (hc : s.indxc j < k),
    A (j + 1) = PivotExchange.swapRows ⟨s.indxr j, hr⟩ ⟨s.indxc j, hc⟩ (A j)
  exchanged : ∃ D : Finset (Fin k), D.card = t ∧
    (∀ i : Fin k, s.ipiv i = if i ∈ D then 1 else 0) ∧
    PivotExchange.Exchanged (A t) D (toMatrix k s.src)

/-- One column of the main loop succeeds and finishes one more column of the matrix. -/
theorem pivotColumn_reduced {k t : Nat} (ht : t < k) {A : Nat → Matrix (Fin k) (Fin k) Gf}
    {s : Inversion} (hA : IsUnit (A t)) (h : Reduced k A t s) :
    ∃ s' irow icol, ∃ (hr : irow < k) (hc : icol < k), pivotColumn k t s = some s' ∧
      Reduced k (store A (t + 1) (PivotExchange.swapRows ⟨irow, hr⟩ ⟨icol, hc⟩ (A t))) (t + 1) s' := by
  obtain ⟨D, hcard, hpiv, hex⟩ := h.exchanged
  obtain ⟨r, hr⟩ : ∃ r, r ∉ D := by
    by_contra hall
    push Not at hall
    have : D = Finset.univ := Finset.eq_univ_iff_forall.mpr hall
    rw [this, Finset.card_univ, Fintype.card_fin] at hcard
    omega
  obtain ⟨c, hcD, hne⟩ := hex.exists_pivot hA hr
  have hle : ∀ ix < k, s.ipiv ix ≤ 1 := by
    intro ix hix
    rw [show s.ipiv ix = _ from hpiv ⟨ix, hix⟩]
    split <;> omega
  obtain ⟨irow, hir, icol, hic, hfind, hr0, hc0, hs⟩ := findPivot_spec s ht hle
    ⟨r, r.isLt, by rw [hpiv r, if_neg hr]; decide, c, c.isLt, by rw [hpiv c, if_neg hcD], hne⟩
  have hmem : ∀ i : Fin k, s.ipiv i = 0 → i ∉ D := by
    intro i hi hD
    rw [hpiv i, if_pos hD] at hi
    exact absurd hi (by decide)
  let src := if irow ≠ icol then swapRows s.src k irow icol else s.src
  have hsrc : toMatrix k src = PivotExchange.swapRows ⟨irow, hir⟩ ⟨icol, hic⟩ (toMatrix k s.src) :=
    toMatrix_swapRows s.src hir hic
  have hdiag : src icol icol ≠ 0 := by
    have hent := congrFun (congrFun hsrc ⟨icol, hic⟩) ⟨icol, hic⟩
    simp only [toMatrix_apply, PivotExchange.swapRows, Matrix.submatrix_apply,
      Equiv.swap_apply_right, id] at hent
    rw [hent]
    exact hs
  let src₁ := if src icol icol ≠ 1 then
    store src icol (normalizeRow (src icol) k icol (src icol icol)) else src
  let src₂ := if differs (src₁ icol) (store (fun _ => 0) icol 1) k then eliminate src₁ k icol else src₁
  refine ⟨⟨src₂, store s.ipiv icol (s.ipiv icol + 1), store s.indxr t irow, store s.indxc t icol⟩,
    irow, icol, hir, hic, ?_, ?_, ?_⟩
  · simp only [pivotColumn, hfind]
    exact if_neg hdiag
  · intro j hj
    by_cases he : j = t
    · subst j
      refine ⟨by simpa using hir, by simpa using hic, ?_⟩
      rw [store_same, store_other _ _ (by omega)]
      simp only [store_same]
    · obtain ⟨hr', hc', hA'⟩ := h.swaps j (by omega)
      refine ⟨by simpa [store, he] using hr', by simpa [store, he] using hc', ?_⟩
      rw [store_other _ _ (by omega), store_other _ _ (by omega), hA']
      simp only [store, he, if_false]
  · refine ⟨insert ⟨icol, hic⟩ D, ?_, ?_, ?_⟩
    · rw [Finset.card_insert_of_notMem (hmem _ hc0), hcard]
    · intro i
      by_cases he : (i : Nat) = icol
      · have hi : i = ⟨icol, hic⟩ := Fin.ext he
        subst hi
        simp [hc0]
      · have hi : i ≠ ⟨icol, hic⟩ := fun h => he (congrArg Fin.val h)
        simp [store, he, hi, hpiv i]
    · rw [store_same]
      have hpivot : toMatrix k src₂ = PivotExchange.pivot ⟨icol, hic⟩ (toMatrix k src) :=
        toMatrix_pivot src hic
      rw [hpivot, hsrc]
      exact (hex.swap (hmem ⟨irow, hir⟩ hr0) (hmem ⟨icol, hic⟩ hc0)).pivot (hmem _ hc0)
        (by rw [← hsrc]; exact hdiag)

/-- Undoing the exchanges in reverse order leaves the inverse of the input itself. -/
theorem unscramble_inverse {k : Nat} {A : Nat → Matrix (Fin k) (Fin k) Gf} {s : Inversion}
    (h : Reduced k A k s) {src : GfMatrix} (hsrc : toMatrix k src * A k = 1) :
    toMatrix k (loopDown k (unscramble k s) src) * A 0 = 1 := by
  apply loopDown_inv (fun i src => toMatrix k src * A i = 1) k _ src hsrc
  intro i src hi hinv
  obtain ⟨hr, hc, hA⟩ := h.swaps i hi
  rw [hA] at hinv
  rw [unscramble, if_neg (by omega), if_neg (by omega), toMatrix_swapCols src hr hc]
  exact PivotExchange.swapCols_mul_of_mul_swapRows hinv

/-- `invert_mat` inverts every invertible matrix. -/
theorem invertMat_spec (src : GfMatrix) (k : Nat) (hA : IsUnit (toMatrix k src)) :
    ∃ m, invertMat src k = some m ∧ toMatrix k m * toMatrix k src = 1 := by
  have hswap : ∀ (r c : Fin k) (B : Matrix (Fin k) (Fin k) Gf), IsUnit B →
      IsUnit (PivotExchange.swapRows r c B) := by
    intro r c B hB
    rw [PivotExchange.swapRows_eq_mul]
    exact (IsUnit.of_mul_eq_one _ (PivotExchange.swap_mul_swap r c)).mul hB
  obtain ⟨s, hs, A, h0, hunit, hred⟩ := loopOption_inv
    (fun t s => ∃ A : Nat → Matrix (Fin k) (Fin k) Gf,
      A 0 = toMatrix k src ∧ IsUnit (A t) ∧ Reduced k A t s)
    k (pivotColumn k) ⟨src, fun _ => 0, fun _ => 0, fun _ => 0⟩
    ⟨fun _ => toMatrix k src, rfl, hA, by simp, ∅, rfl, by simp, .start _⟩ (by
      rintro t s ht ⟨A, h0, hunit, hred⟩
      obtain ⟨s', irow, icol, hr, hc, hstep, hred'⟩ := pivotColumn_reduced ht hunit hred
      refine ⟨s', hstep, _, ?_, ?_, hred'⟩
      · rw [store_other _ _ (by omega), h0]
      · rw [store_same]
        exact hswap _ _ _ hunit)
  refine ⟨loopDown k (unscramble k s) s.src, by rw [invertMat, hs, Option.map_some], ?_⟩
  obtain ⟨D, hcard, -, hex⟩ := hred.exchanged
  have hD : D = Finset.univ := by
    rw [← Finset.card_eq_iff_eq_univ, hcard, Fintype.card_fin]
  subst hD
  rw [← h0]
  exact unscramble_inverse hred hex.finish

/-! ## The Vandermonde inversion -/

open Polynomial Lagrange Finset

/-- The inner loop of the coefficient computation reads each cell before it is rewritten. -/
theorem shiftAdd_eq (lo hi : Nat) (x : Gf) (c : Nat → Gf) :
    loopFrom lo hi (fun j c => store c j (c j ^^^ gfMul x (c (j + 1)))) c =
      fun j => if lo ≤ j ∧ j < hi then c j + x * c (j + 1) else c j := by
  by_cases hle : lo ≤ hi
  · apply loopFrom_inv (fun n c' => c' = fun j => if lo ≤ j ∧ j < n then c j + x * c (j + 1) else c j)
      lo hi hle
    · funext j
      rw [if_neg (by omega)]
    · rintro n c' hlo hhi rfl
      funext j
      by_cases hj : j = n
      · subst j; simp [hlo]
      · have hlt : j < n + 1 ↔ j < n := by omega
        simp [store, hj, hlt]
  · funext j
    rw [if_neg (by omega), loopFrom, Nat.sub_eq_zero_of_le (by omega), loop_zero]

theorem nodal_coeff_zero {p : Nat → Gf} (h0 : p 0 = 0) {i : Nat} (hi : 0 < i) :
    (nodal (range i) p).coeff 0 = 0 := by
  have h := eval_nodal_at_node (v := p) (mem_range.mpr hi)
  rwa [h0, ← coeff_zero_eq_eval_zero] at h

theorem nodal_coeff_succ (p : Nat → Gf) (i j : Nat) :
    (nodal (range (i + 1)) p).coeff (j + 1) =
      (nodal (range i) p).coeff j + p i * (nodal (range i) p).coeff (j + 1) := by
  have hmul : nodal (range (i + 1)) p = nodal (range i) p * (X - C (p i)) := by
    rw [nodal_eq, prod_range_succ, ← nodal_eq]
  rw [hmul, coeff_mul_X_sub_C, sub_eq, mul_comm]

/-- The coefficient loop never writes the constant coefficient of a partial product; that
is right because the first node of this code is zero. -/
theorem vdmCoeffs_eq {p : Nat → Gf} (h0 : p 0 = 0) {k : Nat} (hk : 0 < k) :
    ∀ j < k, vdmCoeffs p k j = (nodal (range k) p).coeff j := by
  have hinv := loopFrom_inv (fun i (c : Nat → Gf) =>
      (∀ j < i, c (k - i + j) = (nodal (range i) p).coeff j) ∧ ∀ j < k - i, c j = 0) 1 k hk
    (fun i c =>
      let c := loopFrom (k - 1 - (i - 1)) (k - 1)
        (fun j c => store c j (c j ^^^ gfMul (p i) (c (j + 1)))) c
      store c (k - 1) (c (k - 1) ^^^ p i))
    (store (fun _ => 0) (k - 1) (p 0)) (by
      constructor
      · intro j hj
        obtain rfl : j = 0 := by omega
        rw [Nat.add_zero, store_same, nodal_coeff_zero h0 (by decide), h0]
      · intro j hj
        rw [store_other _ _ (by omega)]) (by
      intro i c hlo hhi ⟨hc, hz⟩
      simp only [shiftAdd_eq]
      constructor
      · intro j hj
        cases j with
        | zero =>
          rw [nodal_coeff_zero h0 (by omega), store_other _ _ (by omega), if_neg (by omega)]
          exact hz _ (by omega)
        | succ j =>
          have hidx : k - (i + 1) + (j + 1) = k - i + j := by omega
          rw [hidx, nodal_coeff_succ]
          have hj0 := hc j (by omega)
          by_cases hlast : j + 1 = i
          · have htop : k - i + j = k - 1 := by omega
            have hmonic : (nodal (range i) p).coeff (j + 1) = 1 := by
              have hdeg : (nodal (range i) p).natDegree = j + 1 := by
                rw [natDegree_nodal, card_range, hlast]
              rw [← hdeg]
              exact nodal_monic
            rw [htop] at hj0
            rw [htop, store_same, if_neg (by omega), hj0, hmonic, mul_one, xor_eq_add]
          · have hj1 := hc (j + 1) (by omega)
            rw [store_other _ _ (by omega), if_pos (by omega), hj0, ← hj1]
            rfl
      · intro j hj
        rw [store_other _ _ (by omega), if_neg (by omega)]
        exact hz j (by omega))
  intro j hj
  have h := hinv.1 j hj
  rw [Nat.sub_self, Nat.zero_add] at h
  exact h

/-- Synthetic division computes the quotient by one node's factor and its value there. -/
theorem vdmDivide_eq {p c : Nat → Gf} {k row : Nat} (hrow : row ∈ range k)
    (hc : ∀ j < k, c j = (nodal (range k) p).coeff j) :
    (∀ j < k, (vdmDivide c k (p row)).1 j = (nodal ((range k).erase row) p).coeff j) ∧
      (vdmDivide c k (p row)).2 = eval (p row) (nodal ((range k).erase row) p) := by
  have hk : 0 < k := Nat.zero_lt_of_lt (mem_range.mp hrow)
  let q := nodal ((range k).erase row) p
  have hdeg : q.natDegree < k := by
    rw [VandermondeInverse.quotient_natDegree k p hrow]; omega
  have hlast : q.coeff (k - 1) = 1 := VandermondeInverse.quotient_coeff_last k p hrow
  have hinv := loopDown_inv (fun i (s : (Nat → Gf) × Gf) =>
      (∀ j, i ≤ j → j < k → s.1 j = q.coeff j) ∧
        s.2 = ∑ j ∈ range (k - i), q.coeff (i + j) * p row ^ j) (k - 1)
    (fun i s =>
      let b := store s.1 i (c (i + 1) ^^^ gfMul (p row) (s.1 (i + 1)))
      (b, gfMul (p row) s.2 ^^^ b i))
    (store (fun _ => 0) (k - 1) 1, 1) (by
      constructor
      · intro j hlo hhi
        obtain rfl : j = k - 1 := by omega
        rw [hlast]
        exact store_same (fun _ : Nat => (0 : Gf)) (k - 1) 1
      · rw [show k - (k - 1) = 1 by omega, sum_range_one, Nat.add_zero, pow_zero, mul_one, hlast]) (by
      intro i s hi ⟨hb, ht⟩
      have hbi : c (i + 1) + p row * s.1 (i + 1) = q.coeff i := by
        rw [hc (i + 1) (by omega), hb (i + 1) (by omega) (by omega)]
        exact (VandermondeInverse.quotient_coeff_rec k p hrow i).symm
      constructor
      · intro j hlo hhi
        by_cases hj : j = i
        · subst j
          simp only [store_same]
          exact hbi
        · simp only [store_other _ _ hj]
          exact hb j (by omega) hhi
      · simp only [store_same, xor_eq_add, gfMul_eq_mul, hbi, ht]
        rw [show k - i = k - (i + 1) + 1 by omega, sum_range_succ', mul_sum, Nat.add_zero, pow_zero,
          mul_one]
        congr 1
        refine sum_congr rfl fun j _ => ?_
        rw [show i + 1 + j = i + (j + 1) by omega, pow_succ]
        ring)
  constructor
  · intro j hj
    exact hinv.1 j (Nat.zero_le j) hj
  · rw [eval_eq_sum_range' hdeg (p row)]
    have ht := hinv.2
    simp only [Nat.sub_zero, Nat.zero_add] at ht
    exact ht

theorem invertVdm_loop (src : GfMatrix) {k : Nat} (hk : k ≠ 1) :
    invertVdm src k = fun col row =>
      if col < k ∧ row < k then
        (vdmDivide (vdmCoeffs (fun i => src i 1) k) k (src row 1)).2⁻¹ *
          (vdmDivide (vdmCoeffs (fun i => src i 1) k) k (src row 1)).1 col
      else src col row := by
  rw [invertVdm, if_neg hk]
  exact loop_store_columns k k (fun col row =>
    (vdmDivide (vdmCoeffs (fun i => src i 1) k) k (src row 1)).2⁻¹ *
      (vdmDivide (vdmCoeffs (fun i => src i 1) k) k (src row 1)).1 col) src

/-- Only the leading square block is overwritten. -/
theorem invertVdm_below (src : GfMatrix) {k row : Nat} (h : k ≤ row) :
    invertVdm src k row = src row := by
  by_cases hk : k = 1
  · rw [invertVdm, if_pos hk]
  · rw [invertVdm_loop src hk]
    funext col
    exact if_neg (by omega)

/-- `invert_vdm` inverts the Vandermonde matrix of distinct nodes whose first node is zero. -/
theorem invertVdm_eq {src : GfMatrix} {k : Nat} (hk : 0 < k) (h0 : src 0 0 = 1)
    (hp0 : src 0 1 = 0) {row col : Nat} (hr : row < k) (hc : col < k) :
    invertVdm src k col row = VandermondeInverse.weight k (fun i => src i 1) col row := by
  by_cases hk1 : k = 1
  · subst k
    obtain rfl : row = 0 := by omega
    obtain rfl : col = 0 := by omega
    simp [invertVdm, VandermondeInverse.weight, h0]
  · have hdiv := vdmDivide_eq (p := fun i => src i 1) (mem_range.mpr hr)
      (vdmCoeffs_eq (p := fun i => src i 1) hp0 hk)
    rw [invertVdm_loop src hk1]
    dsimp only
    rw [if_pos ⟨hc, hr⟩, hdiv.1 col hc, hdiv.2]
    rfl

end FecMatrix
