import Mathlib.Algebra.BigOperators.Group.Finset.Basic
import Mathlib.Algebra.BigOperators.Intervals

/-!
# Counted loops

A `for` loop over consecutive integers is a recursion on the number of turns
already made. The state is arbitrary; an array is a function from indices.
The rules below are the only facts about loops the rest of the development
uses: an invariant rule, fusion of nested blocks, and two closed forms.
-/

namespace CountedLoop

variable {σ ι α : Type*}

/-- `for (i = 0; i < n; i++) s = f(i, s)`. -/
def loop : Nat → (Nat → σ → σ) → σ → σ
  | 0, _, s => s
  | n + 1, f, s => f n (loop n f s)

/-- `for (i = lo; i < hi; i++) s = f(i, s)`. -/
def loopFrom (lo hi : Nat) (f : Nat → σ → σ) (s : σ) : σ :=
  loop (hi - lo) (fun i => f (lo + i)) s

/-- `for (i = n - 1; i >= 0; i--) s = f(i, s)`. -/
def loopDown : Nat → (Nat → σ → σ) → σ → σ
  | 0, _, s => s
  | n + 1, f, s => loopDown n f (f n s)

/-- A loop whose turns may leave by `goto fail`. -/
def loopOption : Nat → (Nat → σ → Option σ) → σ → Option σ
  | 0, _, s => some s
  | n + 1, f, s => (loopOption n f s).bind (f n)

@[simp] theorem loop_zero (f : Nat → σ → σ) (s : σ) : loop 0 f s = s := rfl
@[simp] theorem loop_succ (n : Nat) (f : Nat → σ → σ) (s : σ) :
    loop (n + 1) f s = f n (loop n f s) := rfl
@[simp] theorem loopDown_zero (f : Nat → σ → σ) (s : σ) : loopDown 0 f s = s := rfl
@[simp] theorem loopDown_succ (n : Nat) (f : Nat → σ → σ) (s : σ) :
    loopDown (n + 1) f s = loopDown n f (f n s) := rfl

/-- What holds before the loop and is kept by every turn holds after it. -/
theorem loop_inv (P : Nat → σ → Prop) (n : Nat) (f : Nat → σ → σ) (s : σ) (h₀ : P 0 s)
    (hs : ∀ i s, i < n → P i s → P (i + 1) (f i s)) : P n (loop n f s) := by
  induction n with
  | zero => exact h₀
  | succ n ih =>
    have hn : P n (loop n f s) := ih fun i s hi hp => hs i s (by omega) hp
    exact hs n _ (by omega) hn

theorem loopFrom_inv (P : Nat → σ → Prop) (lo hi : Nat) (hle : lo ≤ hi) (f : Nat → σ → σ)
    (s : σ) (h₀ : P lo s) (hs : ∀ i s, lo ≤ i → i < hi → P i s → P (i + 1) (f i s)) :
    P hi (loopFrom lo hi f s) := by
  have h := loop_inv (fun i s => P (lo + i) s) (hi - lo) (fun i => f (lo + i)) s
    (by simpa using h₀) (by
      intro i s hi' hp
      exact hs (lo + i) s (by omega) (by omega) hp)
  simpa only [loopFrom, Nat.add_sub_cancel' hle] using h

/-- The invariant of a descending loop is indexed by the turns still to make. -/
theorem loopDown_inv (P : Nat → σ → Prop) (n : Nat) (f : Nat → σ → σ) (s : σ) (h₀ : P n s)
    (hs : ∀ i s, i < n → P (i + 1) s → P i (f i s)) : P 0 (loopDown n f s) := by
  induction n generalizing s with
  | zero => exact h₀
  | succ n ih =>
    apply ih
    · exact hs n s (by omega) h₀
    · intro i s hi hp
      exact hs i s (by omega) hp

/-- An invariant under which no turn fails also shows that the loop completes. -/
theorem loopOption_inv (P : Nat → σ → Prop) (n : Nat) (f : Nat → σ → Option σ) (s : σ)
    (h₀ : P 0 s) (hs : ∀ i s, i < n → P i s → ∃ s', f i s = some s' ∧ P (i + 1) s') :
    ∃ s', loopOption n f s = some s' ∧ P n s' := by
  induction n with
  | zero => exact ⟨s, rfl, h₀⟩
  | succ n ih =>
    obtain ⟨t, ht, hp⟩ := ih fun i s hi hp => hs i s (by omega) hp
    obtain ⟨u, hu, hq⟩ := hs n t (by omega) hp
    exact ⟨u, by rw [loopOption, ht, Option.bind_some, hu], hq⟩

theorem loop_add (m n : Nat) (f : Nat → σ → σ) (s : σ) :
    loop (m + n) f s = loop n (fun i => f (m + i)) (loop m f s) := by
  induction n with
  | zero => rfl
  | succ n ih => simp only [loop_succ, ← Nat.add_assoc, ih]

/-- An unrolled loop: `q` blocks of `w` turns are `q * w` turns. -/
theorem loop_blocks (q w : Nat) (f : Nat → σ → σ) (s : σ) :
    loop q (fun a => loop w (fun r => f (a * w + r))) s = loop (q * w) f s := by
  induction q with
  | zero => simp
  | succ q ih => rw [loop_succ, ih, Nat.succ_mul, loop_add]

/-- Store one array cell. -/
def store [DecidableEq ι] (a : ι → α) (i : ι) (v : α) : ι → α := fun j => if j = i then v else a j

@[simp] theorem store_same [DecidableEq ι] (a : ι → α) (i : ι) (v : α) : store a i v i = v := by
  simp [store]

theorem store_other [DecidableEq ι] (a : ι → α) {i j : ι} (v : α) (h : j ≠ i) :
    store a i v j = a j := by simp [store, h]

/-- A loop that rewrites each cell from its old value alone is a map over the
cells it visits. -/
theorem loop_store (n : Nat) (g : Nat → α → α) (a : Nat → α) :
    loop n (fun i a => store a i (g i (a i))) a = fun j => if j < n then g j (a j) else a j := by
  induction n with
  | zero => simp
  | succ n ih =>
    rw [loop_succ, ih]
    funext j
    by_cases hj : j = n
    · subst j; simp [store]
    · have hlt : j < n + 1 ↔ j < n := by omega
      simp [store, hj, hlt]

/-- A loop that writes the entries of one row. -/
theorem loop_store_row (i m : Nat) (g : Nat → α) (a : Nat → Nat → α) :
    loop m (fun j a => store a i (store (a i) j (g j))) a =
      store a i fun j => if j < m then g j else a i j := by
  induction m with
  | zero => funext r j; by_cases hr : r = i <;> simp [store, hr]
  | succ m ih =>
    rw [loop_succ, ih]
    funext r j
    by_cases hr : r = i
    · subst r
      by_cases hj : j = m
      · subst j; simp
      · have hlt : j < m + 1 ↔ j < m := by omega
        simp [store, hj, hlt]
    · simp [store, hr]

/-- Two nested loops that write every entry of an `n` by `m` table once. -/
theorem loop_store_table (n m : Nat) (g : Nat → Nat → α) (a : Nat → Nat → α) :
    loop n (fun i a => loop m (fun j a => store a i (store (a i) j (g i j))) a) a =
      fun i j => if i < n ∧ j < m then g i j else a i j := by
  simp only [loop_store_row]
  rw [loop_store n (fun i r j => if j < m then g i j else r j) a]
  funext i j
  by_cases hi : i < n <;> by_cases hj : j < m <;> simp [hi, hj]

/-- The same table written column by column. -/
theorem loop_store_columns (n m : Nat) (g : Nat → Nat → α) (a : Nat → Nat → α) :
    loop n (fun j a => loop m (fun i a => store a i (store (a i) j (g i j))) a) a =
      fun i j => if i < m ∧ j < n then g i j else a i j := by
  induction n with
  | zero => simp
  | succ n ih =>
    rw [loop_succ, ih, loop_store m (fun i r => store r n (g i n))]
    funext i j
    by_cases hi : i < m
    · by_cases hj : j = n
      · subst j; simp [hi]
      · have hlt : j < n + 1 ↔ j < n := by omega
        simp [store, hi, hj, hlt]
    · simp [hi]

/-- An accumulator loop is a finite sum. -/
theorem loop_sum [AddCommMonoid α] (n : Nat) (g : Nat → α) (a : α) :
    loop n (fun i acc => acc + g i) a = a + ∑ i ∈ Finset.range n, g i := by
  induction n with
  | zero => simp
  | succ n ih => rw [loop_succ, ih, Finset.sum_range_succ, add_assoc]

end CountedLoop
