import TransportDemo.FecMatrix

/-!
# The erasure code: `fec_new`, `fec_encode` and `fec_decode`

The encoding matrix is a Vandermonde matrix made systematic. Packets are
buffers named by a slot number, because `fec_decode` receives pointers and
stores the recovered packets through them; the contents of all slots are one
function from slot and offset.
-/

namespace FecCode

open CountedLoop FecField FecMatrix

/-- `struct fec_parms`, without the `magic` that only `fec_free` reads. -/
structure FecParms where
  k : Nat
  n : Nat
  encMatrix : GfMatrix

/-- `fec_new`'s Vandermonde matrix: the first row is special, the others are powers. -/
def vandermonde (k n : Nat) : GfMatrix :=
  let tmpM : GfMatrix := store (fun _ _ => 0) 0 (store (fun _ => 0) 0 1)
  let tmpM := loopFrom 1 k (fun col m => store m 0 (store (m 0) col 0)) tmpM
  loop (n - 1) (fun row m => loop k (fun col m =>
    store m (row + 1) (store (m (row + 1)) col (gfTables.gfExp (modnn (row * col))))) m) tmpM

/-- The identity that `fec_new` stores in the first `k` rows. -/
def identityRows (k : Nat) : GfMatrix :=
  loop k (fun col m => store m col (store (m col) col 1)) fun _ _ => 0

def fecNew (k n : Nat) : Option FecParms :=
  if gfSize + 1 < k ∨ gfSize + 1 < n ∨ n < k then none
  else
    let tmpM := invertVdm (vandermonde k n) k
    let lower := matmul (fun row => tmpM (k + row)) tmpM (fun _ _ => 0) (n - k) k k
    let upper := identityRows k
    some ⟨k, n, fun row => if row < k then upper row else lower (row - k)⟩

/-- `bcopy` and `memcpy` of `sz` bytes. -/
def copyBytes (dst src : Nat → Gf) (sz : Nat) : Nat → Gf := fun b => if b < sz then src b else dst b

/-- `bzero` of `sz` bytes. -/
def zeroBytes (dst : Nat → Gf) (sz : Nat) : Nat → Gf := fun b => if b < sz then 0 else dst b

/-- `fec_encode`: the new contents of the buffer `fec`. -/
def fecEncode (code : FecParms) (src : Nat → Nat → Gf) (fec : Nat → Gf) (index sz : Nat) :
    Nat → Gf :=
  if index < code.k then copyBytes fec (src index) sz
  else if index < code.n then
    let p := code.encMatrix index
    loop code.k (fun i fec => addmul fec (src i) (p i) sz) (zeroBytes fec sz)
  else fec

/-- Entries among the first `k` that are not at their own index. -/
def misplaced (k : Nat) (index : Nat → Nat) : Finset Nat :=
  (Finset.range k).filter fun j => index j ≠ j

theorem mem_misplaced {k : Nat} {index : Nat → Nat} {j : Nat} :
    j ∈ misplaced k index ↔ j < k ∧ index j ≠ j := by simp [misplaced]

/-- An exchange of `shuffle` puts one more packet in its place. -/
theorem misplaced_exchange {k : Nat} {index : Nat → Nat} {i : Nat} (hk : index i < k)
    (hi : index i ≠ i) (hc : index (index i) ≠ index i) :
    (misplaced k (store (store index i (index (index i))) (index i) (index i))).card <
      (misplaced k index).card := by
  apply Finset.card_lt_card
  refine Finset.ssubset_iff_subset_ne.mpr ⟨?_, ?_⟩
  · intro j hj
    rw [mem_misplaced] at hj ⊢
    refine ⟨hj.1, ?_⟩
    by_cases hji : j = i
    · subst j; exact hi
    · by_cases hjc : j = index i
      · rw [hjc]; exact hc
      · simpa [store, hjc, hji] using hj.2
  · intro heq
    have hmem : index i ∈ misplaced k index := Iff.mpr mem_misplaced ⟨hk, hc⟩
    rw [← heq, mem_misplaced, store_same] at hmem
    exact hmem.2 rfl

/-- `shuffle`, from position `i` on; the first component is the return code. -/
def shuffleFrom (k : Nat) (pkt index : Nat → Nat) (i : Nat) : Nat × (Nat → Nat) × (Nat → Nat) :=
  if i < k then
    if k ≤ index i ∨ index i = i then shuffleFrom k pkt index (i + 1)
    else if index (index i) = index i then (1, pkt, index)
    else
      let c := index i
      shuffleFrom k (store (store pkt i (pkt c)) c (pkt i))
        (store (store index i (index c)) c (index i)) i
  else (0, pkt, index)
termination_by (k - i, (misplaced k index).card)
decreasing_by
  · exact Prod.Lex.left _ _ (by omega)
  · rename_i hne hconf
    push Not at hne
    exact Prod.Lex.right _ (misplaced_exchange hne.1 hne.2 hconf)

def shuffle (k : Nat) (pkt index : Nat → Nat) : Nat × (Nat → Nat) × (Nat → Nat) :=
  shuffleFrom k pkt index 0

/-- `build_decode_matrix`: a unit row for a source packet, the row of the code otherwise,
all inverted; `none` is a null pointer. -/
def buildDecodeMatrix (code : FecParms) (index : Nat → Nat) : Option GfMatrix :=
  (loopOption code.k (fun i (m : GfMatrix) =>
    if index i < code.k then some (store m i (store (fun _ => 0) i 1))
    else if index i < code.n then some (store m i (copyBytes (m i) (code.encMatrix (index i)) code.k))
    else none) fun _ _ => 0).bind fun m => invertMat m code.k

/-- What `fec_decode` leaves behind: its return code, the buffers and the two arrays. -/
structure Decoded where
  ret : Nat
  mem : Nat → Nat → Gf
  pkt : Nat → Nat
  index : Nat → Nat

/-- One new packet: a combination of the received ones. -/
def newPkt (k : Nat) (mem : Nat → Nat → Gf) (pkt : Nat → Nat) (coeffs : Nat → Gf) (sz : Nat) :
    Nat → Gf :=
  loop k (fun col d => addmul d (mem (pkt col)) (coeffs col) sz) (zeroBytes (fun _ => 0) sz)

/-- `fec_decode`: all new packets are computed before any is moved to its destination. -/
def fecDecode (code : FecParms) (mem : Nat → Nat → Gf) (pkt index : Nat → Nat) (sz : Nat) :
    Decoded :=
  match shuffle code.k pkt index with
  | (0, pkt, index) =>
    match buildDecodeMatrix code index with
    | none => ⟨1, mem, pkt, index⟩
    | some mDec =>
      let fresh := fun row => newPkt code.k mem pkt (mDec row) sz
      let mem := loop code.k (fun row mem =>
        if code.k ≤ index row then
          store mem (pkt row) (copyBytes (mem (pkt row)) (fresh row) sz)
        else mem) mem
      ⟨0, mem, pkt, index⟩
  | (ret, pkt, index) => ⟨ret, mem, pkt, index⟩

/-! ## The encoding matrix -/

/-- The evaluation points: zero, then the powers of alpha. -/
def node : Nat → Gf
  | 0 => 0
  | row + 1 => alpha row

theorem node_injOn : Set.InjOn node (Finset.range 256) := by
  intro i hi j hj h
  simp only [Finset.coe_range, Set.mem_Iio] at hi hj
  cases i with
  | zero => cases j with
    | zero => rfl
    | succ j => exact absurd h.symm (alpha_ne_zero j)
  | succ i => cases j with
    | zero => exact absurd h (alpha_ne_zero i)
    | succ j => rw [alpha_inj (by omega) (by omega) h]

/-- The rows below the first hold the powers of their node. -/
theorem vandermonde_rows (k n : Nat) (a : GfMatrix) :
    loop (n - 1) (fun row m => loop k (fun col m =>
      store m (row + 1) (store (m (row + 1)) col (gfTables.gfExp (modnn (row * col))))) m) a =
    fun i j => if 0 < i ∧ i < n ∧ j < k then node i ^ j else a i j := by
  have hpow : ∀ row col, gfTables.gfExp (modnn (row * col)) = alpha row ^ col := by
    intro row col
    rw [modnn_eq, gfExp_eq (by omega), alpha_mod, alpha_eq_pow, alpha_eq_pow row, pow_mul]
  have hstep : ∀ rows, loop rows (fun row m => loop k (fun col m =>
      store m (row + 1) (store (m (row + 1)) col (gfTables.gfExp (modnn (row * col))))) m) a =
      fun i j => if 0 < i ∧ i < rows + 1 ∧ j < k then node i ^ j else a i j := by
    intro rows
    induction rows with
    | zero => funext i j; rw [if_neg (by omega)]; rfl
    | succ rows ih =>
      rw [loop_succ, ih, loop_store_row]
      funext i j
      by_cases hi : i = rows + 1
      · subst i
        by_cases hj : j < k <;> simp [hj, hpow, node]
      · have hlt : i < rows + 1 + 1 ↔ i < rows + 1 := by omega
        simp [store, hi, hlt]
  rw [hstep]
  funext i j
  by_cases hn : n = 0
  · subst n; rw [if_neg (by omega), if_neg (by omega)]
  · rw [Nat.sub_add_cancel (by omega)]

theorem vandermonde_eq {k n : Nat} (hk : 0 < k) (hkn : k ≤ n) :
    vandermonde k n = fun i j => if i < n ∧ j < k then node i ^ j else 0 := by
  have hfirst : loopFrom 1 k (fun col (m : GfMatrix) => store m 0 (store (m 0) col 0))
      (store (fun _ _ => 0) 0 (store (fun _ => 0) 0 1)) =
      store (fun _ _ => 0) 0 (store (fun _ => 0) 0 1) := by
    apply loopFrom_inv (fun _ m => m = store (fun _ _ => 0) 0 (store (fun _ => 0) 0 1)) 1 k hk _ _ rfl
    rintro col m hlo - rfl
    funext i j
    by_cases hi : i = 0
    · subst i
      by_cases hj : j = col
      · subst j; simp [store, show col ≠ 0 by omega]
      · simp [store, hj]
    · simp [store, hi]
  rw [vandermonde, hfirst, vandermonde_rows]
  funext i j
  by_cases hi : i = 0
  · subst i
    rw [if_neg (by omega), store_same]
    by_cases hj : j = 0
    · subst j; rw [store_same, if_pos ⟨by omega, hk⟩, pow_zero]
    · rw [store_other _ _ hj, node, zero_pow hj]
      split <;> rfl
  · have h : (0 < i ∧ i < n ∧ j < k) ↔ (i < n ∧ j < k) := by omega
    simp only [h, store_other _ _ hi]

/-- The code that `fec_new` builds for valid parameters. -/
structure IsCode (k n : Nat) (code : FecParms) : Prop where
  pos : 0 < k
  le : k ≤ n
  bound : n ≤ 256
  k_eq : code.k = k
  n_eq : code.n = n
  enc : ∀ row < n, ∀ col < k,
    code.encMatrix row col = VandermondeInverse.systematic k node row col

theorem identityRows_eq (k : Nat) :
    identityRows k = fun i j => if i < k ∧ j = i then 1 else 0 := by
  have h := loop_store k (fun i (r : Nat → Gf) => store r i 1) fun _ _ => 0
  rw [identityRows, h]
  funext i j
  by_cases hi : i < k <;> by_cases hj : j = i <;> simp [store, hi, hj]

theorem weight_congr {k : Nat} {p q : Nat → Gf} (h : ∀ i < k, p i = q i) {col row : Nat}
    (hr : row < k) : VandermondeInverse.weight k p col row = VandermondeInverse.weight k q col row := by
  have hnodal : Lagrange.nodal ((Finset.range k).erase row) p =
      Lagrange.nodal ((Finset.range k).erase row) q := by
    simp only [Lagrange.nodal_eq]
    refine Finset.prod_congr rfl fun i hi => ?_
    rw [h i (Finset.mem_range.mp (Finset.mem_of_mem_erase hi))]
  rw [VandermondeInverse.weight, VandermondeInverse.weight, hnodal, h row hr]

/-- `fec_new` succeeds on valid parameters, with the systematic Vandermonde code. -/
theorem fecNew_spec {k n : Nat} (hk : 0 < k) (hkn : k ≤ n) (hn : n ≤ 256) :
    ∃ code, fecNew k n = some code ∧ IsCode k n code := by
  have hguard : ¬(gfSize + 1 < k ∨ gfSize + 1 < n ∨ n < k) := by
    have := gfSize_eq
    omega
  refine ⟨_, by rw [fecNew, if_neg hguard], hk, hkn, hn, rfl, rfl, ?_⟩
  intro row hrow col hcol
  have hinj : Set.InjOn node (Finset.range k) :=
    Set.InjOn.mono (by simpa using (by omega : k ≤ 256)) node_injOn
  by_cases htop : row < k
  · simp only [htop, if_true, identityRows_eq, true_and]
    rw [VandermondeInverse.systematic_top k node hinj htop hcol]
    simp only [eq_comm]
  · have hv := vandermonde_eq hk hkn
    have hsecond : ∀ i < k, vandermonde k n i 1 = node i := by
      intro i hi
      rw [hv]
      by_cases h1 : 1 < k
      · simp [h1, show i < n by omega]
      · obtain rfl : i = 0 := by omega
        simp [h1, node]
    have hinv : ∀ c < k, invertVdm (vandermonde k n) k c col =
        VandermondeInverse.weight k node c col := by
      intro c hc
      rw [invertVdm_eq hk (by rw [hv]; simp [hk, show 0 < n by omega]) (hsecond 0 hk) hcol hc]
      exact weight_congr hsecond hcol
    have hlow : ∀ c < k, invertVdm (vandermonde k n) k row c = node row ^ c := by
      intro c hc
      rw [invertVdm_below _ (by omega), hv]
      exact if_pos ⟨hrow, hc⟩
    simp only [htop, if_false, matmul_eq]
    rw [if_pos ⟨by omega, hcol⟩, VandermondeInverse.systematic]
    refine Finset.sum_congr rfl fun c hc => ?_
    have hc' := Finset.mem_range.mp hc
    rw [show k + (row - k) = row by omega, hlow c hc', hinv c hc']

/-! ## Encoding and decoding -/

/-- Byte `b` of packet `i` of a group whose source packets are `src`. -/
def codeword (code : FecParms) (src : Nat → Nat → Gf) (i b : Nat) : Gf :=
  ∑ l ∈ Finset.range code.k, code.encMatrix i l * src l b

namespace IsCode

variable {k n : Nat} {code : FecParms}

/-- The code is systematic. -/
theorem codeword_source (h : IsCode k n code) (src : Nat → Nat → Gf) {i : Nat} (hi : i < k)
    (b : Nat) : codeword code src i b = src i b := by
  have hinj : Set.InjOn node (Finset.range k) :=
    Set.InjOn.mono (by simpa using h.le.trans h.bound) node_injOn
  rw [codeword, h.k_eq, Finset.sum_eq_single i]
  · rw [h.enc i (hi.trans_le h.le) i hi, VandermondeInverse.systematic_top k node hinj hi hi,
      if_pos rfl, one_mul]
  · intro l hl hne
    have hl' := Finset.mem_range.mp hl
    rw [h.enc i (hi.trans_le h.le) l hl', VandermondeInverse.systematic_top k node hinj hi hl',
      if_neg (Ne.symm hne), zero_mul]
  · intro hnot
    exact absurd (Finset.mem_range.mpr hi) hnot

/-- A byte of a packet depends on the same byte of the source packets only. -/
theorem codeword_congr (h : IsCode k n code) {src src' : Nat → Nat → Gf} {b : Nat}
    (heq : ∀ l < k, src l b = src' l b) (i : Nat) : codeword code src i b = codeword code src' i b := by
  rw [codeword, codeword]
  apply Finset.sum_congr rfl
  intro l hl
  rw [heq l (h.k_eq ▸ Finset.mem_range.mp hl)]

/-- The rows of any `k` distinct packets are independent. -/
theorem rows_isUnit (h : IsCode k n code) (index : Nat → Nat) (hlt : ∀ i < k, index i < n)
    (hinj : Set.InjOn index (Set.Iio k)) :
    IsUnit (toMatrix k fun i => code.encMatrix (index i)) := by
  have heq : toMatrix k (fun i => code.encMatrix (index i)) =
      Matrix.of fun i j : Fin k => VandermondeInverse.systematic k node (index i) j := by
    ext i j
    exact h.enc (index i) (hlt i i.isLt) j j.isLt
  rw [heq]
  apply VandermondeInverse.systematic_isUnit k node
    (Set.InjOn.mono (by simpa using h.le.trans h.bound) node_injOn)
  intro i j hij
  have hb := h.bound
  have hi := hlt i i.isLt
  have hj := hlt j j.isLt
  have hidx : index i = index j := node_injOn (by simp; omega) (by simp; omega) hij
  exact Fin.ext (hinj i.isLt j.isLt hidx)

end IsCode

/-- The buffer after `fec_encode`: the packet in its first `sz` bytes. -/
theorem fecEncode_eq {k n : Nat} {code : FecParms} (h : IsCode k n code)
    (src : Nat → Nat → Gf) (fec : Nat → Gf) {index : Nat} (hi : index < n) (sz : Nat) :
    fecEncode code src fec index sz = copyBytes fec (codeword code src index) sz := by
  by_cases hk : index < code.k
  · rw [fecEncode, if_pos hk]
    have hsrc : codeword code src index = src index := by
      funext b
      exact h.codeword_source src (h.k_eq ▸ hk) b
    rw [hsrc]
  · rw [fecEncode, if_neg hk, if_pos (h.n_eq ▸ hi)]
    have hsum : ∀ m, loop m (fun i fec => addmul fec (src i) (code.encMatrix index i) sz)
        (zeroBytes fec sz) =
        copyBytes fec (fun b => ∑ l ∈ Finset.range m, code.encMatrix index l * src l b) sz := by
      intro m
      induction m with
      | zero => rfl
      | succ m ih =>
        rw [loop_succ, ih, addmul_eq]
        funext b
        by_cases hb : b < sz
        · simp [copyBytes, hb, Finset.sum_range_succ]
        · simp [copyBytes, hb]
    exact hsum code.k

/-- A `shuffle` of packets that already sit at their own index changes nothing. -/
theorem shuffleFrom_placed (k : Nat) (pkt index : Nat → Nat)
    (h : ∀ i < k, k ≤ index i ∨ index i = i) (i : Nat) :
    shuffleFrom k pkt index i = (0, pkt, index) := by
  by_cases hi : i < k
  · rw [shuffleFrom, if_pos hi, if_pos (h i hi)]
    exact shuffleFrom_placed k pkt index h (i + 1)
  · rw [shuffleFrom, if_neg hi]
termination_by k - i

/-- `x` explains byte `b` of the buffers: each holds the packet its index names. -/
def Solves (code : FecParms) (mem : Nat → Nat → Gf) (pkt index : Nat → Nat) (b : Nat)
    (x : Nat → Gf) : Prop :=
  ∀ col < code.k, mem (pkt col) b = ∑ l ∈ Finset.range code.k, code.encMatrix (index col) l * x l

/-- The index array that `Decode` hands over: source packets at their own place, each
other place filled by a different redundant packet. -/
structure Placed (k n : Nat) (index : Nat → Nat) : Prop where
  own : ∀ i < k, index i = i ∨ k ≤ index i
  lt : ∀ i < k, index i < n
  inj : Set.InjOn index (Set.Iio k)

theorem sum_range_eq_mulVec (k : Nat) (m : GfMatrix) (x : Nat → Gf) (i : Fin k) :
    ∑ l ∈ Finset.range k, m i l * x l = (toMatrix k m).mulVec (fun l : Fin k => x l) i := by
  rw [Finset.sum_range]
  rfl

/-- Any `k` distinct packets determine the source bytes. -/
theorem Solves.unique {k n : Nat} {code : FecParms} (h : IsCode k n code)
    {mem : Nat → Nat → Gf} {pkt index : Nat → Nat} (hp : Placed k n index) {b : Nat}
    {x y : Nat → Gf} (hx : Solves code mem pkt index b x) (hy : Solves code mem pkt index b y) :
    ∀ l < k, x l = y l := by
  have hD := h.rows_isUnit index hp.lt hp.inj
  have heq : (toMatrix k fun i => code.encMatrix (index i)).mulVec (fun l : Fin k => x l) =
      (toMatrix k fun i => code.encMatrix (index i)).mulVec (fun l : Fin k => y l) := by
    funext i
    have hxi := hx i (by rw [h.k_eq]; exact i.isLt)
    have hyi := hy i (by rw [h.k_eq]; exact i.isLt)
    rw [h.k_eq] at hxi hyi
    rw [← sum_range_eq_mulVec k (fun i => code.encMatrix (index i)) x i,
      ← sum_range_eq_mulVec k (fun i => code.encMatrix (index i)) y i, ← hxi, ← hyi]
  have hinj := Matrix.mulVec_injective_of_isUnit hD heq
  intro l hl
  exact congrFun hinj ⟨l, hl⟩

/-- Every redundant packet depends on every source packet. -/
theorem IsCode.coeff_ne_zero {k n : Nat} {code : FecParms} (h : IsCode k n code) {j l : Nat}
    (hjk : k ≤ j) (hjn : j < n) (hl : l < k) : code.encMatrix j l ≠ 0 := by
  intro hzero
  let index : Nat → Nat := fun i => if i = l then j else i
  let unit : Nat → Gf := fun i => if i = l then 1 else 0
  have hplaced : Placed k n index := by
    refine ⟨?_, ?_, ?_⟩
    · intro i _
      by_cases hi : i = l <;> simp [index, hi, hjk]
    · intro i hi
      have := h.le
      by_cases he : i = l
      · simpa [index, he] using hjn
      · simp only [index, he, if_false]
        omega
    · intro a ha b hb hab
      simp only [Set.mem_Iio] at ha hb
      by_cases hal : a = l <;> by_cases hbl : b = l <;>
        simp only [index, hal, hbl, if_true, if_false] at hab ⊢
      all_goals omega
  have hsum : ∀ col < k, ∑ i ∈ Finset.range code.k, code.encMatrix (index col) i * unit i = 0 := by
    intro col hcol
    have hword : ∑ i ∈ Finset.range code.k, code.encMatrix (index col) i * unit i =
        code.encMatrix (index col) l := by
      rw [Finset.sum_eq_single l]
      · simp [unit]
      · intro i _ hne
        simp [unit, hne]
      · intro hnot
        exact absurd (Finset.mem_range.mpr (h.k_eq ▸ hl)) hnot
    by_cases hc : col = l
    · rw [hword, show index col = j by simp [index, hc], hzero]
    · have hsource := h.codeword_source (fun i _ => unit i) hcol 0
      rw [codeword] at hsource
      rw [show index col = col by simp [index, hc], hsource]
      simp [unit, hc]
  have hone : Solves code (fun _ _ => 0) index index 0 unit := by
    intro col hcol
    exact (hsum col (h.k_eq ▸ hcol)).symm
  have hnull : Solves code (fun _ _ => 0) index index 0 fun _ => 0 := by
    intro col _
    simp
  have heq := hone.unique h hplaced hnull l hl
  simp [unit] at heq

theorem newPkt_eq (k : Nat) (mem : Nat → Nat → Gf) (pkt : Nat → Nat) (coeffs : Nat → Gf)
    {sz b : Nat} (hb : b < sz) :
    newPkt k mem pkt coeffs sz b = ∑ col ∈ Finset.range k, coeffs col * mem (pkt col) b := by
  rw [newPkt]
  induction k with
  | zero => simp [zeroBytes]
  | succ k ih =>
    rw [loop_succ, addmul_eq, Finset.sum_range_succ, ← ih]
    exact if_pos hb

/-- `build_decode_matrix` returns the inverse of the rows its index array names. -/
theorem buildDecodeMatrix_spec {k n : Nat} {code : FecParms} (h : IsCode k n code)
    {index : Nat → Nat} (hp : Placed k n index) :
    ∃ m, buildDecodeMatrix code index = some m ∧
      toMatrix k m * toMatrix k (fun i => code.encMatrix (index i)) = 1 := by
  have hinj : Set.InjOn node (Finset.range k) :=
    Set.InjOn.mono (by simpa using h.le.trans h.bound) node_injOn
  obtain ⟨rows, hrows, hinv⟩ := loopOption_inv
    (fun t (m : GfMatrix) => ∀ i < t, ∀ j < k, m i j = code.encMatrix (index i) j) code.k
    (fun i (m : GfMatrix) =>
      if index i < code.k then some (store m i (store (fun _ => 0) i 1))
      else if index i < code.n then
        some (store m i (copyBytes (m i) (code.encMatrix (index i)) code.k))
      else none) (fun _ _ => 0) (by intros; omega) (by
      intro t m ht hm
      rw [h.k_eq] at ht ⊢
      have hother : ∀ (r : Nat → Gf), ∀ i < t + 1, i ≠ t → ∀ j < k,
          store m t r i j = code.encMatrix (index i) j := by
        intro r i hi hne j hj
        rw [store_other _ _ hne]
        exact hm i (by omega) j hj
      by_cases hown : index t < k
      · have ht' : index t = t := (hp.own t ht).resolve_right (by omega)
        refine ⟨_, if_pos hown, ?_⟩
        intro i hi j hj
        by_cases he : i = t
        · subst i
          rw [store_same, ht', h.enc t (ht' ▸ hp.lt t ht) j hj,
            VandermondeInverse.systematic_top k node hinj ht hj]
          simp only [store, eq_comm]
        · exact hother _ i hi he j hj
      · refine ⟨_, by rw [if_neg hown, if_pos (h.n_eq ▸ hp.lt t ht)], ?_⟩
        intro i hi j hj
        by_cases he : i = t
        · subst i; rw [store_same, copyBytes, if_pos hj]
        · exact hother _ i hi he j hj)
  have heq : toMatrix k rows = toMatrix k fun i => code.encMatrix (index i) := by
    ext i j
    exact hinv i (by rw [h.k_eq]; exact i.isLt) j j.isLt
  obtain ⟨m, hm, hone⟩ := invertMat_spec rows k (heq ▸ h.rows_isUnit index hp.lt hp.inj)
  refine ⟨m, ?_, heq ▸ hone⟩
  rw [buildDecodeMatrix, hrows, Option.bind_some, h.k_eq, hm]

/-- `fec_decode` replaces the redundant packets it was given by the source packets that
explain all buffers, and touches nothing else. -/
theorem fecDecode_spec {k n : Nat} {code : FecParms} (h : IsCode k n code)
    (mem : Nat → Nat → Gf) {pkt index : Nat → Nat} (hp : Placed k n index)
    (hpkt : Set.InjOn pkt (Set.Iio k)) (sz : Nat) :
    ∃ (x : Nat → Nat → Gf) (mem' : Nat → Nat → Gf),
      fecDecode code mem pkt index sz = ⟨0, mem', pkt, index⟩ ∧
      (∀ b, Solves code mem pkt index b (x b)) ∧
      (∀ row < k, k ≤ index row → ∀ b < sz, mem' (pkt row) b = x b row) ∧
      ∀ slot b, (b < sz → ∀ row < k, k ≤ index row → pkt row ≠ slot) → mem' slot b = mem slot b := by
  obtain ⟨m, hm, hone⟩ := buildDecodeMatrix_spec h hp
  have hshuffle : shuffle code.k pkt index = (0, pkt, index) := by
    apply shuffleFrom_placed
    intro i hi
    rw [h.k_eq] at hi ⊢
    exact (hp.own i hi).symm
  let x : Nat → Nat → Gf := fun b row => ∑ col ∈ Finset.range k, m row col * mem (pkt col) b
  let mem' := loop code.k (fun row mem' =>
    if code.k ≤ index row then
      store mem' (pkt row) (copyBytes (mem' (pkt row)) (newPkt code.k mem pkt (m row) sz) sz)
    else mem') mem
  refine ⟨x, mem', ?_, ?_, ?_⟩
  · simp only [fecDecode, hshuffle, hm]
    rfl
  · intro b col hcol
    rw [h.k_eq] at hcol ⊢
    have hright := mul_eq_one_comm.mp hone
    have hmul : (toMatrix k fun i => code.encMatrix (index i)).mulVec
        ((toMatrix k m).mulVec fun c : Fin k => mem (pkt c) b) = fun c : Fin k => mem (pkt c) b := by
      rw [Matrix.mulVec_mulVec, hright, Matrix.one_mulVec]
    have hcol' := congrFun hmul ⟨col, hcol⟩
    have hx : (fun l : Fin k => x b l) = (toMatrix k m).mulVec fun c : Fin k => mem (pkt c) b := by
      funext l
      exact sum_range_eq_mulVec k m (fun c => mem (pkt c) b) l
    rw [← hx, ← sum_range_eq_mulVec k (fun i => code.encMatrix (index i)) (x b) ⟨col, hcol⟩] at hcol'
    exact hcol'.symm
  · have hinv := loop_inv (fun t (mem' : Nat → Nat → Gf) =>
        (∀ row < t, k ≤ index row → ∀ b < sz, mem' (pkt row) b = x b row) ∧
          ∀ slot b, (b < sz → ∀ row < t, k ≤ index row → pkt row ≠ slot) →
            mem' slot b = mem slot b) code.k
      (fun row mem' =>
        if code.k ≤ index row then
          store mem' (pkt row) (copyBytes (mem' (pkt row)) (newPkt code.k mem pkt (m row) sz) sz)
        else mem') mem ⟨by intros; omega, fun _ _ _ => rfl⟩ (by
        intro t mem' ht ⟨hnew, hold⟩
        rw [h.k_eq] at ht
        rw [h.k_eq]
        by_cases hr : k ≤ index t
        · simp only [hr, if_true]
          constructor
          · intro row hrow hir b hb
            by_cases he : row = t
            · subst row
              rw [store_same, copyBytes, if_pos hb, newPkt_eq k mem pkt (m t) hb]
            · have hne : pkt row ≠ pkt t := fun h => he (hpkt (by simp; omega) (by simpa using ht) h)
              rw [store_other _ _ hne]
              exact hnew row (by omega) hir b hb
          · intro slot b hs
            by_cases he : slot = pkt t
            · subst slot
              have hb : ¬b < sz := fun hb => hs hb t (by omega) hr rfl
              rw [store_same, copyBytes, if_neg hb]
              exact hold _ _ fun h => absurd h hb
            · rw [store_other _ _ he]
              exact hold slot b fun hb row hrow => hs hb row (by omega)
        · simp only [hr, if_false]
          constructor
          · intro row hrow hir b hb
            have he : row ≠ t := fun he => hr (he ▸ hir)
            exact hnew row (by omega) hir b hb
          · intro slot b hs
            exact hold slot b fun hb row hrow => hs hb row (by omega))
    constructor
    · intro row hrow
      exact hinv.1 row (by rw [h.k_eq]; exact hrow)
    · intro slot b hs
      exact hinv.2 slot b fun hb row hrow => hs hb row (by rw [h.k_eq] at hrow; exact hrow)

end FecCode
