import Mathlib
import TransportDemo.CountedLoop

/-!
# The arithmetic of GF(256) by tables

`generate_gf` fills the exponent, logarithm and inverse tables from the
primitive polynomial 1+x^2+x^3+x^4+x^8, and `init_mul_table` the product table.
The tables are computed here by the loops of the source, and the product and
inverse tables are shown to make the 256 bytes a field whose sum is exclusive or.
-/

namespace FecField

open CountedLoop

/-- `typedef unsigned char gf`. -/
def Gf : Type := UInt8

namespace Gf

instance : DecidableEq Gf := inferInstanceAs (DecidableEq UInt8)
instance : Repr Gf := inferInstanceAs (Repr UInt8)
instance : XorOp Gf := inferInstanceAs (XorOp UInt8)
instance : LE Gf := inferInstanceAs (LE UInt8)
instance : DecidableLE Gf := inferInstanceAs (DecidableLE UInt8)
instance : Zero Gf := ⟨(0 : UInt8)⟩
instance : One Gf := ⟨(1 : UInt8)⟩
instance : Inhabited Gf := ⟨0⟩

def ofNat (n : Nat) : Gf := UInt8.ofNat n
def toNat (a : Gf) : Nat := UInt8.toNat a

/-- `a << 1`, stored back into a byte. -/
def shl (a : Gf) : Gf := UInt8.shiftLeft a 1

theorem toNat_lt (a : Gf) : a.toNat < 256 := UInt8.toNat_lt a
theorem toNat_inj {a b : Gf} (h : a.toNat = b.toNat) : a = b := UInt8.toNat_inj.mp h
@[simp] theorem ofNat_toNat (a : Gf) : ofNat a.toNat = a := UInt8.ofNat_toNat
theorem toNat_ofNat {n : Nat} (h : n < 256) : (ofNat n).toNat = n :=
  UInt8.toNat_ofNat_of_lt' h

theorem xor_assoc (a b c : Gf) : a ^^^ b ^^^ c = a ^^^ (b ^^^ c)  :=
  UInt8.xor_assoc a b c
theorem xor_comm (a b : Gf) : a ^^^ b = b ^^^ a := UInt8.xor_comm _ _
@[simp] theorem xor_zero (a : Gf) : a ^^^ 0 = a := UInt8.xor_zero
@[simp] theorem zero_xor (a : Gf) : 0 ^^^ a = a := UInt8.zero_xor
@[simp] theorem xor_self (a : Gf) : a ^^^ a = 0 := UInt8.xor_self

end Gf

def gfBits : Nat := 8
/-- `GF_SIZE`, the number of powers of alpha. -/
def gfSize : Nat := 2 ^ gfBits - 1

theorem gfSize_eq : gfSize = 255 := rfl

/-- The entry of `allPp` for eight bits, lowest coefficient first. -/
def pp : List Char := ['1', '0', '1', '1', '1', '0', '0', '0', '1']

/-- `modnn`: the remainder by `GF_SIZE` without a division. -/
def modnn (x : Nat) : Nat :=
  if gfSize ≤ x then
    modnn (((x - gfSize) >>> gfBits) + ((x - gfSize) &&& gfSize))
  else x
termination_by x
decreasing_by
  have h : (x - gfSize) >>> gfBits = (x - gfSize) / 256 := by
    simp [gfBits, Nat.shiftRight_eq_div_pow]
  have h' : (x - gfSize) &&& gfSize = (x - gfSize) % 256 :=
    Nat.and_two_pow_sub_one_eq_mod _ 8
  have hg := gfSize_eq
  omega

theorem modnn_eq (x : Nat) : modnn x = x % 255 := by
  induction x using modnn.induct with
  | case1 x hx ih =>
    rw [modnn, if_pos hx, ih]
    have h : (x - gfSize) >>> gfBits = (x - gfSize) / 256 := by
      simp [gfBits, Nat.shiftRight_eq_div_pow]
    have h' : (x - gfSize) &&& gfSize = (x - gfSize) % 256 :=
      Nat.and_two_pow_sub_one_eq_mod _ 8
    have hg := gfSize_eq
    omega
  | case2 x hx =>
    have hg := gfSize_eq
    rw [modnn, if_neg hx, Nat.mod_eq_of_lt (by omega)]

/-- The static tables of the source; `gf_log` and `inverse` are indexed by a byte. -/
structure GfTables where
  gfExp : Nat → Gf
  gfLog : Gf → Nat
  inverse : Gf → Gf

/-- The first turn of `generate_gf`'s first loop and its log entry: the powers below
the degree are single bits, and the polynomial's bits collect in `gf_exp[GF_BITS]`. -/
def lowPower (i : Nat) (s : GfTables × Gf) : GfTables × Gf :=
  let gfExp := store s.1.gfExp i s.2
  let gfLog := store s.1.gfLog (gfExp i) i
  let gfExp := if pp[i]? = some '1' then store gfExp gfBits (gfExp gfBits ^^^ s.2) else gfExp
  ({ s.1 with gfExp, gfLog }, s.2.shl)

/-- One turn of the second loop: the next power is the last one shifted, reduced by
`gf_exp[GF_BITS]` when the top bit falls out. -/
def highPower (i : Nat) (t : GfTables) : GfTables :=
  let mask := Gf.ofNat (1 <<< (gfBits - 1))
  let gfExp :=
    if mask ≤ t.gfExp (i - 1) then
      store t.gfExp i (t.gfExp gfBits ^^^ (t.gfExp (i - 1) ^^^ mask).shl)
    else store t.gfExp i (t.gfExp (i - 1)).shl
  { t with gfExp, gfLog := store t.gfLog (gfExp i) i }

def lowPowers (t : GfTables) : GfTables :=
  let t := { t with gfExp := store t.gfExp gfBits 0 }
  let t := (loop gfBits lowPower (t, 1)).1
  { t with gfLog := store t.gfLog (t.gfExp gfBits) gfBits }

def highPowers (t : GfTables) : GfTables :=
  let t := loopFrom (gfBits + 1) gfSize highPower t
  { t with gfLog := store t.gfLog 0 gfSize }

/-- The second copy of the powers, for products without `modnn`. -/
def extendExp (t : GfTables) : GfTables :=
  { t with gfExp := loop gfSize (fun i e => store e (i + gfSize) (e i)) t.gfExp }

def fillInverse (t : GfTables) : GfTables :=
  let inverse := store (store t.inverse 0 0) 1 1
  { t with
    inverse := loopFrom 2 (gfSize + 1)
      (fun i inv => store inv (Gf.ofNat i) (t.gfExp (gfSize - t.gfLog (Gf.ofNat i)))) inverse }

def generateGf (t : GfTables) : GfTables :=
  fillInverse (extendExp (highPowers (lowPowers t)))

/-- Static storage starts zeroed. -/
def zeroTables : GfTables := ⟨fun _ => 0, fun _ => 0, fun _ => 0⟩

/-- The tables after `init_fec`. -/
def gfTables : GfTables := generateGf zeroTables

/-- One entry of the table that `init_mul_table` fills. -/
def gfMulTable (x y : Gf) : Gf :=
  if x = 0 ∨ y = 0 then 0 else gfTables.gfExp (modnn (gfTables.gfLog x + gfTables.gfLog y))

/-- The macro `gf_mul(x, y)`. -/
def gfMul (x y : Gf) : Gf := gfMulTable x y

/-! ## The powers of alpha -/

/-- The step of `generate_gf` from one power of alpha to the next. -/
def xtime (a : Gf) : Gf :=
  if Gf.ofNat 128 ≤ a then Gf.ofNat 29 ^^^ (a ^^^ Gf.ofNat 128).shl else a.shl

def alpha (i : Nat) : Gf := xtime^[i] 1

/-- `xtime` on the number of the byte: shift, and subtract the whole polynomial. -/
def xtimeNat (n : Nat) : Nat := (2 * n) ^^^ (285 * (n / 128))

theorem toNat_xtime (a : Gf) : (xtime a).toNat = xtimeNat a.toNat := by
  have h : ∀ n < 256, (xtime (Gf.ofNat n)).toNat = xtimeNat n := by decide +kernel
  simpa using h a.toNat a.toNat_lt

theorem toNat_alpha (i : Nat) : (alpha i).toNat = xtimeNat^[i] 1 := by
  induction i with
  | zero => rfl
  | succ i ih =>
    rw [alpha, Function.iterate_succ_apply', toNat_xtime, Function.iterate_succ_apply', ← ih, alpha]

theorem xtimeNat_xor {m n : Nat} (hm : m < 256) (hn : n < 256) :
    xtimeNat (m ^^^ n) = xtimeNat m ^^^ xtimeNat n := by
  have hdouble : 2 * (m ^^^ n) = 2 * m ^^^ 2 * n := by
    simpa [Nat.shiftLeft_eq, Nat.mul_comm] using Nat.shiftLeft_xor_distrib (a := m) (b := n) (i := 1)
  have htop : (m ^^^ n) / 128 = m / 128 ^^^ n / 128 := Nat.xor_div_two_pow (n := 7)
  have hbit : ∀ a < 2, ∀ b < 2, 285 * (a ^^^ b) = 285 * a ^^^ 285 * b := by decide
  simp only [xtimeNat, hdouble, htop, hbit (m / 128) (by omega) (n / 128) (by omega)]
  ac_rfl

/-- Multiplication by alpha is additive. -/
theorem xtime_xor (a b : Gf) : xtime (a ^^^ b) = xtime a ^^^ xtime b := by
  have hx : ∀ a b : Gf, (a ^^^ b).toNat = a.toNat ^^^ b.toNat := fun a b => UInt8.toNat_xor a b
  apply Gf.toNat_inj
  rw [toNat_xtime, hx, hx, toNat_xtime, toNat_xtime, xtimeNat_xor a.toNat_lt b.toNat_lt]

@[simp] theorem xtime_zero : xtime 0 = 0 := by decide

theorem iterate_xtime_xor (i : Nat) (a b : Gf) :
    xtime^[i] (a ^^^ b) = xtime^[i] a ^^^ xtime^[i] b := by
  induction i generalizing a b with
  | zero => rfl
  | succ i ih => simp only [Function.iterate_succ_apply, xtime_xor, ih]

@[simp] theorem iterate_xtime_zero (i : Nat) : xtime^[i] 0 = 0 :=
  Function.iterate_fixed xtime_zero i

theorem alpha_add (i j : Nat) : alpha (i + j) = xtime^[i] (alpha j) :=
  Function.iterate_add_apply _ _ _ _

/-- The order of alpha: 255, and none of its maximal proper divisors. -/
theorem alpha_order : Function.minimalPeriod xtime 1 = 255 := by
  have hper : Function.IsPeriodicPt xtime 255 1 :=
    Gf.toNat_inj ((toNat_alpha 255).trans (by decide +kernel))
  have hne : ∀ d, xtimeNat^[d] 1 ≠ 1 → ¬ Function.minimalPeriod xtime 1 ∣ d := by
    intro d hd hdvd
    have hp : alpha d = 1 := Function.isPeriodicPt_iff_minimalPeriod_dvd.mpr hdvd
    exact hd (by rw [← toNat_alpha, hp]; rfl)
  have h85 := hne 85 (by decide +kernel)
  have h51 := hne 51 (by decide +kernel)
  have h15 := hne 15 (by decide +kernel)
  have hdvd : Function.minimalPeriod xtime 1 ∣ 255 := hper.minimalPeriod_dvd
  have hdiv : ∀ d ∈ Nat.divisors 255, ¬ d ∣ 85 → ¬ d ∣ 51 → ¬ d ∣ 15 → d = 255 := by
    decide +kernel
  exact hdiv _ (Nat.mem_divisors.mpr ⟨hdvd, by decide⟩) h85 h51 h15

theorem alpha_mod (i : Nat) : alpha (i % 255) = alpha i := by
  have h := Function.iterate_mod_minimalPeriod_eq (f := xtime) (x := 1) (n := i)
  rwa [alpha_order] at h

theorem alpha_add_period (i : Nat) : alpha (i + 255) = alpha i := by
  rw [← alpha_mod, Nat.add_mod_right, alpha_mod]

theorem alpha_inj {i j : Nat} (hi : i < 255) (hj : j < 255) (h : alpha i = alpha j) : i = j := by
  have hinj := Function.iterate_injOn_Iio_minimalPeriod (f := xtime) (x := 1)
  rw [alpha_order] at hinj
  exact hinj hi hj h

theorem alpha_ne_zero (i : Nat) : alpha i ≠ 0 := by
  intro h
  have hz : alpha (254 * i + i) = 0 := by rw [alpha_add, h, iterate_xtime_zero]
  rw [← alpha_mod, show (254 * i + i) % 255 = 0 by omega] at hz
  exact absurd hz (by decide)

/-- Every nonzero byte is a power of alpha. -/
theorem exists_alpha {a : Gf} (ha : a ≠ 0) : ∃ i < 255, alpha i = a := by
  have hsub : (Finset.range 255).image (fun i => (alpha i).toNat) ⊆ (Finset.range 256).erase 0 := by
    intro n hn
    obtain ⟨i, -, rfl⟩ := Finset.mem_image.mp hn
    refine Finset.mem_erase.mpr ⟨fun h => alpha_ne_zero i (Gf.toNat_inj h), ?_⟩
    exact Finset.mem_range.mpr (alpha i).toNat_lt
  have hcard : ((Finset.range 255).image fun i => (alpha i).toNat).card = 255 := by
    rw [Finset.card_image_of_injOn, Finset.card_range]
    intro i hi j hj h
    exact alpha_inj (by simpa using hi) (by simpa using hj) (Gf.toNat_inj h)
  have heq := Finset.eq_of_subset_of_card_le hsub (by simp [hcard])
  have hmem : a.toNat ∈ (Finset.range 256).erase 0 :=
    Finset.mem_erase.mpr ⟨fun h => ha (Gf.toNat_inj h), Finset.mem_range.mpr a.toNat_lt⟩
  rw [← heq] at hmem
  obtain ⟨i, hi, h⟩ := Finset.mem_image.mp hmem
  exact ⟨i, Finset.mem_range.mp hi, Gf.toNat_inj h⟩

/-! ## What the loops leave in the tables -/

/-- The tables hold the powers below `n` and their logarithms. -/
structure Powers (n : Nat) (t : GfTables) : Prop where
  exp : ∀ i < n, t.gfExp i = alpha i
  log : ∀ i < n, t.gfLog (alpha i) = i

/-- Entering one more power keeps the earlier entries, because the powers differ. -/
theorem Powers.next {n : Nat} {t : GfTables} (h : Powers n t) (hn : n < 255) :
    Powers (n + 1) { t with
      gfExp := store t.gfExp n (alpha n), gfLog := store t.gfLog (alpha n) n } := by
  constructor
  · intro i hi
    by_cases he : i = n
    · subst i; simp
    · exact (store_other _ _ he).trans (h.exp i (by omega))
  · intro i hi
    by_cases he : i = n
    · subst i; simp
    · have hne : alpha i ≠ alpha n := fun ha => he (alpha_inj (by omega) hn ha)
      exact (store_other _ _ hne).trans (h.log i (by omega))

theorem lowPowers_powers : Powers 9 (lowPowers zeroTables) := by
  constructor
  · have h : ∀ i < 9, ((lowPowers zeroTables).gfExp i).toNat =
        xtimeNat^[i] 1 := by decide +kernel
    intro i hi
    exact Gf.toNat_inj (by rw [h i hi, toNat_alpha])
  · have h : ∀ i < 9, (lowPowers zeroTables).gfLog
        (Gf.ofNat (xtimeNat^[i] 1)) = i := by decide +kernel
    intro i hi
    simpa only [← toNat_alpha, Gf.ofNat_toNat] using h i hi

theorem highPower_powers {i : Nat} {t : GfTables} (hlo : 9 ≤ i) (hhi : i < 255)
    (h : Powers i t) : Powers (i + 1) (highPower i t) := by
  have hlast : t.gfExp (i - 1) = alpha (i - 1) := h.exp _ (by omega)
  have hpoly : t.gfExp gfBits = Gf.ofNat 29 := (h.exp 8 (by omega)).trans (by decide)
  have hnext : alpha i = xtime (alpha (i - 1)) := by
    conv_lhs => rw [show i = 1 + (i - 1) by omega, alpha_add]
    rfl
  have hexp : (highPower i t).gfExp = store t.gfExp i (alpha i) := by
    have hmask : Gf.ofNat (1 <<< (gfBits - 1)) = Gf.ofNat 128 := rfl
    simp only [highPower, hlast, hpoly, hmask, hnext, xtime]
    split <;> rfl
  have heq : highPower i t =
      { t with gfExp := store t.gfExp i (alpha i), gfLog := store t.gfLog (alpha i) i } := by
    have hlog : (highPower i t).gfLog = store t.gfLog ((highPower i t).gfExp i) i := rfl
    have hinv : (highPower i t).inverse = t.inverse := rfl
    rw [hexp, store_same] at hlog
    exact congr (congr (congrArg GfTables.mk hexp) hlog) hinv
  rw [heq]
  exact h.next hhi

theorem highPowers_powers {t : GfTables} (h : Powers 9 t) : Powers gfSize (highPowers t) := by
  have hloop : Powers gfSize (loopFrom (gfBits + 1) gfSize highPower t) := by
    apply loopFrom_inv Powers (gfBits + 1) gfSize (by decide) highPower t h
    intro i t hlo hhi hp
    rw [gfSize_eq] at hhi
    exact highPower_powers hlo hhi hp
  rw [highPowers]
  constructor
  · intro i hi
    dsimp only
    exact hloop.exp i hi
  · intro i hi
    dsimp only
    rw [store_other _ _ (alpha_ne_zero i)]
    exact hloop.log i hi

theorem extendExp_exp {t : GfTables} (h : Powers gfSize t) :
    ∀ i < 510, (extendExp t).gfExp i = alpha i := by
  have hloop := loop_inv (fun n e => ∀ i < gfSize + n, e i = alpha i) gfSize
    (fun i e => store e (i + gfSize) (e i)) t.gfExp h.exp (by
      intro n e hn he i hi
      by_cases heq : i = n + gfSize
      · subst i
        rw [store_same, he n (by omega), gfSize_eq, alpha_add_period]
      · rw [store_other _ _ heq]
        exact he i (by omega))
  intro i hi
  exact hloop i (by rw [gfSize_eq]; omega)

/-- The inverse table holds, for every byte from 2 on, the power that complements its
logarithm to 255. -/
theorem fillInverse_inverse (t : GfTables) :
    (fillInverse t).inverse 0 = 0 ∧ (fillInverse t).inverse 1 = 1 ∧
      ∀ j, 2 ≤ j → j < gfSize + 1 →
        (fillInverse t).inverse (Gf.ofNat j) = t.gfExp (gfSize - t.gfLog (Gf.ofNat j)) := by
  have hof : ∀ {i j : Nat}, i < 256 → j < 256 → Gf.ofNat i = Gf.ofNat j → i = j := by
    intro i j hi hj h
    rw [← Gf.toNat_ofNat hi, h, Gf.toNat_ofNat hj]
  have hle : 2 ≤ gfSize + 1 := by decide
  rw [fillInverse]
  dsimp only
  apply loopFrom_inv (fun i (inv : Gf → Gf) => inv 0 = 0 ∧ inv 1 = 1 ∧
      ∀ j, 2 ≤ j → j < i → inv (Gf.ofNat j) = t.gfExp (gfSize - t.gfLog (Gf.ofNat j)))
    2 (gfSize + 1) hle
  · refine ⟨?_, store_same _ _ _, by intros; omega⟩
    rw [store_other _ _ (by decide), store_same]
  · intro i inv hlo hhi ⟨h0, h1, h⟩
    rw [gfSize_eq] at hhi
    have hi0 : (0 : Gf) ≠ Gf.ofNat i := fun he =>
      absurd (hof (by omega : 0 < 256) hhi he) (by omega)
    have hi1 : (1 : Gf) ≠ Gf.ofNat i := fun he =>
      absurd (hof (by omega : 1 < 256) hhi he) (by omega)
    refine ⟨by rw [store_other _ _ hi0, h0], by rw [store_other _ _ hi1, h1], ?_⟩
    intro j hj hji
    by_cases he : j = i
    · subst j; rw [store_same]
    · rw [store_other _ _ fun ho => he (hof (by omega) hhi ho)]
      exact h j hj (by omega)

theorem gfTables_powers : Powers gfSize (highPowers (lowPowers zeroTables)) :=
  highPowers_powers lowPowers_powers

theorem gfTables_exp : gfTables.gfExp = (extendExp (highPowers (lowPowers zeroTables))).gfExp := by
  rw [gfTables, generateGf, fillInverse]

theorem gfTables_log : gfTables.gfLog = (highPowers (lowPowers zeroTables)).gfLog := by
  rw [gfTables, generateGf, fillInverse, extendExp]

theorem gfExp_eq {i : Nat} (hi : i < 510) : gfTables.gfExp i = alpha i := by
  rw [gfTables_exp]
  exact extendExp_exp gfTables_powers i hi

theorem gfLog_alpha {i : Nat} (hi : i < 255) : gfTables.gfLog (alpha i) = i := by
  rw [gfTables_log]
  exact gfTables_powers.log i (by rw [gfSize_eq]; exact hi)

theorem inverse_zero : gfTables.inverse 0 = 0 := (fillInverse_inverse _).1

theorem inverse_ofNat {j : Nat} (hlo : 2 ≤ j) (hhi : j < 256) : gfTables.inverse (Gf.ofNat j) =
    gfTables.gfExp (255 - gfTables.gfLog (Gf.ofNat j)) := by
  have h := (fillInverse_inverse (extendExp (highPowers (lowPowers zeroTables)))).2.2 j hlo
    (by rw [gfSize_eq]; omega)
  rw [gfTables_exp, gfTables_log, ← gfSize_eq, gfTables, generateGf, h, extendExp]

theorem inverse_alpha {i : Nat} (hi : i < 255) : gfTables.inverse (alpha i) = alpha (255 - i) := by
  by_cases h0 : i = 0
  · subst i
    rw [← alpha_mod 255]
    exact (fillInverse_inverse _).2.1
  · have hne1 : (alpha i).toNat ≠ 1 := by
      intro h
      exact h0 (alpha_inj hi (by omega) (Gf.toNat_inj h : alpha i = alpha 0))
    have hne0 : (alpha i).toNat ≠ 0 := fun h => alpha_ne_zero i (Gf.toNat_inj h)
    have h := inverse_ofNat (j := (alpha i).toNat) (by omega) (alpha i).toNat_lt
    rw [Gf.ofNat_toNat, gfLog_alpha hi, gfExp_eq (by omega)] at h
    exact h

/-! ## The field -/

theorem gfMul_zero (a : Gf) : gfMul a 0 = 0 := by simp [gfMul, gfMulTable]
theorem zero_gfMul (a : Gf) : gfMul 0 a = 0 := by simp [gfMul, gfMulTable]

/-- The table multiplies powers of alpha by adding exponents. -/
theorem gfMul_alpha (i j : Nat) : gfMul (alpha i) (alpha j) = alpha (i + j) := by
  have hlog : ∀ n, gfTables.gfLog (alpha n) = n % 255 := by
    intro n
    rw [← alpha_mod n]
    exact gfLog_alpha (Nat.mod_lt n (by decide))
  simp only [gfMul, gfMulTable, alpha_ne_zero, or_self, if_false, hlog, modnn_eq]
  rw [gfExp_eq (by omega), ← Nat.add_mod, alpha_mod]

theorem gfMul_comm (a b : Gf) : gfMul a b = gfMul b a := by
  simp only [gfMul, gfMulTable, or_comm, Nat.add_comm]

/-- Multiplication by a fixed nonzero byte is an iterate of multiplication by alpha. -/
theorem alpha_gfMul (i : Nat) (b : Gf) : gfMul (alpha i) b = xtime^[i] b := by
  by_cases hb : b = 0
  · subst b; rw [gfMul_zero, iterate_xtime_zero]
  · obtain ⟨j, -, rfl⟩ := exists_alpha hb
    rw [gfMul_alpha, alpha_add]

theorem gfMul_xor (a b c : Gf) : gfMul a (b ^^^ c) = gfMul a b ^^^ gfMul a c := by
  by_cases ha : a = 0
  · subst a; simp only [zero_gfMul, Gf.xor_self]
  · obtain ⟨i, -, rfl⟩ := exists_alpha ha
    simp only [alpha_gfMul, iterate_xtime_xor]

theorem gfMul_assoc (a b c : Gf) : gfMul (gfMul a b) c = gfMul a (gfMul b c) := by
  by_cases ha : a = 0
  · subst a; simp only [zero_gfMul]
  by_cases hb : b = 0
  · subst b; simp only [zero_gfMul, gfMul_zero]
  obtain ⟨i, -, rfl⟩ := exists_alpha ha
  obtain ⟨j, -, rfl⟩ := exists_alpha hb
  rw [gfMul_alpha, alpha_gfMul, alpha_gfMul, alpha_gfMul, Function.iterate_add_apply]

theorem one_gfMul (a : Gf) : gfMul 1 a = a := alpha_gfMul 0 a

theorem gfMul_inverse {a : Gf} (ha : a ≠ 0) : gfMul a (gfTables.inverse a) = 1 := by
  obtain ⟨i, hi, rfl⟩ := exists_alpha ha
  rw [inverse_alpha hi, gfMul_alpha, show i + (255 - i) = 0 + 255 by omega, alpha_add_period]
  rfl

instance : Add Gf := ⟨fun a b => a ^^^ b⟩
instance : Neg Gf := ⟨fun a => a⟩
instance : Mul Gf := ⟨gfMul⟩
instance : Inv Gf := ⟨gfTables.inverse⟩

/-- The bytes with exclusive or and the two tables are a field. -/
instance : Field Gf where
  add_assoc := Gf.xor_assoc
  zero_add := Gf.zero_xor
  add_zero := Gf.xor_zero
  add_comm := Gf.xor_comm
  nsmul := nsmulRec
  zsmul := zsmulRec
  neg_add_cancel := Gf.xor_self
  left_distrib := gfMul_xor
  right_distrib a b c := by
    change gfMul (a ^^^ b) c = gfMul a c ^^^ gfMul b c
    rw [gfMul_comm, gfMul_xor, gfMul_comm c a, gfMul_comm c b]
  zero_mul := zero_gfMul
  mul_zero := gfMul_zero
  mul_assoc := gfMul_assoc
  one_mul := one_gfMul
  mul_one a := (gfMul_comm a 1).trans (one_gfMul a)
  mul_comm := gfMul_comm
  exists_pair_ne := ⟨0, 1, by decide⟩
  mul_inv_cancel _ := gfMul_inverse
  inv_zero := inverse_zero
  nnqsmul := _
  nnqsmul_def := fun _ _ => rfl
  qsmul := _
  qsmul_def := fun _ _ => rfl

@[simp] theorem xor_eq_add (a b : Gf) : a ^^^ b = a + b := rfl
@[simp] theorem gfMul_eq_mul (a b : Gf) : gfMul a b = a * b := rfl
@[simp] theorem inverse_eq_inv (a : Gf) : gfTables.inverse a = a⁻¹ := rfl

/-- Subtraction is addition. -/
@[simp] theorem neg_eq (a : Gf) : -a = a := rfl
@[simp] theorem sub_eq (a b : Gf) : a - b = a + b := sub_eq_add_neg a b

theorem alpha_eq_pow (i : Nat) : alpha i = alpha 1 ^ i := by
  induction i with
  | zero => rfl
  | succ i ih => rw [pow_succ, ← ih]; exact (gfMul_alpha i 1).symm

end FecField
