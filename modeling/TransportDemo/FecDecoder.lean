import TransportDemo.FecGenerator

/-!
# What one call of `Decode` does

The recovery of a decoder state is described by two lists: the source places
that are still empty and the redundant packets that arrived. The `t`-th empty
place takes the `t`-th redundant packet. One lemma states the arrival of a
packet, one the recovery, and no later proof opens the functions again.
-/

namespace FecDecoder

open CountedLoop FecField FecMatrix FecCode FecGenerator

/-! ## The parameters -/

/-- Parameters for which every access stays inside the arrays. -/
structure Setup where
  k : Nat
  n : Nat
  size : Nat
  pos : 0 < k
  le : k ≤ n
  bound : n ≤ kMaxN
  size_pos : 0 < size
  size_le : size ≤ maxFecPacketSize

/-- The members of a generator that the constructor sets once and for all. -/
structure Runs (p : Setup) (g : FECGenerator) : Prop where
  code : fecNew p.k p.n = some g.fec
  fecK : g.fecK = p.k
  fecN : g.fecN = p.n
  size : g.packetSize = p.size

theorem int16_of_small {x : Int} (h₀ : -32768 ≤ x) (h₁ : x < 32768) : int16 x = x := by
  rw [int16, Int.bmod_eq_of_le] <;> omega

theorem Runs.isCode {p : Setup} {g : FECGenerator} (h : Runs p g) : IsCode p.k p.n g.fec := by
  have hb := p.bound
  obtain ⟨code, hcode, his⟩ := fecNew_spec p.pos p.le (by simp only [kMaxN] at hb; omega)
  rw [h.code, Option.some_inj] at hcode
  exact hcode ▸ his

/-- The constructor succeeds and establishes the parameters. -/
theorem new_runs (p : Setup) (input output : Nat → Nat → Gf) :
    ∃ g, new input output p.k p.n p.size = some g ∧ Runs p g := by
  have hb := p.bound
  have hs := p.size_le
  have hle := p.le
  simp only [kMaxN, maxFecPacketSize] at hb hs
  obtain ⟨code, hcode, -⟩ := fecNew_spec p.pos hle (by omega)
  have hsmall : ∀ m : Nat, m ≤ 1300 → int16 m = m := by
    intro m hm
    exact int16_of_small (by omega) (by omega)
  rw [new, hcode, Option.map_some, hsmall p.k (by omega), hsmall p.n (by omega), hsmall p.size hs]
  exact ⟨_, rfl, hcode, rfl, rfl, rfl⟩

theorem sizeFits_size (p : Setup) : sizeFits p.size = true := by
  have := p.size_le
  simp [sizeFits, this]

/-! ## Where the recovery takes its packets from -/

section Placement

variable (k n : Nat) (marks : Nat → Bool)

/-- The source places without a packet. -/
def missing : List Nat := (List.range k).filter fun i => !marks i

/-- The redundant packets that arrived. -/
def redundant : List Nat := (List.range' k (n - k)).filter fun j => marks j

/-- How many empty places come before place `i`. -/
def rank (i : Nat) : Nat := (missing i marks).length

/-- The buffer used for place `i`. -/
def slotOf (i : Nat) : Nat := if marks i then i else (redundant k n marks).getD (rank marks i) 0

variable {k n marks}

theorem mem_missing {i : Nat} : i ∈ missing k marks ↔ i < k ∧ marks i = false := by
  simp [missing]

theorem mem_redundant (hkn : k ≤ n) {j : Nat} :
    j ∈ redundant k n marks ↔ k ≤ j ∧ j < n ∧ marks j = true := by
  simp only [redundant, List.mem_filter, List.mem_range'_1, and_assoc]
  constructor
  · rintro ⟨h1, h2, h3⟩; exact ⟨h1, by omega, h3⟩
  · rintro ⟨h1, h2, h3⟩; exact ⟨h1, by omega, h3⟩

theorem redundant_nodup : (redundant k n marks).Nodup :=
  (show (List.range' k (n - k) 1).Nodup from List.nodup_range').filter _

theorem rank_succ (i : Nat) :
    rank marks (i + 1) = if marks i then rank marks i else rank marks i + 1 := by
  simp only [rank, missing, List.range_succ, List.filter_append, List.length_append]
  cases h : marks i <;> simp [h]

theorem rank_mono {i j : Nat} (h : i ≤ j) : rank marks i ≤ rank marks j := by
  induction j with
  | zero => rw [Nat.le_zero.mp h]
  | succ j ih =>
    rcases Nat.lt_or_ge i (j + 1) with hlt | hge
    · have := ih (by omega)
      rw [rank_succ]
      split <;> omega
    · rw [Nat.le_antisymm h hge]

/-- Different empty places have different ranks. -/
theorem rank_lt {i j : Nat} (h : i < j) (hi : marks i = false) : rank marks i < rank marks j := by
  have hs : rank marks (i + 1) = rank marks i + 1 := by rw [rank_succ, hi]; rfl
  have hmono : rank marks (i + 1) ≤ rank marks j := rank_mono h
  omega

theorem missing_succ (k : Nat) :
    missing (k + 1) marks = if marks k then missing k marks else missing k marks ++ [k] := by
  simp only [missing, List.range_succ, List.filter_append]
  cases h : marks k <;> simp [h]

theorem findRedundant_eq (tempMarks : Nat → Bool) (fuel j : Nat) (h : j + fuel ≤ kMaxN) :
    findRedundant tempMarks fuel j = some ((List.range' j fuel).filter tempMarks).head? := by
  induction fuel generalizing j with
  | zero => rfl
  | succ fuel ih =>
    rw [findRedundant, if_neg (by omega), List.range'_succ]
    cases hj : tempMarks j with
    | true => simp [hj]
    | false => simpa [hj] using ih (j + 1) (by omega)

/-- The arrays after the first `t` places have been filled. -/
structure Filled (k n : Nat) (marks : Nat → Bool) (t : Nat) (s : Placement) : Prop where
  marked : ∀ i < k, s.tempMarks i =
    (marks i || (decide (i < t) && decide (rank marks i < (redundant k n marks).length)))
  left : (List.range' k (n - k)).filter s.tempMarks = (redundant k n marks).drop (rank marks t)
  recovery : ∀ i < k, s.recovery i =
    if marks i then some i else if i < t then (redundant k n marks)[rank marks i]? else none
  index : ∀ i < k, s.recoveryIndex i =
    if marks i then i else if i < t then (redundant k n marks).getD (rank marks i) 0 else 0

theorem placeSources_filled : Filled k n marks 0 (placeSources k marks) := by
  have h := loop_inv (fun t (s : Placement) => s.tempMarks = marks ∧ ∀ i,
      s.recovery i = (if i < t ∧ marks i then some i else none) ∧
      s.recoveryIndex i = if i < t ∧ marks i then i else 0) k
    (fun i s =>
      if s.tempMarks i then
        { s with recovery := store s.recovery i (some i), recoveryIndex := store s.recoveryIndex i i }
      else s) ⟨marks, fun _ => none, fun _ => 0⟩ ⟨rfl, fun i => ⟨rfl, rfl⟩⟩ (by
      rintro t s - ⟨hm, hs⟩
      subst hm
      by_cases hmt : s.tempMarks t = true
      · simp only [hmt, if_true, true_and]
        intro i
        by_cases hi : i = t
        · subst i; simp [hmt]
        · have hlt : i < t + 1 ↔ i < t := by omega
          simpa only [store_other _ _ hi, hlt] using hs i
      · rw [if_neg hmt]
        refine ⟨rfl, ?_⟩
        intro i
        have hlt : (i < t + 1 ∧ s.tempMarks i = true) ↔ (i < t ∧ s.tempMarks i = true) := by
          constructor
          · rintro ⟨h1, h2⟩
            have hne : i ≠ t := fun h => hmt (h ▸ h2)
            exact ⟨by omega, h2⟩
          · rintro ⟨h1, h2⟩
            exact ⟨by omega, h2⟩
        simpa only [hlt] using hs i)
  obtain ⟨hm, hs⟩ := h
  constructor
  · intro i hi
    simp [placeSources, hm]
  · simp [placeSources, hm, redundant, rank, missing]
  · intro i hi
    simp [placeSources, hs i, hi]
  · intro i hi
    simp [placeSources, hs i, hi]

/-- A turn that finds nothing to do, or no packet to do it with. -/
theorem Filled.stay {t : Nat} {s : Placement} (h : Filled k n marks t s)
    (hstay : marks t = true ∨ (redundant k n marks).length ≤ rank marks t) :
    Filled k n marks (t + 1) s := by
  have hlt : ∀ i, i ≠ t → (i < t + 1 ↔ i < t) := by omega
  constructor
  · intro i hi
    rw [h.marked i hi]
    by_cases he : i = t
    · subst i
      rcases hstay with hm | hlen
      · simp [hm]
      · simp [hlen]
    · simp only [hlt i he]
  · rw [h.left, rank_succ]
    rcases hstay with hm | hlen
    · rw [hm, if_pos rfl]
    · split
      · rfl
      · rw [List.drop_eq_nil_of_le hlen, List.drop_eq_nil_of_le (by omega)]
  · intro i hi
    rw [h.recovery i hi]
    by_cases he : i = t
    · subst i
      rcases hstay with hm | hlen
      · simp [hm]
      · simp [List.getElem?_eq_none hlen]
    · simp only [hlt i he]
  · intro i hi
    rw [h.index i hi]
    by_cases he : i = t
    · subst i
      rcases hstay with hm | hlen
      · simp [hm]
      · simp [List.getD_eq_getElem?_getD, List.getElem?_eq_none hlen]
    · simp only [hlt i he]

/-- A turn that gives an empty place the next redundant packet. -/
theorem Filled.take {t j : Nat} {s : Placement} (hkn : k ≤ n) (ht : t < k)
    (h : Filled k n marks t s) (hm : marks t = false)
    (hR : (redundant k n marks)[rank marks t]? = some j) :
    Filled k n marks (t + 1) ⟨store (store s.tempMarks j false) t true,
      store s.recovery t (some j), store s.recoveryIndex t j⟩ := by
  have hlt : ∀ i, i ≠ t → (i < t + 1 ↔ i < t) := by omega
  obtain ⟨hlen, hj⟩ := List.getElem?_eq_some_iff.mp hR
  have hdrop := List.drop_eq_getElem_cons hlen
  rw [hj] at hdrop
  have hjk : k ≤ j := ((mem_redundant hkn).mp (hj ▸ List.getElem_mem hlen)).1
  constructor
  · intro i hi
    by_cases he : i = t
    · subst i; simp [hlen]
    · simp only [store_other _ _ he, store_other _ _ (show i ≠ j by omega), h.marked i hi, hlt i he]
  · have hfilter : (List.range' k (n - k)).filter (store (store s.tempMarks j false) t true) =
        ((redundant k n marks).drop (rank marks t)).filter fun l => decide (l ≠ j) := by
      rw [← h.left, List.filter_filter]
      apply List.filter_congr
      intro l hl
      have hlk : l ≠ t := by
        have := (List.mem_range'_1.mp hl).1
        omega
      by_cases hlj : l = j
      · subst l; simp [store_other _ _ hlk]
      · simp [store_other _ _ hlk, store_other _ _ hlj, hlj]
    have hnd : (j :: (redundant k n marks).drop (rank marks t + 1)).Nodup := by
      rw [← hdrop]
      exact List.Nodup.sublist (List.drop_sublist _ _) redundant_nodup
    rw [hfilter, rank_succ, hm, hdrop, List.filter_cons_of_neg (by simp), List.filter_eq_self.mpr]
    · rfl
    · intro l hl
      have hne : l ≠ j := fun h => (List.nodup_cons.mp hnd).1 (h ▸ hl)
      simpa using hne
  · intro i hi
    by_cases he : i = t
    · subst i; simp [hm, hR]
    · simp only [store_other _ _ he, h.recovery i hi, hlt i he]
  · intro i hi
    by_cases he : i = t
    · subst i; simp [hm, List.getD_eq_getElem?_getD, hR]
    · simp only [store_other _ _ he, h.index i hi, hlt i he]

theorem placeRedundant_filled (marks : Nat → Bool) (hn : n ≤ kMaxN) (hkn : k ≤ n) :
    ∃ s, placeRedundant k n (placeSources k marks) = some s ∧ Filled k n marks k s := by
  refine loopOption_inv (Filled k n marks) k _ _ placeSources_filled fun t s ht h => ?_
  have hmt : s.tempMarks t = marks t := by simp [h.marked t ht]
  rw [hmt, findRedundant_eq _ _ _ (by omega), h.left, List.head?_drop]
  cases hm : marks t with
  | true => exact ⟨s, rfl, h.stay (Or.inl hm)⟩
  | false =>
    rcases hR : (redundant k n marks)[rank marks t]? with _ | j
    · exact ⟨s, rfl, h.stay (Or.inr (List.getElem?_eq_none_iff.mp hR))⟩
    · exact ⟨_, rfl, h.take hkn ht hm hR⟩

/-- The recovery goes ahead exactly when there are as many redundant packets as empty places. -/
theorem Filled.incomplete_iff {s : Placement} (h : Filled k n marks k s) :
    incomplete k s = false ↔ (missing k marks).length ≤ (redundant k n marks).length := by
  have hplace : incomplete k s = false ↔
      ∀ i < k, marks i = false → rank marks i < (redundant k n marks).length := by
    simp only [incomplete, List.any_eq_false, List.mem_range, decide_eq_true_eq, not_or]
    constructor
    · intro hall i hi hm
      have := (hall i hi).2
      rw [h.marked i hi, hm] at this
      simpa [hi] using this
    · intro hall i hi
      rw [h.recovery i hi, h.marked i hi]
      cases hm : marks i with
      | true => simp
      | false => simp [hi, hall i hi hm]
  rw [hplace]
  constructor
  · intro hall
    have hrank : ∀ t ≤ k, rank marks t ≤ (redundant k n marks).length := by
      intro t
      induction t with
      | zero => intro _; exact Nat.zero_le _
      | succ t ih =>
        intro ht
        rw [rank_succ]
        cases hm : marks t with
        | true => exact ih (by omega)
        | false => exact hall t ht hm
    exact hrank k le_rfl
  · intro hle i hi hm
    exact (rank_lt hi hm).trans_le hle

/-- When it goes ahead, each place holds the packet `slotOf` names. -/
theorem Filled.slots {s : Placement} (h : Filled k n marks k s)
    (hle : (missing k marks).length ≤ (redundant k n marks).length) {i : Nat} (hi : i < k) :
    s.recovery i = some (slotOf k n marks i) ∧ s.recoveryIndex i = slotOf k n marks i := by
  rw [h.recovery i hi, h.index i hi, slotOf]
  cases hm : marks i with
  | true => simp
  | false =>
    have hlt := (rank_lt hi hm).trans_le hle
    simp [hi, List.getElem?_eq_getElem hlt, List.getD_eq_getElem?_getD]

theorem slotOf_marked {i : Nat} (h : marks i = true) : slotOf k n marks i = i := by
  rw [slotOf, if_pos h]

/-- The slot of an empty place is a redundant packet that arrived. -/
theorem slotOf_mem (hle : (missing k marks).length ≤ (redundant k n marks).length) {i : Nat}
    (hi : i < k) (hm : marks i = false) : slotOf k n marks i ∈ redundant k n marks := by
  have hlt := (rank_lt hi hm).trans_le hle
  rw [slotOf, hm, if_neg (by simp), List.getD_eq_getElem?_getD, List.getElem?_eq_getElem hlt]
  exact List.getElem_mem hlt

theorem slotOf_placed (hkn : k ≤ n)
    (hle : (missing k marks).length ≤ (redundant k n marks).length) :
    Placed k n (slotOf k n marks) := by
  constructor
  · intro i hi
    cases hm : marks i with
    | true => exact Or.inl (slotOf_marked hm)
    | false => exact Or.inr ((mem_redundant hkn).mp (slotOf_mem hle hi hm)).1
  · intro i hi
    cases hm : marks i with
    | true => rw [slotOf_marked hm]; omega
    | false => exact ((mem_redundant hkn).mp (slotOf_mem hle hi hm)).2.1
  · intro i hi j hj hij
    simp only [Set.mem_Iio] at hi hj
    cases hmi : marks i with
    | true =>
      cases hmj : marks j with
      | true => rwa [slotOf_marked hmi, slotOf_marked hmj] at hij
      | false =>
        have hmem := ((mem_redundant hkn).mp (slotOf_mem hle hj hmj)).1
        rw [← hij, slotOf_marked hmi] at hmem
        omega
    | false =>
      cases hmj : marks j with
      | true =>
        have hmem := ((mem_redundant hkn).mp (slotOf_mem hle hi hmi)).1
        rw [hij, slotOf_marked hmj] at hmem
        omega
      | false =>
        have hri := (rank_lt hi hmi).trans_le hle
        have hrj := (rank_lt hj hmj).trans_le hle
        simp only [slotOf, hmi, hmj, Bool.false_eq_true, if_false,
          List.getD_eq_getElem _ _ hri, List.getD_eq_getElem _ _ hrj] at hij
        have hrank := (List.Nodup.getElem_inj_iff redundant_nodup).mp hij
        by_contra hne
        rcases Nat.lt_or_gt_of_ne hne with hlt | hgt
        · exact absurd (rank_lt hlt hmi) (by simp only [rank] at hrank ⊢; omega)
        · exact absurd (rank_lt hgt hmj) (by simp only [rank] at hrank ⊢; omega)

end Placement

/-! ## The recovery -/

/-- A counter after `m` increments. -/
def bump (m : Nat) (x : Int) : Int := loop m (fun _ x => int16 (x + 1)) x

theorem bump_eq {m : Nat} {x : Int} (h₀ : -32768 ≤ x) (h₁ : x + m < 32768) : bump m x = x + m := by
  induction m with
  | zero => simp [bump]
  | succ m ih =>
    have hm : bump m x = x + m := ih (by omega)
    rw [bump, loop_succ, ← bump, hm, int16_of_small (by omega) (by omega)]
    omega

/-- The conditions under which `Decode` goes on to the recovery and completes it. -/
structure Ready (p : Setup) (g : FECGenerator) : Prop where
  count : (p.k : Int) ≤ g.packetCount
  raw : g.rawPacketCount ≠ p.k
  enough : (missing p.k g.usedMarks).length ≤ (redundant p.k p.n g.usedMarks).length

/-- The recovery that leads from `g` to `g'`: `x` explains the buffers it was given, the
buffers it used hold the recovered packets afterwards and all others are as before. -/
structure Recovered (p : Setup) (g g' : FECGenerator) (x : Nat → Nat → Gf) : Prop where
  state : g' = { g with
    inputData := g'.inputData
    packetCount := bump (missing p.k g.usedMarks).length g.packetCount
    rawPacketCount := bump (missing p.k g.usedMarks).length g.rawPacketCount }
  solves : ∀ b, Solves g.fec g.inputData (slotOf p.k p.n g.usedMarks) (slotOf p.k p.n g.usedMarks) b
    fun l => x l b
  used : ∀ i ∈ missing p.k g.usedMarks, ∀ b < p.size,
    g'.inputData (slotOf p.k p.n g.usedMarks i) b = x i b
  frame : ∀ slot b, (b < p.size → ∀ i ∈ missing p.k g.usedMarks, slotOf p.k p.n g.usedMarks i ≠ slot) →
    g'.inputData slot b = g.inputData slot b

/-- The callback of packet `i` of a group. -/
def packet (p : Setup) (group : UInt32) (i : Nat) (data : List Gf) : Callback :=
  ⟨group.toUInt64, p.k, p.n, i, data⟩

theorem bytes_congr {buf buf' : Nat → Gf} {size : Nat} (h : ∀ b < size, buf b = buf' b) :
    bytes buf size = bytes buf' size :=
  List.map_congr_left fun b hb => h b (List.mem_range.mp hb)

theorem deliver_eq {p : Setup} {g : FECGenerator} (h : Runs p g) (d : Decoded) (t : Nat)
    (hidx : ∀ i < t, d.index i = i ↔ g.usedMarks i = true) :
    deliver t d g = ({ g with
      inputData := d.mem
      packetCount := bump (missing t g.usedMarks).length g.packetCount
      rawPacketCount := bump (missing t g.usedMarks).length g.rawPacketCount },
      (missing t g.usedMarks).map fun i =>
        packet p g.lastGroupId i (bytes (d.mem (d.pkt i)) p.size)) := by
  induction t with
  | zero => rfl
  | succ t ih =>
    have ht := ih fun i hi => hidx i (by omega)
    rw [deliver] at ht ⊢
    rw [loop_succ, ht, missing_succ]
    cases hm : g.usedMarks t with
    | true => rw [if_pos ((hidx t (by omega)).mpr hm), if_pos rfl]
    | false =>
      have hne : d.index t ≠ t := by
        rw [Ne, hidx t (by omega), hm]
        simp
      simp [hne, packet, bump, h.fecK, h.fecN, h.size]

section Recover

variable {p : Setup} {g : FECGenerator}

theorem recover_idle (h : Runs p g) (hr : ¬Ready p g) : recover g = some (g, []) := by
  have hk : ¬(kMaxN : Int) < g.fecK := by
    have := p.le.trans p.bound
    rw [h.fecK]
    omega
  rw [recover, h.fecK]
  by_cases hcount : g.packetCount < p.k
  · rw [if_pos hcount]
  by_cases hraw : g.rawPacketCount = p.k
  · rw [if_neg hcount, if_pos hraw]
  rw [if_neg hcount, if_neg hraw, if_neg (h.fecK ▸ hk), h.fecN]
  obtain ⟨s, hs, hfilled⟩ := placeRedundant_filled g.usedMarks p.bound p.le
  have hinc : incomplete p.k s = true := by
    rw [← Bool.not_eq_false, hfilled.incomplete_iff]
    exact fun hle => hr ⟨by omega, hraw, hle⟩
  simp [hs, hinc]

theorem recover_ready (h : Runs p g) (hr : Ready p g) :
    ∃ g' x, recover g = some (g', (missing p.k g.usedMarks).map fun i =>
      packet p g.lastGroupId i (bytes (x i) p.size)) ∧ Recovered p g g' x := by
  have hk : ¬(kMaxN : Int) < g.fecK := by
    have := p.le.trans p.bound
    rw [h.fecK]
    omega
  obtain ⟨s, hs, hfilled⟩ := placeRedundant_filled g.usedMarks p.bound p.le
  have hinc : incomplete p.k s = false := hfilled.incomplete_iff.mpr hr.enough
  let slot := slotOf p.k p.n g.usedMarks
  have hplaced : Placed p.k p.n slot := slotOf_placed p.le hr.enough
  let pkt : Nat → Nat := fun i => (s.recovery i).getD 0
  have hpkt : ∀ i < p.k, pkt i = slot i := fun i hi => by
    rw [show pkt i = (s.recovery i).getD 0 from rfl, (hfilled.slots hr.enough hi).1, Option.getD_some]
  have hidx : ∀ i < p.k, s.recoveryIndex i = slot i := fun i hi => (hfilled.slots hr.enough hi).2
  have hplaced' : Placed p.k p.n s.recoveryIndex := by
    refine ⟨fun i hi => hidx i hi ▸ hplaced.own i hi, fun i hi => hidx i hi ▸ hplaced.lt i hi, ?_⟩
    intro i hi j hj hij
    rw [hidx i hi, hidx j hj] at hij
    exact hplaced.inj hi hj hij
  have hinj : Set.InjOn pkt (Set.Iio p.k) := by
    intro i hi j hj hij
    rw [hpkt i hi, hpkt j hj] at hij
    exact hplaced.inj hi hj hij
  obtain ⟨X, mem, hdec, hsolves, hnew, hold⟩ := fecDecode_spec h.isCode g.inputData hplaced' hinj p.size
  have hown : ∀ i < p.k, s.recoveryIndex i = i ↔ g.usedMarks i = true := by
    intro i hi
    rw [hidx i hi]
    cases hm : g.usedMarks i with
    | true => simp [slot, slotOf_marked hm]
    | false =>
      have hslot : p.k ≤ slot i := ((mem_redundant p.le).mp (slotOf_mem hr.enough hi hm)).1
      simp only [Bool.false_eq_true, iff_false]
      omega
  have hmissing : ∀ i ∈ missing p.k g.usedMarks, i < p.k ∧ p.k ≤ slot i := by
    intro i hi
    obtain ⟨hik, hm⟩ := Iff.mp mem_missing hi
    exact ⟨hik, ((mem_redundant p.le).mp (slotOf_mem hr.enough hik hm)).1⟩
  have hbytes : ∀ i ∈ missing p.k g.usedMarks, ∀ b < p.size, mem (slot i) b = X b i := by
    intro i hi b hb
    obtain ⟨hik, hsk⟩ := hmissing i hi
    rw [← hpkt i hik]
    exact hnew i hik (by rwa [hidx i hik]) b hb
  have hresult : recover g = some (deliver p.k ⟨0, mem, pkt, s.recoveryIndex⟩ g) := by
    rw [recover, h.fecK, if_neg (by have := hr.count; omega), if_neg hr.raw, if_neg (h.fecK ▸ hk),
      h.fecN, h.size]
    simp [hs, hinc, sizeFits_size, pkt, hdec]
  rw [deliver_eq h _ _ hown] at hresult
  have hout : ((missing p.k g.usedMarks).map fun i =>
      packet p g.lastGroupId i (bytes (mem (pkt i)) p.size)) =
      (missing p.k g.usedMarks).map fun i => packet p g.lastGroupId i (bytes (X · i) p.size) := by
    apply List.map_congr_left
    intro i hi
    rw [hpkt i (hmissing i hi).1, bytes_congr (hbytes i hi)]
  rw [hout] at hresult
  refine ⟨_, fun l b => X b l, hresult, ⟨rfl, ?_, hbytes, ?_⟩⟩
  · intro b col hcol
    have hcol' : col < p.k := h.isCode.k_eq ▸ hcol
    have := hsolves b col hcol
    rwa [hpkt col hcol', hidx col hcol'] at this
  · intro slot' b hs'
    apply hold
    intro hb row hrow hrow'
    rw [hpkt row hrow]
    refine hs' hb row (Iff.mpr mem_missing ⟨hrow, ?_⟩)
    by_contra hm
    have : s.recoveryIndex row = row := (hown row hrow).mpr (by simpa using hm)
    omega

end Recover

/-! ## The arrival -/

/-- The index of the packet a datagram carries. -/
def index (x : Datagram) : Nat := x.header.fecIndex.toNat

/-- A datagram whose index and length stay inside the arrays. -/
structure Fits (p : Setup) (x : Datagram) : Prop where
  index : index x < p.n
  length : x.header.length.toNat ≤ maxFecPacketSize
  data : x.header.length.toNat ≤ x.data.length

/-- The bytes of a datagram that its header announces. -/
def payload (x : Datagram) : List Gf := x.data.take x.header.length.toNat

theorem Fits.payload_length {p : Setup} {x : Datagram} (h : Fits p x) :
    (payload x).length = x.header.length.toNat := by
  rw [payload, List.length_take, min_eq_left h.data]

theorem buffer_payload {x : Datagram} {b : Nat} (hb : b < x.header.length.toNat) :
    buffer x.data b = buffer (payload x) b := by
  simp [buffer, payload, List.getD_eq_getElem?_getD, hb]

/-- The state after the arrival of a packet seen for the first time. -/
def accept (p : Setup) (g : FECGenerator) (x : Datagram) : FECGenerator :=
  { g with
    inputData := store g.inputData (index x)
      (copyBytes (g.inputData (index x)) (buffer (payload x)) (payload x).length)
    usedMarks := store g.usedMarks (index x) true
    packetCount := int16 (g.packetCount + 1)
    rawPacketCount := if index x < p.k then int16 (g.rawPacketCount + 1) else g.rawPacketCount }

@[simp] theorem accept_usedMarks (p : Setup) (g : FECGenerator) (x : Datagram) :
    (accept p g x).usedMarks = store g.usedMarks (index x) true := rfl
@[simp] theorem accept_lastGroupId (p : Setup) (g : FECGenerator) (x : Datagram) :
    (accept p g x).lastGroupId = g.lastGroupId := rfl
@[simp] theorem accept_inputData (p : Setup) (g : FECGenerator) (x : Datagram) :
    (accept p g x).inputData = store g.inputData (index x)
      (copyBytes (g.inputData (index x)) (buffer (payload x)) (payload x).length) := rfl
@[simp] theorem accept_packetCount (p : Setup) (g : FECGenerator) (x : Datagram) :
    (accept p g x).packetCount = int16 (g.packetCount + 1) := rfl
@[simp] theorem accept_rawPacketCount (p : Setup) (g : FECGenerator) (x : Datagram) :
    (accept p g x).rawPacketCount =
      if index x < p.k then int16 (g.rawPacketCount + 1) else g.rawPacketCount := rfl

/-- What the callback gets at once. -/
def handOn (p : Setup) (g : FECGenerator) (x : Datagram) : List Callback :=
  if index x < p.k then
    [⟨g.lastGroupId.toUInt64, int16 x.header.fecK.toNat, int16 x.header.fecN.toNat, index x,
      payload x⟩]
  else []

section Arrive

variable {p : Setup} {g : FECGenerator} {x : Datagram}

theorem arrive_seen (hx : Fits p x) (h : g.usedMarks (index x) = true) :
    arrive g x.header x.data = some (g, []) := by
  have hidx := hx.index
  have hb := p.bound
  rw [index] at h hidx
  simp only [arrive, h]
  rw [if_neg (by omega), if_neg (by simp)]

theorem arrive_fresh (hg : Runs p g) (hx : Fits p x) (h : g.usedMarks (index x) = false) :
    arrive g x.header x.data = some (accept p g x, handOn p g x) := by
  have hidx := hx.index
  have hb : p.n ≤ 128 := p.bound
  have hint : int16 (index x) = index x := int16_of_small (by omega) (by omega)
  have hcopy : copyBytes (g.inputData (index x)) (buffer x.data) x.header.length.toNat =
      copyBytes (g.inputData (index x)) (buffer (payload x)) (payload x).length := by
    rw [hx.payload_length]
    funext b
    simp only [copyBytes]
    split
    · next hb => exact buffer_payload hb
    · rfl
  simp only [index] at hidx hint hcopy h
  simp only [arrive, h, accept, handOn, index, hcopy, hg.fecK, hint, Nat.cast_lt]
  rw [if_neg (by simp only [kMaxN]; omega), if_pos trivial, if_pos ⟨hx.length, hx.data⟩]
  by_cases hk : x.header.fecIndex.toNat < p.k
  · simp only [hk, if_true, payload]
  · simp only [hk, if_false]

theorem accept_runs (hg : Runs p g) : Runs p (accept p g x) := ⟨hg.code, hg.fecK, hg.fecN, hg.size⟩

end Arrive

/-- A decoder that holds nothing of group `id`. -/
def Vacant (g : FECGenerator) (id : UInt32) : Prop :=
  g.lastGroupId = id → g.packetCount = 0 ∧ g.rawPacketCount = 0 ∧ g.usedMarks = fun _ => false

section Enter

variable {p : Setup} {g : FECGenerator} {header : TESTFECHeader}

/-- A packet of the current group changes `last_packet_size` only; one of another group
also forgets what is there. -/
theorem enterGroup_eq (header : TESTFECHeader) : ∃ size, ∀ g : FECGenerator,
    (g.lastGroupId = header.fecGroupId → enterGroup g header = { g with lastPacketSize := size }) ∧
    (g.lastGroupId ≠ header.fecGroupId → enterGroup g header =
      { clear g with lastPacketSize := size, lastGroupId := header.fecGroupId }) := by
  have hclear : ∀ (g : FECGenerator) (size : Int), g.lastGroupId ≠ header.fecGroupId →
      (if header.fecGroupId ≠ g.lastGroupId then
        { clear { g with lastPacketSize := size } with lastGroupId := header.fecGroupId }
      else { g with lastPacketSize := size }) =
      { clear g with lastPacketSize := size, lastGroupId := header.fecGroupId } :=
    fun _ _ h => if_pos (Ne.symm h)
  refine ⟨int16 header.lastPacketSize.toNat, fun g => ⟨?_, hclear g _⟩⟩
  intro h
  simp [enterGroup, h]

theorem enterGroup_same (h : g.lastGroupId = header.fecGroupId) :
    ∃ size, enterGroup g header = { g with lastPacketSize := size } := by
  obtain ⟨size, heq⟩ := enterGroup_eq header
  exact ⟨size, (heq g).1 h⟩

theorem enterGroup_other (h : g.lastGroupId ≠ header.fecGroupId) :
    ∃ size, enterGroup g header =
      { clear g with lastPacketSize := size, lastGroupId := header.fecGroupId } := by
  obtain ⟨size, heq⟩ := enterGroup_eq header
  exact ⟨size, (heq g).2 h⟩

theorem enterGroup_runs (hg : Runs p g) : Runs p (enterGroup g header) := by
  by_cases h : g.lastGroupId = header.fecGroupId
  · obtain ⟨size, he⟩ := enterGroup_same h
    exact he ▸ ⟨hg.code, hg.fecK, hg.fecN, hg.size⟩
  · obtain ⟨size, he⟩ := enterGroup_other h
    exact he ▸ ⟨hg.code, hg.fecK, hg.fecN, hg.size⟩

@[simp] theorem enterGroup_group : (enterGroup g header).lastGroupId = header.fecGroupId := by
  by_cases h : g.lastGroupId = header.fecGroupId
  · obtain ⟨size, he⟩ := enterGroup_same h
    rw [he, h]
  · obtain ⟨size, he⟩ := enterGroup_other h
    rw [he]

@[simp] theorem enterGroup_inputData : (enterGroup g header).inputData = g.inputData := by
  by_cases h : g.lastGroupId = header.fecGroupId
  · obtain ⟨size, he⟩ := enterGroup_same h
    rw [he]
  · obtain ⟨size, he⟩ := enterGroup_other h
    rw [he, clear]

theorem enterGroup_vacant (h : Vacant g header.fecGroupId) :
    (enterGroup g header).packetCount = 0 ∧ (enterGroup g header).rawPacketCount = 0 ∧
      (enterGroup g header).usedMarks = fun _ => false := by
  by_cases hg : g.lastGroupId = header.fecGroupId
  · obtain ⟨size, he⟩ := enterGroup_same hg
    rw [he]
    exact h hg
  · obtain ⟨size, he⟩ := enterGroup_other hg
    rw [he]
    exact ⟨rfl, rfl, rfl⟩

/-- Entering a group twice is entering it once. -/
theorem enterGroup_idem : enterGroup (enterGroup g header) header = enterGroup g header := by
  obtain ⟨size, heq⟩ := enterGroup_eq header
  rw [(heq (enterGroup g header)).1 enterGroup_group]
  by_cases h : g.lastGroupId = header.fecGroupId
  · rw [(heq g).1 h]
  · rw [(heq g).2 h]

end Enter

theorem decode_eq {g g₁ g₂ : FECGenerator} {x : Datagram} {out out' : List Callback}
    (ha : arrive (enterGroup g x.header) x.header x.data = some (g₁, out))
    (hr : recover g₁ = some (g₂, out')) : decode g x.header x.data = some (g₂, out ++ out') := by
  simp [decode, ha, hr]

end FecDecoder
