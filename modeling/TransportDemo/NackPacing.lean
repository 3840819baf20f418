import TransportDemo.NackBudget

/-!
# Pacing of repeated requests

A number is asked for again only after a fraction of the round-trip time. The
interval survives the rounding of the code's divisions. The elapsed time is an
unsigned difference of clock readings, so it is right exactly while the clock
does not go back.
-/

namespace NackPacing

open DoubleRounding OrderedMap NackGen NackWatch NackBudget StepTrace

/-- The divisor of the round-trip time after `r` requests. -/
def divisor (r : Nat) : ℚ := if r = 1 then 7 / 5 else if r = 2 then 9 / 5 else 2

/-- The least interval before the next request. -/
def pace (rtt : UInt32) (r : Nat) : Nat := ⌊rtt.toNat / divisor r⌋₊

/-- A batch asks again only after the interval has passed. -/
def Paced (a : Asked) : Call → Prop
  | .getNackBatch nowMs => ∀ s ∈ requests a.gen (.getNackBatch nowMs), ∀ before,
      a.last s = some before →
      1 ≤ a.count s ∧ before.toNat + pace a.gen.rtt (a.count s) ≤ nowMs.toNat
  | _ => True

/-- The clock has not gone back since a number that is due again was asked for. -/
def Steady (a : Asked) : Call → Prop
  | .getNackBatch nowMs => ∀ s info, a.gen.nackList.find s = some info →
      isDue a.gen.rtt nowMs info = true → ∀ before, a.last s = some before → before ≤ nowMs
  | _ => True

/-! ### The divisors in double precision -/

theorem divisors : calculateRttLimit2SendNack 1 = 3152519739159347 / 2251799813685248 ∧
    calculateRttLimit2SendNack 2 = 8106479329266893 / 4503599627370496 := by
  decide +kernel

/-- The computed divisor is at least 1 and exceeds the exact one by at most one part in 2^55. -/
theorem divisor_close {r : Nat} (hr : 1 ≤ r) :
    1 ≤ calculateRttLimit2SendNack r ∧
      calculateRttLimit2SendNack r * (1 - 1 / 2 ^ 55) ≤ divisor r := by
  by_cases h₁ : r = 1
  · subst h₁
    rw [divisors.1, divisor]
    norm_num
  · by_cases h₂ : r = 2
    · subst h₂
      rw [divisors.2, divisor]
      norm_num
    · have hlarge : ¬ r < 3 := by omega
      simp only [calculateRttLimit2SendNack, hlarge, divisor, h₁, h₂, if_false]
      norm_num

theorem divisor_pos (r : Nat) : 0 < divisor r := by
  rw [divisor]
  split_ifs <;> norm_num

/-- The truncated double division is never below the exact one. -/
theorem pace_le_limitVar (rtt : UInt32) (retries : UInt8) (hr : 1 ≤ retries.toNat) :
    pace rtt retries.toNat ≤ (limitVar rtt retries).toNat := by
  obtain ⟨hone, hclose⟩ := divisor_close hr
  have hrtt : (rtt.toNat : ℚ) < 2 ^ 32 := by exact_mod_cast rtt.toNat_lt
  have hrtt0 : (0 : ℚ) ≤ rtt.toNat := Nat.cast_nonneg _
  by_cases hzero : rtt.toNat = 0
  · simp [pace, hzero]
  have hquot : (0 : ℚ) < rtt.toNat / calculateRttLimit2SendNack retries.toNat := by
    have : (0 : ℚ) < rtt.toNat := by exact_mod_cast Nat.pos_of_ne_zero hzero
    positivity
  have hle : (rtt.toNat : ℚ) / calculateRttLimit2SendNack retries.toNat ≤ rtt.toNat :=
    div_le_self hrtt0 hone
  have hlt : (rtt.toNat : ℚ) / calculateRttLimit2SendNack retries.toNat < 2 ^ 53 := by
    linarith
  have hshort : (pace rtt retries.toNat : ℚ) * (1 - 1 / 2 ^ 55) ≤
      rtt.toNat / calculateRttLimit2SendNack retries.toNat := by
    have hfloor : (pace rtt retries.toNat : ℚ) ≤ rtt.toNat / divisor retries.toNat :=
      Nat.floor_le (div_nonneg hrtt0 (divisor_pos _).le)
    rw [le_div_iff₀ (by linarith)]
    rw [le_div_iff₀ (divisor_pos _)] at hfloor
    calc (pace rtt retries.toNat : ℚ) * (1 - 1 / 2 ^ 55) * calculateRttLimit2SendNack retries.toNat
        = pace rtt retries.toNat * (calculateRttLimit2SendNack retries.toNat * (1 - 1 / 2 ^ 55)) := by
          ring
      _ ≤ pace rtt retries.toNat * divisor retries.toNat := by gcongr
      _ ≤ rtt.toNat := hfloor
  have hfloor := Nat.le_floor (le_double hquot hlt hshort)
  have hbound := double_le hquot hlt
  have hfit : ⌊double (rtt.toNat / calculateRttLimit2SendNack retries.toNat)⌋₊ < 2 ^ 64 := by
    refine (Nat.floor_lt' (by norm_num)).mpr ?_
    push_cast
    linarith
  rw [limitVar, UInt64.toNat_ofNat_of_lt' (by simpa using hfit)]
  exact hfloor

/-! ### The pacing -/

/-- A number that was asked for since its insertion carries the reading of the last request. -/
def Timed (a : Asked) : Prop :=
  ∀ s before, a.last s = some before → 1 ≤ a.count s ∧
    ∀ info, a.gen.nackList.find s = some info → info.sentAtMs = before

theorem timed_step {a : Asked} (ht : Timed a) (hb : Budgeted a) (c : Call) : Timed (ask a c) := by
  intro s before hlast
  by_cases hins : Inserts a.gen c s
  · simp [ask, hins] at hlast
  cases c with
  | receivePacket seq =>
    simp only [ask, hins, if_false, requests, List.not_mem_nil] at hlast ⊢
    refine ⟨(ht s before hlast).1, fun info hf => ?_⟩
    cases receive_entry hb.windowed hf with
    | inl hold => exact (ht s before hlast).2 info hold
    | inr hnew => exact absurd ⟨by simp [hnew.1], Option.isSome_of_eq_some hf⟩ hins
  | getNackBatch nowMs =>
    simp only [ask, hins, if_false] at hlast ⊢
    by_cases hs : s ∈ requests a.gen (.getNackBatch nowMs)
    · obtain ⟨info, hf, hdue⟩ := (mem_requests hb.bounded nowMs s).mp hs
      simp only [hs, if_true, Option.some.injEq] at hlast ⊢
      refine ⟨by omega, fun kept hk => ?_⟩
      simp only [next, find_getNackBatch, hf, Option.bind_some, visit, hdue, if_true] at hk
      split at hk
      · cases hk
      · cases hk
        exact hlast
    · simp only [hs, if_false] at hlast ⊢
      refine ⟨(ht s before hlast).1, fun kept hk => ?_⟩
      simp only [next, find_getNackBatch] at hk
      obtain ⟨info, hf, hv⟩ := Option.bind_eq_some_iff.mp hk
      have hdue : isDue a.gen.rtt nowMs info ≠ true :=
        fun hdue => hs ((mem_requests hb.bounded nowMs s).mpr ⟨info, hf, hdue⟩)
      simp only [visit, hdue, if_false, Bool.false_eq_true] at hv
      cases hv
      exact (ht s before hlast).2 kept hf
  | updateRtt rtt =>
    simp only [ask, hins, if_false, requests, List.not_mem_nil] at hlast ⊢
    exact ht s before hlast

theorem asked_timed (calls : List Call) : Timed (asked calls) := by
  induction calls using List.reverseRecOn with
  | nil =>
    intro s before hlast
    simp [asked] at hlast
  | append_singleton calls c ih =>
    rw [asked, run_concat]
    exact timed_step ih (asked_budgeted calls) c

/-- An unsigned difference is the elapsed time when the clock has not gone back. -/
theorem elapsed {now before limit : UInt64} (h : before ≤ now) (hdue : limit ≤ now - before) :
    before.toNat + limit.toNat ≤ now.toNat := by
  have hsub := UInt64.toNat_sub_of_le now before h
  have hle : limit.toNat ≤ (now - before).toNat := hdue
  have hle' : before.toNat ≤ now.toNat := h
  omega

theorem paced_call {a : Asked} (ht : Timed a) (hb : Budgeted a) (c : Call) :
    Paced a c ↔ Steady a c := by
  cases c with
  | receivePacket seq => exact Iff.rfl
  | updateRtt rtt => exact Iff.rfl
  | getNackBatch nowMs =>
    constructor
    · intro hp s info hf hdue before hlast
      have hs : s ∈ requests a.gen (.getNackBatch nowMs) :=
        (mem_requests hb.bounded nowMs s).mpr ⟨info, hf, hdue⟩
      have hpaced := (hp s hs before hlast).2
      exact UInt64.le_iff_toNat_le.mpr (by omega)
    · intro hsteady s hs before hlast
      obtain ⟨info, hf, hdue⟩ := (mem_requests hb.bounded nowMs s).mp hs
      obtain ⟨hone, hsent⟩ := ht s before hlast
      have hcount := (hb.counted s).2 info hf
      have hlimit := pace_le_limitVar a.gen.rtt info.retries (by omega)
      have hwait : limitVar a.gen.rtt info.retries ≤ nowMs - before := by
        simpa [isDue, hsent info hf] using hdue
      have helapsed := elapsed (hsteady s info hf hdue before hlast) hwait
      rw [hcount] at hlimit
      exact ⟨hone, by omega⟩

/-- In every run the repeated requests keep their distance exactly if the clock does not go back
behind a request that is repeated. -/
theorem paced_iff_steady (calls : List Call) :
    (∀ done c, done ++ [c] <+: calls → Paced (asked done) c) ↔
      ∀ done c, done ++ [c] <+: calls → Steady (asked done) c := by
  constructor
  · exact fun h done c hd => (paced_call (asked_timed done) (asked_budgeted done) c).mp (h done c hd)
  · exact fun h done c hd => (paced_call (asked_timed done) (asked_budgeted done) c).mpr (h done c hd)

/-- After packets 1 and 3 the number 2 is outstanding. -/
theorem asked_gap : (asked [.receivePacket 1, .receivePacket 3]).gen =
    ⟨Map.empty.emplace 2 ⟨2, 2, 0, 0⟩, true, 3, DefaultRtt⟩ := by
  have hfirst : (asked [.receivePacket 1]).gen = ⟨.empty, true, 1, DefaultRtt⟩ := rfl
  calc (asked [.receivePacket 1, .receivePacket 3]).gen
      = (receivePacket (asked [.receivePacket 1]).gen 3).2 :=
        congrArg Asked.gen (run_concat ask _ [.receivePacket 1] (.receivePacket 3))
    _ = _ := by
        rw [hfirst]
        exact receive_gap rfl rfl rfl

/-- A batch at reading 1000 and then, the clock set back, one at 500: number 2 is asked for
again at once. -/
theorem clock_back_repeats :
    ¬ ∀ calls done c, done ++ [c] <+: calls → Paced (asked done) c := by
  intro h
  have hb := asked_budgeted [.receivePacket 1, .receivePacket 3]
  have hgen := asked_gap
  have hnext := run_concat ask ⟨new, fun _ => 0, fun _ => none⟩
    [.receivePacket 1, .receivePacket 3] (.getNackBatch 1000)
  have hpaced := h _ ([Call.receivePacket 1, .receivePacket 3] ++ [Call.getNackBatch 1000])
    (.getNackBatch 500) List.prefix_rfl
  have hsteady := (paced_call (asked_timed _) (asked_budgeted _) _).mp hpaced
  rw [asked, hnext] at hsteady
  change Steady (ask (asked [.receivePacket 1, .receivePacket 3]) _) _ at hsteady
  generalize asked [.receivePacket 1, .receivePacket 3] = a at hb hgen hsteady
  have hasked : (2 : UInt16) ∈ requests a.gen (.getNackBatch 1000) := by
    rw [hgen]
    decide +kernel
  have hlast : (ask a (.getNackBatch 1000)).last 2 = some 1000 := by
    simp [ask, not_inserts_batch, hasked]
  have hfind : (ask a (.getNackBatch 1000)).gen.nackList.find 2 = some ⟨2, 2, 1000, 1⟩ := by
    simp only [ask, hgen]
    decide +kernel
  have hdue : isDue (ask a (.getNackBatch 1000)).gen.rtt 500 ⟨2, 2, 1000, 1⟩ = true := by
    simp only [ask, hgen]
    decide +kernel
  exact absurd (hsteady 2 _ hfind hdue 1000 hlast) (by decide)

end NackPacing
