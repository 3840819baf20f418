import TransportDemo.NackWatch

/-!
# Bounded list, bounded requests

The list never outgrows its limit, an entry carries its own key, and its
counter says how often the number was asked for since it was inserted. The
counter dies at 20, so no number is asked for more often between two
insertions.
-/

namespace NackBudget

open OrderedMap NackGen NackWatch StepTrace

/-- The generator after a call. -/
def next (g : NackGenerator) : Call → NackGenerator
  | .receivePacket seq => (receivePacket g seq).2
  | .getNackBatch nowMs => (getNackBatch g nowMs).2
  | .updateRtt rtt => updateRtt g rtt

/-- The numbers the call asks for. -/
def requests (g : NackGenerator) : Call → List UInt16
  | .receivePacket _ => []
  | .getNackBatch nowMs => (getNackBatch g nowMs).1
  | .updateRtt _ => []

/-- The call inserts an entry for `s`. -/
def Inserts (g : NackGenerator) (c : Call) (s : UInt16) : Prop :=
  (g.nackList.find s).isNone ∧ ((next g c).nackList.find s).isSome

instance (g : NackGenerator) (c : Call) (s : UInt16) : Decidable (Inserts g c s) :=
  inferInstanceAs (Decidable (_ ∧ _))

/-- A generator together with an observer's count, for each number, of the requests since the
last insertion, and the clock reading of the last of them. -/
structure Asked where
  gen : NackGenerator
  count : UInt16 → Nat
  last : UInt16 → Option UInt64

def ask (a : Asked) (c : Call) : Asked where
  gen := next a.gen c
  count s :=
    if Inserts a.gen c s then 0
    else if s ∈ requests a.gen c then a.count s + 1 else a.count s
  last s :=
    if Inserts a.gen c s then none
    else match c with
      | .getNackBatch nowMs => if s ∈ requests a.gen c then some nowMs else a.last s
      | _ => a.last s

/-- The state after the calls, from the constructor on. -/
def asked (calls : List Call) : Asked := run ask ⟨new, fun _ => 0, fun _ => none⟩ calls

/-! ### Sizes -/

theorem size_emplaceRange_le (m : Map UInt16 NackInfo) (seqStart seqEnd : UInt16) :
    (emplaceRange m seqStart seqEnd).size ≤ m.size + (seqEnd - seqStart).toNat := by
  fun_induction emplaceRange m seqStart seqEnd with
  | case1 m => simp
  | case2 m seqStart h ih =>
    have hone := size_emplace_le m seqStart ⟨seqStart, seqStart, 0, 0⟩
    have hne : seqStart.toNat ≠ seqEnd.toNat := fun hs => h (UInt16.toNat_inj.mp hs)
    have hs := seqStart.toNat_lt
    have he := seqEnd.toNat_lt
    simp only [UInt16.toNat_sub, UInt16.toNat_add, UInt16.toNat_one] at ih ⊢
    omega

theorem size_addPackets_le (m : Map UInt16 NackInfo) (seqStart seqEnd : UInt16) :
    (addPacketsToNackList m seqStart seqEnd).size ≤ MaxNackPackets := by
  rw [addPacketsToNackList]
  split
  case isTrue => simp
  case isFalse hfew =>
    have hle := size_emplaceRange_le (pruned m seqEnd) seqStart seqEnd
    simp only [tooMany, decide_eq_true_eq, not_lt] at hfew
    omega

/-! ### The invariant -/

/-- What an entry of key `s` looks like. -/
structure Proper (s : UInt16) (info : NackInfo) : Prop where
  seq : info.seq = s
  sendAtSeq : info.sendAtSeq = s
  retries : info.retries < MaxNackRetries

/-- The list is within its limit and its entries are proper. -/
structure Bounded (g : NackGenerator) : Prop where
  size : g.nackList.size ≤ MaxNackPackets
  proper : ∀ s info, g.nackList.find s = some info → Proper s info

/-- An entry without requests has no time stamp, and only such an entry. -/
def Stamped (g : NackGenerator) : Prop :=
  ∀ s info, g.nackList.find s = some info → (info.retries = 0 ↔ info.sentAtMs = 0)

/-- Where the keys lie: above the threshold of the last pruning, or, when that has wrapped, below
the last number. -/
def Windowed (g : NackGenerator) : Prop :=
  (g.started = false → ∀ s, g.nackList.find s = none) ∧
    ∀ s, (g.nackList.find s).isSome →
      ¬ s < g.lastSeq - MaxPacketAge ∨ g.lastSeq < MaxPacketAge ∧ s < g.lastSeq

/-- The counter of an entry is the number of its requests. -/
def Counted (a : Asked) : Prop :=
  ∀ s, a.count s ≤ MaxNackRetries.toNat ∧
    ∀ info, a.gen.nackList.find s = some info → info.retries.toNat = a.count s

theorem fresh_proper (s : UInt16) : Proper s ⟨s, s, 0, 0⟩ := 
  ⟨rfl, rfl, (by decide : (0 : UInt8) < MaxNackRetries)⟩

theorem windowed_receive {g : NackGenerator} (h : Windowed g) (seq : UInt16) :
    Windowed (receivePacket g seq).2 := by
  cases hs : g.started with
  | false =>
    rw [receive_first seq hs]
    exact ⟨by simp, fun s hf => by simp [h.1 hs s] at hf⟩
  | true =>
    by_cases hadv : Advances g seq
    · have hgen := receive_advance hadv
      refine ⟨by simp [hgen, hs], fun s hf => ?_⟩
      by_cases hroom : Overflows g seq
      · simp [find_receive_overflow hroom] at hf
      rw [find_receive_advance hadv hroom] at hf
      rw [hgen]
      dsimp only
      by_cases hskip : Skips g seq s
      · obtain ⟨-, hpos, hlt⟩ := hskip
        have hle := age_le_of_room hadv hroom
        have hmax : MaxPacketAge.toNat = 10000 := rfl
        have hnum : MaxNackPackets = 1000 := rfl
        have hs := s.toNat_lt
        have hq := seq.toNat_lt
        have hl := g.lastSeq.toNat_lt
        simp only [age_eq, hnum, UInt16.lt_iff_toNat_lt, UInt16.toNat_sub, hmax] at hpos hlt hle ⊢
        omega
      · by_cases hcut : s < seq - MaxPacketAge
        · simp [hskip, hcut] at hf
        · exact .inl hcut
    · obtain ⟨hlast, hstarted, hfind⟩ := receive_stay hadv hs
      refine ⟨by simp [hstarted], fun s hf => ?_⟩
      rw [hfind] at hf
      rw [hlast]
      split at hf
      · simp at hf
      · exact h.2 s hf

/-- An entry that is skipped again was not pruned by the same packet. -/
theorem kept_of_skipped {g : NackGenerator} (h : Windowed g) {seq s : UInt16}
    (hroom : ¬ Overflows g seq) (hskip : Skips g seq s) (hf : (g.nackList.find s).isSome) :
    ¬ s < seq - MaxPacketAge := by
  obtain ⟨hadv, hpos, hlt⟩ := hskip
  have hle := age_le_of_room hadv hroom
  have hwin := h.2 s hf
  have hmax : MaxPacketAge.toNat = 10000 := rfl
  have hnum : MaxNackPackets = 1000 := rfl
  have hs := s.toNat_lt
  have hq := seq.toNat_lt
  have hl := g.lastSeq.toNat_lt
  simp only [age_eq, hnum, UInt16.lt_iff_toNat_lt, UInt16.toNat_sub, hmax] at hpos hlt hle hwin ⊢
  omega

/-- After a packet an entry is the one that was there, or a new one for a number that was not. -/
theorem receive_entry {g : NackGenerator} (h : Windowed g) {seq s : UInt16} {info : NackInfo}
    (hf : (receivePacket g seq).2.nackList.find s = some info) :
    g.nackList.find s = some info ∨ g.nackList.find s = none ∧ info = ⟨s, s, 0, 0⟩ := by
  cases hs : g.started with
  | false =>
    rw [receive_first seq hs] at hf
    exact .inl hf
  | true =>
    by_cases hadv : Advances g seq
    · by_cases hroom : Overflows g seq
      · simp [find_receive_overflow hroom] at hf
      rw [find_receive_advance hadv hroom] at hf
      by_cases hskip : Skips g seq s
      · cases hold : g.nackList.find s with
        | none =>
          right
          simpa [hskip, find_pruned, hold, eq_comm] using hf
        | some old =>
          left
          have hcut := kept_of_skipped h hroom hskip (by simp [hold])
          simpa [hskip, find_pruned, hcut, hold] using hf
      · by_cases hcut : s < seq - MaxPacketAge
        · simp [hskip, hcut] at hf
        · left
          simpa [hskip, hcut] using hf
    · rw [(receive_stay hadv hs).2.2] at hf
      split at hf
      · cases hf
      · exact .inl hf

theorem bounded_receive {g : NackGenerator} (h : Bounded g) (hw : Windowed g) (seq : UInt16) :
    Bounded (receivePacket g seq).2 where
  size := by
    cases hs : g.started with
    | false =>
      rw [receive_first seq hs]
      exact h.size
    | true =>
      by_cases hadv : Advances g seq
      · rw [receive_advance hadv]
        exact size_addPackets_le _ _ _
      · refine (size_le_of_keys fun k hk => ?_).trans h.size
        rw [(receive_stay hadv hs).2.2] at hk
        split at hk
        · simp at hk
        · exact hk
  proper s info hf := by
    cases receive_entry hw hf with
    | inl hold => exact h.proper s info hold
    | inr hnew => exact hnew.2 ▸ fresh_proper s

theorem stamped_receive {g : NackGenerator} (h : Stamped g) (hw : Windowed g) (seq : UInt16) :
    Stamped (receivePacket g seq).2 := by
  intro s info hf
  cases receive_entry hw hf with
  | inl hold => exact h s info hold
  | inr hnew => simp [hnew.2]

theorem bounded_batch {g : NackGenerator} (h : Bounded g) (nowMs : UInt64) :
    Bounded (getNackBatch g nowMs).2 where
  size := by
    refine (size_le_of_keys fun k hk => ?_).trans h.size
    rw [find_getNackBatch] at hk
    cases hf : g.nackList.find k with
    | none => simp [hf] at hk
    | some info => rfl
  proper s info hf := by
    rw [find_getNackBatch] at hf
    obtain ⟨old, hold, hv⟩ := Option.bind_eq_some_iff.mp hf
    obtain ⟨hseq, hsend, hretries⟩ := h.proper s old hold
    simp only [visit] at hv
    split at hv
    · split at hv
      · cases hv
      case isFalse hfew =>
        cases hv
        exact ⟨hseq, hsend, UInt8.not_le.mp hfew⟩
    · cases hv
      exact ⟨hseq, hsend, hretries⟩

theorem windowed_batch {g : NackGenerator} (h : Windowed g) (nowMs : UInt64) :
    Windowed (getNackBatch g nowMs).2 := by
  refine ⟨fun hs s => ?_, fun s hf => h.2 s ?_⟩
  · simp [find_getNackBatch, h.1 hs s]
  · rw [find_getNackBatch] at hf
    cases hold : g.nackList.find s with
    | none => simp [hold] at hf
    | some info => rfl

theorem stamped_batch {g : NackGenerator} (h : Bounded g) (hs : Stamped g) {nowMs : UInt64}
    (hnow : nowMs ≠ 0) : Stamped (getNackBatch g nowMs).2 := by
  intro s info hf
  rw [find_getNackBatch] at hf
  obtain ⟨old, hold, hv⟩ := Option.bind_eq_some_iff.mp hf
  simp only [visit] at hv
  split at hv
  · split at hv
    · cases hv
    · cases hv
      have hlt : old.retries.toNat < 20 := (h.proper s old hold).retries
      have hpos : old.retries + 1 ≠ 0 := by
        rw [ne_eq, ← UInt8.toNat_inj]
        simp only [UInt8.toNat_add, UInt8.toNat_one]
        change _ ≠ 0
        omega
      simp [hpos, hnow]
  · cases hv
    exact hs s info hold

/-! ### Counting the requests -/

theorem mem_requests {g : NackGenerator} (h : Bounded g) (nowMs : UInt64) (s : UInt16) :
    s ∈ requests g (.getNackBatch nowMs) ↔
      ∃ info, g.nackList.find s = some info ∧ isDue g.rtt nowMs info = true :=
  mem_batch (fun s info hf => (h.proper s info hf).seq) nowMs s

theorem not_inserts_batch (g : NackGenerator) (nowMs : UInt64) (s : UInt16) :
    ¬ Inserts g (.getNackBatch nowMs) s := by
  rintro ⟨hnone, hsome⟩
  simp [next, find_getNackBatch, Option.isNone_iff_eq_none.mp hnone] at hsome

theorem counted_receive {a : Asked} (h : Counted a) (hw : Windowed a.gen) (seq : UInt16) :
    Counted (ask a (.receivePacket seq)) := by
  intro s
  by_cases hins : Inserts a.gen (.receivePacket seq) s
  · refine ⟨by simp [ask, hins], fun info hf => ?_⟩
    cases receive_entry hw hf with
    | inl hold => simp [Inserts, hold] at hins
    | inr hnew => simp [ask, hins, hnew.2]
  · refine ⟨by simpa [ask, hins, requests] using (h s).1, fun info hf => ?_⟩
    cases receive_entry hw hf with
    | inl hold => simpa [ask, hins, requests] using (h s).2 info hold
    | inr hnew => exact absurd ⟨by simp [hnew.1], Option.isSome_of_eq_some hf⟩ hins

theorem counted_batch {a : Asked} (h : Counted a) (hb : Bounded a.gen) (nowMs : UInt64) :
    Counted (ask a (.getNackBatch nowMs)) := by
  intro s
  have hins := not_inserts_batch a.gen nowMs s
  by_cases hs : s ∈ requests a.gen (.getNackBatch nowMs)
  · obtain ⟨info, hf, hdue⟩ := (mem_requests hb nowMs s).mp hs
    have hcount := (h s).2 info hf
    have hlt : info.retries.toNat < 20 := (hb.proper s info hf).retries
    have hmax : MaxNackRetries.toNat = 20 := rfl
    refine ⟨by simp only [ask, hins, hs, if_true, if_false]; omega, fun kept hk => ?_⟩
    simp only [ask, next, find_getNackBatch, hf, Option.bind_some, visit, hdue, if_true] at hk
    split at hk
    · cases hk
    · cases hk
      simp only [ask, hins, hs, if_true, if_false, UInt8.toNat_add, UInt8.toNat_one]
      omega
  · refine ⟨by simpa [ask, hins, hs] using (h s).1, fun kept hk => ?_⟩
    simp only [ask, next, find_getNackBatch] at hk
    obtain ⟨info, hf, hv⟩ := Option.bind_eq_some_iff.mp hk
    have hdue : isDue a.gen.rtt nowMs info ≠ true :=
      fun hdue => hs ((mem_requests hb nowMs s).mpr ⟨info, hf, hdue⟩)
    simp only [visit, hdue, if_false, Bool.false_eq_true] at hv
    cases hv
    simpa [ask, hins, hs] using (h s).2 kept hf

/-- What every call keeps. -/
structure Budgeted (a : Asked) : Prop where
  bounded : Bounded a.gen
  windowed : Windowed a.gen
  counted : Counted a

theorem budgeted_step {a : Asked} (h : Budgeted a) (c : Call) : Budgeted (ask a c) := by
  cases c with
  | receivePacket seq =>
    exact ⟨bounded_receive h.bounded h.windowed seq, windowed_receive h.windowed seq,
      counted_receive h.counted h.windowed seq⟩
  | getNackBatch nowMs =>
    exact ⟨bounded_batch h.bounded nowMs, windowed_batch h.windowed nowMs,
      counted_batch h.counted h.bounded nowMs⟩
  | updateRtt rtt =>
    refine ⟨⟨h.bounded.size, h.bounded.proper⟩, h.windowed, fun s => ?_⟩
    have hins : ¬ Inserts a.gen (.updateRtt rtt) s := by
      rintro ⟨hnone, hsome⟩
      simp [next, updateRtt, Option.isNone_iff_eq_none.mp hnone] at hsome
    have hcount := h.counted s
    simpa [ask, hins, requests, next, updateRtt] using hcount

theorem start_budgeted : Budgeted ⟨new, fun _ => 0, fun _ => none⟩ where
  bounded := ⟨by simp [new], fun s info hf => by simp [new] at hf⟩
  windowed := ⟨fun _ s => by simp [new], fun s hf => by simp [new] at hf⟩
  counted s := ⟨by simp, fun info hf => by simp [new] at hf⟩

theorem asked_budgeted (calls : List Call) : Budgeted (asked calls) :=
  run_inv start_budgeted (fun _ c h => budgeted_step h c) calls

/-- When the clock never reads zero the time stamps follow the counters. -/
theorem asked_stamped {calls : List Call} (hclock : ∀ c ∈ calls, c ≠ .getNackBatch 0) :
    Stamped (asked calls).gen := by
  induction calls using List.reverseRecOn with
  | nil =>
    intro s info hf
    simp [asked, new] at hf
  | append_singleton calls c ih =>
    have hs := ih fun c' hc' => hclock c' (by simp [hc'])
    have hb := asked_budgeted calls
    rw [asked, run_concat]
    cases c with
    | receivePacket seq => exact stamped_receive hs hb.windowed seq
    | getNackBatch nowMs =>
      refine stamped_batch hb.bounded hs fun hz => hclock (.getNackBatch nowMs) (by simp) ?_
      rw [hz]
    | updateRtt rtt => exact hs

/-- The batch is the list of the keys whose entries are due. -/
theorem batch_eq {g : NackGenerator} (h : ∀ s info, g.nackList.find s = some info → info.seq = s)
    (nowMs : UInt64) : (getNackBatch g nowMs).1 =
      (g.nackList.entries.filter fun e => isDue g.rtt nowMs e.2).map Prod.fst := by
  have hseq : ∀ e ∈ g.nackList.entries, e.2.seq = e.1 := fun e he => h _ _ (mem_entries.mp he)
  simp only [getNackBatch, walk_emits, visit_emits]
  generalize g.nackList.entries = l at hseq
  induction l with
  | nil => rfl
  | cons e rest ih =>
    have hrest := ih fun d hd => hseq d (List.mem_cons_of_mem e hd)
    by_cases hdue : isDue g.rtt nowMs e.2 = true
    · simp [hdue, hrest, hseq e]
    · simp [hdue, hrest]

theorem batch_sorted {g : NackGenerator}
    (h : ∀ s info, g.nackList.find s = some info → info.seq = s) (nowMs : UInt64) :
    (getNackBatch g nowMs).1.Pairwise (· < ·) := by
  rw [batch_eq h]
  exact (keys_sorted g.nackList).sublist (List.filter_sublist.map Prod.fst)

/-- Every run with nonzero clock readings keeps the list bounded and its entries proper, leaves
the counters of surviving entries to the batches, asks in ascending order, and asks for no number
more than 20 times between two insertions. -/
theorem requests_bounded (calls : List Call) (hclock : ∀ c ∈ calls, c ≠ .getNackBatch 0) :
    ∀ done, done <+: calls →
      Bounded (asked done).gen ∧ Stamped (asked done).gen ∧
      (∀ seq s old kept, (asked done).gen.nackList.find s = some old →
        (receivePacket (asked done).gen seq).2.nackList.find s = some kept →
        kept.retries = old.retries ∧ kept.sentAtMs = old.sentAtMs) ∧
      (∀ nowMs, (getNackBatch (asked done).gen nowMs).1.Pairwise (· < ·)) ∧
      ∀ s, (asked done).count s ≤ MaxNackRetries.toNat := by
  intro done hd
  obtain ⟨hbounded, hwindowed, hcounted⟩ := asked_budgeted done
  refine ⟨hbounded, asked_stamped fun c hc => hclock c (hd.subset hc),
    fun seq s old kept hold hkept => ?_, fun nowMs => ?_, fun s => (hcounted s).1⟩
  · cases receive_entry hwindowed hkept with
    | inl hsame =>
      rw [hold] at hsame
      cases hsame
      exact ⟨rfl, rfl⟩
    | inr hnew => simp [hold] at hnew
  · exact batch_sorted (fun s info hf => (hbounded.proper s info hf).seq) nowMs

/-- Packets 1 and 3 and one batch at clock reading 5. -/
theorem requests_bounded_of_gap :
    Bounded (asked [.receivePacket 1, .receivePacket 3, .getNackBatch 5]).gen ∧
      Stamped (asked [.receivePacket 1, .receivePacket 3, .getNackBatch 5]).gen ∧
      (asked [.receivePacket 1, .receivePacket 3, .getNackBatch 5]).count 2 ≤
        MaxNackRetries.toNat :=
  have h := requests_bounded [.receivePacket 1, .receivePacket 3, .getNackBatch 5] (by decide) _
    List.prefix_rfl
  ⟨h.1, h.2.1, h.2.2.2.2 2⟩

end NackBudget
