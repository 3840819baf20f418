import TransportDemo.NackBudget
import TransportDemo.NackReceiver

/-!
# What is charged is what is sent

A tick charges the retry counter of every entry that is due and sends one
packet for them. The packet holds 347 items, so the two sets agree exactly
when the greedy items of the due numbers fit.
-/

namespace NackCharge

open ByteBuffer HeadBlocks OrderedMap NackGen NackPacket NackRoundTrip NackBudget NackReceiver

/-- The entry of `s` is not what it was. -/
def Charged (g g' : NackGenerator) (s : UInt16) : Prop :=
  g.nackList.find s ≠ g'.nackList.find s

/-- The numbers that are due, in ascending order. -/
def dueKeys (g : NackGenerator) (nowMs : UInt64) : List UInt16 :=
  (g.nackList.entries.filter fun e => isDue g.rtt nowMs e.2).map Prod.fst

/-- The numbers that the reader decodes from the NACK packets among those sent. -/
def sentNumbers (sent : List TESTTPPacket) : List UInt16 :=
  (sent.filter fun p => getType p = TPYE_TRANSPORT_INFO).flatMap fun p =>
    (unpackingNack p []).value.2

theorem dueKeys_sorted (g : NackGenerator) (nowMs : UInt64) :
    (dueKeys g nowMs).Pairwise (· < ·) :=
  (keys_sorted g.nackList).sublist (List.filter_sublist.map Prod.fst)

theorem mem_dueKeys {g : NackGenerator} {nowMs : UInt64} {s : UInt16} :
    s ∈ dueKeys g nowMs ↔
      ∃ info, g.nackList.find s = some info ∧ isDue g.rtt nowMs info = true := by
  simp [dueKeys, mem_entries]

theorem retries_advance (retries : UInt8) : retries + 1 ≠ retries := by
  intro h
  have hn := congrArg UInt8.toNat h
  have hlt := retries.toNat_lt
  simp only [UInt8.toNat_add, UInt8.toNat_one] at hn
  omega

/-- The batch charges exactly the entries that are due. -/
theorem charged_iff (g : NackGenerator) (nowMs : UInt64) (s : UInt16) :
    Charged g (getNackBatch g nowMs).2 s ↔ s ∈ dueKeys g nowMs := by
  rw [mem_dueKeys, Charged, find_getNackBatch]
  cases hf : g.nackList.find s with
  | none => simp
  | some info =>
    by_cases hdue : isDue g.rtt nowMs info = true
    · refine iff_of_true (fun heq => ?_) ⟨info, rfl, hdue⟩
      simp only [Option.bind_some, visit, hdue, if_true] at heq
      split at heq
      · cases heq
      · exact retries_advance info.retries (congrArg NackInfo.retries (Option.some.inj heq)).symm
    · simp [visit, hdue]

/-- A packet for an ascending list carries all of it exactly if its items fit. -/
theorem carried_iff {l : List UInt16} (h : l.Pairwise (· < ·)) :
    (∀ s, s ∈ l ↔ s ∈ decoded l) ↔ (items l).length ≤ MAX_NACK_ITEM_NUM := by
  have hsplit := members_take near MAX_NACK_ITEM_NUM l
  constructor
  · intro hall
    by_contra hmany
    obtain ⟨b, hb⟩ : ∃ b, b ∈ (items l).drop MAX_NACK_ITEM_NUM := by
      refine List.exists_mem_of_ne_nil _ fun hnil => hmany ?_
      exact List.drop_eq_nil_iff.mp hnil
    have hdropped : b.1 ∈ members ((items l).drop MAX_NACK_ITEM_NUM) :=
      List.mem_flatMap.mpr ⟨b, hb, List.mem_cons_self⟩
    have hmem : b.1 ∈ l := hsplit ▸ List.mem_append_right _ hdropped
    have htaken := (mem_decoded l b.1).mp ((hall b.1).mp hmem)
    have hnodup : (members ((items l).take MAX_NACK_ITEM_NUM) ++
        members ((items l).drop MAX_NACK_ITEM_NUM)).Nodup := hsplit.symm ▸ h.imp ne_of_lt
    exact (List.nodup_append.mp hnodup).2.2 _ htaken _ hdropped rfl
  · intro hfew s
    rw [mem_decoded, List.take_of_length_le hfew, members_blocks]

/-! ### Reachable receivers -/

theorem reachable_sound {r : Receiver} (h : Reachable r) :
    Bounded r.nackgen ∧ Windowed r.nackgen := by
  induction h with
  | start timerMs => exact ⟨start_budgeted.bounded, start_budgeted.windowed⟩
  | @receive r pkt recvMs _ ih =>
    rw [handleReceiveFrom]
    split
    · split
      · exact ih
      · exact ih
    · exact ⟨bounded_receive ih.1 ih.2 _, windowed_receive ih.2 _⟩
  | @tick r r' sent t _ ht ih =>
    obtain ⟨probes, nack, next, hspec, -, -, hgen⟩ := tick_spec r t
    obtain ⟨-, rfl⟩ := Prod.mk.inj (Option.some.inj (hspec.symm.trans ht))
    rw [hgen]
    have hbatch : Bounded (atBatch r) ∧ Windowed (atBatch r) := by
      rw [atBatch, refreshRtt]
      split
      · exact ⟨⟨ih.1.size, ih.1.proper⟩, ih.2⟩
      · exact ih
    exact ⟨bounded_batch hbatch.1 _, windowed_batch hbatch.2 _⟩

theorem sentNumbers_tick {probes : List TESTTPPacket} {nack : TESTTPPacket} {l : List UInt16}
    {fresh : TESTTPPacket} (hprobes : ∀ p ∈ probes, getType p = TPYE_RTT)
    (hnack : packingNack fresh l = some nack) :
    sentNumbers (probes ++ if l.isEmpty then [] else [nack]) = decoded l := by
  obtain ⟨packet, hpacket, htype, hlen, hfield, hholds⟩ := packingNack_spec fresh l
  obtain rfl : packet = nack := Option.some.inj (hpacket.symm.trans hnack)
  have hskip : probes.filter (fun p => getType p = TPYE_TRANSPORT_INFO) = [] := by
    refine List.filter_eq_nil_iff.mpr fun p hp => ?_
    rw [hprobes p hp]
    decide
  rw [sentNumbers, List.filter_append, hskip, List.nil_append]
  cases l with
  | nil => simp [decoded]
  | cons x rest => simp [htype, unpacking_packed hlen hfield hholds]

theorem dueKeys_eq {r : Receiver} (h : Bounded r.nackgen) (nowMs : UInt64) :
    (getNackBatch (atBatch r) nowMs).1 = dueKeys (atBatch r) nowMs :=
  batch_eq (fun s info hf => (h.proper s info (by rwa [atBatch_nackList] at hf)).seq) nowMs

theorem tick_charged_iff {r r' : Receiver} {t : Tick} {sent : List TESTTPPacket}
    (h : Bounded r.nackgen) (ht : handleCrudeTimer r t = some (sent, r')) :
    (∀ s, Charged r.nackgen r'.nackgen s ↔ s ∈ sentNumbers sent) ↔
      (items (dueKeys (atBatch r) t.nowMs)).length ≤ MAX_NACK_ITEM_NUM := by
  obtain ⟨probes, nack, next, hspec, hprobes, hnack, hgen⟩ := tick_spec r t
  obtain ⟨rfl, rfl⟩ := Prod.mk.inj (Option.some.inj (hspec.symm.trans ht))
  have hcharged : ∀ s, Charged r.nackgen next.nackgen s ↔ s ∈ dueKeys (atBatch r) t.nowMs := by
    intro s
    rw [← charged_iff, Charged, Charged, atBatch_nackList, hgen]
  rw [sentNumbers_tick hprobes hnack, dueKeys_eq h]
  simp only [hcharged]
  exact carried_iff (dueKeys_sorted _ _)

/-- On every tick of every reachable receiver the numbers charged are the numbers sent exactly if
the items of the due numbers fit the packet. -/
theorem charged_sent_iff {r r' : Receiver} {t : Tick} {sent : List TESTTPPacket}
    (hr : Reachable r) (ht : handleCrudeTimer r t = some (sent, r')) :
    (∀ s, Charged r.nackgen r'.nackgen s ↔ s ∈ sentNumbers sent) ↔
      (items (dueKeys (atBatch r) t.nowMs)).length ≤ MAX_NACK_ITEM_NUM :=
  tick_charged_iff (reachable_sound hr).1 ht

/-- A tick at clock reading 1000 with cleared packets. -/
def tickAt1000 : Tick := ⟨1000, 1000, ⟨fun _ => 0, 0⟩, ⟨fun _ => 0, 0⟩⟩

/-- The first tick of a new receiver has nothing to charge. -/
theorem charged_sent_of_initial : ∃ sent r',
    handleCrudeTimer (initial 20) tickAt1000 = some (sent, r') ∧
      ((∀ s, Charged (initial 20).nackgen r'.nackgen s ↔ s ∈ sentNumbers sent) ↔
        (items (dueKeys (atBatch (initial 20)) tickAt1000.nowMs)).length ≤ MAX_NACK_ITEM_NUM) := by
  obtain ⟨probes, nack, r', ht, -⟩ := tick_spec (initial 20) tickAt1000
  exact ⟨_, r', ht, charged_sent_iff (.start 20) ht⟩

/-! ### A receiver with too many isolated losses -/

/-- The number of the `i`-th loss; each is 17 above the one before. -/
def hole (i : Nat) : UInt16 := .ofNat (20001 + 17 * i)

theorem hole_toNat {i : Nat} (h : i ≤ 400) : (hole i).toNat = 20001 + 17 * i :=
  UInt16.toNat_ofNat_of_lt' (by
    simp only [UInt16.size]
    omega)

/-- The generator has seen everything up to number `last` but the first `n` holes. -/
structure Holes (g : NackGenerator) (n last : Nat) : Prop where
  started : g.started = true
  lastSeq : g.lastSeq.toNat = last
  size : g.nackList.size ≤ n
  find : ∀ s, g.nackList.find s = if ∃ i < n, s = hole i then some ⟨s, s, 0, 0⟩ else none

theorem holes_advance {g : NackGenerator} {n last : Nat} (h : Holes g n last) (hn : n ≤ 400)
    (hlow : 20000 ≤ last) (hhigh : last ≤ 29000) {d : Nat} (hd : 1 ≤ d ∧ d ≤ 2)
    {seq : UInt16} (hseq : seq.toNat = last + d) :
    NackWatch.Advances g seq ∧ ¬ NackWatch.Overflows g seq ∧
      (receivePacket g seq).2.started = true ∧ (receivePacket g seq).2.lastSeq = seq ∧
      (receivePacket g seq).2.nackList.size ≤ n + (d - 1) ∧
      ∀ s, (receivePacket g seq).2.nackList.find s =
        if NackWatch.Skips g seq s then some ⟨s, s, 0, 0⟩ else g.nackList.find s := by
  have hmax : MaxValue.toNat / 2 = 32767 := rfl
  have hlast := h.lastSeq
  have hadv : NackWatch.Advances g seq := by
    refine ⟨h.started, fun heq => ?_, ?_⟩
    · rw [heq] at hseq
      omega
    · simp only [seqLowerThan, hmax, gt_iff_lt, UInt16.lt_iff_toNat_lt, Bool.or_eq_false_iff,
        Bool.and_eq_false_iff, decide_eq_false_iff_not]
      omega
  have hpruned : (pruned g.nackList seq).size ≤ n :=
    (size_le_of_keys fun k hk => by
      rw [find_pruned] at hk
      split at hk
      · cases hk
      · exact hk).trans h.size
  have hnum : (seq - (g.lastSeq + 1)).toNat = d - 1 := by
    simp only [UInt16.toNat_sub, UInt16.toNat_add, UInt16.toNat_one]
    omega
  have hfew : tooMany g.nackList (g.lastSeq + 1) seq = false := by
    rw [tooMany, decide_eq_false_iff_not, MaxNackPackets]
    omega
  have hroom : ¬ NackWatch.Overflows g seq := fun ho => by
    simpa [hfew] using ho.2
  refine ⟨hadv, hroom, ?_, ?_, ?_, fun s => ?_⟩
  · simp [NackWatch.receive_advance hadv, h.started]
  · simp [NackWatch.receive_advance hadv]
  · have hle := size_emplaceRange_le (pruned g.nackList seq) (g.lastSeq + 1) seq
    simp only [NackWatch.receive_advance hadv, addPacketsToNackList, hfew, Bool.false_eq_true,
      if_false]
    omega
  · have hkept : s < seq - MaxPacketAge → g.nackList.find s = none := by
      intro hcut
      rw [h.find, if_neg]
      rintro ⟨i, hi, rfl⟩
      have hval := hole_toNat (i := i) (by omega)
      have hcut' := UInt16.lt_iff_toNat_lt.mp hcut
      have hage : MaxPacketAge.toNat = 10000 := rfl
      simp only [UInt16.toNat_sub, hage] at hcut'
      omega
    have hfresh : ∀ info, g.nackList.find s = some info → info = ⟨s, s, 0, 0⟩ := by
      intro info hf
      rw [h.find] at hf
      split at hf
      · exact (Option.some.inj hf).symm
      · cases hf
    rw [NackWatch.find_receive_advance hadv hroom, find_pruned]
    by_cases hcut : s < seq - MaxPacketAge
    · simp [hcut, hkept hcut]
    · cases hf : g.nackList.find s with
      | none => simp [hcut]
      | some info => simp [hcut, hfresh info hf]

/-- The next number in order changes nothing but `lastSeq`. -/
theorem holes_next {g : NackGenerator} {n last : Nat} (h : Holes g n last) (hn : n ≤ 400)
    (hlow : 20000 ≤ last) (hhigh : last ≤ 29000) :
    Holes (receivePacket g (.ofNat (last + 1))).2 n (last + 1) := by
  have hseq : (UInt16.ofNat (last + 1)).toNat = last + 1 := UInt16.toNat_ofNat_of_lt' (by
    simp only [UInt16.size]
    omega)
  obtain ⟨-, -, hstarted, hlastSeq, hsize, hfind⟩ :=
    holes_advance h hn hlow hhigh (d := 1) (by omega) hseq
  refine ⟨hstarted, by rw [hlastSeq, hseq], hsize, fun s => ?_⟩
  have hskip : ¬ NackWatch.Skips g (.ofNat (last + 1)) s := by
    rintro ⟨-, hpos, hlt⟩
    have hlast := h.lastSeq
    have hs := s.toNat_lt
    simp only [age_eq, hseq] at hpos hlt
    omega
  rw [hfind, if_neg hskip, h.find]

/-- A packet two ahead leaves the next hole. -/
theorem holes_skip {g : NackGenerator} {n : Nat} (h : Holes g n (20000 + 17 * n)) (hn : n < 400) :
    Holes (receivePacket g (.ofNat (20000 + 17 * n + 2))).2 (n + 1) (20000 + 17 * n + 2) := by
  have hseq : (UInt16.ofNat (20000 + 17 * n + 2)).toNat = 20000 + 17 * n + 2 :=
    UInt16.toNat_ofNat_of_lt' (by
      simp only [UInt16.size]
      omega)
  obtain ⟨hadv, -, hstarted, hlastSeq, hsize, hfind⟩ :=
    holes_advance h (by omega) (by omega) (by omega) (d := 2) (by omega) hseq
  refine ⟨hstarted, by rw [hlastSeq, hseq], hsize, fun s => ?_⟩
  have hskip : NackWatch.Skips g (.ofNat (20000 + 17 * n + 2)) s ↔ s = hole n := by
    have hlast := h.lastSeq
    have hs := s.toNat_lt
    have hval := hole_toNat (i := n) (by omega)
    rw [← UInt16.toNat_inj, hval]
    simp only [NackWatch.Skips, hadv, true_and, age_eq, hseq]
    omega
  rw [hfind, h.find]
  by_cases hs : s = hole n
  · rw [if_pos (hskip.mpr hs), if_pos ⟨n, by omega, hs⟩]
  · have hiff : (∃ i < n + 1, s = hole i) ↔ ∃ i < n, s = hole i := by
      constructor
      · rintro ⟨i, hi, rfl⟩
        have hne : i ≠ n := fun heq => hs (by rw [heq])
        exact ⟨i, by omega, rfl⟩
      · rintro ⟨i, hi, rfl⟩
        exact ⟨i, by omega, rfl⟩
    simp only [mt hskip.mp hs, hiff, if_false]

/-- The receiver has not ticked yet and its generator has holes. -/
def Idle (r : Receiver) (n last : Nat) : Prop :=
  Reachable r ∧ r.countTimerMs = 0 ∧ r.rtt = 1 ∧ Holes r.nackgen n last

theorem idle_receive {r : Receiver} {n last m next : Nat} {seq : UInt16} (h : Idle r n last)
    (hholes : Holes (receivePacket r.nackgen seq).2 m next) : ∃ r', Idle r' m next := by
  obtain ⟨pkt, -, htype, hseq⟩ := packingPacket_spec ⟨fun _ => 0, 0⟩ seq 0
  have hdata : handleReceiveFrom r pkt 0 =
      { r with nackgen := (receivePacket r.nackgen seq).2 } := by
    rw [handleReceiveFrom, htype, if_neg (by decide), hseq]
  refine ⟨handleReceiveFrom r pkt 0, .receive pkt 0 h.1, ?_⟩
  rw [hdata]
  exact ⟨h.2.1, h.2.2.1, hholes⟩

/-- The packets in order up to the next multiple of 17. -/
theorem idle_next {n last : Nat} (k : Nat) (hn : n ≤ 400) (hlow : 20000 ≤ last)
    (hhigh : last + k ≤ 29000) (h : ∃ r, Idle r n last) : ∃ r, Idle r n (last + k) := by
  induction k with
  | zero => exact h
  | succ k ih =>
    obtain ⟨r, hr⟩ := ih (by omega)
    have hnext : Holes _ n (last + k + 1) := holes_next hr.2.2.2 hn (by omega) (by omega)
    exact idle_receive hr hnext

theorem idle_holes {n : Nat} (hn : n ≤ 400) : ∃ r, Idle r n (20000 + 17 * n) := by
  induction n with
  | zero =>
    obtain ⟨pkt, -, htype, hseq⟩ := packingPacket_spec ⟨fun _ => 0, 0⟩ 20000 0
    have hdata : handleReceiveFrom (initial 20) pkt 0 =
        { initial 20 with nackgen := (receivePacket NackGen.new 20000).2 } := by
      rw [handleReceiveFrom, htype, if_neg (by decide), hseq]
      rfl
    refine ⟨handleReceiveFrom (initial 20) pkt 0, .receive pkt 0 (.start 20), ?_⟩
    rw [hdata]
    exact ⟨rfl, rfl, rfl, rfl, by decide, fun s => by simp [receivePacket, NackGen.new]⟩
  | succ n ih =>
    obtain ⟨r, hr⟩ := ih (by omega)
    have hskipped : ∃ r, Idle r (n + 1) (20000 + 17 * n + 2) :=
      idle_receive hr (holes_skip hr.2.2.2 (by omega))
    have hrest : ∃ r, Idle r (n + 1) (20000 + 17 * n + 2 + 15) :=
      idle_next 15 hn (by omega) (by omega) hskipped
    exact hrest

/-- Elements out of each other's reach are blocks of their own. -/
theorem blocks_length_of_apart {α : Type*} {reach : α → α → Bool} {l : List α}
    (h : l.Pairwise fun a b => reach a b = false) : (blocks reach l).length = l.length := by
  induction l with
  | nil => simp
  | cons a rest ih =>
    obtain ⟨hfirst, hrest⟩ := List.pairwise_cons.mp h
    have htake : rest.takeWhile (reach a) = [] ∧ rest.dropWhile (reach a) = rest := by
      cases rest with
      | nil => exact ⟨rfl, rfl⟩
      | cons b more => simp [hfirst b List.mem_cons_self]
    rw [blocks_cons, htake.2, List.length_cons, ih hrest, List.length_cons]

/-- Numbers 17 apart need two items. -/
theorem near_apart {a b : UInt16} (h : a.toNat + 17 ≤ b.toNat) : near a b = false := by
  have hb := b.toNat_lt
  rw [Bool.eq_false_iff, ne_eq, near_iff]
  simp only [UInt16.toNat_sub, UInt16.toNat_one]
  omega

/-- 348 losses 17 apart, all due on the first tick: all are charged, and 347 are sent. -/
theorem isolated_losses_overflow :
    ¬ ∀ r r' t sent, Reachable r → handleCrudeTimer r t = some (sent, r') →
      ∀ s, Charged r.nackgen r'.nackgen s ↔ s ∈ sentNumbers sent := by
  intro h
  obtain ⟨r, hr, hcount, hrtt, hholes⟩ := idle_holes (n := 348) (by omega)
  obtain ⟨probes, nack, r', ht, -⟩ := tick_spec r tickAt1000
  have hfew := (tick_charged_iff (reachable_sound hr).1 ht).mp (h r r' tickAt1000 _ hr ht)
  have hlist : (atBatch r).nackList = r.nackgen.nackList := atBatch_nackList r
  have hrate : (atBatch r).rtt = 1 := by
    simp [atBatch, refreshRtt, hcount, updateRtt, hrtt]
  have hmem : ∀ s, s ∈ dueKeys (atBatch r) 1000 ↔ ∃ i < 348, s = hole i := by
    intro s
    have hdue : isDue 1 1000 ⟨s, s, 0, 0⟩ = true := by
      change decide (limitVar 1 0 ≤ 1000 - 0) = true
      decide +kernel
    rw [mem_dueKeys, hlist, hholes.find, hrate]
    constructor
    · rintro ⟨info, hf, -⟩
      split at hf
      case isTrue hs => exact hs
      case isFalse => cases hf
    · intro hs
      exact ⟨_, if_pos hs, hdue⟩
  have happart : (dueKeys (atBatch r) 1000).Pairwise fun a b => near a b = false := by
    refine (dueKeys_sorted (atBatch r) 1000).imp_of_mem fun {a b} ha hb hab => ?_
    obtain ⟨i, hi, rfl⟩ := (hmem a).mp ha
    obtain ⟨j, hj, rfl⟩ := (hmem b).mp hb
    have hvi := hole_toNat (i := i) (by omega)
    have hvj := hole_toNat (i := j) (by omega)
    have hlt : (hole i).toNat < (hole j).toNat := hab
    exact near_apart (by omega)
  have hlength : 348 ≤ (dueKeys (atBatch r) 1000).length := by
    have hnodup : ((List.range 348).map hole).Nodup := by
      refine List.Nodup.map_on (fun i hi j hj hij => ?_) List.nodup_range
      have hval := congrArg UInt16.toNat hij
      rw [List.mem_range] at hi hj
      rw [hole_toNat (by omega), hole_toNat (by omega)] at hval
      omega
    have hsub : ((List.range 348).map hole).length ≤ (dueKeys (atBatch r) 1000).length := by
      refine (hnodup.subperm fun s hs => ?_).length_le
      obtain ⟨i, hi, rfl⟩ := List.mem_map.mp hs
      exact (hmem _).mpr ⟨i, List.mem_range.mp hi, rfl⟩
    simpa using hsub
  have hitems : (items (dueKeys (atBatch r) 1000)).length = (dueKeys (atBatch r) 1000).length :=
    blocks_length_of_apart happart
  have hcap : (items (dueKeys (atBatch r) 1000)).length ≤ 347 := hfew
  omega

end NackCharge
