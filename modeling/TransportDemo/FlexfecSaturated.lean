import TransportDemo.FlexfecGenuine
import TransportDemo.FlexfecHeld

/-!
# Nothing recoverable is left

Whatever packets arrive, genuine or not, an FEC packet that is still stored
after a packet lacks two packets at least that are not held either.
-/

namespace FlexfecSaturated

open FlexfecDecoder FlexfecPacket FlexfecEncoder FlexfecParity FlexfecReceiver FlexfecIdeal
  FlexfecSearch FlexfecHeld

variable {P Q : Type}

/-! ### The build is orderly -/

theorem readFecHeader_size {pkt : Packet} {h : FecHeader} (hread : readFecHeader pkt = some h) :
    h.packetMaskSize ≤ 14 := by
  have hmask : ∀ data size, readPacketMask pkt = some (data, size) → size ≤ 14 := by
    intro data size hread
    simp only [readPacketMask, kFlexfecPacketMaskSizes] at hread
    split_ifs at hread
    all_goals
      obtain ⟨-, rfl⟩ := Prod.mk.inj (Option.some.inj hread)
      decide
  simp only [readFecHeader] at hread
  split_ifs at hread
  obtain ⟨⟨data, size⟩, hmaskRead, rfl⟩ := Option.map_eq_some_iff.mp hread
  exact hmask data size hmaskRead

theorem offset_add {base : UInt16} {o : Nat} (h : o < 2 ^ 16) :
    offset base (base + UInt16.ofNat o) = o := by
  rw [offset, UInt16.add_comm, UInt16.add_sub_cancel, UInt16.toNat_ofNat_of_lt' h]

/-- A mask of at most 14 bytes spans less than half of the circle. -/
theorem maskSeqNums_ascending {h : FecHeader} (hsize : h.packetMaskSize ≤ 14) :
    Ascending id (maskSeqNums h) := by
  let mask := (List.range h.packetMaskSize).map fun i => h.pkt.data (h.packetMaskOffset + i)
  have hmask : ∀ i < h.packetMaskSize, h.pkt.data (h.packetMaskOffset + i) = mask.getD i 0 := by
    intro i hi
    simp [mask, List.getD_eq_getElem?_getD, hi]
  rw [maskSeqNums_eq hmask]
  have hsorted : ((List.range (8 * h.packetMaskSize)).filter (bitAt mask)).Pairwise (· < ·) :=
    List.pairwise_lt_range.sublist List.filter_sublist
  refine List.pairwise_map.mpr (hsorted.imp_of_mem fun {a b} ha hb hab => ?_)
  have ha := List.mem_range.mp (List.mem_filter.mp ha).1
  have hb := List.mem_range.mp (List.mem_filter.mp hb).1
  have hoa : offset h.seqNumBase (h.seqNumBase + UInt16.ofNat a) = a := offset_add (by omega)
  have hob : offset h.seqNumBase (h.seqNumBase + UInt16.ofNat b) = b := offset_add (by omega)
  have hna : Near h.seqNumBase (h.seqNumBase + UInt16.ofNat a) := by
    rw [Near, hoa]
    omega
  have hnb : Near h.seqNumBase (h.seqNumBase + UInt16.ofNat b) := by
    rw [Near, hob]
    omega
  refine (lessThan_iff hna hnb).mpr ?_
  rw [hoa, hob]
  exact hab

theorem exists_missing {slots : List (ProtectedPacket P)}
    (h : numCoveredPacketsMissing slots = 1) : ∃ p ∈ slots, p.pkt.isSome = false := by
  have hcount : 0 < slots.countP (·.pkt.isNone) := by
    rw [numCoveredPacketsMissing] at h
    omega
  obtain ⟨p, hp, hnone⟩ := List.countP_pos_iff.mp hcount
  exact ⟨p, hp, by simpa using hnone⟩

/-- A fold that notes the number of every missing packet ends with one of them. -/
theorem foldl_missing {D : Type} {step : UInt16 × D → ProtectedPacket P → UInt16 × D}
    (hsome : ∀ r p, p.pkt.isSome = true → (step r p).1 = r.1)
    (hnone : ∀ r p, p.pkt.isSome = false → (step r p).1 = p.seqNum)
    (slots : List (ProtectedPacket P)) (r : UInt16 × D) (hr : ∃ p ∈ slots, p.pkt.isSome = false) :
    ∃ p ∈ slots, p.pkt.isSome = false ∧ p.seqNum = (slots.foldl step r).1 := by
  have hfold : ∀ (slots : List (ProtectedPacket P)) (r : UInt16 × D),
      (slots.foldl step r).1 = r.1 ∧ (∀ p ∈ slots, p.pkt.isSome = true) ∨
        ∃ p ∈ slots, p.pkt.isSome = false ∧ p.seqNum = (slots.foldl step r).1 := by
    intro slots
    induction slots with
    | nil => exact fun r => .inl ⟨rfl, List.forall_mem_nil _⟩
    | cons p slots ih =>
      intro r
      rcases ih (step r p) with ⟨hsame, hall⟩ | ⟨q, hq, hempty, hnum⟩
      · cases hp : p.pkt.isSome with
        | true =>
          exact .inl ⟨hsame.trans (hsome r p hp), List.forall_mem_cons.mpr ⟨hp, hall⟩⟩
        | false => exact .inr ⟨p, List.mem_cons_self, hp, (hsame.trans (hnone r p hp)).symm⟩
      · exact .inr ⟨q, List.mem_cons_of_mem p hq, hempty, hnum⟩
  rcases hfold slots r with ⟨-, hall⟩ | hfound
  · obtain ⟨p, hp, hempty⟩ := hr
    rw [hall p hp] at hempty
    cases hempty
  · exact hfound

theorem finishPacketRecovery_seqNum {h : FecHeader} {num : UInt16} {pkt : Packet}
    {r : RecoveredPacket Packet} (hr : finishPacketRecovery h num pkt = some r) :
    r.seqNum = num := by
  simp only [finishPacketRecovery] at hr
  split_ifs at hr
  obtain rfl := Option.some.inj hr
  rfl

theorem webrtc_orderly {list : ListSort} (hlist : Sorts list) (protectedMediaSsrc : UInt32) :
    Orderly (FlexfecPacket.webrtc list protectedMediaSsrc) where
  sorts := hlist
  mask p q nums hread hmask := by
    obtain rfl := Option.some.inj hmask
    exact maskSeqNums_ascending (readFecHeader_size hread)
  recovers q slots r _ hmissing hrecover := by
    obtain ⟨pkt, -, hrest⟩ := Option.bind_eq_some_iff.mp hrecover
    rw [finishPacketRecovery_seqNum hrest]
    refine foldl_missing (fun r p hp => ?_) (fun r p hp => ?_) slots (0, pkt) (exists_missing hmissing)
    · obtain ⟨src, hsrc⟩ := Option.isSome_iff_exists.mp hp
      simp [recoverStep, hsrc]
    · obtain hnone : p.pkt = none := by simpa using hp
      simp [recoverStep, hnone]

/-! ### Runs -/

section Run

variable {b : Build P Q} {list : ListSort} {r : Receiver P Q}

/-- At each step of the run the numbers at hand lie on half of the circle. -/
def NearRun (b : Build P Q) (list : ListSort) (r : Receiver P Q)
    (packets : List RtpPacketReceived) : Prop :=
  ∀ done packet, done ++ [packet] <+: packets → ∀ received,
    addReceivedPacket b (run b list r done) packet = .received received →
      ∃ base, NearStep (b.code list r.protectedMediaSsrc) base (run b list r done).decoder received

theorem run_protectedMediaSsrc (packets : List RtpPacketReceived) :
    (run b list r packets).protectedMediaSsrc = r.protectedMediaSsrc := by
  let I : Receiver P Q → Prop := fun r' => r'.protectedMediaSsrc = r.protectedMediaSsrc
  refine StepTrace.run_inv (I := I) rfl ?_ packets
  intro r' packet h
  rw [onRtpPacket]
  split
  · exact h
  · split
    · exact h
    · split
      · exact h
      · exact h
      · exact h

theorem run_saturated {packets : List RtpPacketReceived}
    (hb : Orderly (b.code list r.protectedMediaSsrc))
    (hr : Saturated (b.code list r.protectedMediaSsrc) r.decoder)
    (hnear : NearRun b list r packets) :
    Saturated (b.code list r.protectedMediaSsrc) (run b list r packets).decoder := by
  induction packets using List.reverseRecOn with
  | nil => exact hr
  | append_singleton packets packet ih =>
    have hbefore := ih fun done p hd =>
      hnear done p (hd.trans (List.prefix_append packets [packet]))
    rw [run, StepTrace.run_concat, onRtpPacket]
    split
    · exact hbefore
    · split
      · exact hbefore
      · split
        · exact hbefore
        · exact hbefore
        · next received hadd =>
          obtain ⟨base, hstep⟩ := hnear packets packet List.prefix_rfl received hadd
          have hnext := processReceivedPacket_saturated hb hbefore.held hstep
          have hssrc : (run b list r packets).protectedMediaSsrc = r.protectedMediaSsrc :=
            run_protectedMediaSsrc packets
          rw [run] at hssrc
          rw [process, hssrc]
          exact hnext

/-- Every FEC packet that is stored lacks two packets that are not held. -/
def LacksTwo (s : State P Q) : Prop :=
  ∀ f ∈ s.receivedFecPackets, ∃ p ∈ f.protectedPackets, ∃ q ∈ f.protectedPackets,
    p.seqNum ≠ q.seqNum ∧ ∀ held ∈ s.recoveredPackets,
      held.seqNum ≠ p.seqNum ∧ held.seqNum ≠ q.seqNum

theorem lacksTwo {c : ErasureCode P Q} {s : State P Q} (h : Saturated c s) :
    LacksTwo s := by
  intro f hf
  have hcount : 2 ≤ (f.protectedPackets.filter (·.pkt.isNone)).length := by
    have hlacks := h.lacks f hf
    rw [numCoveredPacketsMissing] at hlacks
    rw [← List.countP_eq_length_filter]
    omega
  have hnot {p : ProtectedPacket P} (hp : p ∈ f.protectedPackets.filter (·.pkt.isNone)) :
      p ∈ f.protectedPackets ∧ ∀ held ∈ s.recoveredPackets, held.seqNum ≠ p.seqNum := by
    obtain ⟨hmem, hnone⟩ := List.mem_filter.mp hp
    refine ⟨hmem, fun held hheld heq => ?_⟩
    have hfilled := h.held.filled f hf p hmem held hheld heq.symm
    rw [← Option.not_isNone, hnone] at hfilled
    cases hfilled
  have hsub : (f.protectedPackets.filter (·.pkt.isNone)).Pairwise
      fun p q => lessThan p.seqNum q.seqNum = true := (h.held.slots f hf).sublist List.filter_sublist
  cases hslots : f.protectedPackets.filter (·.pkt.isNone) with
  | nil => simp [hslots] at hcount
  | cons p rest =>
    cases rest with
    | nil => simp [hslots] at hcount
    | cons q rest =>
      rw [hslots] at hnot hsub
      obtain ⟨hp, hpheld⟩ := hnot List.mem_cons_self
      obtain ⟨hq, hqheld⟩ := hnot (List.mem_cons_of_mem p List.mem_cons_self)
      refine ⟨p, hp, q, hq, ?_, fun held hheld => ⟨hpheld held hheld, hqheld held hheld⟩⟩
      exact ne_of_lessThan ((List.pairwise_cons.mp hsub).1 q List.mem_cons_self)

theorem create_saturated {c : ErasureCode P Q} (ssrc protectedMediaSsrc : UInt32) :
    Saturated c (create (P := P) (Q := Q) ssrc protectedMediaSsrc).decoder :=
  ⟨Held.empty, List.forall_mem_nil _⟩

end Run

/-- The receiver recovers at once whatever can be recovered from what it holds. -/
theorem nothing_recoverable_left (list : ListSort) (hlist : Sorts list)
    (ssrc protectedMediaSsrc : UInt32) (packets : List RtpPacketReceived)
    (hnear : NearRun FlexfecReceiver.webrtc list (create ssrc protectedMediaSsrc) packets) :
    LacksTwo
      (run FlexfecReceiver.webrtc list (create ssrc protectedMediaSsrc) packets).decoder :=
  lacksTwo (run_saturated (webrtc_orderly hlist protectedMediaSsrc)
    (create_saturated ssrc protectedMediaSsrc) hnear)

/-- The FEC packet for packets 1 and 2 alone. -/
theorem nearRun_fecArrival : NearRun FlexfecReceiver.webrtc insertionListSort (create 1 1)
    [FlexfecGenuine.fecArrival.packet] := by
  intro done packet hd received hadd
  obtain ⟨rfl, rfl⟩ : done = [] ∧ packet = FlexfecGenuine.fecArrival.packet := by
    cases done with
    | nil => exact ⟨rfl, (List.cons_prefix_cons.mp hd).1⟩
    | cons first rest => simpa using hd.length_le
  let rep := FlexfecGenuine.represents insertionListSort 1
  have hreceived : received = rep.sim.received FlexfecGenuine.fecArrival.received := by
    have hcame := rep.add_received FlexfecGenuine.fecArrival (r := create 1 1) rfl rfl
    rw [show run FlexfecReceiver.webrtc insertionListSort (create 1 1) [] = create 1 1 from rfl,
      hcame] at hadd
    cases hadd
    rfl
  subst hreceived
  refine ⟨1, ⟨⟨List.forall_mem_nil _, List.forall_mem_nil _⟩, ?_, ?_⟩⟩
  · intro hmedia
    cases hmedia
  · intro q nums _ hread hmask
    obtain rfl : rep.onHeader FlexfecGenuine.firstTwo = q :=
      Option.some.inj ((rep.readFecHeader FlexfecGenuine.firstTwo).symm.trans hread)
    obtain rfl : FlexfecGenuine.firstTwo.protectedMedia.map Media.seqNum = nums :=
      Option.some.inj ((rep.maskSeqNums FlexfecGenuine.firstTwo).symm.trans hmask)
    intro n hn
    obtain ⟨m, hm, rfl⟩ := List.mem_map.mp hn
    obtain rfl | rfl : m = FlexfecGenuine.stream 1 ∨ m = FlexfecGenuine.stream 2 := by
      simpa [FlexfecGenuine.firstTwo] using (List.mem_filter.mp hm).1
    · exact (by decide : Near 1 (FlexfecGenuine.stream 1).seqNum)
    · exact (by decide : Near 1 (FlexfecGenuine.stream 2).seqNum)

theorem nothing_recoverable_left_fecArrival : LacksTwo
    (run FlexfecReceiver.webrtc insertionListSort (create 1 1)
      [FlexfecGenuine.fecArrival.packet]).decoder :=
  nothing_recoverable_left insertionListSort insertionListSort_sorts 1 1 _ nearRun_fecArrival

end FlexfecSaturated
