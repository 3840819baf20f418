import TransportDemo.FlexfecGenuine

/-!
# The receiver of namespace `webrtc85`

`webrtc85` keeps packets in copy-on-write buffers and takes the payload of an
FEC packet as a slice of its buffer. The slice still shows the whole buffer, so
the FEC header is read where the RTP header stands, whose version is taken for
the retransmission bit: no FEC packet is ever kept, and nothing is recovered.
The build agrees with `webrtc` on runs in which that one recovers nothing.
-/

namespace Flexfec85

open ByteBuffer FlexfecDecoder FlexfecPacket FlexfecParity FlexfecReceiver FlexfecIdeal FlexfecRun
  FlexfecGenuine

/-! ### Buffers -/

/-- Only `Slice` sets the offset and the size, and nothing reads them. -/
structure CopyOnWriteBuffer where
  buffer : List UInt8
  offset_ : Nat
  size_ : Nat

namespace CopyOnWriteBuffer

/-- The copy that `RtpPacket::Buffer` returns. What no constructor sets is zero here. -/
def ofBytes (bytes : List UInt8) : CopyOnWriteBuffer := ⟨bytes, 0, 0⟩

def slice (b : CopyOnWriteBuffer) (offset length : Nat) : CopyOnWriteBuffer :=
  { b with offset_ := b.offset_ + offset, size_ := length }

/-- The `size()` bytes at `cdata()`. -/
def cdata (b : CopyOnWriteBuffer) : List UInt8 := b.buffer

end CopyOnWriteBuffer

/-- What one extension entry zeroes; of the video timing all that follows its first 7 bytes. -/
def mutableBytes (p : RtpPacketReceived) (e : ExtensionInfo) : Option (Nat × Nat) :=
  match p.extensionType e.id with
  | .videoTiming =>
    if 7 < e.length.toNat then some (e.offset.toNat + 7, e.length.toNat - 7) else none
  | .transportSequenceNumber | .transportSequenceNumber02 | .transmissionTimeOffset
  | .absoluteSendTime => some (e.offset.toNat, e.length.toNat)
  | _ => none

def zeroMutableExtensions (p : RtpPacketReceived) : CopyOnWriteBuffer :=
  let data := (p.extensionEntries.map (mutableBytes p)).foldl RtpPacketReceived.zero
    (Packet.ofBytes p.buffer).data
  .ofBytes (Packet.bytes ⟨p.buffer.length, data⟩)

/-! ### `webrtc85::ForwardErrorCorrection` -/

section Recovery

variable (memory : Nat → UInt8)

/-- The new buffer holds the recovery fields and the payload, and behind them what was in the
memory. -/
def startPacketRecovery (h : FecHeader) : Option Packet :=
  if h.pkt.length < h.fecHeaderSize + h.protectionLength then none
  else if min (IP_PACKET_SIZE - kRtpHeaderSize) (IP_PACKET_SIZE - h.fecHeaderSize) <
      h.protectionLength then none
  else
    some
      { length := h.protectionLength + kRtpHeaderSize
        data := fun i =>
          if i < kRtpHeaderSize then h.pkt.data i
          else if i < kRtpHeaderSize + h.protectionLength then
            h.pkt.data (h.fecHeaderSize + (i - kRtpHeaderSize))
          else memory i }

/-- `SetSize` makes room for a longer payload. -/
def xorPayloads (src : Packet) (payloadLength dstOffset : Nat) (dst : Packet) : Packet :=
  { FlexfecPacket.xorPayloads src payloadLength dstOffset dst with
    length := max dst.length (dstOffset + payloadLength) }

def recoverStep (r : UInt16 × Packet) (p : ProtectedPacket (List UInt8)) : UInt16 × Packet :=
  match p.pkt with
  | none => (p.seqNum, r.2)
  | some bytes =>
    let src := Packet.ofBytes bytes
    (r.1, xorPayloads src (src.length - kRtpHeaderSize) kRtpHeaderSize (xorHeaders src r.2))

/-- `FinishPacketRecovery` is that of `webrtc`, with `SetSize` for the assignment of the length. -/
def recoverPacket (h : FecHeader) (slots : List (ProtectedPacket (List UInt8))) :
    Option (RecoveredPacket (List UInt8)) := do
  let pkt ← startPacketRecovery memory h
  let (seqNum, pkt) := slots.foldl recoverStep (0, pkt)
  let packet ← finishPacketRecovery h seqNum pkt
  some ⟨packet.ssrc, packet.seqNum, packet.returned, packet.pkt.bytes⟩

/-- `ForwardErrorCorrection::CreateFlexfec` of namespace `webrtc85`. -/
def flexfec (list : ListSort) (protectedMediaSsrc : UInt32) :
    ErasureCode (List UInt8) FecHeader where
  protectedMediaSsrc := protectedMediaSsrc
  checksIsFec := false
  readFecHeader bytes := readFecHeader (Packet.ofBytes bytes)
  protectedSsrc := FecHeader.protectedSsrc
  maskSeqNums h :=
    if h.pkt.length < h.packetMaskOffset + h.packetMaskSize then none else some (maskSeqNums h)
  recoverPacket := recoverPacket memory
  list := list

/-- The receiver of namespace `webrtc85`. -/
def webrtc85 : Build (List UInt8) FecHeader where
  code := flexfec memory
  ofFec p := ((CopyOnWriteBuffer.ofBytes p.buffer).slice p.payloadOffset p.payloadSize).cdata
  ofMedia p := some (zeroMutableExtensions p).cdata
  bytes := id

end Recovery

/-! ### Steps that recover nothing -/

section Decoder

variable {P Q : Type} {c : ErasureCode P Q} {s : State P Q} {p : ReceivedPacket P}

def Returned (s : State P Q) : Prop := ∀ r ∈ s.recoveredPackets, r.returned = true

/-- With the packet inserted no FEC packet lacks just one packet. -/
def Settles (c : ErasureCode P Q) (s : State P Q) (p : ReceivedPacket P) : Prop :=
  ∀ f ∈ (insertPacket c (resetOnGap c s p) p).receivedFecPackets,
    numCoveredPacketsMissing f.protectedPackets ≠ 1

instance : Decidable (Settles c s p) := List.decidableBAll _ _

theorem insertMediaPacket_returned (h : Returned s) : Returned (insertMediaPacket c s p) := by
  rw [insertMediaPacket]
  split
  · exact h
  · intro r hr
    rcases List.mem_append.mp ((c.list.perm _ _).subset hr) with hr | hr
    · exact h r hr
    · rw [List.mem_singleton.mp hr]

theorem insertFecPacket_recovered :
    (insertFecPacket c s p).recoveredPackets = s.recoveredPackets := by
  rw [insertFecPacket]
  split
  · rfl
  · cases c.readFecHeader p.pkt with
    | none => rfl
    | some header =>
      simp only
      split
      · rfl
      · cases c.maskSeqNums header with
        | none => rfl
        | some nums =>
          simp only
          split <;> rfl

theorem resetOnGap_returned (h : Returned s) : Returned (resetOnGap c s p) := by
  rw [resetOnGap]
  split
  · exact List.forall_mem_nil _
  · exact h

theorem insertPacket_returned (h : Returned s) : Returned (insertPacket c s p) := by
  have hdiscard : Returned (discardOldFecPackets c s p) := by
    rw [discardOldFecPackets]
    split <;> exact h
  intro r hr
  have hr := List.drop_subset _ _ hr
  cases hfec : p.isFec with
  | true =>
    simp only [hfec, if_true, insertFecPacket_recovered] at hr
    exact hdiscard r hr
  | false =>
    simp only [hfec, Bool.false_eq_true, if_false] at hr
    exact insertMediaPacket_returned hdiscard r hr

theorem attemptRecovery_settled
    (h : ∀ f ∈ s.receivedFecPackets, numCoveredPacketsMissing f.protectedPackets ≠ 1) :
    (attemptRecovery c s).recoveredPackets = s.recoveredPackets ∧
      (attemptRecovery c s).receivedFecPackets ⊆ s.receivedFecPackets := by
  rw [attemptRecovery]
  cases s.receivedFecPackets.length with
  | zero => exact ⟨rfl, List.Subset.refl _⟩
  | succ fuel =>
    rw [attemptRecoveryLoop]
    cases hpass : recoveryPass c s.receivedFecPackets with
    | mk kept found =>
      cases found with
      | none => exact ⟨rfl, recoveryPass_none hpass⟩
      | some found =>
        obtain ⟨f, hf, hmissing, -⟩ := recoveryPass_some hpass
        exact absurd hmissing (h f hf)

/-- Such a step passes nothing on. -/
theorem processReceivedPacket_settled (h : Returned s) (hs : Settles c s p) :
    (processReceivedPacket c s p).2 = [] ∧ (processReceivedPacket c s p).1.receivedFecPackets ⊆
      (insertPacket c (resetOnGap c s p) p).receivedFecPackets := by
  obtain ⟨hrecovered, hfecs⟩ := attemptRecovery_settled (c := c) hs
  have hreturned : Returned (decodeFec c s p) := by
    intro r hr
    rw [decodeFec, hrecovered] at hr
    exact insertPacket_returned (resetOnGap_returned h) r hr
  refine ⟨?_, hfecs⟩
  rw [processReceivedPacket, List.map_eq_nil_iff, List.filter_eq_nil_iff]
  intro r hr
  simp [hreturned r hr]

end Decoder

section Receiver

variable {P Q : Type} {b : Build P Q} {list : ListSort} {r : Receiver P Q}
  {p : RtpPacketReceived}

/-- The packet leaves no FEC packet of the receiver's with just one packet unknown. -/
def Quiet (b : Build P Q) (list : ListSort) (r : Receiver P Q) (p : RtpPacketReceived) : Prop :=
  ∀ packet, addReceivedPacket b r p = .received packet →
    Settles (b.code list r.protectedMediaSsrc) r.decoder packet

theorem Quiet.of_add {packet : ReceivedPacket P} (hadd : addReceivedPacket b r p = .received packet)
    (hs : Settles (b.code list r.protectedMediaSsrc) r.decoder packet) : Quiet b list r p := by
  intro other hother
  obtain rfl := Added.received.inj (hadd.symm.trans hother)
  exact hs

/-- Nothing was passed on, and nothing waits to be. -/
structure Silent (r : Receiver P Q) : Prop where
  returned : Returned r.decoder
  passed : r.passed = []

theorem create_silent (ssrc protectedMediaSsrc : UInt32) :
    Silent (create ssrc protectedMediaSsrc : Receiver P Q) := ⟨List.forall_mem_nil _, rfl⟩

theorem Silent.process (h : Silent r) {packet : ReceivedPacket P}
    (hs : Settles (b.code list r.protectedMediaSsrc) r.decoder packet) :
    Silent (process b list r packet) := by
  obtain ⟨hout, -⟩ := processReceivedPacket_settled h.returned hs
  constructor
  · intro x hx
    obtain ⟨y, -, rfl⟩ := List.mem_map.mp hx
    rfl
  · simp only [FlexfecReceiver.process, hout, h.passed, List.map_nil, List.append_nil]

theorem Silent.step (h : Silent r) (hq : Quiet b list r p) : Silent (onRtpPacket b list r p) := by
  rw [onRtpPacket]
  split
  · exact h
  · split
    · exact h
    · cases hadd : addReceivedPacket b r p with
      | dropped => exact h
      | aborted => exact ⟨h.returned, h.passed⟩
      | received packet => exact h.process (hq packet hadd)

end Receiver

/-! ### FEC packets are refused -/

def kRtpVersion : UInt8 := 2

/-- `RtpPacket::Parse` refuses any other version. -/
def Parsed (p : RtpPacketReceived) : Prop := p.buffer.getD 0 0 >>> 6 = kRtpVersion

/-- The FEC header is read from the start of the RTP packet. -/
theorem readFecHeader_parsed {p : RtpPacketReceived} (h : Parsed p) :
    readFecHeader (Packet.ofBytes p.buffer) = none := by
  have hversion (x : UInt8) : x >>> 6 = 2 → x &&& 0x80 ≠ 0 := by
    revert x
    decide +kernel
  rw [readFecHeader]
  split
  · rfl
  · exact if_pos (hversion _ h)

/-- The receiver of `webrtc85`: no FEC packet is kept, and nothing was passed on. -/
structure Refusing (r : Receiver (List UInt8) FecHeader) : Prop where
  silent : Silent r
  fecs : r.decoder.receivedFecPackets = []

section Refusing

variable {memory : Nat → UInt8} {list : ListSort} {r : Receiver (List UInt8) FecHeader}
  {p : RtpPacketReceived}

/-- What the receiver hands to the decoder as FEC has no FEC header. -/
theorem add_refused (h : Parsed p) {packet : ReceivedPacket (List UInt8)}
    (hadd : addReceivedPacket (webrtc85 memory) r p = .received packet)
    (hfec : packet.isFec = true) :
    readFecHeader (Packet.ofBytes packet.pkt) = none := by
  rw [addReceivedPacket] at hadd
  split at hadd
  · split at hadd
    · cases hadd
    · cases hadd
      exact readFecHeader_parsed h
  · split at hadd
    · cases hadd
    · cases hadd
      cases hfec

theorem insert_refused {s : State (List UInt8) FecHeader} (hs : s.receivedFecPackets = [])
    {packet : ReceivedPacket (List UInt8)}
    (h : packet.isFec = true → readFecHeader (Packet.ofBytes packet.pkt) = none)
    (protectedMediaSsrc : UInt32) :
    (insertPacket (flexfec memory list protectedMediaSsrc)
      (resetOnGap (flexfec memory list protectedMediaSsrc) s packet) packet).receivedFecPackets =
        [] := by
  have hreset :
      (resetOnGap (flexfec memory list protectedMediaSsrc) s packet).receivedFecPackets = [] := by
    rw [resetOnGap]
    split
    · rfl
    · exact hs
  have hdiscard : (discardOldFecPackets (flexfec memory list protectedMediaSsrc)
      (resetOnGap (flexfec memory list protectedMediaSsrc) s packet)
      packet).receivedFecPackets = [] := by
    rw [discardOldFecPackets]
    split
    · simp only [hreset, List.dropWhile_nil]
    · exact hreset
  simp only [insertPacket]
  cases hfec : packet.isFec with
  | true =>
    have hnone : (flexfec memory list protectedMediaSsrc).readFecHeader packet.pkt = none := h hfec
    simp only [if_true, insertFecPacket, hnone, hdiscard, List.any_nil, Bool.false_eq_true,
      if_false]
  | false =>
    simp only [Bool.false_eq_true, if_false, insertMediaPacket]
    split
    · exact hdiscard
    · simp only [hdiscard, updateCoveringFecPackets, List.map_nil]

theorem Refusing.step (h : Refusing r) (hp : Parsed p) :
    Refusing (onRtpPacket (webrtc85 memory) list r p) := by
  have hinsert {packet : ReceivedPacket (List UInt8)}
      (hadd : addReceivedPacket (webrtc85 memory) r p = .received packet) :
      (insertPacket ((webrtc85 memory).code list r.protectedMediaSsrc)
        (resetOnGap ((webrtc85 memory).code list r.protectedMediaSsrc) r.decoder packet)
        packet).receivedFecPackets = [] :=
    insert_refused h.fecs (add_refused hp hadd) r.protectedMediaSsrc
  have hquiet : Quiet (webrtc85 memory) list r p := by
    intro packet hadd f hf
    rw [hinsert hadd] at hf
    cases hf
  refine ⟨h.silent.step hquiet, ?_⟩
  rw [onRtpPacket]
  split
  · exact h.fecs
  · split
    · exact h.fecs
    · cases hadd : addReceivedPacket (webrtc85 memory) r p with
      | dropped => exact h.fecs
      | aborted => exact h.fecs
      | received packet =>
        obtain ⟨-, hsub⟩ := processReceivedPacket_settled h.silent.returned (hquiet packet hadd)
        rw [hinsert hadd] at hsub
        exact List.subset_nil.mp hsub

/-- Whatever arrives, nothing is recovered. -/
theorem run_refusing (ssrc : UInt32) (packets : List RtpPacketReceived)
    (hparsed : ∀ p ∈ packets, Parsed p) :
    Refusing (run (webrtc85 memory) list (create ssrc ssrc) packets) := by
  induction packets using List.reverseRecOn with
  | nil => exact ⟨create_silent ssrc ssrc, rfl⟩
  | append_singleton packets p ih =>
    rw [run, StepTrace.run_concat]
    have hdone := ih fun q hq => hparsed q (List.mem_append_left _ hq)
    exact hdone.step (hparsed p (List.mem_append_right _ List.mem_cons_self))

end Refusing

theorem run_silent {P Q : Type} {b : Build P Q} {list : ListSort} {ssrc : UInt32}
    {packets : List RtpPacketReceived}
    (hquiet : ∀ done p, done ++ [p] <+: packets →
      Quiet b list (run b list (create ssrc ssrc) done) p) :
    Silent (run b list (create ssrc ssrc) packets) := by
  induction packets using List.reverseRecOn with
  | nil => exact create_silent ssrc ssrc
  | append_singleton packets p ih =>
    rw [run, StepTrace.run_concat]
    have hdone := ih fun done q hd => hquiet done q (hd.trans (List.prefix_append packets [p]))
    exact hdone.step (hquiet packets p List.prefix_rfl)

/-- The builds differ as soon as `webrtc` passes a packet on. -/
theorem agree_iff_silent {list : ListSort} {ssrc : UInt32} (memory : Nat → UInt8)
    {packets : List RtpPacketReceived} (hparsed : ∀ p ∈ packets, Parsed p) :
    (run FlexfecReceiver.webrtc list (create ssrc ssrc) packets).passed =
        (run (webrtc85 memory) list (create ssrc ssrc) packets).passed ↔
      (run FlexfecReceiver.webrtc list (create ssrc ssrc) packets).passed = [] := by
  have hwebrtc85 : Refusing (run (webrtc85 memory) list (create ssrc ssrc) packets) :=
    run_refusing ssrc packets hparsed
  rw [hwebrtc85.silent.passed]

/-- Both builds pass the same on while no packet leaves `webrtc` with an FEC packet that lacks just
one packet. -/
theorem builds_agree (list : ListSort) (ssrc : UInt32) (memory : Nat → UInt8)
    (packets : List RtpPacketReceived) (hparsed : ∀ p ∈ packets, Parsed p)
    (hquiet : ∀ done p, done ++ [p] <+: packets → Quiet FlexfecReceiver.webrtc list
      (run FlexfecReceiver.webrtc list (create ssrc ssrc) done) p) :
    (run FlexfecReceiver.webrtc list (create ssrc ssrc) packets).passed =
      (run (webrtc85 memory) list (create ssrc ssrc) packets).passed := by
  rw [agree_iff_silent memory hparsed]
  exact (run_silent hquiet).passed

/-- An FEC packet for packets 1 and 2, and packet 3. -/
theorem builds_agree_unrelated :
    let packets := [fecArrival, mediaArrival 3].map (·.packet)
    (run FlexfecReceiver.webrtc insertionListSort (create 1 1) packets).passed =
      (run (webrtc85 fun _ => 0) insertionListSort (create 1 1) packets).passed := by
  refine builds_agree _ _ _ _ ?_ (StepTrace.calls_cons ?_ (StepTrace.calls_cons ?_ ?_))
  · intro p hp
    obtain rfl | rfl : p = fecArrival.packet ∨ p = (mediaArrival 3).packet := by simpa using hp
    · rfl
    · rfl
  · exact Quiet.of_add (addReceivedPacket_fec rfl rfl) (by decide +kernel)
  · exact Quiet.of_add rfl (by decide +kernel)
  · intro done p hd
    exact absurd (List.prefix_nil.mp hd) (List.append_ne_nil_of_right_ne_nil done (by simp))

/-! ### A packet that only `webrtc` recovers -/

/-- The FEC packet for packets 20000 and 20001. -/
def farTwo : Parity 1 where
  block := [stream 20000, stream 20001]
  mask := firstTwo.mask
  ascending := by decide +kernel
  mask_length := firstTwo.mask_length
  mask_bits := by decide +kernel
  span := by decide +kernel
  protects := by decide +kernel

/-- Its own number is 5, too far from theirs for a decoder that purges on media packets. -/
def farArrival : Arrival 1 where
  ideal := .parity farTwo
  packet :=
    { payloadType := 113
      sequenceNumber := 5
      ssrc := 1
      payloadOffset := 12
      payloadSize := 21
      paddingSize := 0
      extensionEntries := []
      extensionType := fun _ => .none
      recovered := false
      buffer := [0x80, 113, 0, 5, 0, 0, 0, 0, 0, 0, 0, 1] ++ farTwo.packet.bytes
      fixedHeader := Nat.le_refl _
      buffer_length := by decide +kernel }
  own := rfl
  carries := ⟨rfl, by decide +kernel⟩

/-- Of packets 20000 and 20001 the second is lost: `webrtc` passes it on, `webrtc85` does not. -/
theorem builds_differ :
    ¬ ∀ (list : ListSort) (ssrc : UInt32) (memory : Nat → UInt8) (sent : Set (Media ssrc))
        (arrivals : List (Arrival ssrc)),
      (∀ a ∈ arrivals, FromSent sent a.received) → (∀ a ∈ arrivals, Parsed a.packet) →
        (run FlexfecReceiver.webrtc list (create ssrc ssrc) (arrivals.map (·.packet))).passed =
          (run (webrtc85 memory) list (create ssrc ssrc) (arrivals.map (·.packet))).passed := by
  intro hall
  have hcases (a : Arrival 1) (ha : a ∈ [farArrival, mediaArrival 20000]) :
      a = farArrival ∨ a = mediaArrival 20000 := by simpa using ha
  have hsent : ∀ a ∈ [farArrival, mediaArrival 20000],
      FromSent (Set.range stream) a.received := by
    intro a ha
    obtain rfl | rfl := hcases a ha
    · intro m hm
      obtain rfl | rfl : m = stream 20000 ∨ m = stream 20001 := by
        simpa [farTwo] using (List.mem_filter.mp hm).1
      · exact ⟨20000, rfl⟩
      · exact ⟨20001, rfl⟩
    · exact ⟨20000, rfl⟩
  have hparsed : ∀ a ∈ [farArrival, mediaArrival 20000], Parsed a.packet := by
    intro a ha
    obtain rfl | rfl := hcases a ha
    · rfl
    · rfl
  have hagree := hall insertionListSort 1 (fun _ => 0) (Set.range stream) _ hsent hparsed
  revert hagree
  decide +kernel

end Flexfec85
