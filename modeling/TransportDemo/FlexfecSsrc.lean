import Mathlib.Logic.Equiv.Basic
import TransportDemo.FlexfecReceiver
import TransportDemo.FlexfecSimulation

/-!
# One SSRC for FEC and media

With the payload type and `is_fec` telling FEC packets from media packets, the
SSRC of the FEC packets is compared with the SSRC of FEC packets only. A
receiver for FEC and media on one SSRC then recovers what a receiver for two
SSRCs does.
-/

namespace FlexfecSsrc

open ByteBuffer FlexfecDecoder FlexfecPacket FlexfecReceiver FlexfecSimulation

/-- An FEC packet moved to another SSRC. -/
def renameFec (ssrc : UInt32) (p : RtpPacketReceived) : RtpPacketReceived :=
  if p.payloadType = 113 then p.setSsrc ssrc else p

/-- The decoder of the first SSRC as the one of the second: only the SSRCs of stored FEC packets
differ. -/
def moved (list : ListSort) (ssrc ssrc' protectedMediaSsrc : UInt32) :
    Simulation (FlexfecPacket.webrtc list protectedMediaSsrc)
      (FlexfecPacket.webrtc list protectedMediaSsrc) where
  onSsrc := Equiv.swap ssrc ssrc'
  onPacket := id
  onHeader := id
  Ready _ := True
  onSsrc_injective := (Equiv.swap ssrc ssrc').injective
  onSsrc_apart := .inl rfl
  protectedMediaSsrc := rfl
  checksIsFec := rfl
  list := rfl
  protectedSsrc _ := rfl
  maskSeqNums _ := rfl

section Renaming

variable (list : ListSort) (ssrc ssrc' protectedMediaSsrc : UInt32)

theorem moved_slot (p : ProtectedPacket Packet) :
    (moved list ssrc ssrc' protectedMediaSsrc).slot p = p := by
  simp [Simulation.slot, moved]

theorem moved_recovered (r : RecoveredPacket Packet) :
    (moved list ssrc ssrc' protectedMediaSsrc).recovered r = r := rfl

theorem moved_recovers : (moved list ssrc ssrc' protectedMediaSsrc).Recovers where
  subset _ _ := trivial
  update _ _ _ _ := trivial
  alike _ _ _ := by
    rw [List.map_congr_left fun p _ => moved_slot list ssrc ssrc' protectedMediaSsrc p,
      List.map_id', Option.map_congr fun r _ => moved_recovered list ssrc ssrc' protectedMediaSsrc r,
      Option.map_id']
    rfl

theorem moved_reads (p : ReceivedPacket Packet) :
    (moved list ssrc ssrc' protectedMediaSsrc).Reads p := fun _ => Option.map_id'.symm

end Renaming

/-- The two receivers have done the same but for the SSRC of the FEC packets. -/
structure Alike (list : ListSort) (ssrc ssrc' : UInt32)
    (r r' : Receiver Packet FecHeader) : Prop where
  own : r.ssrc = ssrc
  media : r.protectedMediaSsrc = ssrc
  same : r' = { r with
    ssrc := ssrc', decoder := (moved list ssrc ssrc' ssrc).state r.decoder }

section Step

variable {list : ListSort} {ssrc ssrc' : UInt32} {r r' : Receiver Packet FecHeader}

/-- Both receivers take a packet for the same kind, with the same data. -/
theorem add_alike (h : Alike list ssrc ssrc' r r') {p : RtpPacketReceived} (hp : p.ssrc = ssrc) :
    addReceivedPacket FlexfecReceiver.webrtc r' (renameFec ssrc' p) =
      match addReceivedPacket FlexfecReceiver.webrtc r p with
      | .dropped => .dropped
      | .aborted => .aborted
      | .received packet => .received ((moved list ssrc ssrc' ssrc).received packet) := by
  by_cases htype : p.payloadType = 113
  · have hfec : renameFec ssrc' p = p.setSsrc ssrc' := if_pos htype
    have hown' : (p.setSsrc ssrc').ssrc = r'.ssrc := by rw [h.same]; rfl
    have htype' : (p.setSsrc ssrc').payloadType = 113 := htype
    rw [hfec, addReceivedPacket_fec (hp.trans h.own.symm) htype,
      addReceivedPacket_fec hown' htype']
    have hpayload : FlexfecReceiver.webrtc.ofFec (p.setSsrc ssrc') = FlexfecReceiver.webrtc.ofFec p :=
      congrArg Packet.ofBytes (RtpPacketReceived.payload_setSsrc p ssrc')
    rw [hpayload]
    change (if p.payloadSize < kMinFlexfecHeaderSize then _ else _) = _
    split
    · rfl
    · simp only [Simulation.received, if_true, moved, h.own, h.same, Equiv.swap_apply_left]
      rfl
  · have hmedia : renameFec ssrc' p = p := if_neg htype
    have hprotected : r'.protectedMediaSsrc = r.protectedMediaSsrc := by rw [h.same]
    rw [hmedia, addReceivedPacket_media htype (hp.trans h.media.symm),
      addReceivedPacket_media htype (hp.trans (hprotected.trans h.media).symm), hprotected]
    cases FlexfecReceiver.webrtc.ofMedia p <;> rfl

theorem process_alike (h : Alike list ssrc ssrc' r r') (p : ReceivedPacket Packet) :
    Alike list ssrc ssrc' (process FlexfecReceiver.webrtc list r p)
      (process FlexfecReceiver.webrtc list r' ((moved list ssrc ssrc' ssrc).received p)) := by
  have hmap := (moved list ssrc ssrc' ssrc).processReceivedPacket_map
    (moved_recovers list ssrc ssrc' ssrc) r.decoder p
    (moved_reads list ssrc ssrc' ssrc p) trivial
  refine ⟨h.own, h.media, ?_⟩
  rw [h.same]
  simp only [process, FlexfecReceiver.webrtc, h.media, hmap]
  congr 2
  exact congrArg (List.map Packet.bytes) (List.map_id _)

theorem step_alike (h : Alike list ssrc ssrc' r r') {p : RtpPacketReceived} (hp : p.ssrc = ssrc) :
    Alike list ssrc ssrc' (onRtpPacket FlexfecReceiver.webrtc list r p)
      (onRtpPacket FlexfecReceiver.webrtc list r' (renameFec ssrc' p)) := by
  have hrecovered : (renameFec ssrc' p).recovered = p.recovered := by
    rw [renameFec]
    split <;> rfl
  have haborted : r'.aborted = r.aborted := by rw [h.same]
  rw [onRtpPacket, onRtpPacket, hrecovered, haborted, add_alike h hp]
  split
  · exact h
  · split
    · exact h
    · cases addReceivedPacket FlexfecReceiver.webrtc r p with
      | dropped => exact h
      | aborted => exact ⟨h.own, h.media, by rw [h.same]⟩
      | received packet => exact process_alike h packet

end Step

/-- For packets on one SSRC, those of payload type 113 being the FEC packets, the receiver of that
SSRC passes on what the receiver of two SSRCs passes on of the same packets with the FEC packets
on the other SSRC. -/
theorem passed_eq_of_one_ssrc (list : ListSort) (ssrc ssrc' : UInt32)
    (packets : List RtpPacketReceived) (h : ∀ p ∈ packets, p.ssrc = ssrc) :
    (run FlexfecReceiver.webrtc list (create ssrc ssrc) packets).passed =
      (run FlexfecReceiver.webrtc list (create ssrc' ssrc)
        (packets.map (renameFec ssrc'))).passed := by
  have halike : Alike list ssrc ssrc' (run FlexfecReceiver.webrtc list (create ssrc ssrc) packets)
      (run FlexfecReceiver.webrtc list (create ssrc' ssrc) (packets.map (renameFec ssrc'))) := by
    induction packets using List.reverseRecOn with
    | nil => exact ⟨rfl, rfl, rfl⟩
    | append_singleton packets p ih =>
      rw [List.map_append, List.map_singleton, run, run, StepTrace.run_concat,
        StepTrace.run_concat]
      exact step_alike (ih fun q hq => h q (List.mem_append_left _ hq))
        (h p (List.mem_append_right _ List.mem_cons_self))
  rw [halike.same]

/-- A packet of SSRC 1 with a header of 12 bytes. -/
def plainPacket (payloadType : UInt8) (sequenceNumber : UInt16) (payload : List UInt8) :
    RtpPacketReceived where
  payloadType := payloadType
  sequenceNumber := sequenceNumber
  ssrc := 1
  payloadOffset := 12
  payloadSize := payload.length
  paddingSize := 0
  extensionEntries := []
  extensionType _ := .none
  recovered := false
  buffer := [0x80, payloadType] ++ be16 sequenceNumber ++ [0, 0, 0, 0, 0, 0, 0, 1] ++ payload
  fixedHeader := Nat.le_refl _
  buffer_length := by
    simp only [List.length_append, List.length_cons, List.length_nil, be16]
    omega

/-- An FEC packet for packets 1 and 2, and packet 1: packet 2 is recovered on one SSRC as on
two. -/
theorem passed_eq_of_one_ssrc_pair :
    let packets := [plainPacket 113 40000
      [0, 0, 0, 0, 0, 0, 0, 0, 1, 0, 0, 0, 0, 0, 0, 1, 0, 1, 0xe0, 0, 7], plainPacket 96 1 [7]]
    (run FlexfecReceiver.webrtc insertionListSort (create 1 1) packets).passed =
        [[0x80, 96, 0, 2, 0, 0, 0, 0, 0, 0, 0, 1, 0]] ∧
      (run FlexfecReceiver.webrtc insertionListSort (create 1 1) packets).passed =
        (run FlexfecReceiver.webrtc insertionListSort (create 2 1)
          (packets.map (renameFec 2))).passed :=
  ⟨by decide +kernel, passed_eq_of_one_ssrc _ 1 2 _ (by decide)⟩

end FlexfecSsrc
