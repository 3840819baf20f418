import TransportDemo.FlexfecPacket
import TransportDemo.StepTrace

/-!
# The FlexFEC receiver

`FlexfecReceiver` tells FEC packets from media packets by SSRC and payload
type, hands both to the decoder, and passes the recovered packets on. A failed
`RTC_CHECK` ends the process.
-/

namespace FlexfecReceiver

open FlexfecDecoder FlexfecPacket ByteBuffer

inductive RTPExtensionType where
  | none | transmissionTimeOffset | audioLevel | inbandComfortNoise | absoluteSendTime
  | absoluteCaptureTime | videoRotation | transportSequenceNumber | transportSequenceNumber02
  | playoutDelay | videoContentType | videoTiming | frameMarking | rtpStreamId
  | repairedRtpStreamId | mid | genericFrameDescriptor00 | genericFrameDescriptor01
  | genericFrameDescriptor02 | colorSpace | numberOfExtensions

structure ExtensionInfo where
  id : UInt8
  length : UInt8
  offset : UInt16

/-- A parsed packet: `extensions_.GetType` is the field `extensionType`. -/
structure RtpPacketReceived where
  payloadType : UInt8
  sequenceNumber : UInt16
  ssrc : UInt32
  payloadOffset : Nat
  payloadSize : Nat
  paddingSize : Nat
  extensionEntries : List ExtensionInfo
  extensionType : UInt8 → RTPExtensionType
  recovered : Bool
  buffer : List UInt8
  fixedHeader : kRtpHeaderSize ≤ payloadOffset
  buffer_length : buffer.length = payloadOffset + payloadSize + paddingSize

namespace RtpPacketReceived

def size (p : RtpPacketReceived) : Nat := p.payloadOffset + p.payloadSize + p.paddingSize

def payload (p : RtpPacketReceived) : List UInt8 :=
  (p.buffer.drop p.payloadOffset).take p.payloadSize

/-- The SSRC is also written to its place in the buffer. -/
def setSsrc (p : RtpPacketReceived) (ssrc : UInt32) : RtpPacketReceived :=
  { p with
    ssrc := ssrc
    buffer := p.buffer.take 8 ++ be32 ssrc ++ p.buffer.drop 12
    buffer_length := by
      have hfixed := p.fixedHeader
      have hlength := p.buffer_length
      simp only [kRtpHeaderSize] at hfixed
      simp only [List.length_append, List.length_take, List.length_drop, be32, List.length_cons,
        List.length_nil]
      omega }

theorem payload_setSsrc (p : RtpPacketReceived) (ssrc : UInt32) :
    (p.setSsrc ssrc).payload = p.payload := by
  have hfixed := p.fixedHeader
  have hlength := p.buffer_length
  simp only [kRtpHeaderSize] at hfixed
  have hhead : (p.buffer.take 8 ++ be32 ssrc).length = 12 := by
    simp only [List.length_append, List.length_take, be32, List.length_cons, List.length_nil]
    omega
  have hdrop : (p.buffer.take 8 ++ be32 ssrc ++ p.buffer.drop 12).drop p.payloadOffset =
      p.buffer.drop p.payloadOffset := by
    rw [List.drop_append, hhead, List.drop_of_length_le (by omega), List.nil_append,
      List.drop_drop, Nat.add_sub_cancel' hfixed]
  exact congrArg (List.take p.payloadSize) hdrop

/-- What one extension entry zeroes: an offset and a number of bytes. -/
def mutableBytes (p : RtpPacketReceived) (e : ExtensionInfo) : Option (Nat × Nat) :=
  match p.extensionType e.id with
  | .videoTiming => some (e.offset.toNat + 7, 6)
  | .transportSequenceNumber | .transportSequenceNumber02 | .transmissionTimeOffset
  | .absoluteSendTime => some (e.offset.toNat, e.length.toNat)
  | _ => none

def zero (data : Nat → UInt8) (range : Option (Nat × Nat)) : Nat → UInt8 :=
  match range with
  | none => data
  | some (off, count) => store data off (List.replicate count 0)

/-- Into a buffer of 1500 zeros; `RTC_CHECK_GE` on its size comes first. -/
def copyAndZeroMutableExtensions (p : RtpPacketReceived) : Option (Nat → UInt8) :=
  if IP_PACKET_SIZE < p.buffer.length then none
  else
    some ((p.extensionEntries.map p.mutableBytes).foldl zero (Packet.ofBytes p.buffer).data)

end RtpPacketReceived

/-- How a build stores what it receives, and what it hands to `OnRecoveredPacket`. -/
structure Build (P Q : Type) where
  code : ListSort → UInt32 → ErasureCode P Q
  ofFec : RtpPacketReceived → P
  ofMedia : RtpPacketReceived → Option P
  bytes : P → List UInt8

/-- `passed` are the calls of `OnRecoveredPacket` so far. -/
structure Receiver (P Q : Type) where
  ssrc : UInt32
  protectedMediaSsrc : UInt32
  decoder : State P Q
  passed : List (List UInt8)
  aborted : Bool

def create {P Q : Type} (ssrc protectedMediaSsrc : UInt32) : Receiver P Q :=
  ⟨ssrc, protectedMediaSsrc, ⟨[], []⟩, [], false⟩

/-- Minimum header size in bytes of a well-formed non-singular FlexFEC packet. -/
def kMinFlexfecHeaderSize : Nat := 20

inductive Added (P : Type) where
  | dropped
  | aborted
  | received (packet : ReceivedPacket P)

section Code

variable {P Q : Type} (b : Build P Q) (list : ListSort)

def addReceivedPacket (r : Receiver P Q) (packet : RtpPacketReceived) : Added P :=
  if packet.ssrc = r.ssrc ∧ packet.payloadType = 113 then
    if packet.payloadSize < kMinFlexfecHeaderSize then .dropped
    else .received ⟨packet.ssrc, packet.sequenceNumber, true, b.ofFec packet⟩
  else if packet.ssrc ≠ r.protectedMediaSsrc then .dropped
  else
    match b.ofMedia packet with
    | none => .aborted
    | some pkt => .received ⟨packet.ssrc, packet.sequenceNumber, false, pkt⟩

/-- The decoder's step and the callbacks it leads to. -/
def process (r : Receiver P Q) (packet : ReceivedPacket P) : Receiver P Q :=
  let (decoder, out) := processReceivedPacket (b.code list r.protectedMediaSsrc) r.decoder packet
  { r with decoder := decoder, passed := r.passed ++ out.map b.bytes }

def onRtpPacket (r : Receiver P Q) (packet : RtpPacketReceived) : Receiver P Q :=
  if r.aborted then r
  else if packet.recovered then r
  else
    match addReceivedPacket b r packet with
    | .dropped => r
    | .aborted => { r with aborted := true }
    | .received received => process b list r received

variable {b list} {r : Receiver P Q} {packet : RtpPacketReceived}

theorem addReceivedPacket_fec (h : packet.ssrc = r.ssrc) (htype : packet.payloadType = 113) :
    addReceivedPacket b r packet =
      if packet.payloadSize < kMinFlexfecHeaderSize then .dropped
      else .received ⟨r.ssrc, packet.sequenceNumber, true, b.ofFec packet⟩ :=
  (if_pos ⟨h, htype⟩).trans (h ▸ rfl)

theorem addReceivedPacket_media (htype : packet.payloadType ≠ 113)
    (h : packet.ssrc = r.protectedMediaSsrc) :
    addReceivedPacket b r packet =
      match b.ofMedia packet with
      | none => .aborted
      | some pkt => .received ⟨r.protectedMediaSsrc, packet.sequenceNumber, false, pkt⟩ := by
  rw [addReceivedPacket, if_neg fun hfec => htype hfec.2, if_neg fun hne => hne h, h]

variable (b list)

def run (r : Receiver P Q) (packets : List RtpPacketReceived) : Receiver P Q :=
  StepTrace.run (onRtpPacket b list) r packets

end Code

/-- The receiver of namespace `webrtc`. -/
def webrtc : Build Packet FecHeader where
  code := FlexfecPacket.webrtc
  ofFec p := Packet.ofBytes p.payload
  ofMedia p := p.copyAndZeroMutableExtensions.map (Packet.mk p.size)
  bytes := Packet.bytes

end FlexfecReceiver
