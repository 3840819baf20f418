import TransportDemo.NackReceiver

/-!
# The sender

The sender numbers its packets, keeps the last packet of every number, and
answers NACK packets from that store. An echo of a probe repeats its number.
-/

namespace NackSender

open ByteBuffer NackPacket NackRoundTrip

/-- `UDPSender` of the sender. -/
structure Sender where
  pktMap : UInt16 → Option TESTTPPacket
  seq : UInt16

/-- `UDPSender::UDPSender`. -/
def initial : Sender := ⟨fun _ => none, 1⟩

/-- `sender_test`: the packet is stored under its number and sent. -/
def senderTest (s : Sender) (seq : UInt16) (timestamp : UInt32) (fresh : TESTTPPacket) :
    Option (TESTTPPacket × Sender) :=
  (packingPacket fresh seq timestamp).map fun pkt =>
    (pkt, { s with pktMap := fun n => if n = seq then some pkt else s.pktMap n })

/-- `handle_crude_timer` at clock reading `nowMs`. -/
def handleCrudeTimer (s : Sender) (nowMs : UInt64) (fresh : TESTTPPacket) :
    Option (TESTTPPacket × Sender) :=
  (senderTest s s.seq nowMs.toUInt32 fresh).map fun (pkt, s) => (pkt, { s with seq := s.seq + 1 })

/-- `handle_receive_from`: the packets sent, in order, and the state after it. -/
def handleReceiveFrom (s : Sender) (pkt fresh : TESTTPPacket) :
    Option (List TESTTPPacket × Sender) :=
  if getType pkt = TPYE_RTT then
    (rttPacking fresh (getRttNum pkt).toUInt16).map fun echo => ([echo], s)
  else some ((unpackingNack pkt []).value.2.filterMap s.pktMap, s)

/-- A tick stores the packet it sends and moves to the next number. -/
theorem tick_spec (s : Sender) (nowMs : UInt64) (fresh : TESTTPPacket) : ∃ pkt,
    handleCrudeTimer s nowMs fresh = some (pkt,
      ⟨fun n => if n = s.seq then some pkt else s.pktMap n, s.seq + 1⟩) ∧
      getType pkt = TPYE_TRANSPORT_PACKET ∧ getSequence pkt = s.seq := by
  obtain ⟨pkt, hpkt, htype, hseq⟩ := packingPacket_spec fresh s.seq nowMs.toUInt32
  refine ⟨pkt, ?_, htype, hseq⟩
  simp [handleCrudeTimer, senderTest, hpkt]

end NackSender
