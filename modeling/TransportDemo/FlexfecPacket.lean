import TransportDemo.ByteBuffer
import TransportDemo.FlexfecDecoder

/-!
# FlexFEC packets

A packet is its length and its bytes from the first on. An FEC packet starts
with a header of 20, 24 or 32 bytes that ends in the packet mask, which is
interleaved with the K-bits that tell its size; behind it stands the exclusive
or of what it protects.
-/

namespace FlexfecPacket

open ByteBuffer FlexfecDecoder

def IP_PACKET_SIZE : Nat := 1500
def kRtpHeaderSize : Nat := 12
def kBaseHeaderSize : Nat := 12
def kStreamSpecificHeaderSize : Nat := 6
def kPacketMaskOffset : Nat := kBaseHeaderSize + kStreamSpecificHeaderSize

/-- Bytes of a packet mask with 1, 2 and 3 K-bits. -/
def kFlexfecPacketMaskSizes : Nat × Nat × Nat := (2, 6, 14)

def kHeaderSizes : Nat × Nat × Nat := (20, 24, 32)

/-- A `Packet`: bytes that nothing was written to are zero, and a write past the 1500 bytes stays
apart from other data. -/
@[ext] structure Packet where
  length : Nat
  data : Nat → UInt8

def Packet.ofBytes (bytes : List UInt8) : Packet := ⟨bytes.length, fun i => bytes.getD i 0⟩

/-- The bytes that `length` covers. -/
def Packet.bytes (p : Packet) : List UInt8 := (List.range p.length).map p.data

/-- `memcpy` of the bytes to offset `off`. -/
def store (data : Nat → UInt8) (off : Nat) (bytes : List UInt8) : Nat → UInt8 :=
  fun i => if off ≤ i ∧ i < off + bytes.length then bytes.getD (i - off) 0 else data i

def be64 (v : UInt64) : List UInt8 := be32 (v >>> 32).toUInt32 ++ be32 v.toUInt32

def readBigEndian16 (data : Nat → UInt8) (off : Nat) : UInt16 := of16 (data off) (data (off + 1))

def readBigEndian32 (data : Nat → UInt8) (off : Nat) : UInt32 :=
  of32 (data off) (data (off + 1)) (data (off + 2)) (data (off + 3))

def readBigEndian64 (data : Nat → UInt8) (off : Nat) : UInt64 :=
  (readBigEndian32 data off).toUInt64 <<< 32 ||| (readBigEndian32 data (off + 4)).toUInt64

/-- What `ReadFecHeader` leaves in the received FEC packet: its bytes, with the mask packed in
place, and the fields. -/
structure FecHeader where
  pkt : Packet
  fecHeaderSize : Nat
  protectedSsrc : UInt32
  seqNumBase : UInt16
  packetMaskOffset : Nat
  packetMaskSize : Nat
  protectionLength : Nat

def flexfecHeaderSize (packetMaskSize : Nat) : Nat :=
  if packetMaskSize ≤ kFlexfecPacketMaskSizes.1 then kHeaderSizes.1
  else if packetMaskSize ≤ kFlexfecPacketMaskSizes.2.1 then kHeaderSizes.2.1
  else kHeaderSizes.2.2

/-- The bytes with K-bit 0 shifted out of the mask. -/
def shiftKBit0 (data : Nat → UInt8) : Nat → UInt8 :=
  store data 18 (be16 (readBigEndian16 data 18 <<< 1))

/-- Bit 15 and bits 46 and 47, from the byte with the K-bit in front of them. -/
def bit15 (x : UInt8) : UInt8 := (x >>> 6) &&& 1

def tailBits (x : UInt8) : UInt8 := (x >>> 5) &&& 3

/-- K-bit 1 and bit 15 shifted out of the next four bytes, and bit 15 put in its place. -/
def shiftKBit1 (data : Nat → UInt8) : Nat → UInt8 :=
  let data := store data 19 [data 19 ||| bit15 (data 20)]
  store data 20 (be32 (readBigEndian32 data 20 <<< 2))

/-- The same for K-bit 2 and bits 46 and 47 in the last eight bytes. -/
def shiftKBit2 (data : Nat → UInt8) : Nat → UInt8 :=
  let data := store data 23 [data 23 ||| tailBits (data 24)]
  store data 24 (be64 (readBigEndian64 data 24 <<< 3))

/-- The mask with its K-bits removed, and its size; the shifts stop at the first K-bit set. -/
def readPacketMask (pkt : Packet) : Option ((Nat → UInt8) × Nat) :=
  if pkt.length < kHeaderSizes.1 then none
  else
    let data := shiftKBit0 pkt.data
    if pkt.data 18 &&& 0x80 ≠ 0 then some (data, kFlexfecPacketMaskSizes.1)
    else if pkt.length < kHeaderSizes.2.1 then none
    else
      let data := shiftKBit1 data
      if pkt.data 20 &&& 0x80 ≠ 0 then some (data, kFlexfecPacketMaskSizes.2.1)
      else if pkt.length < kHeaderSizes.2.2 then none
      else if pkt.data 24 &&& 0x80 ≠ 0 then
        some (shiftKBit2 data, kFlexfecPacketMaskSizes.2.2)
      else none

/-- The text of `ReadFecHeader` is the same in both builds. -/
def readFecHeader (pkt : Packet) : Option FecHeader :=
  if pkt.length ≤ kBaseHeaderSize + kStreamSpecificHeaderSize then none
  else if pkt.data 0 &&& 0x80 ≠ 0 then none
  else if pkt.data 0 &&& 0x40 ≠ 0 then none
  else if pkt.data 8 ≠ 1 then none
  else
    (readPacketMask pkt).map fun (data, packetMaskSize) =>
      { pkt := { pkt with data := data }
        fecHeaderSize := flexfecHeaderSize packetMaskSize
        protectedSsrc := readBigEndian32 pkt.data 12
        seqNumBase := readBigEndian16 pkt.data 16
        packetMaskOffset := kPacketMaskOffset
        packetMaskSize := packetMaskSize
        protectionLength := pkt.length - flexfecHeaderSize packetMaskSize }

def maskBit (mask : UInt8) (bitIdx : Nat) : Bool := mask &&& (1 <<< (7 - UInt8.ofNat bitIdx)) ≠ 0

/-- The numbers of the protected packets, which wrap. -/
def maskSeqNums (h : FecHeader) : List UInt16 :=
  (List.range h.packetMaskSize).flatMap fun byteIdx =>
    ((List.range 8).filter (maskBit (h.pkt.data (h.packetMaskOffset + byteIdx)))).map fun bitIdx =>
      h.seqNumBase + UInt16.ofNat (byteIdx <<< 3) + UInt16.ofNat bitIdx

/-! ### `webrtc::ForwardErrorCorrection` -/

/-- The first 8 bytes, with the length in the place of the number. -/
def xorHeaders (src dst : Packet) : Packet :=
  let srcPayloadLength := be16 (UInt16.ofNat src.length - 12)
  { dst with
    data := fun i =>
      if i = 2 ∨ i = 3 then dst.data i ^^^ srcPayloadLength.getD (i - 2) 0
      else if i < 8 then dst.data i ^^^ src.data i
      else dst.data i }

def xorPayloads (src : Packet) (payloadLength dstOffset : Nat) (dst : Packet) : Packet :=
  { dst with
    data := fun i =>
      if dstOffset ≤ i ∧ i < dstOffset + payloadLength then
        dst.data i ^^^ src.data (kRtpHeaderSize + (i - dstOffset))
      else dst.data i }

def startPacketRecovery (h : FecHeader) : Option Packet :=
  if h.pkt.length < h.fecHeaderSize then none
  else if min (IP_PACKET_SIZE - kRtpHeaderSize) (IP_PACKET_SIZE - h.fecHeaderSize) <
      h.protectionLength then none
  else
    some
      { length := 0
        data := fun i =>
          if i < kRtpHeaderSize then h.pkt.data i
          else if i < kRtpHeaderSize + h.protectionLength then
            h.pkt.data (h.fecHeaderSize + (i - kRtpHeaderSize))
          else 0 }

/-- The fixed bits, the length, the number and the SSRC. -/
def finishPacketRecovery (h : FecHeader) (seqNum : UInt16) (pkt : Packet) :
    Option (RecoveredPacket Packet) :=
  let data := store pkt.data 0 [(pkt.data 0 ||| 0x80) &&& 0xbf]
  let length := (readBigEndian16 data 2).toNat + kRtpHeaderSize
  if IP_PACKET_SIZE - kRtpHeaderSize < length then none
  else
    some
      { ssrc := h.protectedSsrc
        seqNum := seqNum
        returned := false
        pkt := ⟨length, store (store data 2 (be16 seqNum)) 8 (be32 h.protectedSsrc)⟩ }

/-- One protected packet in the loop of `RecoverPacket`. -/
def recoverStep (r : UInt16 × Packet) (p : ProtectedPacket Packet) : UInt16 × Packet :=
  match p.pkt with
  | none => (p.seqNum, r.2)
  | some src => (r.1, xorPayloads src src.length kRtpHeaderSize (xorHeaders src r.2))

def recoverPacket (h : FecHeader) (slots : List (ProtectedPacket Packet)) :
    Option (RecoveredPacket Packet) := do
  let pkt ← startPacketRecovery h
  let (seqNum, pkt) := slots.foldl recoverStep (0, pkt)
  finishPacketRecovery h seqNum pkt

/-- `ForwardErrorCorrection::CreateFlexfec` of namespace `webrtc`. -/
def webrtc (list : ListSort) (protectedMediaSsrc : UInt32) : ErasureCode Packet FecHeader where
  protectedMediaSsrc := protectedMediaSsrc
  checksIsFec := true
  readFecHeader := readFecHeader
  protectedSsrc := FecHeader.protectedSsrc
  maskSeqNums h := some (maskSeqNums h)
  recoverPacket := recoverPacket
  list := list

end FlexfecPacket
