import Mathlib.Data.List.GetD
import TransportDemo.FlexfecEncoder

/-!
# Genuine media and FEC packets

A media packet is one that `EncodeFec` accepts and that leaves room for the
overhead; an FEC packet is made for a block of them in the order of their
numbers. Reading its header gives back what it protects.
-/

namespace FlexfecParity

open ByteBuffer FlexfecPacket FlexfecMask FlexfecEncoder

def kTransportOverhead : Nat := 28

/-- An RTP packet of the protected SSRC. -/
structure Media (ssrc : UInt32) where
  bytes : List UInt8
  header : kRtpHeaderSize ≤ bytes.length
  fits : bytes.length + kHeaderSizes.2.2 + kTransportOverhead ≤ IP_PACKET_SIZE
  version : bytes.getD 0 0 &&& 0xc0 = 0x80
  own : parseSsrc (Packet.ofBytes bytes) = ssrc

variable {ssrc : UInt32}

theorem Media.ext {m m' : Media ssrc} (h : m.bytes = m'.bytes) : m = m' := by
  cases m
  cases h
  rfl

def Media.packet (m : Media ssrc) : Packet := Packet.ofBytes m.bytes

def Media.seqNum (m : Media ssrc) : UInt16 := parseSequenceNumber m.packet

/-- `seq_num_base`, the number of the first packet. -/
def baseOf (block : List (Media ssrc)) : UInt16 :=
  match block with
  | [] => 0
  | front :: _ => front.seqNum

/-- A block and a row of its mask. The rows that `GeneratePacketMasks` and
`InsertZerosInPacketMasks` make have 16 or 48 bits, set only where a packet of the block stands, and
protect something. -/
structure Parity (ssrc : UInt32) where
  block : List (Media ssrc)
  mask : List UInt8
  ascending : (block.map fun m => offset (baseOf block) m.seqNum).Pairwise (· < ·)
  mask_length : mask.length = 2 ∨ mask.length = 6
  mask_bits : ∀ o < 8 * mask.length, bitAt mask o = true →
    ∃ m ∈ block, offset (baseOf block) m.seqNum = o
  span : ∀ m ∈ block, offset (baseOf block) m.seqNum < 8 * mask.length
  protects : ∃ m ∈ block, bitAt mask (offset (baseOf block) m.seqNum) = true

namespace Parity

variable (d : Parity ssrc)

def base : UInt16 := baseOf d.block

def headerSize : Nat := flexfecHeaderSize (minPacketMaskSize d.mask)

/-- The packets whose bit is set, in the order of the block. -/
def protectedMedia : List (Media ssrc) :=
  d.block.filter fun m => bitAt d.mask (offset d.base m.seqNum)

def packet : Packet := encodeFec d.mask (d.block.map Media.packet)

end Parity

/-- What the header of an FEC packet says about it. -/
structure Describes (d : Parity ssrc) (h : FecHeader) : Prop where
  fecHeaderSize : h.fecHeaderSize = d.headerSize
  protectedSsrc : h.protectedSsrc = ssrc
  protectionLength : d.headerSize + h.protectionLength = h.pkt.length
  covers : ∀ m ∈ d.protectedMedia, m.bytes.length ≤ kRtpHeaderSize + h.protectionLength
  short : h.protectionLength + kRtpHeaderSize + kHeaderSizes.2.2 + kTransportOverhead ≤
    IP_PACKET_SIZE
  seqNums : maskSeqNums h = d.protectedMedia.map Media.seqNum
  first : h.pkt.data 0 =
    (xorAll (d.protectedMedia.map (headerByte ·.packet 0)) &&& 0x7f) &&& 0xbf
  front : ∀ i, 0 < i → i < 8 →
    h.pkt.data i = xorAll (d.protectedMedia.map (headerByte ·.packet i))
  payload : ∀ i, h.pkt.data (d.headerSize + i) =
    xorAll (d.protectedMedia.map (·.packet.data (kRtpHeaderSize + i)))

theorem Media.clean (m : Media ssrc) : Packet.Clean m.packet := by
  intro i hi
  exact List.getD_eq_default _ _ hi

theorem headerSize_eq (d : Parity ssrc) :
    d.headerSize = 18 + minPacketMaskSize d.mask ∧
      (d.headerSize = 20 ∨ d.headerSize = 24 ∨ d.headerSize = 32) := by
  rw [Parity.headerSize, minPacketMaskSize]
  split
  · exact ⟨rfl, .inl rfl⟩
  · split
    · exact ⟨rfl, .inr (.inl rfl)⟩
    · split
      · exact ⟨rfl, .inr (.inl rfl)⟩
      · exact ⟨rfl, .inr (.inr rfl)⟩

/-- The payloads of an FEC packet, before its header is written. -/
def payloads (d : Parity ssrc) : Packet :=
  (d.protectedMedia.map Media.packet).foldl (protect d.headerSize) ⟨0, fun _ => 0⟩

theorem packet_eq (d : Parity ssrc) :
    d.packet = finalizeFecHeader ssrc d.base d.mask (payloads d) := by
  have hasc : ((d.block.map Media.packet).map fun p =>
      offset d.base (parseSequenceNumber p)).Pairwise (· < ·) := by
    rw [List.map_map]
    exact d.ascending
  have hprotected : (d.block.map Media.packet).filter (fun p =>
      bitAt d.mask (offset d.base (parseSequenceNumber p))) =
      d.protectedMedia.map Media.packet := List.filter_map
  have hhead : ∀ p ∈ (d.block.map Media.packet).head?,
      offset d.base (parseSequenceNumber p) = 0 := by
    intro p hp
    rw [Parity.base]
    cases hblock : d.block with
    | nil => simp [hblock] at hp
    | cons front rest =>
      obtain rfl : front.packet = p := by simpa [hblock] using hp
      simp [offset, baseOf, Media.seqNum]
  have hloop := generateLoop_eq d.mask d.headerSize d.base hasc hhead ⟨0, fun _ => 0⟩
  rw [hprotected] at hloop
  obtain ⟨m, hm, -⟩ := d.protects
  rw [payloads, ← hloop, Parity.packet, Parity.base]
  cases hblock : d.block with
  | nil => exact absurd (hblock ▸ hm) List.not_mem_nil
  | cons front rest =>
    rw [List.map_cons, encodeFec, show parseSsrc front.packet = ssrc from front.own]
    rfl

/-- Bytes of the header that `FinalizeFecHeader` does not leave to the mask. -/
theorem finalizeFecHeader_data (mediaSsrc : UInt32) (base : UInt16) (fec : Packet) :
    ∃ data, (∀ mask, finalizeFecHeader mediaSsrc base mask fec =
        { fec with data := writePacketMask mask data }) ∧
      data 0 = (fec.data 0 &&& 0x7f) &&& 0xbf ∧ data 8 = 1 ∧
      readBigEndian32 data 12 = mediaSsrc ∧ readBigEndian16 data 16 = base ∧
      ∀ i, 0 < i → i < 8 ∨ 18 ≤ i → data i = fec.data i := by
  refine ⟨_, fun mask => rfl, rfl, rfl, ?_, ?_, ?_⟩
  · exact of32_be32 mediaSsrc
  · exact of16_be16 base
  · intro i h0 hi
    rw [store_outside _ (by simp [be16]; omega), store_outside _ (by simp [be32]; omega),
      store_outside _ (by simp; omega), store_outside _ (by simp; omega),
      store_outside _ (by simp; omega)]

/-- The FEC packet before its mask is written, and with it. -/
theorem packet_data (d : Parity ssrc) : ∃ data,
    d.packet = ⟨(payloads d).length, writePacketMask d.mask data⟩ ∧
      data 0 = ((payloads d).data 0 &&& 0x7f) &&& 0xbf ∧ data 8 = 1 ∧
      readBigEndian32 data 12 = ssrc ∧ readBigEndian16 data 16 = d.base ∧
      ∀ i, 0 < i → i < 8 ∨ 18 ≤ i → data i = (payloads d).data i := by
  obtain ⟨data, hdata, hspec⟩ := finalizeFecHeader_data ssrc d.base (payloads d)
  exact ⟨data, (packet_eq d).trans (hdata d.mask), hspec⟩

theorem payloads_data (d : Parity ssrc) (i : Nat) : (payloads d).data i =
    xorAll (d.protectedMedia.map (contribution d.headerSize ·.packet i)) := by
  have hsize := (headerSize_eq d).2
  rw [payloads, foldl_protect_data (by omega) ?_ fun _ _ => rfl, List.map_map]
  · rfl
  · intro p hp
    obtain ⟨m, -, rfl⟩ := List.mem_map.mp hp
    exact ⟨m.clean, m.header⟩

/-- The payload is as long as the longest that it protects. -/
theorem payloads_length (d : Parity ssrc) : d.headerSize ≤ (payloads d).length ∧
    (∀ m ∈ d.protectedMedia, m.bytes.length ≤
      kRtpHeaderSize + ((payloads d).length - d.headerSize)) ∧
    (payloads d).length + kRtpHeaderSize + kHeaderSizes.2.2 + kTransportOverhead ≤
      d.headerSize + IP_PACKET_SIZE := by
  have hlong : ∀ m ∈ d.protectedMedia,
      d.headerSize + (m.bytes.length - kRtpHeaderSize) ≤ (payloads d).length := by
    intro m hm
    exact (le_foldl_protect_length d.headerSize _ _).2 m.packet (List.mem_map_of_mem hm)
  have hshort : (payloads d).length ≤ d.headerSize + (IP_PACKET_SIZE - kRtpHeaderSize -
      kHeaderSizes.2.2 - kTransportOverhead) := by
    refine foldl_protect_length_le (Nat.zero_le _) fun p hp => ?_
    obtain ⟨m, -, rfl⟩ := List.mem_map.mp hp
    have hfits := m.fits
    have hlength : m.packet.length = m.bytes.length := rfl
    rw [hlength]
    omega
  obtain ⟨m, hm, hbit⟩ := d.protects
  have hfirst := hlong m (List.mem_filter.mpr ⟨hm, hbit⟩)
  refine ⟨by omega, fun m' hm' => ?_, ?_⟩
  · have hm' := hlong m' hm'
    omega
  · simp only [IP_PACKET_SIZE, kRtpHeaderSize, kHeaderSizes, kTransportOverhead] at hshort ⊢
    omega

/-! ### Reading the header back -/

/-- The numbers of a mask's bits, in one go. -/
theorem maskSeqNums_eq {h : FecHeader} {mask : List UInt8}
    (hmask : ∀ i < h.packetMaskSize, h.pkt.data (h.packetMaskOffset + i) = mask.getD i 0) :
    maskSeqNums h = ((List.range (8 * h.packetMaskSize)).filter (bitAt mask)).map fun o =>
      h.seqNumBase + UInt16.ofNat o := by
  rw [maskSeqNums]
  have hpart : ∀ n ≤ h.packetMaskSize, (List.range n).flatMap (fun byteIdx =>
      ((List.range 8).filter (maskBit (h.pkt.data (h.packetMaskOffset + byteIdx)))).map
        fun bitIdx => h.seqNumBase + UInt16.ofNat (byteIdx <<< 3) + UInt16.ofNat bitIdx) =
      ((List.range (8 * n)).filter (bitAt mask)).map fun o =>
        h.seqNumBase + UInt16.ofNat o := by
    intro n hn
    induction n with
    | zero => rfl
    | succ n ih =>
      have hbits : ((List.range 8).filter (maskBit (h.pkt.data (h.packetMaskOffset + n)))) =
          (List.range 8).filter (bitAt mask ∘ (8 * n + ·)) := by
        refine List.filter_congr fun j hj => ?_
        have hj : j < 8 := List.mem_range.mp hj
        rw [hmask n (by omega), Function.comp_apply, bitAt,
          show (8 * n + j) / 8 = n by omega, show (8 * n + j) % 8 = j by omega]
      have hnums (j : Nat) : h.seqNumBase + UInt16.ofNat (n <<< 3) + UInt16.ofNat j =
          h.seqNumBase + UInt16.ofNat (8 * n + j) := by
        rw [Nat.shiftLeft_eq, UInt16.ofNat_add, UInt16.add_assoc, Nat.mul_comm]
      rw [List.range_succ (n := n), List.flatMap_append, ih (by omega), Nat.mul_succ, List.range_add,
        List.filter_append, List.filter_map, List.map_append, List.map_map, ← hbits]
      simp only [List.flatMap_cons, List.flatMap_nil, List.append_nil, hnums]
      rfl
  exact hpart _ (Nat.le_refl _)

theorem length_le_minPacketMaskSize {mask : List UInt8}
    (h : mask.length = 2 ∨ mask.length = 6) : mask.length ≤ minPacketMaskSize mask := by
  rw [minPacketMaskSize]
  split_ifs <;> simp only [kFlexfecPacketMaskSizes] <;> omega

theorem bitAt_beyond {mask : List UInt8} {o : Nat} (h : 8 * mask.length ≤ o) :
    bitAt mask o = false := by
  have hbyte : mask.getD (o / 8) 0 = 0 := List.getD_eq_default _ _ (by omega)
  rw [bitAt, hbyte, maskBit, UInt8.zero_and]
  rfl

/-- The bits that are set are those of the protected packets, in their order. -/
theorem filter_bitAt (d : Parity ssrc) {n : Nat} (hn : d.mask.length ≤ n) :
    (List.range (8 * n)).filter (bitAt d.mask) =
      d.protectedMedia.map fun m => offset d.base m.seqNum := by
  apply List.Pairwise.eq_of_mem_iff (r := (· < ·))
  · exact List.pairwise_lt_range.sublist List.filter_sublist
  · exact d.ascending.sublist (List.Sublist.map _ List.filter_sublist)
  · intro o
    simp only [List.mem_filter, List.mem_range, List.mem_map, Parity.protectedMedia]
    constructor
    · rintro ⟨ho, hbit⟩
      have hspan : o < 8 * d.mask.length := by
        by_contra hbeyond
        rw [bitAt_beyond (by omega)] at hbit
        cases hbit
      obtain ⟨m, hm, rfl⟩ := d.mask_bits o hspan hbit
      exact ⟨m, ⟨hm, hbit⟩, rfl⟩
    · rintro ⟨m, ⟨hm, hbit⟩, rfl⟩
      have hspan := d.span m hm
      exact ⟨Nat.lt_of_lt_of_le hspan (by omega), hbit⟩

theorem base_add_offset (base num : UInt16) : base + UInt16.ofNat (offset base num) = num := by
  rw [offset, UInt16.ofNat_toNat, UInt16.add_comm, UInt16.sub_add_cancel]

/-- An FEC packet is read, and its header describes it. -/
theorem readFecHeader_packet (d : Parity ssrc) :
    ∃ h, readFecHeader d.packet = some h ∧ Describes d h := by
  obtain ⟨data, hpacket, h0, h8, h12, h16, hother⟩ := packet_data d
  obtain ⟨hsize, hsizes⟩ := headerSize_eq d
  obtain ⟨hlong, hcovers, hshort⟩ := payloads_length d
  obtain ⟨data', hread, hinside, houtside⟩ :=
    readPacketMask_writePacketMask d.mask_length hlong data
  have hw (i : Nat) (hi : i < 18) : writePacketMask d.mask data i = data i :=
    writePacketMask_before d.mask data hi
  let h : FecHeader :=
    { pkt := ⟨(payloads d).length, data'⟩
      fecHeaderSize := d.headerSize
      protectedSsrc := ssrc
      seqNumBase := d.base
      packetMaskOffset := kPacketMaskOffset
      packetMaskSize := minPacketMaskSize d.mask
      protectionLength := (payloads d).length - d.headerSize }
  have hheader : readFecHeader d.packet = some h := by
    have hbit (x : UInt8) : ((x &&& 0x7f) &&& 0xbf) &&& 0x80 = 0 ∧
        ((x &&& 0x7f) &&& 0xbf) &&& 0x40 = 0 := by
      revert x
      decide +kernel
    have h12' : readBigEndian32 (writePacketMask d.mask data) 12 = ssrc := by
      rw [readBigEndian32, hw 12 (by omega), hw 13 (by omega), hw 14 (by omega), hw 15 (by omega)]
      exact h12
    have h16' : readBigEndian16 (writePacketMask d.mask data) 16 = d.base := by
      rw [readBigEndian16, hw 16 (by omega), hw 17 (by omega)]
      exact h16
    rw [hpacket, readFecHeader, if_neg (by simp only [kBaseHeaderSize, kStreamSpecificHeaderSize]; omega)]
    simp only [hw 0 (by omega), hw 8 (by omega), h0, h8, (hbit _).1, (hbit _).2, h12', h16', hread]
    rfl
  have hpayload (i : Nat) : data' (d.headerSize + i) =
      xorAll (d.protectedMedia.map (·.packet.data (kRtpHeaderSize + i))) := by
    rw [houtside _ (.inr (by omega)), hother _ (by omega) (by omega), payloads_data]
    simp only [contribution, if_neg (show ¬ d.headerSize + i < 8 by omega),
      if_pos (Nat.le_add_right d.headerSize i), Nat.add_sub_cancel_left]
  have hfront (i : Nat) (hi : i < 8) : (payloads d).data i =
      xorAll (d.protectedMedia.map (headerByte ·.packet i)) := by
    rw [payloads_data]
    simp only [contribution, if_pos hi]
  have hnums : maskSeqNums h = d.protectedMedia.map Media.seqNum := by
    have hlength := length_le_minPacketMaskSize d.mask_length
    rw [maskSeqNums_eq (h := h) hinside, filter_bitAt d hlength, List.map_map]
    exact List.map_congr_left fun m _ => base_add_offset d.base m.seqNum
  refine ⟨h, hheader, rfl, rfl, ?_, hcovers, ?_, hnums, ?_, ?_, hpayload⟩
  · exact Nat.add_sub_cancel' hlong
  · have hprotection : h.protectionLength = (payloads d).length - d.headerSize := rfl
    omega
  · have h0' : data' 0 = data 0 := houtside 0 (.inl (by omega))
    rw [← hfront 0 (by omega), ← h0]
    exact h0'
  · intro i hi hi8
    have hi' : data' i = data i := houtside i (.inl (by omega))
    rw [← hfront i hi8, ← hother i hi (.inl hi8)]
    exact hi'

end FlexfecParity
