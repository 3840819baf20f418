import TransportDemo.NackRoundTrip

/-!
# What the packets show of the memory

A new packet holds whatever the memory held. The packing functions do not write
every byte that is sent, so some of it goes to the network: the alignment of
the length field, and nearly the whole payload of a media packet.
-/

namespace NackLeak

open ByteBuffer HeadBlocks NackPacket NackRoundTrip

/-- What `send_packet` puts on the wire. -/
def sent (packet : TESTTPPacket) : List UInt8 := (List.range packet.length).map packet.byte

/-- Offsets between the type and the length of a control packet. -/
def alignment (i : Nat) : Prop := 2 ≤ i ∧ i < 4

/-- Offsets of the payload of a media packet, but for the one byte that is cleared. -/
def payload (i : Nat) : Prop := RTP_HEADER_SIZE_BYTES ≤ i ∧
  i < RTP_HEADER_SIZE_BYTES + 1300 ∧ i ≠ RTP_HEADER_SIZE_BYTES + 8

/-- Two packets made with the same arguments in different memory: they show the memory in the
holes, and are the same elsewhere. -/
structure Alike (holes : Nat → Prop) (fresh fresh' packet packet' : TESTTPPacket) : Prop where
  length : packet'.length = packet.length
  holes_lt : ∀ i, holes i → i < packet.length
  shown : ∀ i, holes i → packet.byte i = fresh.byte i ∧ packet'.byte i = fresh'.byte i
  written : ∀ i < packet.length, ¬ holes i → packet.byte i = packet'.byte i

/-- What is sent tells the two memories apart exactly if they differ in a hole. -/
theorem Alike.read_eq_iff {holes : Nat → Prop} {fresh fresh' packet packet' : TESTTPPacket}
    (h : Alike holes fresh fresh' packet packet') :
    sent packet = sent packet' ↔ ∀ i, holes i → fresh.byte i = fresh'.byte i := by
  rw [sent, sent, h.length, List.map_inj_left]
  constructor
  · intro hsent i hi
    obtain ⟨hfresh, hfresh'⟩ := h.shown i hi
    rw [← hfresh, ← hfresh']
    exact hsent i (List.mem_range.mpr (h.holes_lt i hi))
  · intro hholes i hi
    by_cases hole : holes i
    · obtain ⟨hfresh, hfresh'⟩ := h.shown i hole
      rw [hfresh, hfresh']
      exact hholes i hole
    · exact h.written i (List.mem_range.mp hi) hole

theorem of16_inj {a b a' b' : UInt8} (h : of16 a b = of16 a' b') : a = a' ∧ b = b' := by
  have ha := a.toNat_lt
  have hb := b.toNat_lt
  have ha' := a'.toNat_lt
  have hb' := b'.toNat_lt
  rw [← UInt16.toNat_inj] at h
  simp only [of16, UInt16.toNat_add, UInt16.toNat_mul, UInt8.toNat_toUInt16,
    UInt16.reduceToNat] at h
  rw [← UInt8.toNat_inj, ← UInt8.toNat_inj]
  omega

/-! ### The three packets -/

/-- The bytes of `packing_packet`: the header, one cleared byte, and the memory. -/
theorem packingPacket_bytes (fresh : TESTTPPacket) (sequence : UInt16) (timestamp : UInt32) :
    ∃ packet, packingPacket fresh sequence timestamp = some packet ∧
      packet.length = RTP_HEADER_SIZE_BYTES + 1300 ∧
      ∀ i, packet.byte i =
        if i < 2 then (be16 TPYE_TRANSPORT_PACKET).getD i 0
        else if i < 4 then (be16 sequence).getD (i - 2) 0
        else if i < 8 then (be32 timestamp).getD (i - 4) 0
        else if i = 16 then 0 else fresh.byte i := by
  obtain ⟨p₁, h₁, w₁⟩ := write_some fresh 0 (be16 TPYE_TRANSPORT_PACKET) (by decide)
  obtain ⟨p₂, h₂, w₂⟩ := write_some p₁ 2 (be16 sequence)
    (by simp [be16, UDP_PACKET_MAX_BYTES])
  obtain ⟨p₃, h₃, w₃⟩ := write_some p₂ 4 (be32 timestamp)
    (by simp [be32, UDP_PACKET_MAX_BYTES])
  obtain ⟨p₄, h₄, w₄⟩ := write_some p₃ (RTP_HEADER_SIZE_BYTES + 8) [0] (by decide)
  have h16 (v : UInt16) : (be16 v).length = 2 := rfl
  have h32 (v : UInt32) : (be32 v).length = 4 := rfl
  refine ⟨{ p₄ with length := RTP_HEADER_SIZE_BYTES + 1300 }, ?_, rfl, fun i => ?_⟩
  · simp only [packingPacket, packingHeader, h₁, h₂, h₃, h₄, Option.bind_eq_bind, Option.bind_some]
  · simp only [w₄.byte, w₃.byte, w₂.byte, w₁.byte, h16, h32, List.length_singleton,
      RTP_HEADER_SIZE_BYTES]
    by_cases h16 : i = 16
    · subst h16
      rfl
    · rw [if_neg (by omega)]
      split_ifs <;> first | rfl | omega

/-- The bytes of `rtt_packing`. -/
theorem rttPacking_bytes (fresh : TESTTPPacket) (num : UInt16) :
    ∃ packet, rttPacking fresh num = some packet ∧
      packet.length = RTCP_HEADER_SIZE_BYTES + RTT_PAYLOAD_BYTES ∧
      ∀ i, packet.byte i =
        if i < 2 then (be16 TPYE_RTT).getD i 0
        else if i < 4 then fresh.byte i
        else if i < 8 then (be32 (UInt16.ofNat (RTCP_HEADER_SIZE_BYTES +
          RTT_PAYLOAD_BYTES)).toUInt32).getD (i - 4) 0
        else if i < 12 then (le32 num.toUInt32).getD (i - 8) 0 else fresh.byte i := by
  obtain ⟨p₁, h₁, w₁⟩ := write_some fresh 0 (be16 TPYE_RTT) (by decide)
  obtain ⟨p₂, h₂, w₂⟩ := write_some p₁ RTCP_HEADER_SIZE_BYTES (le32 num.toUInt32)
    (by simp [le32, RTCP_HEADER_SIZE_BYTES, UDP_PACKET_MAX_BYTES])
  obtain ⟨p₃, h₃, w₃⟩ := write_some p₂ 4 (be32
    (UInt16.ofNat (RTCP_HEADER_SIZE_BYTES + RTT_PAYLOAD_BYTES)).toUInt32) (by decide)
  have h16 (v : UInt16) : (be16 v).length = 2 := rfl
  have h32 (v : UInt32) : (be32 v).length = 4 := rfl
  have hle32 (v : UInt32) : (le32 v).length = 4 := rfl
  refine ⟨{ p₃ with length := (UInt16.ofNat (RTCP_HEADER_SIZE_BYTES + RTT_PAYLOAD_BYTES)).toNat },
    ?_, rfl, fun i => ?_⟩
  · simp only [rttPacking, h₁, h₂, h₃, Option.bind_eq_bind, Option.bind_some]
  · simp only [w₃.byte, w₂.byte, w₁.byte, h16, h32, hle32, RTCP_HEADER_SIZE_BYTES]
    split_ifs <;> first | rfl | omega

/-- The header of `packing_nack`. -/
theorem packingNack_bytes {fresh packet : TESTTPPacket} {l : List UInt16}
    (h : packingNack fresh l = some packet) {i : Nat} (hi : i < 8) : packet.byte i =
      if i < 2 then (be16 TPYE_TRANSPORT_INFO).getD i 0
      else if i < 4 then fresh.byte i
      else (be32 (UInt16.ofNat (RTCP_HEADER_SIZE_BYTES +
        NACK_ITEM_BYTES * itemCount l)).toUInt32).getD (i - 4) 0 := by
  obtain ⟨first, hfirst, w₁⟩ := write_some fresh 0 (be16 TPYE_TRANSPORT_INFO) (by decide)
  obtain ⟨filled, hfilled, -, hbelow, -⟩ := packItems_spec first 0 l (by decide)
  have hcount : 0 + min (items l).length (MAX_NACK_ITEM_NUM - 0) = itemCount l := by
    rw [Nat.zero_add, Nat.sub_zero, itemCount]
  obtain ⟨last, hlast, w₂⟩ := write_some filled 4 (be32 (UInt16.ofNat (RTCP_HEADER_SIZE_BYTES +
    NACK_ITEM_BYTES * itemCount l)).toUInt32) (by simp [be32, UDP_PACKET_MAX_BYTES])
  rw [hcount] at hfilled
  simp only [packingNack, hfirst, Option.bind_eq_bind, Option.bind_some, hfilled, hlast,
    Option.some.injEq] at h
  subst h
  change last.byte i = _
  have h16 (v : UInt16) : (be16 v).length = 2 := rfl
  have h32 (v : UInt32) : (be32 v).length = 4 := rfl
  rw [w₂.byte, h32]
  split
  · rw [if_neg (by omega), if_neg (by omega)]
  · rw [hbelow i (by simp [RTCP_HEADER_SIZE_BYTES]; omega), w₁.byte, h16]
    split_ifs <;> first | rfl | omega

/-! ### Two memories -/

section TwoMemories

variable (fresh fresh' : TESTTPPacket)

theorem packingPacket_alike (sequence : UInt16) (timestamp : UInt32) : ∃ packet packet',
    packingPacket fresh sequence timestamp = some packet ∧
      packingPacket fresh' sequence timestamp = some packet' ∧
      Alike payload fresh fresh' packet packet' := by
  obtain ⟨packet, hpacket, hlength, hbytes⟩ := packingPacket_bytes fresh sequence timestamp
  obtain ⟨packet', hpacket', hlength', hbytes'⟩ := packingPacket_bytes fresh' sequence timestamp
  refine ⟨packet, packet', hpacket, hpacket', hlength'.trans hlength.symm, ?_, ?_, ?_⟩
  · intro i hi
    exact hlength ▸ hi.2.1
  · intro i hi
    obtain ⟨hlow, -, hne⟩ := hi
    simp only [RTP_HEADER_SIZE_BYTES] at hlow hne
    rw [hbytes, hbytes']
    split_ifs <;> first | exact ⟨rfl, rfl⟩ | omega
  · intro i hi hole
    have hout : i < 8 ∨ i = 16 := by
      rw [hlength] at hi
      simp only [payload, RTP_HEADER_SIZE_BYTES] at hole hi
      omega
    rw [hbytes, hbytes']
    split_ifs <;> first | rfl | omega

theorem packingNack_alike (sequences : List UInt16) : ∃ packet packet',
    packingNack fresh sequences = some packet ∧ packingNack fresh' sequences = some packet' ∧
      Alike alignment fresh fresh' packet packet' := by
  obtain ⟨packet, hpacket, -, hlength, -, hholds⟩ := packingNack_spec fresh sequences
  obtain ⟨packet', hpacket', -, hlength', -, hholds'⟩ := packingNack_spec fresh' sequences
  refine ⟨packet, packet', hpacket, hpacket', hlength'.trans hlength.symm, ?_, ?_, ?_⟩
  · rintro i ⟨-, hi⟩
    rw [hlength, RTCP_HEADER_SIZE_BYTES]
    omega
  · rintro i ⟨hlow, hi⟩
    have htype : ¬ i < 2 := by omega
    rw [packingNack_bytes hpacket (by omega), packingNack_bytes hpacket' (by omega), if_neg htype,
      if_neg htype, if_pos hi, if_pos hi]
    exact ⟨rfl, rfl⟩
  · intro i hi hole
    by_cases hheader : i < 8
    · rw [packingNack_bytes hpacket hheader, packingNack_bytes hpacket' hheader]
      by_cases htype : i < 2
      · rw [if_pos htype, if_pos htype]
      · have hlate : ¬ i < 4 := fun h => hole ⟨by omega, h⟩
        rw [if_neg htype, if_neg htype, if_neg hlate, if_neg hlate]
    · -- byte i belongs to item (i - 8) / 4, of which both packets hold the same two numbers
      rw [hlength] at hi
      simp only [itemCount, RTCP_HEADER_SIZE_BYTES, NACK_ITEM_BYTES] at hi
      have hitem : (i - 8) / 4 < min (items sequences).length MAX_NACK_ITEM_NUM := by omega
      obtain ⟨hin, hmax⟩ := lt_min_iff.mp hitem
      have hget := List.getElem?_eq_getElem hin
      obtain ⟨hpid, hblp⟩ := hholds _ _ hget (by omega)
      obtain ⟨hpid', hblp'⟩ := hholds' _ _ hget (by omega)
      obtain ⟨h0, h1⟩ := of16_inj (hpid.trans hpid'.symm)
      obtain ⟨h2, h3⟩ := of16_inj (hblp.trans hblp'.symm)
      simp only [RTCP_HEADER_SIZE_BYTES, NACK_ITEM_BYTES] at h0 h1 h2 h3
      have hcases : i = 8 + 4 * (0 + (i - 8) / 4) ∨ i = 8 + 4 * (0 + (i - 8) / 4) + 1 ∨
          i = 8 + 4 * (0 + (i - 8) / 4) + 2 ∨ i = 8 + 4 * (0 + (i - 8) / 4) + 2 + 1 := by omega
      rcases hcases with hi' | hi' | hi' | hi'
      · rw [hi']
        exact h0
      · rw [hi']
        exact h1
      · rw [hi']
        exact h2
      · rw [hi']
        exact h3

theorem rttPacking_alike (num : UInt16) : ∃ packet packet',
    rttPacking fresh num = some packet ∧ rttPacking fresh' num = some packet' ∧
      Alike alignment fresh fresh' packet packet' := by
  obtain ⟨packet, hpacket, hlength, hbytes⟩ := rttPacking_bytes fresh num
  obtain ⟨packet', hpacket', hlength', hbytes'⟩ := rttPacking_bytes fresh' num
  refine ⟨packet, packet', hpacket, hpacket', hlength'.trans hlength.symm, ?_, ?_, ?_⟩
  · rintro i ⟨-, hi⟩
    rw [hlength, RTCP_HEADER_SIZE_BYTES]
    omega
  · rintro i ⟨hlow, hi⟩
    have htype : ¬ i < 2 := by omega
    rw [hbytes, hbytes', if_neg htype, if_neg htype, if_pos hi, if_pos hi]
    exact ⟨rfl, rfl⟩
  · intro i hi hole
    have hout : i < 2 ∨ 4 ≤ i ∧ i < 12 := by
      rw [hlength] at hi
      simp only [alignment, RTCP_HEADER_SIZE_BYTES, RTT_PAYLOAD_BYTES] at hole hi
      omega
    rw [hbytes, hbytes']
    split_ifs <;> first | rfl | omega

/-- With the same arguments the same bytes are sent exactly if the two memories agree where
nothing is written. -/
theorem sent_eq_iff :
    (∀ sequence timestamp, ∃ packet packet',
      packingPacket fresh sequence timestamp = some packet ∧
        packingPacket fresh' sequence timestamp = some packet' ∧
        (sent packet = sent packet' ↔ ∀ i, payload i → fresh.byte i = fresh'.byte i)) ∧
    (∀ sequences, ∃ packet packet',
      packingNack fresh sequences = some packet ∧ packingNack fresh' sequences = some packet' ∧
        (sent packet = sent packet' ↔ ∀ i, alignment i → fresh.byte i = fresh'.byte i)) ∧
    ∀ num, ∃ packet packet',
      rttPacking fresh num = some packet ∧ rttPacking fresh' num = some packet' ∧
        (sent packet = sent packet' ↔ ∀ i, alignment i → fresh.byte i = fresh'.byte i) := by
  refine ⟨fun sequence timestamp => ?_, fun sequences => ?_, fun num => ?_⟩
  · obtain ⟨packet, packet', hpacket, hpacket', halike⟩ :=
      packingPacket_alike fresh fresh' sequence timestamp
    exact ⟨packet, packet', hpacket, hpacket', halike.read_eq_iff⟩
  · obtain ⟨packet, packet', hpacket, hpacket', halike⟩ := packingNack_alike fresh fresh' sequences
    exact ⟨packet, packet', hpacket, hpacket', halike.read_eq_iff⟩
  · obtain ⟨packet, packet', hpacket, hpacket', halike⟩ := rttPacking_alike fresh fresh' num
    exact ⟨packet, packet', hpacket, hpacket', halike.read_eq_iff⟩

end TwoMemories

/-- Media packet 1 sends the bytes behind its header as the memory had them. -/
theorem memory_sent :
    ¬ ∀ fresh fresh' packet packet' : TESTTPPacket, ∀ sequence timestamp,
      packingPacket fresh sequence timestamp = some packet →
        packingPacket fresh' sequence timestamp = some packet' → sent packet = sent packet' := by
  intro hall
  let zeros : TESTTPPacket := ⟨fun _ => 0, 0⟩
  let ones : TESTTPPacket := ⟨fun _ => 1, 0⟩
  obtain ⟨packet, packet', hpacket, hpacket', halike⟩ := packingPacket_alike zeros ones 1 0
  have hsent := halike.read_eq_iff.mp (hall zeros ones packet packet' 1 0 hpacket hpacket')
  exact absurd (hsent 8 ⟨by decide, by decide, by decide⟩) (by decide)

end NackLeak
