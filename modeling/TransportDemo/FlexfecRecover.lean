import TransportDemo.FlexfecParity

/-!
# Recovering a packet

From an FEC packet and all but one of the packets it was made of,
`RecoverPacket` makes the missing one: in every byte the packets that are
there cancel out, and what the sum does not hold, the version, the number and
the SSRC, is written anew.
-/

namespace FlexfecRecover

open ByteBuffer FlexfecDecoder FlexfecPacket FlexfecMask FlexfecEncoder FlexfecParity

/-! ### Exclusive or -/

theorem foldl_xor (l : List UInt8) (a : UInt8) : l.foldl (· ^^^ ·) a = a ^^^ xorAll l := by
  induction l generalizing a with
  | nil => exact (xor_zero a).symm
  | cons b l ih =>
    have hcons : xorAll (b :: l) = b ^^^ xorAll l := (ih (0 ^^^ b)).trans (by rw [zero_xor])
    rw [List.foldl_cons, ih, hcons, UInt8.xor_assoc]

theorem xorAll_zero {α : Type} (l : List α) {f : α → UInt8} (hf : ∀ a ∈ l, f a = 0) :
    xorAll (l.map f) = 0 := by
  induction l with
  | nil => rfl
  | cons a l ih =>
    obtain ⟨ha, hl⟩ := List.forall_mem_cons.mp hf
    rw [List.map_cons, ha, xorAll, List.foldl_cons, zero_xor]
    exact ih hl

theorem xorAll_append (l l' : List UInt8) : xorAll (l ++ l') = xorAll l ^^^ xorAll l' := by
  rw [xorAll, List.foldl_append, foldl_xor]
  rfl

/-- All but one of the summands leave that one. -/
theorem xor_others (before after : List UInt8) (x : UInt8) :
    xorAll (before ++ x :: after) = x ^^^ (xorAll before ^^^ xorAll after) := by
  have hx : xorAll (x :: after) = x ^^^ xorAll after := by
    rw [xorAll, List.foldl_cons, foldl_xor, zero_xor]
  rw [xorAll_append, hx, ← UInt8.xor_assoc, UInt8.xor_comm (xorAll before), UInt8.xor_assoc]

theorem foldl_others (before after : List UInt8) (a : UInt8) :
    after.foldl (· ^^^ ·) (before.foldl (· ^^^ ·) a) =
      a ^^^ (xorAll before ^^^ xorAll after) := by
  rw [foldl_xor, foldl_xor, UInt8.xor_assoc]

/-- The first byte: its two fixed bits are lost in the header and set again. -/
theorem first_byte (x others : UInt8) (hx : x &&& 0xc0 = 0x80) :
    ((((((x ^^^ others) &&& 0x7f) &&& 0xbf) ^^^ others) ||| 0x80) &&& 0xbf) = x := by
  rw [← UInt8.toBitVec_inj] at hx ⊢
  have h7 := congrArg (·.getLsbD 7) hx
  have h6 := congrArg (·.getLsbD 6) hx
  apply BitVec.eq_of_getLsbD_eq
  intro i hi
  simp only [UInt8.toBitVec_and, UInt8.toBitVec_or, UInt8.toBitVec_xor, BitVec.getLsbD_and,
    BitVec.getLsbD_or, BitVec.getLsbD_xor] at h6 h7 ⊢
  interval_cases i <;> simp_all

/-! ### The loop over the protected packets -/

variable {ssrc : UInt32}

/-- A slot whose packet is known, with its bytes. -/
def stored (m : Media ssrc) : ProtectedPacket Packet := ⟨m.seqNum, some m.packet⟩

/-- What the loop does with a known packet. -/
def absorb (pkt : Packet) (m : Media ssrc) : Packet :=
  xorPayloads m.packet m.packet.length kRtpHeaderSize (xorHeaders m.packet pkt)

theorem foldl_recoverStep (ms : List (Media ssrc)) (num : UInt16) (pkt : Packet) :
    (ms.map stored).foldl recoverStep (num, pkt) = (num, ms.foldl absorb pkt) := by
  induction ms generalizing pkt with
  | nil => rfl
  | cons m ms ih => exact ih (absorb pkt m)

/-- One known packet in the loop: the length of the payload is taken for that of the packet, but
the bytes behind it are zero. -/
theorem absorb_data (pkt : Packet) (m : Media ssrc) (i : Nat) : (absorb pkt m).data i =
    if i < 8 then pkt.data i ^^^ headerByte m.packet i
    else if i < kRtpHeaderSize then pkt.data i else pkt.data i ^^^ m.packet.data i := by
  have hk : kRtpHeaderSize = 12 := rfl
  simp only [absorb, xorPayloads, xorHeaders_data]
  by_cases hin : kRtpHeaderSize ≤ i ∧ i < kRtpHeaderSize + m.packet.length
  · rw [if_pos hin, if_neg (show ¬ i < 8 by omega), if_neg (show ¬ i < 8 by omega),
      if_neg (show ¬ i < kRtpHeaderSize by omega), Nat.add_sub_cancel' hin.1]
  · rw [if_neg hin]
    split
    · rfl
    · split
      · rfl
      · rw [m.clean i (by omega), UInt8.xor_zero]

theorem foldl_absorb_data (ms : List (Media ssrc)) (pkt : Packet) (i : Nat) :
    (ms.foldl absorb pkt).data i =
      if i < 8 then (ms.map (headerByte ·.packet i)).foldl (· ^^^ ·) (pkt.data i)
      else if i < kRtpHeaderSize then pkt.data i
      else (ms.map (·.packet.data i)).foldl (· ^^^ ·) (pkt.data i) := by
  induction ms generalizing pkt with
  | nil => simp
  | cons m ms ih =>
    rw [List.foldl_cons, ih]
    simp only [absorb_data, List.map_cons, List.foldl_cons]
    split
    · rfl
    · split <;> rfl

/-! ### The recovered packet -/

theorem be16_of16 (a b : UInt8) : be16 (of16 a b) = [a, b] := by
  have ha := a.toNat_lt
  have hb := b.toNat_lt
  simp only [be16, List.cons.injEq, and_true, ← UInt8.toNat_inj, UInt16.toNat_toUInt8,
    UInt16.toNat_div, toNat_of16, UInt16.reduceToNat]
  omega

theorem be32_of32 (a b c d : UInt8) : be32 (of32 a b c d) = [a, b, c, d] := by
  have ha := a.toNat_lt
  have hb := b.toNat_lt
  have hc := c.toNat_lt
  have hd := d.toNat_lt
  simp only [be32, List.cons.injEq, and_true, ← UInt8.toNat_inj, UInt32.toNat_toUInt8,
    UInt32.toNat_div, toNat_of32, UInt32.reduceToNat]
  omega

section Recovered

variable {d : Parity ssrc} {h : FecHeader} {before after : List (Media ssrc)} {m : Media ssrc}

/-- The packet starts as the FEC packet's recovery fields and payload. -/
theorem startPacketRecovery_some (hd : Describes d h) : ∃ pkt, startPacketRecovery h = some pkt ∧
    (∀ i < kRtpHeaderSize, pkt.data i = h.pkt.data i) ∧
    ∀ i, kRtpHeaderSize ≤ i → pkt.data i =
      xorAll (d.protectedMedia.map (·.packet.data i)) := by
  have hk : kRtpHeaderSize = 12 := rfl
  have hip : IP_PACKET_SIZE = 1500 := rfl
  have hmax : kHeaderSizes.2.2 = 32 := rfl
  have htransport : kTransportOverhead = 28 := rfl
  have hsizes := (headerSize_eq d).2
  have hshort := hd.short
  have hlength := hd.protectionLength
  have hsize := hd.fecHeaderSize
  refine ⟨_, (if_neg (by omega)).trans (if_neg (by omega)), fun i hi => if_pos hi, ?_⟩
  intro i hi
  simp only [if_neg (show ¬ i < kRtpHeaderSize by omega), hsize]
  split
  · rw [hd.payload, Nat.add_sub_cancel' hi]
  · next hbeyond =>
    refine (xorAll_zero _ fun m hm => m.clean i ?_).symm
    have hcover := hd.covers m hm
    have hbytes : m.packet.length = m.bytes.length := rfl
    omega

/-- The bytes after the loop, but for the first and those that are written anew. -/
theorem loop_data (hd : Describes d h) (hms : d.protectedMedia = before ++ m :: after) {pkt : Packet}
    (hfront : ∀ i < kRtpHeaderSize, pkt.data i = h.pkt.data i)
    (hpayload : ∀ i, kRtpHeaderSize ≤ i → pkt.data i =
      xorAll (d.protectedMedia.map (·.packet.data i))) :
    (∀ i, 0 < i → i < 8 →
      (after.foldl absorb (before.foldl absorb pkt)).data i = headerByte m.packet i) ∧
    (∀ i, kRtpHeaderSize ≤ i →
      (after.foldl absorb (before.foldl absorb pkt)).data i = m.packet.data i) ∧
    ((after.foldl absorb (before.foldl absorb pkt)).data 0 ||| 0x80) &&& 0xbf =
      m.packet.data 0 := by
  have hk : kRtpHeaderSize = 12 := rfl
  refine ⟨fun i h0 hi => ?_, fun i hi => ?_, ?_⟩
  · rw [foldl_absorb_data, if_pos hi, foldl_absorb_data, if_pos hi, foldl_others,
      hfront i (by omega), hd.front i h0 hi, hms, List.map_append, List.map_cons, xor_others,
      xor_cancel_right]
  · rw [foldl_absorb_data, if_neg (by omega), if_neg (by omega), foldl_absorb_data,
      if_neg (by omega), if_neg (by omega), foldl_others, hpayload i hi, hms, List.map_append,
      List.map_cons, xor_others, xor_cancel_right]
  · rw [foldl_absorb_data, if_pos (by omega), foldl_absorb_data, if_pos (by omega), foldl_others,
      hfront 0 (by omega), hd.first, hms, List.map_append, List.map_cons, xor_others]
    exact first_byte _ _ m.version

/-- The fixed bits, the length, the number and the SSRC are those of the packet. -/
theorem finishPacketRecovery_eq (hd : Describes d h) {pkt : Packet}
    (hheader : ∀ i, 0 < i → i < 8 → pkt.data i = headerByte m.packet i)
    (hrest : ∀ i, kRtpHeaderSize ≤ i → pkt.data i = m.packet.data i)
    (hfirst : (pkt.data 0 ||| 0x80) &&& 0xbf = m.packet.data 0) :
    finishPacketRecovery h m.seqNum pkt = some ⟨ssrc, m.seqNum, false, m.packet⟩ := by
  have hk : kRtpHeaderSize = 12 := rfl
  have hip : IP_PACKET_SIZE = 1500 := rfl
  have hmin := m.header
  have hfits := m.fits
  have hlength : (readBigEndian16 (store pkt.data 0 [(pkt.data 0 ||| 0x80) &&& 0xbf]) 2).toNat +
      kRtpHeaderSize = m.packet.length := by
    have hread : readBigEndian16 (store pkt.data 0 [(pkt.data 0 ||| 0x80) &&& 0xbf]) 2 =
        UInt16.ofNat m.packet.length - 12 := by
      rw [readBigEndian16, store_outside _ (by simp), store_outside _ (by simp),
        hheader 2 (by omega) (by omega), hheader 3 (by omega) (by omega)]
      exact of16_be16 _
    have hbytes : m.packet.length = m.bytes.length := rfl
    rw [hread, UInt16.toNat_sub, UInt16.toNat_ofNat', show (12 : UInt16).toNat = 12 from rfl]
    omega
  have hnum : be16 m.seqNum = [m.packet.data 2, m.packet.data 3] := be16_of16 _ _
  have hssrc : be32 h.protectedSsrc =
      [m.packet.data 8, m.packet.data 9, m.packet.data 10, m.packet.data 11] := by
    rw [hd.protectedSsrc]
    exact (congrArg be32 m.own).symm.trans (be32_of32 _ _ _ _)
  have hdata : store (store (store pkt.data 0 [(pkt.data 0 ||| 0x80) &&& 0xbf]) 2
      (be16 m.seqNum)) 8 (be32 h.protectedSsrc) = m.packet.data := by
    rw [hnum, hssrc, hfirst]
    funext i
    by_cases hi : i < 12
    · have hother := hheader i
      interval_cases i <;> simp_all [store, headerByte]
    · rw [store_outside _ (by simp; omega), store_outside _ (by simp; omega),
        store_outside _ (by simp; omega)]
      exact hrest i (by omega)
  have hbytes : m.packet.length = m.bytes.length := rfl
  have hmax : kHeaderSizes.2.2 = 32 := rfl
  rw [finishPacketRecovery, hlength, hdata, hd.protectedSsrc]
  exact if_neg (by omega)

/-- The missing packet is recovered as it was sent. -/
theorem recoverPacket_eq (hd : Describes d h) (hms : d.protectedMedia = before ++ m :: after) :
    recoverPacket h (before.map stored ++ ⟨m.seqNum, none⟩ :: after.map stored) =
      some ⟨ssrc, m.seqNum, false, m.packet⟩ := by
  obtain ⟨pkt, hstart, hfront, hpayload⟩ := startPacketRecovery_some hd
  obtain ⟨hheader, hrest, hfirst⟩ := loop_data hd hms hfront hpayload
  have hloop : (before.map stored ++ ⟨m.seqNum, none⟩ :: after.map stored).foldl recoverStep
      (0, pkt) = (m.seqNum, after.foldl absorb (before.foldl absorb pkt)) := by
    rw [List.foldl_append, foldl_recoverStep, List.foldl_cons]
    exact foldl_recoverStep after m.seqNum _
  simp only [recoverPacket, hstart, Option.bind_eq_bind, Option.bind_some, hloop]
  exact finishPacketRecovery_eq hd hheader hrest hfirst

end Recovered

end FlexfecRecover
