import TransportDemo.FlexfecRecover
import TransportDemo.FlexfecRun

/-!
# Genuine packets in `webrtc`

The decoder of namespace `webrtc` keeps packets in buffers of 1500 bytes. It
stores a genuine packet as it was sent and recovers it so, hence what it passes
on was sent as long as no number is taken for another packet's. When a number
comes round again while an FEC packet still waits for its first bearer, a packet
is made up.
-/

namespace FlexfecGenuine

open ByteBuffer FlexfecDecoder FlexfecPacket FlexfecMask FlexfecEncoder FlexfecParity FlexfecRecover
  FlexfecReceiver FlexfecIdeal FlexfecRun

variable {ssrc : UInt32}

/-! ### Packets and their bytes -/

theorem ofBytes_bytes {p : Packet} (h : Packet.Clean p) : Packet.ofBytes p.bytes = p := by
  have hlength : p.bytes.length = p.length := by simp [Packet.bytes]
  refine Packet.ext hlength (funext fun i => ?_)
  by_cases hi : i < p.length
  · simp [Packet.ofBytes, Packet.bytes, List.getD_eq_getElem?_getD, hi]
  · rw [h i (by omega)]
    exact List.getD_eq_default _ _ (by omega)

theorem bytes_ofBytes (bytes : List UInt8) : (Packet.ofBytes bytes).bytes = bytes := by
  refine List.ext_getElem (by simp [Packet.bytes, Packet.ofBytes]) fun i h h' => ?_
  simp [Packet.bytes, Packet.ofBytes, h']

/-- Behind the header nothing of the mask is written. -/
theorem writePacketMask_after {mask : List UInt8} (hmask : mask.length = 2 ∨ mask.length = 6)
    (data : Nat → UInt8) {i : Nat} (hi : 18 + minPacketMaskSize mask ≤ i) :
    writePacketMask mask data i = data i := by
  have hstore (d : Nat → UInt8) (off : Nat) (bytes : List UInt8) (hoff : off + bytes.length ≤ i) :
      store d off bytes i = d i := store_outside d (.inr hoff)
  have hbits (x : UInt8) : x &&& 0x03 = 0 ↔ x &&& 0x02 = 0 ∧ x &&& 0x01 = 0 := by
    revert x
    decide +kernel
  have hsize2 : kFlexfecPacketMaskSizes.1 = 2 := rfl
  have hsize6 : kFlexfecPacketMaskSizes.2.1 = 6 := rfl
  have hsize14 : kFlexfecPacketMaskSizes.2.2 = 14 := rfl
  have h16 (v : UInt16) : (be16 v).length = 2 := rfl
  have h32 (v : UInt32) : (be32 v).length = 4 := rfl
  rcases hmask with hmask | hmask
  · simp only [minPacketMaskSize, hmask, true_and, if_true, hsize2, hsize6] at hi
    simp only [writePacketMask, hmask, orByte, show ¬ (2 = 6) by decide, if_false, ne_eq, not_not]
    split
    · next h =>
      rw [if_pos h] at hi
      simp (disch := simp [h16, h32] <;> omega) only [hstore]
    · next h =>
      rw [if_neg h] at hi
      simp (disch := simp [h16, h32] <;> omega) only [hstore]
  · simp only [minPacketMaskSize, hmask, show ¬ (6 = 2) by decide, false_and, true_and, if_false,
      hsize6, hsize14, hbits] at hi
    simp only [writePacketMask, hmask, orByte, if_true, ne_eq, not_not]
    split
    · next h =>
      rw [if_pos h] at hi
      split_ifs <;> simp (disch := simp [h16, h32] <;> omega) only [hstore]
    · next h =>
      rw [if_neg h] at hi
      split_ifs <;> simp (disch := simp [h16, h32] <;> omega) only [hstore]

/-- The bytes behind an FEC packet are zero. -/
theorem packet_clean (d : Parity ssrc) : Packet.Clean d.packet := by
  obtain ⟨data, hpacket, -, -, -, -, hother⟩ := packet_data d
  obtain ⟨hlong, hcovers, -⟩ := payloads_length d
  have hsize := (headerSize_eq d).1
  intro i hi
  rw [hpacket] at hi ⊢
  have hi : (payloads d).length ≤ i := hi
  change writePacketMask d.mask data i = 0
  rw [writePacketMask_after d.mask_length data (by omega), hother i (by omega) (.inr (by omega)),
    payloads_data]
  refine xorAll_zero _ fun m hm => ?_
  have hcover := hcovers m hm
  have hlength : m.packet.length = m.bytes.length := rfl
  rw [contribution, if_neg (by omega), if_pos (by omega)]
  exact m.clean _ (by omega)

/-! ### What the build stores -/

theorem readFecHeader_isSome (d : Parity ssrc) : (readFecHeader d.packet).isSome = true := by
  obtain ⟨h, hread, -⟩ := readFecHeader_packet d
  rw [hread]
  rfl

def headerOf (d : Parity ssrc) : FecHeader := (readFecHeader d.packet).get (readFecHeader_isSome d)

theorem readFecHeader_eq (d : Parity ssrc) : readFecHeader d.packet = some (headerOf d) :=
  (Option.some_get _).symm

theorem describes (d : Parity ssrc) : Describes d (headerOf d) := by
  obtain ⟨h, hread, hdescribes⟩ := readFecHeader_packet d
  obtain rfl := Option.some.inj (hread.symm.trans (readFecHeader_eq d))
  exact hdescribes

theorem ofMedia_eq {p : RtpPacketReceived} {m : Media ssrc} (h : Carries p (.media m)) :
    FlexfecReceiver.webrtc.ofMedia p = some m.packet := by
  obtain ⟨-, hbuffer, -, hextensions⟩ := h
  have hsize : p.size = m.bytes.length := hbuffer ▸ p.buffer_length.symm
  have hfits : ¬ IP_PACKET_SIZE < p.buffer.length := by
    have hfits := m.fits
    rw [hbuffer]
    omega
  have hcopy : p.copyAndZeroMutableExtensions = some m.packet.data := by
    rw [RtpPacketReceived.copyAndZeroMutableExtensions, if_neg hfits, hextensions, hbuffer]
    rfl
  have hmedia : FlexfecReceiver.webrtc.ofMedia p =
      p.copyAndZeroMutableExtensions.map (Packet.mk p.size) := rfl
  rw [hmedia, hcopy, hsize]
  rfl

def represents (list : ListSort) (ssrc : UInt32) :
    Represents FlexfecReceiver.webrtc list ssrc where
  onMedia := Media.packet
  onParity := Parity.packet
  onHeader := headerOf
  protectedMediaSsrc := rfl
  list_eq := rfl
  readFecHeader := readFecHeader_eq
  protectedSsrc d := (describes d).protectedSsrc
  maskSeqNums d := congrArg some (describes d).seqNums
  recoverPacket {d} _ _ _ hms := recoverPacket_eq (describes d) hms
  ofFec {_ d} h := (congrArg Packet.ofBytes h.2).trans (ofBytes_bytes (packet_clean d))
  ofMedia := ofMedia_eq
  bytes m := bytes_ofBytes m.bytes

/-- While no step takes a number for another packet's, every packet passed on is one that was
sent. -/
theorem recovered_was_sent (list : ListSort) (ssrc : UInt32) (sent : Set (Media ssrc))
    (arrivals : List (Arrival ssrc)) (hsent : ∀ a ∈ arrivals, FromSent sent a.received)
    (hclear : ClearRun list true arrivals) :
    ∀ bytes ∈ (run FlexfecReceiver.webrtc list (create ssrc ssrc)
      (arrivals.map (·.packet))).passed, ∃ m ∈ sent, bytes = m.bytes := by
  intro bytes hbytes
  exact (represents list ssrc).passed_sent hsent hclear hbytes

/-! ### A number that comes round again -/

/-- Media packets with consecutive numbers, all alike but for the one that is number 1 again. -/
def stream (n : Nat) : Media 1 where
  bytes := [0x80, 96, UInt8.ofNat (n / 256), UInt8.ofNat n, 0, 0, 0, 0, 0, 0, 0, 1,
    if n = 65537 then 1 else 0]
  header := Nat.le_succ 12
  fits := (by decide : 13 + 32 + 28 ≤ 1500)
  version := (by decide : (0x80 : UInt8) &&& 0xc0 = 0x80)
  own := (by decide : of32 0 0 0 1 = 1)

/-- The FEC packet for packets 1 and 2. -/
def firstTwo : Parity 1 where
  block := [stream 1, stream 2]
  mask := [0xc0, 0x00]
  ascending := by decide +kernel
  mask_length := .inl rfl
  mask_bits := by decide +kernel
  span := by decide +kernel
  protects := by decide +kernel

def mediaArrival (n : Nat) : Arrival 1 where
  ideal := .media (stream n)
  packet :=
    { payloadType := 96
      sequenceNumber := (stream n).seqNum
      ssrc := 1
      payloadOffset := 12
      payloadSize := 1
      paddingSize := 0
      extensionEntries := []
      extensionType := fun _ => .none
      recovered := false
      buffer := (stream n).bytes
      fixedHeader := Nat.le_refl _
      buffer_length := rfl }
  own := rfl
  carries := ⟨(by decide : (96 : UInt8) ≠ 113), rfl, rfl, rfl⟩

def fecArrival : Arrival 1 where
  ideal := .parity firstTwo
  packet :=
    { payloadType := 113
      sequenceNumber := 5
      ssrc := 1
      payloadOffset := 12
      payloadSize := 21
      paddingSize := 0
      extensionEntries := []
      extensionType := fun _ => .none
      recovered := false
      buffer := [0x80, 113, 0, 5, 0, 0, 0, 0, 0, 0, 0, 1] ++ firstTwo.packet.bytes
      fixedHeader := Nat.le_refl _
      buffer_length := by decide +kernel }
  own := rfl
  carries := ⟨rfl, by decide +kernel⟩

theorem fecArrival_sent {sent : Set (Media 1)} (h1 : stream 1 ∈ sent) (h2 : stream 2 ∈ sent) :
    FromSent sent fecArrival.received := by
  intro m hm
  obtain rfl | rfl : m = stream 1 ∨ m = stream 2 := by
    simpa [firstTwo] using (List.mem_filter.mp hm).1
  · exact h1
  · exact h2

/-- Packet 2 is recovered from packet 1 as it was sent. -/
theorem recovered_was_sent_stream :
    (run FlexfecReceiver.webrtc insertionListSort (create 1 1)
        ([fecArrival, mediaArrival 1].map (·.packet))).passed = [(stream 2).bytes] ∧
      ∀ bytes ∈ (run FlexfecReceiver.webrtc insertionListSort (create 1 1)
        ([fecArrival, mediaArrival 1].map (·.packet))).passed,
        ∃ m ∈ ({stream 1, stream 2} : Set (Media 1)), bytes = m.bytes := by
  have hsent : ∀ a ∈ [fecArrival, mediaArrival 1],
      FromSent ({stream 1, stream 2} : Set (Media 1)) a.received := by
    intro a ha
    obtain rfl | rfl : a = fecArrival ∨ a = mediaArrival 1 := by simpa using ha
    · exact fecArrival_sent (.inl rfl) (.inr rfl)
    · exact .inl rfl
  have hnums : Set.InjOn Media.seqNum ({stream 1, stream 2} : Set (Media 1)) := by
    rintro m (rfl | rfl) m' (rfl | rfl) hnum
    · rfl
    · exact absurd hnum (by decide)
    · exact absurd hnum (by decide)
    · rfl
  exact ⟨by decide +kernel,
    recovered_was_sent _ 1 _ _ hsent (clearRun_of_injOn hsent hnums)⟩

/-- With the second packet of number 1 in the first one's place, what comes out as number 2 was
never sent. -/
theorem recovered_never_sent :
    ¬ ∀ (list : ListSort) (ssrc : UInt32) (sent : Set (Media ssrc)) (arrivals : List (Arrival ssrc)),
      (∀ a ∈ arrivals, FromSent sent a.received) →
        ∀ bytes ∈ (run FlexfecReceiver.webrtc list (create ssrc ssrc)
          (arrivals.map (·.packet))).passed, ∃ m ∈ sent, bytes = m.bytes := by
  intro hall
  have hsent : ∀ a ∈ [fecArrival, mediaArrival 65537],
      FromSent (Set.range stream) a.received := by
    intro a ha
    obtain rfl | rfl : a = fecArrival ∨ a = mediaArrival 65537 := by simpa using ha
    · exact fecArrival_sent ⟨1, rfl⟩ ⟨2, rfl⟩
    · exact ⟨65537, rfl⟩
  have hpassed : (run FlexfecReceiver.webrtc insertionListSort (create 1 1)
      ([fecArrival, mediaArrival 65537].map (·.packet))).passed =
        [[0x80, 96, 0, 2, 0, 0, 0, 0, 0, 0, 0, 1, 1]] := by decide +kernel
  obtain ⟨m, ⟨n, rfl⟩, hbytes⟩ := hall insertionListSort 1 (Set.range stream)
    [fecArrival, mediaArrival 65537] hsent _ (hpassed ▸ List.mem_cons_self)
  simp only [stream, List.cons.injEq] at hbytes
  obtain ⟨-, -, -, hlow, -, -, -, -, -, -, -, -, hpayload, -⟩ := hbytes
  split at hpayload
  · next hn =>
    subst hn
    exact absurd hlow (by decide)
  · exact absurd hpayload (by decide)

end FlexfecGenuine
