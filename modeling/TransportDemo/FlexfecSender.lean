import TransportDemo.FlexfecStream
import TransportDemo.RtpPacketFits

/-!
# The FlexFEC sender

`FlexfecSender` hands media packets to the generator and puts each FEC packet
that is made into an RTP packet of the FEC stream, under the next number of
that stream. The clock is read for each of them.
-/

namespace FlexfecSender

open ByteBuffer RtpPacket
open FlexfecEncoder (parseSsrc)
open FlexfecGenerator (UlpfecGenerator FecProtectionParams Buffered)
open FlexfecReceiver (RTPExtensionType ExtensionInfo)

/-- For a clock of 90 kHz. -/
def kMsToRtpTimestamp : Nat := 90
def kAbsoluteSendTimeBytes : Nat := 3
def kTransmissionOffsetBytes : Nat := 3
def kTransportSequenceNumberBytes : Nat := 2

structure Sender where
  payloadType : UInt8
  timestampOffset : UInt32
  ssrc : UInt32
  protectedMediaSsrc : UInt32
  mid : List UInt8
  seqNum : UInt16
  ulpfecGenerator : UlpfecGenerator
  extensions : ExtensionManager

variable (s : Sender)

def setFecParameters (params : FecProtectionParams) : Sender :=
  { s with ulpfecGenerator := s.ulpfecGenerator.setFecParameters params }

def addRtpPacketAndGenerateFec (p : Buffered) : Option (Bool × Sender) :=
  if parseSsrc (FlexfecPacket.Packet.ofBytes p.dataBuffer) ≠ s.protectedMediaSsrc then none
  else
    (s.ulpfecGenerator.addRtpPacketAndGenerateFec p).map fun result =>
      (result.1 == 0, { s with ulpfecGenerator := result.2 })

/-- The fields of the header. -/
def setHeader (timeInMilliseconds : Nat) (p : Packet kDefaultPacketSize) :
    Option (Packet kDefaultPacketSize) := do
  let p ← setMarker p false
  let p ← setPayloadType p s.payloadType
  let p ← setSequenceNumber p s.seqNum
  let p ← setTimestamp p (s.timestampOffset + UInt32.ofNat (kMsToRtpTimestamp * timeInMilliseconds))
  setSsrc p s.ssrc

/-- The extensions, as far as they are registered. -/
def setExtensions (p : Packet kDefaultPacketSize) : Option (Packet kDefaultPacketSize) := do
  let (_, p) ← reserveExtension p .absoluteSendTime kAbsoluteSendTimeBytes
  let (_, p) ← reserveExtension p .transmissionTimeOffset kTransmissionOffsetBytes
  let (_, p) ← reserveExtension p .transportSequenceNumber kTransportSequenceNumberBytes
  if s.mid = [] then some p
  else (setStringExtension p .mid s.mid).map Prod.snd

/-- The copy to where there is no room is `none`. -/
def setPayload (fec : FlexfecPacket.Packet) (p : Packet kDefaultPacketSize) :
    Option (Packet kDefaultPacketSize) := do
  let (payload, p) ← allocatePayload p fec.length
  let off ← payload
  let buffer ← write p.buffer off fec.bytes
  some { p with buffer }

/-- One FEC packet as it is sent. -/
def packetToSend (timeInMilliseconds : Nat) (memory : Nat → UInt8) (fec : FlexfecPacket.Packet) :
    Option (Packet kDefaultPacketSize) :=
  (create s.extensions memory).bind fun p =>
    (setHeader s timeInMilliseconds p).bind fun p => (setExtensions s p).bind (setPayload fec)

/-- The loop over the FEC packets that were made. -/
def packetsToSend (clock : Nat → Nat) (memory : Nat → Nat → UInt8) (s : Sender) :
    Nat → List FlexfecPacket.Packet → Option (List (Packet kDefaultPacketSize) × Sender)
  | _, [] => some ([], s)
  | i, fec :: rest => do
    let packet ← packetToSend s (clock i) (memory i) fec
    let (packets, s) ← packetsToSend clock memory { s with seqNum := s.seqNum + 1 } (i + 1) rest
    some (packet :: packets, s)

/-- `clock` and `memory` are the time and what the memory holds as each packet is made. -/
def getFecPackets (clock : Nat → Nat) (memory : Nat → Nat → UInt8) :
    Option (List (Packet kDefaultPacketSize) × Sender) :=
  (packetsToSend clock memory s 0 s.ulpfecGenerator.generatedFecPackets).map fun result =>
    (result.1, { result.2 with ulpfecGenerator := result.2.ulpfecGenerator.resetState })

/-! ### One packet -/

section Packet

variable {capacity : Nat} {p p' q : Packet capacity} {done : Bool}

/-- The packet has been given extensions at most. -/
def Extends (p p' : Packet capacity) : Prop :=
  Wire p' ∧ ∃ extensions, p'.content = { p.content with extensions }

theorem extends_self (h : Wire p) : Extends p p := ⟨h, p.content.extensions, rfl⟩

theorem Extends.trans (h : Extends p p') (h' : Extends p' q) : Extends p q := by
  obtain ⟨-, extensions, hcontent⟩ := h
  obtain ⟨hwire, extensions', hcontent'⟩ := h'
  exact ⟨hwire, extensions', by rw [hcontent', hcontent]⟩

theorem allocateExtension_cases {type : RTPExtensionType} {length : Nat} {room : Option Nat}
    (hallocate : allocateExtension p type length = some (room, p')) : room = none ∧ p' = p ∨
      1 ≤ length ∧ length ≤ kMaxValueSize ∧
        allocateRawExtension p (p.extensions.ids type) (UInt8.ofNat length) = some (room, p') := by
  simp only [allocateExtension] at hallocate
  rcases ite_eq_iff.mp hallocate with ⟨-, hallocate⟩ | ⟨hlength, hallocate⟩
  · obtain ⟨rfl, rfl⟩ := Prod.mk.inj (Option.some.inj hallocate)
    exact .inl ⟨rfl, rfl⟩
  rw [not_or, not_or, Nat.not_lt] at hlength
  split at hallocate
  · obtain ⟨rfl, rfl⟩ := Prod.mk.inj (Option.some.inj hallocate)
    exact .inl ⟨rfl, rfl⟩
  split at hallocate
  · obtain ⟨rfl, rfl⟩ := Prod.mk.inj (Option.some.inj hallocate)
    exact .inl ⟨rfl, rfl⟩
  · exact .inr ⟨Nat.pos_of_ne_zero hlength.1, hlength.2.1, hallocate⟩

/-- An extension is allocated and filled, or it is not there. -/
theorem fillExtension_extends (h : Wire p) (hcap : capacity ≤ 0xffff) (type : RTPExtensionType)
    (content : List UInt8) (hset : (allocateExtension p type content.length).bind (copyTo content) =
      some (done, p')) : Extends p p' := by
  obtain ⟨⟨room, p₁⟩, hallocate, hcopy⟩ := Option.bind_eq_some_iff.mp hset
  rcases allocateExtension_cases hallocate with ⟨rfl, rfl⟩ | ⟨-, hlength, hallocate⟩
  · obtain ⟨rfl, rfl⟩ := Prod.mk.inj (Option.some.inj hcopy)
    exact extends_self h
  · have happly : apply p (.setExtension (p.extensions.ids type) content) = some (done, p') := by
      rw [apply, if_neg (Nat.not_lt.mpr hlength), hallocate]
      exact hcopy
    obtain ⟨hwire, hcontent⟩ := setExtension_does h hcap happly
    refine ⟨hwire, ?_⟩
    rw [hcontent, Content.update]
    split
    · exact ⟨_, rfl⟩
    · exact ⟨p.content.extensions, rfl⟩

theorem reserveExtension_extends (h : Wire p) (hcap : capacity ≤ 0xffff) {type : RTPExtensionType}
    {valueSize : Nat} (hreserve : reserveExtension p type valueSize = some (done, p')) :
    Extends p p' := by
  rw [reserveExtension] at hreserve
  nth_rewrite 1 [← @List.length_replicate UInt8 valueSize 0] at hreserve
  exact fillExtension_extends h hcap type _ hreserve

theorem setStringExtension_extends (h : Wire p) (hcap : capacity ≤ 0xffff)
    {type : RTPExtensionType} {value : List UInt8}
    (hset : setStringExtension p type value = some (done, p')) : Extends p p' := by
  by_cases hlong : kMaxValueSizeBytes < value.length
  · obtain ⟨⟨room, p₁⟩, hallocate, hcopy⟩ := Option.bind_eq_some_iff.mp hset
    have hp : p' = p₁ := by
      cases room with
      | none => exact (congrArg Prod.snd (Option.some.inj hcopy)).symm
      | some off => exact (congrArg Prod.snd (Option.some.inj ((if_pos hlong).symm.trans hcopy))).symm
    subst hp
    rcases allocateExtension_cases hallocate with ⟨-, rfl⟩ | ⟨-, -, hallocate⟩
    · exact extends_self h
    · rcases allocateRawExtension_allocates h hcap hallocate with
        ⟨-, hwire, hcontent⟩ | ⟨off, -, hwire, -, hcontent⟩
      · exact ⟨hwire, p.content.extensions, hcontent⟩
      · have hput := hcontent value
        exact ⟨hwire, p'.content.extensions,
          congrArg (fun c => { c with extensions := p'.content.extensions }) hput⟩
  · refine fillExtension_extends h hcap type value (Eq.trans ?_ hset)
    refine Option.bind_congr fun result _ => ?_
    obtain ⟨_ | off, p₁⟩ := result
    · rfl
    · exact (if_neg hlong).symm

end Packet

/-! ### What is sent -/

variable {s} {p p' : Packet kDefaultPacketSize} {fec : FlexfecPacket.Packet}

/-- The buffers are of 1500 bytes. -/
theorem capacity_le : kDefaultPacketSize ≤ 0xffff := by decide

theorem setHeader_does {timeInMilliseconds : Nat} (h : Wire p)
    (hset : setHeader s timeInMilliseconds p = some p') :
    Wire p' ∧ p'.content = { p.content with
      marker := false, payloadType := s.payloadType, sequenceNumber := s.seqNum
      timestamp := s.timestampOffset + UInt32.ofNat (kMsToRtpTimestamp * timeInMilliseconds)
      ssrc := s.ssrc } := by
  simp only [setHeader, Option.bind_eq_bind, Option.bind_eq_some_iff] at hset
  obtain ⟨p₁, hmarker, p₂, htype, p₃, hseqNum, p₄, htimestamp, hssrc⟩ := hset
  obtain ⟨hwire, hcontent₁⟩ := setMarker_does h hmarker
  obtain ⟨hwire, hcontent₂⟩ := setPayloadType_does hwire htype
  obtain ⟨hwire, hcontent₃⟩ := setSequenceNumber_does hwire hseqNum
  obtain ⟨hwire, hcontent₄⟩ := setTimestamp_does hwire htimestamp
  obtain ⟨hwire, hcontent₅⟩ := setSsrc_does hwire hssrc
  refine ⟨hwire, ?_⟩
  rw [hcontent₅, hcontent₄, hcontent₃, hcontent₂, hcontent₁]
  rfl

theorem setExtensions_extends (h : Wire p) (hset : setExtensions s p = some p') :
    Extends p p' := by
  simp only [setExtensions, Option.bind_eq_bind, Option.bind_eq_some_iff] at hset
  obtain ⟨⟨_, p₁⟩, hreserve₁, ⟨_, p₂⟩, hreserve₂, ⟨_, p₃⟩, hreserve₃, hset⟩ := hset
  have hextends₁ := reserveExtension_extends h capacity_le hreserve₁
  have hextends₂ := reserveExtension_extends hextends₁.1 capacity_le hreserve₂
  have hextends₃ := reserveExtension_extends hextends₂.1 capacity_le hreserve₃
  have hextends := (hextends₁.trans hextends₂).trans hextends₃
  rcases ite_eq_iff.mp hset with ⟨-, hset⟩ | ⟨-, hset⟩
  · obtain rfl := Option.some.inj hset
    exact hextends
  · obtain ⟨⟨_, q⟩, hmid, rfl⟩ := Option.map_eq_some_iff.mp hset
    exact hextends.trans (setStringExtension_extends hextends₃.1 capacity_le hmid)

theorem setPayload_does (h : Wire p) (hset : setPayload fec p = some p') :
    Wire p' ∧ p'.content = { p.content with payload := fec.bytes } := by
  obtain ⟨⟨room, p₁⟩, hallocate, hset⟩ := Option.bind_eq_some_iff.mp hset
  obtain ⟨off, hroom, hset⟩ := Option.bind_eq_some_iff.mp hset
  obtain ⟨b, hwrite, hset⟩ := Option.bind_eq_some_iff.mp hset
  have hlength : fec.bytes.length = fec.length := by
    rw [FlexfecPacket.Packet.bytes, List.length_map, List.length_range]
  have happly : apply p (.setPayload fec.bytes) = some (true, p') := by
    rw [apply, hlength, hallocate, Option.bind_some, show room = some off from hroom, copyTo,
      show write p₁.buffer off fec.bytes = some b from hwrite, ← Option.some.inj hset]
    rfl
  exact RtpPacket.setPayload_does h happly

/-- The RTP packet that an FEC packet is sent in. -/
structure Sends (s : Sender) (fec : FlexfecPacket.Packet) (q : Packet kDefaultPacketSize) :
    Prop where
  wire : Wire q
  marker : q.content.marker = false
  payloadType : q.content.payloadType = s.payloadType
  sequenceNumber : q.content.sequenceNumber = s.seqNum
  ssrc : q.content.ssrc = s.ssrc
  payload : q.content.payload = fec.bytes
  paddingSize : q.content.paddingSize = 0

theorem packetToSend_sends {timeInMilliseconds : Nat} {memory : Nat → UInt8}
    (hsend : packetToSend s timeInMilliseconds memory fec = some p) : Sends s fec p := by
  obtain ⟨p₁, hcreate, hsend⟩ := Option.bind_eq_some_iff.mp hsend
  obtain ⟨p₂, hheader, hsend⟩ := Option.bind_eq_some_iff.mp hsend
  obtain ⟨p₃, hextensions, hpayload⟩ := Option.bind_eq_some_iff.mp hsend
  rw [create, Option.ite_none_left_eq_some] at hcreate
  obtain ⟨hwire, hempty⟩ := clear_wire hcreate.2
  obtain ⟨hwire, hheader⟩ := setHeader_does hwire hheader
  obtain ⟨hwire, extensions, hextensions⟩ := setExtensions_extends hwire hextensions
  obtain ⟨hwire, hpayload⟩ := setPayload_does hwire hpayload
  rw [hextensions, hheader, hempty] at hpayload
  exact ⟨hwire, congrArg Content.marker hpayload, congrArg Content.payloadType hpayload,
    congrArg Content.sequenceNumber hpayload, congrArg Content.ssrc hpayload,
    congrArg Content.payload hpayload, congrArg Content.paddingSize hpayload⟩

/-! ### Without extensions -/

/-- No extension is registered. -/
def NoExtensions (extensions : ExtensionManager) : Prop := ∀ type, extensions.ids type = 0

theorem allocateExtension_none (h : NoExtensions p.extensions) (type : RTPExtensionType)
    (length : Nat) : allocateExtension p type length = some (none, p) := by
  simp only [allocateExtension, h type, if_true]
  split <;> rfl

theorem reserveExtension_none (h : NoExtensions p.extensions) (type : RTPExtensionType)
    (valueSize : Nat) : reserveExtension p type valueSize = some (false, p) := by
  rw [reserveExtension, allocateExtension_none h]
  rfl

theorem setExtensions_none (h : NoExtensions p.extensions) : setExtensions s p = some p := by
  simp only [setExtensions, reserveExtension_none h, Option.bind_eq_bind, Option.bind_some]
  split
  · rfl
  · rw [setStringExtension, allocateExtension_none h]
    rfl

section Bare

variable {capacity : Nat} {extensions : ExtensionManager} {q : Packet capacity}

/-- A packet with nothing behind the fixed header. -/
structure Bare (extensions : ExtensionManager) (p : Packet capacity) : Prop where
  wire : Wire p
  extensions : p.extensions = extensions
  payloadOffset : p.payloadOffset = kFixedHeaderSize
  paddingSize : p.paddingSize = 0

theorem create_bare (hcap : kFixedHeaderSize ≤ capacity) {memory : Nat → UInt8} :
    ∃ p : Packet capacity, create extensions memory = some p ∧ Bare extensions p := by
  have hsome : (create extensions memory : Option (Packet capacity)).isSome := by
    rw [create, if_neg (Nat.not_lt.mpr hcap)]
    refine isSome_bind (write_isSome.mpr ?_) fun _ _ => isSome_bind (write_isSome.mpr ?_)
      fun _ _ => rfl
    · rw [List.length_replicate]
      omega
    · exact (Nat.succ_pos 11).trans_le hcap
  obtain ⟨p, hcreate⟩ := Option.isSome_iff_exists.mp hsome
  refine ⟨p, hcreate, ?_⟩
  rw [create, Option.ite_none_left_eq_some] at hcreate
  have hwire := (clear_wire hcreate.2).1
  obtain ⟨b, -, hclear⟩ := Option.bind_eq_some_iff.mp hcreate.2
  obtain ⟨b', -, hclear⟩ := Option.bind_eq_some_iff.mp hclear
  obtain rfl := (Option.some.inj hclear).symm
  exact ⟨hwire, rfl, rfl, rfl⟩

/-- A write to the fixed header. -/
theorem Bare.header (h : Bare extensions q) (off : Nat) (bytes : List UInt8)
    (set : Buffer capacity → Packet capacity) (hend : off + bytes.length ≤ 12)
    (hkeeps : ∀ b, (set b).extensions = q.extensions ∧ (set b).payloadOffset = q.payloadOffset ∧
      (set b).paddingSize = q.paddingSize)
    (hwire : ∀ p', (write q.buffer off bytes).bind (fun b => some (set b)) = some p' → Wire p') :
    ∃ p', (write q.buffer off bytes).bind (fun b => some (set b)) = some p' ∧
      Bare extensions p' := by
  have hheader := h.wire.header_le
  have hfits := h.wire.fits
  rw [Packet.size] at hfits
  obtain ⟨b, hwrite⟩ := Option.isSome_iff_exists.mp
    (write_isSome.mpr (hend.trans (hheader.trans (by omega)) : off + bytes.length ≤ capacity))
  rw [hwrite] at hwire ⊢
  obtain ⟨hextensions, hoffset, hpadding⟩ := hkeeps b
  exact ⟨set b, rfl, hwire _ rfl, hextensions.trans h.extensions, hoffset.trans h.payloadOffset,
    hpadding.trans h.paddingSize⟩

theorem setMarker_bare (h : Bare extensions q) (markerBit : Bool) :
    ∃ q', setMarker q markerBit = some q' ∧ Bare extensions q' :=
  h.header 1 [_] (fun buffer => { q with marker := markerBit, buffer }) (Nat.le_add_right 2 10)
    (fun _ => ⟨rfl, rfl, rfl⟩) fun _ hset => (setMarker_does h.wire hset).1

theorem setPayloadType_bare (h : Bare extensions q) {payloadType : UInt8}
    (htype : payloadType ≤ 0x7f) :
    ∃ q', RtpPacket.setPayloadType q payloadType = some q' ∧ Bare extensions q' := by
  have hset (q' : Packet capacity) (hset : (write q.buffer 1
      [q.buffer.byte 1 &&& 0x80 ||| payloadType]).bind
        (fun buffer => some { q with payloadType, buffer }) = some q') :
      RtpPacket.setPayloadType q payloadType = some q' := by
    rw [RtpPacket.setPayloadType, if_neg (UInt8.not_lt.mpr htype)]
    exact hset
  obtain ⟨q', hwrite, hbare⟩ := h.header 1 [_] (fun buffer => { q with payloadType, buffer })
    (Nat.le_add_right 2 10) (fun _ => ⟨rfl, rfl, rfl⟩) fun _ hwrite =>
      (setPayloadType_does h.wire (hset _ hwrite)).1
  exact ⟨q', hset q' hwrite, hbare⟩

theorem setSequenceNumber_bare (h : Bare extensions q) (seqNo : UInt16) :
    ∃ q', setSequenceNumber q seqNo = some q' ∧ Bare extensions q' :=
  h.header 2 (be16 seqNo) (fun buffer => { q with sequenceNumber := seqNo, buffer })
    (Nat.le_add_right 4 8) (fun _ => ⟨rfl, rfl, rfl⟩) fun _ hset =>
      (setSequenceNumber_does h.wire hset).1

theorem setTimestamp_bare (h : Bare extensions q) (timestamp : UInt32) :
    ∃ q', setTimestamp q timestamp = some q' ∧ Bare extensions q' :=
  h.header 4 (be32 timestamp) (fun buffer => { q with timestamp, buffer })
    (Nat.le_add_right 8 4) (fun _ => ⟨rfl, rfl, rfl⟩) fun _ hset =>
      (setTimestamp_does h.wire hset).1

theorem setSsrc_bare (h : Bare extensions q) (ssrc : UInt32) :
    ∃ q', setSsrc q ssrc = some q' ∧ Bare extensions q' :=
  h.header 8 (be32 ssrc) (fun buffer => { q with ssrc, buffer }) (Nat.le_refl 12)
    (fun _ => ⟨rfl, rfl, rfl⟩) fun _ hset => (setSsrc_does h.wire hset).1

theorem allocatePayload_bare (h : Bare extensions q) {sizeBytes : Nat}
    (hroom : q.payloadOffset + sizeBytes ≤ capacity) :
    ∃ q', allocatePayload q sizeBytes = some (some q.payloadOffset, q') := by
  have hset (size : Nat) (q : Packet capacity) (hpadding : q.paddingSize = 0)
      (hroom : q.payloadOffset + size ≤ capacity) : setPayloadSize q size =
        some (some q.payloadOffset, { q with
          payloadSize := size, buffer := setSize q.buffer (q.payloadOffset + size) }) := by
    rw [setPayloadSize, if_neg (not_not.mpr hpadding), if_neg (Nat.not_lt.mpr hroom)]
  rw [allocatePayload, hset 0 q h.paddingSize (by omega)]
  exact ⟨_, hset sizeBytes _ h.paddingSize hroom⟩

end Bare

theorem setHeader_bare {extensions : ExtensionManager} (timeInMilliseconds : Nat)
    (h : Bare extensions p) (htype : s.payloadType ≤ 0x7f) :
    ∃ p', setHeader s timeInMilliseconds p = some p' ∧ Bare extensions p' := by
  obtain ⟨p₁, hmarker, h⟩ := setMarker_bare h false
  obtain ⟨p₂, htype, h⟩ := setPayloadType_bare h htype
  obtain ⟨p₃, hseqNum, h⟩ := setSequenceNumber_bare h s.seqNum
  obtain ⟨p₄, htimestamp, h⟩ := setTimestamp_bare h
    (s.timestampOffset + UInt32.ofNat (kMsToRtpTimestamp * timeInMilliseconds))
  obtain ⟨p₅, hssrc, h⟩ := setSsrc_bare h s.ssrc
  refine ⟨p₅, ?_, h⟩
  simp only [setHeader, Option.bind_eq_bind, Option.bind_eq_some_iff]
  exact ⟨p₁, hmarker, p₂, htype, p₃, hseqNum, p₄, htimestamp, hssrc⟩

/-- An FEC packet that fits behind the fixed header is sent. -/
theorem packetToSend_isSome (hnone : NoExtensions s.extensions) (htype : s.payloadType ≤ 0x7f)
    (timeInMilliseconds : Nat) (memory : Nat → UInt8)
    (hfits : kFixedHeaderSize + fec.length ≤ kDefaultPacketSize) :
    (packetToSend s timeInMilliseconds memory fec).isSome := by
  have hcap : kFixedHeaderSize ≤ kDefaultPacketSize := by decide
  have hbare : ∃ p : Packet kDefaultPacketSize,
      create s.extensions memory = some p ∧ Bare s.extensions p := create_bare hcap
  obtain ⟨p₁, hcreate, h⟩ := hbare
  obtain ⟨p₂, hheader, h⟩ := setHeader_bare timeInMilliseconds h htype
  rw [packetToSend, hcreate, Option.bind_some, hheader, Option.bind_some,
    setExtensions_none (h.extensions ▸ hnone), Option.bind_some]
  have hroom : p₂.payloadOffset + fec.length ≤ kDefaultPacketSize := by rwa [h.payloadOffset]
  obtain ⟨q, hallocate⟩ := allocatePayload_bare h hroom
  simp only [setPayload, hallocate, Option.bind_eq_bind, Option.bind_some]
  refine isSome_bind (write_isSome.mpr ?_) fun _ _ => rfl
  rwa [FlexfecPacket.Packet.bytes, List.length_map, List.length_range]

/-! ### All of them -/

/-- The `i`-th packet is sent under the `i`-th number. -/
theorem packetsToSend_sends {clock : Nat → Nat} {memory : Nat → Nat → UInt8} {s s' : Sender}
    {i : Nat} {fecPackets : List FlexfecPacket.Packet}
    {packets : List (Packet kDefaultPacketSize)}
    (hsend : packetsToSend clock memory s i fecPackets = some (packets, s')) :
    s' = { s with seqNum := s.seqNum + UInt16.ofNat fecPackets.length } ∧
      packets.length = fecPackets.length ∧
      ∀ j (hj : j < packets.length) (hj' : j < fecPackets.length),
        Sends { s with seqNum := s.seqNum + UInt16.ofNat j } fecPackets[j] packets[j] := by
  induction fecPackets generalizing s i packets with
  | nil =>
    obtain ⟨rfl, rfl⟩ := Prod.mk.inj (Option.some.inj hsend)
    refine ⟨?_, rfl, fun j hj => absurd hj (Nat.not_lt_zero j)⟩
    rw [List.length_nil, show UInt16.ofNat 0 = 0 from rfl, UInt16.add_zero]
  | cons fec rest ih =>
    simp only [packetsToSend, Option.bind_eq_bind, Option.bind_eq_some_iff] at hsend
    obtain ⟨packet, hpacket, ⟨packets', s₁⟩, hrest, hsend⟩ := hsend
    obtain ⟨rfl, rfl⟩ := Prod.mk.inj (Option.some.inj hsend)
    obtain ⟨hs, hlength, hsends⟩ := ih hrest
    have hnum (j : Nat) : s.seqNum + 1 + UInt16.ofNat j = s.seqNum + UInt16.ofNat (j + 1) := by
      rw [UInt16.ofNat_add, UInt16.add_assoc, UInt16.add_comm 1]
      rfl
    refine ⟨?_, by rw [List.length_cons, hlength, List.length_cons], fun j hj hj' => ?_⟩
    · rw [hs, List.length_cons, ← hnum]
    · cases j with
      | zero =>
        have hsends := packetToSend_sends hpacket
        rwa [show UInt16.ofNat 0 = 0 from rfl, UInt16.add_zero]
      | succ j =>
        have hsends := hsends j (Nat.lt_of_succ_lt_succ hj) (Nat.lt_of_succ_lt_succ hj')
        rwa [hnum] at hsends

theorem packetsToSend_isSome {clock : Nat → Nat} {memory : Nat → Nat → UInt8} {s : Sender}
    (hnone : NoExtensions s.extensions) (htype : s.payloadType ≤ 0x7f) {i : Nat}
    {fecPackets : List FlexfecPacket.Packet}
    (hfits : ∀ fec ∈ fecPackets, kFixedHeaderSize + fec.length ≤ kDefaultPacketSize) :
    (packetsToSend clock memory s i fecPackets).isSome := by
  induction fecPackets generalizing s i with
  | nil => rfl
  | cons fec rest ih =>
    obtain ⟨hfec, hrest⟩ := List.forall_mem_cons.mp hfits
    simp only [packetsToSend, Option.bind_eq_bind]
    exact isSome_bind (packetToSend_isSome hnone htype _ _ hfec) fun _ _ =>
      isSome_bind (ih (s := { s with seqNum := s.seqNum + 1 }) hnone htype hrest) fun _ _ => rfl

end FlexfecSender
