import TransportDemo.RtpPacketWire
import TransportDemo.StepTrace

/-!
# Building a packet

Whatever is set in a packet in whatever order, as far as the assertions allow,
the buffer holds it, and the parser reads it back. This includes header
extensions that do not fit the one-byte format, for which those that are there
are rewritten.
-/

namespace RtpPacket

open ByteBuffer
open FlexfecReceiver (ExtensionInfo)

/-- What may be done to a packet. An extension is allocated and its content copied to the place for
it, and so is the payload. -/
inductive Op where
  | setMarker (markerBit : Bool)
  | setPayloadType (payloadType : UInt8)
  | setSequenceNumber (seqNo : UInt16)
  | setTimestamp (timestamp : UInt32)
  | setSsrc (ssrc : UInt32)
  | setCsrcs (csrcs : List UInt32)
  | setExtension (id : UInt8) (content : List UInt8)
  | setPayload (content : List UInt8)
  | setPadding (paddingBytes : Nat)

section Apply

variable {capacity : Nat}

/-- Whether it was done, and the packet. -/
def apply (p : Packet capacity) : Op → Option (Bool × Packet capacity)
  | .setMarker markerBit => (setMarker p markerBit).map (true, ·)
  | .setPayloadType payloadType => (setPayloadType p payloadType).map (true, ·)
  | .setSequenceNumber seqNo => (setSequenceNumber p seqNo).map (true, ·)
  | .setTimestamp timestamp => (setTimestamp p timestamp).map (true, ·)
  | .setSsrc ssrc => (setSsrc p ssrc).map (true, ·)
  | .setCsrcs csrcs => (setCsrcs p csrcs).map (true, ·)
  | .setExtension id content =>
    if kMaxValueSize < content.length then none
    else (allocateRawExtension p id (UInt8.ofNat content.length)).bind (copyTo content)
  | .setPayload content => (allocatePayload p content.length).bind (copyTo content)
  | .setPadding paddingBytes => setPadding p paddingBytes

end Apply

/-- The value of the extension is replaced, or else the extension added. -/
def put (id : UInt8) (value : List UInt8) : List (UInt8 × List UInt8) → List (UInt8 × List UInt8)
  | [] => [(id, value)]
  | e :: rest => if e.1 = id then (id, value) :: rest else e :: put id value rest

/-- What the packet says after an operation that was done or not. -/
def Content.update (c : Content) (done : Bool) : Op → Content
  | .setMarker markerBit => { c with marker := markerBit }
  | .setPayloadType payloadType => { c with payloadType }
  | .setSequenceNumber seqNo => { c with sequenceNumber := seqNo }
  | .setTimestamp timestamp => { c with timestamp }
  | .setSsrc ssrc => { c with ssrc }
  | .setCsrcs csrcs => { c with csrcs }
  | .setExtension id content =>
    if done then { c with extensions := put id content c.extensions } else c
  | .setPayload content => { c with payload := if done then content else [] }
  | .setPadding paddingBytes =>
    if done then { c with paddingSize := UInt8.ofNat paddingBytes } else c

/-! ### The fixed header -/

section Header

variable {capacity : Nat} {p : Packet capacity}

/-- The marker and the type share a byte. -/
theorem marker_trip : ∀ x : UInt8,
    ((x ||| 0x80) &&& 0x80 ≠ 0 ∧ (x &&& 0x7f) &&& 0x80 = 0 ∧
      (x ||| 0x80) &&& 0x7f = x &&& 0x7f ∧ (x &&& 0x7f) &&& 0x7f = x &&& 0x7f) ∧
    (x &&& 0x80 = 0 ∨ x &&& 0x80 = 0x80) ∧
    (¬ 0x7f < x → (0 ||| x) &&& 0x7f = x ∧ (0x80 ||| x) &&& 0x7f = x ∧
      (0 ||| x) &&& 0x80 = 0 ∧ (0x80 ||| x) &&& 0x80 = 0x80) := by
  decide +kernel

/-- The fields of the fixed header are what its bytes 1 to 11 say. -/
structure Fixed (b : Buffer capacity) (marker : Bool) (payloadType : UInt8)
    (sequenceNumber : UInt16) (timestamp ssrc : UInt32) : Prop where
  marker : marker = decide (b.byte 1 &&& 0x80 ≠ 0)
  payloadType : payloadType = b.byte 1 &&& 0x7f
  sequenceNumber : sequenceNumber = get16 b 2
  timestamp : timestamp = get32 b 4
  ssrc : ssrc = get32 b 8

theorem Wire.fixed (h : Wire p) :
    Fixed p.buffer p.marker p.payloadType p.sequenceNumber p.timestamp p.ssrc :=
  ⟨h.marker, h.payloadType, h.sequenceNumber, h.timestamp, h.ssrc⟩

theorem Block.congr {b b' : Buffer capacity} {start : Nat} {entries : List ExtensionInfo}
    {extensionsSize payloadOffset : Nat} {oneByte : Bool}
    (h : Block b start entries extensionsSize payloadOffset oneByte)
    (hsame : ∀ i, start ≤ i → i < payloadOffset → b'.byte i = b.byte i) :
    Block b' start entries extensionsSize payloadOffset oneByte := by
  have hle := h.size_le
  have hget (off : Nat) (hoff : start ≤ off) (hoff' : off + 2 ≤ payloadOffset) :
      get16 b' off = get16 b off := get16_congr fun i hi hi' => hsame i (by omega) (by omega)
  refine ⟨?_, ?_, h.size_pos, hle, h.layout.congr fun i hi hi' => hsame i (by omega) (by omega),
    fun i hi hi' => ?_, h.ids⟩
  · rw [hget _ (by omega) (by omega), h.profile]
  · rw [hget _ (by omega) (by omega), ← h.words]
  · rw [hsame i (by omega) hi', h.zeros i hi hi']

/-- Nothing but the fixed header changes. -/
theorem Wire.setFixed (h : Wire p) {b : Buffer capacity} {marker : Bool} {payloadType : UInt8}
    {sequenceNumber : UInt16} {timestamp ssrc : UInt32} (hlength : b.length = p.buffer.length)
    (hfirst : b.byte 0 = p.buffer.byte 0) (hsame : ∀ i, 12 ≤ i → b.byte i = p.buffer.byte i)
    (hfixed : Fixed b marker payloadType sequenceNumber timestamp ssrc) :
    let p' : Packet capacity := { p with marker, payloadType, sequenceNumber, timestamp, ssrc, buffer := b }
    Wire p' ∧ p'.content =
      { p.content with marker, payloadType, sequenceNumber, timestamp, ssrc } := by
  have hend : csrcEnd b = csrcEnd p.buffer := by rw [csrcEnd, csrcEnd, numCsrc, hfirst, numCsrc]
  have hheader := h.header_le
  have hstart : 12 ≤ csrcEnd p.buffer := Nat.le_add_right 12 _
  intro p'
  refine ⟨⟨hlength.trans h.length, h.fits, hfirst ▸ h.version, hfirst ▸ h.padding,
    hfirst ▸ h.extension, hfixed.marker, hfixed.payloadType, hfixed.sequenceNumber,
    hfixed.timestamp, hfixed.ssrc, hend ▸ h.none, fun hsome => ?_, fun hpadding => ?_⟩, ?_⟩
  · obtain ⟨oneByte, hblock⟩ := h.block hsome
    exact ⟨oneByte, hend ▸ hblock.congr fun i hi _ => hsame i (by omega)⟩
  · have hpos : 0 < p.paddingSize.toNat :=
      Nat.pos_of_ne_zero fun hz => hpadding (UInt8.toNat_inj.mp hz)
    have hsize : 12 ≤ p.size - 1 := by
      rw [Packet.size]
      omega
    exact (hsame _ hsize).trans (h.last hpadding)
  · obtain ⟨hcsrcs, hvalues, hpayload⟩ := h.body_congr (q := b) hfirst fun i hi _ => hsame i hi
    have hcontent : p'.content = ⟨marker, payloadType, sequenceNumber, timestamp, ssrc, csrcs b,
      values b.byte p.extensionEntries, bytesAt b.byte p.payloadOffset p.payloadSize,
      p.paddingSize⟩ := rfl
    rw [hcontent, hcsrcs, hvalues, hpayload]
    rfl

/-- A header byte is written over. -/
theorem Wire.setByte1 (h : Wire p) {b : Buffer capacity} {byte : UInt8}
    (hwrite : write p.buffer 1 [byte] = some b) :
    Wire { p with marker := decide (byte &&& 0x80 ≠ 0), payloadType := byte &&& 0x7f, buffer := b } ∧
      Packet.content
          { p with marker := decide (byte &&& 0x80 ≠ 0), payloadType := byte &&& 0x7f, buffer := b } =
        { p.content with marker := decide (byte &&& 0x80 ≠ 0), payloadType := byte &&& 0x7f } := by
  obtain ⟨hwritten, -⟩ := written_of_write hwrite
  have hbyte : b.byte 1 = byte := hwritten.inside 0 Nat.zero_lt_one
  refine h.setFixed hwritten.length (hwritten.outside 0 (.inl Nat.zero_lt_one))
    (fun i hi => hwritten.outside i (.inr (by simp only [List.length_singleton]; omega))) ?_
  have hrest (i : Nat) (hi : 2 ≤ i) : b.byte i = p.buffer.byte i :=
    hwritten.outside i (.inr (by simpa using hi))
  refine ⟨by rw [hbyte], by rw [hbyte], ?_, ?_, ?_⟩
  · rw [h.sequenceNumber]
    exact (get16_congr fun i hi _ => hrest i hi).symm
  · rw [h.timestamp]
    exact (get32_congr fun i hi _ => hrest i (by omega)).symm
  · rw [h.ssrc]
    exact (get32_congr fun i hi _ => hrest i (by omega)).symm

/-- The operation did to the packet what it says. -/
def Does (p p' : Packet capacity) (done : Bool) (op : Op) : Prop :=
  Wire p' ∧ p'.content = p.content.update done op

variable {p' : Packet capacity}

theorem setMarker_does (h : Wire p) {markerBit : Bool} (hset : setMarker p markerBit = some p') :
    Does p p' true (.setMarker markerBit) := by
  obtain ⟨b, hwrite, hp⟩ := Option.bind_eq_some_iff.mp hset
  obtain rfl := (Option.some.inj hp).symm
  obtain ⟨⟨hon, hoff, htypeOn, htypeOff⟩, -⟩ := marker_trip (p.buffer.byte 1)
  obtain ⟨hwire, hcontent⟩ := h.setByte1 hwrite
  have hmarker : decide ((if markerBit then p.buffer.byte 1 ||| 0x80
      else p.buffer.byte 1 &&& 0x7f) &&& 0x80 ≠ 0) = markerBit := by
    cases markerBit with
    | true => exact decide_eq_true hon
    | false => exact decide_eq_false (not_not.mpr hoff)
  have htype : (if markerBit then p.buffer.byte 1 ||| 0x80 else p.buffer.byte 1 &&& 0x7f) &&& 0x7f =
      p.payloadType := by
    rw [h.payloadType]
    cases markerBit with
    | true => exact htypeOn
    | false => exact htypeOff
  rw [hmarker, htype] at hwire hcontent
  exact ⟨hwire, hcontent⟩

theorem setPayloadType_does (h : Wire p) {payloadType : UInt8}
    (hset : setPayloadType p payloadType = some p') :
    Does p p' true (.setPayloadType payloadType) := by
  rw [setPayloadType, Option.ite_none_left_eq_some] at hset
  obtain ⟨hrange, hset⟩ := hset
  obtain ⟨b, hwrite, hp⟩ := Option.bind_eq_some_iff.mp hset
  obtain rfl := (Option.some.inj hp).symm
  obtain ⟨htypeOff, htypeOn, hoff, hon⟩ := (marker_trip payloadType).2.2 hrange
  obtain ⟨hwire, hcontent⟩ := h.setByte1 hwrite
  have hbits : decide ((p.buffer.byte 1 &&& 0x80 ||| payloadType) &&& 0x80 ≠ 0) = p.marker ∧
      (p.buffer.byte 1 &&& 0x80 ||| payloadType) &&& 0x7f = payloadType := by
    rw [h.marker]
    rcases (marker_trip (p.buffer.byte 1)).2.1 with hzero | hset
    · rw [hzero, hoff]
      exact ⟨rfl, htypeOff⟩
    · rw [hset, hon]
      exact ⟨rfl, htypeOn⟩
  rw [hbits.1, hbits.2] at hwire hcontent
  exact ⟨hwire, hcontent⟩

/-- One of the numbers is written over. -/
theorem Wire.setField (h : Wire p) {b : Buffer capacity} {off : Nat} {bytes : List UInt8}
    (hwrite : write p.buffer off bytes = some b) (hoff : 2 ≤ off) (hend : off + bytes.length ≤ 12) :
    Wire { p with
        sequenceNumber := get16 b 2, timestamp := get32 b 4, ssrc := get32 b 8, buffer := b } ∧
      Packet.content { p with
          sequenceNumber := get16 b 2, timestamp := get32 b 4, ssrc := get32 b 8, buffer := b } =
        { p.content with
          sequenceNumber := get16 b 2, timestamp := get32 b 4, ssrc := get32 b 8 } := by
  obtain ⟨hwritten, -⟩ := written_of_write hwrite
  have hfirst (i : Nat) (hi : i < 2) : b.byte i = p.buffer.byte i :=
    hwritten.outside i (.inl (by omega))
  refine h.setFixed hwritten.length (hfirst 0 Nat.zero_lt_two)
    (fun i hi => hwritten.outside i (.inr (by omega))) ⟨?_, ?_, rfl, rfl, rfl⟩
  · rw [hfirst 1 Nat.one_lt_two, h.marker]
  · rw [hfirst 1 Nat.one_lt_two, h.payloadType]

theorem setSequenceNumber_does (h : Wire p) {seqNo : UInt16}
    (hset : setSequenceNumber p seqNo = some p') : Does p p' true (.setSequenceNumber seqNo) := by
  obtain ⟨b, hwrite, hp⟩ := Option.bind_eq_some_iff.mp hset
  obtain rfl := (Option.some.inj hp).symm
  obtain ⟨hwritten, -⟩ := written_of_write hwrite
  have hseqNo : get16 b 2 = seqNo :=
    (hwritten.get16 (j := 0) (Nat.le_refl 2)).trans (of16_be16 seqNo)
  have hafter (i : Nat) (hi : 4 ≤ i) : b.byte i = p.buffer.byte i := hwritten.outside i (.inr hi)
  have htimestamp : get32 b 4 = p.timestamp := by
    rw [h.timestamp, get32_congr fun i hi _ => hafter i hi]
  have hssrc : get32 b 8 = p.ssrc := by
    rw [h.ssrc, get32_congr fun i hi _ => hafter i (by omega)]
  have hfield := h.setField hwrite (Nat.le_refl 2) (Nat.le_add_right 4 8)
  rwa [hseqNo, htimestamp, hssrc] at hfield

theorem setTimestamp_does (h : Wire p) {timestamp : UInt32}
    (hset : setTimestamp p timestamp = some p') : Does p p' true (.setTimestamp timestamp) := by
  obtain ⟨b, hwrite, hp⟩ := Option.bind_eq_some_iff.mp hset
  obtain rfl := (Option.some.inj hp).symm
  obtain ⟨hwritten, -⟩ := written_of_write hwrite
  have hseqNo : get16 b 2 = p.sequenceNumber := by
    rw [h.sequenceNumber, get16_congr fun i _ hi => hwritten.outside i (.inl hi)]
  have htimestamp : get32 b 4 = timestamp :=
    (hwritten.get32 (j := 0) (Nat.le_refl 4)).trans (of32_be32 timestamp)
  have hafter (i : Nat) (hi : 8 ≤ i) : b.byte i = p.buffer.byte i := hwritten.outside i (.inr hi)
  have hssrc : get32 b 8 = p.ssrc := by
    rw [h.ssrc, get32_congr fun i hi _ => hafter i hi]
  have hfield := h.setField hwrite (by decide) (Nat.le_add_right 8 4)
  rwa [hseqNo, htimestamp, hssrc] at hfield

theorem setSsrc_does (h : Wire p) {ssrc : UInt32} (hset : setSsrc p ssrc = some p') :
    Does p p' true (.setSsrc ssrc) := by
  obtain ⟨b, hwrite, hp⟩ := Option.bind_eq_some_iff.mp hset
  obtain rfl := (Option.some.inj hp).symm
  obtain ⟨hwritten, -⟩ := written_of_write hwrite
  have hseqNo : get16 b 2 = p.sequenceNumber := by
    rw [h.sequenceNumber,
      get16_congr fun i _ hi => hwritten.outside i (.inl (Nat.lt_of_lt_of_le hi (by decide)))]
  have htimestamp : get32 b 4 = p.timestamp := by
    rw [h.timestamp, get32_congr fun i _ hi => hwritten.outside i (.inl hi)]
  have hssrc : get32 b 8 = ssrc := (hwritten.get32 (j := 0) (Nat.le_refl 4)).trans (of32_be32 ssrc)
  have hfield := h.setField hwrite (by decide) (Nat.le_refl 12)
  rwa [hseqNo, htimestamp, hssrc] at hfield

/-! ### The list of sources -/

theorem or_and (x y z : UInt8) : (x ||| y) &&& z = x &&& z ||| y &&& z := by
  rw [← UInt8.toBitVec_inj]
  ext i
  simp [Bool.and_or_distrib_right]

theorem nibble_parts : ∀ n ∈ List.range 16, UInt8.ofNat n >>> 6 = 0 ∧ UInt8.ofNat n &&& 0x20 = 0 ∧
    UInt8.ofNat n &&& 0x10 = 0 ∧ (UInt8.ofNat n &&& 0x0f).toNat = n := by
  decide

/-- The count goes into the low half of the first byte; the other half stays. -/
theorem csrcs_trip {n : Nat} (hn : n ∈ List.range 16) (x : UInt8) :
    (x &&& 0xf0 ||| UInt8.ofNat n) >>> 6 = x >>> 6 ∧
      (x &&& 0xf0 ||| UInt8.ofNat n) &&& 0x20 = x &&& 0x20 ∧
      (x &&& 0xf0 ||| UInt8.ofNat n) &&& 0x10 = x &&& 0x10 ∧
      ((x &&& 0xf0 ||| UInt8.ofNat n) &&& 0x0f).toNat = n := by
  obtain ⟨hshift, h20, h10, hlow⟩ := nibble_parts n hn
  have hhigh : ∀ x : UInt8, x >>> 6 &&& (0xf0 : UInt8) >>> 6 = x >>> 6 := by decide +kernel
  refine ⟨?_, ?_, ?_, ?_⟩
  · rw [UInt8.shiftRight_or, UInt8.shiftRight_and, hshift, UInt8.or_zero]
    exact hhigh x
  · rw [or_and, UInt8.and_assoc, h20, UInt8.or_zero]
    rfl
  · rw [or_and, UInt8.and_assoc, h10, UInt8.or_zero]
    rfl
  · rw [or_and, UInt8.and_assoc]
    simpa using hlow

theorem writeCsrcs_written {b b' : Buffer capacity} {offset : Nat} {list : List UInt32}
    (h : writeCsrcs b offset list = some b') :
    b'.length = b.length ∧ (∀ i < offset, b'.byte i = b.byte i) ∧
      (list ≠ [] → offset + 4 * list.length ≤ capacity) ∧
      (List.range list.length).map (fun i => get32 b' (offset + i * 4)) = list := by
  induction list generalizing b offset with
  | nil =>
    obtain rfl := Option.some.inj h
    exact ⟨rfl, fun _ _ => rfl, fun hne => absurd rfl hne, rfl⟩
  | cons csrc rest ih =>
    obtain ⟨b₁, hwrite, hrest⟩ := Option.bind_eq_some_iff.mp h
    obtain ⟨hwritten, hfits⟩ := written_of_write hwrite
    obtain ⟨hlength, hsame, hroom, hlist⟩ := ih hrest
    refine ⟨hlength.trans hwritten.length, fun i hi => ?_, fun _ => ?_, ?_⟩
    · rw [hsame i (by omega), hwritten.outside i (.inl hi)]
    · rw [List.length_cons]
      cases rest with
      | nil => exact hfits
      | cons next rest =>
        have hroom := hroom (List.cons_ne_nil _ _)
        rw [List.length_cons] at hroom ⊢
        omega
    · rw [List.length_cons, List.range_succ_eq_map, List.map_cons, List.map_map]
      refine congrArg₂ List.cons ?_ ((List.map_congr_left fun i _ => ?_).trans hlist)
      · rw [Nat.zero_mul, get32_congr fun i _ hi => hsame i (by omega)]
        exact (hwritten.get32 (j := 0) (Nat.le_refl 4)).trans (of32_be32 csrc)
      · rw [Function.comp_apply]
        congr 1
        omega

theorem setCsrcs_does (h : Wire p) {list : List UInt32} (hset : setCsrcs p list = some p') :
    Does p p' true (.setCsrcs list) := by
  rw [setCsrcs, Option.ite_none_left_eq_some] at hset
  obtain ⟨hallowed, hset⟩ := hset
  obtain ⟨b, hwrite, hset⟩ := Option.bind_eq_some_iff.mp hset
  obtain ⟨b', hlist, hp⟩ := Option.bind_eq_some_iff.mp hset
  obtain rfl := (Option.some.inj hp).symm
  obtain ⟨hextensions, hpayload, hpadding, hcount⟩ :
      p.extensionsSize = 0 ∧ p.payloadSize = 0 ∧ p.paddingSize = 0 ∧ list.length ≤ 0x0f := by
    simpa only [not_or, not_not, Nat.not_lt] using hallowed
  obtain ⟨hwritten, -⟩ := written_of_write hwrite
  obtain ⟨hlength, hsame, hroom, hvalues⟩ := writeCsrcs_written hlist
  obtain ⟨hversion, hpaddingBit, hextensionBit, hnum⟩ :=
    csrcs_trip (List.mem_range.mpr (by omega : list.length < 16)) (p.buffer.byte 0)
  have hfirst : b'.byte 0 = p.buffer.byte 0 &&& 0xf0 ||| UInt8.ofNat list.length := by
    rw [hsame 0 (by decide)]
    exact hwritten.inside 0 Nat.zero_lt_one
  have hout (i : Nat) (hi : 1 ≤ i) (hi' : i < 12) : b'.byte i = p.buffer.byte i := by
    rw [hsame i hi', hwritten.outside i (.inr hi)]
  have hnumCsrc : numCsrc (setSize b' (kFixedHeaderSize + 4 * list.length)) = list.length := by
    rw [numCsrc, setSize, hfirst, hnum]
  have hfits := h.fits
  have hheader := h.header_le
  have hsize : kFixedHeaderSize + 4 * list.length ≤ capacity := by
    cases list with
    | nil => exact (hheader.trans (Nat.le_add_right _ _)).trans ((Nat.le_add_right _ _).trans hfits)
    | cons csrc rest => exact hroom (List.cons_ne_nil _ _)
  refine ⟨⟨?_, ?_, ?_, ?_, ?_, ?_, ?_, ?_, ?_, ?_, fun _ => ?_, fun hsome => absurd hextensions hsome,
    fun hsome => absurd hpadding hsome⟩, ?_⟩
  · rw [Packet.size, hpayload, hpadding]
    rfl
  · rw [Packet.size, hpayload, hpadding]
    exact hsize
  · exact hfirst ▸ hversion.trans h.version
  · exact hfirst ▸ hpaddingBit ▸ h.padding
  · exact hfirst ▸ hextensionBit ▸ h.extension
  · exact hout 1 (by decide) (by decide) ▸ h.marker
  · exact hout 1 (by decide) (by decide) ▸ h.payloadType
  · exact h.sequenceNumber.trans (get16_congr fun i hi hi' => hout i (by omega) (by omega)).symm
  · exact h.timestamp.trans (get32_congr fun i hi hi' => hout i (by omega) (by omega)).symm
  · exact h.ssrc.trans (get32_congr fun i hi hi' => hout i (by omega) (by omega)).symm
  · refine ⟨(h.none hextensions).1, ?_⟩
    rw [csrcEnd, hnumCsrc, Nat.mul_comm]
  · have hcsrcs : csrcs (setSize b' (kFixedHeaderSize + 4 * list.length)) = list := by
      rw [csrcs, hnumCsrc]
      exact hvalues
    simp only [Packet.content, contentOf, Packet.parsed, Content.update, hcsrcs, hpayload,
      (h.none hextensions).1]
    rfl

end Header

end RtpPacket
