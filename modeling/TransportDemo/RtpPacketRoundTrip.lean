import TransportDemo.RtpPacketExtend

/-!
# From the packet built to the packet parsed

Every operation on a packet keeps its buffer in step with its fields, so that
after any run of operations on a cleared packet the parser reads from it what
the run left there.
-/

namespace RtpPacket

open ByteBuffer
open FlexfecReceiver (ExtensionInfo)

section RoundTrip

variable {capacity : Nat} {p p' : Packet capacity}

theorem setExtension_does (h : Wire p) (hcap : capacity ≤ 0xffff) {id : UInt8}
    {content : List UInt8} {done : Bool}
    (happly : apply p (.setExtension id content) = some (done, p')) :
    Does p p' done (.setExtension id content) := by
  rw [apply, Option.ite_none_left_eq_some] at happly
  obtain ⟨hsize, happly⟩ := happly
  obtain ⟨⟨room, p₁⟩, hallocate, hcopy⟩ := Option.bind_eq_some_iff.mp happly
  rcases allocateRawExtension_allocates h hcap hallocate with
    ⟨rfl, hwire, hcontent⟩ | ⟨off, rfl, hwire, ⟨e, he, rfl, hlength, rfl⟩, hcontent⟩
  · obtain ⟨rfl, rfl⟩ := Prod.mk.inj (Option.some.inj hcopy)
    exact ⟨hwire, hcontent⟩
  · obtain ⟨b, hwrite, hp⟩ := Option.map_eq_some_iff.mp hcopy
    obtain ⟨rfl, rfl⟩ := Prod.mk.inj hp
    have hcount : content.length = e.length.toNat := by
      rw [kMaxValueSize, Nat.not_lt] at hsize
      rw [hlength]
      exact (UInt8.toNat_ofNat_of_lt' (Nat.lt_succ_of_le hsize)).symm
    obtain ⟨hwire', hfill⟩ := hwire.fill he hcount hwrite
    exact ⟨hwire', hfill.trans (hcontent content)⟩

/-! ### Payload and padding -/

/-- The bit for padding, and the other bits of the first byte. -/
theorem padding_trip : ∀ x : UInt8,
    ((x ||| 0x20) >>> 6 = x >>> 6 ∧ (x ||| 0x20) &&& 0x10 = x &&& 0x10 ∧
      (x ||| 0x20) &&& 0x0f = x &&& 0x0f) ∧
    (x ||| 0x20) &&& 0x20 ≠ 0 ∧ (x &&& ~~~0x20) &&& 0x20 = 0 ∧
      (x ||| 0x20) ||| 0x20 = x ||| 0x20 ∧ (x &&& ~~~0x20) ||| 0x20 = x ||| 0x20 := by
  decide +kernel

/-- Only what stands behind the extensions changes. -/
theorem Wire.setTail (h : Wire p) {b : Buffer capacity} {payloadSize : Nat} {paddingSize : UInt8}
    (hlength : b.length = p.payloadOffset + payloadSize + paddingSize.toNat)
    (hfits : p.payloadOffset + payloadSize + paddingSize.toNat ≤ capacity)
    (hfirst : b.byte 0 ||| 0x20 = p.buffer.byte 0 ||| 0x20)
    (hsame : ∀ i, 1 ≤ i → i < p.payloadOffset → b.byte i = p.buffer.byte i)
    (hbit : b.byte 0 &&& 0x20 ≠ 0 ↔ paddingSize ≠ 0)
    (hlast : paddingSize ≠ 0 →
      b.byte (p.payloadOffset + payloadSize + paddingSize.toNat - 1) = paddingSize) :
    Wire { p with payloadSize, paddingSize, buffer := b } ∧
      Packet.content { p with payloadSize, paddingSize, buffer := b } =
        { p.content with payload := bytesAt b.byte p.payloadOffset payloadSize, paddingSize } := by
  obtain ⟨⟨hversion, hextension, hnum⟩, -⟩ := padding_trip (b.byte 0)
  obtain ⟨⟨hversion', hextension', hnum'⟩, -⟩ := padding_trip (p.buffer.byte 0)
  rw [hfirst, hversion'] at hversion
  rw [hfirst, hextension'] at hextension
  rw [hfirst, hnum'] at hnum
  have hheader := h.header_le
  have hle := h.csrcEnd_le
  have hstart : 12 ≤ csrcEnd p.buffer := Nat.le_add_right 12 _
  have hnumCsrc : numCsrc b = numCsrc p.buffer := by rw [numCsrc, numCsrc, hnum]
  have hend : csrcEnd b = csrcEnd p.buffer := by rw [csrcEnd, csrcEnd, hnumCsrc]
  have hget32 (off : Nat) (hoff : 1 ≤ off) (hoff' : off + 4 ≤ csrcEnd p.buffer) :
      get32 b off = get32 p.buffer off := get32_congr fun i hi hi' => hsame i (by omega) (by omega)
  refine ⟨⟨hlength, hfits, hversion ▸ h.version, hbit, hextension ▸ h.extension, ?_, ?_, ?_, ?_, ?_,
    hend ▸ h.none, fun hsome => ?_, hlast⟩, ?_⟩
  · exact hsame 1 (Nat.le_refl _) (by omega) ▸ h.marker
  · exact hsame 1 (Nat.le_refl _) (by omega) ▸ h.payloadType
  · exact h.sequenceNumber.trans (get16_congr fun i hi hi' => hsame i (by omega) (by omega)).symm
  · exact h.timestamp.trans (hget32 4 (by omega) (by omega)).symm
  · exact h.ssrc.trans (hget32 8 (by omega) (by omega)).symm
  · obtain ⟨oneByte, hblock⟩ := h.block hsome
    exact ⟨oneByte, hend ▸ hblock.congr fun i hi hi' => hsame i (by omega) hi'⟩
  · have hcsrcs : csrcs b = csrcs p.buffer := by
      rw [csrcs, csrcs, hnumCsrc]
      refine List.map_congr_left fun i hi => hget32 _ (by rw [kFixedHeaderSize]; omega) ?_
      have hi := List.mem_range.mp hi
      rw [csrcEnd]
      omega
    have hvalues : values b.byte p.extensionEntries =
        values p.buffer.byte p.extensionEntries := by
      by_cases hnone : p.extensionsSize = 0
      · rw [(h.none hnone).1]
        rfl
      · obtain ⟨oneByte, hblock⟩ := h.block hnone
        have hsize := hblock.size_le
        exact values_congr hblock.layout fun i hi hi' => hsame i (by omega) (by omega)
    simp only [Packet.content, contentOf, Packet.parsed, hcsrcs, hvalues]

theorem bytesAt_written {b b' : Buffer capacity} {off : Nat} {bytes : List UInt8}
    (h : Written b b' off bytes) : bytesAt b'.byte off bytes.length = bytes := by
  refine List.ext_getElem (by simp [bytesAt]) fun i hi hi' => ?_
  rw [← List.getD_eq_getElem _ 0 hi', ← h.inside i hi']
  simp [bytesAt]

theorem setPayloadSize_cases {sizeBytes : Nat} {room : Option Nat}
    (hset : setPayloadSize p sizeBytes = some (room, p')) :
    p.paddingSize = 0 ∧ (capacity < p.payloadOffset + sizeBytes ∧ room = none ∧ p' = p ∨
      p.payloadOffset + sizeBytes ≤ capacity ∧ room = some p.payloadOffset ∧
        p' = { p with
          payloadSize := sizeBytes, buffer := setSize p.buffer (p.payloadOffset + sizeBytes) }) := by
  rw [setPayloadSize, Option.ite_none_left_eq_some, not_not] at hset
  obtain ⟨hpadding, hset⟩ := hset
  refine ⟨hpadding, ?_⟩
  rcases ite_eq_iff.mp hset with ⟨hroom, hset⟩ | ⟨hroom, hset⟩
  · obtain ⟨rfl, rfl⟩ := Prod.mk.inj (Option.some.inj hset)
    exact .inl ⟨hroom, rfl, rfl⟩
  · obtain ⟨rfl, rfl⟩ := Prod.mk.inj (Option.some.inj hset)
    exact .inr ⟨Nat.not_lt.mp hroom, rfl, rfl⟩

theorem setPayload_does (h : Wire p) {content : List UInt8} {done : Bool}
    (happly : apply p (.setPayload content) = some (done, p')) :
    Does p p' done (.setPayload content) := by
  obtain ⟨⟨room, p₁⟩, hallocate, hcopy⟩ := Option.bind_eq_some_iff.mp happly
  obtain ⟨⟨room₀, p₀⟩, hempty, hallocate⟩ := Option.bind_eq_some_iff.mp hallocate
  have hheader := h.header_le
  have hfits := h.fits
  rw [Packet.size] at hfits
  obtain ⟨hpadding, hnone | ⟨-, -, rfl⟩⟩ := setPayloadSize_cases hempty
  · omega
  have hzero : p.paddingSize.toNat = 0 := congrArg UInt8.toNat hpadding
  obtain ⟨-, ⟨-, rfl, rfl⟩ | ⟨hroom, rfl, rfl⟩⟩ := setPayloadSize_cases hallocate
  · obtain ⟨rfl, rfl⟩ := Prod.mk.inj (Option.some.inj hcopy)
    exact h.setTail (b := setSize p.buffer (p.payloadOffset + 0)) (by rw [hzero]; rfl) (by omega)
      rfl (fun _ _ _ => rfl) h.padding (fun hsome => absurd hpadding hsome)
  · obtain ⟨b, hwrite, hp⟩ := Option.map_eq_some_iff.mp hcopy
    obtain ⟨rfl, rfl⟩ := Prod.mk.inj hp
    obtain ⟨hwritten, -⟩ := written_of_write hwrite
    have hout (i : Nat) (hi : i < p.payloadOffset) : b.byte i = p.buffer.byte i :=
      hwritten.outside i (.inl hi)
    have hlength : b.length = p.payloadOffset + content.length + p.paddingSize.toNat := by
      rw [hzero]
      exact hwritten.length
    have htail := h.setTail hlength (by rw [hzero]; exact hroom) (by rw [hout 0 (by omega)])
      (fun i _ => hout i) (by rw [hout 0 (by omega)]; exact h.padding)
      (fun hsome => absurd hpadding hsome)
    rwa [bytesAt_written hwritten] at htail

theorem setPadding_does (h : Wire p) {paddingBytes : Nat} {done : Bool}
    (happly : setPadding p paddingBytes = some (done, p')) :
    Does p p' done (.setPadding paddingBytes) := by
  obtain ⟨-, hon, hoff, hsetBit, hclearBit⟩ := padding_trip (p.buffer.byte 0)
  have hheader := h.header_le
  simp only [setPadding] at happly
  rcases ite_eq_iff.mp happly with ⟨hroom, happly⟩ | ⟨hroom, happly⟩
  · obtain ⟨rfl, rfl⟩ := Prod.mk.inj (Option.some.inj happly)
    exact ⟨h, rfl⟩
  rw [Option.ite_none_left_eq_some] at happly
  obtain ⟨hrange, happly⟩ := happly
  have hsize : (UInt8.ofNat paddingBytes).toNat = paddingBytes :=
    UInt8.toNat_ofNat_of_lt' (by show paddingBytes < 256; omega)
  split at happly
  · next hpos =>
    obtain ⟨b, hzeros, happly⟩ := Option.bind_eq_some_iff.mp happly
    obtain ⟨b₁, hlast, happly⟩ := Option.bind_eq_some_iff.mp happly
    obtain ⟨b₂, hbit, happly⟩ := Option.bind_eq_some_iff.mp happly
    obtain ⟨rfl, rfl⟩ := Prod.mk.inj (Option.some.inj happly)
    obtain ⟨hzeros, -⟩ := written_of_write hzeros
    obtain ⟨hlast, -⟩ := written_of_write hlast
    obtain ⟨hbit, -⟩ := written_of_write hbit
    have hbefore (i : Nat) (hi : i < p.payloadOffset + p.payloadSize) :
        b₁.byte i = p.buffer.byte i := by
      rw [hlast.outside i (.inl (by omega)), hzeros.outside i (.inl hi)]
      rfl
    have hfirst : b₂.byte 0 = p.buffer.byte 0 ||| 0x20 := by
      rw [← hbefore 0 (by omega)]
      exact hbit.inside 0 Nat.zero_lt_one
    have hout (i : Nat) (hi : 1 ≤ i) : b₂.byte i = b₁.byte i := hbit.outside i (.inr hi)
    have hlength : b₂.length =
        p.payloadOffset + p.payloadSize + (UInt8.ofNat paddingBytes).toNat := by
      rw [hbit.length, hlast.length, hzeros.length, hsize]
      rfl
    have hsame : ∀ i, 1 ≤ i → i < p.payloadOffset → b₂.byte i = p.buffer.byte i :=
      fun i hi hi' => by rw [hout i hi, hbefore i (by omega)]
    obtain ⟨hwire, hcontent⟩ := h.setTail hlength (by omega) (by rw [hfirst, hsetBit]) hsame
      (iff_of_true (hfirst ▸ hon) fun hzero => by
        rw [hzero] at hsize
        exact absurd hsize.symm hpos.ne')
      (fun _ => by
        rw [hsize, hout _ (by omega)]
        exact hlast.inside 0 Nat.zero_lt_one)
    rw [bytesAt_congr fun i hi hi' => (hout i (by omega)).trans (hbefore i hi')] at hcontent
    exact ⟨hwire, hcontent⟩
  · next hpos =>
    obtain rfl : paddingBytes = 0 := by omega
    obtain ⟨b, hbit, happly⟩ := Option.bind_eq_some_iff.mp happly
    obtain ⟨rfl, rfl⟩ := Prod.mk.inj (Option.some.inj happly)
    obtain ⟨hbit, -⟩ := written_of_write hbit
    have hfirst : b.byte 0 = p.buffer.byte 0 &&& ~~~0x20 := hbit.inside 0 Nat.zero_lt_one
    have hout (i : Nat) (hi : 1 ≤ i) : b.byte i = p.buffer.byte i := hbit.outside i (.inr hi)
    have hlength : b.length = p.payloadOffset + p.payloadSize + (0 : UInt8).toNat := hbit.length
    obtain ⟨hwire, hcontent⟩ := h.setTail hlength (Nat.not_lt.mp hroom)
      (by rw [hfirst, hclearBit]) (fun i hi _ => hout i hi)
      (iff_of_false (hfirst ▸ not_not.mpr hoff) (not_not.mpr rfl)) (fun hsome => absurd rfl hsome)
    rw [bytesAt_congr fun i hi _ => hout i (by omega)] at hcontent
    exact ⟨hwire, hcontent⟩

/-! ### Runs -/

/-- The packet, and what it should say. -/
def build (state : Packet capacity × Content) (op : Op) : Option (Packet capacity × Content) :=
  (apply state.1 op).map fun result => (result.2, state.2.update result.1 op)

def Content.empty : Content := ⟨false, 0, 0, 0, 0, [], [], [], 0⟩

/-- Every operation is done as it says, with the packet kept in step with its buffer. -/
theorem apply_does (h : Wire p) (hcap : capacity ≤ 0xffff) {op : Op} {done : Bool}
    (happly : apply p op = some (done, p')) : Does p p' done op := by
  cases op with
  | setMarker markerBit =>
    obtain ⟨q, hset, hq⟩ := Option.map_eq_some_iff.mp happly
    obtain ⟨rfl, rfl⟩ := Prod.mk.inj hq
    exact setMarker_does h hset
  | setPayloadType payloadType =>
    obtain ⟨q, hset, hq⟩ := Option.map_eq_some_iff.mp happly
    obtain ⟨rfl, rfl⟩ := Prod.mk.inj hq
    exact setPayloadType_does h hset
  | setSequenceNumber seqNo =>
    obtain ⟨q, hset, hq⟩ := Option.map_eq_some_iff.mp happly
    obtain ⟨rfl, rfl⟩ := Prod.mk.inj hq
    exact setSequenceNumber_does h hset
  | setTimestamp timestamp =>
    obtain ⟨q, hset, hq⟩ := Option.map_eq_some_iff.mp happly
    obtain ⟨rfl, rfl⟩ := Prod.mk.inj hq
    exact setTimestamp_does h hset
  | setSsrc ssrc =>
    obtain ⟨q, hset, hq⟩ := Option.map_eq_some_iff.mp happly
    obtain ⟨rfl, rfl⟩ := Prod.mk.inj hq
    exact setSsrc_does h hset
  | setCsrcs list =>
    obtain ⟨q, hset, hq⟩ := Option.map_eq_some_iff.mp happly
    obtain ⟨rfl, rfl⟩ := Prod.mk.inj hq
    exact setCsrcs_does h hset
  | setExtension id content => exact setExtension_does h hcap happly
  | setPayload content => exact setPayload_does h happly
  | setPadding paddingBytes => exact setPadding_does h happly

theorem clear_wire (hclear : clear p = some p') : Wire p' ∧ p'.content = Content.empty := by
  obtain ⟨b, hzeros, hclear⟩ := Option.bind_eq_some_iff.mp hclear
  obtain ⟨b₁, hversion, hclear⟩ := Option.bind_eq_some_iff.mp hclear
  obtain rfl := (Option.some.inj hclear).symm
  obtain ⟨hzeros, hroom⟩ := written_of_write hzeros
  obtain ⟨hversion, -⟩ := written_of_write hversion
  have hfirst : b₁.byte 0 = kRtpVersion <<< 6 := hversion.inside 0 Nat.zero_lt_one
  have hrest (i : Nat) (hi : 1 ≤ i) (hi' : i < 12) : b₁.byte i = 0 := by
    rw [hversion.outside i (.inr hi)]
    have hinside := hzeros.inside i (by rwa [List.length_replicate])
    rw [Nat.zero_add] at hinside
    rw [setSize, hinside, List.getD_replicate]
    exact hi'
  have hget32 (off : Nat) (hoff : 1 ≤ off) (hoff' : off + 4 ≤ 12) : get32 b₁ off = 0 := by
    rw [get32, hrest off hoff (by omega), hrest _ (by omega) (by omega),
      hrest _ (by omega) (by omega), hrest _ (by omega) (by omega)]
    rfl
  have hget16 : get16 b₁ 2 = 0 := by
    rw [get16, hrest 2 (by decide) (by decide), hrest 3 (by decide) (by decide)]
    rfl
  have hnum : numCsrc b₁ = 0 := by
    rw [numCsrc, hfirst]
    rfl
  have hbits : (kRtpVersion <<< 6) >>> 6 = kRtpVersion ∧ (kRtpVersion <<< 6) &&& 0x20 = 0 ∧
      (kRtpVersion <<< 6) &&& 0x10 = 0 := by decide
  have hsecond : b₁.byte 1 = 0 := hrest 1 (by decide) (by decide)
  refine ⟨⟨hversion.length, hroom, hfirst ▸ hbits.1, ?_, ?_, ?_, ?_, hget16.symm,
    (hget32 4 (by decide) (by decide)).symm, (hget32 8 (by decide) (by decide)).symm,
    fun _ => ⟨rfl, ?_⟩, fun hsome => absurd rfl hsome, fun hsome => absurd rfl hsome⟩, ?_⟩
  · exact iff_of_false (hfirst ▸ not_not.mpr hbits.2.1) (not_not.mpr rfl)
  · exact iff_of_true (hfirst ▸ hbits.2.2) rfl
  · rw [hsecond]
    rfl
  · rw [hsecond]
    rfl
  · rw [csrcEnd, hnum]
    rfl
  · rw [Packet.content, contentOf, csrcs, hnum]
    rfl

/-- Whatever is built is what the parser reads. -/
theorem parse_built (hcap : capacity ≤ 0xffff) (hclear : clear p = some p') {ops : List Op}
    {q : Packet capacity} {c : Content}
    (hbuild : StepTrace.runOption build (p', Content.empty) ops = some (q, c)) :
    ∃ h, (parseBuffer (ofBytes q.data)).value = some h ∧ contentOf (ofBytes q.data) h = c := by
  obtain ⟨hwire, hempty⟩ := clear_wire hclear
  have hbuilt := StepTrace.runOption_inv
    (I := fun state : Packet capacity × Content => Wire state.1 ∧ state.1.content = state.2)
    ⟨hwire, hempty⟩ (fun state op state' hstate hstep => by
      obtain ⟨result, happly, rfl⟩ := Option.map_eq_some_iff.mp hstep
      obtain ⟨hwire', hcontent⟩ := apply_does hstate.1 hcap happly
      exact ⟨hwire', hcontent.trans (congrArg (·.update result.1 op) hstate.2)⟩) ops _ hbuild
  obtain ⟨extensionsSize, hparse, hcontent⟩ := parse_data hbuilt.1 hcap
  exact ⟨_, hparse, hcontent.trans hbuilt.2⟩

/-- Two short extensions, then a long one, for which they are rewritten, and one of them once
more. -/
def mixedOps : List Op :=
  [.setPayloadType 96, .setCsrcs [7, 8], .setExtension 1 [10, 11], .setExtension 3 [30],
    .setSsrc 5, .setExtension 20 [200, 201, 202], .setExtension 1 [12, 13], .setMarker true,
    .setPayload [1, 2, 3], .setPadding 2]

/-- Memory that was used before. -/
def usedPacket : Packet 64 :=
  ⟨false, 0, 0, 0, 0, 0, 0, 0, ⟨fun _ => 0, true⟩, [], 0, ⟨fun _ => 0xff, 0⟩⟩

def mixedContent : Content :=
  ⟨true, 96, 0, 0, 5, [7, 8], [(1, [12, 13]), (3, [30]), (20, [200, 201, 202])], [1, 2, 3], 2⟩

def clearedPacket : Packet 64 := (clear usedPacket).getD usedPacket

theorem parse_built_mixed : ∃ (q : Packet 64) (h : Parsed),
    (parseBuffer (ofBytes q.data)).value = some h ∧ contentOf (ofBytes q.data) h = mixedContent := by
  have hbuild : ((StepTrace.runOption build (clearedPacket, Content.empty) mixedOps).map
      Prod.snd) = some mixedContent := by decide +kernel
  obtain ⟨⟨q, c⟩, hbuilt, rfl⟩ := Option.map_eq_some_iff.mp hbuild
  exact ⟨q, parse_built (by decide) rfl hbuilt⟩

end RoundTrip

end RtpPacket
