import TransportDemo.RtpPacketBuild

/-!
# Adding header extensions

An extension is appended to those that are there. Where it does not fit the
one-byte format, they are moved apart from the last to the first, each by one
byte more than the one before it, to make room for the longer headers.
-/

namespace RtpPacket

open ByteBuffer
open FlexfecReceiver (ExtensionInfo)

section Extend

variable {capacity : Nat} {p p' : Packet capacity}

/-! ### The end of the block -/

theorem setExtensionLength_spec {b b' : Buffer capacity} {size offset : Nat} {padded : UInt16}
    (hcap : capacity ≤ 0xffff) (hoffset : 4 ≤ offset)
    (hset : setExtensionLengthMaybeAddZeroPadding b size offset = some (b', padded)) :
    padded.toNat = (get16 b' (offset - 2)).toNat * 4 ∧ size ≤ padded.toNat ∧
      offset + padded.toNat ≤ capacity ∧
      (∀ i, offset + size ≤ i → i < offset + padded.toNat → b'.byte i = 0) ∧
      ∀ i, i < offset - 2 ∨ offset ≤ i ∧ i < offset + size → b'.byte i = b.byte i := by
  obtain ⟨b₁, hwords, hset⟩ := Option.bind_eq_some_iff.mp hset
  obtain ⟨b₂, hzeros, hset⟩ := Option.bind_eq_some_iff.mp hset
  obtain ⟨rfl, rfl⟩ := Prod.mk.inj (Option.some.inj hset)
  obtain ⟨hwords, -⟩ := written_of_write hwords
  obtain ⟨hzeros, hroom⟩ := written_of_write hzeros
  have hend : offset + size ≤ capacity := (Nat.le_add_right _ _).trans hroom
  have hcount : (UInt16.ofNat ((size + 3) / 4)).toNat = (size + 3) / 4 :=
    UInt16.toNat_ofNat_of_lt' (by simp only [UInt16.size]; omega)
  have hpadded : (4 * UInt16.ofNat ((size + 3) / 4)).toNat = 4 * ((size + 3) / 4) := by
    rw [UInt16.toNat_mul, hcount]
    exact Nat.mod_eq_of_lt (by show 4 * ((size + 3) / 4) < 65536; omega)
  rw [hcount] at hzeros hroom
  rw [List.length_replicate] at hroom
  have hget : get16 b₂ (offset - 2) = UInt16.ofNat ((size + 3) / 4) := by
    rw [get16_congr fun i hi hi' => hzeros.outside i (.inl (by omega))]
    exact (hwords.get16 (j := 0) (Nat.le_refl 2)).trans (of16_be16 _)
  rw [hpadded, hget, hcount]
  refine ⟨Nat.mul_comm _ _, by omega, by omega, fun i hi hi' => ?_, fun i hi => ?_⟩
  · rw [hzeros.byte, if_pos ⟨hi, by rw [List.length_replicate]; omega⟩, List.getD_replicate]
    omega
  · rw [hzeros.outside i (.inl (by omega))]
    refine hwords.outside i ?_
    rw [length_be16]
    omega

/-- The block of what stands from `offset` on, once its length is written. -/
theorem block_of_length {b b' : Buffer capacity} {size start : Nat} {padded : UInt16}
    {entries : List ExtensionInfo} {oneByte : Bool} (hcap : capacity ≤ 0xffff)
    (hset : setExtensionLengthMaybeAddZeroPadding b size (start + 4) = some (b', padded))
    (hprofile : get16 b start = profileOf oneByte) (hsize : 0 < size)
    (hlayout : Layout b.byte oneByte (start + 4) entries (start + 4 + size))
    (hids : (entries.map ExtensionInfo.id).Nodup) :
    Block b' start entries size (start + 4 + padded.toNat) oneByte ∧
      start + 4 + padded.toNat ≤ capacity ∧
      ∀ i, i < start + 2 ∨ start + 4 ≤ i ∧ i < start + 4 + size → b'.byte i = b.byte i := by
  obtain ⟨hwords, hle, hroom, hzeros, hsame⟩ :=
    setExtensionLength_spec hcap (Nat.le_add_left 4 start) hset
  rw [show start + 4 - 2 = start + 2 from rfl] at hwords hsame
  refine ⟨⟨?_, by rw [hwords], hsize, by omega, ?_, hzeros, hids⟩, hroom, hsame⟩
  · rw [get16_congr fun i _ hi => hsame i (.inl hi), hprofile]
  · exact hlayout.congr fun i hi hi' => hsame i (.inr ⟨hi, hi'⟩)

theorem or_10_trip : ∀ x : UInt8, (x ||| 0x10) >>> 6 = x >>> 6 ∧
    (x ||| 0x10) &&& 0x20 = x &&& 0x20 ∧ (x ||| 0x10) &&& 0x10 ≠ 0 ∧
    (x ||| 0x10) &&& 0x0f = x &&& 0x0f ∧ (x &&& 0x10 ≠ 0 → x ||| 0x10 = x) := by
  decide +kernel

/-- Another block behind the header, before there is a payload. -/
theorem Wire.setBlock (h : Wire p) (hpayload : p.payloadSize = 0) (hpadding : p.paddingSize = 0)
    {b : Buffer capacity} {entries : List ExtensionInfo} {extensionsSize payloadOffset : Nat}
    {oneByte : Bool} (hblock : Block b (csrcEnd p.buffer) entries extensionsSize payloadOffset oneByte)
    (hfits : payloadOffset ≤ capacity) (hfirst : b.byte 0 = p.buffer.byte 0 ||| 0x10)
    (hsame : ∀ i, 1 ≤ i → i < csrcEnd p.buffer → b.byte i = p.buffer.byte i) :
    Wire { p with
        extensionEntries := entries, extensionsSize, payloadOffset
        buffer := setSize b payloadOffset } ∧
      Packet.content { p with
          extensionEntries := entries, extensionsSize, payloadOffset
          buffer := setSize b payloadOffset } =
        { p.content with extensions := values b.byte entries } := by
  obtain ⟨hversion, hpaddingBit, hextensionBit, hnum, -⟩ := or_10_trip (p.buffer.byte 0)
  have hstart : 12 ≤ csrcEnd p.buffer := Nat.le_add_right 12 _
  have hend : csrcEnd (setSize b payloadOffset) = csrcEnd p.buffer := by
    rw [csrcEnd, csrcEnd, numCsrc, numCsrc, setSize, hfirst, hnum]
  have hcsrcs : csrcs (setSize b payloadOffset) = csrcs p.buffer := by
    have hnumCsrc : numCsrc (setSize b payloadOffset) = numCsrc p.buffer := by
      rw [numCsrc, numCsrc, setSize, hfirst, hnum]
    rw [csrcs, csrcs, hnumCsrc]
    refine List.map_congr_left fun i hi => get32_congr fun j hj hj' => hsame j ?_ ?_
    · rw [kFixedHeaderSize] at hj
      omega
    · have hi := List.mem_range.mp hi
      rw [csrcEnd]
      omega
  have hne : extensionsSize ≠ 0 := hblock.size_pos.ne'
  refine ⟨⟨?_, ?_, ?_, ?_, ?_, ?_, ?_, ?_, ?_, ?_, fun hnone => absurd hnone hne,
    fun _ => ⟨oneByte, hend ▸ hblock.congr fun _ _ _ => rfl⟩, fun hsome => absurd hpadding hsome⟩, ?_⟩
  · rw [Packet.size, hpayload, hpadding]
    rfl
  · rw [Packet.size, hpayload, hpadding]
    exact hfits
  · exact hfirst ▸ hversion.trans h.version
  · exact hfirst ▸ hpaddingBit ▸ h.padding
  · exact hfirst ▸ iff_of_false hextensionBit hne
  · exact hsame 1 (by omega) (by omega) ▸ h.marker
  · exact hsame 1 (by omega) (by omega) ▸ h.payloadType
  · exact h.sequenceNumber.trans (get16_congr fun i hi hi' => hsame i (by omega) (by omega)).symm
  · exact h.timestamp.trans (get32_congr fun i hi hi' => hsame i (by omega) (by omega)).symm
  · exact h.ssrc.trans (get32_congr fun i hi hi' => hsame i (by omega) (by omega)).symm
  · simp only [Packet.content, contentOf, Packet.parsed, hcsrcs, hpayload, bytesAt, List.range_zero,
      List.map_nil]
    rfl

/-! ### Another format -/

theorem values_append (byte : Nat → UInt8) (entries entries' : List ExtensionInfo) :
    values byte (entries ++ entries') = values byte entries ++ values byte entries' :=
  List.map_append

/-- What moving the entries apart leaves: the longer headers from `pos` on, with the same values. -/
structure Promoted (b b' : Buffer capacity) (pos stop : Nat) (entries entries' : List ExtensionInfo) :
    Prop where
  layout : Layout b'.byte false pos entries' (stop + entries.length)
  ids : entries'.map ExtensionInfo.id = entries.map ExtensionInfo.id
  values : values b'.byte entries' = values b.byte entries
  before : ∀ i < pos, b'.byte i = b.byte i
  after : ∀ i, stop + entries.length ≤ i → b'.byte i = b.byte i

/-- The content is moved to behind a header of two bytes at `pos`. -/
theorem entry_moved {b b₁ b₂ b₃ : Buffer capacity} {e : ExtensionInfo} {pos : Nat}
    (hcap : capacity ≤ 0xffff) (hid : e.id ≠ 0) (hlength : e.length ≠ 0)
    (hcontent : write b (pos + 2)
      ((List.range e.length.toNat).map fun i => b.byte (e.offset.toNat + i)) = some b₁)
    (hlengthByte : write b₁ (pos + 1) [e.length] = some b₂)
    (hidByte : write b₂ pos [e.id] = some b₃) :
    EntryAt b₃.byte false pos { e with offset := UInt16.ofNat (pos + 2) } ∧
      bytesAt b₃.byte (pos + 2) e.length.toNat = bytesAt b.byte e.offset.toNat e.length.toNat ∧
      ∀ i, i < pos ∨ pos + 2 + e.length.toNat ≤ i → b₃.byte i = b.byte i := by
  obtain ⟨hcontent, hroom⟩ := written_of_write hcontent
  obtain ⟨hlengthByte, -⟩ := written_of_write hlengthByte
  obtain ⟨hidByte, -⟩ := written_of_write hidByte
  have hcount : ((List.range e.length.toNat).map fun i => b.byte (e.offset.toNat + i)).length =
      e.length.toNat := by
    rw [List.length_map, List.length_range]
  rw [hcount] at hroom
  have hheader (i : Nat) (hi : i < pos ∨ pos + 2 ≤ i) : b₃.byte i = b₁.byte i := by
    rw [hidByte.outside i (by rw [List.length_singleton]; omega),
      hlengthByte.outside i (by rw [List.length_singleton]; omega)]
  refine ⟨⟨?_, hid, hlength, ?_, ?_⟩, ?_, fun i hi => ?_⟩
  · exact UInt16.toNat_ofNat_of_lt' (by show pos + 2 < 65536; omega)
  · exact hidByte.inside 0 Nat.zero_lt_one
  · rw [hidByte.outside (pos + 1) (.inr (Nat.le_refl _))]
    exact hlengthByte.inside 0 Nat.zero_lt_one
  · refine List.map_congr_left fun i hi => ?_
    have hi := List.mem_range.mp hi
    rw [hheader _ (by omega), hcontent.inside i (by rwa [hcount]),
      List.getD_eq_getElem _ _ (by rwa [hcount]),
      List.getElem_map, List.getElem_range]
  · rw [hheader i (by omega), hcontent.outside i (by rw [hcount]; omega)]

theorem promoteLoop_spec {b b' : Buffer capacity} {pos stop : Nat}
    {entries entries' : List ExtensionInfo} (hcap : capacity ≤ 0xffff)
    (hlayout : Layout b.byte true pos entries stop)
    (hpromote : promoteLoop b entries.reverse = some (b', entries')) :
    Promoted b b' pos stop entries entries' := by
  induction entries using List.reverseRecOn generalizing b b' stop entries' with
  | nil =>
    obtain ⟨rfl, rfl⟩ := Prod.mk.inj (Option.some.inj hpromote)
    exact ⟨hlayout, rfl, rfl, fun _ _ => rfl, fun _ _ => rfl⟩
  | append_singleton init e ih =>
    rw [List.reverse_append, List.reverse_singleton, List.singleton_append] at hpromote
    obtain ⟨mid, hinit, he, hstop⟩ := layout_append.mp hlayout
    replace hstop : mid + headerLength true + e.length.toNat = stop := hstop
    obtain ⟨b₁, hcontent, hpromote⟩ := Option.bind_eq_some_iff.mp hpromote
    obtain ⟨b₂, hlengthByte, hpromote⟩ := Option.bind_eq_some_iff.mp hpromote
    obtain ⟨b₃, hidByte, hpromote⟩ := Option.bind_eq_some_iff.mp hpromote
    obtain ⟨⟨b₄, init'⟩, hloop, hpromote⟩ := Option.bind_eq_some_iff.mp hpromote
    obtain ⟨rfl, rfl⟩ := Prod.mk.inj (Option.some.inj hpromote)
    have hto : e.offset.toNat + (init.reverse.length + 1) = mid + init.length + 2 := by
      rw [he.offset, List.length_reverse, headerLength, kOneByteExtensionHeaderLength]
      simp only [if_true]
      omega
    rw [hto] at hcontent hlengthByte hidByte ⊢
    obtain ⟨hentry, hvalue, hsame⟩ :=
      entry_moved hcap he.id_ne he.length_ne hcontent hlengthByte hidByte
    have hrest := ih (hinit.congr fun i _ hi => hsame i (.inl (by omega))) hloop
    have hkept (i : Nat) (hi : mid + init.length ≤ i) : b₄.byte i = b₃.byte i := hrest.after i hi
    have hle := hinit.le
    have hlength : (init ++ [e]).length = init.length + 1 := by simp
    have hheader : headerLength false = 2 ∧ headerLength true = 1 := ⟨rfl, rfl⟩
    refine ⟨layout_append.mpr ⟨mid + init.length, hrest.layout, ?_, ?_⟩, ?_, ?_, fun i hi => ?_,
      fun i hi => ?_⟩
    · exact ⟨hentry.offset, hentry.id_ne, hentry.length_ne,
        hentry.header.congr fun i hi _ => hkept i hi⟩
    · show mid + init.length + headerLength false + e.length.toNat = _
      omega
    · rw [List.map_append, List.map_append, hrest.ids]
      rfl
    · rw [values_append, values_append, hrest.values,
        values_congr hinit fun i _ hi => hsame i (.inl (by omega))]
      refine congrArg₂ _ rfl (congrArg (fun value => [(e.id, value)]) ?_)
      rw [hentry.offset, hheader.1, bytesAt_congr fun i hi _ => hkept i (by omega), hvalue]
    · rw [hrest.before i hi, hsame i (.inl (by omega))]
    · rw [hkept i (by omega), hsame i (.inr (by omega))]

theorem csrcEnd_def (b : Buffer capacity) : csrcEnd b = kFixedHeaderSize + numCsrc b * 4 := rfl

/-- A change of format changes nothing of what the packet says. -/
theorem promote_spec (h : Wire p) (hcap : capacity ≤ 0xffff) (hpadding : p.paddingSize = 0)
    (hpromote : promoteToTwoByteHeaderExtension p = some p') :
    Wire p' ∧ p'.content = p.content ∧ p'.payloadSize = 0 ∧ p'.paddingSize = 0 ∧
      csrcEnd p'.buffer = csrcEnd p.buffer ∧
      Block p'.buffer (csrcEnd p.buffer) p'.extensionEntries p'.extensionsSize p'.payloadOffset
        false ∧
      p'.extensionEntries.map ExtensionInfo.id = p.extensionEntries.map ExtensionInfo.id := by
  simp only [promoteToTwoByteHeaderExtension, Option.ite_none_left_eq_some] at hpromote
  obtain ⟨hallowed, hpromote⟩ := hpromote
  obtain ⟨⟨b, entries⟩, hloop, hpromote⟩ := Option.bind_eq_some_iff.mp hpromote
  obtain ⟨b₁, hprofile, hpromote⟩ := Option.bind_eq_some_iff.mp hpromote
  obtain ⟨⟨b₂, padded⟩, hlength, hpromote⟩ := Option.bind_eq_some_iff.mp hpromote
  obtain rfl := (Option.some.inj hpromote).symm
  simp only [← csrcEnd_def, Nat.add_sub_cancel] at hallowed hprofile hlength ⊢
  obtain ⟨hentries, hpayload, hone⟩ : p.extensionEntries ≠ [] ∧ p.payloadSize = 0 ∧
      get16 p.buffer (csrcEnd p.buffer) = kOneByteExtensionProfileId := by
    simpa only [not_or, not_not] using hallowed
  have hsome : p.extensionsSize ≠ 0 := fun hnone => hentries (h.none hnone).1
  obtain ⟨oneByte, hblock⟩ := h.block hsome
  obtain rfl := profileOf_eq_iff.mp (hblock.profile.symm.trans hone)
  have hstart : 12 ≤ csrcEnd p.buffer := Nat.le_add_right 12 _
  have hmoved := promoteLoop_spec hcap hblock.layout hloop
  obtain ⟨hwritten, -⟩ := written_of_write hprofile
  have hout (i : Nat) (hi : i < csrcEnd p.buffer ∨ csrcEnd p.buffer + 2 ≤ i) :
      b₁.byte i = b.byte i := hwritten.outside i hi
  have htwo : get16 b₁ (csrcEnd p.buffer) = profileOf false :=
    (hwritten.get16 (j := 0) (Nat.le_refl 2)).trans (of16_be16 _)
  have hids : (entries.map ExtensionInfo.id).Nodup := hmoved.ids ▸ hblock.ids
  have hsize := hblock.size_pos
  have hlayout := hmoved.layout.congr fun i hi _ => hout i (by omega)
  rw [Nat.add_assoc] at hlayout
  obtain ⟨hblock', hroom, hsame⟩ := block_of_length hcap hlength htwo (by omega)
    hlayout hids
  have hbefore (i : Nat) (hi : i < csrcEnd p.buffer) : b₂.byte i = p.buffer.byte i := by
    rw [hsame i (.inl (by omega)), hout i (.inl hi), hmoved.before i (by omega)]
  have hbit : b₂.byte 0 = p.buffer.byte 0 ||| 0x10 := by
    rw [hbefore 0 (by omega)]
    exact ((or_10_trip _).2.2.2.2 (mt h.extension.mp hsome)).symm
  obtain ⟨hwire, hcontent⟩ := h.setBlock hpayload hpadding hblock' hroom hbit fun i _ => hbefore i
  have hvalues : values b₂.byte entries = values p.buffer.byte p.extensionEntries := by
    rw [← hmoved.values]
    refine values_congr hmoved.layout fun i hi hi' => ?_
    rw [hsame i (.inr (by omega)), hout i (.inr (by omega))]
  rw [hvalues] at hcontent
  refine ⟨hwire, hcontent, hpayload, hpadding, ?_, hblock'.congr fun _ _ _ => rfl, hmoved.ids⟩
  rw [csrcEnd, csrcEnd, numCsrc, numCsrc, setSize, hbefore 0 (by omega)]

/-! ### One more extension -/

/-- A block in the format is there. -/
structure Started (p : Packet capacity) (b : Buffer capacity) (oneByte : Bool) : Prop where
  first : b.byte 0 = p.buffer.byte 0 ||| 0x10
  profile : get16 b (csrcEnd p.buffer) = profileOf oneByte
  same : ∀ i, 1 ≤ i → i < csrcEnd p.buffer ∨ csrcEnd p.buffer + 4 ≤ i → b.byte i = p.buffer.byte i
  layout : Layout p.buffer.byte oneByte (csrcEnd p.buffer + 4) p.extensionEntries
    (csrcEnd p.buffer + 4 + p.extensionsSize)
  ids : (p.extensionEntries.map ExtensionInfo.id).Nodup

theorem startExtensions_spec (h : Wire p) {b : Buffer capacity} {oneByte : Bool}
    (hprofile : p.extensionsSize ≠ 0 → get16 p.buffer (csrcEnd p.buffer) = profileOf oneByte)
    (hstart : startExtensions p (profileOf oneByte) (csrcEnd p.buffer + 4) = some b) :
    Started p b oneByte := by
  have hheader : 12 ≤ csrcEnd p.buffer := Nat.le_add_right 12 _
  rw [startExtensions] at hstart
  split at hstart
  · next hnone =>
    obtain ⟨b₁, hbit, hprofile⟩ := Option.bind_eq_some_iff.mp hstart
    obtain ⟨hbit, -⟩ := written_of_write hbit
    obtain ⟨hprofile, -⟩ := written_of_write hprofile
    rw [Nat.add_sub_cancel] at hprofile
    have hout (i : Nat) (hi : i < csrcEnd p.buffer ∨ csrcEnd p.buffer + 2 ≤ i) :
        b.byte i = b₁.byte i := hprofile.outside i hi
    refine ⟨?_, ?_, fun i hi hi' => ?_, ?_, ?_⟩
    · rw [hout 0 (by omega)]
      exact hbit.inside 0 Nat.zero_lt_one
    · exact (hprofile.get16 (j := 0) (Nat.le_refl 2)).trans (of16_be16 _)
    · rw [hout i (by omega), hbit.outside i (.inr hi)]
    · rw [(h.none hnone).1, hnone]
      rfl
    · rw [(h.none hnone).1]
      exact List.nodup_nil
  · next hsome =>
    obtain rfl := Option.some.inj hstart
    obtain ⟨oneByte', hblock⟩ := h.block hsome
    have hsame : oneByte' = oneByte := by
      have heq := hblock.profile.symm.trans (hprofile hsome)
      cases oneByte' <;> cases oneByte <;> first | rfl | exact absurd heq (by decide)
    refine ⟨((or_10_trip _).2.2.2.2 (mt h.extension.mp hsome)).symm, hprofile hsome,
      fun _ _ _ => rfl, hsame ▸ hblock.layout, hblock.ids⟩

/-- The header of an extension, as it is written. -/
def extensionHeader (oneByte : Bool) (id length : UInt8) : List UInt8 :=
  if oneByte then [id <<< 4 ||| (length - 1)] else [id, length]

theorem extensionHeader_facts (oneByte : Bool) (id length : UInt8) :
    (if profileOf oneByte = kOneByteExtensionProfileId then kOneByteExtensionHeaderLength
        else kTwoByteExtensionHeaderLength) = headerLength oneByte ∧
      (if profileOf oneByte = kOneByteExtensionProfileId then [id <<< 4 ||| (length - 1)]
        else [id, length]) = extensionHeader oneByte id length ∧
      (extensionHeader oneByte id length).length = headerLength oneByte := by
  cases oneByte <;> exact ⟨rfl, rfl, rfl⟩

theorem headerAt_written {b b' : Buffer capacity} {pos : Nat} {id length : UInt8} {oneByte : Bool}
    (hone : oneByte = true → id.toNat ≤ kOneByteHeaderExtensionMaxId ∧
      length.toNat ≤ kOneByteHeaderExtensionMaxValueSize)
    (hwritten : Written b b' pos (extensionHeader oneByte id length)) :
    HeaderAt b'.byte pos id length oneByte := by
  cases oneByte with
  | true => exact ⟨(hone rfl).1, (hone rfl).2, hwritten.inside 0 Nat.zero_lt_one⟩
  | false => exact ⟨hwritten.inside 0 Nat.zero_lt_two, hwritten.inside 1 Nat.one_lt_two⟩

/-- Room for one more extension at `off`. -/
structure Appended (p p' : Packet capacity) (id length : UInt8) (off : Nat) : Prop where
  wire : Wire p'
  content : p'.content = { p.content with
    extensions := p.content.extensions ++ [(id, bytesAt p'.buffer.byte off length.toNat)] }
  entry : ⟨id, length, UInt16.ofNat off⟩ ∈ p'.extensionEntries
  offset : (UInt16.ofNat off).toNat = off

theorem appendExtension_spec (h : Wire p) (hcap : capacity ≤ 0xffff) (hpayload : p.payloadSize = 0)
    (hpadding : p.paddingSize = 0) {id length : UInt8} {oneByte : Bool} {room : Option Nat}
    (hid : id ≠ 0) (hlength : length ≠ 0) (hnew : id ∉ p.extensionEntries.map ExtensionInfo.id)
    (hone : oneByte = true → id.toNat ≤ kOneByteHeaderExtensionMaxId ∧
      length.toNat ≤ kOneByteHeaderExtensionMaxValueSize)
    (hprofile : p.extensionsSize ≠ 0 → get16 p.buffer (csrcEnd p.buffer) = profileOf oneByte)
    (happend : appendExtension p id length (profileOf oneByte) (csrcEnd p.buffer + 4) =
      some (room, p')) :
    room = none ∧ p' = p ∨ ∃ off, room = some off ∧ Appended p p' id length off := by
  have hheader := extensionHeader_facts oneByte id length
  have hpos := headerLength_pos oneByte
  simp only [appendExtension, hheader] at happend
  split at happend
  · obtain ⟨rfl, rfl⟩ := Prod.mk.inj (Option.some.inj happend)
    exact .inl ⟨rfl, rfl⟩
  rw [Option.ite_none_left_eq_some] at happend
  obtain ⟨b, hstart, happend⟩ := Option.bind_eq_some_iff.mp happend.2
  obtain ⟨b₁, hwrite, happend⟩ := Option.bind_eq_some_iff.mp happend
  obtain ⟨⟨b₂, padded⟩, hset, happend⟩ := Option.bind_eq_some_iff.mp happend
  obtain ⟨rfl, rfl⟩ := Prod.mk.inj (Option.some.inj happend)
  have hstarted := startExtensions_spec h hprofile hstart
  obtain ⟨hwritten, -⟩ := written_of_write hwrite
  have hout (i : Nat) (hi : i < csrcEnd p.buffer + 4 + p.extensionsSize) : b₁.byte i = b.byte i :=
    hwritten.outside i (.inl hi)
  have hstart12 : 12 ≤ csrcEnd p.buffer := Nat.le_add_right 12 _
  obtain ⟨off, hoff⟩ : ∃ off, off = csrcEnd p.buffer + 4 + p.extensionsSize +
    headerLength oneByte := ⟨_, rfl⟩
  have hoffset : (UInt16.ofNat off).toNat = off :=
    UInt16.toNat_ofNat_of_lt' (by simp only [UInt16.size]; omega)
  have hsame (i : Nat) (hi : csrcEnd p.buffer + 4 ≤ i)
      (hi' : i < csrcEnd p.buffer + 4 + p.extensionsSize) : b₁.byte i = p.buffer.byte i := by
    rw [hout i hi', hstarted.same i (by omega) (.inr hi)]
  have hentry : EntryAt b₁.byte oneByte (csrcEnd p.buffer + 4 + p.extensionsSize)
      ⟨id, length, UInt16.ofNat off⟩ :=
    ⟨hoffset.trans hoff, hid, hlength, headerAt_written hone hwritten⟩
  have hend : csrcEnd p.buffer + 4 + p.extensionsSize + headerLength oneByte + length.toNat =
      csrcEnd p.buffer + 4 + (p.extensionsSize + headerLength oneByte + length.toNat) := by omega
  have hlayout : Layout b₁.byte oneByte (csrcEnd p.buffer + 4)
      (p.extensionEntries ++ [⟨id, length, UInt16.ofNat off⟩])
      (csrcEnd p.buffer + 4 + (p.extensionsSize + headerLength oneByte + length.toNat)) :=
    layout_append.mpr ⟨_, hstarted.layout.congr hsame, hentry, hend⟩
  have hids : ((p.extensionEntries ++ [(⟨id, length, UInt16.ofNat off⟩ : ExtensionInfo)]).map
      ExtensionInfo.id).Nodup := by
    rw [List.map_append, List.nodup_append]
    refine ⟨hstarted.ids, List.nodup_singleton _, ?_⟩
    intro e he e' he' heq
    obtain rfl : e' = id := List.mem_singleton.mp he'
    exact hnew (heq ▸ he)
  have hprofile₁ : get16 b₁ (csrcEnd p.buffer) = profileOf oneByte := by
    rw [get16_congr fun i _ hi => hout i (by omega), hstarted.profile]
  obtain ⟨hblock, hroom, hkept⟩ :=
    block_of_length hcap hset hprofile₁ (by omega) hlayout hids
  have hvalues : values b₂.byte p.extensionEntries = values p.buffer.byte p.extensionEntries :=
    values_congr hstarted.layout fun i hi hi' => by
      rw [hkept i (.inr ⟨hi, by omega⟩), hsame i hi hi']
  obtain ⟨hwire, hcontent⟩ := h.setBlock hpayload hpadding hblock hroom
    (by rw [hkept 0 (by omega), hout 0 (by omega), hstarted.first])
    fun i hi hi' => by
      rw [hkept i (.inl (by omega)), hout i (by omega), hstarted.same i hi (.inl hi')]
  rw [← hoff]
  refine .inr ⟨off, rfl, hwire, hcontent.trans ?_,
    List.mem_append_right _ (List.mem_singleton_self _), hoffset⟩
  have hlast : values b₂.byte [⟨id, length, UInt16.ofNat off⟩] =
      [(id, bytesAt b₂.byte off length.toNat)] := by
    rw [values, List.map_singleton, hoffset]
  rw [values_append, hvalues, hlast]
  rfl

/-! ### The content -/

theorem put_append {id : UInt8} {value value' : List UInt8} {list : List (UInt8 × List UInt8)}
    (h : id ∉ list.map Prod.fst) : put id value (list ++ [(id, value')]) = put id value list := by
  induction list with
  | nil => simp only [List.nil_append, put, if_true]
  | cons e rest ih =>
    rw [List.map_cons, List.mem_cons, not_or] at h
    rw [List.cons_append, put, put, if_neg (Ne.symm h.1), if_neg (Ne.symm h.1), ih h.2]

theorem values_put {byte byte' : Nat → UInt8} {oneByte : Bool} {pos stop : Nat} {e : ExtensionInfo}
    {entries : List ExtensionInfo} {content : List UInt8}
    (h : Layout byte oneByte pos entries stop) (hids : (entries.map ExtensionInfo.id).Nodup)
    (he : e ∈ entries) (hcontent : bytesAt byte' e.offset.toNat e.length.toNat = content)
    (hsame : ∀ i, i < e.offset.toNat ∨ e.offset.toNat + e.length.toNat ≤ i → byte' i = byte i) :
    values byte' entries = put e.id content (values byte entries) := by
  induction entries generalizing pos with
  | nil => cases he
  | cons entry rest ih =>
    obtain ⟨hentry, hrest⟩ := List.nodup_cons.mp hids
    have hoffset := h.1.offset
    rcases List.mem_cons.mp he with rfl | he
    · rw [values, values, List.map_cons, List.map_cons, put, if_pos rfl, hcontent]
      exact congrArg _ (values_congr h.2 fun i hi _ => hsame i (.inr (by omega)))
    · have hne : entry.id ≠ e.id := fun heq => hentry (heq ▸ List.mem_map_of_mem he)
      have hwithin := (h.2.within he).1
      have hpos := headerLength_pos oneByte
      rw [values, values, List.map_cons, List.map_cons, put, if_neg hne]
      refine congrArg₂ _ ?_ (ih h.2 hrest he)
      rw [bytesAt_congr fun i hi hi' => hsame i (.inl (by omega))]

/-- The content of an extension is written over. -/
theorem Wire.fill (h : Wire p) {e : ExtensionInfo} (he : e ∈ p.extensionEntries)
    {content : List UInt8} (hlength : content.length = e.length.toNat) {b : Buffer capacity}
    (hwrite : write p.buffer e.offset.toNat content = some b) :
    Wire { p with buffer := b } ∧ Packet.content { p with buffer := b } =
      { p.content with extensions := put e.id content p.content.extensions } := by
  obtain ⟨hwritten, -⟩ := written_of_write hwrite
  have hsome : p.extensionsSize ≠ 0 := fun hnone =>
    List.ne_nil_of_mem he (h.none hnone).1
  obtain ⟨oneByte, hblock⟩ := h.block hsome
  have hwithin := hblock.layout.within he
  have hpos := headerLength_pos oneByte
  have hle := hblock.size_le
  have hstart : 12 ≤ csrcEnd p.buffer := Nat.le_add_right 12 _
  have hsame (i : Nat) (hi : i < e.offset.toNat ∨ e.offset.toNat + e.length.toNat ≤ i) :
      b.byte i = p.buffer.byte i := hwritten.outside i (by rwa [hlength])
  have hhead (i : Nat) (hi : i < csrcEnd p.buffer + 4) : b.byte i = p.buffer.byte i :=
    hsame i (.inl (by omega))
  have hget (off : Nat) (hoff : off + 2 ≤ csrcEnd p.buffer + 4) :
      get16 b off = get16 p.buffer off := get16_congr fun i _ hi => hhead i (by omega)
  have hget32 (off : Nat) (hoff : off + 4 ≤ 12) : get32 b off = get32 p.buffer off :=
    get32_congr fun i _ hi => hhead i (by omega)
  have hfirst : b.byte 0 = p.buffer.byte 0 := hhead 0 (by omega)
  have hend : csrcEnd b = csrcEnd p.buffer := by rw [csrcEnd, csrcEnd, numCsrc, hfirst, numCsrc]
  have hcontent : bytesAt b.byte e.offset.toNat e.length.toNat = content := by
    refine List.ext_getElem (by simp [bytesAt, hlength]) fun i hi hi' => ?_
    rw [← List.getD_eq_getElem _ 0 hi', ← hwritten.inside i hi']
    simp [bytesAt]
  have hblock' : Block b (csrcEnd p.buffer) p.extensionEntries p.extensionsSize p.payloadOffset
      oneByte := by
    refine ⟨?_, ?_, hblock.size_pos, hle, ?_, fun i hi hi' => ?_, hblock.ids⟩
    · rw [hget _ (by omega), hblock.profile]
    · rw [hget _ (by omega), ← hblock.words]
    · have houtside : ∀ i, csrcEnd p.buffer + 4 ≤ i →
          i < csrcEnd p.buffer + 4 + p.extensionsSize →
          ¬ (e.offset.toNat ≤ i ∧ i < e.offset.toNat + e.length.toNat) →
          b.byte i = p.buffer.byte i := fun i _ _ hout => hsame i (by omega)
      exact hblock.layout.congr_outside houtside (.inr ⟨e, he, rfl, rfl⟩)
    · rw [hsame i (.inr (by omega)), hblock.zeros i hi hi']
  refine ⟨⟨hwritten.length.trans h.length, h.fits, hfirst ▸ h.version, hfirst ▸ h.padding,
    hfirst ▸ h.extension, hhead 1 (by omega) ▸ h.marker, hhead 1 (by omega) ▸ h.payloadType,
    (hget 2 (by omega)).symm ▸ h.sequenceNumber, (hget32 4 (by omega)).symm ▸ h.timestamp,
    (hget32 8 (by omega)).symm ▸ h.ssrc, fun hnone => absurd hnone hsome,
    fun _ => ⟨oneByte, hend.symm ▸ hblock'⟩, fun hpadding => ?_⟩, ?_⟩
  · have hsize : 0 < p.paddingSize.toNat :=
      Nat.pos_of_ne_zero fun hz => hpadding (UInt8.toNat_inj.mp hz)
    have hlast : b.byte (p.size - 1) = p.buffer.byte (p.size - 1) :=
      hsame _ (.inr (by rw [Packet.size]; omega))
    exact hlast.trans (h.last hpadding)
  · have hcsrcs : csrcs b = csrcs p.buffer :=
      csrcs_congr hfirst fun i _ hi => hhead i (by omega)
    have hpayload : bytesAt b.byte p.payloadOffset p.payloadSize =
        bytesAt p.buffer.byte p.payloadOffset p.payloadSize :=
      bytesAt_congr fun i hi _ => hsame i (.inr (by omega))
    have hvalues := values_put hblock.layout hblock.ids he hcontent hsame
    simp only [Packet.content, contentOf, Packet.parsed, hcsrcs, hpayload, hvalues]

theorem keys_values (byte : Nat → UInt8) (entries : List ExtensionInfo) :
    (values byte entries).map Prod.fst = entries.map ExtensionInfo.id := by
  rw [values, List.map_map]
  rfl

/-- Room for the extension at `off`, whether it was there before or not. -/
structure Allocated (p p' : Packet capacity) (id length : UInt8) (off : Nat) : Prop where
  wire : Wire p'
  entry : ∃ e ∈ p'.extensionEntries, e.id = id ∧ e.length = length ∧ e.offset.toNat = off
  content : ∀ value, { p'.content with extensions := put id value p'.content.extensions } =
    { p.content with extensions := put id value p.content.extensions }

/-- There is no room, or there is. -/
def Allocates (p p' : Packet capacity) (id length : UInt8) (room : Option Nat) : Prop :=
  room = none ∧ Wire p' ∧ p'.content = p.content ∨
    ∃ off, room = some off ∧ Allocated p p' id length off

theorem Allocates.congr {q : Packet capacity} {id length : UInt8} {room : Option Nat}
    (h : Allocates p p' id length room) (hcontent : p.content = q.content) :
    Allocates q p' id length room := by
  rcases h with ⟨hroom, hwire, hsame⟩ | ⟨off, hroom, hallocated⟩
  · exact .inl ⟨hroom, hwire, hsame.trans hcontent⟩
  · exact .inr ⟨off, hroom, hallocated.wire, hallocated.entry, hcontent ▸ hallocated.content⟩

theorem appendExtension_allocates (h : Wire p) (hcap : capacity ≤ 0xffff)
    (hpayload : p.payloadSize = 0) (hpadding : p.paddingSize = 0) {id length : UInt8}
    {oneByte : Bool} {room : Option Nat} (hid : id ≠ 0) (hlength : length ≠ 0)
    (hnew : id ∉ p.extensionEntries.map ExtensionInfo.id)
    (hone : oneByte = true → id.toNat ≤ kOneByteHeaderExtensionMaxId ∧
      length.toNat ≤ kOneByteHeaderExtensionMaxValueSize)
    (hprofile : p.extensionsSize ≠ 0 → get16 p.buffer (csrcEnd p.buffer) = profileOf oneByte)
    (happend : appendExtension p id length (profileOf oneByte) (csrcEnd p.buffer + 4) =
      some (room, p')) : Allocates p p' id length room := by
  rcases appendExtension_spec h hcap hpayload hpadding hid hlength hnew hone hprofile happend with
    ⟨rfl, rfl⟩ | ⟨off, rfl, happended⟩
  · exact .inl ⟨rfl, h, rfl⟩
  · refine .inr ⟨off, rfl, happended.wire, ⟨_, happended.entry, rfl, rfl, happended.offset⟩,
      fun value => ?_⟩
    have hkeys : id ∉ p.content.extensions.map Prod.fst := by
      rw [Packet.content, contentOf, keys_values]
      exact hnew
    rw [happended.content]
    simp only [put_append hkeys]

/-- The format that a first extension is given. -/
theorem profile_needed (needed : Prop) [Decidable needed] :
    (if needed then kTwoByteExtensionProfileId else kOneByteExtensionProfileId) =
      profileOf (decide ¬ needed) := by
  split
  · next hneeded =>
    rw [decide_eq_false (not_not.mpr hneeded)]
    rfl
  · next hfits =>
    rw [decide_eq_true hfits]
    rfl

theorem allocateRawExtension_allocates (h : Wire p) (hcap : capacity ≤ 0xffff) {id length : UInt8}
    {room : Option Nat} (hallocate : allocateRawExtension p id length = some (room, p')) :
    Allocates p p' id length room := by
  simp only [allocateRawExtension, Option.ite_none_left_eq_some] at hallocate
  obtain ⟨hrange, hallocate⟩ := hallocate
  rw [not_or, kMinId, Nat.not_lt] at hrange
  have hid : id ≠ 0 := fun hzero => absurd (hzero ▸ hrange.1) (by decide)
  split at hallocate
  · next entry hfind =>
    obtain ⟨hroom, rfl⟩ := Prod.mk.inj (Option.some.inj hallocate)
    have hmem := List.mem_of_find?_eq_some hfind
    have heq : entry.id = id := by simpa using List.find?_some hfind
    split at hroom
    · next hlength =>
      exact .inr ⟨_, hroom.symm, h, ⟨entry, hmem, heq, hlength, rfl⟩, fun _ => rfl⟩
    · exact .inl ⟨hroom.symm, h, rfl⟩
  · next hfind =>
    have hnew : id ∉ p.extensionEntries.map ExtensionInfo.id := by
      intro hmem
      obtain ⟨e, he, rfl⟩ := List.mem_map.mp hmem
      exact absurd (List.find?_eq_none.mp hfind e he) (by simp)
    split at hallocate
    · obtain ⟨rfl, rfl⟩ := Prod.mk.inj (Option.some.inj hallocate)
      exact .inl ⟨rfl, h, rfl⟩
    · next hempty =>
      obtain ⟨hpayload, hpadding⟩ : p.payloadSize = 0 ∧ p.paddingSize = 0 := by
        rw [not_or, Nat.not_lt, UInt8.not_lt, UInt8.le_iff_toNat_le] at hempty
        exact ⟨Nat.le_zero.mp hempty.1, UInt8.toNat_inj.mp (Nat.le_zero.mp hempty.2)⟩
      simp only [Option.ite_none_left_eq_some, ← csrcEnd_def, Nat.add_sub_cancel] at hallocate
      replace hallocate := hallocate.2
      split at hallocate
      · next hsome =>
        obtain ⟨oneByte, hblock⟩ := h.block (Nat.pos_iff_ne_zero.mp hsome)
        split at hallocate
        · -- the extensions that are there are rewritten first
          rcases ite_eq_iff.mp hallocate with ⟨-, hallocate⟩ | ⟨-, hallocate⟩
          · obtain ⟨rfl, rfl⟩ := Prod.mk.inj (Option.some.inj hallocate)
            exact .inl ⟨rfl, h, rfl⟩
          · obtain ⟨p₁, hpromote, happend⟩ := Option.bind_eq_some_iff.mp hallocate
            obtain ⟨hwire, hcontent, hpayload, hpadding, hend, hblock, hids⟩ :=
              promote_spec h hcap hpadding hpromote
            have hone : false = true → id.toNat ≤ kOneByteHeaderExtensionMaxId ∧
                length.toNat ≤ kOneByteHeaderExtensionMaxValueSize := nofun
            exact (appendExtension_allocates hwire hcap hpayload hpadding hid hrange.2
              (hids ▸ hnew) hone (fun _ => hend ▸ hblock.profile) (hend ▸ happend)).congr hcontent
        · next hformat =>
          rw [hblock.profile] at hformat hallocate
          refine appendExtension_allocates h hcap hpayload hpadding hid hrange.2 hnew
            (fun hone => ?_) (fun _ => hblock.profile) hallocate
          subst hone
          have hneeded := fun hneeded => hformat ⟨rfl, hneeded⟩
          rwa [imp_false, not_or, Nat.not_lt, Nat.not_lt] at hneeded
      · next hnone =>
        rw [profile_needed] at hallocate
        refine appendExtension_allocates h hcap hpayload hpadding hid hrange.2 hnew
          (fun hone => ?_) (fun hsome => absurd (Nat.pos_of_ne_zero hsome) hnone) hallocate
        have hfits := of_decide_eq_true hone
        rwa [not_or, Nat.not_lt, Nat.not_lt] at hfits

end Extend

end RtpPacket
