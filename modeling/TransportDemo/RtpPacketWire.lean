import Mathlib.Data.List.GetD
import TransportDemo.RtpPacketParse

/-!
# How a packet stands in its buffer

The extensions stand one behind the other, each behind a header of one or two
bytes, and zeros fill the block up to a multiple of four bytes. From such a
buffer the parser reads back all that stands in it.
-/

namespace RtpPacket

open ByteBuffer
open FlexfecReceiver (ExtensionInfo)

def profileOf (oneByte : Bool) : UInt16 :=
  if oneByte then kOneByteExtensionProfileId else kTwoByteExtensionProfileId

def headerLength (oneByte : Bool) : Nat :=
  if oneByte then kOneByteExtensionHeaderLength else kTwoByteExtensionHeaderLength

theorem profileOf_eq_iff {oneByte : Bool} :
    profileOf oneByte = kOneByteExtensionProfileId ↔ oneByte = true := by
  cases oneByte <;> decide

theorem headerLength_pos (oneByte : Bool) : 1 ≤ headerLength oneByte := by
  cases oneByte <;> decide

/-- The header of an extension. -/
def HeaderAt (byte : Nat → UInt8) (pos : Nat) (id length : UInt8) : Bool → Prop
  | true => id.toNat ≤ kOneByteHeaderExtensionMaxId ∧
      length.toNat ≤ kOneByteHeaderExtensionMaxValueSize ∧ byte pos = id <<< 4 ||| (length - 1)
  | false => byte pos = id ∧ byte (pos + 1) = length

/-- An extension whose header stands at `pos`. -/
structure EntryAt (byte : Nat → UInt8) (oneByte : Bool) (pos : Nat) (e : ExtensionInfo) : Prop where
  offset : e.offset.toNat = pos + headerLength oneByte
  id_ne : e.id ≠ 0
  length_ne : e.length ≠ 0
  header : HeaderAt byte pos e.id e.length oneByte

/-- Extensions from `pos` to `stop`. -/
def Layout (byte : Nat → UInt8) (oneByte : Bool) : Nat → List ExtensionInfo → Nat → Prop
  | pos, [], stop => pos = stop
  | pos, e :: rest, stop => EntryAt byte oneByte pos e ∧
      Layout byte oneByte (pos + headerLength oneByte + e.length.toNat) rest stop

section Layout

variable {byte byte' : Nat → UInt8} {oneByte : Bool} {pos stop : Nat} {e : ExtensionInfo}
  {entries entries' : List ExtensionInfo}

theorem layout_append : Layout byte oneByte pos (entries ++ entries') stop ↔
    ∃ mid, Layout byte oneByte pos entries mid ∧ Layout byte oneByte mid entries' stop := by
  induction entries generalizing pos with
  | nil => exact ⟨fun h => ⟨pos, rfl, h⟩, fun ⟨_, hmid, h⟩ => hmid ▸ h⟩
  | cons e rest ih =>
    simp only [List.cons_append, Layout, ih]
    constructor
    · rintro ⟨he, mid, hrest, h⟩
      exact ⟨mid, ⟨he, hrest⟩, h⟩
    · rintro ⟨mid, ⟨he, hrest⟩, h⟩
      exact ⟨he, mid, hrest, h⟩

theorem Layout.le (h : Layout byte oneByte pos entries stop) : pos ≤ stop := by
  induction entries generalizing pos with
  | nil => exact Nat.le_of_eq h
  | cons e rest ih =>
    have hle := ih h.2
    omega

theorem Layout.within (h : Layout byte oneByte pos entries stop) (he : e ∈ entries) :
    pos + headerLength oneByte ≤ e.offset.toNat ∧ e.offset.toNat + e.length.toNat ≤ stop := by
  induction entries generalizing pos with
  | nil => cases he
  | cons entry rest ih =>
    rcases List.mem_cons.mp he with rfl | he
    · have hoffset := h.1.offset
      have hle := h.2.le
      omega
    · have hrest := ih h.2 he
      omega

theorem HeaderAt.congr {id length : UInt8} (h : HeaderAt byte pos id length oneByte)
    (hsame : ∀ i, pos ≤ i → i < pos + headerLength oneByte → byte' i = byte i) :
    HeaderAt byte' pos id length oneByte := by
  cases oneByte with
  | true => exact ⟨h.1, h.2.1, (hsame pos (Nat.le_refl _) (Nat.lt_succ_self _)).trans h.2.2⟩
  | false =>
    exact ⟨(hsame pos (Nat.le_refl _) (Nat.lt_add_of_pos_right Nat.two_pos)).trans h.1,
      (hsame (pos + 1) (Nat.le_succ _) (Nat.lt_succ_self _)).trans h.2⟩

/-- What is written over the content of an extension, or before all of them, changes no header. -/
theorem Layout.congr_outside (h : Layout byte oneByte pos entries stop) {from_ to_ : Nat}
    (hsame : ∀ i, pos ≤ i → i < stop → ¬ (from_ ≤ i ∧ i < to_) → byte' i = byte i)
    (hwhere : to_ ≤ pos ∨
      ∃ e ∈ entries, from_ = e.offset.toNat ∧ to_ = e.offset.toNat + e.length.toNat) :
    Layout byte' oneByte pos entries stop := by
  induction entries generalizing pos with
  | nil => exact h
  | cons entry rest ih =>
    have hlt := (h.within List.mem_cons_self).2
    have hoffset := h.1.offset
    refine ⟨⟨hoffset, h.1.id_ne, h.1.length_ne, h.1.header.congr fun i hi hi' => ?_⟩, ?_⟩
    · refine hsame i hi (by omega) fun hin => ?_
      rcases hwhere with hto | ⟨e, he, rfl, rfl⟩
      · omega
      · have hwithin := (h.within he).1
        omega
    · refine ih h.2 (fun i hi hi' hout => hsame i (by omega) hi' hout) ?_
      rcases hwhere with hto | ⟨e, he, rfl, rfl⟩
      · exact .inl (by omega)
      · rcases List.mem_cons.mp he with rfl | he
        · exact .inl (by omega)
        · exact .inr ⟨e, he, rfl, rfl⟩

theorem Layout.congr (h : Layout byte oneByte pos entries stop)
    (hsame : ∀ i, pos ≤ i → i < stop → byte' i = byte i) :
    Layout byte' oneByte pos entries stop :=
  @Layout.congr_outside _ _ _ _ _ _ h 0 0 (fun i hi hi' _ => hsame i hi hi')
    (.inl (Nat.zero_le _))

end Layout

/-! ### Reading the extensions back -/

/-- The one-byte header is taken apart. -/
theorem oneByte_trip : ∀ id ∈ List.range 15, ∀ length ∈ List.range 16,
    (UInt8.ofNat id <<< 4 ||| UInt8.ofNat length) >>> 4 = UInt8.ofNat id ∧
      (UInt8.ofNat id <<< 4 ||| UInt8.ofNat length) &&& 0xf = UInt8.ofNat length := by
  decide +kernel

theorem HeaderAt.oneByte {byte : Nat → UInt8} {pos : Nat} {id length : UInt8}
    (h : HeaderAt byte pos id length true) (hlength : length ≠ 0) :
    byte pos >>> 4 = id ∧ 1 + (byte pos &&& 0xf) = length := by
  obtain ⟨hid, hlen, hbyte⟩ := h
  rw [kOneByteHeaderExtensionMaxId] at hid
  rw [kOneByteHeaderExtensionMaxValueSize] at hlen
  have hpos : 0 < length.toNat := Nat.pos_of_ne_zero fun hz => hlength (UInt8.toNat_inj.mp hz)
  have hsub : (length - 1).toNat = length.toNat - 1 := by
    rw [UInt8.toNat_sub_of_le length 1 (UInt8.le_iff_toNat_le.mpr hpos)]
    rfl
  obtain ⟨htripId, htripLength⟩ := oneByte_trip id.toNat (List.mem_range.mpr (by omega))
    (length - 1).toNat (List.mem_range.mpr (by omega))
  rw [UInt8.ofNat_toNat, UInt8.ofNat_toNat, ← hbyte] at htripId htripLength
  rw [htripId, htripLength, UInt8.add_comm, UInt8.sub_add_cancel]
  exact ⟨rfl, rfl⟩

section Read

variable {size : Nat} {buffer : Buffer size} {oneByte : Bool} {pos : Nat} {e : ExtensionInfo}

theorem readExtensionHeader_entry (h : EntryAt buffer.byte oneByte pos e) :
    buffer.byte pos ≠ 0 ∧
      (readExtensionHeader buffer (profileOf oneByte) (buffer.byte pos) pos).value =
        (e.id, e.length) ∧
      ¬ (profileOf oneByte = kOneByteExtensionProfileId ∧
        (e.id = 15 ∨ e.id = 0 ∧ e.length ≠ 1)) := by
  cases oneByte with
  | true =>
    obtain ⟨hid, hlength⟩ := h.header.oneByte h.length_ne
    refine ⟨fun hzero => h.id_ne ?_, ?_, ?_⟩
    · rw [← hid, hzero]
      rfl
    · rw [readExtensionHeader, if_pos (by rfl : profileOf true = kOneByteExtensionProfileId),
        value_pure, hid, hlength]
    · rintro ⟨-, hid | ⟨hid, -⟩⟩
      · have hle := h.header.1
        rw [hid] at hle
        exact absurd hle (by decide)
      · exact h.id_ne hid
  | false =>
    have hprofile : profileOf false ≠ kOneByteExtensionProfileId := by decide
    obtain ⟨hid, hlength⟩ := h.header
    refine ⟨hid ▸ h.id_ne, ?_, fun hone => hprofile hone.1⟩
    rw [readExtensionHeader, if_neg hprofile, value_bind, value_read8, value_pure, hid, hlength]

theorem overwrite_of_not_mem {info : ExtensionInfo} {entries : List ExtensionInfo}
    (h : info.id ∉ entries.map ExtensionInfo.id) : overwrite info entries = entries ++ [info] := by
  induction entries with
  | nil => rfl
  | cons entry rest ih =>
    rw [List.map_cons, List.mem_cons, not_or] at h
    rw [overwrite, if_neg fun heq => h.1 heq.symm, ih h.2]
    rfl

/-- The loop finds the extensions that stand there and passes over the zeros behind them. -/
theorem parseExtensions_layout {extensionOffset extensionsCapacity : Nat}
    (hend : extensionOffset + extensionsCapacity ≤ 0xffff) (fuel : Nat)
    {extensionsSize stop : Nat} {entries found : List ExtensionInfo}
    (hlayout : Layout buffer.byte oneByte (extensionOffset + extensionsSize) entries
      (extensionOffset + stop))
    (hzeros : ∀ i, stop ≤ i → i < extensionsCapacity → buffer.byte (extensionOffset + i) = 0)
    (hstop : stop ≤ extensionsCapacity) (hfuel : extensionsCapacity ≤ extensionsSize + fuel)
    (hids : ((found ++ entries).map ExtensionInfo.id).Nodup) :
    (parseExtensions buffer (profileOf oneByte) extensionOffset extensionsCapacity fuel
      extensionsSize found).value.2 = found ++ entries := by
  have hpos := headerLength_pos oneByte
  have hheader : (if profileOf oneByte = kOneByteExtensionProfileId then
      kOneByteExtensionHeaderLength else kTwoByteExtensionHeaderLength) = headerLength oneByte := by
    cases oneByte <;> rfl
  induction fuel generalizing extensionsSize stop entries found with
  | zero =>
    cases entries with
    | nil => exact (List.append_nil _).symm
    | cons e rest =>
      have hwithin := hlayout.within List.mem_cons_self
      omega
  | succ fuel ih =>
    simp only [parseExtensions, hheader]
    cases entries with
    | nil =>
      have hstop' : extensionOffset + extensionsSize = extensionOffset + stop := hlayout
      obtain rfl : extensionsSize = stop := by omega
      split
      · exact (List.append_nil _).symm
      · next hroom =>
        have hzero : buffer.byte (extensionOffset + extensionsSize) = 0 :=
          hzeros _ (Nat.le_refl _) (by omega)
        rw [value_bind, value_read8, if_pos hzero]
        exact ih (show Layout _ _ (extensionOffset + (extensionsSize + 1)) [] _ from rfl)
          (fun i hi => hzeros i (by omega)) (by omega) (by omega) hids
    | cons e rest =>
      have hwithin := hlayout.within List.mem_cons_self
      have hoffset := hlayout.1.offset
      have hlength : 0 < e.length.toNat :=
        Nat.pos_of_ne_zero fun hz => hlayout.1.length_ne (UInt8.toNat_inj.mp hz)
      obtain ⟨hfirst, hread, hok⟩ := readExtensionHeader_entry hlayout.1
      have hinfo : (⟨e.id, e.length,
          UInt16.ofNat (extensionOffset + extensionsSize + headerLength oneByte)⟩ : ExtensionInfo) =
          e := by
        rw [← hoffset, UInt16.ofNat_toNat]
      have hnew : e.id ∉ found.map ExtensionInfo.id := by
        rw [List.map_append, List.map_cons] at hids
        exact fun hmem => List.disjoint_of_nodup_append hids hmem List.mem_cons_self
      rw [if_neg (by omega), value_bind, value_read8, if_neg hfirst, value_bind, hread]
      dsimp only
      rw [if_neg hok, if_neg (by omega), if_neg (by omega), hinfo, overwrite_of_not_mem hnew]
      have hrest := hlayout.2
      have hids' : (((found ++ [e]) ++ rest).map ExtensionInfo.id).Nodup := by
        rwa [List.append_assoc]
      rw [ih (by rwa [← Nat.add_assoc, ← Nat.add_assoc]) hzeros hstop (by omega) hids',
        List.append_assoc]
      rfl

end Read

/-! ### A packet in its buffer -/

section Wire

variable {capacity : Nat}

/-- A block of extensions behind the `start` first bytes. -/
structure Block (b : Buffer capacity) (start : Nat) (entries : List ExtensionInfo)
    (extensionsSize payloadOffset : Nat) (oneByte : Bool) : Prop where
  profile : get16 b start = profileOf oneByte
  words : payloadOffset = start + 4 + (get16 b (start + 2)).toNat * 4
  size_pos : 0 < extensionsSize
  size_le : start + 4 + extensionsSize ≤ payloadOffset
  layout : Layout b.byte oneByte (start + 4) entries (start + 4 + extensionsSize)
  zeros : ∀ i, start + 4 + extensionsSize ≤ i → i < payloadOffset → b.byte i = 0
  ids : (entries.map ExtensionInfo.id).Nodup

def csrcEnd (b : Buffer capacity) : Nat := kFixedHeaderSize + numCsrc b * 4

/-- The buffer holds what the fields say. -/
structure Wire (p : Packet capacity) : Prop where
  length : p.buffer.length = p.size
  fits : p.size ≤ capacity
  version : p.buffer.byte 0 >>> 6 = kRtpVersion
  padding : p.buffer.byte 0 &&& 0x20 ≠ 0 ↔ p.paddingSize ≠ 0
  extension : p.buffer.byte 0 &&& 0x10 = 0 ↔ p.extensionsSize = 0
  marker : p.marker = decide (p.buffer.byte 1 &&& 0x80 ≠ 0)
  payloadType : p.payloadType = p.buffer.byte 1 &&& 0x7f
  sequenceNumber : p.sequenceNumber = get16 p.buffer 2
  timestamp : p.timestamp = get32 p.buffer 4
  ssrc : p.ssrc = get32 p.buffer 8
  none : p.extensionsSize = 0 → p.extensionEntries = [] ∧ p.payloadOffset = csrcEnd p.buffer
  block : p.extensionsSize ≠ 0 → ∃ oneByte, Block p.buffer (csrcEnd p.buffer) p.extensionEntries
    p.extensionsSize p.payloadOffset oneByte
  last : p.paddingSize ≠ 0 → p.buffer.byte (p.size - 1) = p.paddingSize

/-- The fields that `ParseBuffer` is to find. -/
def Packet.parsed (p : Packet capacity) (extensionsSize : Nat) : Parsed :=
  ⟨p.marker, p.payloadType, p.sequenceNumber, p.timestamp, p.ssrc, p.payloadOffset, p.payloadSize,
    p.paddingSize, p.extensionEntries, extensionsSize⟩

variable {p : Packet capacity} {size : Nat} {q : Buffer size}

theorem Wire.csrcEnd_le (h : Wire p) : csrcEnd p.buffer ≤ p.payloadOffset := by
  by_cases hnone : p.extensionsSize = 0
  · exact Nat.le_of_eq (h.none hnone).2.symm
  · obtain ⟨oneByte, hblock⟩ := h.block hnone
    have hle := hblock.size_le
    omega

theorem Wire.header_le (h : Wire p) : 12 ≤ p.payloadOffset :=
  (Nat.le_add_right 12 _).trans h.csrcEnd_le

section Agree

variable (hsame : ∀ i < size, q.byte i = p.buffer.byte i)

include hsame

theorem get16_of_agree {off : Nat} (h : off + 2 ≤ size) : get16 q off = get16 p.buffer off := by
  rw [get16, get16, hsame off (by omega), hsame (off + 1) (by omega)]

theorem get32_of_agree {off : Nat} (h : off + 4 ≤ size) : get32 q off = get32 p.buffer off := by
  rw [get32, get32, hsame off (by omega), hsame (off + 1) (by omega), hsame (off + 2) (by omega),
    hsame (off + 3) (by omega)]

/-- The block is found where it stands. -/
theorem parseExtensionBlock_wire (h : Wire p) (hsize : p.payloadOffset ≤ size)
    (hcap : size ≤ 0xffff) : ∃ extensionsSize,
    (parseExtensionBlock q (p.buffer.byte 0) (csrcEnd p.buffer)).value =
      some (p.payloadOffset, extensionsSize, p.extensionEntries) := by
  by_cases hnone : p.extensionsSize = 0
  · obtain ⟨hentries, hoffset⟩ := h.none hnone
    exact ⟨0, by rw [parseExtensionBlock, if_pos (h.extension.mpr hnone), hentries, hoffset,
      value_pure]⟩
  · obtain ⟨oneByte, hblock⟩ := h.block hnone
    have hle := hblock.size_le
    have hwords := hblock.words
    have hprofile : ¬ (get16 q (csrcEnd p.buffer) ≠ kOneByteExtensionProfileId ∧
        get16 q (csrcEnd p.buffer) ≠ kTwoByteExtensionProfileId) := by
      rw [get16_of_agree hsame (by omega), hblock.profile]
      cases oneByte <;> decide
    have hlayout := hblock.layout.congr fun i _ hi' => hsame i (by omega)
    simp only [parseExtensionBlock, if_neg (mt h.extension.mp hnone)]
    rw [if_neg (by omega), value_bind, value_bind, value_read16, value_read16,
      get16_of_agree hsame (show csrcEnd p.buffer + 2 + 2 ≤ size by omega), if_neg (by omega),
      if_neg hprofile, value_bind, value_pure, ← hwords,
      get16_of_agree hsame (by omega), hblock.profile]
    refine ⟨_, congrArg some (congrArg (Prod.mk _) (congrArg (Prod.mk _) ?_))⟩
    have hzeros : ∀ i, p.extensionsSize ≤ i →
        i < (get16 p.buffer (csrcEnd p.buffer + 2)).toNat * 4 →
        q.byte (csrcEnd p.buffer + 4 + i) = 0 := by
      intro i hi hi'
      rw [hsame _ (by omega)]
      exact hblock.zeros _ (by omega) (by omega)
    have hids : (([] ++ p.extensionEntries).map ExtensionInfo.id).Nodup := hblock.ids
    exact parseExtensions_layout (by omega) _ (by exact hlayout) hzeros (by omega) (by omega) hids

/-- The parser finds what the fields of the packet say. -/
theorem parseBuffer_of_agree (h : Wire p) (hsize : size = p.size) (hcap : size ≤ 0xffff) :
    ∃ extensionsSize, (parseBuffer q).value = some (p.parsed extensionsSize) := by
  have hheader := h.header_le
  have hend := h.csrcEnd_le
  rw [Packet.size] at hsize
  obtain ⟨extensionsSize, hblock⟩ := parseExtensionBlock_wire hsame h (by omega) hcap
  have hpadding : (parsePadding q (p.buffer.byte 0)).value = p.paddingSize := by
    rw [parsePadding]
    split
    · next hset =>
      rw [value_read8, hsame _ (by omega), hsize]
      exact h.last (h.padding.mp hset)
    · next hclear => exact (not_not.mp (mt h.padding.mpr hclear)).symm
  have hzero : ¬ (p.buffer.byte 0 &&& 0x20 ≠ 0 ∧ p.paddingSize = 0) := fun hset =>
    h.padding.mp hset.1 hset.2
  have hfixed : ¬ size < kFixedHeaderSize := by
    rw [kFixedHeaderSize]
    omega
  have hcsrc : ¬ size < csrcEnd p.buffer := by omega
  rw [csrcEnd, numCsrc] at hcsrc hblock
  refine ⟨extensionsSize, ?_⟩
  simp only [parseBuffer]
  rw [if_neg hfixed, value_bind, value_read8, hsame 0 (by omega), if_neg (not_not.mpr h.version),
    value_bind, value_bind, value_bind, value_bind, value_read8, value_read16, value_read32,
    value_read32, hsame 1 (by omega), get16_of_agree hsame (by omega),
    get32_of_agree hsame (by omega), get32_of_agree hsame (by omega), if_neg hcsrc, value_bind,
    hpadding, if_neg hzero, value_bind, hblock]
  dsimp only
  rw [if_neg (by omega), value_pure, Packet.parsed, h.marker, h.payloadType, h.sequenceNumber,
    h.timestamp, h.ssrc]
  congr 2
  omega

end Agree

/-! ### What can be read in a packet -/

/-- `count` bytes from `off` on. -/
def bytesAt (byte : Nat → UInt8) (off count : Nat) : List UInt8 :=
  (List.range count).map fun i => byte (off + i)

/-- `Csrcs`. -/
def csrcs (b : Buffer capacity) : List UInt32 :=
  (List.range (numCsrc b)).map fun i => get32 b (kFixedHeaderSize + i * 4)

/-- The extensions with what stands in them. -/
def values (byte : Nat → UInt8) (entries : List ExtensionInfo) : List (UInt8 × List UInt8) :=
  entries.map fun e => (e.id, bytesAt byte e.offset.toNat e.length.toNat)

/-- What a packet says. -/
@[ext] structure Content where
  marker : Bool
  payloadType : UInt8
  sequenceNumber : UInt16
  timestamp : UInt32
  ssrc : UInt32
  csrcs : List UInt32
  extensions : List (UInt8 × List UInt8)
  payload : List UInt8
  paddingSize : UInt8
deriving DecidableEq

def contentOf (b : Buffer capacity) (h : Parsed) : Content :=
  ⟨h.marker, h.payloadType, h.sequenceNumber, h.timestamp, h.ssrc, csrcs b,
    values b.byte h.extensionEntries, bytesAt b.byte h.payloadOffset h.payloadSize, h.paddingSize⟩

def Packet.content (p : Packet capacity) : Content := contentOf p.buffer (p.parsed 0)

theorem bytesAt_congr {byte byte' : Nat → UInt8} {off count : Nat}
    (hsame : ∀ i, off ≤ i → i < off + count → byte' i = byte i) :
    bytesAt byte' off count = bytesAt byte off count :=
  List.map_congr_left fun _ hi => hsame _ (Nat.le_add_right _ _)
    (Nat.add_lt_add_left (List.mem_range.mp hi) off)

theorem values_congr {byte byte' : Nat → UInt8} {oneByte : Bool} {pos stop : Nat}
    {entries : List ExtensionInfo} (h : Layout byte oneByte pos entries stop)
    (hsame : ∀ i, pos ≤ i → i < stop → byte' i = byte i) :
    values byte' entries = values byte entries := by
  refine List.map_congr_left fun e he => ?_
  have hwithin := h.within he
  rw [bytesAt_congr fun i hi hi' => hsame i (by omega) (by omega)]

theorem csrcs_congr {b : Buffer capacity} (hsame : q.byte 0 = b.byte 0)
    (hlist : ∀ i, 12 ≤ i → i < csrcEnd b → q.byte i = b.byte i) : csrcs q = csrcs b := by
  rw [csrcs, csrcs, numCsrc, hsame, ← numCsrc]
  refine List.map_congr_left fun i hi => ?_
  have hi := List.mem_range.mp hi
  rw [csrcEnd, kFixedHeaderSize] at hlist
  rw [get32, get32, kFixedHeaderSize, hlist _ (by omega) (by omega), hlist _ (by omega) (by omega),
    hlist _ (by omega) (by omega), hlist _ (by omega) (by omega)]

/-- Everything but the fixed header is read in the same way where the buffer is the same. -/
theorem Wire.body_congr (h : Wire p) (hfirst : q.byte 0 = p.buffer.byte 0)
    (hsame : ∀ i, 12 ≤ i → i < p.payloadOffset + p.payloadSize → q.byte i = p.buffer.byte i) :
    csrcs q = csrcs p.buffer ∧
      values q.byte p.extensionEntries = values p.buffer.byte p.extensionEntries ∧
      bytesAt q.byte p.payloadOffset p.payloadSize =
        bytesAt p.buffer.byte p.payloadOffset p.payloadSize := by
  have hend := h.csrcEnd_le
  have hheader := h.header_le
  refine ⟨csrcs_congr hfirst fun i hi hi' => hsame i hi (by omega), ?_,
    bytesAt_congr fun i hi hi' => hsame i (by omega) hi'⟩
  by_cases hnone : p.extensionsSize = 0
  · rw [(h.none hnone).1]
    rfl
  · obtain ⟨oneByte, hblock⟩ := h.block hnone
    have hle := hblock.size_le
    have hstart : 12 ≤ csrcEnd p.buffer := Nat.le_add_right 12 _
    exact values_congr hblock.layout fun i hi hi' => hsame i (by omega) (by omega)

/-- What is sent is what is read from it when it is received. -/
theorem parse_data (h : Wire p) (hcap : capacity ≤ 0xffff) :
    ∃ extensionsSize, (parseBuffer (ofBytes p.data)).value = some (p.parsed extensionsSize) ∧
      contentOf (ofBytes p.data) (p.parsed extensionsSize) = p.content := by
  have hlength : p.data.length = p.size := by
    rw [Packet.data, List.length_map, List.length_range, h.length]
  have hsame : ∀ i < p.data.length, (ofBytes p.data).byte i = p.buffer.byte i := by
    intro i hi
    have hget : (ofBytes p.data).byte i = p.data[i] := List.getD_eq_getElem _ _ hi
    rw [hget]
    simp only [Packet.data, List.getElem_map, List.getElem_range]
  have hfits := h.fits
  obtain ⟨extensionsSize, hparse⟩ := parseBuffer_of_agree hsame h hlength (by omega)
  have hheader := h.header_le
  rw [Packet.size] at hlength
  obtain ⟨hcsrcs, hvalues, hpayload⟩ := h.body_congr (q := ofBytes p.data) (hsame 0 (by omega))
    fun i _ hi' => hsame i (by omega)
  refine ⟨extensionsSize, hparse, ?_⟩
  rw [Packet.content, contentOf, contentOf, hcsrcs]
  simp only [Packet.parsed, hvalues, hpayload]

end Wire

end RtpPacket
