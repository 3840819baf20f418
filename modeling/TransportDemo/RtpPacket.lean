import TransportDemo.ByteBuffer
import TransportDemo.FlexfecReceiver

/-!
# RTP packets

An `RtpPacket` keeps the fields of the header beside the buffer they are
written to. Header extensions stand in a block behind the fixed header, in the
one-byte format as long as their numbers and lengths allow it; a block is
rewritten to the two-byte format when one is added that does not fit. Writes go
through the bounds of the buffer, the reads of the parser are logged.
-/

namespace RtpPacket

open ByteBuffer
open FlexfecReceiver (RTPExtensionType ExtensionInfo)

def kFixedHeaderSize : Nat := 12
def kRtpVersion : UInt8 := 2
def kOneByteExtensionProfileId : UInt16 := 0xBEDE
def kTwoByteExtensionProfileId : UInt16 := 0x1000
def kOneByteExtensionHeaderLength : Nat := 1
def kTwoByteExtensionHeaderLength : Nat := 2
def kMinId : Nat := 1
def kMaxId : Nat := 255
def kMaxValueSize : Nat := 255
def kOneByteHeaderExtensionMaxId : Nat := 14
def kOneByteHeaderExtensionMaxValueSize : Nat := 16
def kMaxValueSizeBytes : Nat := 16
def kDefaultPacketSize : Nat := 1500

/-- `RtpHeaderExtensionMap`; the number 0 is none. -/
structure ExtensionManager where
  ids : RTPExtensionType → UInt8
  extmapAllowMixed : Bool

/-- The types in the order of the enumeration. -/
def extensionTypes : List RTPExtensionType :=
  [.transmissionTimeOffset, .audioLevel, .inbandComfortNoise, .absoluteSendTime,
    .absoluteCaptureTime, .videoRotation, .transportSequenceNumber, .transportSequenceNumber02,
    .playoutDelay, .videoContentType, .videoTiming, .frameMarking, .rtpStreamId,
    .repairedRtpStreamId, .mid, .genericFrameDescriptor00, .genericFrameDescriptor01,
    .genericFrameDescriptor02, .colorSpace]

/-- `GetType`. -/
def ExtensionManager.getType (extensions : ExtensionManager) (id : UInt8) : RTPExtensionType :=
  (extensionTypes.find? fun type => extensions.ids type == id).getD .none

structure Packet (capacity : Nat) where
  marker : Bool
  payloadType : UInt8
  sequenceNumber : UInt16
  timestamp : UInt32
  ssrc : UInt32
  payloadOffset : Nat
  payloadSize : Nat
  paddingSize : UInt8
  extensions : ExtensionManager
  extensionEntries : List ExtensionInfo
  extensionsSize : Nat
  buffer : Buffer capacity

/-! ### Building a packet

A failed assertion, a failed check and a write outside of the buffer are `none`. -/

section Build

variable {capacity : Nat} (p : Packet capacity)

def Packet.size : Nat := p.payloadOffset + p.payloadSize + p.paddingSize.toNat

/-- `size()` bytes from `data()` on. -/
def Packet.data : List UInt8 := (List.range p.buffer.length).map p.buffer.byte

/-- `SetSize`. -/
def setSize (b : Buffer capacity) (size : Nat) : Buffer capacity := { b with length := size }

def numCsrc (b : Buffer capacity) : Nat := (b.byte 0 &&& 0x0f).toNat

def clear : Option (Packet capacity) := do
  let buffer ← write p.buffer 0 (List.replicate kFixedHeaderSize 0)
  let buffer ← write (setSize buffer kFixedHeaderSize) 0 [kRtpVersion <<< 6]
  some
    { marker := false, payloadType := 0, sequenceNumber := 0, timestamp := 0, ssrc := 0
      payloadOffset := kFixedHeaderSize, payloadSize := 0, paddingSize := 0
      extensions := p.extensions, extensionEntries := [], extensionsSize := 0, buffer }

/-- A new packet, in memory that holds whatever it held before. -/
def create (extensions : ExtensionManager) (memory : Nat → UInt8) : Option (Packet capacity) :=
  if capacity < kFixedHeaderSize then none
  else
    clear
      { marker := false, payloadType := 0, sequenceNumber := 0, timestamp := 0, ssrc := 0
        payloadOffset := 0, payloadSize := 0, paddingSize := 0, extensions, extensionEntries := []
        extensionsSize := 0, buffer := ⟨memory, capacity⟩ }

def setMarker (markerBit : Bool) : Option (Packet capacity) := do
  let buffer ← write p.buffer 1
    [if markerBit then p.buffer.byte 1 ||| 0x80 else p.buffer.byte 1 &&& 0x7f]
  some { p with marker := markerBit, buffer }

def setPayloadType (payloadType : UInt8) : Option (Packet capacity) :=
  if 0x7f < payloadType then none
  else do
    let buffer ← write p.buffer 1 [p.buffer.byte 1 &&& 0x80 ||| payloadType]
    some { p with payloadType, buffer }

def setSequenceNumber (seqNo : UInt16) : Option (Packet capacity) := do
  let buffer ← write p.buffer 2 (be16 seqNo)
  some { p with sequenceNumber := seqNo, buffer }

def setTimestamp (timestamp : UInt32) : Option (Packet capacity) := do
  let buffer ← write p.buffer 4 (be32 timestamp)
  some { p with timestamp, buffer }

def setSsrc (ssrc : UInt32) : Option (Packet capacity) := do
  let buffer ← write p.buffer 8 (be32 ssrc)
  some { p with ssrc, buffer }

/-- The loop that writes the numbers. -/
def writeCsrcs (buffer : Buffer capacity) (offset : Nat) : List UInt32 → Option (Buffer capacity)
  | [] => some buffer
  | csrc :: rest => do
    let buffer ← write buffer offset (be32 csrc)
    writeCsrcs buffer (offset + 4) rest

def setCsrcs (csrcs : List UInt32) : Option (Packet capacity) :=
  if p.extensionsSize ≠ 0 ∨ p.payloadSize ≠ 0 ∨ p.paddingSize ≠ 0 ∨ 0x0f < csrcs.length then none
  else do
    let payloadOffset := kFixedHeaderSize + 4 * csrcs.length
    let buffer ← write p.buffer 0 [p.buffer.byte 0 &&& 0xf0 ||| UInt8.ofNat csrcs.length]
    let buffer ← writeCsrcs buffer kFixedHeaderSize csrcs
    some { p with payloadOffset, buffer := setSize buffer payloadOffset }

/-- `FindExtensionInfo`. -/
def findExtensionInfo (id : UInt8) : Option ExtensionInfo :=
  p.extensionEntries.find? (·.id == id)

/-- The length of the block is written in units of four bytes, and zeros fill the last one. -/
def setExtensionLengthMaybeAddZeroPadding (buffer : Buffer capacity)
    (extensionsSize extensionsOffset : Nat) : Option (Buffer capacity × UInt16) := do
  let extensionsWords := UInt16.ofNat ((extensionsSize + 3) / 4)
  let buffer ← write buffer (extensionsOffset - 2) (be16 extensionsWords)
  let buffer ← write buffer (extensionsOffset + extensionsSize)
    (List.replicate (4 * extensionsWords.toNat - extensionsSize) 0)
  some (buffer, 4 * extensionsWords)

/-- The loop of `PromoteToTwoByteHeaderExtension`, from the last entry to the first: each is moved
by as many bytes as entries are left. -/
def promoteLoop (buffer : Buffer capacity) :
    List ExtensionInfo → Option (Buffer capacity × List ExtensionInfo)
  | [] => some (buffer, [])
  | entry :: rest => do
    let readIndex := entry.offset.toNat
    let writeIndex := readIndex + (rest.length + 1)
    let buffer ← write buffer writeIndex
      ((List.range entry.length.toNat).map fun i => buffer.byte (readIndex + i))
    let buffer ← write buffer (writeIndex - 1) [entry.length]
    let buffer ← write buffer (writeIndex - 2) [entry.id]
    let (buffer, entries) ← promoteLoop buffer rest
    some (buffer, entries ++ [{ entry with offset := UInt16.ofNat writeIndex }])

def promoteToTwoByteHeaderExtension : Option (Packet capacity) :=
  let extensionsOffset := kFixedHeaderSize + numCsrc p.buffer * 4 + 4
  if p.extensionEntries = [] ∨ p.payloadSize ≠ 0 ∨
      get16 p.buffer (extensionsOffset - 4) ≠ kOneByteExtensionProfileId then none
  else do
    let (buffer, extensionEntries) ← promoteLoop p.buffer p.extensionEntries.reverse
    let buffer ← write buffer (extensionsOffset - 4) (be16 kTwoByteExtensionProfileId)
    let extensionsSize := p.extensionsSize + p.extensionEntries.length
    let (buffer, padded) ←
      setExtensionLengthMaybeAddZeroPadding buffer extensionsSize extensionsOffset
    let payloadOffset := extensionsOffset + padded.toNat
    some { p with extensionEntries, extensionsSize, payloadOffset
                  buffer := setSize buffer payloadOffset }

/-- The first extension sets the bit for them and the format. -/
def startExtensions (profileId : UInt16) (extensionsOffset : Nat) : Option (Buffer capacity) :=
  if p.extensionsSize = 0 then do
    let buffer ← write p.buffer 0 [p.buffer.byte 0 ||| 0x10]
    write buffer (extensionsOffset - 4) (be16 profileId)
  else some p.buffer

/-- The last part of `AllocateRawExtension`, once the format is settled. -/
def appendExtension (id length : UInt8) (profileId : UInt16) (extensionsOffset : Nat) :
    Option (Option Nat × Packet capacity) :=
  let extensionHeaderSize :=
    if profileId = kOneByteExtensionProfileId then kOneByteExtensionHeaderLength
    else kTwoByteExtensionHeaderLength
  let newExtensionsSize := p.extensionsSize + extensionHeaderSize + length.toNat
  if capacity < extensionsOffset + newExtensionsSize then some (none, p)
  else if p.extensionsSize = 0 ∧ p.payloadOffset ≠ extensionsOffset - 4 then none
  else do
    let buffer ← startExtensions p profileId extensionsOffset
    let buffer ← write buffer (extensionsOffset + p.extensionsSize)
      (if profileId = kOneByteExtensionProfileId then [id <<< 4 ||| (length - 1)]
      else [id, length])
    let offset := extensionsOffset + p.extensionsSize + extensionHeaderSize
    let (buffer, padded) ←
      setExtensionLengthMaybeAddZeroPadding buffer newExtensionsSize extensionsOffset
    let payloadOffset := extensionsOffset + padded.toNat
    some (some offset,
      { p with
        extensionEntries := p.extensionEntries ++ [⟨id, length, UInt16.ofNat offset⟩]
        extensionsSize := newExtensionsSize
        payloadOffset
        buffer := setSize buffer payloadOffset })

/-- Where the extension is to be written, if it is there with that length or there is room. -/
def allocateRawExtension (id length : UInt8) : Option (Option Nat × Packet capacity) :=
  if id.toNat < kMinId ∨ length = 0 then none
  else
    match findExtensionInfo p id with
    | some entry => some (if entry.length = length then some entry.offset.toNat else none, p)
    | none =>
      if 0 < p.payloadSize ∨ 0 < p.paddingSize then some (none, p)
      else
        let extensionsOffset := kFixedHeaderSize + numCsrc p.buffer * 4 + 4
        let twoByteHeaderRequired := kOneByteHeaderExtensionMaxId < id.toNat ∨
          kOneByteHeaderExtensionMaxValueSize < length.toNat
        if twoByteHeaderRequired ∧ ¬ p.extensions.extmapAllowMixed then none
        else if 0 < p.extensionsSize then
          let profileId := get16 p.buffer (extensionsOffset - 4)
          if profileId = kOneByteExtensionProfileId ∧ twoByteHeaderRequired then
            let expectedNewExtensionsSize := p.extensionsSize + p.extensionEntries.length +
              kTwoByteExtensionHeaderLength + length.toNat
            if capacity < extensionsOffset + expectedNewExtensionsSize then some (none, p)
            else do
              let p ← promoteToTwoByteHeaderExtension p
              appendExtension p id length kTwoByteExtensionProfileId extensionsOffset
          else appendExtension p id length profileId extensionsOffset
        else appendExtension p id length
          (if twoByteHeaderRequired then kTwoByteExtensionProfileId
          else kOneByteExtensionProfileId) extensionsOffset

/-- `AllocateExtension`; a length of more than 255 bytes is refused like that of 0. -/
def allocateExtension (type : RTPExtensionType) (length : Nat) :
    Option (Option Nat × Packet capacity) :=
  if length = 0 ∨ kMaxValueSize < length ∨
      ¬ p.extensions.extmapAllowMixed ∧ kOneByteHeaderExtensionMaxValueSize < length then
    some (none, p)
  else
    let id := p.extensions.ids type
    if id = 0 then some (none, p)
    else if ¬ p.extensions.extmapAllowMixed ∧ kOneByteHeaderExtensionMaxId < id.toNat then
      some (none, p)
    else allocateRawExtension p id (UInt8.ofNat length)

/-- The content is copied to where there is room for it. -/
def copyTo (content : List UInt8) : Option Nat × Packet capacity → Option (Bool × Packet capacity)
  | (none, p) => some (false, p)
  | (some off, p) => (write p.buffer off content).map fun buffer => (true, { p with buffer })

/-- `ReserveExtension` of an extension of `valueSize` bytes. -/
def reserveExtension (type : RTPExtensionType) (valueSize : Nat) :
    Option (Bool × Packet capacity) :=
  (allocateExtension p type valueSize).bind (copyTo (List.replicate valueSize 0))

/-- `SetExtension` of an extension that is a string. -/
def setStringExtension (type : RTPExtensionType) (value : List UInt8) :
    Option (Bool × Packet capacity) :=
  (allocateExtension p type value.length).bind fun
    | (none, p) => some (false, p)
    | (some off, p) =>
      if kMaxValueSizeBytes < value.length then some (false, p) else copyTo value (some off, p)

/-- Where the payload is to be written, if there is room. -/
def setPayloadSize (sizeBytes : Nat) : Option (Option Nat × Packet capacity) :=
  if p.paddingSize ≠ 0 then none
  else if capacity < p.payloadOffset + sizeBytes then some (none, p)
  else
    some (some p.payloadOffset,
      { p with payloadSize := sizeBytes, buffer := setSize p.buffer (p.payloadOffset + sizeBytes) })

def allocatePayload (sizeBytes : Nat) : Option (Option Nat × Packet capacity) := do
  let (_, p) ← setPayloadSize p 0
  setPayloadSize p sizeBytes

def setPadding (paddingBytes : Nat) : Option (Bool × Packet capacity) :=
  if capacity < p.payloadOffset + p.payloadSize + paddingBytes then some (false, p)
  else if 0xff < paddingBytes then none
  else
    let paddingSize := UInt8.ofNat paddingBytes
    let paddingOffset := p.payloadOffset + p.payloadSize
    let buffer := setSize p.buffer (paddingOffset + paddingBytes)
    if 0 < paddingBytes then do
      let buffer ← write buffer paddingOffset (List.replicate (paddingBytes - 1) 0)
      let buffer ← write buffer (paddingOffset + paddingBytes - 1) [paddingSize]
      let buffer ← write buffer 0 [buffer.byte 0 ||| 0x20]
      some (true, { p with paddingSize, buffer })
    else do
      let buffer ← write buffer 0 [buffer.byte 0 &&& ~~~0x20]
      some (true, { p with paddingSize, buffer })

end Build

/-! ### Parsing -/

/-- What `ParseBuffer` sets. -/
structure Parsed where
  marker : Bool
  payloadType : UInt8
  sequenceNumber : UInt16
  timestamp : UInt32
  ssrc : UInt32
  payloadOffset : Nat
  payloadSize : Nat
  paddingSize : UInt8
  extensionEntries : List ExtensionInfo
  extensionsSize : Nat

/-- The entry with the number of the new one is overwritten, or else the new one added. -/
def overwrite (info : ExtensionInfo) : List ExtensionInfo → List ExtensionInfo
  | [] => [info]
  | entry :: rest => if entry.id = info.id then info :: rest else entry :: overwrite info rest

/-- `FindOrCreateExtensionInfo`: the list with an entry of that number. -/
def findOrCreate (id : UInt8) (entries : List ExtensionInfo) : List ExtensionInfo :=
  if entries.any (·.id == id) then entries else entries ++ [⟨id, 0, 0⟩]

section Parse

variable {size : Nat} (buffer : Buffer size)

/-- The number and the length in the header of an extension, from its first byte. -/
def readExtensionHeader (profile : UInt16) (first : UInt8) (off : Nat) : Logged (UInt8 × UInt8) :=
  if profile = kOneByteExtensionProfileId then pure (first >>> 4, 1 + (first &&& 0xf))
  else do
    let length ← read8 buffer (off + 1)
    pure (first, length)

/-- The loop over the extensions, which passes over zeros. `fuel` is more than the turns it can
take. -/
def parseExtensions (profile : UInt16) (extensionOffset extensionsCapacity : Nat) :
    Nat → Nat → List ExtensionInfo → Logged (Nat × List ExtensionInfo)
  | 0, extensionsSize, entries => pure (extensionsSize, entries)
  | fuel + 1, extensionsSize, entries =>
    let extensionHeaderLength :=
      if profile = kOneByteExtensionProfileId then kOneByteExtensionHeaderLength
      else kTwoByteExtensionHeaderLength
    if extensionsCapacity ≤ extensionsSize + extensionHeaderLength then
      pure (extensionsSize, entries)
    else do
      let first ← read8 buffer (extensionOffset + extensionsSize)
      if first = 0 then
        parseExtensions profile extensionOffset extensionsCapacity fuel (extensionsSize + 1) entries
      else do
        let (id, length) ←
          readExtensionHeader buffer profile first (extensionOffset + extensionsSize)
        if profile = kOneByteExtensionProfileId ∧ (id = 15 ∨ id = 0 ∧ length ≠ 1) then
          pure (extensionsSize, entries)
        else if extensionsCapacity < extensionsSize + extensionHeaderLength + length.toNat then
          pure (extensionsSize, entries)
        else
          let offset := extensionOffset + extensionsSize + extensionHeaderLength
          if 0xffff < offset then pure (extensionsSize, findOrCreate id entries)
          else
            parseExtensions profile extensionOffset extensionsCapacity fuel
              (extensionsSize + extensionHeaderLength + length.toNat)
              (overwrite ⟨id, length, UInt16.ofNat offset⟩ entries)

def parsePadding (first : UInt8) : Logged UInt8 :=
  if first &&& 0x20 ≠ 0 then read8 buffer (size - 1) else pure 0

/-- The block of extensions at `payloadOffset`: where it ends, and what is found. -/
def parseExtensionBlock (first : UInt8) (payloadOffset : Nat) :
    Logged (Option (Nat × Nat × List ExtensionInfo)) :=
  if first &&& 0x10 = 0 then pure (some (payloadOffset, 0, []))
  else if size < payloadOffset + 4 then pure none
  else do
    let profile ← read16 buffer payloadOffset
    let words ← read16 buffer (payloadOffset + 2)
    let extensionsCapacity := words.toNat * 4
    if size < payloadOffset + 4 + extensionsCapacity then pure none
    else if profile ≠ kOneByteExtensionProfileId ∧ profile ≠ kTwoByteExtensionProfileId then
      pure (some (payloadOffset + 4 + extensionsCapacity, 0, []))
    else do
      let (extensionsSize, entries) ← parseExtensions buffer profile (payloadOffset + 4)
        extensionsCapacity extensionsCapacity 0 []
      pure (some (payloadOffset + 4 + extensionsCapacity, extensionsSize, entries))

/-- `ParseBuffer`; what a call that fails leaves behind is cleared by `Parse`. -/
def parseBuffer : Logged (Option Parsed) :=
  if size < kFixedHeaderSize then pure none
  else do
    let first ← read8 buffer 0
    if first >>> 6 ≠ kRtpVersion then pure none
    else do
      let second ← read8 buffer 1
      let sequenceNumber ← read16 buffer 2
      let timestamp ← read32 buffer 4
      let ssrc ← read32 buffer 8
      let csrcEnd := kFixedHeaderSize + (first &&& 0x0f).toNat * 4
      if size < csrcEnd then pure none
      else do
        let paddingSize ← parsePadding buffer first
        if first &&& 0x20 ≠ 0 ∧ paddingSize = 0 then pure none
        else do
          let block ← parseExtensionBlock buffer first csrcEnd
          match block with
          | none => pure none
          | some (payloadOffset, extensionsSize, extensionEntries) =>
            if size < payloadOffset + paddingSize.toNat then pure none
            else
              pure (some
                { marker := second &&& 0x80 ≠ 0
                  payloadType := second &&& 0x7f
                  sequenceNumber, timestamp, ssrc, payloadOffset
                  payloadSize := size - payloadOffset - paddingSize.toNat
                  paddingSize, extensionEntries, extensionsSize })

end Parse

/-- Bytes as they were received. -/
def ofBytes (bytes : List UInt8) : Buffer bytes.length := ⟨fun i => bytes.getD i 0, bytes.length⟩

end RtpPacket
