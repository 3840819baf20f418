import Mathlib.Data.FinEnum
import TransportDemo.RtpPacket

/-!
# What the parser accepts

The parser is fed with whatever comes from the network. It never reads outside
of the buffer, and what it accepts is well formed: header, payload and padding
make up the whole, and the extensions lie in their block one beside the other,
each under a number of its own.
-/

namespace RtpPacket

open ByteBuffer
open FlexfecReceiver (ExtensionInfo RtpPacketReceived)

/-- One ends before the other begins. -/
def Apart (e e' : ExtensionInfo) : Prop :=
  e.offset.toNat + e.length.toNat ≤ e'.offset.toNat ∨
    e'.offset.toNat + e'.length.toNat ≤ e.offset.toNat

/-- Extensions between `start` and `stop`. -/
structure Entries (start stop : Nat) (entries : List ExtensionInfo) : Prop where
  ids : (entries.map ExtensionInfo.id).Nodup
  id_ne : ∀ e ∈ entries, e.id ≠ 0
  starts : ∀ e ∈ entries, e.length = 0 ∨ start ≤ e.offset.toNat
  ends : ∀ e ∈ entries, e.offset.toNat + e.length.toNat ≤ stop
  apart : entries.Pairwise Apart

theorem entries_nil (start stop : Nat) : Entries start stop [] :=
  ⟨List.nodup_nil, List.forall_mem_nil _, List.forall_mem_nil _, List.forall_mem_nil _, .nil⟩

section Overwrite

variable {info e : ExtensionInfo} {entries : List ExtensionInfo} {start stop stop' : Nat}

theorem mem_overwrite (h : e ∈ overwrite info entries) : e = info ∨ e ∈ entries := by
  induction entries with
  | nil => exact .inl (List.mem_singleton.mp h)
  | cons entry rest ih =>
    rw [overwrite] at h
    split at h
    · rcases List.mem_cons.mp h with rfl | h
      · exact .inl rfl
      · exact .inr (List.mem_cons_of_mem _ h)
    · rcases List.mem_cons.mp h with rfl | h
      · exact .inr List.mem_cons_self
      · exact (ih h).imp_right (List.mem_cons_of_mem _)

theorem ids_overwrite (h : (entries.map ExtensionInfo.id).Nodup) :
    ((overwrite info entries).map ExtensionInfo.id).Nodup := by
  induction entries with
  | nil => exact List.nodup_singleton _
  | cons entry rest ih =>
    obtain ⟨hentry, hrest⟩ := List.nodup_cons.mp h
    rw [overwrite]
    split
    · next heq =>
      rw [List.map_cons, ← heq]
      exact h
    · next hne =>
      refine List.nodup_cons.mpr ⟨fun hmem => ?_, ih hrest⟩
      obtain ⟨e, he, hid⟩ := List.mem_map.mp hmem
      rcases mem_overwrite he with rfl | he
      · exact hne hid.symm
      · exact hentry (hid ▸ List.mem_map_of_mem he)

theorem apart_overwrite (h : entries.Pairwise Apart) (hinfo : ∀ e ∈ entries, Apart e info) :
    (overwrite info entries).Pairwise Apart := by
  induction entries with
  | nil => exact List.pairwise_singleton _ _
  | cons entry rest ih =>
    obtain ⟨hentry, hrest⟩ := List.pairwise_cons.mp h
    obtain ⟨happart, hinfo⟩ := List.forall_mem_cons.mp hinfo
    rw [overwrite]
    split
    · exact List.pairwise_cons.mpr ⟨fun e he => (hinfo e he).symm, hrest⟩
    · refine List.pairwise_cons.mpr ⟨fun e he => ?_, ih hrest hinfo⟩
      rcases mem_overwrite he with rfl | he
      · exact happart
      · exact hentry e he

/-- The next extension lies behind those there are. -/
theorem Entries.overwrite (h : Entries start stop entries) (hid : info.id ≠ 0)
    (hstart : start ≤ stop) (hbehind : stop ≤ info.offset.toNat)
    (hend : info.offset.toNat + info.length.toNat ≤ stop') :
    Entries start stop' (overwrite info entries) where
  ids := ids_overwrite h.ids
  id_ne e he := by
    rcases mem_overwrite he with rfl | he
    · exact hid
    · exact h.id_ne e he
  starts e he := by
    rcases mem_overwrite he with rfl | he
    · exact .inr (hstart.trans hbehind)
    · exact h.starts e he
  ends e he := by
    rcases mem_overwrite he with rfl | he
    · exact hend
    · have hle := h.ends e he
      omega
  apart := apart_overwrite h.apart fun e he => .inl ((h.ends e he).trans hbehind)

theorem Entries.mono (h : Entries start stop entries) (hstop : stop ≤ stop') :
    Entries start stop' entries :=
  ⟨h.ids, h.id_ne, h.starts, fun e he => (h.ends e he).trans hstop, h.apart⟩

/-- An entry that nothing was found for. -/
theorem Entries.findOrCreate (h : Entries start stop entries) {id : UInt8} (hid : id ≠ 0) :
    Entries start stop (findOrCreate id entries) := by
  rw [RtpPacket.findOrCreate]
  split
  · exact h
  · next hnone =>
    rw [List.any_eq_true] at hnone
    refine ⟨?_, ?_, ?_, ?_, ?_⟩
    · rw [List.map_append]
      refine List.nodup_append.mpr ⟨h.ids, List.nodup_singleton _, fun i hi j hj hij => ?_⟩
      obtain ⟨e, he, rfl⟩ := List.mem_map.mp hi
      obtain rfl := List.mem_singleton.mp hj
      exact hnone ⟨e, he, beq_iff_eq.mpr hij⟩
    · exact List.forall_mem_append.mpr ⟨h.id_ne, List.forall_mem_singleton.mpr hid⟩
    · exact List.forall_mem_append.mpr ⟨h.starts, List.forall_mem_singleton.mpr (.inl rfl)⟩
    · exact List.forall_mem_append.mpr ⟨h.ends, List.forall_mem_singleton.mpr (Nat.zero_le _)⟩
    · exact List.pairwise_append.mpr ⟨h.apart, List.pairwise_singleton _ _, fun e _ e' he' => by
        obtain rfl := List.mem_singleton.mp he'
        exact .inr (Nat.zero_le _)⟩

end Overwrite

/-! ### The parser -/

/-- All reads lie in the buffer. -/
def Within (size : Nat) {α : Type} (x : Logged α) : Prop := ∀ i ∈ x.reads, i < size

section Parse

variable {size : Nat} {buffer : Buffer size} {α β : Type}

theorem within_pure (a : α) : Within size (pure a : Logged α) := List.forall_mem_nil _

theorem within_bind {x : Logged α} {f : α → Logged β} (hx : Within size x)
    (hf : Within size (f x.value)) : Within size (x >>= f) := by
  intro i hi
  rw [reads_bind] at hi
  rcases List.mem_append.mp hi with hi | hi
  · exact hx i hi
  · exact hf i hi

theorem within_read8 {off : Nat} (h : off < size) : Within size (read8 buffer off) := by
  intro i hi
  rw [reads_read8] at hi
  obtain rfl := List.mem_singleton.mp hi
  exact h

theorem within_read16 {off : Nat} (h : off + 2 ≤ size) : Within size (read16 buffer off) := by
  intro i hi
  simp only [reads_read16, List.mem_cons, List.not_mem_nil, or_false] at hi
  omega

theorem within_read32 {off : Nat} (h : off + 4 ≤ size) : Within size (read32 buffer off) := by
  intro i hi
  simp only [reads_read32, List.mem_cons, List.not_mem_nil, or_false] at hi
  omega

theorem within_readExtensionHeader (profile : UInt16) (first : UInt8) {off : Nat}
    (h : off + 2 ≤ size) : Within size (readExtensionHeader buffer profile first off) := by
  rw [readExtensionHeader]
  split
  · exact within_pure _
  · exact within_bind (within_read8 (by omega)) (within_pure _)

theorem eq_zero_of_oneByte : ∀ first : UInt8, first >>> 4 = 0 → 1 + (first &&& 0xf) = 1 →
    first = 0 := by
  decide +kernel

/-- A byte that is not zero starts an extension with a number, or ends the block. -/
theorem id_ne_zero {profile : UInt16} {first : UInt8} (hfirst : first ≠ 0) {off : Nat}
    {header : UInt8 × UInt8} (hheader : header = (readExtensionHeader buffer profile first off).value)
    (hok : ¬ (profile = kOneByteExtensionProfileId ∧
      (header.1 = 15 ∨ header.1 = 0 ∧ header.2 ≠ 1))) : header.1 ≠ 0 := by
  rw [readExtensionHeader] at hheader
  split at hheader
  · next hone =>
    subst hheader
    intro hid
    exact hok ⟨hone, .inr ⟨hid, fun hlength => hfirst (eq_zero_of_oneByte _ hid hlength)⟩⟩
  · subst hheader
    exact hfirst

/-- The reads of a loop, and what it finds. -/
structure Finds (size start stop : Nat) (x : Logged (Nat × List ExtensionInfo)) : Prop where
  within : Within size x
  entries : Entries start stop x.value.2

theorem finds_bind {start stop : Nat} {x : Logged α} {f : α → Logged (Nat × List ExtensionInfo)}
    (hx : Within size x) (hf : Finds size start stop (f x.value)) :
    Finds size start stop (x >>= f) :=
  ⟨within_bind hx hf.within, hf.entries⟩

theorem parseExtensions_finds {profile : UInt16} {extensionOffset extensionsCapacity : Nat}
    (hcap : extensionOffset + extensionsCapacity ≤ size) (fuel : Nat) {extensionsSize : Nat}
    {entries : List ExtensionInfo} (hsize : extensionsSize ≤ extensionsCapacity)
    (h : Entries extensionOffset (extensionOffset + extensionsSize) entries) :
    Finds size extensionOffset (extensionOffset + extensionsCapacity)
      (parseExtensions buffer profile extensionOffset extensionsCapacity fuel extensionsSize
        entries) := by
  induction fuel generalizing extensionsSize entries with
  | zero => exact ⟨within_pure _, h.mono (by omega)⟩
  | succ fuel ih =>
    have hdone : Finds size extensionOffset (extensionOffset + extensionsCapacity)
        (pure (extensionsSize, entries)) := ⟨within_pure _, h.mono (by omega)⟩
    simp only [parseExtensions]
    generalize hlength : (if profile = kOneByteExtensionProfileId then kOneByteExtensionHeaderLength
      else kTwoByteExtensionHeaderLength) = headerLength
    have hpos : 1 ≤ headerLength := by
      subst hlength
      split
      · exact Nat.le_refl 1
      · exact Nat.le_succ 1
    split
    · exact hdone
    next hroom =>
    refine finds_bind (within_read8 (by omega)) ?_
    rw [value_read8]
    split
    · exact ih (by omega) (h.mono (by omega))
    next hfirst =>
    refine finds_bind (within_readExtensionHeader _ _ (by omega)) ?_
    generalize hheader : (readExtensionHeader buffer profile _ _).value = header
    split
    · exact hdone
    next hok =>
    have hid := id_ne_zero hfirst hheader.symm hok
    split
    · exact hdone
    next hfits =>
    split
    · exact ⟨within_pure _, (h.findOrCreate hid).mono (by omega)⟩
    next hoffset =>
    have hnat : (UInt16.ofNat (extensionOffset + extensionsSize + headerLength)).toNat =
        extensionOffset + extensionsSize + headerLength :=
      UInt16.toNat_ofNat_of_lt' (show _ < 65536 by omega)
    refine ih (by omega) (h.overwrite hid (Nat.le_add_right _ _) ?_ ?_)
    · rw [hnat]
      omega
    · have hend : (UInt16.ofNat (extensionOffset + extensionsSize + headerLength)).toNat +
          header.2.toNat ≤ extensionOffset + (extensionsSize + headerLength + header.2.toNat) := by
        omega
      exact hend

/-- The reads of a parser that may fail, and what is true of what it accepts. -/
structure Yields (size : Nat) (P : α → Prop) (x : Logged (Option α)) : Prop where
  within : Within size x
  value : ∀ a, x.value = some a → P a

section Yields

variable {P : α → Prop}

theorem yields_none : Yields size P (pure none) := ⟨within_pure _, fun _ h => nomatch h⟩

theorem yields_some {a : α} (h : P a) : Yields size P (pure (some a)) :=
  ⟨within_pure _, fun _ ha => Option.some.inj ha ▸ h⟩

theorem yields_bind {x : Logged β} {f : β → Logged (Option α)} (hx : Within size x)
    (hf : Yields size P (f x.value)) : Yields size P (x >>= f) :=
  ⟨within_bind hx hf.within, hf.value⟩

end Yields

/-- The block ends behind its header, with the extensions in it. -/
structure BlockEnds (start : Nat) (block : Nat × Nat × List ExtensionInfo) : Prop where
  behind : start ≤ block.1
  entries : Entries (start + 4) block.1 block.2.2

theorem parseExtensionBlock_yields {first : UInt8} {payloadOffset : Nat} :
    Yields size (BlockEnds payloadOffset) (parseExtensionBlock buffer first payloadOffset) := by
  simp only [parseExtensionBlock]
  split
  · exact yields_some ⟨Nat.le_refl _, entries_nil _ _⟩
  split
  · exact yields_none
  next hheader =>
  refine yields_bind (within_read16 (by omega)) (yields_bind (within_read16 (by omega)) ?_)
  generalize (read16 buffer (payloadOffset + 2)).value.toNat * 4 = extensionsCapacity
  split
  · exact yields_none
  next hcap =>
  split
  · exact yields_some ⟨by omega, entries_nil _ _⟩
  · have hroom : payloadOffset + 4 + extensionsCapacity ≤ size := by omega
    have hfinds := @parseExtensions_finds _ buffer (read16 buffer payloadOffset).value _ _ hroom
      extensionsCapacity _ _ (Nat.zero_le _) (entries_nil _ _)
    exact yields_bind hfinds.within (yields_some ⟨by omega, hfinds.entries⟩)

/-- Header, extensions, payload and padding of a packet of `size` bytes. -/
structure WellFormed (size : Nat) (h : Parsed) : Prop where
  fixedHeader : kFixedHeaderSize ≤ h.payloadOffset
  sizes : h.payloadOffset + h.payloadSize + h.paddingSize.toNat = size
  payloadType_lt : h.payloadType < 0x80
  entries : Entries (kFixedHeaderSize + 4) h.payloadOffset h.extensionEntries

theorem and_7f_lt (x : UInt8) : x &&& 0x7f < 0x80 := by
  rw [UInt8.lt_iff_toNat_lt, UInt8.toNat_and]
  exact Nat.lt_succ_of_le Nat.and_le_right

theorem Entries.start_le {start start' stop : Nat} {entries : List ExtensionInfo}
    (h : Entries start stop entries) (hle : start' ≤ start) : Entries start' stop entries :=
  ⟨h.ids, h.id_ne, fun e he => (h.starts e he).imp_right hle.trans, h.ends, h.apart⟩

theorem yields_parseBuffer (size : Nat) (buffer : Buffer size) :
    Yields size (WellFormed size) (parseBuffer buffer) := by
  simp only [parseBuffer]
  split
  · exact yields_none
  next hheader =>
  rw [kFixedHeaderSize] at *
  refine yields_bind (within_read8 (by omega)) ?_
  rw [value_read8]
  generalize buffer.byte 0 = first
  split
  · exact yields_none
  refine yields_bind (within_read8 (by omega)) (yields_bind (within_read16 (by omega))
    (yields_bind (within_read32 (by omega)) (yields_bind (within_read32 (by omega)) ?_)))
  generalize (first &&& 0x0f).toNat = numCsrc
  split
  · exact yields_none
  next hcsrc =>
  have hpadding : Within size (parsePadding buffer first) := by
    rw [parsePadding]
    split
    · exact within_read8 (by omega)
    · exact within_pure _
  refine yields_bind hpadding ?_
  generalize (parsePadding buffer first).value = paddingSize
  split
  · exact yields_none
  have hblock : Yields size (BlockEnds (12 + numCsrc * 4))
      (parseExtensionBlock buffer first (12 + numCsrc * 4)) := parseExtensionBlock_yields
  refine yields_bind hblock.within ?_
  have hends := hblock.value
  generalize (parseExtensionBlock buffer first (12 + numCsrc * 4)).value = block at hends ⊢
  cases block with
  | none => exact yields_none
  | some block =>
    obtain ⟨payloadOffset, extensionsSize, extensionEntries⟩ := block
    obtain ⟨hbehind, hentries⟩ := hends _ rfl
    dsimp only at hbehind hentries ⊢
    split
    · exact yields_none
    · exact yields_some ⟨show 12 ≤ payloadOffset by omega,
        show payloadOffset + (size - payloadOffset - paddingSize.toNat) + paddingSize.toNat = size
          by omega,
        and_7f_lt _, hentries.start_le (show 12 + 4 ≤ 12 + numCsrc * 4 + 4 by omega)⟩

end Parse

/-- A packet as it is handed to the receiver, after `Parse`. -/
def received (extensions : ExtensionManager) (bytes : List UInt8) : Option RtpPacketReceived :=
  (parseBuffer (ofBytes bytes)).value.attach.map fun h =>
    { payloadType := h.1.payloadType
      sequenceNumber := h.1.sequenceNumber
      ssrc := h.1.ssrc
      payloadOffset := h.1.payloadOffset
      payloadSize := h.1.payloadSize
      paddingSize := h.1.paddingSize.toNat
      extensionEntries := h.1.extensionEntries
      extensionType := extensions.getType
      recovered := false
      buffer := bytes
      fixedHeader := ((yields_parseBuffer _ _).value h.1 h.2).fixedHeader
      buffer_length := ((yields_parseBuffer _ _).value h.1 h.2).sizes.symm }

/-- The fixed header is read from its place. -/
theorem parseBuffer_header {size : Nat} {buffer : Buffer size} {h : Parsed}
    (hparse : (parseBuffer buffer).value = some h) :
    h.payloadType = buffer.byte 1 &&& 0x7f ∧ h.sequenceNumber = get16 buffer 2 ∧
      h.ssrc = get32 buffer 8 := by
  simp only [parseBuffer] at hparse
  split at hparse
  · cases hparse
  rw [value_bind, value_read8] at hparse
  split at hparse
  · cases hparse
  simp only [value_bind, value_read8, value_read16, value_read32] at hparse
  split at hparse
  · cases hparse
  rw [value_bind] at hparse
  split at hparse
  · cases hparse
  rw [value_bind] at hparse
  split at hparse
  · cases hparse
  split at hparse
  · cases hparse
  · obtain rfl := Option.some.inj hparse
    exact ⟨rfl, rfl, rfl⟩

/-- A packet is received as it is parsed. -/
structure Receives (bytes : List UInt8) (h : Parsed) (r : RtpPacketReceived) : Prop where
  payloadType : r.payloadType = h.payloadType
  sequenceNumber : r.sequenceNumber = h.sequenceNumber
  ssrc : r.ssrc = h.ssrc
  payloadOffset : r.payloadOffset = h.payloadOffset
  payloadSize : r.payloadSize = h.payloadSize
  extensionEntries : r.extensionEntries = h.extensionEntries
  recovered : r.recovered = false
  buffer : r.buffer = bytes

theorem parse_of_received {extensions : ExtensionManager} {bytes : List UInt8}
    {r : RtpPacketReceived} (hreceived : received extensions bytes = some r) :
    ∃ h, (parseBuffer (ofBytes bytes)).value = some h ∧ Receives bytes h r := by
  obtain ⟨h, -, rfl⟩ := Option.map_eq_some_iff.mp hreceived
  exact ⟨h.1, h.2, ⟨rfl, rfl, rfl, rfl, rfl, rfl, rfl, rfl⟩⟩

theorem receives_of_parse {extensions : ExtensionManager} {bytes : List UInt8} {h : Parsed}
    (hparse : (parseBuffer (ofBytes bytes)).value = some h) :
    ∃ r, received extensions bytes = some r ∧ Receives bytes h r := by
  have hsome : (received extensions bytes).isSome := by
    rw [received, Option.isSome_map, Option.isSome_attach, hparse]
    rfl
  obtain ⟨r, hreceived⟩ := Option.isSome_iff_exists.mp hsome
  obtain ⟨h', hparse', hreceives⟩ := parse_of_received hreceived
  obtain rfl := Option.some.inj (hparse.symm.trans hparse')
  exact ⟨r, hreceived, hreceives⟩

/-- Whatever is received, the parser reads nothing but it, and what it accepts is well formed. -/
theorem received_wellFormed (extensions : ExtensionManager) (bytes : List UInt8) :
    Within bytes.length (parseBuffer (ofBytes bytes)) ∧
    ∀ r, received extensions bytes = some r → r.payloadType < 0x80 ∧
      kFixedHeaderSize ≤ r.payloadOffset ∧
      r.payloadOffset + r.payloadSize + r.paddingSize = bytes.length ∧
      Entries (kFixedHeaderSize + 4) r.payloadOffset r.extensionEntries := by
  have hyields := yields_parseBuffer bytes.length (ofBytes bytes)
  refine ⟨hyields.within, fun r hreceived => ?_⟩
  obtain ⟨h, hparse, hreceives⟩ := parse_of_received hreceived
  have hwell := hyields.value h hparse
  have hsize := r.buffer_length.symm
  rw [hreceives.buffer] at hsize
  refine ⟨hreceives.payloadType ▸ hwell.payloadType_lt, r.fixedHeader, hsize, ?_⟩
  rw [hreceives.payloadOffset, hreceives.extensionEntries]
  exact hwell.entries

end RtpPacket
