import TransportDemo.RtpPacketParse

/-!
# Mutable extensions

The sender's pacer fills in some header extensions after the FEC packets were
made. The receiver therefore stores a media packet with these extensions set
to zero, and every other byte as it came, as long as each video timing entry
has all of its bytes: six of them are set to zero without a look at its length.
-/

namespace FlexfecMutable

open FlexfecPacket FlexfecReceiver RtpPacketReceived
open FlexfecDecoder (ListSort)
open RtpPacket (ExtensionManager Entries received received_wellFormed kFixedHeaderSize)

/-! ### Ranges that are set to zero -/

/-- Of an offset and a number of bytes. -/
def Inside (i : Nat) : Option (Nat × Nat) → Prop
  | none => False
  | some (off, count) => off ≤ i ∧ i < off + count

variable {data : Nat → UInt8} {i : Nat} {range : Option (Nat × Nat)}

theorem zero_inside (h : Inside i range) : zero data range i = 0 := by
  cases range with
  | none => cases h
  | some range =>
    obtain ⟨off, count⟩ := range
    have hin : off ≤ i ∧ i < off + count := h
    have hstore : zero data (some (off, count)) i = (List.replicate count 0).getD (i - off) 0 :=
      if_pos ⟨hin.1, by rw [List.length_replicate]; exact hin.2⟩
    rw [hstore, List.getD_eq_getElem?_getD, List.getElem?_replicate, if_pos (by omega)]
    rfl

theorem zero_outside (h : ¬ Inside i range) : zero data range i = data i := by
  cases range with
  | none => rfl
  | some range =>
    obtain ⟨off, count⟩ := range
    refine if_neg fun hin => h ?_
    rw [List.length_replicate] at hin
    exact hin

theorem foldl_zero_of_zero {ranges : List (Option (Nat × Nat))} (hdata : data i = 0) :
    ranges.foldl zero data i = 0 := by
  induction ranges generalizing data with
  | nil => exact hdata
  | cons range rest ih =>
    refine ih ?_
    by_cases hin : Inside i range
    · exact zero_inside hin
    · rw [zero_outside hin, hdata]

/-- The loop over the ranges, which may overlap. -/
theorem foldl_zero_inside {ranges : List (Option (Nat × Nat))}
    (h : ∃ range ∈ ranges, Inside i range) : ranges.foldl zero data i = 0 := by
  induction ranges generalizing data with
  | nil => simp at h
  | cons range rest ih =>
    obtain ⟨range', hmem, hin⟩ := h
    rcases List.mem_cons.mp hmem with rfl | hmem
    · -- those that follow leave the zero alone
      rw [List.foldl_cons]
      exact foldl_zero_of_zero (zero_inside hin)
    · exact ih ⟨range', hmem, hin⟩

theorem foldl_zero_outside {ranges : List (Option (Nat × Nat))}
    (h : ∀ range ∈ ranges, ¬ Inside i range) : ranges.foldl zero data i = data i := by
  induction ranges generalizing data with
  | nil => rfl
  | cons range rest ih =>
    obtain ⟨hrange, hrest⟩ := List.forall_mem_cons.mp h
    rw [List.foldl_cons, ih hrest, zero_outside hrange]

/-! ### A media packet -/

/-- The byte belongs to an extension that is filled in on the way. -/
def Mutable (r : RtpPacketReceived) (i : Nat) : Prop :=
  ∃ e ∈ r.extensionEntries, Inside i (r.mutableBytes e)

/-- Each video timing entry has all of its 13 bytes. -/
def FullTiming (r : RtpPacketReceived) : Prop :=
  ∀ e ∈ r.extensionEntries, r.extensionType e.id = .videoTiming → 13 ≤ e.length.toNat

theorem copyAndZero_inside {r : RtpPacketReceived}
    (hdata : r.copyAndZeroMutableExtensions = some data) (h : Mutable r i) : data i = 0 := by
  rw [copyAndZeroMutableExtensions, Option.ite_none_left_eq_some] at hdata
  obtain ⟨-, hdata⟩ := hdata
  obtain rfl := Option.some.inj hdata
  obtain ⟨e, he, hin⟩ := h
  exact foldl_zero_inside ⟨_, List.mem_map_of_mem he, hin⟩

theorem copyAndZero_outside {r : RtpPacketReceived}
    (hdata : r.copyAndZeroMutableExtensions = some data) (h : ¬ Mutable r i) :
    data i = r.buffer.getD i 0 := by
  rw [copyAndZeroMutableExtensions, Option.ite_none_left_eq_some] at hdata
  obtain ⟨-, hdata⟩ := hdata
  obtain rfl := Option.some.inj hdata
  refine foldl_zero_outside fun range hrange hin => ?_
  obtain ⟨e, he, rfl⟩ := List.mem_map.mp hrange
  exact h ⟨e, he, hin⟩

/-- Only bytes of the extension itself are set to zero. -/
theorem inside_entry {r : RtpPacketReceived} (hfull : FullTiming r) {e : ExtensionInfo}
    (he : e ∈ r.extensionEntries) (hin : Inside i (r.mutableBytes e)) :
    e.offset.toNat ≤ i ∧ i < e.offset.toNat + e.length.toNat := by
  rw [mutableBytes] at hin
  split at hin
  · next htype =>
    have hlength := hfull e he htype
    have hin : e.offset.toNat + 7 ≤ i ∧ i < e.offset.toNat + 7 + 6 := hin
    omega
  · exact hin
  · exact hin
  · exact hin
  · exact hin
  · cases hin

theorem Mutable.within {r : RtpPacketReceived} {start stop : Nat}
    (hentries : Entries start stop r.extensionEntries) (hfull : FullTiming r) (h : Mutable r i) :
    start ≤ i ∧ i < stop := by
  obtain ⟨e, he, hin⟩ := h
  obtain ⟨hstart, hstop⟩ := inside_entry hfull he hin
  have hends := hentries.ends e he
  rcases hentries.starts e he with hnone | hstarts
  · rw [hnone] at hstop
    exact absurd hstart (Nat.not_le_of_lt hstop)
  · omega

theorem extensionType_of_received {extensions : ExtensionManager} {bytes : List UInt8}
    {r : RtpPacketReceived} (hreceived : received extensions bytes = some r) :
    r.extensionType = extensions.getType := by
  obtain ⟨h, -, rfl⟩ := Option.map_eq_some_iff.mp hreceived
  rfl

/-- A packet with a transport sequence number of two bytes. -/
def numbered (high low : UInt8) : List UInt8 :=
  [0x90, 96, 0, 1, 0, 0, 0, 0, 0, 0, 0, 1, 0xbe, 0xde, 0, 1, 0x11, high, low, 0, 5]

/-- The transport sequence number is extension 1. -/
def numberedExtensions : ExtensionManager where
  ids
    | .transportSequenceNumber => 1
    | _ => 0
  extmapAllowMixed := false

def numberedParsed : RtpPacket.Parsed where
  marker := false
  payloadType := 96
  sequenceNumber := 1
  timestamp := 0
  ssrc := 1
  payloadOffset := 20
  payloadSize := 1
  paddingSize := 0
  extensionEntries := [⟨1, 2, 17⟩]
  extensionsSize := 3

theorem received_numbered {high low : UInt8}
    (hparse : (RtpPacket.parseBuffer (RtpPacket.ofBytes (numbered high low))).value =
      some numberedParsed) :
    ∃ r, received numberedExtensions (numbered high low) = some r ∧
      RtpPacket.Receives (numbered high low) numberedParsed r ∧ FullTiming r ∧
      ∀ i, Mutable r i ↔ 17 ≤ i ∧ i < 19 := by
  have hreceives : ∃ r, received numberedExtensions (numbered high low) = some r ∧
      RtpPacket.Receives (numbered high low) numberedParsed r :=
    RtpPacket.receives_of_parse hparse
  obtain ⟨r, hreceived, hr⟩ := hreceives
  have htype : r.extensionType 1 = .transportSequenceNumber := by
    rw [extensionType_of_received hreceived]
    rfl
  have hentries : r.extensionEntries = [⟨1, 2, 17⟩] := hr.extensionEntries
  refine ⟨r, hreceived, hr, ?_, fun i => ?_⟩
  · intro e he htiming
    rw [hentries] at he
    obtain rfl := List.mem_singleton.mp he
    exact RTPExtensionType.noConfusion (htype.symm.trans htiming)
  · rw [Mutable, hentries]
    simp only [List.mem_singleton, exists_eq_left, mutableBytes, htype]
    exact Iff.rfl

/-- A media packet that is received is stored as it came but for the mutable extensions, which lie
behind the fixed header and before the payload and are set to zero. -/
theorem stored_as_received (extensions : ExtensionManager) (bytes : List UInt8)
    (r : RtpPacketReceived) (hreceived : received extensions bytes = some r)
    (hfull : FullTiming r) :
    (r.copyAndZeroMutableExtensions = none ↔ IP_PACKET_SIZE < bytes.length) ∧
    ∀ data, r.copyAndZeroMutableExtensions = some data → ∀ i,
      (Mutable r i → data i = 0 ∧ kFixedHeaderSize + 4 ≤ i ∧ i < r.payloadOffset) ∧
      (¬ Mutable r i → data i = bytes.getD i 0) := by
  obtain ⟨-, -, -, hentries⟩ := (received_wellFormed extensions bytes).2 r hreceived
  obtain ⟨h, -, hr⟩ := RtpPacket.parse_of_received hreceived
  rw [← hr.buffer]
  refine ⟨?_, fun data hdata i => ⟨fun hin => ⟨copyAndZero_inside hdata hin, ?_⟩,
    copyAndZero_outside hdata⟩⟩
  · rw [copyAndZeroMutableExtensions]
    split
    · next hlong => exact iff_of_true rfl hlong
    · next hfits => exact iff_of_false (Option.some_ne_none _) hfits
  · exact hin.within hentries hfull

theorem stored_as_received_numbered :
    ∃ r, received numberedExtensions (numbered 2 3) = some r ∧
      ∃ data, r.copyAndZeroMutableExtensions = some data ∧ data 17 = 0 ∧ data 18 = 0 ∧
        data 20 = 5 := by
  have hparse : (RtpPacket.parseBuffer (RtpPacket.ofBytes (numbered 2 3))).value =
      some numberedParsed := by rfl
  obtain ⟨r, hreceived, -, hfull, hmutable⟩ := received_numbered hparse
  have hstored := stored_as_received numberedExtensions (numbered 2 3) r hreceived hfull
  obtain ⟨data, hdata⟩ := Option.ne_none_iff_exists'.mp (mt hstored.1.mp (by decide))
  refine ⟨r, hreceived, data, hdata, ?_, ?_, ?_⟩
  · exact ((hstored.2 data hdata 17).1 ((hmutable 17).mpr (by decide))).1
  · exact ((hstored.2 data hdata 18).1 ((hmutable 18).mpr (by decide))).1
  · exact (hstored.2 data hdata 20).2 (mt (hmutable 20).mp (by decide))

def timingExtensions : ExtensionManager where
  ids
    | .videoTiming => 1
    | _ => 0
  extmapAllowMixed := false

/-- Behind a video timing entry of one byte the zeros reach into the payload. -/
example : ((received timingExtensions
      [0x90, 96, 0, 1, 0, 0, 0, 0, 0, 0, 0, 1, 0xbe, 0xde, 0, 1, 0x10, 9, 0, 0, 1, 2, 3, 4, 5,
        6]).bind copyAndZeroMutableExtensions).map (fun data => (data 23, data 24)) =
    some (4, 0) := by rfl

/-! ### What is filled in on the way -/

/-- The second packet is the first one with other bytes in the mutable extensions. -/
structure Alike (r r' : RtpPacketReceived) : Prop where
  payloadType : r'.payloadType = r.payloadType
  sequenceNumber : r'.sequenceNumber = r.sequenceNumber
  ssrc : r'.ssrc = r.ssrc
  payloadOffset : r'.payloadOffset = r.payloadOffset
  payloadSize : r'.payloadSize = r.payloadSize
  paddingSize : r'.paddingSize = r.paddingSize
  extensionEntries : r'.extensionEntries = r.extensionEntries
  extensionType : r'.extensionType = r.extensionType
  recovered : r'.recovered = r.recovered
  full : FullTiming r
  entries : Entries (kFixedHeaderSize + 4) r.payloadOffset r.extensionEntries
  same : ∀ i, ¬ Mutable r i → r'.buffer.getD i 0 = r.buffer.getD i 0

namespace Alike

variable {r r' : RtpPacketReceived}

theorem mutable_iff (h : Alike r r') : Mutable r' i ↔ Mutable r i := by
  simp only [Mutable, mutableBytes, h.extensionEntries, h.extensionType]

theorem length_eq (h : Alike r r') : r'.buffer.length = r.buffer.length := by
  rw [r'.buffer_length, r.buffer_length, h.payloadOffset, h.payloadSize, h.paddingSize]

theorem copyAndZero_eq (h : Alike r r') :
    r'.copyAndZeroMutableExtensions = r.copyAndZeroMutableExtensions := by
  by_cases hlong : IP_PACKET_SIZE < r.buffer.length
  · rw [copyAndZeroMutableExtensions, if_pos (h.length_eq ▸ hlong), copyAndZeroMutableExtensions,
      if_pos hlong]
  · have hdata : ∃ data, r.copyAndZeroMutableExtensions = some data := ⟨_, if_neg hlong⟩
    have hdata' : ∃ data, r'.copyAndZeroMutableExtensions = some data :=
      ⟨_, if_neg (h.length_eq ▸ hlong)⟩
    obtain ⟨data, hdata⟩ := hdata
    obtain ⟨data', hdata'⟩ := hdata'
    rw [hdata, hdata']
    refine congrArg some (funext fun i => ?_)
    by_cases hin : Mutable r i
    · rw [copyAndZero_inside hdata hin, copyAndZero_inside hdata' (h.mutable_iff.mpr hin)]
    · rw [copyAndZero_outside hdata hin, copyAndZero_outside hdata' (mt h.mutable_iff.mp hin),
        h.same i hin]

theorem payload_eq (h : Alike r r') : r'.payload = r.payload := by
  rw [payload, payload, h.payloadOffset, h.payloadSize]
  refine congrArg (List.take r.payloadSize) ?_
  refine List.ext_getElem (by rw [List.length_drop, List.length_drop, h.length_eq]) ?_
  intro i hi hi'
  rw [List.length_drop] at hi hi'
  have hbehind : ¬ Mutable r (r.payloadOffset + i) := fun hin =>
    absurd (hin.within h.entries h.full).2 (by omega)
  have hsame := h.same _ hbehind
  rw [List.getD_eq_getElem?_getD, List.getD_eq_getElem?_getD, List.getElem?_eq_getElem (by omega),
    List.getElem?_eq_getElem (by omega)] at hsame
  rw [List.getElem_drop, List.getElem_drop]
  exact hsame

theorem addReceivedPacket_eq (h : Alike r r') (R : Receiver Packet FecHeader) :
    addReceivedPacket FlexfecReceiver.webrtc R r' =
      addReceivedPacket FlexfecReceiver.webrtc R r := by
  have hfec : FlexfecReceiver.webrtc.ofFec r' = FlexfecReceiver.webrtc.ofFec r :=
    congrArg Packet.ofBytes h.payload_eq
  have hmedia : FlexfecReceiver.webrtc.ofMedia r' = FlexfecReceiver.webrtc.ofMedia r := by
    have hsize : r'.size = r.size := by
      rw [size, size, h.payloadOffset, h.payloadSize, h.paddingSize]
    change r'.copyAndZeroMutableExtensions.map (Packet.mk r'.size) =
      r.copyAndZeroMutableExtensions.map (Packet.mk r.size)
    rw [hsize, h.copyAndZero_eq]
  rw [addReceivedPacket, addReceivedPacket, hfec, hmedia, h.ssrc, h.payloadType, h.payloadSize,
    h.sequenceNumber]

theorem onRtpPacket_eq (h : Alike r r') (list : ListSort) (R : Receiver Packet FecHeader) :
    onRtpPacket FlexfecReceiver.webrtc list R r' =
      onRtpPacket FlexfecReceiver.webrtc list R r := by
  rw [onRtpPacket, onRtpPacket, h.recovered, h.addReceivedPacket_eq]

end Alike

/-- The second datagram is the first one after the pacer has filled in the extensions. -/
def Refilled (extensions : ExtensionManager) (bytes bytes' : List UInt8) : Prop :=
  ∃ r r', received extensions bytes = some r ∧ received extensions bytes' = some r' ∧ Alike r r'

theorem refilled_numbered : Refilled numberedExtensions (numbered 0 0) (numbered 2 3) := by
  have hparse : (RtpPacket.parseBuffer (RtpPacket.ofBytes (numbered 0 0))).value =
      some numberedParsed := by rfl
  have hparse' : (RtpPacket.parseBuffer (RtpPacket.ofBytes (numbered 2 3))).value =
      some numberedParsed := by rfl
  obtain ⟨r, hreceived, hr, hfull, hmutable⟩ := received_numbered hparse
  obtain ⟨r', hreceived', hr', -, -⟩ := received_numbered hparse'
  obtain ⟨-, -, -, hentries⟩ := (received_wellFormed _ _).2 r hreceived
  have hsame : ∀ i < 21, ¬ (17 ≤ i ∧ i < 19) →
      (numbered 2 3).getD i 0 = (numbered 0 0).getD i 0 := by decide
  refine ⟨r, r', hreceived, hreceived', ?_, ?_, ?_, ?_, ?_, ?_, ?_, ?_, ?_, hfull, hentries, ?_⟩
  · rw [hr'.payloadType, hr.payloadType]
  · rw [hr'.sequenceNumber, hr.sequenceNumber]
  · rw [hr'.ssrc, hr.ssrc]
  · rw [hr'.payloadOffset, hr.payloadOffset]
  · rw [hr'.payloadSize, hr.payloadSize]
  · have hlength := r.buffer_length
    have hlength' := r'.buffer_length
    rw [hr.buffer, hr.payloadOffset, hr.payloadSize] at hlength
    rw [hr'.buffer, hr'.payloadOffset, hr'.payloadSize] at hlength'
    exact Nat.add_left_cancel (hlength'.symm.trans hlength)
  · rw [hr'.extensionEntries, hr.extensionEntries]
  · rw [extensionType_of_received hreceived', extensionType_of_received hreceived]
  · rw [hr'.recovered, hr.recovered]
  · intro i hi
    rw [hr'.buffer, hr.buffer]
    by_cases hin : i < 21
    · exact hsame i hin (mt (hmutable i).mpr hi)
    · rw [List.getD_eq_getElem?_getD, List.getD_eq_getElem?_getD,
        List.getElem?_eq_none (Nat.le_of_not_lt hin), List.getElem?_eq_none (Nat.le_of_not_lt hin)]

end FlexfecMutable
