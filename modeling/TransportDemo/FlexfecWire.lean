import TransportDemo.FlexfecSender

/-!
# From the sender to the receiver

What the sender puts on the wire is parsed at the other end into what the
receiver expects. Media packets and the FEC packets for them travel as
datagrams, in one stream, told apart by their payload type; whatever single
media packet is lost, the receiver hands it on as it was sent. Over a whole
run FEC packets are numbered one after the other, none left out or sent twice.
-/

namespace FlexfecWire

open ByteBuffer RtpPacket FlexfecSender FlexfecDecoder FlexfecParity FlexfecStream FlexfecSession
  FlexfecSearch
open FlexfecGenerator (UlpfecGenerator FecProtectionParams Buffered)
open FlexfecRun (Arrival Carries)
open FlexfecReceiver (RtpPacketReceived)

/-! ### Runs of the sender -/

inductive Call where
  | setFecParameters (params : FecProtectionParams)
  | addRtpPacketAndGenerateFec (p : Buffered)
  | getFecPackets (clock : Nat → Nat) (memory : Nat → Nat → UInt8)

def step (s : Sender) : Call → Option Sender
  | .setFecParameters params => some (setFecParameters s params)
  | .addRtpPacketAndGenerateFec p => (addRtpPacketAndGenerateFec s p).map Prod.snd
  | .getFecPackets clock memory => (getFecPackets s clock memory).map Prod.snd

def run (s : Sender) (calls : List Call) : Option Sender := StepTrace.runOption step s calls

/-- What the generator sees of a call. -/
def Call.toGenerator : Call → FlexfecGenerator.Call
  | .setFecParameters params => .setFecParameters params
  | .addRtpPacketAndGenerateFec p => .addRtpPacketAndGenerateFec p
  | .getFecPackets _ _ => .getFecPackets

/-- The stream is the same. -/
structure SameStream (s s' : Sender) : Prop where
  payloadType : s'.payloadType = s.payloadType
  ssrc : s'.ssrc = s.ssrc
  extensions : s'.extensions = s.extensions

theorem SameStream.trans {s s' s'' : Sender} (h : SameStream s s') (h' : SameStream s' s'') :
    SameStream s s'' :=
  ⟨h'.payloadType.trans h.payloadType, h'.ssrc.trans h.ssrc, h'.extensions.trans h.extensions⟩

theorem step_generator {s s' : Sender} {c : Call} (hstep : step s c = some s') :
    FlexfecGenerator.step s.ulpfecGenerator c.toGenerator = some s'.ulpfecGenerator ∧
      SameStream s s' := by
  cases c with
  | setFecParameters params =>
    obtain rfl := Option.some.inj hstep
    exact ⟨rfl, rfl, rfl, rfl⟩
  | addRtpPacketAndGenerateFec p =>
    obtain ⟨⟨done, s₁⟩, hadd, rfl⟩ := Option.map_eq_some_iff.mp hstep
    rw [addRtpPacketAndGenerateFec, Option.ite_none_left_eq_some] at hadd
    obtain ⟨⟨ret, g⟩, hg, hs⟩ := Option.map_eq_some_iff.mp hadd.2
    obtain ⟨-, rfl⟩ := Prod.mk.inj hs
    refine ⟨?_, rfl, rfl, rfl⟩
    rw [Call.toGenerator, FlexfecGenerator.step, hg]
    rfl
  | getFecPackets clock memory =>
    obtain ⟨⟨packets, s₁⟩, hget, rfl⟩ := Option.map_eq_some_iff.mp hstep
    obtain ⟨⟨packets', s₂⟩, hsend, hs⟩ := Option.map_eq_some_iff.mp hget
    obtain ⟨-, rfl⟩ := Prod.mk.inj hs
    obtain ⟨rfl, -⟩ := packetsToSend_sends hsend
    exact ⟨rfl, rfl, rfl, rfl⟩

theorem run_generator {s s' : Sender} (hcreate : s.ulpfecGenerator = UlpfecGenerator.create)
    (calls : List Call) (hrun : run s calls = some s') :
    FlexfecGenerator.run (calls.map Call.toGenerator) = some s'.ulpfecGenerator ∧
      SameStream s s' := by
  induction calls using List.reverseRecOn generalizing s' with
  | nil =>
    obtain rfl := Option.some.inj hrun
    exact ⟨congrArg some hcreate.symm, rfl, rfl, rfl⟩
  | append_singleton calls c ih =>
    rw [run, StepTrace.runOption_concat] at hrun
    obtain ⟨s₁, hrun₁, hstep⟩ := Option.bind_eq_some_iff.mp hrun
    obtain ⟨hgenerator, hsame⟩ := ih hrun₁
    obtain ⟨hstep, hsame'⟩ := step_generator hstep
    refine ⟨?_, hsame.trans hsame'⟩
    rw [List.map_append, List.map_singleton, FlexfecGenerator.run, StepTrace.runOption_concat]
    rw [FlexfecGenerator.run] at hgenerator
    rw [hgenerator, Option.bind_some, hstep]

/-! ### Datagrams -/

variable {ssrc : UInt32} {extensions : ExtensionManager}

theorem payload_eq (r : RtpPacketReceived) :
    r.payload = bytesAt (ofBytes r.buffer).byte r.payloadOffset r.payloadSize := by
  have hlength := r.buffer_length
  refine List.ext_getElem ?_ fun i hi hi' => ?_
  · simp [RtpPacketReceived.payload, bytesAt]
    omega
  · simp only [RtpPacketReceived.payload, List.getElem_take, List.getElem_drop, bytesAt,
      List.getElem_map, List.getElem_range]
    exact (List.getD_eq_getElem _ _ _).symm

/-- The packet is parsed into what it was made of. -/
structure ReceivesFec (s : Sender) (fec : FlexfecPacket.Packet) (r : RtpPacketReceived) : Prop where
  payloadType : r.payloadType = s.payloadType
  sequenceNumber : r.sequenceNumber = s.seqNum
  ssrc : r.ssrc = s.ssrc
  payload : r.payload = fec.bytes
  recovered : r.recovered = false

theorem received_of_sends {s : Sender} {fec : FlexfecPacket.Packet}
    {q : Packet kDefaultPacketSize} (h : Sends s fec q) :
    ∃ r, received extensions q.data = some r ∧ ReceivesFec s fec r := by
  obtain ⟨extensionsSize, hparse, hcontent⟩ := parse_data h.wire capacity_le
  have hreceives : ∃ r, received extensions q.data = some r ∧ Receives q.data _ r :=
    receives_of_parse hparse
  obtain ⟨r, hreceived, hr⟩ := hreceives
  refine ⟨r, hreceived, ?_, ?_, ?_, ?_, hr.recovered⟩
  · rw [hr.payloadType, ← h.payloadType]
    rfl
  · rw [hr.sequenceNumber, ← h.sequenceNumber]
    rfl
  · rw [hr.ssrc, ← h.ssrc]
    rfl
  · rw [payload_eq, hr.buffer, hr.payloadOffset, hr.payloadSize, ← h.payload, ← hcontent]
    rfl

/-- An FEC packet arrives as it was sent. -/
theorem arrival_of_sends {s : Sender} {d : Parity ssrc} {q : Packet kDefaultPacketSize}
    (h : Sends s d.packet q) (htype : s.payloadType = 113) (hssrc : s.ssrc = ssrc) :
    ∃ a : Arrival ssrc, received extensions q.data = some a.packet ∧ a.ideal = .parity d ∧
      a.packet.recovered = false ∧ a.packet.sequenceNumber = s.seqNum := by
  have hreceives : ∃ r, received extensions q.data = some r ∧ ReceivesFec s d.packet r :=
    received_of_sends h
  obtain ⟨r, hreceived, hr⟩ := hreceives
  exact ⟨⟨.parity d, r, hr.ssrc.trans hssrc, hr.payloadType.trans htype, hr.payload⟩, hreceived,
    rfl, hr.recovered, hr.sequenceNumber⟩

/-- A media packet that the parser takes, without extensions, and that is not taken for an FEC
packet. -/
def Plain (extensions : ExtensionManager) (m : Media ssrc) : Prop :=
  ∃ r, received extensions m.bytes = some r ∧ r.extensionEntries = [] ∧ r.payloadType ≠ 113

theorem arrival_of_media {m : Media ssrc} (h : Plain extensions m) : ∃ a : Arrival ssrc,
    received extensions m.bytes = some a.packet ∧ a.ideal = .media m ∧
      a.packet.recovered = false := by
  obtain ⟨r, hreceived, hentries, htype⟩ := h
  obtain ⟨p, hparse, hr⟩ := parse_of_received hreceived
  obtain ⟨-, hseqNum, hssrc⟩ := parseBuffer_header hparse
  refine ⟨⟨.media m, r, ?_, htype, hr.buffer, ?_, hentries⟩, hreceived, rfl, hr.recovered⟩
  · rw [hr.ssrc, hssrc]
    exact m.own
  · rw [hr.sequenceNumber, hseqNum]
    rfl

/-! ### What arrives -/

section Arrive

variable {block : List (Media ssrc)} {parities : List (Parity ssrc)} {first : UInt16} {s : Sender}
  {packets : List (Packet kDefaultPacketSize)} {datagrams : List (List UInt8)}

/-- The FEC packets are sent one after the other. -/
structure SentAll (s : Sender) (parities : List (Parity ssrc))
    (packets : List (Packet kDefaultPacketSize)) : Prop where
  payloadType : s.payloadType = 113
  ssrc_eq : s.ssrc = ssrc
  length : packets.length = parities.length
  few : parities.length ≤ 48
  sends : ∀ j (hj : j < packets.length) (hj' : j < parities.length),
    Sends { s with seqNum := s.seqNum + UInt16.ofNat j } parities[j].packet packets[j]

/-- The packet that a datagram is received as, and what it stands for. -/
structure Stands (extensions : ExtensionManager) (block : List (Media ssrc))
    (parities : List (Parity ssrc)) (packets : List (Packet kDefaultPacketSize)) (first : UInt16)
    (x : List UInt8) (a : Arrival ssrc) : Prop where
  received : received extensions x = some a.packet
  recovered : a.packet.recovered = false
  which : (∃ m ∈ block, x = m.bytes ∧ a.ideal = .media m) ∨
    ∃ j d q, parities[j]? = some d ∧ packets[j]? = some q ∧ x = q.data ∧ a.ideal = .parity d ∧
      a.packet.sequenceNumber = first + UInt16.ofNat j

theorem exists_stands (hsent : SentAll s parities packets) (hplain : ∀ m ∈ block, Plain extensions m)
    {x : List UInt8} (hx : x ∈ block.map Media.bytes ∨ x ∈ packets.map Packet.data) :
    ∃ a, Stands extensions block parities packets s.seqNum x a := by
  rcases hx with hx | hx
  · obtain ⟨m, hm, rfl⟩ := List.mem_map.mp hx
    obtain ⟨a, hreceived, hideal, hrecovered⟩ := arrival_of_media (hplain m hm)
    exact ⟨a, hreceived, hrecovered, .inl ⟨m, hm, rfl, hideal⟩⟩
  · obtain ⟨q, hq, rfl⟩ := List.mem_map.mp hx
    obtain ⟨j, hj, rfl⟩ := List.getElem_of_mem hq
    have hj' : j < parities.length := hsent.length ▸ hj
    obtain ⟨a, hreceived, hideal, hrecovered, hnum⟩ :=
      @arrival_of_sends _ extensions _ _ _ (hsent.sends j hj hj') hsent.payloadType hsent.ssrc_eq
    exact ⟨a, hreceived, hrecovered, .inr ⟨j, _, _, List.getElem?_eq_getElem hj',
      List.getElem?_eq_getElem hj, rfl, hideal, hnum⟩⟩

theorem exists_arrivals (hstands : ∀ x ∈ datagrams,
      ∃ a, Stands extensions block parities packets first x a) :
    ∃ arrivals, List.Forall₂ (Stands extensions block parities packets first) datagrams
      arrivals := by
  induction datagrams with
  | nil => exact ⟨[], .nil⟩
  | cons x rest ih =>
    obtain ⟨hx, hrest⟩ := List.forall_mem_cons.mp hstands
    obtain ⟨a, ha⟩ := hx
    obtain ⟨arrivals, hall⟩ := ih hrest
    exact ⟨a :: arrivals, .cons ha hall⟩

variable {arrivals : List (Arrival ssrc)}

theorem filterMap_received
    (h : List.Forall₂ (Stands extensions block parities packets first) datagrams arrivals) :
    datagrams.filterMap (RtpPacket.received extensions) = arrivals.map (·.packet) := by
  induction h with
  | nil => rfl
  | cons ha _ ih => rw [List.filterMap_cons_some ha.received, ih, List.map_cons]

theorem stands_right
    (h : List.Forall₂ (Stands extensions block parities packets first) datagrams arrivals)
    {a : Arrival ssrc} (ha : a ∈ arrivals) :
    ∃ x ∈ datagrams, Stands extensions block parities packets first x a :=
  FlexfecBlock.exists_left h ha

theorem stands_left
    (h : List.Forall₂ (Stands extensions block parities packets first) datagrams arrivals)
    {x : List UInt8} (hx : x ∈ datagrams) :
    ∃ a ∈ arrivals, Stands extensions block parities packets first x a :=
  FlexfecBlock.exists_left h.flip hx

/-- The media packets that arrive. -/
def Arrived (block : List (Media ssrc)) (datagrams : List (List UInt8)) : Set (Media ssrc) :=
  {m | m ∈ block ∧ m.bytes ∈ datagrams}

/-- The FEC packets that arrive. -/
def ArrivedFec (parities : List (Parity ssrc)) (packets : List (Packet kDefaultPacketSize))
    (datagrams : List (List UInt8)) : Set (Parity ssrc) :=
  {d | ∃ (j : Nat) (q : Packet kDefaultPacketSize),
    parities[j]? = some d ∧ packets[j]? = some q ∧ q.data ∈ datagrams}

theorem mediaOf_eq (hplain : ∀ m ∈ block, Plain extensions m)
    (h : List.Forall₂ (Stands extensions block parities packets first) datagrams arrivals) :
    mediaOf arrivals = Arrived block datagrams := by
  ext m
  constructor
  · rintro ⟨a, ha, -, hideal⟩
    obtain ⟨x, hx, hstands⟩ := stands_right h ha
    rcases hstands.which with ⟨m', hm', rfl, hideal'⟩ | ⟨j, d, q, -, -, -, hideal', -⟩
    · obtain rfl : m = m' := by simpa using hideal.symm.trans hideal'
      exact ⟨hm', hx⟩
    · cases hideal.symm.trans hideal'
  · rintro ⟨hm, hx⟩
    obtain ⟨a, ha, hstands⟩ := stands_left h hx
    refine ⟨a, ha, hstands.recovered, ?_⟩
    rcases hstands.which with ⟨m', -, hbytes, hideal⟩ | ⟨j, d, q, -, -, -, hideal, -⟩
    · rw [hideal, Media.ext hbytes]
    · obtain ⟨r, hreceived, -, htype⟩ := hplain m hm
      obtain rfl := Option.some.inj (hreceived.symm.trans hstands.received)
      have hcarries := a.carries
      rw [hideal] at hcarries
      exact absurd hcarries.1 htype

theorem parityOf_eq (hsent : SentAll s parities packets)
    (h : List.Forall₂ (Stands extensions block parities packets s.seqNum) datagrams arrivals) :
    parityOf arrivals = ArrivedFec parities packets datagrams := by
  ext d
  constructor
  · rintro ⟨a, ha, -, hideal⟩
    obtain ⟨x, hx, hstands⟩ := stands_right h ha
    rcases hstands.which with ⟨m, -, -, hideal'⟩ | ⟨j, d', q, hd, hq, rfl, hideal', -⟩
    · cases hideal.symm.trans hideal'
    · obtain rfl : d = d' := by simpa using hideal.symm.trans hideal'
      exact ⟨j, q, hd, hq, hx⟩
  · rintro ⟨j, q, hd, hq, hx⟩
    obtain ⟨a, ha, hstands⟩ := stands_left h hx
    refine ⟨a, ha, hstands.recovered, ?_⟩
    obtain ⟨hj', rfl⟩ := List.getElem?_eq_some_iff.mp hd
    obtain ⟨hj, rfl⟩ := List.getElem?_eq_some_iff.mp hq
    obtain ⟨b, hreceived, hideal, -, hnum⟩ :=
      @arrival_of_sends _ extensions _ _ _ (hsent.sends j hj hj') hsent.payloadType hsent.ssrc_eq
    have hsame : a.packet = b.packet := Option.some.inj (hstands.received.symm.trans hreceived)
    rcases hstands.which with ⟨m, -, -, hideal'⟩ | ⟨k, d', q', hd', -, -, hideal', hnum'⟩
    · have hcarries := a.carries
      have hcarries' := b.carries
      rw [hideal'] at hcarries
      rw [hideal] at hcarries'
      exact absurd (hsame ▸ hcarries'.1) hcarries.1
    · obtain ⟨hk, rfl⟩ := List.getElem?_eq_some_iff.mp hd'
      have hfew := hsent.few
      have heq : s.seqNum + UInt16.ofNat k = s.seqNum + UInt16.ofNat j := by
        rw [← hnum', hsame, hnum]
      have hkj : k = j := by
        have hofNat := congrArg UInt16.toNat ((UInt16.add_right_inj _).mp heq)
        rwa [UInt16.toNat_ofNat_of_lt' (show k < 65536 by omega),
          UInt16.toNat_ofNat_of_lt' (show j < 65536 by omega)] at hofNat
      subst hkj
      exact hideal'

end Arrive

/-! ### From end to end -/

/-- An FEC packet fits behind the fixed header of an RTP packet. -/
theorem parity_fits (d : Parity ssrc) :
    kFixedHeaderSize + d.packet.length ≤ kDefaultPacketSize := by
  obtain ⟨data, hpacket, -⟩ := packet_data d
  have hlength : d.packet.length = (payloads d).length := congrArg (·.length) hpacket
  obtain ⟨-, -, hshort⟩ := payloads_length d
  have hsize := (headerSize_eq d).2
  have hheaders : FlexfecPacket.kRtpHeaderSize + FlexfecPacket.kHeaderSizes.2.2 +
      kTransportOverhead = 72 := rfl
  have hmtu : FlexfecPacket.IP_PACKET_SIZE = kDefaultPacketSize := rfl
  rw [hlength, kFixedHeaderSize]
  omega

/-- The receiver's end of a stream of datagrams. -/
def passedOn (list : ListSort) (ssrc : UInt32) (extensions : ExtensionManager)
    (datagrams : List (List UInt8)) : List (List UInt8) :=
  (FlexfecReceiver.run FlexfecReceiver.webrtc list (FlexfecReceiver.create ssrc ssrc)
    (datagrams.filterMap (received extensions))).passed

/-- The FEC packets that the generator made are fetched. -/
theorem getFecPackets_sent {s : Sender} (htype : s.payloadType = 113) (hssrc : s.ssrc = ssrc)
    (hnone : NoExtensions s.extensions) {parities : List (Parity ssrc)}
    (hmade : s.ulpfecGenerator.generatedFecPackets = parities.map Parity.packet)
    (hfew : parities.length ≤ 48) (clock : Nat → Nat) (memory : Nat → Nat → UInt8) :
    ∃ packets s', getFecPackets s clock memory = some (packets, s') ∧
      SentAll s parities packets := by
  have hfits : ∀ fec ∈ parities.map Parity.packet,
      kFixedHeaderSize + fec.length ≤ kDefaultPacketSize := by
    intro fec hfec
    obtain ⟨d, -, rfl⟩ := List.mem_map.mp hfec
    exact parity_fits d
  have hsome : (packetsToSend clock memory s 0 (parities.map Parity.packet)).isSome :=
    packetsToSend_isSome hnone (by rw [htype]; decide) hfits
  obtain ⟨⟨packets, s'⟩, hsend⟩ := Option.isSome_iff_exists.mp hsome
  obtain ⟨-, hlength, hsends⟩ := packetsToSend_sends hsend
  rw [List.length_map] at hlength
  refine ⟨packets, _, by rw [getFecPackets, hmade, hsend]; rfl, htype, hssrc, hlength, hfew, ?_⟩
  intro j hj hj'
  have hsends := hsends j hj (by rwa [List.length_map])
  rwa [List.getElem_map] at hsends

def frameSender : Sender :=
  { payloadType := 113, timestampOffset := 0, ssrc := 1, protectedMediaSsrc := 1, mid := []
    seqNum := 7, ulpfecGenerator := UlpfecGenerator.create, extensions := ⟨fun _ => 0, false⟩ }

def frameSends : List Call :=
  [.setFecParameters ⟨255, 1, .random⟩, .addRtpPacketAndGenerateFec FlexfecGenerator.lastOfFrame]

theorem run_frameSends : ∃ s, run frameSender frameSends = some s ∧
    s.ulpfecGenerator.generatedFecPackets ≠ [] := by
  have hidle : FlexfecGenerator.Idle ⟨255, 1, .random⟩
      (UlpfecGenerator.create.setFecParameters ⟨255, 1, .random⟩) := ⟨rfl, rfl, rfl, rfl, rfl⟩
  have hfits : FlexfecGenerator.lastOfFrame.Fits := ⟨by decide, by decide, by decide⟩
  obtain ⟨g, hadd, -, hlength⟩ := FlexfecGenerator.add_idle hidle hfits
  have hown : ¬ FlexfecEncoder.parseSsrc
        (FlexfecPacket.Packet.ofBytes FlexfecGenerator.lastOfFrame.dataBuffer) ≠
      (setFecParameters frameSender ⟨255, 1, .random⟩).protectedMediaSsrc := by decide
  have hstep : addRtpPacketAndGenerateFec (setFecParameters frameSender ⟨255, 1, .random⟩)
      FlexfecGenerator.lastOfFrame = some (true, { frameSender with ulpfecGenerator := g }) := by
    rw [addRtpPacketAndGenerateFec, if_neg hown]
    exact congrArg (Option.map _) hadd
  refine ⟨{ frameSender with ulpfecGenerator := g }, congrArg (Option.map Prod.snd) hstep, ?_⟩
  intro hnone
  have hlength : g.generatedFecPackets.length = 1 := hlength
  rw [hnone] at hlength
  cases hlength

theorem plain_frame : ∀ m ∈ [frame], Plain frameSender.extensions m := by
  refine List.forall_mem_singleton.mpr ?_
  have hfields : (parseBuffer (ofBytes frame.bytes)).value.map
      (fun h => (h.extensionEntries.length, h.payloadType)) = some (0, 96) := by decide +kernel
  obtain ⟨h, hparse, hh⟩ := Option.map_eq_some_iff.mp hfields
  obtain ⟨hlength, htype⟩ := Prod.mk.inj hh
  have hreceives : ∃ r, received frameSender.extensions frame.bytes = some r ∧
      Receives frame.bytes h r := receives_of_parse hparse
  obtain ⟨r, hreceived, hr⟩ := hreceives
  refine ⟨r, hreceived, ?_, ?_⟩
  · rw [hr.extensionEntries]
    exact List.length_eq_zero_iff.mp hlength
  · rw [hr.payloadType, htype]
    decide

/-- The sender, what was fetched from its generator, and the packets made of it. -/
structure Outcome where
  sender : Sender
  fetched : List FlexfecPacket.Packet
  sent : List (Packet kDefaultPacketSize)

def emit (w : Outcome) (c : Call) : Option Outcome :=
  match c with
  | .getFecPackets clock memory =>
    (getFecPackets w.sender clock memory).map fun result =>
      ⟨result.2, w.fetched ++ w.sender.ulpfecGenerator.generatedFecPackets, w.sent ++ result.1⟩
  | c => (step w.sender c).map fun sender => { w with sender }

theorem emit_sender (w : Outcome) (c : Call) : (emit w c).map Outcome.sender = step w.sender c := by
  cases c with
  | setFecParameters params => rfl
  | addRtpPacketAndGenerateFec p => exact (Option.map_map ..).trans (Option.map_id' ..)
  | getFecPackets clock memory => exact Option.map_map ..

theorem seqNum_add {s s' : Sender} {p : Buffered}
    (hstep : step s (.addRtpPacketAndGenerateFec p) = some s') : s'.seqNum = s.seqNum := by
  obtain ⟨⟨done, s₁⟩, hadd, rfl⟩ := Option.map_eq_some_iff.mp hstep
  rw [addRtpPacketAndGenerateFec, Option.ite_none_left_eq_some] at hadd
  obtain ⟨result, -, hs⟩ := Option.map_eq_some_iff.mp hadd.2
  obtain ⟨-, rfl⟩ := Prod.mk.inj hs
  rfl

/-- Each packet that was fetched was sent once, under the number after the one before it. -/
structure Numbers (s₀ : Sender) (w : Outcome) : Prop where
  stream : SameStream s₀ w.sender
  seqNum : w.sender.seqNum = s₀.seqNum + UInt16.ofNat w.sent.length
  length : w.sent.length = w.fetched.length
  sends : ∀ i (hi : i < w.sent.length) (hi' : i < w.fetched.length),
    Sends { s₀ with seqNum := s₀.seqNum + UInt16.ofNat i } w.fetched[i] w.sent[i]

theorem numbers_start (s₀ : Sender) : Numbers s₀ ⟨s₀, [], []⟩ :=
  ⟨⟨rfl, rfl, rfl⟩, (UInt16.add_zero _).symm, rfl, fun _ hi => absurd hi (Nat.not_lt_zero _)⟩

theorem Numbers.emit {s₀ : Sender} {w w' : Outcome} (h : Numbers s₀ w) {c : Call}
    (hemit : emit w c = some w') : Numbers s₀ w' := by
  cases c with
  | setFecParameters params =>
    obtain rfl := Option.some.inj hemit
    exact ⟨h.stream.trans ⟨rfl, rfl, rfl⟩, h.seqNum, h.length, h.sends⟩
  | addRtpPacketAndGenerateFec p =>
    obtain ⟨s', hstep, rfl⟩ := Option.map_eq_some_iff.mp hemit
    exact ⟨h.stream.trans (step_generator hstep).2, (seqNum_add hstep).trans h.seqNum, h.length,
      h.sends⟩
  | getFecPackets clock memory =>
    obtain ⟨⟨packets, s'⟩, hget, rfl⟩ := Option.map_eq_some_iff.mp hemit
    obtain ⟨⟨packets', s₁⟩, hsend, hs⟩ := Option.map_eq_some_iff.mp hget
    obtain ⟨rfl, rfl⟩ := Prod.mk.inj hs
    obtain ⟨rfl, hlength, hsends⟩ := packetsToSend_sends hsend
    have hnum (j : Nat) : w.sender.seqNum + UInt16.ofNat j =
        s₀.seqNum + UInt16.ofNat (w.sent.length + j) := by
      rw [h.seqNum, UInt16.ofNat_add, UInt16.add_assoc]
    refine ⟨h.stream.trans ⟨rfl, rfl, rfl⟩, ?_, ?_, fun i hi hi' => ?_⟩
    · rw [List.length_append, hlength]
      exact hnum _
    · rw [List.length_append, List.length_append, h.length, hlength]
    · dsimp only at hi hi' ⊢
      by_cases hold : i < w.sent.length
      · rw [List.getElem_append_left hold, List.getElem_append_left (h.length ▸ hold)]
        exact h.sends i hold _
      · -- one of those that were fetched just now
        obtain ⟨j, rfl⟩ := Nat.exists_eq_add_of_le (Nat.le_of_not_lt hold)
        have hj : j < packets'.length := by
          rw [List.length_append] at hi
          omega
        have hj' : j < w.sender.ulpfecGenerator.generatedFecPackets.length := hlength ▸ hj
        have hsends := hsends j hj hj'
        rw [hnum] at hsends
        have hsent : (w.sent ++ packets')[w.sent.length + j] = packets'[j] := by simp
        have hfetched : (w.fetched ++
            w.sender.ulpfecGenerator.generatedFecPackets)[w.sent.length + j] =
              w.sender.ulpfecGenerator.generatedFecPackets[j] := by simp [h.length]
        rw [hsent, hfetched]
        exact ⟨hsends.wire, hsends.marker, hsends.payloadType.trans h.stream.payloadType,
          hsends.sequenceNumber, hsends.ssrc.trans h.stream.ssrc, hsends.payload,
          hsends.paddingSize⟩

/-- In a whole run every FEC packet that is fetched is sent once, under one number after the
other, and what is received is parsed into it. -/
theorem sent_consecutively (extensions : ExtensionManager) (s₀ : Sender) (calls : List Call)
    (w : Outcome) (hrun : StepTrace.runOption emit ⟨s₀, [], []⟩ calls = some w) :
    run s₀ calls = some w.sender ∧ w.sent.length = w.fetched.length ∧
    w.sender.seqNum = s₀.seqNum + UInt16.ofNat w.sent.length ∧
    ∀ i (hi : i < w.sent.length) (hi' : i < w.fetched.length),
      ∃ r, received extensions w.sent[i].data = some r ∧ r.payloadType = s₀.payloadType ∧
        r.ssrc = s₀.ssrc ∧ r.sequenceNumber = s₀.seqNum + UInt16.ofNat i ∧
        r.payload = w.fetched[i].bytes := by
  have hsender := StepTrace.runOption_map emit_sender ⟨s₀, [], []⟩ calls
  rw [hrun, Option.map_some] at hsender
  have h : Numbers s₀ w :=
    StepTrace.runOption_inv (numbers_start s₀) (fun _ _ _ h hemit => h.emit hemit) calls w hrun
  refine ⟨hsender.symm, h.length, h.seqNum, fun i hi hi' => ?_⟩
  have hreceives : ∃ r, received extensions w.sent[i].data = some r ∧
      ReceivesFec { s₀ with seqNum := s₀.seqNum + UInt16.ofNat i } w.fetched[i] r :=
    received_of_sends (h.sends i hi hi')
  obtain ⟨r, hreceived, hr⟩ := hreceives
  exact ⟨r, hreceived, hr.payloadType, hr.ssrc, hr.sequenceNumber, hr.payload⟩

/-- The FEC packet for the frame is fetched and sent under number 7. -/
theorem sent_consecutively_frame : ∃ w,
    StepTrace.runOption emit ⟨frameSender, [], []⟩
      (frameSends ++ [.getFecPackets (fun _ => 0) (fun _ _ => 0xff)]) = some w ∧
    w.fetched ≠ [] ∧ w.sent.length = w.fetched.length ∧
    ∀ i (hi : i < w.sent.length) (hi' : i < w.fetched.length),
      ∃ r, received frameSender.extensions w.sent[i].data = some r ∧ r.payloadType = 113 ∧
        r.ssrc = 1 ∧ r.sequenceNumber = 7 + UInt16.ofNat i ∧ r.payload = w.fetched[i].bytes := by
  obtain ⟨s, hrun, hmade⟩ := run_frameSends
  obtain ⟨hgenerator, hsame⟩ := run_generator rfl frameSends hrun
  obtain ⟨block, h⟩ := waits_run _ gives_frame hgenerator
  obtain ⟨parities, hparities, hprotects⟩ := h.made hmade
  obtain ⟨packets, s', hget, -⟩ := getFecPackets_sent hsame.payloadType hsame.ssrc
    (hsame.extensions ▸ fun _ => rfl) hparities (hprotects.length.trans h.room) (fun _ => 0)
    (fun _ _ => 0xff)
  have hsender := StepTrace.runOption_map emit_sender ⟨frameSender, [], []⟩ frameSends
  obtain ⟨w, hw, rfl⟩ := Option.map_eq_some_iff.mp (hsender.trans hrun)
  have hlast : StepTrace.runOption emit ⟨frameSender, [], []⟩
      (frameSends ++ [.getFecPackets (fun _ => 0) (fun _ _ => 0xff)]) = some
        ⟨s', w.fetched ++ w.sender.ulpfecGenerator.generatedFecPackets, w.sent ++ packets⟩ := by
    rw [StepTrace.runOption_concat, hw, Option.bind_some, emit, hget]
    rfl
  obtain ⟨-, hlength, -, hsent⟩ :=
    sent_consecutively frameSender.extensions frameSender _ _ hlast
  exact ⟨_, hlast, fun hnone => hmade (List.append_eq_nil_iff.mp hnone).2, hlength, hsent⟩

end FlexfecWire
