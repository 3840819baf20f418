import TransportDemo.FlexfecIdeal
import TransportDemo.FlexfecReceiver

/-!
# Genuine packets at the receiver

Media and FEC packets of one SSRC arrive in any order, some more than once and
some never. While every step is unambiguous, a build that reads, stores and
combines genuine packets as what they are holds what the ideal decoder holds,
and passes on the bytes of what was sent.
-/

namespace FlexfecRun

open FlexfecDecoder FlexfecParity FlexfecReceiver FlexfecIdeal FlexfecSimulation

variable {ssrc : UInt32} {P Q : Type}

def isFec : Ideal ssrc → Bool
  | .media _ => false
  | .parity _ => true

/-- A media packet has no header extensions, an FEC packet has payload type 113. -/
def Carries (p : RtpPacketReceived) : Ideal ssrc → Prop
  | .media m => p.payloadType ≠ 113 ∧ p.buffer = m.bytes ∧ p.sequenceNumber = m.seqNum ∧
      p.extensionEntries = []
  | .parity d => p.payloadType = 113 ∧ p.payload = d.packet.bytes

/-- A packet that arrives, and what it is. -/
structure Arrival (ssrc : UInt32) where
  ideal : Ideal ssrc
  packet : RtpPacketReceived
  own : packet.ssrc = ssrc
  carries : Carries packet ideal

def Arrival.received (a : Arrival ssrc) : ReceivedPacket (Ideal ssrc) :=
  ⟨ssrc, a.packet.sequenceNumber, isFec a.ideal, a.ideal⟩

/-- An FEC packet is no shorter than the receiver takes it to be. -/
theorem length_packet (d : Parity ssrc) : 20 ≤ d.packet.length := by
  obtain ⟨data, hpacket, -⟩ := packet_data d
  have hlength : d.packet.length = (payloads d).length := congrArg (·.length) hpacket
  have hheader := (payloads_length d).1
  have hsizes := (headerSize_eq d).2
  omega

theorem Arrival.wellFormed (a : Arrival ssrc) : WellFormed a.received := by
  have hcarries := a.carries
  cases hideal : a.ideal with
  | media m =>
    rw [hideal] at hcarries
    simp only [WellFormed, Arrival.received, hideal, isFec]
    exact ⟨trivial, hcarries.2.2.1⟩
  | parity d => simp only [WellFormed, Arrival.received, hideal, isFec]

/-- The ideal decoder and what it has passed on. -/
structure World (ssrc : UInt32) where
  decoder : State (Ideal ssrc) (Parity ssrc)
  passed : List (Ideal ssrc)

section Ideal

variable (list : ListSort) (checksIsFec : Bool)

/-- Packets marked as recovered are not looked at. -/
def step (w : World ssrc) (a : Arrival ssrc) : World ssrc :=
  if a.packet.recovered then w
  else
    let (decoder, out) := processReceivedPacket (ideal list ssrc checksIsFec) w.decoder a.received
    ⟨decoder, w.passed ++ out⟩

def idealRun (arrivals : List (Arrival ssrc)) : World ssrc :=
  StepTrace.run (step list checksIsFec) ⟨⟨[], []⟩, []⟩ arrivals

/-- No number is taken for another packet's in this step. -/
def Clear (w : World ssrc) (a : Arrival ssrc) : Prop :=
  a.packet.recovered = false → Unambiguous (ideal list ssrc checksIsFec) w.decoder a.received

/-- No step of the run mistakes a number. -/
def ClearRun (arrivals : List (Arrival ssrc)) : Prop :=
  ∀ done a, done ++ [a] <+: arrivals → Clear list checksIsFec (idealRun list checksIsFec done) a

end Ideal

/-- Everything the ideal receiver holds or has passed on was sent. -/
structure Sound (sent : Set (Media ssrc)) (w : World ssrc) : Prop where
  inv : Inv sent w.decoder
  passed : ∀ x ∈ w.passed, ∃ m ∈ sent, x = .media m

section Sound

variable {list : ListSort} {checksIsFec : Bool} {sent : Set (Media ssrc)} {w : World ssrc}
  {a : Arrival ssrc}

theorem Sound.start : Sound sent (⟨⟨[], []⟩, []⟩ : World ssrc) where
  inv := Inv.empty
  passed := List.forall_mem_nil _

theorem Sound.step (h : Sound sent w) (hsent : FromSent sent a.received)
    (hclear : Clear list checksIsFec w a) : Sound sent (step list checksIsFec w a) := by
  rw [FlexfecRun.step]
  split
  · exact h
  · next hnew =>
    obtain ⟨hinv, hout⟩ :=
      h.inv.process a.wellFormed hsent (hclear (Bool.eq_false_iff.mpr hnew))
    refine ⟨hinv, fun x hx => ?_⟩
    rcases List.mem_append.mp hx with hx | hx
    · exact h.passed x hx
    · exact hout x hx

/-- Where no number was given twice, none can be mistaken. -/
theorem Sound.clear (h : Sound sent w) (hsent : FromSent sent a.received)
    (hnums : Set.InjOn Media.seqNum sent) : Clear list checksIsFec w a := by
  intro _ m m' hm hm' hnum
  have hinv : Inv sent (settled (ideal list ssrc checksIsFec) w.decoder a.received) :=
    h.inv.settled
  have hprotects {m : Media ssrc}
      (hm : Protects (settled (ideal list ssrc checksIsFec) w.decoder a.received) a.received m) :
      m ∈ sent := by
    rcases hm with ⟨f, hf, hm⟩ | ⟨d, hd, -, hm⟩
    · exact hinv.covered f hf m hm
    · rw [FromSent, hd] at hsent
      exact hsent m hm
  refine hnums (hprotects hm) ?_ hnum
  rcases hm' with hm' | ⟨r, hr, hpkt⟩ | ⟨hpkt, -⟩
  · exact hprotects hm'
  · obtain ⟨m'', hsent'', hpkt'', -⟩ := hinv.recovered r hr
    obtain rfl := Ideal.media.inj (hpkt.symm.trans hpkt'')
    exact hsent''
  · rw [FromSent, hpkt] at hsent
    exact hsent

theorem clearRun_of_injOn {arrivals : List (Arrival ssrc)}
    (hsent : ∀ a ∈ arrivals, FromSent sent a.received) (hnums : Set.InjOn Media.seqNum sent) :
    ClearRun list checksIsFec arrivals := by
  have hsound : ∀ done, done <+: arrivals → Sound sent (idealRun list checksIsFec done) := by
    intro done hd
    induction done using List.reverseRecOn with
    | nil => exact Sound.start
    | append_singleton done a ih =>
      have hdone := ih ((List.prefix_append done [a]).trans hd)
      have ha := hsent a (hd.subset (List.mem_append_right _ List.mem_cons_self))
      rw [idealRun, StepTrace.run_concat]
      exact hdone.step ha (hdone.clear ha hnums)
  intro done a hd
  have ha := hsent a (hd.subset (List.mem_append_right _ List.mem_cons_self))
  exact (hsound done ((List.prefix_append done [a]).trans hd)).clear ha hnums

end Sound

/-- How a build stores genuine packets, and that it treats them as what they are. -/
structure Represents (b : Build P Q) (list : ListSort) (ssrc : UInt32) where
  onMedia : Media ssrc → P
  onParity : Parity ssrc → P
  onHeader : Parity ssrc → Q
  protectedMediaSsrc : (b.code list ssrc).protectedMediaSsrc = ssrc
  list_eq : (b.code list ssrc).list = list
  readFecHeader : ∀ d, (b.code list ssrc).readFecHeader (onParity d) = some (onHeader d)
  protectedSsrc : ∀ d, (b.code list ssrc).protectedSsrc (onHeader d) = ssrc
  maskSeqNums : ∀ d, (b.code list ssrc).maskSeqNums (onHeader d) =
    some (d.protectedMedia.map Media.seqNum)
  recoverPacket : ∀ {d : Parity ssrc} {before after m}, d.protectedMedia = before ++ m :: after →
    (b.code list ssrc).recoverPacket (onHeader d)
      (before.map (fun m => ⟨m.seqNum, some (onMedia m)⟩) ++ ⟨m.seqNum, none⟩ ::
        after.map fun m => ⟨m.seqNum, some (onMedia m)⟩) =
      some ⟨ssrc, m.seqNum, false, onMedia m⟩
  ofFec : ∀ {p : RtpPacketReceived} {d : Parity ssrc}, Carries p (.parity d) →
    b.ofFec p = onParity d
  ofMedia : ∀ {p : RtpPacketReceived} {m : Media ssrc}, Carries p (.media m) →
    b.ofMedia p = some (onMedia m)
  bytes : ∀ m, b.bytes (onMedia m) = m.bytes

namespace Represents

variable {b : Build P Q} {list : ListSort} (rep : Represents b list ssrc)

def onPacket : Ideal ssrc → P
  | .media m => rep.onMedia m
  | .parity d => rep.onParity d

def checks (_ : Represents b list ssrc) : Bool := (b.code list ssrc).checksIsFec

/-- The build's decoder as the image of the ideal one. -/
def sim : Simulation (ideal list ssrc rep.checks) (b.code list ssrc) where
  onSsrc := id
  onPacket := rep.onPacket
  onHeader := rep.onHeader
  Ready := Ready
  onSsrc_injective := Function.injective_id
  onSsrc_apart := .inr rfl
  protectedMediaSsrc := rep.protectedMediaSsrc
  checksIsFec := rfl
  list := rep.list_eq
  protectedSsrc := rep.protectedSsrc
  maskSeqNums := rep.maskSeqNums

theorem sim_recovers : rep.sim.Recovers where
  subset h hsub := h.subset hsub
  update h hf hmissing hr := h.update (h.recovered hf hmissing hr).2
  alike {fecs f} h hf hmissing := by
    obtain ⟨before, m, after, hms, hslots, hrecover⟩ := recoverPacket_spec (h.own f hf) hmissing
    have hknown (ms : List (Media ssrc)) : (ms.map known).map rep.sim.slot =
        ms.map fun m => ⟨m.seqNum, some (rep.onMedia m)⟩ := by
      rw [List.map_map]
      rfl
    have hideal : (ideal list ssrc rep.checks).recoverPacket f.header f.protectedPackets =
        some ⟨ssrc, m.seqNum, false, .media m⟩ := hrecover
    rw [hideal, hslots, List.map_append, List.map_cons, hknown, hknown]
    exact rep.recoverPacket hms

theorem sim_reads (x : ReceivedPacket (Ideal ssrc)) (h : x.isFec = isFec x.pkt) :
    rep.sim.Reads x := by
  intro hfec
  cases hpkt : x.pkt with
  | media m =>
    rw [h, hpkt] at hfec
    cases hfec
  | parity d => exact rep.readFecHeader d

/-- The receiver takes an arriving packet for what it is. -/
theorem add_received (a : Arrival ssrc) {r : Receiver P Q} (hssrc : r.ssrc = ssrc)
    (hprotected : r.protectedMediaSsrc = ssrc) :
    addReceivedPacket b r a.packet = .received (rep.sim.received a.received) := by
  have hown := a.own
  have hcarries := a.carries
  cases hideal : a.ideal with
  | media m =>
    rw [hideal] at hcarries
    rw [addReceivedPacket_media hcarries.1 (hown.trans hprotected.symm), rep.ofMedia hcarries,
      hprotected]
    simp only [Simulation.received, Arrival.received, hideal, isFec]
    rfl
  | parity d =>
    rw [hideal] at hcarries
    have hfec := rep.ofFec hcarries
    obtain ⟨htype, hpayload⟩ := hcarries
    have hsize : a.packet.payloadSize = d.packet.length := by
      have hlength := congrArg List.length hpayload
      have hbuffer := a.packet.buffer_length
      simp only [RtpPacketReceived.payload, FlexfecPacket.Packet.bytes, List.length_take,
        List.length_drop, List.length_map, List.length_range] at hlength
      omega
    have hlong : ¬ a.packet.payloadSize < kMinFlexfecHeaderSize := by
      have hheader := length_packet d
      simp only [kMinFlexfecHeaderSize]
      omega
    rw [addReceivedPacket_fec (hown.trans hssrc.symm) htype, if_neg hlong, hfec, hssrc]
    simp only [Simulation.received, Arrival.received, hideal, isFec]
    rfl

/-- What the receiver holds and has passed on when the ideal one is at `w`. -/
def image (w : World ssrc) : Receiver P Q :=
  ⟨ssrc, ssrc, rep.sim.state w.decoder, w.passed.map fun x => b.bytes (rep.onPacket x), false⟩

variable {sent : Set (Media ssrc)} {w : World ssrc} {a : Arrival ssrc}

/-- One packet takes the receiver where it takes the ideal one. -/
theorem onRtpPacket_image (h : Sound sent w) (hsent : FromSent sent a.received)
    (hclear : Clear list rep.checks w a) :
    onRtpPacket b list (rep.image w) a.packet = rep.image (FlexfecRun.step list rep.checks w a) := by
  rw [onRtpPacket, FlexfecRun.step, if_neg (show ¬ (rep.image w).aborted = true by simp [image])]
  split
  · rfl
  · next hnew =>
    have hready : Ready (insertPacket (ideal list ssrc rep.checks)
        (resetOnGap (ideal list ssrc rep.checks) w.decoder a.received)
        a.received).receivedFecPackets :=
      (h.inv.insert a.wellFormed hsent (hclear (Bool.eq_false_iff.mpr hnew))).ready
    have hprocess := rep.sim.processReceivedPacket_map rep.sim_recovers w.decoder a.received
      (rep.sim_reads a.received rfl) hready
    have hadd := rep.add_received a (r := rep.image w) rfl rfl
    simp only [hadd, process]
    rw [show (rep.image w).protectedMediaSsrc = ssrc from rfl,
      show (rep.image w).decoder = rep.sim.state w.decoder from rfl, hprocess]
    cases processReceivedPacket (ideal list ssrc rep.checks) w.decoder a.received with
    | mk decoder out =>
      simp only [image, Prod.map_apply, List.map_append, List.map_map]
      rfl

/-- In a run without a mistaken number the receiver holds the image of what the ideal one holds,
all of which was sent. -/
theorem run_image {arrivals : List (Arrival ssrc)}
    (hsent : ∀ a ∈ arrivals, FromSent sent a.received)
    (hclear : ClearRun list rep.checks arrivals) :
    FlexfecReceiver.run b list (create ssrc ssrc) (arrivals.map (·.packet)) =
        rep.image (idealRun list rep.checks arrivals) ∧
      Sound sent (idealRun list rep.checks arrivals) := by
  rw [FlexfecReceiver.run, StepTrace.run, List.foldl_map]
  refine StepTrace.run_rel
    (R := fun r w => r = rep.image w ∧ Sound sent w)
    (C := fun w a => FromSent sent a.received ∧ Clear list rep.checks w a) ?_ ?_ arrivals ?_
  · exact ⟨rfl, Sound.start⟩
  · rintro r w a ⟨rfl, hsound⟩ ⟨hfrom, hstep⟩
    exact ⟨rep.onRtpPacket_image hsound hfrom hstep, hsound.step hfrom hstep⟩
  · intro done a hd
    have ha : a ∈ arrivals := hd.subset (List.mem_append_right _ List.mem_cons_self)
    exact ⟨hsent a ha, hclear done a hd⟩

/-- What such a run passes on was sent, byte for byte. -/
theorem passed_sent {arrivals : List (Arrival ssrc)}
    (hsent : ∀ a ∈ arrivals, FromSent sent a.received)
    (hclear : ClearRun list rep.checks arrivals) {bytes : List UInt8}
    (hbytes : bytes ∈
      (FlexfecReceiver.run b list (create ssrc ssrc) (arrivals.map (·.packet))).passed) :
    ∃ m ∈ sent, bytes = m.bytes := by
  obtain ⟨hrun, hsound⟩ := rep.run_image hsent hclear
  rw [hrun] at hbytes
  obtain ⟨x, hx, rfl⟩ := List.mem_map.mp hbytes
  obtain ⟨m, hm, rfl⟩ := hsound.passed x hx
  exact ⟨m, hm, rep.bytes m⟩

end Represents

end FlexfecRun
