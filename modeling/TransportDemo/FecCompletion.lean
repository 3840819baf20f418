import TransportDemo.FecBounds
import TransportDemo.FecCollect
import TransportDemo.NackSender

/-!
# Receive completions

A completed receive hands over a buffer, an endpoint, an error code and a
length. Both handlers take the type out of the buffer and act on it; neither
looks at the error code or the length, and whatever type is left over is taken
for media or for a NACK. What a completion changes is therefore a matter of the
bytes that happen to lie in the buffer. The encoder of the sender is left out:
its handler does not use it.
-/

namespace FecCompletion

open ByteBuffer NackGen NackPacket NackRoundTrip StepTrace
open CountedLoop FecField FecGenerator FecDecoder FecBounds
open FecCollect (FEC_K FEC_N)

/-- Address and port. -/
structure UDPEndpoint where
  address : UInt32
  port : UInt16
  deriving DecidableEq

/-- What `async_receive_from` hands to its handler. -/
structure Completion where
  pkt : TESTTPPacket
  endpoint : UDPEndpoint
  ec : Bool
  bytesRecvd : Nat

/-- The type of FEC packets, a bare `13` in the source. -/
def TPYE_FEC : UInt16 := 13

/-! ### The receiver -/

def FEC_SIZE : Nat := 10

/-- `UDPSender` of the receiver of fec-test: that of nack-test with a decoder and the endpoint for
replies. -/
structure Receiver where
  nack : NackReceiver.Receiver
  fecGen : FECGenerator
  sendEp : UDPEndpoint

/-- `UDPSender::UDPSender`: the endpoint is 127.0.0.1:8000. -/
def initial (input output : Nat → Nat → Gf) (timerMs : UInt64) : Option Receiver :=
  (FecGenerator.new input output FEC_K FEC_N FEC_SIZE).map fun fecGen =>
    ⟨NackReceiver.initial timerMs, fecGen, ⟨0x7f000001, 8000⟩⟩

/-- The fields of `TESTFECHeader` where the compiler puts them. -/
def fecHeader (pkt : TESTTPPacket) : TESTFECHeader :=
  ⟨get32 pkt 4, get16 pkt 10, get16 pkt 12, get16 pkt 14, get32 pkt 16, get16 pkt 24⟩

/-- `payload->buf`, up to the end of the receive buffer. -/
def fecPayload (pkt : TESTTPPacket) : List Gf :=
  (List.range (UDP_PACKET_MAX_BYTES - FEC_HEADER_BYTES)).map fun i =>
    ofByte (pkt.byte (FEC_HEADER_BYTES + i))

def toByte (x : Gf) : UInt8 := x

/-- `fec_dencode_callback`: the sequence number is read behind the pointer, whatever the size. -/
def fecDencodeCallback (gen : NackGenerator) (data : List Gf) : NackGenerator :=
  (receivePacket gen (of16 (toByte (data.getD 2 0)) (toByte (data.getD 3 0)))).2

/-- `Decode` with the callbacks it makes: for the packet that arrived the pointer leads into the
receive buffer, for a recovered one into the decoder's. -/
def decodeFec (r : Receiver) (header : TESTFECHeader) (payload : List Gf) : Option Receiver := do
  let (g, arrived) ← arrive (enterGroup r.fecGen header) header payload
  let (g, recovered) ← recover g
  let gen := arrived.foldl (fun gen _ => fecDencodeCallback gen payload) r.nack.nackgen
  let gen := recovered.foldl (fun gen c => fecDencodeCallback gen c.data) gen
  return { r with fecGen := g, nack := { r.nack with nackgen := gen } }

/-- `handle_receive_from` of the receiver at clock reading `recvMs`. -/
def Receiver.handleReceiveFrom (r : Receiver) (c : Completion) (recvMs : UInt64) :
    Option Receiver :=
  let r := { r with sendEp := c.endpoint }
  let pkt := { c.pkt with length := c.bytesRecvd }
  if getType pkt = TPYE_FEC then decodeFec r (fecHeader pkt) (fecPayload pkt)
  else some { r with nack := NackReceiver.handleReceiveFrom r.nack pkt recvMs }

inductive ReceiverEvent where
  | receive (c : Completion) (recvMs : UInt64)
  | tick (t : NackReceiver.Tick)

def Receiver.step (r : Receiver) : ReceiverEvent → Option Receiver
  | .receive c recvMs => r.handleReceiveFrom c recvMs
  | .tick t => (NackReceiver.handleCrudeTimer r.nack t).map fun (_, nack) => { r with nack := nack }

/-! ### The sender -/

structure Sender where
  nack : NackSender.Sender
  sendEp : UDPEndpoint

/-- `UDPSender::UDPSender`: the endpoint is 192.168.26.23:8001. -/
def Sender.initial : Sender := ⟨NackSender.initial, ⟨0xc0a81a17, 8001⟩⟩

/-- `handle_receive_from` of the sender: what it sends, where to, and the state after it. -/
def Sender.handleReceiveFrom (s : Sender) (c : Completion) (fresh : TESTTPPacket) :
    Option (List (TESTTPPacket × UDPEndpoint) × Sender) :=
  (NackSender.handleReceiveFrom s.nack c.pkt fresh).map fun (sent, nack) =>
    (sent.map fun pkt => (pkt, c.endpoint), { s with nack := nack })

inductive SenderEvent where
  | receive (c : Completion) (fresh : TESTTPPacket)
  | tick (nowMs : UInt64) (fresh : TESTTPPacket)

def Sender.step (s : Sender) : SenderEvent → Option Sender
  | .receive c fresh => (s.handleReceiveFrom c fresh).map Prod.snd
  | .tick nowMs fresh =>
    (NackSender.handleCrudeTimer s.nack nowMs fresh).map fun (_, nack) => { s with nack := nack }

/-! ### Bad completions -/

/-- The length of the header that goes with a type. -/
def headerBytes (type : UInt16) : Nat :=
  if type = TPYE_FEC then FEC_HEADER_BYTES else RTCP_HEADER_SIZE_BYTES

/-- The types that the program defines towards the receiver. -/
def receiverTypes : List UInt16 := [TPYE_TRANSPORT_PACKET, TPYE_FEC, TPYE_RTT]

/-- The types that the program defines towards the sender. -/
def senderTypes : List UInt16 := [TPYE_TRANSPORT_INFO, TPYE_RTT]

/-- An error, fewer bytes than the header of the type, or an unknown type. -/
def Bad (types : List UInt16) (c : Completion) : Prop :=
  c.ec = true ∨ c.bytesRecvd < headerBytes (getType c.pkt) ∨ getType c.pkt ∉ types

/-- The completion is handled and changes none of the receiver's state. -/
def Receiver.Untouched (r : Receiver) (c : Completion) (recvMs : UInt64) : Prop :=
  ∃ r', r.handleReceiveFrom c recvMs = some r' ∧
    r'.nack.nackgen.nackList = r.nack.nackgen.nackList ∧
    r'.nack.nackgen.lastSeq = r.nack.nackgen.lastSeq ∧
    r'.fecGen = r.fecGen ∧ r'.nack.rtt = r.nack.rtt ∧
    r'.nack.rttCountMap = r.nack.rttCountMap ∧ r'.sendEp = r.sendEp

/-- The completion is handled, changes none of the sender's state and has no data packet sent. -/
def Sender.Untouched (s : Sender) (c : Completion) (fresh : TESTTPPacket) : Prop :=
  ∃ sent s', s.handleReceiveFrom c fresh = some (sent, s') ∧
    s'.nack.pktMap = s.nack.pktMap ∧ s'.sendEp = s.sendEp ∧
    ∀ p ∈ sent, getType p.1 ≠ TPYE_TRANSPORT_PACKET

/-- The bytes in the buffer read as an echo nobody waits for, as a FEC packet that is already
there, or as media that is neither new nor missing; and they come from the peer. -/
def Receiver.Spared (r : Receiver) (c : Completion) : Prop :=
  c.endpoint = r.sendEp ∧
  if getType c.pkt = TPYE_RTT then r.nack.rttCountMap (getRttNum c.pkt).toUInt16 = none
  else if getType c.pkt = TPYE_FEC then
    (fecHeader c.pkt).fecGroupId = r.fecGen.lastGroupId ∧
      int16 (fecHeader c.pkt).lastPacketSize.toNat = r.fecGen.lastPacketSize ∧
      (fecHeader c.pkt).fecIndex.toNat < kMaxN ∧
      r.fecGen.usedMarks (fecHeader c.pkt).fecIndex.toNat = true
  else getSequence c.pkt = r.nack.nackgen.lastSeq ∨
    r.nack.nackgen.started = true ∧
      seqLowerThan (getSequence c.pkt) r.nack.nackgen.lastSeq = true ∧
      r.nack.nackgen.nackList.find (getSequence c.pkt) = none

/-- Item `i` of a NACK packet asks for the number. -/
def Asks (pkt : TESTTPPacket) (i : Nat) (seq : UInt16) : Prop :=
  seq = get16 pkt (RTCP_HEADER_SIZE_BYTES + NACK_ITEM_BYTES * i) ∨
    ∃ j < 16, (get16 pkt (RTCP_HEADER_SIZE_BYTES + NACK_ITEM_BYTES * i + 2)).toNat.testBit j = true ∧
      seq = get16 pkt (RTCP_HEADER_SIZE_BYTES + NACK_ITEM_BYTES * i) + 1 + .ofNat j

/-- One of the items that the length field claims asks for the number. -/
def Requests (pkt : TESTTPPacket) (seq : UInt16) : Prop :=
  ∃ i < nackItems (getLength pkt), Asks pkt i seq

/-- The bytes in the buffer read as a probe, or as a NACK for nothing that is stored. -/
def Sender.Spared (s : Sender) (c : Completion) : Prop :=
  getType c.pkt = TPYE_RTT ∨ ∀ seq, Requests c.pkt seq → s.nack.pktMap seq = none

/-! ### Media and echoes -/

theorem media_iff (g : NackGenerator) (seq : UInt16) :
    ((receivePacket g seq).2.nackList = g.nackList ∧ (receivePacket g seq).2.lastSeq = g.lastSeq) ↔
      seq = g.lastSeq ∨
        g.started = true ∧ seqLowerThan seq g.lastSeq = true ∧ g.nackList.find seq = none := by
  rw [receivePacket]
  by_cases hseq : seq = g.lastSeq
  · cases hs : g.started <;> simp [hseq]
  cases hs : g.started with
  | false => simp [hseq]
  | true =>
    cases hlow : seqLowerThan seq g.lastSeq with
    | false => simp [hseq]
    | true =>
      cases hfind : g.nackList.find seq with
      | none => simp [hseq]
      | some info =>
        have hne : g.nackList.erase seq ≠ g.nackList := fun heq => by
          have herased := OrderedMap.find_erase g.nackList seq seq
          rw [heq, hfind, if_pos rfl] at herased
          cases herased
        simp [hseq, hne]

theorem echo_iff (r : NackReceiver.Receiver) (num : UInt16) :
    (fun n => if n = num then none else r.rttCountMap n) = r.rttCountMap ↔
      r.rttCountMap num = none := by
  constructor
  · intro heq
    rw [← heq]
    simp
  · intro hnone
    funext n
    split
    · next hn => rw [hn, hnone]
    · rfl

/-! ### FEC packets -/

/-- The decoder as every run keeps it: the counters count the marks, and with no redundant
packets it never recovers anything. -/
structure Kept (g : FECGenerator) : Prop where
  sound : Sound FEC_K FEC_K (int16 FEC_SIZE) g
  counts : Counts FEC_K g

theorem initial_kept {input output : Nat → Nat → Gf} {timerMs : UInt64} {r : Receiver}
    (h : initial input output timerMs = some r) : Kept r.fecGen := by
  obtain ⟨g, hg, rfl⟩ := Option.map_eq_some_iff.mp h
  refine ⟨(new_sound hg).2, ?_⟩
  obtain ⟨fec, -, rfl⟩ := Option.map_eq_some_iff.mp hg
  simp [Counts, present_none]

theorem enterGroup_size (g : FECGenerator) (header : TESTFECHeader) :
    (enterGroup g header).lastPacketSize = int16 header.lastPacketSize.toNat := by
  rw [enterGroup]
  generalize int16 header.lastPacketSize.toNat = size
  split
  · rfl
  · rfl

theorem enterGroup_eq_iff (g : FECGenerator) (header : TESTFECHeader) : enterGroup g header = g ↔
    header.fecGroupId = g.lastGroupId ∧ int16 header.lastPacketSize.toNat = g.lastPacketSize := by
  rw [← enterGroup_size g header]
  constructor
  · intro heq
    have hgroup : (enterGroup g header).lastGroupId = header.fecGroupId := enterGroup_group
    rw [heq] at hgroup
    exact ⟨hgroup.symm, by rw [heq]⟩
  · rintro ⟨hgroup, hsize⟩
    obtain ⟨size, he⟩ := enterGroup_same hgroup.symm
    rw [he] at hsize ⊢
    rw [show size = g.lastPacketSize from hsize]

theorem Kept.enter {g : FECGenerator} (h : Kept g) (header : TESTFECHeader) :
    Kept (enterGroup g header) := by
  refine ⟨(h.sound.enter header).1, ?_⟩
  by_cases hsame : g.lastGroupId = header.fecGroupId
  · obtain ⟨size, he⟩ := enterGroup_same hsame
    rw [he]
    exact h.counts
  · obtain ⟨size, he⟩ := enterGroup_other hsame
    rw [he]
    simp [Counts, clear, present_none]

theorem found_iff (g : FECGenerator) (header : TESTFECHeader) (i : Nat) :
    found g header i = true ↔ header.fecGroupId = g.lastGroupId ∧ g.usedMarks i = true := by
  rw [found]
  by_cases hsame : header.fecGroupId = g.lastGroupId
  · simp [hsame]
  · simp [hsame]

theorem fecPayload_length (pkt : TESTTPPacket) : maxFecPacketSize ≤ (fecPayload pkt).length := by
  rw [fecPayload, List.length_map, List.length_range]
  decide

section Decode

variable {r : Receiver} {header : TESTFECHeader} {payload : List Gf}

/-- A packet that is already there reaches the first lines of `Decode` only. -/
theorem decodeFec_found (h : Kept r.fecGen) (hi : header.fecIndex.toNat < kMaxN)
    (hf : found r.fecGen header header.fecIndex.toNat = true) :
    decodeFec r header payload = some { r with fecGen := enterGroup r.fecGen header } := by
  have hk := h.enter header
  rw [← (h.sound.enter header).2] at hf
  simp only [decodeFec, arrive_marked hi hf, recover_same hk.sound hk.counts, Option.bind_eq_bind,
    Option.bind_some, List.foldl_nil]
  rfl

/-- A packet that fits is marked in its group. -/
theorem decodeFec_new (h : Kept r.fecGen) (hlen : maxFecPacketSize ≤ payload.length)
    (hi : header.fecIndex.toNat < kMaxN)
    (hf : found r.fecGen header header.fecIndex.toNat = false)
    (hl : header.length.toNat ≤ maxFecPacketSize) :
    ∃ g gen, decodeFec r header payload =
        some { r with fecGen := g, nack := { r.nack with nackgen := gen } } ∧
      Kept g ∧ found g header header.fecIndex.toNat = true := by
  have hk := h.enter header
  rw [← (h.sound.enter header).2] at hf
  obtain ⟨g, out, harr, hfk, hfn, hsize, hgroup, hmarks, hcount, hraw⟩ := arrive_new hlen hi hf hl
  have hcounts : Counts FEC_K g :=
    counts_store hk.sound.fecK hk.sound.low hi hf hmarks hcount hraw hk.counts
  have hkept : Kept g := by
    refine ⟨⟨hfk.trans hk.sound.fecK, hfn.trans hk.sound.fecN, hsize.trans hk.sound.size, ?_,
      .inl hcounts⟩, hcounts⟩
    intro j hj
    rw [hmarks, store_other _ _ (by omega)]
    exact hk.sound.low j hj
  refine ⟨g, out.foldl (fun gen _ => fecDencodeCallback gen payload) r.nack.nackgen, ?_, hkept, ?_⟩
  · simp only [decodeFec, harr, recover_same hkept.sound hkept.counts, Option.bind_eq_bind,
      Option.bind_some, List.foldl_nil]
    rfl
  · rw [found_iff, hgroup, enterGroup_group, hmarks, store_same]
    exact ⟨rfl, rfl⟩

theorem decodeFec_none (h : Kept r.fecGen) (hbad : ¬ (header.fecIndex.toNat < kMaxN ∧
    (found r.fecGen header header.fecIndex.toNat = false →
      header.length.toNat ≤ maxFecPacketSize))) : decodeFec r header payload = none := by
  rw [← (h.sound.enter header).2] at hbad
  simp only [decodeFec, arrive_none hbad, Option.bind_eq_bind, Option.bind_none]

theorem decodeFec_kept (h : Kept r.fecGen) (hlen : maxFecPacketSize ≤ payload.length)
    {r' : Receiver} (hr : decodeFec r header payload = some r') : Kept r'.fecGen := by
  by_cases hb : header.fecIndex.toNat < kMaxN ∧ (found r.fecGen header header.fecIndex.toNat =
      false → header.length.toNat ≤ maxFecPacketSize)
  · cases hf : found r.fecGen header header.fecIndex.toNat with
    | true =>
      rw [decodeFec_found h hb.1 hf] at hr
      cases hr
      exact h.enter _
    | false =>
      obtain ⟨g, gen, hsome, hkept, -⟩ := decodeFec_new h hlen hb.1 hf (hb.2 hf)
      rw [hsome] at hr
      cases hr
      exact hkept
  · rw [decodeFec_none h hb] at hr
    cases hr

/-- Only a packet that is already there leaves the decoder as it was. -/
theorem decodeFec_iff (h : Kept r.fecGen) (hlen : maxFecPacketSize ≤ payload.length)
    (endpoint : UDPEndpoint) :
    (∃ r', decodeFec { r with sendEp := endpoint } header payload = some r' ∧
      r'.nack.nackgen.nackList = r.nack.nackgen.nackList ∧
      r'.nack.nackgen.lastSeq = r.nack.nackgen.lastSeq ∧
      r'.fecGen = r.fecGen ∧ r'.nack.rtt = r.nack.rtt ∧
      r'.nack.rttCountMap = r.nack.rttCountMap ∧ r'.sendEp = r.sendEp) ↔
    endpoint = r.sendEp ∧ header.fecGroupId = r.fecGen.lastGroupId ∧
      int16 header.lastPacketSize.toNat = r.fecGen.lastPacketSize ∧
      header.fecIndex.toNat < kMaxN ∧ r.fecGen.usedMarks header.fecIndex.toNat = true := by
  have h' : Kept ({ r with sendEp := endpoint } : Receiver).fecGen := h
  have hfound := found_iff r.fecGen header header.fecIndex.toNat
  by_cases hb : header.fecIndex.toNat < kMaxN ∧ (found r.fecGen header header.fecIndex.toNat =
      false → header.length.toNat ≤ maxFecPacketSize)
  · cases hf : found r.fecGen header header.fecIndex.toNat with
    | true =>
      obtain ⟨hgroup, hmark⟩ := hfound.mp hf
      rw [decodeFec_found h' hb.1 hf]
      simp only [Option.some.injEq, exists_eq_left', true_and, enterGroup_eq_iff, hgroup, hmark,
        hb.1, and_true]
      exact and_comm
    | false =>
      obtain ⟨g, gen, hsome, -, hmarked⟩ := decodeFec_new h' hlen hb.1 hf (hb.2 hf)
      rw [hsome]
      constructor
      · rintro ⟨r', hr', -, -, hgen, -⟩
        obtain rfl := Option.some.inj hr'
        rw [show g = r.fecGen from hgen, hf] at hmarked
        cases hmarked
      · rintro ⟨-, hgroup, -, -, hmark⟩
        rw [hfound.mpr ⟨hgroup, hmark⟩] at hf
        cases hf
  · rw [decodeFec_none h' hb]
    constructor
    · rintro ⟨r', hr', -⟩
      cases hr'
    · rintro ⟨-, hgroup, -, hi, hmark⟩
      refine absurd ⟨hi, fun hf => ?_⟩ hb
      rw [hfound.mpr ⟨hgroup, hmark⟩] at hf
      cases hf

end Decode

/-! ### The receiver's handler -/

theorem Receiver.step_kept {r r' : Receiver} (h : Kept r.fecGen) {e : ReceiverEvent}
    (hr : r.step e = some r') : Kept r'.fecGen := by
  cases e with
  | receive c recvMs =>
    rw [Receiver.step, Receiver.handleReceiveFrom] at hr
    split at hr
    · exact decodeFec_kept (r := { r with sendEp := c.endpoint }) h (fecPayload_length _) hr
    · cases hr
      exact h
  | tick t =>
    obtain ⟨-, -, rfl⟩ := Option.map_eq_some_iff.mp hr
    exact h

theorem Receiver.untouched_iff {r : Receiver} (h : Kept r.fecGen) (c : Completion)
    (recvMs : UInt64) : r.Untouched c recvMs ↔ r.Spared c := by
  have htype : getType { c.pkt with length := c.bytesRecvd } = getType c.pkt := rfl
  have hnum : getRttNum { c.pkt with length := c.bytesRecvd } = getRttNum c.pkt := rfl
  have hseq : getSequence { c.pkt with length := c.bytesRecvd } = getSequence c.pkt := rfl
  rw [Receiver.Untouched, Receiver.Spared, Receiver.handleReceiveFrom]
  simp only [htype]
  by_cases hfec : getType c.pkt = TPYE_FEC
  · have hrtt : ¬ getType c.pkt = TPYE_RTT := by
      rw [hfec]
      decide
    rw [if_pos hfec, if_neg hrtt, if_pos hfec]
    exact decodeFec_iff h (fecPayload_length _) c.endpoint
  rw [if_neg hfec, if_neg hfec]
  simp only [Option.some.injEq, exists_eq_left', NackReceiver.handleReceiveFrom, htype, hnum, hseq]
  by_cases hrtt : getType c.pkt = TPYE_RTT
  · rw [if_pos hrtt, if_pos hrtt]
    cases hsent : r.nack.rttCountMap (getRttNum c.pkt).toUInt16 with
    | none => simp
    | some sent =>
      have hecho := echo_iff r.nack (getRttNum c.pkt).toUInt16
      rw [hsent] at hecho
      simp [hecho]
  · rw [if_neg hrtt, if_neg hrtt]
    have hmedia := media_iff r.nack.nackgen (getSequence c.pkt)
    rw [← hmedia]
    constructor
    · rintro ⟨hlist, hlast, -, -, -, hpeer⟩
      exact ⟨hpeer, hlist, hlast⟩
    · rintro ⟨hpeer, hlist, hlast⟩
      exact ⟨hlist, hlast, trivial, rfl, rfl, hpeer⟩

/-! ### The sender's handler -/

theorem mem_unpackItem (pkt : TESTTPPacket) (i : Nat) (seq : UInt16) :
    seq ∈ (unpackItem pkt i).value ↔ Asks pkt i seq := by
  rw [unpackItem]
  simp only [value_bind, value_read16, value_pure, List.mem_cons, mem_expand]
  rfl

theorem mem_unpackItems (pkt : TESTTPPacket) (n : Nat) (seq : UInt16) :
    seq ∈ (true, (unpackItems pkt n 0 []).value).2 ↔ ∃ i < n, Asks pkt i seq := by
  rw [unpackItems_value, List.nil_append, List.mem_flatMap]
  simp only [List.mem_range, Nat.zero_add, mem_unpackItem]

theorem mem_unpacked (pkt : TESTTPPacket) (seq : UInt16) :
    seq ∈ (unpackingNack pkt []).value.2 ↔ Requests pkt seq := by
  rw [unpackingNack_value, unpackingBody_value, Requests]
  by_cases hshort : (getLength pkt).toNat < RTCP_HEADER_SIZE_BYTES
  · have hzero : nackItems (getLength pkt) = 0 := by
      rw [nackItems, Nat.sub_eq_zero_of_le hshort.le, Nat.zero_div]
    rw [if_pos hshort, hzero]
    refine iff_of_false List.not_mem_nil ?_
    rintro ⟨i, hi, -⟩
    exact Nat.not_lt_zero i hi
  · rw [if_neg hshort]
    exact mem_unpackItems pkt _ seq

/-- What the sender stores are data packets. -/
def Stored (s : Sender) : Prop :=
  ∀ seq pkt, s.nack.pktMap seq = some pkt → getType pkt = TPYE_TRANSPORT_PACKET

/-- A completion leaves the sender's state alone, whatever it is. -/
theorem Sender.receive_same {s s' : Sender} {c : Completion} {fresh : TESTTPPacket}
    {sent : List (TESTTPPacket × UDPEndpoint)}
    (h : s.handleReceiveFrom c fresh = some (sent, s')) : s' = s := by
  obtain ⟨⟨packets, nack⟩, hnack, heq⟩ := Option.map_eq_some_iff.mp h
  cases heq
  have hsame : nack = s.nack := by
    rw [NackSender.handleReceiveFrom] at hnack
    split at hnack
    · obtain ⟨echo, -, heq⟩ := Option.map_eq_some_iff.mp hnack
      exact (Prod.mk.inj heq).2.symm
    · exact (Prod.mk.inj (Option.some.inj hnack)).2.symm
  rw [hsame]

theorem Sender.step_stored {s s' : Sender} {e : SenderEvent} (h : Stored s)
    (hs : s.step e = some s') : Stored s' := by
  cases e with
  | receive c fresh =>
    obtain ⟨⟨sent, s''⟩, hsome, rfl⟩ := Option.map_eq_some_iff.mp hs
    rw [Sender.receive_same hsome]
    exact h
  | tick nowMs fresh =>
    obtain ⟨pkt, htick, htype, -⟩ := NackSender.tick_spec s.nack nowMs fresh
    rw [Sender.step, htick] at hs
    obtain rfl := Option.some.inj hs
    intro seq pkt' hp
    have hfind : (if seq = s.nack.seq then some pkt else s.nack.pktMap seq) = some pkt' := hp
    split at hfind
    · exact Option.some.inj hfind ▸ htype
    · exact h seq pkt' hfind

/-- The sender answers a NACK with data packets and nothing else. -/
theorem answers_iff {s : Sender} (h : Stored s) (asked : List UInt16) :
    (∀ pkt ∈ asked.filterMap s.nack.pktMap, getType pkt ≠ TPYE_TRANSPORT_PACKET) ↔
      ∀ seq ∈ asked, s.nack.pktMap seq = none := by
  constructor
  · intro hnone seq hseq
    cases hfind : s.nack.pktMap seq with
    | none => rfl
    | some pkt =>
      have hsent : pkt ∈ asked.filterMap s.nack.pktMap :=
        List.mem_filterMap.mpr ⟨seq, hseq, hfind⟩
      exact absurd (h seq pkt hfind) (hnone pkt hsent)
  · intro hnone pkt hpkt
    obtain ⟨seq, hseq, hfind⟩ := List.mem_filterMap.mp hpkt
    rw [hnone seq hseq] at hfind
    cases hfind

theorem Sender.untouched_iff {s : Sender} (h : Stored s) (c : Completion) (fresh : TESTTPPacket) :
    s.Untouched c fresh ↔ s.Spared c := by
  rw [Sender.Untouched, Sender.Spared, Sender.handleReceiveFrom, NackSender.handleReceiveFrom]
  by_cases hrtt : getType c.pkt = TPYE_RTT
  · obtain ⟨pkt, hpkt, htype, -⟩ := rttPacking_spec fresh (getRttNum c.pkt).toUInt16
    rw [if_pos hrtt, hpkt]
    refine iff_of_true ⟨[(pkt, c.endpoint)], s, rfl, rfl, rfl, ?_⟩ (.inl hrtt)
    simp [htype, TPYE_RTT, TPYE_TRANSPORT_PACKET]
  rw [if_neg hrtt]
  simp only [← mem_unpacked, hrtt, false_or]
  generalize (unpackingNack c.pkt []).value.2 = asked
  rw [← answers_iff h]
  constructor
  · rintro ⟨sent, s', heq, -, -, hnone⟩ pkt hpkt
    obtain rfl := (Prod.mk.inj (Option.some.inj heq)).1
    exact hnone (pkt, c.endpoint) (List.mem_map_of_mem hpkt)
  · intro hnone
    refine ⟨_, s, rfl, rfl, rfl, fun p hp => ?_⟩
    obtain ⟨pkt, hpkt, rfl⟩ := List.mem_map.mp hp
    exact hnone pkt hpkt

/-! ### Runs -/

/-- A datagram of the peer with type 99 and the number 7 where media carry theirs. -/
def stray : Completion :=
  ⟨⟨fun i => if i = 1 then 99 else if i = 3 then 7 else 0, 0⟩, ⟨0x7f000001, 8000⟩, true, 0⟩

theorem initial_some (timerMs : UInt64) :
    ∃ r₀, initial (fun _ _ => 0) (fun _ _ => 0) timerMs = some r₀ := by
  obtain ⟨g, hg, -⟩ := new_runs demoSetup (fun _ _ => 0) fun _ _ => 0
  exact ⟨⟨NackReceiver.initial timerMs, g, ⟨0x7f000001, 8000⟩⟩, Option.map_eq_some_iff.mpr ⟨g, hg, rfl⟩⟩

end FecCompletion
