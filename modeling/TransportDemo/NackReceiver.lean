import TransportDemo.NackRoundTrip

/-!
# The receiver

The receiver runs its list of losses against a timer: every tick it may send a
numbered probe, refresh the round-trip time, and send one NACK packet for what
is due. Whatever datagram comes in is an echo of a probe or a data packet.
-/

namespace NackReceiver

open ByteBuffer OrderedMap NackGen NackPacket NackRoundTrip

/-- `UDPSender` of the receiver. -/
structure Receiver where
  timerMs : UInt64
  countTimerMs : UInt64
  rttCountMap : UInt16 → Option UInt32
  rttCountNum : UInt16
  rtt : UInt32
  nackgen : NackGenerator

/-- `UDPSender::UDPSender`. -/
def initial (timerMs : UInt64) : Receiver := ⟨timerMs, 0, fun _ => none, 1, 1, NackGen.new⟩

/-- What a tick takes from outside: the clock readings for the probe and for the batch, and the
memory of the two new packets. -/
structure Tick where
  probeMs : UInt64
  nowMs : UInt64
  probePacket : TESTTPPacket
  nackPacket : TESTTPPacket

/-- `handle_receive_from`, with the clock reading `recvMs`. -/
def handleReceiveFrom (r : Receiver) (pkt : TESTTPPacket) (recvMs : UInt64) : Receiver :=
  if getType pkt = TPYE_RTT then
    match r.rttCountMap (getRttNum pkt).toUInt16 with
    | none => r
    | some sent =>
      { r with
        rtt := ((recvMs.toUInt32 - sent) + r.rtt) / 2
        rttCountMap := fun num =>
          if num = (getRttNum pkt).toUInt16 then none else r.rttCountMap num }
  else { r with nackgen := (receivePacket r.nackgen (getSequence pkt)).2 }

/-- The probe of a tick: the packet sent, if any, and the state after it. -/
def sendProbe (r : Receiver) (t : Tick) : Option (List TESTTPPacket × Receiver) :=
  if r.countTimerMs % 80 = 0 then
    (rttPacking t.probePacket r.rttCountNum).map fun pkt => ([pkt], { r with
      rttCountMap := fun num =>
        if num = r.rttCountNum then some t.probeMs.toUInt32 else r.rttCountMap num
      rttCountNum := r.rttCountNum + 1 })
  else some ([], r)

/-- `UpdateRtt` every 400 ms. -/
def refreshRtt (r : Receiver) : Receiver :=
  if r.countTimerMs % 400 = 0 then { r with nackgen := updateRtt r.nackgen r.rtt } else r

/-- `handle_crude_timer`: the packets sent, in order, and the state after the tick. -/
def handleCrudeTimer (r : Receiver) (t : Tick) : Option (List TESTTPPacket × Receiver) := do
  let (probes, r) ← sendProbe r t
  let r := refreshRtt r
  let (seqs, nackgen) := getNackBatch r.nackgen t.nowMs
  let nack ← packingNack t.nackPacket seqs
  some (probes ++ (if seqs.isEmpty then [] else [nack]),
    { r with nackgen := nackgen, countTimerMs := r.countTimerMs + r.timerMs })

/-- The states of a receiver, whatever it receives and whenever its timer fires. -/
inductive Reachable : Receiver → Prop where
  | start (timerMs : UInt64) : Reachable (initial timerMs)
  | receive {r : Receiver} (pkt : TESTTPPacket) (recvMs : UInt64) :
      Reachable r → Reachable (handleReceiveFrom r pkt recvMs)
  | tick {r r' : Receiver} {sent : List TESTTPPacket} (t : Tick) :
      Reachable r → handleCrudeTimer r t = some (sent, r') → Reachable r'

/-! ### What a tick does -/

/-- The generator as the batch of the tick finds it. -/
def atBatch (r : Receiver) : NackGenerator := (refreshRtt r).nackgen

theorem sendProbe_spec (r : Receiver) (t : Tick) : ∃ probes r',
    sendProbe r t = some (probes, r') ∧ r'.nackgen = r.nackgen ∧ r'.rtt = r.rtt ∧
      r'.countTimerMs = r.countTimerMs ∧ r'.timerMs = r.timerMs ∧
      ∀ p ∈ probes, getType p = TPYE_RTT := by
  rw [sendProbe]
  split
  · obtain ⟨pkt, hpkt, htype, -⟩ := rttPacking_spec t.probePacket r.rttCountNum
    rw [hpkt]
    exact ⟨_, _, rfl, rfl, rfl, rfl, rfl, by simp [htype]⟩
  · exact ⟨_, _, rfl, rfl, rfl, rfl, rfl, by simp⟩

theorem atBatch_nackList (r : Receiver) : (atBatch r).nackList = r.nackgen.nackList := by
  rw [atBatch, refreshRtt]
  split <;> rfl

/-- A tick never fails. It runs one batch and sends, after the probe, one NACK packet for it
unless the batch is empty. -/
theorem tick_spec (r : Receiver) (t : Tick) : ∃ probes nack r',
    handleCrudeTimer r t = some (probes ++
      (if (getNackBatch (atBatch r) t.nowMs).1.isEmpty then [] else [nack]), r') ∧
      (∀ p ∈ probes, getType p = TPYE_RTT) ∧
      packingNack t.nackPacket (getNackBatch (atBatch r) t.nowMs).1 = some nack ∧
      r'.nackgen = (getNackBatch (atBatch r) t.nowMs).2 := by
  obtain ⟨probes, r₁, hprobe, hgen, hrtt, hcount, -, htype⟩ := sendProbe_spec r t
  have hbatch : (refreshRtt r₁).nackgen = atBatch r := by
    simp only [atBatch, refreshRtt, hcount, hgen, hrtt]
    split <;> simp [hgen]
  obtain ⟨nack, hnack, -⟩ := packingNack_spec t.nackPacket (getNackBatch (atBatch r) t.nowMs).1
  refine ⟨probes, nack, { refreshRtt r₁ with
    nackgen := (getNackBatch (atBatch r) t.nowMs).2
    countTimerMs := (refreshRtt r₁).countTimerMs + (refreshRtt r₁).timerMs }, ?_, htype, hnack, rfl⟩
  simp only [handleCrudeTimer, hprobe, Option.bind_eq_bind, Option.bind_some, hbatch, hnack]

end NackReceiver
