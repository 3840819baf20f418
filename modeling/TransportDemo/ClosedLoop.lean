import TransportDemo.NackCharge
import TransportDemo.NackSender

/-!
# Sender, receiver and network

The network loses, repeats and reorders what it carries: a datagram that was
ever sent may arrive at any later time, any number of times or never. Only the
age of data packets is bounded: a packet arrives while fewer than 32768 newer
ones have been sent. Packets are counted from 1, so packet `c` carries the
number `c` modulo 65536.
-/

namespace ClosedLoop

open ByteBuffer OrderedMap NackGen NackPacket NackRoundTrip NackBudget NackReceiver NackSender

/-- The two parties and everything that was ever sent. -/
structure World where
  sender : Sender
  receiver : Receiver
  /-- The data packets in the order of their first transmission. -/
  history : List TESTTPPacket
  /-- Every copy of a data packet, with its count. -/
  data : List (Nat × TESTTPPacket)
  nacks : List TESTTPPacket
  probes : List TESTTPPacket
  echoes : List TESTTPPacket

/-- After `n` packets, the count of the last one with the number `s`. -/
def newest (n : Nat) (s : UInt16) : Nat := n - age (.ofNat n) s

inductive Step (w : World) : World → Prop where
  | send (nowMs : UInt64) (fresh : TESTTPPacket) {pkt : TESTTPPacket} {sender : Sender} :
      NackSender.handleCrudeTimer w.sender nowMs fresh = some (pkt, sender) →
      Step w { w with
        sender := sender
        history := w.history ++ [pkt]
        data := (w.history.length + 1, pkt) :: w.data }
  | deliverData (recvMs : UInt64) {c : Nat} {pkt : TESTTPPacket} :
      (c, pkt) ∈ w.data → w.history.length - c < 32768 →
      Step w { w with receiver := NackReceiver.handleReceiveFrom w.receiver pkt recvMs }
  | tick (t : Tick) {sent : List TESTTPPacket} {receiver : Receiver} :
      NackReceiver.handleCrudeTimer w.receiver t = some (sent, receiver) →
      Step w { w with
        receiver := receiver
        nacks := sent.filter (fun p => getType p = TPYE_TRANSPORT_INFO) ++ w.nacks
        probes := sent.filter (fun p => getType p = TPYE_RTT) ++ w.probes }
  | deliverNack (fresh : TESTTPPacket) {pkt : TESTTPPacket} {resent : List TESTTPPacket}
      {sender : Sender} : pkt ∈ w.nacks →
      NackSender.handleReceiveFrom w.sender pkt fresh = some (resent, sender) →
      Step w { w with
        sender := sender
        data := resent.map (fun p => (newest w.history.length (getSequence p), p)) ++ w.data }
  | deliverProbe (fresh : TESTTPPacket) {pkt : TESTTPPacket} {sent : List TESTTPPacket}
      {sender : Sender} : pkt ∈ w.probes →
      NackSender.handleReceiveFrom w.sender pkt fresh = some (sent, sender) →
      Step w { w with sender := sender, echoes := sent ++ w.echoes }
  | deliverEcho (recvMs : UInt64) {pkt : TESTTPPacket} : pkt ∈ w.echoes →
      Step w { w with receiver := NackReceiver.handleReceiveFrom w.receiver pkt recvMs }

/-- Nothing has been sent. -/
def quiet (timerMs : UInt64) : World :=
  ⟨NackSender.initial, NackReceiver.initial timerMs, [], [], [], [], []⟩

inductive Reach : World → Prop where
  | start (timerMs : UInt64) : Reach (quiet timerMs)
  | step {w w' : World} : Reach w → Step w w' → Reach w'

/-! ### The invariant -/

/-- One of the first `n` packets has the number `s`. -/
def Sent (n : Nat) (s : UInt16) : Prop := ∃ c, 1 ≤ c ∧ c ≤ n ∧ UInt16.ofNat c = s

/-- `p` is the last packet sent under the number `s`. -/
def LatestUnder (history : List TESTTPPacket) (s : UInt16) (p : TESTTPPacket) : Prop :=
  ∃ c, 1 ≤ c ∧ history[c - 1]? = some p ∧ UInt16.ofNat c = s ∧
    ∀ c', c < c' → c' ≤ history.length → UInt16.ofNat c' ≠ s

/-- The sender stores the last 65536 packets under their numbers. -/
structure Stores (sender : Sender) (history : List TESTTPPacket) : Prop where
  seq : sender.seq = .ofNat (history.length + 1)
  numbered : ∀ c p, 1 ≤ c → history[c - 1]? = some p →
    getSequence p = .ofNat c ∧ getType p = TPYE_TRANSPORT_PACKET
  stored : ∀ c p, 1 ≤ c → history[c - 1]? = some p → history.length < c + 65536 →
    sender.pktMap (.ofNat c) = some p

/-- The receiver knows only numbers that were sent. -/
structure Knows (gen : NackGenerator) (n : Nat) : Prop where
  bounded : Bounded gen
  windowed : Windowed gen
  lastSeq : gen.started = true → Sent n gen.lastSeq
  keys : ∀ s, (gen.nackList.find s).isSome → Sent n s

/-- A copy of packet `c`. -/
def Copies (n c : Nat) (p : TESTTPPacket) : Prop :=
  1 ≤ c ∧ c ≤ n ∧ getSequence p = .ofNat c ∧ getType p = TPYE_TRANSPORT_PACKET

/-- A NACK packet for numbers that were sent. -/
def AsksFor (n : Nat) (p : TESTTPPacket) : Prop :=
  getType p = TPYE_TRANSPORT_INFO ∧ ∀ s ∈ (unpackingNack p []).value.2, Sent n s

structure Inv (w : World) : Prop where
  sender : Stores w.sender w.history
  receiver : Knows w.receiver.nackgen w.history.length
  data : ∀ c p, (c, p) ∈ w.data → Copies w.history.length c p
  nacks : ∀ p ∈ w.nacks, AsksFor w.history.length p
  probes : ∀ p ∈ w.probes, getType p = TPYE_RTT
  echoes : ∀ p ∈ w.echoes, getType p = TPYE_RTT

/-! ### Counts and numbers -/

theorem ofNat_toNat (c : Nat) : (UInt16.ofNat c).toNat = c % 65536 := UInt16.toNat_ofNat'

theorem newest_spec {n : Nat} {s : UInt16} (h : Sent n s) : 1 ≤ newest n s ∧
    newest n s ≤ n ∧ n < newest n s + 65536 ∧ UInt16.ofNat (newest n s) = s := by
  obtain ⟨c, hc, hcn, rfl⟩ := h
  have hn : newest n (.ofNat c) = n - (65536 - c % 65536 + n % 65536) % 65536 := by
    rw [newest, age_eq, ofNat_toNat, ofNat_toNat]
  rw [← UInt16.toNat_inj, ofNat_toNat, ofNat_toNat, hn]
  omega

/-- A packet that arrives in time and advances the receiver skips only numbers sent before it. -/
theorem sent_of_skips {n : Nat} {g : NackGenerator} {c : Nat} {s : UInt16}
    (hlast : Sent n g.lastSeq) (hcn : c ≤ n) (hnew : n - c < 32768)
    (hskip : NackWatch.Skips g (.ofNat c) s) : Sent n s := by
  obtain ⟨c₀, hc₀, hc₀n, hseq⟩ := hlast
  obtain ⟨hadv, hpos, hlt⟩ := hskip
  have hle := hadv.age_le
  have hs := s.toNat_lt
  simp only [age_eq, ← hseq, ofNat_toNat] at hpos hlt hle
  -- the receiver moves forward, so the skipped number was counted between the two packets
  have hforward : c₀ < c := by omega
  refine ⟨c - ((65536 - c₀ % 65536 + c % 65536) % 65536 -
    (65536 - c₀ % 65536 + s.toNat) % 65536), by omega, by omega, ?_⟩
  rw [← UInt16.toNat_inj, ofNat_toNat]
  omega

theorem Sent.mono {n n' : Nat} {s : UInt16} (h : Sent n s) (hle : n ≤ n') : Sent n' s := by
  obtain ⟨c, hc, hcn, hs⟩ := h
  exact ⟨c, hc, hcn.trans hle, hs⟩

/-! ### The sender -/

/-- A number that was sent is in the store, with the last packet sent under it. -/
theorem stored_latest {sender : Sender} {history : List TESTTPPacket} (h : Stores sender history)
    {s : UInt16} (hs : Sent history.length s) :
    ∃ p, sender.pktMap s = some p ∧ Copies history.length (newest history.length s) p ∧
      getSequence p = s ∧ LatestUnder history s p := by
  obtain ⟨hone, hle, hlt, hnum⟩ := newest_spec hs
  obtain ⟨p, hp⟩ : ∃ p, history[newest history.length s - 1]? = some p :=
    ⟨_, List.getElem?_eq_getElem (by omega)⟩
  obtain ⟨hseq, htype⟩ := h.numbered _ p hone hp
  have hstored := h.stored _ p hone hp hlt
  rw [hnum] at hstored
  refine ⟨p, hstored, ⟨hone, hle, hseq, htype⟩, hseq.trans hnum, newest history.length s, hone, hp,
    hnum, fun c' hc' hn' heq => ?_⟩
  have hval := congrArg UInt16.toNat (heq.trans hnum.symm)
  rw [ofNat_toNat, ofNat_toNat] at hval
  omega

/-- The answer to a request for numbers that were sent. -/
theorem resent_latest {sender : Sender} {history : List TESTTPPacket} (h : Stores sender history)
    {l : List UInt16} (hl : ∀ s ∈ l, Sent history.length s) :
    List.Forall₂ (fun s p => getSequence p = s ∧ LatestUnder history s p) l
      (l.filterMap sender.pktMap) := by
  induction l with
  | nil => exact .nil
  | cons s rest ih =>
    obtain ⟨p, hp, -, hseq, hlatest⟩ := stored_latest h (hl s List.mem_cons_self)
    rw [List.filterMap_cons_some hp]
    exact .cons ⟨hseq, hlatest⟩ (ih fun t ht => hl t (List.mem_cons_of_mem s ht))

theorem stores_send {sender : Sender} {history : List TESTTPPacket} (h : Stores sender history)
    {pkt : TESTTPPacket} (hseq : getSequence pkt = sender.seq)
    (htype : getType pkt = TPYE_TRANSPORT_PACKET) :
    Stores ⟨fun n => if n = sender.seq then some pkt else sender.pktMap n, sender.seq + 1⟩
      (history ++ [pkt]) := by
  have hlast : ∀ c p, 1 ≤ c → (history ++ [pkt])[c - 1]? = some p →
      history[c - 1]? = some p ∧ c ≤ history.length ∨ c = history.length + 1 ∧ p = pkt := by
    intro c p hc hp
    rcases Nat.lt_or_ge (c - 1) history.length with hlt | hge
    · rw [List.getElem?_append_left hlt] at hp
      exact .inl ⟨hp, by omega⟩
    · rw [List.getElem?_append_right hge, List.getElem?_singleton] at hp
      split at hp
      · exact .inr ⟨by omega, (Option.some.inj hp).symm⟩
      · cases hp
  refine ⟨?_, fun c p hc hp => ?_, fun c p hc hp hnew => ?_⟩
  · rw [h.seq, List.length_append, List.length_singleton, UInt16.ofNat_add (_ + 1)]
    rfl
  · rcases hlast c p hc hp with ⟨hold, -⟩ | ⟨rfl, rfl⟩
    · exact h.numbered c p hc hold
    · exact ⟨hseq.trans h.seq, htype⟩
  · rw [List.length_append, List.length_singleton] at hnew
    dsimp only
    rcases hlast c p hc hp with ⟨hold, hle⟩ | ⟨rfl, rfl⟩
    · have hne : UInt16.ofNat c ≠ sender.seq := by
        rw [h.seq, ne_eq, ← UInt16.toNat_inj, ofNat_toNat, ofNat_toNat]
        omega
      rw [if_neg hne]
      exact h.stored c p hc hold (by omega)
    · rw [if_pos h.seq.symm]

/-! ### The receiver -/

theorem knows_mono {gen : NackGenerator} {n n' : Nat} (h : Knows gen n) (hle : n ≤ n') :
    Knows gen n' :=
  ⟨h.bounded, h.windowed, fun hs => (h.lastSeq hs).mono hle, fun s hs => (h.keys s hs).mono hle⟩

/-- A data packet that arrives in time leaves the receiver with numbers that were sent. -/
theorem knows_receive {gen : NackGenerator} {n c : Nat} (h : Knows gen n) (hc : 1 ≤ c)
    (hcn : c ≤ n) (hnew : n - c < 32768) : Knows (receivePacket gen (.ofNat c)).2 n := by
  have hsent : Sent n (.ofNat c) := ⟨c, hc, hcn, rfl⟩
  refine ⟨bounded_receive h.bounded h.windowed _, windowed_receive h.windowed _,
    fun hstarted => ?_, fun s hs => ?_⟩
  · cases hst : gen.started with
    | false =>
      rw [NackWatch.receive_first _ hst]
      exact hsent
    | true =>
      by_cases hadv : NackWatch.Advances gen (.ofNat c)
      · rw [NackWatch.receive_advance hadv]
        exact hsent
      · rw [(NackWatch.receive_stay hadv hst).1]
        exact h.lastSeq hst
  · cases hst : gen.started with
    | false =>
      rw [NackWatch.receive_first _ hst] at hs
      exact h.keys s hs
    | true =>
      by_cases hskip : NackWatch.Skips gen (.ofNat c) s
      · exact sent_of_skips (h.lastSeq hst) hcn hnew hskip
      obtain ⟨info, hinfo⟩ := Option.isSome_iff_exists.mp hs
      cases receive_entry h.windowed hinfo with
      | inl hold => exact h.keys s (by simp [hold])
      | inr hfresh =>
        have hold : gen.nackList.find s = none := hfresh.1
        by_cases hadv : NackWatch.Advances gen (.ofNat c)
        · by_cases hroom : NackWatch.Overflows gen (.ofNat c)
          · simp [NackWatch.find_receive_overflow hroom] at hs
          · simp [NackWatch.find_receive_advance hadv hroom, hskip, hold] at hs
        · simp [(NackWatch.receive_stay hadv hst).2.2, hold] at hs

theorem knows_atBatch {r : Receiver} {n : Nat} (h : Knows r.nackgen n) : Knows (atBatch r) n := by
  rw [atBatch, refreshRtt]
  split
  · exact ⟨⟨h.bounded.size, h.bounded.proper⟩, h.windowed, h.lastSeq, h.keys⟩
  · exact h

theorem knows_batch {gen : NackGenerator} {n : Nat} (h : Knows gen n) (nowMs : UInt64) :
    Knows (getNackBatch gen nowMs).2 n := by
  refine ⟨bounded_batch h.bounded nowMs, windowed_batch h.windowed nowMs, h.lastSeq,
    fun s hs => h.keys s ?_⟩
  rw [find_getNackBatch] at hs
  cases hf : gen.nackList.find s with
  | none => simp [hf] at hs
  | some info => rfl

/-- A tick asks only for keys of the list. -/
theorem tick_asks {r r' : Receiver} {n : Nat} (h : Knows r.nackgen n) (t : Tick)
    {sent : List TESTTPPacket} (ht : NackReceiver.handleCrudeTimer r t = some (sent, r')) :
    Knows r'.nackgen n ∧ ∀ p ∈ sent, getType p = TPYE_TRANSPORT_INFO → AsksFor n p := by
  obtain ⟨probes, nack, next, hspec, hprobes, hnack, hgen⟩ := NackReceiver.tick_spec r t
  obtain ⟨rfl, rfl⟩ := Prod.mk.inj (Option.some.inj (hspec.symm.trans ht))
  have hbatch := knows_atBatch h
  refine ⟨hgen ▸ knows_batch hbatch t.nowMs, fun p hp htype => ⟨htype, fun s hs => ?_⟩⟩
  have hmem : s ∈ NackCharge.sentNumbers (probes ++
      if (getNackBatch (atBatch r) t.nowMs).1.isEmpty then [] else [nack]) :=
    List.mem_flatMap.mpr ⟨p, List.mem_filter.mpr ⟨hp, by simpa using htype⟩, hs⟩
  rw [NackCharge.sentNumbers_tick hprobes hnack, mem_decoded] at hmem
  have hdue : s ∈ (getNackBatch (atBatch r) t.nowMs).1 := by
    rw [← HeadBlocks.members_take near MAX_NACK_ITEM_NUM (getNackBatch (atBatch r) t.nowMs).1]
    exact List.mem_append_left _ hmem
  obtain ⟨info, hf, -⟩ := (mem_requests hbatch.bounded t.nowMs s).mp hdue
  exact hbatch.keys s (by simp [hf])

/-! ### Every step keeps the invariant -/

theorem inv_quiet (timerMs : UInt64) : Inv (quiet timerMs) where
  sender := ⟨rfl, fun c p _ hp => by simp [quiet] at hp, fun c p _ hp => by simp [quiet] at hp⟩
  receiver := ⟨start_budgeted.bounded, start_budgeted.windowed, fun hs => (by cases hs),
    fun s hs => by simp [quiet, NackReceiver.initial, NackGen.new] at hs⟩
  data c p hp := by cases hp
  nacks p hp := by cases hp
  probes p hp := by cases hp
  echoes p hp := by cases hp

theorem inv_send {w : World} (h : Inv w) {nowMs : UInt64} {fresh pkt : TESTTPPacket}
    {sender : Sender} (hs : NackSender.handleCrudeTimer w.sender nowMs fresh = some (pkt, sender)) :
    Inv { w with
      sender := sender
      history := w.history ++ [pkt]
      data := (w.history.length + 1, pkt) :: w.data } := by
  obtain ⟨pkt', hpkt, htype, hseq⟩ := NackSender.tick_spec w.sender nowMs fresh
  obtain ⟨rfl, rfl⟩ := Prod.mk.inj (Option.some.inj (hpkt.symm.trans hs))
  have hlen : (w.history ++ [pkt']).length = w.history.length + 1 := by simp
  refine ⟨stores_send h.sender hseq htype, ?_, fun c p hp => ?_, fun p hp => ?_, h.probes, h.echoes⟩
  · rw [hlen]
    exact knows_mono h.receiver (Nat.le_succ _)
  · rw [hlen]
    cases List.mem_cons.mp hp with
    | inl heq =>
      obtain ⟨rfl, rfl⟩ := Prod.mk.inj heq
      exact ⟨by omega, le_rfl, hseq.trans h.sender.seq, htype⟩
    | inr hold =>
      obtain ⟨hc, hcn, hrest⟩ := h.data c p hold
      exact ⟨hc, hcn.trans (Nat.le_succ _), hrest⟩
  · rw [hlen]
    exact ⟨(h.nacks p hp).1, fun s hs => ((h.nacks p hp).2 s hs).mono (Nat.le_succ _)⟩

/-- Answering a NACK packet sends copies of packets that were sent. -/
theorem inv_answer {w : World} (h : Inv w) {pkt fresh : TESTTPPacket}
    {resent : List TESTTPPacket} {sender : Sender} (hmem : pkt ∈ w.nacks)
    (hanswer : NackSender.handleReceiveFrom w.sender pkt fresh = some (resent, sender)) :
    sender = w.sender ∧ ∀ q ∈ resent,
      Copies w.history.length (newest w.history.length (getSequence q)) q := by
  obtain ⟨htype, hsent⟩ := h.nacks _ hmem
  rw [NackSender.handleReceiveFrom, htype, if_neg (by decide)] at hanswer
  obtain ⟨hresent, hsame⟩ := Prod.mk.inj (Option.some.inj hanswer)
  refine ⟨hsame.symm, fun q hq => ?_⟩
  rw [← hresent] at hq
  obtain ⟨s, hs, hfind⟩ := List.mem_filterMap.mp hq
  obtain ⟨p, hp, hcopy, hseq, -⟩ := stored_latest h.sender (hsent s hs)
  obtain rfl : p = q := Option.some.inj (hp.symm.trans hfind)
  rwa [hseq]

theorem echo_answer {s : Sender} {pkt fresh : TESTTPPacket} {sent : List TESTTPPacket}
    {sender : Sender} (htype : getType pkt = TPYE_RTT)
    (hanswer : NackSender.handleReceiveFrom s pkt fresh = some (sent, sender)) :
    sender = s ∧ ∀ p ∈ sent, getType p = TPYE_RTT := by
  rw [NackSender.handleReceiveFrom, if_pos htype] at hanswer
  obtain ⟨echo, hecho, heq⟩ := Option.map_eq_some_iff.mp hanswer
  obtain ⟨hsent, hsame⟩ := Prod.mk.inj heq
  obtain ⟨echo', hecho', htype', -⟩ := rttPacking_spec fresh (getRttNum pkt).toUInt16
  obtain rfl : echo' = echo := Option.some.inj (hecho'.symm.trans hecho)
  refine ⟨hsame.symm, fun p hp => ?_⟩
  rw [← hsent] at hp
  rw [List.mem_singleton.mp hp]
  exact htype'

theorem inv_step {w w' : World} (h : Inv w) (hstep : Step w w') : Inv w' := by
  cases hstep with
  | send nowMs fresh hs => exact inv_send h hs
  | @deliverData recvMs c pkt hmem hnew =>
    obtain ⟨hc, hcn, hseq, htype⟩ := h.data c pkt hmem
    have hgen : (NackReceiver.handleReceiveFrom w.receiver pkt recvMs).nackgen =
        (receivePacket w.receiver.nackgen (.ofNat c)).2 := by
      rw [NackReceiver.handleReceiveFrom, htype, if_neg (by decide), hseq]
    refine ⟨h.sender, ?_, h.data, h.nacks, h.probes, h.echoes⟩
    exact hgen ▸ knows_receive h.receiver hc hcn hnew
  | tick t ht =>
    obtain ⟨hnext, hasked⟩ := tick_asks h.receiver t ht
    refine ⟨h.sender, hnext, h.data, fun p hp => ?_, fun p hp => ?_, h.echoes⟩
    · cases List.mem_append.mp hp with
      | inl hnew =>
        obtain ⟨hsent, htype⟩ := List.mem_filter.mp hnew
        exact hasked p hsent (by simpa using htype)
      | inr hold => exact h.nacks p hold
    · cases List.mem_append.mp hp with
      | inl hnew => simpa using (List.mem_filter.mp hnew).2
      | inr hold => exact h.probes p hold
  | deliverNack fresh hmem hanswer =>
    obtain ⟨rfl, hcopies⟩ := inv_answer h hmem hanswer
    refine ⟨h.sender, h.receiver, fun c p hp => ?_, h.nacks, h.probes, h.echoes⟩
    cases List.mem_append.mp hp with
    | inl hnew =>
      obtain ⟨q, hq, heq⟩ := List.mem_map.mp hnew
      obtain ⟨rfl, rfl⟩ := Prod.mk.inj heq
      exact hcopies q hq
    | inr hold => exact h.data c p hold
  | deliverProbe fresh hmem hanswer =>
    obtain ⟨rfl, hechoes⟩ := echo_answer (h.probes _ hmem) hanswer
    refine ⟨h.sender, h.receiver, h.data, h.nacks, h.probes, fun p hp => ?_⟩
    cases List.mem_append.mp hp with
    | inl hnew => exact hechoes p hnew
    | inr hold => exact h.echoes p hold
  | @deliverEcho recvMs pkt hmem =>
    have hgen : (NackReceiver.handleReceiveFrom w.receiver pkt recvMs).nackgen =
        w.receiver.nackgen := by
      rw [NackReceiver.handleReceiveFrom, if_pos (h.echoes _ hmem)]
      split <;> rfl
    exact ⟨h.sender, hgen ▸ h.receiver, h.data, h.nacks, h.probes, h.echoes⟩

theorem reach_inv {w : World} (h : Reach w) : Inv w := by
  induction h with
  | start timerMs => exact inv_quiet timerMs
  | step _ hstep ih => exact inv_step ih hstep

/-- Every number in a NACK packet was sent and is stored; the answer to a NACK packet is exactly
one packet for each of its numbers, in order, the last one sent under that number, and changes
nothing in the sender. -/
theorem retransmission_safe {w : World} (h : Reach w) :
    (∀ p ∈ w.nacks, ∀ s ∈ (unpackingNack p []).value.2,
      Sent w.history.length s ∧ (w.sender.pktMap s).isSome) ∧
    ∀ p ∈ w.nacks, ∀ fresh, ∃ resent,
      NackSender.handleReceiveFrom w.sender p fresh = some (resent, w.sender) ∧
        List.Forall₂ (fun s q => getSequence q = s ∧ LatestUnder w.history s q)
          (unpackingNack p []).value.2 resent := by
  have hinv := reach_inv h
  refine ⟨fun p hp s hs => ?_, fun p hp fresh => ?_⟩
  · have hsent := (hinv.nacks p hp).2 s hs
    obtain ⟨q, hq, -⟩ := stored_latest hinv.sender hsent
    exact ⟨hsent, by simp [hq]⟩
  · obtain ⟨htype, hsent⟩ := hinv.nacks p hp
    refine ⟨(unpackingNack p []).value.2.filterMap w.sender.pktMap, ?_,
      resent_latest hinv.sender hsent⟩
    rw [NackSender.handleReceiveFrom, htype, if_neg (by decide)]

/-! ### A lost packet -/

theorem exists_send {w : World} (h : Reach w) : ∃ w', Reach w' ∧ w'.receiver = w.receiver ∧
    w'.history.length = w.history.length + 1 ∧ (∀ e ∈ w.data, e ∈ w'.data) ∧
      ∃ pkt, (w.history.length + 1, pkt) ∈ w'.data := by
  obtain ⟨pkt, hpkt, -⟩ := NackSender.tick_spec w.sender 0 ⟨fun _ => 0, 0⟩
  refine ⟨_, h.step (.send 0 ⟨fun _ => 0, 0⟩ hpkt), rfl, by simp, fun e he => ?_, pkt, ?_⟩
  · exact List.mem_cons_of_mem _ he
  · exact List.mem_cons_self

theorem exists_deliver {w : World} (h : Reach w) {c : Nat} {pkt : TESTTPPacket}
    (hmem : (c, pkt) ∈ w.data) (hnew : w.history.length - c < 32768) : ∃ w', Reach w' ∧
      w'.receiver =
        { w.receiver with nackgen := (receivePacket w.receiver.nackgen (.ofNat c)).2 } ∧
      w'.history = w.history ∧ w'.data = w.data := by
  obtain ⟨-, -, hseq, htype⟩ := (reach_inv h).data c pkt hmem
  refine ⟨_, h.step (.deliverData 0 hmem hnew), ?_, rfl, rfl⟩
  rw [NackReceiver.handleReceiveFrom, htype, if_neg (by decide), hseq]

/-- Packets 1, 2 and 3 are sent and 2 is lost. -/
theorem exists_gap : ∃ w, Reach w ∧ w.receiver = { NackReceiver.initial 20 with
    nackgen := ⟨Map.empty.emplace 2 ⟨2, 2, 0, 0⟩, true, 3, DefaultRtt⟩ } := by
  obtain ⟨w₁, h₁, r₁, n₁, -, p₁, m₁⟩ := exists_send (.start 20)
  obtain ⟨w₂, h₂, r₂, n₂, k₂, -⟩ := exists_send h₁
  obtain ⟨w₃, h₃, r₃, n₃, k₃, p₃, m₃⟩ := exists_send h₂
  have hn₁ : w₁.history.length = 1 := n₁
  have hn₂ : w₂.history.length = 2 := by rw [n₂, hn₁]
  have hn₃ : w₃.history.length = 3 := by rw [n₃, hn₂]
  have hm₁ : (1, p₁) ∈ w₃.data := k₃ _ (k₂ _ m₁)
  have hm₃ : (3, p₃) ∈ w₃.data := by rwa [hn₂] at m₃
  obtain ⟨w₄, h₄, r₄, e₄, d₄⟩ := exists_deliver h₃ hm₁ (by omega)
  obtain ⟨w₅, h₅, r₅, -, -⟩ := exists_deliver h₄ (d₄ ▸ hm₃) (by rw [e₄, hn₃]; omega)
  refine ⟨w₅, h₅, ?_⟩
  have hfirst : w₄.receiver = { NackReceiver.initial 20 with
      nackgen := ⟨.empty, true, 1, DefaultRtt⟩ } := by
    rw [r₄, r₃, r₂, r₁]
    rfl
  rw [r₅, hfirst]
  exact congrArg (fun gen => { NackReceiver.initial 20 with nackgen := gen })
    (NackWatch.receive_gap (g := ⟨.empty, true, 1, DefaultRtt⟩) rfl rfl rfl)

/-- The receiver asks for the packet that was lost, and the sender has it. -/
theorem retransmission_of_gap : ∃ w, Reach w ∧
    (∃ p ∈ w.nacks, 2 ∈ (unpackingNack p []).value.2) ∧
    ∀ p ∈ w.nacks, ∀ s ∈ (unpackingNack p []).value.2,
      Sent w.history.length s ∧ (w.sender.pktMap s).isSome := by
  obtain ⟨w, hw, hr⟩ := exists_gap
  obtain ⟨probes, nack, r', ht, hprobes, hnack, -⟩ :=
    NackReceiver.tick_spec w.receiver NackCharge.tickAt1000
  have hasked := hw.step (.tick NackCharge.tickAt1000 ht)
  refine ⟨_, hasked, ?_, (retransmission_safe hasked).1⟩
  have hbatch : (getNackBatch (atBatch w.receiver) 1000).1 = [2] := by
    rw [hr]
    decide +kernel
  have hmem := NackCharge.sentNumbers_tick hprobes hnack
  change _ = decoded (getNackBatch (atBatch w.receiver) 1000).1 at hmem
  have htwo : (2 : UInt16) ∈ decoded (getNackBatch (atBatch w.receiver) 1000).1 := by
    rw [hbatch]
    simp [mem_decoded, HeadBlocks.blocks_cons, HeadBlocks.members, MAX_NACK_ITEM_NUM]
  rw [← hmem] at htwo
  obtain ⟨p, hp, hs⟩ := List.mem_flatMap.mp htwo
  exact ⟨p, List.mem_append_left _ hp, hs⟩

end ClosedLoop
