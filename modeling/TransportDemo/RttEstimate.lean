import TransportDemo.NackSender
import TransportDemo.StepTrace

/-!
# The round-trip-time estimate

The receiver numbers its probes, records when each was sent, and averages the
age of an echo into its estimate. The network repeats, delays and loses
probes and echoes. Probe `i`, counted from 0, carries the number `i + 1`
modulo 65536, and every packet in flight is kept with the probe it belongs to.
-/

namespace RttEstimate

open ByteBuffer NackPacket NackRoundTrip NackReceiver StepTrace

/-- The two parties, the clock readings at which the probes were sent, what was ever put in
flight for a probe, and the probes whose echo found its number in the map. -/
structure World where
  receiver : Receiver
  sender : NackSender.Sender
  readings : List UInt64
  probes : List (Nat × TESTTPPacket)
  echoes : List (Nat × TESTTPPacket)
  answered : List Nat

inductive Event where
  | tick (t : Tick)
  | senderTick (nowMs : UInt64) (fresh : TESTTPPacket)
  | deliverProbe (k : Nat) (fresh : TESTTPPacket)
  | deliverEcho (k : Nat) (recvMs : UInt64)
  | deliverData (pkt : TESTTPPacket) (recvMs : UInt64)

/-- The reading at which probe `i` was sent. -/
def World.sentAt (w : World) (i : Nat) : UInt64 := w.readings.getD i 0

/-- The probe that a delivered echo answers, the clock reading at the delivery, and the time
recorded under the echo's number, if there is one. -/
def found (w : World) : Event → Option (Nat × UInt64 × UInt32)
  | .deliverEcho k recvMs => do
    let (i, pkt) ← w.echoes[k]?
    let recorded ← w.receiver.rttCountMap (getRttNum pkt).toUInt16
    some (i, recvMs, recorded)
  | _ => none

/-- A delivery takes any packet in flight and leaves it there. -/
def step (w : World) : Event → World
  | .tick t =>
    match handleCrudeTimer w.receiver t with
    | none => w
    | some (sent, receiver) =>
      let fresh := sent.filter fun p => getType p = TPYE_RTT
      { w with
        receiver := receiver
        readings := w.readings ++ fresh.map fun _ => t.probeMs
        probes := fresh.map (fun p => (w.readings.length, p)) ++ w.probes }
  | .senderTick nowMs fresh =>
    match NackSender.handleCrudeTimer w.sender nowMs fresh with
    | none => w
    | some (_, sender) => { w with sender := sender }
  | .deliverProbe k fresh =>
    match w.probes[k]? with
    | none => w
    | some (i, pkt) =>
      match NackSender.handleReceiveFrom w.sender pkt fresh with
      | none => w
      | some (sent, sender) =>
        { w with sender := sender, echoes := sent.map (fun p => (i, p)) ++ w.echoes }
  | .deliverEcho k recvMs =>
    match w.echoes[k]? with
    | none => w
    | some (_, pkt) =>
      { w with
        receiver := handleReceiveFrom w.receiver pkt recvMs
        answered := ((found w (.deliverEcho k recvMs)).map Prod.fst).toList ++ w.answered }
  | .deliverData pkt recvMs =>
    if getType pkt = TPYE_RTT then w
    else { w with receiver := handleReceiveFrom w.receiver pkt recvMs }

/-- No probe has been sent. -/
def quiet (timerMs : UInt64) : World :=
  ⟨NackReceiver.initial timerMs, NackSender.initial, [], [], [], []⟩

/-- The estimate changes only by an echo, once for a probe; the sample is the time since that
probe was sent, and the new estimate lies between the old one and the sample. -/
def Sound (w : World) (e : Event) : Prop :=
  match found w e with
  | none => (step w e).receiver.rtt = w.receiver.rtt
  | some (i, recvMs, recorded) =>
    let sample : UInt32 := recvMs.toUInt32 - recorded
    i ∉ w.answered ∧ (w.sentAt i).toNat + sample.toNat = recvMs.toNat ∧
      min w.receiver.rtt.toNat sample.toNat ≤ (step w e).receiver.rtt.toNat ∧
      (step w e).receiver.rtt.toNat ≤ max w.receiver.rtt.toNat sample.toNat

/-- An echo that finds its number is one of the last 65536 probes' (or its probe has not been
answered and was sent at a reading with the recorded low half), the clock has not gone back
behind the sending, and the age and the estimate add up without carry. -/
def Timely (w : World) (e : Event) : Prop :=
  match found w e with
  | none => True
  | some (i, recvMs, recorded) =>
    (w.readings.length ≤ i + 65536 ∨ i ∉ w.answered ∧ recorded = (w.sentAt i).toUInt32) ∧
      w.sentAt i ≤ recvMs ∧
      recvMs.toNat - (w.sentAt i).toNat + w.receiver.rtt.toNat < 2 ^ 32

/-! ### Machine arithmetic -/

/-- The low halves give the elapsed time exactly if the low half is the sender's and less than
2^32 milliseconds have passed. -/
theorem elapsed_iff (recv sent : UInt64) (recorded : UInt32) :
    sent.toNat + (recv.toUInt32 - recorded).toNat = recv.toNat ↔
      recorded = sent.toUInt32 ∧ sent ≤ recv ∧ recv.toNat - sent.toNat < 2 ^ 32 := by
  have hrec := recorded.toNat_lt
  simp only [← UInt32.toNat_inj, UInt64.le_iff_toNat_le, UInt32.toNat_sub, UInt64.toNat_toUInt32]
  omega

/-- The halved sum is an average exactly if the sum does not carry. -/
theorem average_iff (a b : UInt32) :
    (min b.toNat a.toNat ≤ ((a + b) / 2).toNat ∧ ((a + b) / 2).toNat ≤ max b.toNat a.toNat) ↔
      a.toNat + b.toNat < 2 ^ 32 := by
  have ha := a.toNat_lt
  have hb := b.toNat_lt
  have htwo : (2 : UInt32).toNat = 2 := rfl
  simp only [UInt32.toNat_div, UInt32.toNat_add, htwo]
  omega

/-- The number of probe `i`. -/
def probeNum (i : Nat) : UInt16 := .ofNat (i + 1)

theorem probeNum_succ (i : Nat) : probeNum (i + 1) = probeNum i + 1 := by
  simp [probeNum, UInt16.ofNat_add]

theorem probeNum_inj {i j : Nat} (h : probeNum i = probeNum j) (hij : i < j + 65536)
    (hji : j < i + 65536) : i = j := by
  have hmod := congrArg UInt16.toNat h
  simp only [probeNum, UInt16.toNat_ofNat'] at hmod
  omega

/-! ### What the parties do with a probe -/

/-- A tick sends the probe, if any, and nothing else of its type. -/
theorem tick_probe {r r₁ : Receiver} {t : Tick} {probes : List TESTTPPacket}
    (h : sendProbe r t = some (probes, r₁)) : ∃ rest r',
    handleCrudeTimer r t = some (probes ++ rest, r') ∧
      (∀ p ∈ rest, getType p ≠ TPYE_RTT) ∧ r'.rttCountMap = r₁.rttCountMap ∧
      r'.rttCountNum = r₁.rttCountNum ∧ r'.rtt = r₁.rtt := by
  let batch := NackGen.getNackBatch (refreshRtt r₁).nackgen t.nowMs
  obtain ⟨nack, hnack, htype, -⟩ := packingNack_spec t.nackPacket batch.1
  have hkeep : (refreshRtt r₁).rttCountMap = r₁.rttCountMap ∧
      (refreshRtt r₁).rttCountNum = r₁.rttCountNum ∧ (refreshRtt r₁).rtt = r₁.rtt := by
    rw [refreshRtt]
    split <;> exact ⟨rfl, rfl, rfl⟩
  refine ⟨if batch.1.isEmpty then [] else [nack], { refreshRtt r₁ with
    nackgen := batch.2
    countTimerMs := (refreshRtt r₁).countTimerMs + (refreshRtt r₁).timerMs }, ?_, ?_, hkeep⟩
  · simp only [handleCrudeTimer, h, Option.bind_eq_bind, Option.bind_some, hnack, batch]
  · intro p hp
    split at hp
    · cases hp
    · rw [List.mem_singleton.mp hp, htype]
      decide

/-- The sender answers a probe with one echo of the same number. -/
theorem echo_probe (s : NackSender.Sender) {pkt : TESTTPPacket} (fresh : TESTTPPacket)
    (h : getType pkt = TPYE_RTT) : ∃ echo,
    NackSender.handleReceiveFrom s pkt fresh = some ([echo], s) ∧ getType echo = TPYE_RTT ∧
      (getRttNum echo).toUInt16 = (getRttNum pkt).toUInt16 := by
  obtain ⟨echo, hecho, htype, hnum⟩ := rttPacking_spec fresh (getRttNum pkt).toUInt16
  refine ⟨echo, ?_, htype, by rw [hnum, UInt16.toUInt16_toUInt32]⟩
  rw [NackSender.handleReceiveFrom, if_pos h, hecho]
  rfl

/-! ### The invariant -/

/-- `p` is a probe or an echo of probe `i`. -/
def Carries (n i : Nat) (p : TESTTPPacket) : Prop :=
  i < n ∧ getType p = TPYE_RTT ∧ (getRttNum p).toUInt16 = probeNum i

/-- What is recorded under a number is the sending of the last probe with that number, which has
not been answered. -/
structure Inv (w : World) : Prop where
  num : w.receiver.rttCountNum = probeNum w.readings.length
  recorded : ∀ num time, w.receiver.rttCountMap num = some time → ∃ i, probeNum i = num ∧
    i < w.readings.length ∧ w.readings.length ≤ i + 65536 ∧ i ∉ w.answered ∧
    time = (w.sentAt i).toUInt32
  probes : ∀ i p, (i, p) ∈ w.probes → Carries w.readings.length i p
  echoes : ∀ i p, (i, p) ∈ w.echoes → Carries w.readings.length i p
  answered : ∀ i ∈ w.answered, i < w.readings.length

theorem quiet_inv (timerMs : UInt64) : Inv (quiet timerMs) where
  num := rfl
  recorded _ _ h := by simp [quiet, NackReceiver.initial] at h
  probes _ _ h := by simp [quiet] at h
  echoes _ _ h := by simp [quiet] at h
  answered _ h := by simp [quiet] at h

/-- A tick that sends no probe changes nothing for the estimate. -/
theorem tick_idle {w : World} {t : Tick} (h : ¬ w.receiver.countTimerMs % 80 = 0) : ∃ r',
    step w (.tick t) = { w with receiver := r' } ∧
      r'.rttCountMap = w.receiver.rttCountMap ∧ r'.rttCountNum = w.receiver.rttCountNum ∧
      r'.rtt = w.receiver.rtt := by
  have hsend : sendProbe w.receiver t = some ([], w.receiver) := by rw [sendProbe, if_neg h]
  obtain ⟨rest, r', htick, hrest, hkeep⟩ := tick_probe hsend
  have hnone : rest.filter (fun p => getType p = TPYE_RTT) = [] :=
    List.filter_eq_nil_iff.mpr fun p hp => by simpa using hrest p hp
  refine ⟨r', ?_, hkeep⟩
  simp [step, htick, hnone]

/-- A tick that sends a probe records it. -/
theorem tick_due {w : World} {t : Tick} (h : w.receiver.countTimerMs % 80 = 0) : ∃ probe r',
    step w (.tick t) = { w with
      receiver := r'
      readings := w.readings ++ [t.probeMs]
      probes := (w.readings.length, probe) :: w.probes } ∧
      getType probe = TPYE_RTT ∧ (getRttNum probe).toUInt16 = w.receiver.rttCountNum ∧
      (r'.rttCountMap = fun num => if num = w.receiver.rttCountNum then some t.probeMs.toUInt32
        else w.receiver.rttCountMap num) ∧
      r'.rttCountNum = w.receiver.rttCountNum + 1 ∧ r'.rtt = w.receiver.rtt := by
  obtain ⟨probe, hprobe, htype, hnum⟩ := rttPacking_spec t.probePacket w.receiver.rttCountNum
  obtain ⟨r₁, hsend, hmap₁, hnum₁, hrtt₁⟩ : ∃ r₁, sendProbe w.receiver t = some ([probe], r₁) ∧
      (r₁.rttCountMap = fun num => if num = w.receiver.rttCountNum then some t.probeMs.toUInt32
        else w.receiver.rttCountMap num) ∧
      r₁.rttCountNum = w.receiver.rttCountNum + 1 ∧ r₁.rtt = w.receiver.rtt := by
    rw [sendProbe, if_pos h, hprobe]
    exact ⟨_, rfl, rfl, rfl, rfl⟩
  obtain ⟨rest, r', htick, hrest, hmap, hcount, hrtt⟩ := tick_probe hsend
  have hnone : rest.filter (fun p => getType p = TPYE_RTT) = [] :=
    List.filter_eq_nil_iff.mpr fun p hp => by simpa using hrest p hp
  refine ⟨probe, r', ?_, htype, by rw [hnum, UInt16.toUInt16_toUInt32], hmap.trans hmap₁,
    hcount.trans hnum₁, hrtt.trans hrtt₁⟩
  simp [step, htick, hnone, htype]

theorem Carries.later {n i : Nat} {p : TESTTPPacket} (h : Carries n i p) : Carries (n + 1) i p :=
  ⟨by have := h.1; omega, h.2⟩

/-- The 65536th probe after `i` has its number. -/
theorem probeNum_wrap (i : Nat) : probeNum (i + 65536) = probeNum i := by
  rw [← UInt16.toNat_inj, probeNum, probeNum, UInt16.toNat_ofNat', UInt16.toNat_ofNat']
  omega

theorem inv_tick {w : World} (h : Inv w) (t : Tick) : Inv (step w (.tick t)) := by
  by_cases hdue : w.receiver.countTimerMs % 80 = 0
  · obtain ⟨probe, r', hstep, htype, hnum, hmap, hcount, -⟩ := tick_due (t := t) hdue
    rw [hstep]
    constructor
    · rw [hcount, h.num, List.length_append, List.length_singleton, probeNum_succ]
    · intro num time hf
      simp only [hmap] at hf
      rw [List.length_append, List.length_singleton]
      split at hf
      · rename_i hnew
        refine ⟨w.readings.length, by rw [hnew, h.num], by omega, by omega, ?_, ?_⟩
        · exact fun hmem => absurd (h.answered _ hmem) (by omega)
        · simpa [World.sentAt] using (Option.some.inj hf).symm
      · rename_i hold
        obtain ⟨i, hi, hlt, hlast, hans, htime⟩ := h.recorded num time hf
        refine ⟨i, hi, by omega, ?_, hans, ?_⟩
        · -- otherwise the new probe has the number of probe `i`
          by_contra hfar
          have hwrap : w.readings.length = i + 65536 := by omega
          exact hold (hi.symm.trans (by rw [h.num, hwrap, probeNum_wrap]))
        · rw [htime, World.sentAt, World.sentAt, List.getD_append _ _ _ _ hlt]
    · intro i p hp
      rw [List.length_append, List.length_singleton]
      cases List.mem_cons.mp hp with
      | inl hnew =>
        obtain ⟨rfl, rfl⟩ := Prod.mk.inj hnew
        exact ⟨by omega, htype, hnum.trans h.num⟩
      | inr hold => exact (h.probes i p hold).later
    · intro i p hp
      rw [List.length_append, List.length_singleton]
      exact (h.echoes i p hp).later
    · intro i hi
      rw [List.length_append, List.length_singleton]
      exact Nat.lt_succ_of_lt (h.answered i hi)
  · obtain ⟨r', hstep, hmap, hcount, -⟩ := tick_idle (t := t) hdue
    rw [hstep]
    exact ⟨hcount.trans h.num, fun num time hf => h.recorded num time (hmap ▸ hf), h.probes,
      h.echoes, h.answered⟩

theorem inv_deliverProbe {w : World} (h : Inv w) (k : Nat) (fresh : TESTTPPacket) :
    Inv (step w (.deliverProbe k fresh)) := by
  cases hk : w.probes[k]? with
  | none => simpa only [step, hk] using h
  | some entry =>
    obtain ⟨i, pkt⟩ := entry
    have hcar := h.probes i pkt (List.mem_of_getElem? hk)
    obtain ⟨echo, hecho, htype, hnum⟩ := echo_probe w.sender fresh hcar.2.1
    simp only [step, hk, hecho]
    refine ⟨h.num, h.recorded, h.probes, fun j p hp => ?_, h.answered⟩
    cases List.mem_cons.mp hp with
    | inl hnew =>
      obtain ⟨rfl, rfl⟩ := Prod.mk.inj hnew
      exact ⟨hcar.1, htype, hnum.trans hcar.2.2⟩
    | inr hold => exact h.echoes j p hold

/-! ### A delivered echo -/

theorem found_echo {w : World} {k i : Nat} {recvMs : UInt64} {pkt : TESTTPPacket}
    (hk : w.echoes[k]? = some (i, pkt)) : found w (.deliverEcho k recvMs) =
      (w.receiver.rttCountMap (getRttNum pkt).toUInt16).map fun time => (i, recvMs, time) := by
  simp only [found, hk, Option.bind_eq_bind, Option.bind_some]
  cases w.receiver.rttCountMap (getRttNum pkt).toUInt16 <;> rfl

/-- An echo whose number is recorded is averaged in and its number forgotten. -/
theorem receive_echo {r : Receiver} {pkt : TESTTPPacket} {recvMs : UInt64} {time : UInt32}
    (htype : getType pkt = TPYE_RTT) (hf : r.rttCountMap (getRttNum pkt).toUInt16 = some time) :
    handleReceiveFrom r pkt recvMs = { r with
      rtt := ((recvMs.toUInt32 - time) + r.rtt) / 2
      rttCountMap := fun num =>
        if num = (getRttNum pkt).toUInt16 then none else r.rttCountMap num } := by
  simp only [handleReceiveFrom, htype, if_true, hf]

theorem receive_stale {r : Receiver} {pkt : TESTTPPacket} {recvMs : UInt64}
    (htype : getType pkt = TPYE_RTT) (hf : r.rttCountMap (getRttNum pkt).toUInt16 = none) :
    handleReceiveFrom r pkt recvMs = r := by
  simp only [handleReceiveFrom, htype, if_true, hf]

theorem inv_deliverEcho {w : World} (h : Inv w) (k : Nat) (recvMs : UInt64) :
    Inv (step w (.deliverEcho k recvMs)) := by
  cases hk : w.echoes[k]? with
  | none => simpa only [step, hk] using h
  | some entry =>
    obtain ⟨i, pkt⟩ := entry
    obtain ⟨hi, htype, hnum⟩ := h.echoes i pkt (List.mem_of_getElem? hk)
    cases hf : w.receiver.rttCountMap (getRttNum pkt).toUInt16 with
    | none =>
      simp only [step, hk, found_echo hk, hf, receive_stale htype hf]
      exact h
    | some time =>
      simp only [step, hk, found_echo hk, hf, receive_echo htype hf]
      refine ⟨h.num, fun num time' hf' => ?_, h.probes, h.echoes, fun j hj => ?_⟩
      · simp only at hf'
        split at hf'
        · cases hf'
        · rename_i hother
          obtain ⟨j, hj, hlt, hlast, hans, htime⟩ := h.recorded num time' hf'
          refine ⟨j, hj, hlt, hlast, fun hmem => ?_, htime⟩
          cases List.mem_cons.mp hmem with
          | inl hsame => exact hother (hj.symm.trans (hsame ▸ hnum.symm))
          | inr hold => exact hans hold
      · cases List.mem_cons.mp hj with
        | inl hsame => exact hsame ▸ hi
        | inr hold => exact h.answered j hold

theorem inv_step {w : World} (h : Inv w) (e : Event) : Inv (step w e) := by
  cases e with
  | tick t => exact inv_tick h t
  | senderTick nowMs fresh =>
    rw [step]
    split
    · exact h
    · exact ⟨h.num, h.recorded, h.probes, h.echoes, h.answered⟩
  | deliverProbe k fresh => exact inv_deliverProbe h k fresh
  | deliverEcho k recvMs => exact inv_deliverEcho h k recvMs
  | deliverData pkt recvMs =>
    rw [step]
    split
    · exact h
    · rename_i htype
      simp only [handleReceiveFrom, htype, if_false]
      exact ⟨h.num, h.recorded, h.probes, h.echoes, h.answered⟩

/-! ### Soundness of the updates -/

theorem rtt_unchanged {w : World} (h : Inv w) {e : Event} (hf : found w e = none) :
    (step w e).receiver.rtt = w.receiver.rtt := by
  cases e with
  | tick t =>
    by_cases hdue : w.receiver.countTimerMs % 80 = 0
    · obtain ⟨probe, r', hstep, -, -, -, -, hrtt⟩ := tick_due (t := t) hdue
      rw [hstep, hrtt]
    · obtain ⟨r', hstep, -, -, hrtt⟩ := tick_idle (t := t) hdue
      rw [hstep, hrtt]
  | senderTick nowMs fresh =>
    rw [step]
    split <;> rfl
  | deliverProbe k fresh =>
    rw [step]
    split
    · rfl
    · split <;> rfl
  | deliverEcho k recvMs =>
    cases hk : w.echoes[k]? with
    | none => simp only [step, hk]
    | some entry =>
      obtain ⟨i, pkt⟩ := entry
      have htype := (h.echoes i pkt (List.mem_of_getElem? hk)).2.1
      rw [found_echo hk, Option.map_eq_none_iff] at hf
      simp only [step, hk, receive_stale htype hf]
  | deliverData pkt recvMs =>
    rw [step]
    split
    · rfl
    · rename_i htype
      simp only [handleReceiveFrom, htype, if_false]

/-- What is found was recorded for the last probe with the number of the echo. -/
theorem found_spec {w : World} (h : Inv w) {e : Event} {i : Nat} {recvMs : UInt64} {time : UInt32}
    (hf : found w e = some (i, recvMs, time)) :
    (step w e).receiver.rtt = ((recvMs.toUInt32 - time) + w.receiver.rtt) / 2 ∧
      i < w.readings.length ∧ ∃ j, probeNum j = probeNum i ∧ j < w.readings.length ∧
        w.readings.length ≤ j + 65536 ∧ j ∉ w.answered ∧ time = (w.sentAt j).toUInt32 := by
  cases e with
  | deliverEcho k recv =>
    cases hk : w.echoes[k]? with
    | none => simp [found, hk] at hf
    | some entry =>
      obtain ⟨i', pkt⟩ := entry
      obtain ⟨hi, htype, hnum⟩ := h.echoes i' pkt (List.mem_of_getElem? hk)
      rw [found_echo hk] at hf
      obtain ⟨time', htime, heq⟩ := Option.map_eq_some_iff.mp hf
      obtain ⟨rfl, rfl, rfl⟩ : i' = i ∧ recv = recvMs ∧ time' = time := by simpa using heq
      refine ⟨?_, hi, ?_⟩
      · simp only [step, hk, receive_echo htype htime]
      · obtain ⟨j, hj, hrest⟩ := h.recorded _ _ htime
        exact ⟨j, hj.trans hnum, hrest⟩
  | _ => simp [found] at hf

theorem sound_step {w : World} (h : Inv w) (e : Event) : Sound w e ↔ Timely w e := by
  cases hf : found w e with
  | none => simp only [Sound, Timely, hf, rtt_unchanged h hf]
  | some entry =>
    obtain ⟨i, recvMs, time⟩ := entry
    obtain ⟨hrtt, hi, j, hj, hjlt, hlast, hans, htime⟩ := found_spec h hf
    simp only [Sound, Timely, hf, hrtt, average_iff, elapsed_iff]
    constructor
    · rintro ⟨hnew, ⟨hrec, hle, hshort⟩, hsum⟩
      have hsample := (elapsed_iff recvMs (w.sentAt i) time).mpr ⟨hrec, hle, hshort⟩
      exact ⟨.inr ⟨hnew, hrec⟩, hle, by omega⟩
    · rintro ⟨hprobe, hle, hsum⟩
      have hmatch : i ∉ w.answered ∧ time = (w.sentAt i).toUInt32 := by
        cases hprobe with
        | inl hrecent =>
          obtain rfl := probeNum_inj hj (by omega) (by omega)
          exact ⟨hans, htime⟩
        | inr hmatch => exact hmatch
      have hsample := (elapsed_iff recvMs (w.sentAt i) time).mpr ⟨hmatch.2, hle, by omega⟩
      exact ⟨hmatch.1, ⟨hmatch.2, hle, by omega⟩, by omega⟩

theorem run_quiet_inv (timerMs : UInt64) (events : List Event) :
    Inv (run step (quiet timerMs) events) :=
  run_inv (quiet_inv timerMs) (fun _ e h => inv_step h e) events

/-- In every run all updates of the estimate are sound exactly if every echo that finds its number
is timely. -/
theorem sound_iff_timely (timerMs : UInt64) (events : List Event) :
    (∀ done e, done ++ [e] <+: events → Sound (run step (quiet timerMs) done) e) ↔
      ∀ done e, done ++ [e] <+: events → Timely (run step (quiet timerMs) done) e :=
  forall_congr' fun done => forall_congr' fun e =>
    imp_congr_right fun _ => sound_step (run_quiet_inv timerMs done) e

/-- A probe sent at reading 1000 whose echo arrives, the clock set back, at 500. -/
theorem clock_back_skews :
    ¬ ∀ timerMs events done e, done ++ [e] <+: events →
      Sound (run step (quiet timerMs) done) e := by
  intro h
  have hsound := h 20 _ [.tick ⟨1000, 1000, ⟨fun _ => 0, 0⟩, ⟨fun _ => 0, 0⟩⟩,
    .deliverProbe 0 ⟨fun _ => 0, 0⟩] (.deliverEcho 0 500) List.prefix_rfl
  rw [sound_step (run_quiet_inv _ _)] at hsound
  obtain ⟨probe, r', htick, htype, hnum, hmap, -⟩ :=
    tick_due (w := quiet 20) (t := ⟨1000, 1000, ⟨fun _ => 0, 0⟩, ⟨fun _ => 0, 0⟩⟩) rfl
  obtain ⟨echo, hecho, -, hecnum⟩ :=
    echo_probe NackSender.initial ⟨fun _ => 0, 0⟩ htype
  obtain ⟨w, hw, hprobes, hechoes, hsent⟩ : ∃ w, run step (quiet 20)
      [.tick ⟨1000, 1000, ⟨fun _ => 0, 0⟩, ⟨fun _ => 0, 0⟩⟩, .deliverProbe 0 ⟨fun _ => 0, 0⟩] = w ∧
      w.receiver = r' ∧ w.echoes = [(0, echo)] ∧ w.readings = [1000] := by
    refine ⟨_, rfl, ?_⟩
    simp only [run, List.foldl_cons, List.foldl_nil, htick]
    simp [step, hecho, quiet]
  have hfound : found w (.deliverEcho 0 500) = some (0, 500, 1000) := by
    rw [found_echo (by rw [hechoes]; rfl), hprobes, hmap, hecnum, hnum]
    rfl
  rw [hw, Timely, hfound] at hsound
  have hle : w.sentAt 0 ≤ 500 := hsound.2.1
  rw [World.sentAt, hsent] at hle
  exact absurd hle (by decide)

end RttEstimate
