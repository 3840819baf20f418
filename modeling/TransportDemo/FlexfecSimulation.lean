import TransportDemo.FlexfecDecoder

/-!
# One decoder as the image of another

The decoder looks at nothing of a packet but its numbers, so a map of the
stored data that agrees with reading and combining FEC packets carries a run
of one erasure code into a run of the other. Combining has to agree only on
the FEC packets a run can hold, which is what `Ready` says.
-/

namespace FlexfecSimulation

open FlexfecDecoder

variable {P Q P' Q' : Type}

/-- The representation in `c` of what `c'` stores. SSRCs of FEC packets may be renamed where FEC
packets are told from media packets by `is_fec`. -/
structure Simulation (c' : ErasureCode P' Q') (c : ErasureCode P Q) where
  onSsrc : UInt32 → UInt32
  onPacket : P' → P
  onHeader : Q' → Q
  Ready : List (ReceivedFecPacket P' Q') → Prop
  onSsrc_injective : Function.Injective onSsrc
  onSsrc_apart : c.checksIsFec = true ∨ onSsrc = id
  protectedMediaSsrc : c.protectedMediaSsrc = c'.protectedMediaSsrc
  checksIsFec : c.checksIsFec = c'.checksIsFec
  list : c.list = c'.list
  protectedSsrc : ∀ q, c.protectedSsrc (onHeader q) = c'.protectedSsrc q
  maskSeqNums : ∀ q, c.maskSeqNums (onHeader q) = c'.maskSeqNums q

namespace Simulation

variable {c' : ErasureCode P' Q'} {c : ErasureCode P Q} (sim : Simulation c' c)

def slot (p : ProtectedPacket P') : ProtectedPacket P := ⟨p.seqNum, p.pkt.map sim.onPacket⟩

def recovered (r : RecoveredPacket P') : RecoveredPacket P :=
  { r with pkt := sim.onPacket r.pkt }

def fec (f : ReceivedFecPacket P' Q') : ReceivedFecPacket P Q where
  ssrc := sim.onSsrc f.ssrc
  seqNum := f.seqNum
  protectedPackets := f.protectedPackets.map sim.slot
  header := sim.onHeader f.header

def state (s : State P' Q') : State P Q :=
  ⟨s.recoveredPackets.map sim.recovered, s.receivedFecPackets.map sim.fec⟩

def received (p : ReceivedPacket P') : ReceivedPacket P where
  ssrc := if p.isFec then sim.onSsrc p.ssrc else p.ssrc
  seqNum := p.seqNum
  isFec := p.isFec
  pkt := sim.onPacket p.pkt

/-- An FEC packet is read alike. -/
def Reads (p : ReceivedPacket P') : Prop :=
  p.isFec = true → c.readFecHeader (sim.onPacket p.pkt) = (c'.readFecHeader p.pkt).map sim.onHeader

/-- `Ready` is kept by the recovery loop, and suffices for recovering alike. -/
structure Recovers : Prop where
  subset : ∀ {fecs fecs'}, sim.Ready fecs → fecs' ⊆ fecs → sim.Ready fecs'
  update : ∀ {fecs f packet}, sim.Ready fecs → f ∈ fecs →
    numCoveredPacketsMissing f.protectedPackets = 1 →
    c'.recoverPacket f.header f.protectedPackets = some packet →
    sim.Ready (updateCoveringFecPackets packet fecs)
  alike : ∀ {fecs f}, sim.Ready fecs → f ∈ fecs →
    numCoveredPacketsMissing f.protectedPackets = 1 →
    c.recoverPacket (sim.onHeader f.header) (f.protectedPackets.map sim.slot) =
      (c'.recoverPacket f.header f.protectedPackets).map sim.recovered

/-! ### The operations -/

theorem sort_map (sim : Simulation c' c) {α β : Type} (f : α → β) (key : α → UInt16)
    (key' : β → UInt16) (hkey : ∀ a, key' (f a) = key a) (l : List α) :
    c.list.sort key' (l.map f) = (c'.list.sort key l).map f := by
  rw [sim.list, c'.list.natural]
  simp only [hkey]

theorem cover_map (f : ReceivedFecPacket P' Q') (r : RecoveredPacket P') :
    (sim.fec f).cover (sim.recovered r) = sim.fec (f.cover r) := by
  have hnums : (f.protectedPackets.map sim.slot).map (·.seqNum) =
      f.protectedPackets.map (·.seqNum) := by
    rw [List.map_map]
    rfl
  simp only [ReceivedFecPacket.cover, fec, recovered, hnums, List.getElem?_map]
  cases f.protectedPackets[lowerBound (f.protectedPackets.map (·.seqNum)) r.seqNum]? with
  | none => rfl
  | some p =>
    simp only [Option.map_some, slot]
    split
    · simp only [List.map_set, slot, Option.map_some]
    · rfl

theorem updateCoveringFecPackets_map (r : RecoveredPacket P')
    (fecs : List (ReceivedFecPacket P' Q')) :
    updateCoveringFecPackets (sim.recovered r) (fecs.map sim.fec) =
      (updateCoveringFecPackets r fecs).map sim.fec := by
  simp only [updateCoveringFecPackets, List.map_map]
  exact List.map_congr_left fun f _ => sim.cover_map f r

theorem assignRecoveredPackets_map (slots : List (ProtectedPacket P'))
    (recovered : List (RecoveredPacket P')) :
    assignRecoveredPackets (slots.map sim.slot) (recovered.map sim.recovered) =
      (assignRecoveredPackets slots recovered).map sim.slot := by
  induction slots generalizing recovered with
  | nil => rfl
  | cons p ps ih =>
    simp only [List.map_cons, assignRecoveredPackets, List.dropWhile_map]
    have hpred : ((fun r : RecoveredPacket P => !lessThan (sim.slot p).seqNum r.seqNum &&
        lessThan r.seqNum (sim.slot p).seqNum) ∘ sim.recovered) =
        fun r => !lessThan p.seqNum r.seqNum && lessThan r.seqNum p.seqNum := rfl
    rw [hpred]
    cases recovered.dropWhile
        fun r => !lessThan p.seqNum r.seqNum && lessThan r.seqNum p.seqNum with
    | nil => rfl
    | cons r rs =>
      simp only [List.map_cons]
      rw [← List.map_cons, ih, ih, apply_ite (List.map sim.slot)]
      rfl

theorem discardOldRecoveredPackets_map (l : List (RecoveredPacket P')) :
    discardOldRecoveredPackets (l.map sim.recovered) =
      (discardOldRecoveredPackets l).map sim.recovered := by
  simp only [discardOldRecoveredPackets, List.length_map, List.map_drop]

theorem numCoveredPacketsMissing_map (slots : List (ProtectedPacket P')) :
    numCoveredPacketsMissing (slots.map sim.slot) = numCoveredPacketsMissing slots := by
  simp only [numCoveredPacketsMissing, List.countP_map]
  congr 2
  funext p
  simp [slot]

theorem insertMediaPacket_map (s : State P' Q') (p : ReceivedPacket P') (hp : p.isFec = false) :
    insertMediaPacket c (sim.state s) (sim.received p) = sim.state (insertMediaPacket c' s p) := by
  have hdup : (s.recoveredPackets.map sim.recovered).any (·.seqNum == p.seqNum) =
      s.recoveredPackets.any (·.seqNum == p.seqNum) := by
    rw [List.any_map]
    rfl
  simp only [insertMediaPacket, state, received, hdup]
  split
  · rfl
  · have hnew : (⟨if p.isFec then sim.onSsrc p.ssrc else p.ssrc, p.seqNum, true,
        sim.onPacket p.pkt⟩ : RecoveredPacket P) =
        sim.recovered ⟨p.ssrc, p.seqNum, true, p.pkt⟩ := by
      simp [recovered, hp]
    rw [hnew, sim.updateCoveringFecPackets_map]
    congr 1
    rw [← List.map_singleton (f := sim.recovered), ← List.map_append]
    exact sim.sort_map _ _ _ (fun _ => rfl) _

theorem storeFecPacket_map (fecs : List (ReceivedFecPacket P' Q')) (f : ReceivedFecPacket P' Q') :
    storeFecPacket c (fecs.map sim.fec) (sim.fec f) = (storeFecPacket c' fecs f).map sim.fec := by
  simp only [storeFecPacket]
  rw [← List.map_singleton (f := sim.fec), ← List.map_append,
    sim.sort_map sim.fec (·.seqNum) (·.seqNum) (fun _ => rfl), List.length_map, ← List.map_tail,
    ← apply_ite (List.map sim.fec)]

theorem insertFecPacket_map (s : State P' Q') (p : ReceivedPacket P') (hp : p.isFec = true)
    (hreads : sim.Reads p) :
    insertFecPacket c (sim.state s) (sim.received p) = sim.state (insertFecPacket c' s p) := by
  have hdup : (s.receivedFecPackets.map sim.fec).any (·.seqNum == p.seqNum) =
      s.receivedFecPackets.any (·.seqNum == p.seqNum) := by
    rw [List.any_map]
    rfl
  simp only [insertFecPacket, state, received, hdup, hreads hp]
  split
  · rfl
  · cases hheader : c'.readFecHeader p.pkt with
    | none => rfl
    | some header =>
      simp only [Option.map_some, sim.protectedSsrc, sim.protectedMediaSsrc, sim.maskSeqNums]
      split
      · rfl
      · cases hnums : c'.maskSeqNums header with
        | none => rfl
        | some nums =>
          have hslots : nums.map (fun n => (⟨n, none⟩ : ProtectedPacket P)) =
              (nums.map fun n => ⟨n, none⟩).map sim.slot := by
            rw [List.map_map]
            rfl
          simp only [hslots, sim.assignRecoveredPackets_map]
          split
          · rfl
          · exact congrArg (State.mk _) (sim.storeFecPacket_map _ ⟨_, _, _, _⟩)

theorem comparesWithFront_map (s : State P' Q') (p : ReceivedPacket P') :
    comparesWithFront c (sim.state s) (sim.received p) = comparesWithFront c' s p := by
  have hsame (front : ReceivedFecPacket P' Q') :
      ((sim.received p).ssrc == sim.onSsrc front.ssrc && (!c.checksIsFec || p.isFec)) =
        (p.ssrc == front.ssrc && (!c'.checksIsFec || p.isFec)) := by
    rw [← sim.checksIsFec]
    rcases sim.onSsrc_apart with hchecks | hid
    · cases hfec : p.isFec with
      | true => simp [received, hfec, beq_eq_decide, sim.onSsrc_injective.eq_iff]
      | false => simp [hchecks]
    · simp [received, hid]
  simp only [comparesWithFront, state, List.head?_map, Option.any_map]
  exact congrArg (Option.any · s.receivedFecPackets.head?) (funext hsame)

theorem discardOldFecPackets_map (s : State P' Q') (p : ReceivedPacket P') :
    discardOldFecPackets c (sim.state s) (sim.received p) =
      sim.state (discardOldFecPackets c' s p) := by
  rw [discardOldFecPackets, discardOldFecPackets, sim.comparesWithFront_map]
  split
  · simp only [state, List.dropWhile_map]
    rfl
  · rfl

theorem insertPacket_map (s : State P' Q') (p : ReceivedPacket P') (hreads : sim.Reads p) :
    insertPacket c (sim.state s) (sim.received p) = sim.state (insertPacket c' s p) := by
  have hinsert : (if (sim.received p).isFec then
      insertFecPacket c (sim.state (discardOldFecPackets c' s p)) (sim.received p)
      else insertMediaPacket c (sim.state (discardOldFecPackets c' s p)) (sim.received p)) =
      sim.state (if p.isFec then insertFecPacket c' (discardOldFecPackets c' s p) p
        else insertMediaPacket c' (discardOldFecPackets c' s p) p) := by
    cases hp : p.isFec with
    | true =>
      rw [if_pos (show (sim.received p).isFec = true from hp), if_pos rfl]
      exact sim.insertFecPacket_map _ p hp hreads
    | false =>
      rw [if_neg (show ¬ (sim.received p).isFec = true by simp [received, hp]),
        if_neg Bool.false_ne_true]
      exact sim.insertMediaPacket_map _ p hp
  simp only [insertPacket, sim.discardOldFecPackets_map, hinsert]
  simp only [state, sim.discardOldRecoveredPackets_map]

theorem resetOnGap_map (s : State P' Q') (p : ReceivedPacket P') :
    resetOnGap c (sim.state s) (sim.received p) = sim.state (resetOnGap c' s p) := by
  have hsame (back : RecoveredPacket P') :
      ((sim.received p).ssrc == back.ssrc && (!c.checksIsFec || !p.isFec) &&
          decide (kMaxMediaPackets < (minDiff p.seqNum back.seqNum).toNat)) =
        (p.ssrc == back.ssrc && (!c'.checksIsFec || !p.isFec) &&
          decide (kMaxMediaPackets < (minDiff p.seqNum back.seqNum).toNat)) := by
    rw [← sim.checksIsFec]
    rcases sim.onSsrc_apart with hchecks | hid
    · cases hfec : p.isFec with
      | true => simp [hchecks]
      | false => simp [received, hfec]
    · simp [received, hid]
  have hgap : bigGap c (sim.state s) (sim.received p) = bigGap c' s p := by
    simp only [bigGap, state, List.length_map, List.getLast?_map, Option.any_map]
    exact congrArg (s.recoveredPackets.length == kMaxMediaPackets && ·)
      (congrArg (Option.any · s.recoveredPackets.getLast?) (funext hsame))
  rw [resetOnGap, resetOnGap, hgap]
  split <;> rfl

/-! ### The recovery loop -/

theorem recoveryPass_map (hsim : sim.Recovers) {all : List (ReceivedFecPacket P' Q')}
    (hready : sim.Ready all) (fecs : List (ReceivedFecPacket P' Q')) (hsub : fecs ⊆ all) :
    recoveryPass c (fecs.map sim.fec) =
      ((recoveryPass c' fecs).1.map sim.fec,
        (recoveryPass c' fecs).2.map (Prod.map sim.recovered (List.map sim.fec))) := by
  induction fecs with
  | nil => rfl
  | cons f rest ih =>
    obtain ⟨hf, hrest⟩ := List.cons_subset.mp hsub
    have hmissing : numCoveredPacketsMissing (sim.fec f).protectedPackets =
        numCoveredPacketsMissing f.protectedPackets := sim.numCoveredPacketsMissing_map _
    simp only [List.map_cons, recoveryPass, hmissing]
    cases hm : numCoveredPacketsMissing f.protectedPackets with
    | zero => exact ih hrest
    | succ n =>
      cases n with
      | zero =>
        simp only [fec, hsim.alike hready hf hm]
        cases c'.recoverPacket f.header f.protectedPackets with
        | none => exact ih hrest
        | some packet => rfl
      | succ n => simp only [ih hrest, List.map_cons]

theorem attemptRecoveryLoop_map (hsim : sim.Recovers) (fuel : Nat) (s : State P' Q')
    (hready : sim.Ready s.receivedFecPackets) :
    attemptRecoveryLoop c fuel (sim.state s) = sim.state (attemptRecoveryLoop c' fuel s) := by
  induction fuel generalizing s with
  | zero => rfl
  | succ fuel ih =>
    have hpass : recoveryPass c (sim.state s).receivedFecPackets = _ :=
      sim.recoveryPass_map hsim hready _ (List.Subset.refl _)
    rw [attemptRecoveryLoop, attemptRecoveryLoop, hpass]
    cases hfound : recoveryPass c' s.receivedFecPackets with
    | mk kept found =>
      cases found with
      | none => rfl
      | some found =>
        obtain ⟨packet, rest⟩ := found
        obtain ⟨f, hf, hm, hpacket, hsub⟩ := recoveryPass_some hfound
        simp only [Option.map_some, Prod.map_apply]
        rw [← ih _ (hsim.subset (hsim.update hready hf hm hpacket) (List.map_subset _ hsub)),
          ← List.map_append, sim.updateCoveringFecPackets_map]
        congr 1
        simp only [state]
        rw [← List.map_singleton (f := sim.recovered), ← List.map_append,
          sim.sort_map sim.recovered (·.seqNum) (·.seqNum) (fun _ => rfl),
          sim.discardOldRecoveredPackets_map]

theorem decodeFec_map (hsim : sim.Recovers) (s : State P' Q') (p : ReceivedPacket P')
    (hreads : sim.Reads p)
    (hready : sim.Ready (insertPacket c' (resetOnGap c' s p) p).receivedFecPackets) :
    decodeFec c (sim.state s) (sim.received p) = sim.state (decodeFec c' s p) := by
  rw [decodeFec, decodeFec, sim.resetOnGap_map, sim.insertPacket_map _ p hreads, attemptRecovery,
    attemptRecovery, ← sim.attemptRecoveryLoop_map hsim _ _ hready]
  simp only [state, List.length_map]

theorem processReceivedPacket_map (hsim : sim.Recovers) (s : State P' Q')
    (p : ReceivedPacket P') (hreads : sim.Reads p)
    (hready : sim.Ready (insertPacket c' (resetOnGap c' s p) p).receivedFecPackets) :
    processReceivedPacket c (sim.state s) (sim.received p) =
      (processReceivedPacket c' s p).map sim.state (List.map sim.onPacket) := by
  rw [processReceivedPacket, processReceivedPacket, sim.decodeFec_map hsim s p hreads hready]
  simp only [state, Prod.map_apply, List.map_map, List.filter_map]
  rfl

end Simulation

end FlexfecSimulation
