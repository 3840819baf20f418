import TransportDemo.FlexfecRun
import TransportDemo.FlexfecSearch

/-!
# What the decoder holds

While the numbers at hand lie on half of the circle, both lists stay in order
and an FEC packet never lacks a packet that is held, whatever arrives in which
order. `AttemptRecovery` goes on until every FEC packet it keeps lacks two
packets: nothing that could be recovered from what is held stays unrecovered.
-/

namespace FlexfecHeld

open FlexfecDecoder FlexfecEncoder FlexfecParity FlexfecIdeal FlexfecRun FlexfecSearch

/-! ### The recovery loop -/

section Loop

variable {P Q : Type} {c : ErasureCode P Q}

/-- An FEC packet of no further use. -/
def Spent (c : ErasureCode P Q) (f : ReceivedFecPacket P Q) : Prop :=
  numCoveredPacketsMissing f.protectedPackets = 0 ∨
    numCoveredPacketsMissing f.protectedPackets = 1 ∧
      c.recoverPacket f.header f.protectedPackets = none

theorem missing_cases (slots : List (ProtectedPacket P)) :
    numCoveredPacketsMissing slots = 0 ∨ numCoveredPacketsMissing slots = 1 ∨
      numCoveredPacketsMissing slots = 2 := by
  simp only [numCoveredPacketsMissing]
  omega

/-- A pass that recovers nothing keeps the FEC packets that lack two packets. -/
theorem recoveryPass_keeps {fecs kept : List (ReceivedFecPacket P Q)}
    (h : recoveryPass c fecs = (kept, none)) :
    (∀ f ∈ fecs, f ∈ kept ∨ Spent c f) ∧ kept.Sublist fecs ∧
      ∀ f ∈ kept, numCoveredPacketsMissing f.protectedPackets = 2 := by
  induction fecs generalizing kept with
  | nil =>
    obtain rfl : [] = kept := congrArg Prod.fst h
    exact ⟨List.forall_mem_nil _, List.Sublist.refl _, List.forall_mem_nil _⟩
  | cons f fecs ih =>
    rw [recoveryPass] at h
    rcases missing_cases f.protectedPackets with h0 | h1 | h2
    · simp only [h0] at h
      obtain ⟨hfecs, hsub, hkept⟩ := ih h
      exact ⟨List.forall_mem_cons.mpr ⟨.inr (.inl h0), hfecs⟩, hsub.cons f, hkept⟩
    · simp only [h1] at h
      cases hrecover : c.recoverPacket f.header f.protectedPackets with
      | none =>
        simp only [hrecover] at h
        obtain ⟨hfecs, hsub, hkept⟩ := ih h
        exact ⟨List.forall_mem_cons.mpr ⟨.inr (.inr ⟨h1, hrecover⟩), hfecs⟩, hsub.cons f, hkept⟩
      | some packet => simp [hrecover] at h
    · simp only [h2] at h
      obtain ⟨rfl, hrest⟩ := Prod.mk.inj h
      obtain ⟨hfecs, hsub, hkept⟩ := ih (Prod.ext rfl hrest)
      refine ⟨List.forall_mem_cons.mpr ⟨.inl List.mem_cons_self, fun g hg => ?_⟩,
        hsub.cons_cons f, List.forall_mem_cons.mpr ⟨h2, hkept⟩⟩
      exact (hfecs g hg).imp_left (List.mem_cons_of_mem f)

/-- A recovery uses up the FEC packet it comes from, and nothing else of use. -/
theorem recoveryPass_uses {fecs kept rest : List (ReceivedFecPacket P Q)}
    {packet : RecoveredPacket P} (h : recoveryPass c fecs = (kept, some (packet, rest))) :
    (∃ f ∈ fecs, numCoveredPacketsMissing f.protectedPackets = 1 ∧
      c.recoverPacket f.header f.protectedPackets = some packet ∧
      ∀ g ∈ fecs, g ∈ kept ++ rest ∨ g = f ∨ Spent c g) ∧
      (kept ++ rest).Sublist fecs ∧ (kept ++ rest).length < fecs.length := by
  induction fecs generalizing kept with
  | nil => cases h
  | cons f fecs ih =>
    rw [recoveryPass] at h
    have later (hspent : Spent c f) (h : recoveryPass c fecs = (kept, some (packet, rest))) :
        (∃ f' ∈ f :: fecs, numCoveredPacketsMissing f'.protectedPackets = 1 ∧
          c.recoverPacket f'.header f'.protectedPackets = some packet ∧
          ∀ g ∈ f :: fecs, g ∈ kept ++ rest ∨ g = f' ∨ Spent c g) ∧
          (kept ++ rest).Sublist (f :: fecs) ∧ (kept ++ rest).length < (f :: fecs).length := by
      obtain ⟨⟨f', hf', hmissing, hpacket, huses⟩, hsub, hlen⟩ := ih h
      refine ⟨⟨f', List.mem_cons_of_mem f hf', hmissing, hpacket, ?_⟩, hsub.cons f,
        Nat.lt_succ_of_lt hlen⟩
      exact List.forall_mem_cons.mpr ⟨.inr (.inr hspent), huses⟩
    rcases missing_cases f.protectedPackets with h0 | h1 | h2
    · simp only [h0] at h
      exact later (.inl h0) h
    · simp only [h1] at h
      cases hrecover : c.recoverPacket f.header f.protectedPackets with
      | none =>
        simp only [hrecover] at h
        exact later (.inr ⟨h1, hrecover⟩) h
      | some found =>
        simp only [hrecover] at h
        obtain ⟨rfl, hsome⟩ := Prod.mk.inj h
        obtain ⟨rfl, rfl⟩ := Prod.mk.inj (Option.some.inj hsome)
        refine ⟨⟨f, List.mem_cons_self, h1, hrecover, ?_⟩, List.sublist_cons_self f fecs,
          Nat.lt_succ_self _⟩
        exact List.forall_mem_cons.mpr ⟨.inr (.inl rfl), fun g hg => .inl hg⟩
    · simp only [h2] at h
      obtain ⟨rfl, hrest⟩ := Prod.mk.inj h
      obtain ⟨⟨f', hf', hmissing, hpacket, huses⟩, hsub, hlen⟩ := ih (Prod.ext rfl hrest)
      refine ⟨⟨f', List.mem_cons_of_mem f hf', hmissing, hpacket, ?_⟩, hsub.cons_cons f,
        Nat.succ_lt_succ hlen⟩
      refine List.forall_mem_cons.mpr ⟨.inl List.mem_cons_self, fun g hg => ?_⟩
      exact (huses g hg).imp_left (List.mem_cons_of_mem f)

/-- The state after a recovery. -/
def addRecovered (c : ErasureCode P Q) (s : State P Q) (packet : RecoveredPacket P)
    (fecs : List (ReceivedFecPacket P Q)) : State P Q where
  recoveredPackets :=
    discardOldRecoveredPackets (c.list.sort (·.seqNum) (s.recoveredPackets ++ [packet]))
  receivedFecPackets := updateCoveringFecPackets packet fecs

/-- What every recovery and the last pass keep holds in the end, when every FEC packet that is
left lacks two packets. -/
theorem attemptRecovery_rule {I : State P Q → Prop}
    (hlast : ∀ s kept, I s → kept.Sublist s.receivedFecPackets →
      (∀ f ∈ s.receivedFecPackets, f ∈ kept ∨ Spent c f) → I ⟨s.recoveredPackets, kept⟩)
    (hrecover : ∀ s f packet fecs, I s → f ∈ s.receivedFecPackets →
      numCoveredPacketsMissing f.protectedPackets = 1 →
      c.recoverPacket f.header f.protectedPackets = some packet →
      fecs.Sublist s.receivedFecPackets →
      (∀ g ∈ s.receivedFecPackets, g ∈ fecs ∨ g = f ∨ Spent c g) → I (addRecovered c s packet fecs))
    {s : State P Q} (h : I s) :
    I (attemptRecovery c s) ∧ ∀ f ∈ (attemptRecovery c s).receivedFecPackets,
      numCoveredPacketsMissing f.protectedPackets = 2 := by
  have hloop : ∀ fuel (s : State P Q), I s → s.receivedFecPackets.length ≤ fuel →
      I (attemptRecoveryLoop c fuel s) ∧
        ∀ f ∈ (attemptRecoveryLoop c fuel s).receivedFecPackets,
          numCoveredPacketsMissing f.protectedPackets = 2 := by
    intro fuel
    induction fuel with
    | zero =>
      intro s h hlen
      obtain hnil : s.receivedFecPackets = [] := List.length_eq_zero_iff.mp (Nat.le_zero.mp hlen)
      exact ⟨h, by simp [attemptRecoveryLoop, hnil]⟩
    | succ fuel ih =>
      intro s h hlen
      rw [attemptRecoveryLoop]
      split
      · next kept hpass =>
        obtain ⟨hfecs, hsub, hkept⟩ := recoveryPass_keeps hpass
        exact ⟨hlast s kept h hsub hfecs, hkept⟩
      · next kept packet rest hpass =>
        obtain ⟨⟨f, hf, hmissing, hpacket, huses⟩, hsub, hshort⟩ := recoveryPass_uses hpass
        refine ih _ (hrecover s f packet (kept ++ rest) h hf hmissing hpacket hsub huses) ?_
        rw [updateCoveringFecPackets, List.length_map]
        omega
  exact hloop _ s h (Nat.le_refl _)

end Loop

/-! ### What stays in order -/

section Held

variable {P Q : Type} {c : ErasureCode P Q} {base : UInt16} {s : State P Q}

/-- Both lists are in order, the slots of an FEC packet are those its mask names, and it lacks
nothing that is held. -/
structure Held (c : ErasureCode P Q) (s : State P Q) : Prop where
  recovered : Ascending (·.seqNum) s.recoveredPackets
  named : ∀ f ∈ s.receivedFecPackets,
    c.maskSeqNums f.header = some (f.protectedPackets.map (·.seqNum))
  slots : ∀ f ∈ s.receivedFecPackets, Ascending (·.seqNum) f.protectedPackets
  filled : ∀ f ∈ s.receivedFecPackets, ∀ p ∈ f.protectedPackets, ∀ r ∈ s.recoveredPackets,
    p.seqNum = r.seqNum → p.pkt.isSome = true

/-- All numbers at hand lie on half of the circle. -/
structure NearState (base : UInt16) (s : State P Q) : Prop where
  recovered : ∀ r ∈ s.recoveredPackets, Near base r.seqNum
  slots : ∀ f ∈ s.receivedFecPackets, ∀ p ∈ f.protectedPackets, Near base p.seqNum

theorem Held.empty : Held c ⟨[], []⟩ :=
  ⟨.nil, List.forall_mem_nil _, List.forall_mem_nil _, List.forall_mem_nil _⟩

theorem Held.sublist {rs : List (RecoveredPacket P)} {fecs : List (ReceivedFecPacket P Q)}
    (h : Held c s) (hrs : rs.Sublist s.recoveredPackets) (hfecs : fecs ⊆ s.receivedFecPackets) :
    Held c ⟨rs, fecs⟩ where
  recovered := h.recovered.sublist hrs
  named f hf := h.named f (hfecs hf)
  slots f hf := h.slots f (hfecs hf)
  filled f hf p hp r hr := h.filled f (hfecs hf) p hp r (hrs.subset hr)

theorem NearState.subset {rs : List (RecoveredPacket P)} {fecs : List (ReceivedFecPacket P Q)}
    (h : NearState base s) (hrs : rs ⊆ s.recoveredPackets) (hfecs : fecs ⊆ s.receivedFecPackets) :
    NearState base ⟨rs, fecs⟩ where
  recovered r hr := h.recovered r (hrs hr)
  slots f hf := h.slots f (hfecs hf)

theorem fill_isSome {r : RecoveredPacket P} {p : ProtectedPacket P} :
    (fill r p).pkt.isSome = true ↔ p.seqNum = r.seqNum ∨ p.pkt.isSome = true := by
  rw [fill]
  split
  · next h => simp [h]
  · next h => simp [h]

theorem cover_held {f : ReceivedFecPacket P Q} {r : RecoveredPacket P} (h : Held c s)
    (hnear : NearState base s) (hf : f ∈ s.receivedFecPackets) (hr : Near base r.seqNum) :
    f.cover r = { f with protectedPackets := f.protectedPackets.map (fill r) } :=
  cover_eq (h.slots f hf) (hnear.slots f hf) hr

/-- A packet that was not held is put in its place in both lists. -/
theorem Held.add {r : RecoveredPacket P} (hsorts : Sorts c.list) (h : Held c s)
    (hnear : NearState base s) (hr : Near base r.seqNum)
    (hnew : ∀ r' ∈ s.recoveredPackets, r'.seqNum ≠ r.seqNum) :
    Held c ⟨c.list.sort (·.seqNum) (s.recoveredPackets ++ [r]),
      updateCoveringFecPackets r s.receivedFecPackets⟩ ∧
    NearState base (⟨c.list.sort (·.seqNum) (s.recoveredPackets ++ [r]),
      updateCoveringFecPackets r s.receivedFecPackets⟩ : State P Q) := by
  have hmem {r' : RecoveredPacket P}
      (hr' : r' ∈ c.list.sort (·.seqNum) (s.recoveredPackets ++ [r])) :
      r' ∈ s.recoveredPackets ∨ r' = r := by
    simpa using (c.list.perm _ _).subset hr'
  have hall : ∀ r' ∈ s.recoveredPackets ++ [r], Near base r'.seqNum := by
    intro r' hr'
    rcases List.mem_append.mp hr' with hr' | hr'
    · exact hnear.recovered r' hr'
    · obtain rfl := List.mem_singleton.mp hr'
      exact hr
  have hnodup : ((s.recoveredPackets ++ [r]).map (·.seqNum)).Nodup := by
    rw [List.map_append, List.nodup_append]
    refine ⟨h.recovered.nodup, List.nodup_singleton _, ?_⟩
    rintro a ha b hb rfl
    obtain ⟨r', hr', rfl⟩ := List.mem_map.mp ha
    exact hnew r' hr' (by simpa using hb)
  refine ⟨⟨hsorts.ascending hall hnodup, ?_, ?_, ?_⟩, ⟨?_, ?_⟩⟩
  · intro g hg
    obtain ⟨f, hf, rfl⟩ := List.mem_map.mp hg
    rw [cover_held h hnear hf hr, h.named f hf, List.map_map]
    simp only [Function.comp_def, fill_seqNum]
  · intro g hg
    obtain ⟨f, hf, rfl⟩ := List.mem_map.mp hg
    rw [cover_held h hnear hf hr]
    refine List.pairwise_map.mpr ((h.slots f hf).imp ?_)
    simp
  · intro g hg p hp r' hr' heq
    obtain ⟨f, hf, rfl⟩ := List.mem_map.mp hg
    rw [cover_held h hnear hf hr] at hp
    obtain ⟨q, hq, rfl⟩ := List.mem_map.mp hp
    rw [fill_seqNum] at heq
    rw [fill_isSome]
    rcases hmem hr' with hr' | rfl
    · exact .inr (h.filled f hf q hq r' hr' heq)
    · exact .inl heq
  · intro r' hr'
    exact hall r' ((c.list.perm _ _).subset hr')
  · intro g hg p hp
    obtain ⟨f, hf, rfl⟩ := List.mem_map.mp hg
    rw [cover_held h hnear hf hr] at hp
    obtain ⟨q, hq, rfl⟩ := List.mem_map.mp hp
    rw [fill_seqNum]
    exact hnear.slots f hf q hq

/-- What the order rests on: the sort sorts, a mask names its packets in their order, and what is
recovered is the missing packet. -/
structure Orderly (c : ErasureCode P Q) : Prop where
  sorts : Sorts c.list
  mask : ∀ p q nums, c.readFecHeader p = some q → c.maskSeqNums q = some nums → Ascending id nums
  recovers : ∀ q slots r, c.maskSeqNums q = some (slots.map (·.seqNum)) →
    numCoveredPacketsMissing slots = 1 → c.recoverPacket q slots = some r →
    ∃ p ∈ slots, p.pkt.isSome = false ∧ p.seqNum = r.seqNum

/-- The state into which the packet is inserted. -/
def cleared (c : ErasureCode P Q) (s : State P Q) (p : ReceivedPacket P) : State P Q :=
  discardOldFecPackets c (resetOnGap c s p) p

theorem cleared_sublist (c : ErasureCode P Q) (s : State P Q) (p : ReceivedPacket P) :
    (cleared c s p).recoveredPackets.Sublist s.recoveredPackets ∧
      (cleared c s p).receivedFecPackets.Sublist s.receivedFecPackets := by
  have hreset : (resetOnGap c s p).recoveredPackets.Sublist s.recoveredPackets ∧
      (resetOnGap c s p).receivedFecPackets.Sublist s.receivedFecPackets := by
    rw [resetOnGap]
    split
    · exact ⟨List.nil_sublist _, List.nil_sublist _⟩
    · exact ⟨List.Sublist.refl _, List.Sublist.refl _⟩
  rw [cleared, discardOldFecPackets]
  split
  · exact ⟨hreset.1, (List.dropWhile_sublist _).trans hreset.2⟩
  · exact hreset

/-- The numbers at hand and those the packet brings lie on half of the circle. -/
structure NearStep (c : ErasureCode P Q) (base : UInt16) (s : State P Q) (p : ReceivedPacket P) :
    Prop where
  state : NearState base (cleared c s p)
  media : p.isFec = false → Near base p.seqNum
  fec : ∀ q nums, p.isFec = true → c.readFecHeader p.pkt = some q → c.maskSeqNums q = some nums →
    ∀ n ∈ nums, Near base n

/-! ### Insertion -/

theorem insertMediaPacket_held {p : ReceivedPacket P} (hsorts : Sorts c.list) (h : Held c s)
    (hnear : NearState base s) (hp : Near base p.seqNum) :
    Held c (insertMediaPacket c s p) ∧ NearState base (insertMediaPacket c s p) := by
  rw [insertMediaPacket]
  split
  · exact ⟨h, hnear⟩
  · next hany =>
    refine h.add hsorts hnear hp fun r hr heq => hany ?_
    exact List.any_eq_true.mpr ⟨r, hr, by simpa using heq⟩

theorem fillFrom_seqNum (rs : List (RecoveredPacket P)) (p : ProtectedPacket P) :
    (fillFrom rs p).seqNum = p.seqNum := by
  rw [fillFrom]
  split <;> rfl

theorem fillFrom_isSome {rs : List (RecoveredPacket P)} {num : UInt16} :
    (fillFrom rs ⟨num, none⟩).pkt.isSome = true ↔ ∃ r ∈ rs, r.seqNum = num := by
  rw [fillFrom]
  split
  · next hnone => simpa using List.find?_eq_none.mp hnone
  · next r hfind =>
    exact iff_of_true rfl
      ⟨r, List.mem_of_find?_eq_some hfind, by simpa using List.find?_some hfind⟩

/-- The slots of an FEC packet when it is stored. -/
def slotsOf (nums : List UInt16) (rs : List (RecoveredPacket P)) : List (ProtectedPacket P) :=
  nums.map fun n => fillFrom rs ⟨n, none⟩

theorem slotsOf_seqNum (nums : List UInt16) (rs : List (RecoveredPacket P)) :
    (slotsOf nums rs).map (·.seqNum) = nums := by
  rw [slotsOf, List.map_map]
  simp only [Function.comp_def, fillFrom_seqNum, List.map_id']

theorem slotsOf_ascending {nums : List UInt16} (rs : List (RecoveredPacket P))
    (hnums : Ascending id nums) : Ascending (·.seqNum) (slotsOf nums rs) := by
  refine List.pairwise_map.mpr (hnums.imp fun {a b} hab => ?_)
  simp only [fillFrom_seqNum]
  exact hab

theorem assign_slotsOf {nums : List UInt16} {rs : List (RecoveredPacket P)}
    (hnums : Ascending id nums) (hrs : Ascending (·.seqNum) rs) (hnear : ∀ n ∈ nums, Near base n)
    (hrnear : ∀ r ∈ rs, Near base r.seqNum) :
    assignRecoveredPackets (nums.map fun n => ⟨n, none⟩) rs = slotsOf nums rs := by
  have hempty : Ascending (·.seqNum) (nums.map fun n => (⟨n, none⟩ : ProtectedPacket P)) :=
    List.pairwise_map.mpr (hnums.imp fun hab => hab)
  rw [assignRecoveredPackets_eq hempty hrs (by simpa using hnear) hrnear, List.map_map]
  rfl

/-- With room for it the FEC packet is put with the others. -/
theorem storeFecPacket_perm {fecs : List (ReceivedFecPacket P Q)} {f : ReceivedFecPacket P Q}
    (hlen : fecs.length < kMaxFecPackets) : (storeFecPacket c fecs f).Perm (fecs ++ [f]) := by
  have hperm := c.list.perm (fun f : ReceivedFecPacket P Q => f.seqNum) (fecs ++ [f])
  have hshort : ¬ kMaxFecPackets < (c.list.sort (·.seqNum) (fecs ++ [f])).length := by
    rw [hperm.length_eq, List.length_append, List.length_singleton]
    omega
  rw [storeFecPacket, if_neg hshort]
  exact hperm

theorem mem_of_mem_storeFecPacket {fecs : List (ReceivedFecPacket P Q)} {f g : ReceivedFecPacket P Q}
    (hg : g ∈ storeFecPacket c fecs f) : g ∈ fecs ∨ g = f := by
  have hmem : g ∈ c.list.sort (·.seqNum) (fecs ++ [f]) := by
    rw [storeFecPacket] at hg
    split at hg
    · exact List.mem_of_mem_tail hg
    · exact hg
  simpa using (c.list.perm _ _).subset hmem

/-- An FEC packet is not stored, or it is read and stored with what is held of its packets. -/
theorem insertFecPacket_cases (c : ErasureCode P Q) (s : State P Q) (p : ReceivedPacket P) :
    insertFecPacket c s p = s ∨ ∃ q nums, c.readFecHeader p.pkt = some q ∧
      c.maskSeqNums q = some nums ∧ insertFecPacket c s p =
        ⟨s.recoveredPackets, storeFecPacket c s.receivedFecPackets ⟨p.ssrc, p.seqNum,
          assignRecoveredPackets (nums.map fun n => ⟨n, none⟩) s.recoveredPackets, q⟩⟩ := by
  rw [insertFecPacket]
  split
  · exact .inl rfl
  · split
    · exact .inl rfl
    · next q hread =>
      split
      · exact .inl rfl
      · split
        · exact .inl rfl
        · next nums hmask =>
          split
          · exact .inl rfl
          · exact .inr ⟨q, nums, hread, hmask, rfl⟩

theorem insertFecPacket_held {p : ReceivedPacket P} (hc : Orderly c) (h : Held c s)
    (hnear : NearState base s)
    (hp : ∀ q nums, c.readFecHeader p.pkt = some q → c.maskSeqNums q = some nums →
      ∀ n ∈ nums, Near base n) :
    Held c (insertFecPacket c s p) ∧ NearState base (insertFecPacket c s p) := by
  rcases insertFecPacket_cases c s p with hsame | ⟨q, nums, hread, hmask, hstored⟩
  · rw [hsame]
    exact ⟨h, hnear⟩
  · have hnums := hp q nums hread hmask
    have hasc := hc.mask p.pkt q nums hread hmask
    rw [hstored, assign_slotsOf hasc h.recovered hnums hnear.recovered]
    refine ⟨⟨h.recovered, fun g hg => ?_, fun g hg => ?_, fun g hg slot hslot r hr heq => ?_⟩,
      ⟨hnear.recovered, fun g hg slot hslot => ?_⟩⟩
    · rcases mem_of_mem_storeFecPacket hg with hg | rfl
      · exact h.named g hg
      · rw [slotsOf_seqNum]
        exact hmask
    · rcases mem_of_mem_storeFecPacket hg with hg | rfl
      · exact h.slots g hg
      · exact slotsOf_ascending s.recoveredPackets hasc
    · rcases mem_of_mem_storeFecPacket hg with hg | rfl
      · exact h.filled g hg slot hslot r hr heq
      · obtain ⟨n, hn, rfl⟩ := List.mem_map.mp hslot
        rw [fillFrom_seqNum] at heq
        exact Iff.mpr fillFrom_isSome ⟨r, hr, heq.symm⟩
    · rcases mem_of_mem_storeFecPacket hg with hg | rfl
      · exact hnear.slots g hg slot hslot
      · obtain ⟨n, hn, rfl⟩ := List.mem_map.mp hslot
        rw [fillFrom_seqNum]
        exact hnums n hn

theorem insertPacket_held {p : ReceivedPacket P} (hc : Orderly c) (h : Held c s)
    (hstep : NearStep c base s p) :
    Held c (insertPacket c (resetOnGap c s p) p) ∧
      NearState base (insertPacket c (resetOnGap c s p) p) := by
  obtain ⟨hrs, hfecs⟩ := cleared_sublist c s p
  have hcleared : Held c (cleared c s p) := h.sublist hrs hfecs.subset
  have hdrop (s : State P Q) (h : Held c s) (hnear : NearState base s) :
      Held c { s with recoveredPackets := discardOldRecoveredPackets s.recoveredPackets } ∧
        NearState base { s with recoveredPackets := discardOldRecoveredPackets s.recoveredPackets } :=
    ⟨h.sublist (List.drop_sublist _ _) (List.Subset.refl _),
      hnear.subset (List.drop_subset _ _) (List.Subset.refl _)⟩
  rw [insertPacket]
  cases hfec : p.isFec with
  | true =>
    obtain ⟨hheld, hnear⟩ := insertFecPacket_held hc hcleared hstep.state fun q nums =>
      hstep.fec q nums hfec
    exact hdrop _ hheld hnear
  | false =>
    obtain ⟨hheld, hnear⟩ := insertMediaPacket_held hc.sorts hcleared hstep.state (hstep.media hfec)
    exact hdrop _ hheld hnear

/-! ### Recovery -/

/-- The recovered packet was missing from a stored FEC packet, so it is not held. -/
theorem addRecovered_held (hc : Orderly c) (h : Held c s) (hnear : NearState base s)
    {f : ReceivedFecPacket P Q} {packet : RecoveredPacket P} {fecs : List (ReceivedFecPacket P Q)}
    (hf : f ∈ s.receivedFecPackets) (hmissing : numCoveredPacketsMissing f.protectedPackets = 1)
    (hpacket : c.recoverPacket f.header f.protectedPackets = some packet)
    (hfecs : fecs ⊆ s.receivedFecPackets) :
    Held c (addRecovered c s packet fecs) ∧ NearState base (addRecovered c s packet fecs) := by
  obtain ⟨p, hp, hempty, hnum⟩ := hc.recovers _ _ _ (h.named f hf) hmissing hpacket
  have hnew : ∀ r ∈ s.recoveredPackets, r.seqNum ≠ packet.seqNum := by
    intro r hr heq
    have hfilled := h.filled f hf p hp r hr (hnum.trans heq.symm)
    rw [hempty] at hfilled
    cases hfilled
  have hpnear : Near base packet.seqNum := hnum ▸ hnear.slots f hf p hp
  obtain ⟨hheld, hnear'⟩ := (h.sublist (List.Sublist.refl _) hfecs).add hc.sorts
    (hnear.subset (List.Subset.refl _) hfecs) hpnear hnew
  exact ⟨hheld.sublist (List.drop_sublist _ _) (List.Subset.refl _),
    hnear'.subset (List.drop_subset _ _) (List.Subset.refl _)⟩

/-- Nothing held is missing from an FEC packet, and each lacks two packets. -/
structure Saturated (c : ErasureCode P Q) (s : State P Q) : Prop where
  held : Held c s
  lacks : ∀ f ∈ s.receivedFecPackets, numCoveredPacketsMissing f.protectedPackets = 2

theorem decodeFec_saturated {p : ReceivedPacket P} (hc : Orderly c) (h : Held c s)
    (hstep : NearStep c base s p) : Saturated c (decodeFec c s p) := by
  obtain ⟨⟨hheld, -⟩, hlacks⟩ := attemptRecovery_rule (c := c)
    (I := fun s => Held c s ∧ NearState base s)
    (fun s kept ⟨hs, hnear⟩ hsub _ =>
      ⟨hs.sublist (List.Sublist.refl _) hsub.subset, hnear.subset (List.Subset.refl _) hsub.subset⟩)
    (fun s f packet fecs ⟨hs, hnear⟩ hf hmissing hpacket hsub _ =>
      addRecovered_held hc hs hnear hf hmissing hpacket hsub.subset)
    (insertPacket_held hc h hstep)
  exact ⟨hheld, hlacks⟩

/-- Handing the packets on changes no number. -/
theorem Held.returned (h : Held c s) :
    Held c ⟨s.recoveredPackets.map fun r => { r with returned := true }, s.receivedFecPackets⟩ where
  recovered := List.pairwise_map.mpr h.recovered
  named := h.named
  slots := h.slots
  filled f hf p hp r hr := by
    obtain ⟨r', hr', rfl⟩ := List.mem_map.mp hr
    exact h.filled f hf p hp r' hr'

theorem processReceivedPacket_saturated {p : ReceivedPacket P} (hc : Orderly c) (h : Held c s)
    (hstep : NearStep c base s p) : Saturated c (processReceivedPacket c s p).1 := by
  obtain ⟨hheld, hlacks⟩ := decodeFec_saturated hc h hstep
  exact ⟨hheld.returned, hlacks⟩

end Held

end FlexfecHeld
