import TransportDemo.FlexfecParity
import TransportDemo.FlexfecSimulation

/-!
# The decoder on identities

What the decoder is for: it holds the media packets themselves, an FEC packet
is the block that it protects, and recovering one is taking the protected
packet that is missing. A packet may still be put in another's place, as it is
matched by its number. A step that has no such match to make keeps every
packet in its own place.
-/

namespace FlexfecIdeal

open FlexfecDecoder FlexfecParity

/-- What a packet is, apart from its bytes. -/
inductive Ideal (ssrc : UInt32) where
  | media (m : Media ssrc)
  | parity (d : Parity ssrc)

variable {ssrc : UInt32}

/-- The first protected packet that is not known. -/
def recoverPacket (d : Parity ssrc) (slots : List (ProtectedPacket (Ideal ssrc))) :
    Option (RecoveredPacket (Ideal ssrc)) :=
  ((d.protectedMedia.zip slots).find? (·.2.pkt.isNone)).map fun (m, _) =>
    ⟨ssrc, m.seqNum, false, .media m⟩

def ideal (list : ListSort) (ssrc : UInt32) (checksIsFec : Bool) :
    ErasureCode (Ideal ssrc) (Parity ssrc) where
  protectedMediaSsrc := ssrc
  checksIsFec := checksIsFec
  readFecHeader
    | .media _ => none
    | .parity d => some d
  protectedSsrc _ := ssrc
  maskSeqNums d := some (d.protectedMedia.map Media.seqNum)
  recoverPacket := recoverPacket
  list := list

abbrev StoredFec (ssrc : UInt32) := ReceivedFecPacket (Ideal ssrc) (Parity ssrc)

/-- A slot belongs to a packet and holds nothing else. -/
def Slot (m : Media ssrc) (p : ProtectedPacket (Ideal ssrc)) : Prop :=
  p.seqNum = m.seqNum ∧ ∀ x, p.pkt = some x → x = .media m

/-- An FEC packet whose slots hold what it was made of. -/
def Own (f : StoredFec ssrc) : Prop := List.Forall₂ Slot f.header.protectedMedia f.protectedPackets

/-- A packet with this number fits an FEC packet made for `d`. -/
def Fits (d : Parity ssrc) (num : UInt16) (x : Ideal ssrc) : Prop :=
  ∀ m ∈ d.protectedMedia, m.seqNum = num → x = .media m

/-- Every slot holds its own packet, and no two FEC packets mean different packets by one
number. -/
structure Ready (fecs : List (StoredFec ssrc)) : Prop where
  own : ∀ f ∈ fecs, Own f
  agree : ∀ f ∈ fecs, ∀ g ∈ fecs, ∀ m ∈ f.header.protectedMedia, Fits g.header m.seqNum (.media m)

/-! ### Slots -/

/-- A slot whose packet is known. -/
def known (m : Media ssrc) : ProtectedPacket (Ideal ssrc) := ⟨m.seqNum, some (.media m)⟩

theorem Slot.eq_known {m : Media ssrc} {p : ProtectedPacket (Ideal ssrc)} (h : Slot m p)
    (hp : p.pkt.isNone = false) : p = known m := by
  obtain ⟨num, pkt⟩ := p
  obtain ⟨rfl, hpkt⟩ := h
  cases pkt with
  | none => cases hp
  | some x =>
    obtain rfl := hpkt x rfl
    rfl

theorem slots_known {ms : List (Media ssrc)} {slots : List (ProtectedPacket (Ideal ssrc))}
    (h : List.Forall₂ Slot ms slots) (hcount : slots.countP (·.pkt.isNone) = 0) :
    slots = ms.map known := by
  induction h with
  | nil => rfl
  | @cons m p ms slots hslot hrest ih =>
    rw [List.countP_cons] at hcount
    cases hp : p.pkt.isNone with
    | true =>
      rw [if_pos hp] at hcount
      cases hcount
    | false =>
      rw [if_neg (by simp [hp])] at hcount
      rw [List.map_cons, hslot.eq_known hp, ih hcount]

/-- One packet is missing and the others are known. -/
theorem slots_missing {ms : List (Media ssrc)} {slots : List (ProtectedPacket (Ideal ssrc))}
    (h : List.Forall₂ Slot ms slots) (hcount : slots.countP (·.pkt.isNone) = 1) :
    ∃ before m after, ms = before ++ m :: after ∧
      slots = before.map known ++ ⟨m.seqNum, none⟩ :: after.map known := by
  induction h with
  | nil => cases hcount
  | @cons m p ms slots hslot hrest ih =>
    rw [List.countP_cons] at hcount
    cases hp : p.pkt.isNone with
    | true =>
      rw [if_pos hp] at hcount
      refine ⟨[], m, ms, rfl, ?_⟩
      rw [slots_known hrest (by omega)]
      obtain ⟨num, pkt⟩ := p
      obtain ⟨rfl, -⟩ := hslot
      obtain rfl : pkt = none := by simpa using hp
      rfl
    | false =>
      rw [if_neg (by simp [hp])] at hcount
      obtain ⟨before, m', after, rfl, rfl⟩ := ih hcount
      exact ⟨m :: before, m', after, rfl, by rw [hslot.eq_known hp]; rfl⟩

theorem recoverPacket_missing {d : Parity ssrc} {before after : List (Media ssrc)} {m : Media ssrc}
    (hd : d.protectedMedia = before ++ m :: after) :
    recoverPacket d (before.map known ++ ⟨m.seqNum, none⟩ :: after.map known) =
      some ⟨ssrc, m.seqNum, false, .media m⟩ := by
  have hbefore : (before.zip (before.map known)).find?
      (fun x : Media ssrc × ProtectedPacket (Ideal ssrc) => x.2.pkt.isNone) = none := by
    rw [List.find?_eq_none]
    rintro ⟨m', p⟩ hmem
    obtain ⟨m'', -, rfl⟩ := List.mem_map.mp (List.of_mem_zip hmem).2
    simp [known]
  rw [recoverPacket, hd, List.zip_append (by simp), List.find?_append, hbefore, List.zip_cons_cons,
    List.find?_cons]
  rfl

/-- What an FEC packet that lacks one packet recovers. -/
theorem recoverPacket_spec {f : StoredFec ssrc} (h : Own f)
    (hmissing : numCoveredPacketsMissing f.protectedPackets = 1) :
    ∃ before m after, f.header.protectedMedia = before ++ m :: after ∧
      f.protectedPackets = before.map known ++ ⟨m.seqNum, none⟩ :: after.map known ∧
      recoverPacket f.header f.protectedPackets = some ⟨ssrc, m.seqNum, false, .media m⟩ := by
  have hcount : f.protectedPackets.countP (·.pkt.isNone) = 1 := by
    rw [numCoveredPacketsMissing] at hmissing
    omega
  obtain ⟨before, m, after, hms, hslots⟩ := slots_missing h hcount
  exact ⟨before, m, after, hms, hslots, hslots ▸ recoverPacket_missing hms⟩

/-! ### Filling slots -/

theorem forall₂_set {α β : Type} {R : α → β → Prop} {l : List α} {l' : List β}
    (h : List.Forall₂ R l l') (i : Nat) {b b' : β} (hb : l'[i]? = some b)
    (hR : ∀ a ∈ l, R a b → R a b') : List.Forall₂ R l (l'.set i b') := by
  induction h generalizing i with
  | nil => cases hb
  | cons hab hrest ih =>
    cases i with
    | zero =>
      obtain rfl := Option.some.inj hb
      exact .cons (hR _ List.mem_cons_self hab) hrest
    | succ i => exact .cons hab (ih i hb fun a ha => hR a (List.mem_cons_of_mem _ ha))

theorem cover_header (f : StoredFec ssrc) (r : RecoveredPacket (Ideal ssrc)) :
    (f.cover r).header = f.header := by
  simp only [ReceivedFecPacket.cover]
  split
  · rfl
  · split <;> rfl

theorem cover_own {f : StoredFec ssrc} (h : Own f) {r : RecoveredPacket (Ideal ssrc)}
    (hfits : Fits f.header r.seqNum r.pkt) : Own (f.cover r) := by
  simp only [ReceivedFecPacket.cover]
  split
  · exact h
  · next p hp =>
    split
    · next hnum =>
      refine forall₂_set h _ hp fun m hm hslot => ⟨hslot.1, ?_⟩
      rintro x ⟨⟩
      exact hfits m hm (hslot.1.symm.trans hnum)
    · exact h

theorem forall₂_empty (ms : List (Media ssrc)) :
    List.Forall₂ Slot ms ((ms.map Media.seqNum).map fun n => ⟨n, none⟩) := by
  induction ms with
  | nil => exact .nil
  | cons m ms ih => exact .cons ⟨rfl, fun x hx => by cases hx⟩ ih

theorem assignRecoveredPackets_own (ms : List (Media ssrc))
    {recovered : List (RecoveredPacket (Ideal ssrc))}
    (hfits : ∀ r ∈ recovered, ∀ m ∈ ms, m.seqNum = r.seqNum → r.pkt = .media m) :
    List.Forall₂ Slot ms
      (assignRecoveredPackets ((ms.map Media.seqNum).map fun n => ⟨n, none⟩) recovered) := by
  induction ms generalizing recovered with
  | nil => exact .nil
  | cons m ms ih =>
    have hrest (rs : List (RecoveredPacket (Ideal ssrc))) (hsub : ∀ r ∈ rs, r ∈ recovered) :=
      ih fun r hr m' hm' => hfits r (hsub r hr) m' (List.mem_cons_of_mem _ hm')
    simp only [List.map_cons, assignRecoveredPackets]
    split
    · refine .cons ⟨rfl, fun x hx => by cases hx⟩ (forall₂_empty ms)
    · next r rs hskip =>
      have hsub : ∀ r' ∈ r :: rs, r' ∈ recovered := fun r' hr' =>
        (List.dropWhile_suffix _).subset (hskip ▸ hr')
      split
      · next hless => exact .cons ⟨rfl, fun x hx => by cases hx⟩ (hrest _ hsub)
      · next hless =>
        have hnum : m.seqNum = r.seqNum := by
          refine lessThan_total (Bool.eq_false_iff.mpr hless) (Bool.eq_false_iff.mpr fun hback => ?_)
          have hhead := List.head?_dropWhile_not (fun r : RecoveredPacket (Ideal ssrc) =>
            !lessThan m.seqNum r.seqNum && lessThan r.seqNum m.seqNum) recovered
          simp [hskip, hback, hless] at hhead
        refine .cons ⟨rfl, ?_⟩ (hrest _ fun r' hr' => hsub r' (List.mem_cons_of_mem _ hr'))
        rintro x ⟨⟩
        exact hfits r (hsub r List.mem_cons_self) m List.mem_cons_self hnum

/-! ### What keeps every packet in its place -/

theorem Ready.subset {fecs fecs' : List (StoredFec ssrc)} (h : Ready fecs) (hsub : fecs' ⊆ fecs) :
    Ready fecs' where
  own f hf := h.own f (hsub hf)
  agree f hf g hg := h.agree f (hsub hf) g (hsub hg)

theorem Ready.update {fecs : List (StoredFec ssrc)} (h : Ready fecs)
    {r : RecoveredPacket (Ideal ssrc)} (hfits : ∀ f ∈ fecs, Fits f.header r.seqNum r.pkt) :
    Ready (updateCoveringFecPackets r fecs) where
  own g hg := by
    obtain ⟨f, hf, rfl⟩ := List.mem_map.mp hg
    exact cover_own (h.own f hf) (hfits f hf)
  agree g hg g' hg' := by
    obtain ⟨f, hf, rfl⟩ := List.mem_map.mp hg
    obtain ⟨f', hf', rfl⟩ := List.mem_map.mp hg'
    rw [cover_header, cover_header]
    exact h.agree f hf f' hf'

/-- A recovered packet fits wherever its number stands. -/
theorem Ready.recovered {fecs : List (StoredFec ssrc)} (h : Ready fecs) {f : StoredFec ssrc}
    (hf : f ∈ fecs) (hmissing : numCoveredPacketsMissing f.protectedPackets = 1)
    {r : RecoveredPacket (Ideal ssrc)} (hr : recoverPacket f.header f.protectedPackets = some r) :
    (∃ m ∈ f.header.protectedMedia, r = ⟨ssrc, m.seqNum, false, .media m⟩) ∧
      ∀ g ∈ fecs, Fits g.header r.seqNum r.pkt := by
  obtain ⟨before, m, after, hms, -, hrecover⟩ := recoverPacket_spec (h.own f hf) hmissing
  obtain rfl := Option.some.inj (hrecover.symm.trans hr)
  have hm : m ∈ f.header.protectedMedia := hms ▸ List.mem_append_right _ List.mem_cons_self
  exact ⟨⟨m, hm, rfl⟩, fun g hg => h.agree f hf g hg m hm⟩

section Step

variable (c : ErasureCode (Ideal ssrc) (Parity ssrc))

/-- The state into which the packet is inserted. -/
def settled (s : State (Ideal ssrc) (Parity ssrc)) (p : ReceivedPacket (Ideal ssrc)) :
    State (Ideal ssrc) (Parity ssrc) :=
  discardOldFecPackets c (resetOnGap c s p) p

/-- No packet of its kind with its number is held. -/
def New (s : State (Ideal ssrc) (Parity ssrc)) (p : ReceivedPacket (Ideal ssrc)) : Prop :=
  match p.pkt with
  | .media _ => ∀ r ∈ s.recoveredPackets, r.seqNum ≠ p.seqNum
  | .parity _ => ∀ f ∈ s.receivedFecPackets, f.seqNum ≠ p.seqNum

/-- Packets that a held FEC packet or the one that arrives protects. -/
def Protects (s : State (Ideal ssrc) (Parity ssrc)) (p : ReceivedPacket (Ideal ssrc))
    (m : Media ssrc) : Prop :=
  (∃ f ∈ s.receivedFecPackets, m ∈ f.header.protectedMedia) ∨
    ∃ d, p.pkt = .parity d ∧ New s p ∧ m ∈ d.protectedMedia

/-- Media packets that are held, and the one that arrives. -/
def Knows (s : State (Ideal ssrc) (Parity ssrc)) (p : ReceivedPacket (Ideal ssrc))
    (m : Media ssrc) : Prop :=
  (∃ r ∈ s.recoveredPackets, r.pkt = .media m) ∨ p.pkt = .media m ∧ New s p

/-- A protected packet has its number for itself. -/
def Unambiguous (s : State (Ideal ssrc) (Parity ssrc)) (p : ReceivedPacket (Ideal ssrc)) : Prop :=
  ∀ m m', Protects (settled c s p) p m →
    (Protects (settled c s p) p m' ∨ Knows (settled c s p) p m') → m.seqNum = m'.seqNum → m = m'

/-- The packet is what it is taken for. -/
def WellFormed (p : ReceivedPacket (Ideal ssrc)) : Prop :=
  match p.pkt with
  | .media m => p.isFec = false ∧ p.seqNum = m.seqNum
  | .parity _ => p.isFec = true

/-- It is, or was made of, what was sent. -/
def FromSent (sent : Set (Media ssrc)) (p : ReceivedPacket (Ideal ssrc)) : Prop :=
  match p.pkt with
  | .media m => m ∈ sent
  | .parity d => ∀ m ∈ d.protectedMedia, m ∈ sent

/-- Everything held is in its place and was sent. -/
structure Inv (sent : Set (Media ssrc)) (s : State (Ideal ssrc) (Parity ssrc)) : Prop where
  ready : Ready s.receivedFecPackets
  recovered : ∀ r ∈ s.recoveredPackets, ∃ m ∈ sent, r.pkt = .media m ∧ r.seqNum = m.seqNum
  covered : ∀ f ∈ s.receivedFecPackets, ∀ m ∈ f.header.protectedMedia, m ∈ sent

variable {c} {sent : Set (Media ssrc)} {s : State (Ideal ssrc) (Parity ssrc)}
  {p : ReceivedPacket (Ideal ssrc)}

theorem Inv.empty : Inv sent (⟨[], []⟩ : State (Ideal ssrc) (Parity ssrc)) where
  ready := ⟨List.forall_mem_nil _, List.forall_mem_nil _⟩
  recovered := List.forall_mem_nil _
  covered := List.forall_mem_nil _

theorem Inv.settled (h : Inv sent s) : Inv sent (settled c s p) := by
  have hreset : Inv sent (resetOnGap c s p) := by
    rw [resetOnGap]
    split
    · exact Inv.empty
    · exact h
  rw [FlexfecIdeal.settled, discardOldFecPackets]
  split
  · have hsub := (List.dropWhile_suffix (l := (resetOnGap c s p).receivedFecPackets)
      fun f => decide (0x3fff < minDiff p.seqNum f.seqNum)).subset
    exact ⟨hreset.ready.subset hsub, hreset.recovered, fun f hf => hreset.covered f (hsub hf)⟩
  · exact hreset

theorem Inv.insertMedia {m : Media ssrc} (h : Inv sent s) (hp : p.pkt = .media m)
    (hnum : p.seqNum = m.seqNum) (hsent : m ∈ sent)
    (hclear : New s p → ∀ f ∈ s.receivedFecPackets, Fits f.header m.seqNum (.media m)) :
    Inv sent (insertMediaPacket c s p) := by
  rw [insertMediaPacket]
  split
  · exact h
  · next hnew =>
    have hnew : New s p := by
      rw [New, hp]
      intro r hr heq
      exact hnew (List.any_eq_true.mpr ⟨r, hr, by simpa using heq⟩)
    refine ⟨h.ready.update fun f hf => ?_, ?_, ?_⟩
    · rw [hp, hnum]
      exact hclear hnew f hf
    · intro r hr
      rcases List.mem_append.mp ((c.list.perm _ _).subset hr) with hr | hr
      · exact h.recovered r hr
      · obtain rfl := List.mem_singleton.mp hr
        exact ⟨m, hsent, hp, hnum⟩
    · intro g hg
      obtain ⟨f, hf, rfl⟩ := List.mem_map.mp hg
      rw [cover_header]
      exact h.covered f hf

theorem mem_storeFecPacket {fecs : List (StoredFec ssrc)} {f g : StoredFec ssrc}
    (hg : g ∈ storeFecPacket c fecs f) : g ∈ fecs ∨ g = f := by
  have hmem : g ∈ c.list.sort (·.seqNum) (fecs ++ [f]) := by
    rw [storeFecPacket] at hg
    split at hg
    · exact List.mem_of_mem_tail hg
    · exact hg
  rcases List.mem_append.mp ((c.list.perm _ _).subset hmem) with hg | hg
  · exact .inl hg
  · exact .inr (List.mem_singleton.mp hg)

end Step

section Run

variable {list : ListSort} {checksIsFec : Bool} {sent : Set (Media ssrc)}
  {s : State (Ideal ssrc) (Parity ssrc)} {p : ReceivedPacket (Ideal ssrc)}

theorem Inv.insertFec {d : Parity ssrc} (h : Inv sent s) (hp : p.pkt = .parity d)
    (hsent : ∀ m ∈ d.protectedMedia, m ∈ sent)
    (hclear : New s p → ∀ m ∈ d.protectedMedia, ∀ m',
      ((∃ f ∈ s.receivedFecPackets, m' ∈ f.header.protectedMedia) ∨ m' ∈ d.protectedMedia ∨
        ∃ r ∈ s.recoveredPackets, r.pkt = .media m') → m.seqNum = m'.seqNum → m = m') :
    Inv sent (insertFecPacket (ideal list ssrc checksIsFec) s p) := by
  rw [insertFecPacket]
  split
  · exact h
  · next hnew =>
    have hnew : New s p := by
      rw [New, hp]
      intro f hf heq
      exact hnew (List.any_eq_true.mpr ⟨f, hf, by simpa using heq⟩)
    have hclear := hclear hnew
    simp only [hp, ideal, ne_eq, not_true_eq_false, if_false]
    split
    · exact h
    · let slots := assignRecoveredPackets ((d.protectedMedia.map Media.seqNum).map
        fun n => (⟨n, none⟩ : ProtectedPacket (Ideal ssrc))) s.recoveredPackets
      let fec : StoredFec ssrc := ⟨p.ssrc, p.seqNum, slots, d⟩
      have hown : Own fec := by
        refine assignRecoveredPackets_own d.protectedMedia fun r hr m hm hnum => ?_
        obtain ⟨m', -, hpkt, hnum'⟩ := h.recovered r hr
        obtain rfl := hclear m hm m' (.inr (.inr ⟨r, hr, hpkt⟩)) (hnum.trans hnum')
        exact hpkt
      have hmem {g : StoredFec ssrc}
          (hg : g ∈ storeFecPacket (ideal list ssrc checksIsFec) s.receivedFecPackets fec) :
          g ∈ s.receivedFecPackets ∨ g = fec := mem_storeFecPacket hg
      refine ⟨⟨fun g hg => ?_, fun f hf g hg m hm m' hm' hnum => ?_⟩, h.recovered, fun g hg => ?_⟩
      · rcases hmem hg with hg | rfl
        · exact h.ready.own g hg
        · exact hown
      · congr 1
        rcases hmem hf with hf | rfl <;> rcases hmem hg with hg | rfl
        · exact Ideal.media.inj (h.ready.agree f hf g hg m hm m' hm' hnum)
        · exact (hclear m' hm' m (.inl ⟨f, hf, hm⟩) hnum).symm
        · exact hclear m hm m' (.inl ⟨g, hg, hm'⟩) hnum.symm
        · exact hclear m hm m' (.inr (.inl hm')) hnum.symm
      · rcases hmem hg with hg | rfl
        · exact h.covered g hg
        · exact hsent

theorem Inv.insert (h : Inv sent s) (hp : WellFormed p) (hsent : FromSent sent p)
    (hclear : Unambiguous (ideal list ssrc checksIsFec) s p) :
    Inv sent (insertPacket (ideal list ssrc checksIsFec)
      (resetOnGap (ideal list ssrc checksIsFec) s p) p) := by
  have hset : Inv sent (FlexfecIdeal.settled (ideal list ssrc checksIsFec) s p) := h.settled
  have hinsert : Inv sent (if p.isFec then
      insertFecPacket (ideal list ssrc checksIsFec)
        (FlexfecIdeal.settled (ideal list ssrc checksIsFec) s p) p
      else insertMediaPacket (ideal list ssrc checksIsFec)
        (FlexfecIdeal.settled (ideal list ssrc checksIsFec) s p) p) := by
    cases hpkt : p.pkt with
    | media m =>
      rw [WellFormed, hpkt] at hp
      rw [FromSent, hpkt] at hsent
      rw [if_neg (by simp [hp.1])]
      refine hset.insertMedia hpkt hp.2 hsent fun hnew f hf m' hm' hnum => ?_
      rw [hclear m' m (.inl ⟨f, hf, hm'⟩) (.inr (.inr ⟨hpkt, hnew⟩)) hnum]
    | parity d =>
      rw [WellFormed, hpkt] at hp
      rw [FromSent, hpkt] at hsent
      rw [if_pos hp]
      refine hset.insertFec hpkt hsent fun hnew m hm m' hm' hnum => ?_
      refine hclear m m' (.inr ⟨d, hpkt, hnew, hm⟩) ?_ hnum
      rcases hm' with hf | hd | hr
      · exact .inl (.inl hf)
      · exact .inl (.inr ⟨d, hpkt, hnew, hd⟩)
      · exact .inr (.inl hr)
  exact ⟨hinsert.ready, fun r hr => hinsert.recovered r (List.drop_subset _ _ hr),
    hinsert.covered⟩

theorem Inv.recover (h : Inv sent s) (fuel : Nat) :
    Inv sent (attemptRecoveryLoop (ideal list ssrc checksIsFec) fuel s) := by
  induction fuel generalizing s with
  | zero => exact h
  | succ fuel ih =>
    rw [attemptRecoveryLoop]
    split
    · next kept hpass =>
      have hsub := recoveryPass_none hpass
      exact ⟨h.ready.subset hsub, h.recovered, fun f hf => h.covered f (hsub hf)⟩
    · next kept packet rest hpass =>
      obtain ⟨f, hf, hmissing, hpacket, hsub⟩ := recoveryPass_some hpass
      obtain ⟨⟨m, hm, rfl⟩, hfits⟩ := h.ready.recovered hf hmissing hpacket
      refine ih ⟨(h.ready.subset hsub).update fun g hg => hfits g (hsub hg), ?_, ?_⟩
      · intro r hr
        rcases List.mem_append.mp ((list.perm _ _).subset (List.drop_subset _ _ hr)) with hr | hr
        · exact h.recovered r hr
        · obtain rfl := List.mem_singleton.mp hr
          exact ⟨m, h.covered f hf m hm, rfl, rfl⟩
      · intro g' hg'
        obtain ⟨g, hg, rfl⟩ := List.mem_map.mp hg'
        rw [cover_header]
        exact h.covered g (hsub hg)

/-- A step that is unambiguous keeps everything in its place, and what it passes on was sent. -/
theorem Inv.process (h : Inv sent s) (hp : WellFormed p) (hsent : FromSent sent p)
    (hclear : Unambiguous (ideal list ssrc checksIsFec) s p) :
    Inv sent (processReceivedPacket (ideal list ssrc checksIsFec) s p).1 ∧
      ∀ x ∈ (processReceivedPacket (ideal list ssrc checksIsFec) s p).2, ∃ m ∈ sent,
        x = .media m := by
  have hdecode : Inv sent (decodeFec (ideal list ssrc checksIsFec) s p) :=
    (h.insert hp hsent hclear).recover _
  refine ⟨⟨hdecode.ready, ?_, hdecode.covered⟩, ?_⟩
  · intro r hr
    obtain ⟨r', hr', rfl⟩ := List.mem_map.mp hr
    exact hdecode.recovered r' hr'
  · intro x hx
    obtain ⟨r, hr, rfl⟩ := List.mem_map.mp hx
    obtain ⟨m, hm, hpkt, -⟩ := hdecode.recovered r (List.mem_filter.mp hr).1
    exact ⟨m, hm, hpkt⟩

end Run

end FlexfecIdeal
