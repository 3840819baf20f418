import TransportDemo.FlexfecSaturated
import TransportDemo.Peeling

/-!
# What a receiver recovers

A session is what the decoder has room for: up to 48 media packets and 48 FEC
packets made of them. Whatever of it arrives, in any order and any number of
times, the receiver ends up with exactly the media packets that can be peeled
from what arrived, and hands on each of those it recovers once.
-/

namespace FlexfecSession

open FlexfecDecoder FlexfecEncoder FlexfecParity FlexfecReceiver FlexfecIdeal FlexfecRun
  FlexfecSearch FlexfecHeld Peeling

variable {ssrc : UInt32} {list : ListSort}

/-- Media packets, and FEC packets under their numbers. Numbers are not reused and lie so close
together that none of what is stored is taken for old. -/
structure Session (ssrc : UInt32) where
  media : List (Media ssrc)
  fec : List (UInt16 × Parity ssrc)
  base : UInt16
  near : ∀ m ∈ media, Near base m.seqNum
  distinct : (media.map Media.seqNum).Nodup
  protects : ∀ f ∈ fec, ∀ m ∈ f.2.protectedMedia, m ∈ media
  fec_distinct : (fec.map Prod.fst).Nodup
  media_count : media.length ≤ kMaxMediaPackets
  fec_count : fec.length ≤ kMaxFecPackets
  media_close : media.length = kMaxMediaPackets → ∀ m ∈ media, ∀ m' ∈ media,
    (minDiff m.seqNum m'.seqNum).toNat ≤ kMaxMediaPackets
  fec_close : ∀ f ∈ fec, ∀ g ∈ fec, ¬ 0x3fff < minDiff f.1 g.1

namespace Session

variable (S : Session ssrc)

/-- The packet is one of the session's. -/
def Has (a : Arrival ssrc) : Prop :=
  match a.ideal with
  | .media m => m ∈ S.media
  | .parity d => (a.packet.sequenceNumber, d) ∈ S.fec

def sent : Set (Media ssrc) := {m | m ∈ S.media}

theorem media_eq {m m' : Media ssrc} (hm : m ∈ S.media) (hm' : m' ∈ S.media)
    (h : m.seqNum = m'.seqNum) : m = m' :=
  List.inj_on_of_nodup_map S.distinct hm hm' h

theorem fec_eq {num : UInt16} {d d' : Parity ssrc} (hd : (num, d) ∈ S.fec)
    (hd' : (num, d') ∈ S.fec) : d = d' :=
  congrArg Prod.snd (List.inj_on_of_nodup_map S.fec_distinct hd hd' rfl)

theorem injOn : Set.InjOn Media.seqNum S.sent := fun _ hm _ hm' h => S.media_eq hm hm' h

end Session

/-- The packets that an FEC packet protects. -/
def check (d : Parity ssrc) : Set (Media ssrc) := {m | m ∈ d.protectedMedia}

/-- The media packets among the arrivals that are looked at. -/
def mediaOf (arrivals : List (Arrival ssrc)) : Set (Media ssrc) :=
  {m | ∃ a ∈ arrivals, a.packet.recovered = false ∧ a.ideal = .media m}

def parityOf (arrivals : List (Arrival ssrc)) : Set (Parity ssrc) :=
  {d | ∃ a ∈ arrivals, a.packet.recovered = false ∧ a.ideal = .parity d}

/-- What can be peeled from the arrivals. -/
abbrev Peeled (arrivals : List (Arrival ssrc)) : Media ssrc → Prop :=
  Recoverable (mediaOf arrivals) (check '' parityOf arrivals)

/-! ### The ideal code -/

theorem protectedMedia_ascending (d : Parity ssrc) : Ascending Media.seqNum d.protectedMedia := by
  have hspan {m : Media ssrc} (hm : m ∈ d.protectedMedia) : Near d.base m.seqNum := by
    have hoffset := d.span m (List.mem_filter.mp hm).1
    have hlen := d.mask_length
    rw [Near, Parity.base]
    omega
  have hasc : d.protectedMedia.Pairwise fun m m' =>
      offset d.base m.seqNum < offset d.base m'.seqNum :=
    (List.pairwise_map.mp d.ascending).sublist List.filter_sublist
  exact hasc.imp_of_mem fun hm hm' hlt => (lessThan_iff (hspan hm) (hspan hm')).mpr hlt

theorem protectedNums_ascending (d : Parity ssrc) :
    Ascending id (d.protectedMedia.map Media.seqNum) :=
  List.pairwise_map.mpr (protectedMedia_ascending d)

theorem protectedMedia_ne_nil (d : Parity ssrc) : d.protectedMedia ≠ [] := by
  obtain ⟨m, hm, hbit⟩ := d.protects
  exact List.ne_nil_of_mem (List.mem_filter.mpr ⟨hm, hbit⟩)

theorem find_missing {ms : List (Media ssrc)} {slots : List (ProtectedPacket (Ideal ssrc))}
    (hnums : ms.map Media.seqNum = slots.map (·.seqNum)) {m : Media ssrc}
    {p : ProtectedPacket (Ideal ssrc)} (h : (ms.zip slots).find? (·.2.pkt.isNone) = some (m, p)) :
    p ∈ slots ∧ p.pkt.isSome = false ∧ p.seqNum = m.seqNum := by
  have hmem := List.mem_of_find?_eq_some h
  refine ⟨(List.of_mem_zip hmem).2, by simpa using List.find?_some h, ?_⟩
  obtain ⟨i, hi, hget⟩ := List.getElem_of_mem hmem
  rw [List.getElem_zip] at hget
  obtain ⟨rfl, rfl⟩ := Prod.mk.inj hget
  have hlen := hi
  rw [List.length_zip] at hlen
  have hat := congrArg (·[i]?) hnums
  simp only [List.getElem?_map] at hat
  rw [List.getElem?_eq_getElem (by omega), List.getElem?_eq_getElem (by omega)] at hat
  exact (Option.some.inj hat).symm

theorem ideal_orderly (hlist : Sorts list) (checksIsFec : Bool) :
    Orderly (ideal list ssrc checksIsFec) where
  sorts := hlist
  mask _ d nums _ hmask := by
    obtain rfl := Option.some.inj hmask
    exact protectedNums_ascending d
  recovers d slots r hnums _ hrecover := by
    obtain ⟨⟨m, p⟩, hfind, rfl⟩ := Option.map_eq_some_iff.mp hrecover
    obtain ⟨hp, hempty, hnum⟩ := find_missing (Option.some.inj hnums) hfind
    exact ⟨p, hp, hempty, hnum⟩

/-! ### What the decoder knows -/

/-- The packet is held. -/
def Known (s : State (Ideal ssrc) (Parity ssrc)) (m : Media ssrc) : Prop :=
  ∃ r ∈ s.recoveredPackets, r.pkt = .media m

/-- The state after some of the session's packets have arrived: `items` and `parities` are what
has come, `passed` is what has been handed on. -/
structure Tracks (S : Session ssrc) (list : ListSort) (items : Set (Media ssrc))
    (parities : Set (Parity ssrc)) (passed : List (Ideal ssrc))
    (s : State (Ideal ssrc) (Parity ssrc)) : Prop where
  inv : Inv S.sent s
  held : Held (ideal list ssrc true) s
  filled : ∀ f ∈ s.receivedFecPackets, ∀ p ∈ f.protectedPackets, p.pkt.isSome = true →
    ∃ r ∈ s.recoveredPackets, r.seqNum = p.seqNum
  stored : ∀ f ∈ s.receivedFecPackets, (f.seqNum, f.header) ∈ S.fec ∧ f.header ∈ parities
  fec_distinct : (s.receivedFecPackets.map (·.seqNum)).Nodup
  items_known : ∀ m ∈ items, Known s m
  parities_used : ∀ d ∈ parities,
    (∃ f ∈ s.receivedFecPackets, f.header = d) ∨ ∀ m ∈ d.protectedMedia, Known s m
  sound : ∀ m, Known s m → Recoverable items (check '' parities) m
  returned : ∀ r ∈ s.recoveredPackets, r.returned = true → ∀ m, r.pkt = .media m →
    m ∈ items ∨ .media m ∈ passed
  passed_held : ∀ x ∈ passed, ∃ r ∈ s.recoveredPackets, r.returned = true ∧ r.pkt = x

namespace Tracks

variable {S : Session ssrc} {items : Set (Media ssrc)} {parities : Set (Parity ssrc)}
  {passed : List (Ideal ssrc)} {s : State (Ideal ssrc) (Parity ssrc)}

theorem start : Tracks S list ∅ ∅ [] (⟨[], []⟩ : State (Ideal ssrc) (Parity ssrc)) where
  inv := Inv.empty
  held := Held.empty
  filled := List.forall_mem_nil _
  stored := List.forall_mem_nil _
  fec_distinct := List.nodup_nil
  items_known _ h := h.elim
  parities_used _ h := h.elim
  sound _ := fun ⟨_, hr, _⟩ => absurd hr List.not_mem_nil
  returned := List.forall_mem_nil _
  passed_held := List.forall_mem_nil _

/-- A packet with a held packet's number is that packet. -/
theorem known_of_num (h : Tracks S list items parities passed s) {m : Media ssrc}
    (hm : m ∈ S.media) {r : RecoveredPacket (Ideal ssrc)} (hr : r ∈ s.recoveredPackets)
    (hnum : r.seqNum = m.seqNum) : Known s m := by
  obtain ⟨m', hm', hpkt, hnum'⟩ := h.inv.recovered r hr
  obtain rfl := S.media_eq hm hm' (hnum.symm.trans hnum')
  exact ⟨r, hr, hpkt⟩

/-- Its numbers are the session's. -/
theorem nearState (h : Tracks S list items parities passed s) : NearState S.base s where
  recovered r hr := by
    obtain ⟨m, hm, -, hnum⟩ := h.inv.recovered r hr
    rw [hnum]
    exact S.near m hm
  slots f hf p hp := by
    have hnums := Option.some.inj (h.held.named f hf)
    have hmem : p.seqNum ∈ f.header.protectedMedia.map Media.seqNum :=
      hnums ▸ List.mem_map_of_mem hp
    obtain ⟨m, hm, hnum⟩ := List.mem_map.mp hmem
    rw [← hnum]
    exact S.near m (h.inv.covered f hf m hm)

theorem length_recovered (h : Tracks S list items parities passed s) :
    s.recoveredPackets.length ≤ S.media.length := by
  have hsub : s.recoveredPackets.map (·.seqNum) ⊆ S.media.map Media.seqNum := by
    intro num hnum
    obtain ⟨r, hr, rfl⟩ := List.mem_map.mp hnum
    obtain ⟨m, hm, -, hnum⟩ := h.inv.recovered r hr
    exact hnum ▸ List.mem_map_of_mem hm
  simpa using (h.held.recovered.nodup.subperm hsub).length_le

/-- Nothing held is discarded. -/
theorem discard_eq (h : Tracks S list items parities passed s) :
    discardOldRecoveredPackets s.recoveredPackets = s.recoveredPackets := by
  have hlength := h.length_recovered
  have hcount := S.media_count
  rw [discardOldRecoveredPackets, show s.recoveredPackets.length - kMaxMediaPackets = 0 by omega]
  rfl

/-- There is room for one more FEC packet. -/
theorem length_fec (h : Tracks S list items parities passed s) {num : UInt16} {d : Parity ssrc}
    (hd : (num, d) ∈ S.fec) (hnew : ∀ f ∈ s.receivedFecPackets, f.seqNum ≠ num) :
    s.receivedFecPackets.length < kMaxFecPackets := by
  have hnodup : (num :: s.receivedFecPackets.map (·.seqNum)).Nodup := by
    refine List.nodup_cons.mpr ⟨fun hmem => ?_, h.fec_distinct⟩
    obtain ⟨f, hf, hnum⟩ := List.mem_map.mp hmem
    exact hnew f hf hnum
  have hsub : num :: s.receivedFecPackets.map (·.seqNum) ⊆ S.fec.map Prod.fst := by
    intro n hn
    rcases List.mem_cons.mp hn with rfl | hn
    · exact List.mem_map_of_mem hd
    · obtain ⟨f, hf, rfl⟩ := List.mem_map.mp hn
      exact List.mem_map_of_mem (h.stored f hf).1
  have hlength := (hnodup.subperm hsub).length_le
  have hcount := S.fec_count
  simp only [List.length_cons, List.length_map] at hlength
  omega

/-- A full list is no reason to start anew. -/
theorem not_bigGap (h : Tracks S list items parities passed s) {a : Arrival ssrc} (ha : S.Has a) :
    bigGap (ideal list ssrc true) s a.received = false := by
  rw [← Bool.not_eq_true]
  intro hgap
  rw [bigGap, Bool.and_eq_true, beq_iff_eq] at hgap
  obtain ⟨hfull, hback⟩ := hgap
  have hlength := h.length_recovered
  have hcount := S.media_count
  cases hlast : s.recoveredPackets.getLast? with
  | none => simp [hlast] at hback
  | some back =>
    rw [hlast] at hback
    simp only [ideal, Option.any_some, Bool.not_true, Bool.false_or, Bool.and_eq_true,
      Bool.not_eq_true', decide_eq_true_eq] at hback
    obtain ⟨⟨-, hmedia⟩, hfar⟩ := hback
    obtain ⟨m', hm', -, hnum'⟩ := h.inv.recovered back (List.mem_of_getLast? hlast)
    rw [Session.Has] at ha
    cases hideal : a.ideal with
    | parity d => simp [Arrival.received, hideal, isFec] at hmedia
    | media m =>
      simp only [hideal] at ha
      have hnum : a.received.seqNum = m.seqNum := by
        have hcarries := a.carries
        rw [hideal] at hcarries
        exact hcarries.2.2.1
      have hclose := S.media_close (by omega) m ha m' hm'
      rw [hnum, hnum'] at hfar
      omega

/-- No FEC packet is taken for old. -/
theorem discardOldFecPackets_eq (h : Tracks S list items parities passed s) {a : Arrival ssrc}
    (ha : S.Has a) : discardOldFecPackets (ideal list ssrc true) s a.received = s := by
  rw [discardOldFecPackets]
  split
  · next hfront =>
    rw [comparesWithFront] at hfront
    cases hfecs : s.receivedFecPackets with
    | nil => simp [hfecs] at hfront
    | cons f rest =>
      have hfec : a.received.isFec = true := by
        rw [hfecs] at hfront
        simpa [ideal] using (Bool.and_eq_true_iff.mp hfront).2
      rw [Session.Has] at ha
      cases hideal : a.ideal with
      | media m => simp [Arrival.received, hideal, isFec] at hfec
      | parity d =>
        simp only [hideal] at ha
        have hf := (h.stored f (hfecs ▸ List.mem_cons_self)).1
        have hclose := S.fec_close (a.packet.sequenceNumber, d) ha (f.seqNum, f.header) hf
        have hkeep : (f :: rest).dropWhile (fun f =>
            decide (0x3fff < minDiff a.received.seqNum f.seqNum)) = f :: rest :=
          List.dropWhile_cons_of_neg fun hold => hclose (of_decide_eq_true hold)
        rw [hkeep, ← hfecs]
  · rfl

theorem cleared_eq (h : Tracks S list items parities passed s) {a : Arrival ssrc} (ha : S.Has a) :
    cleared (ideal list ssrc true) s a.received = s := by
  rw [cleared, resetOnGap, if_neg (Bool.eq_false_iff.mp (h.not_bigGap ha)),
    h.discardOldFecPackets_eq ha]

/-! ### A packet is added -/

theorem known_add {r : RecoveredPacket (Ideal ssrc)} {m : Media ssrc} (hpkt : r.pkt = .media m)
    {fecs : List (StoredFec ssrc)} {m' : Media ssrc} :
    Known ⟨list.sort (·.seqNum) (s.recoveredPackets ++ [r]), fecs⟩ m' ↔ Known s m' ∨ m' = m := by
  have hperm := list.perm (fun r : RecoveredPacket (Ideal ssrc) => r.seqNum)
    (s.recoveredPackets ++ [r])
  simp only [Known, hperm.mem_iff, List.mem_append, List.mem_singleton]
  constructor
  · rintro ⟨r', hr' | rfl, hpkt'⟩
    · exact .inl ⟨r', hr', hpkt'⟩
    · exact .inr (Ideal.media.inj (hpkt'.symm.trans hpkt))
  · rintro (⟨r', hr', hpkt'⟩ | rfl)
    · exact ⟨r', .inl hr', hpkt'⟩
    · exact ⟨r, .inr rfl, hpkt⟩

/-- A packet of the session fits wherever its number stands. -/
theorem fits (h : Tracks S list items parities passed s) {m : Media ssrc} (hm : m ∈ S.media)
    {f : StoredFec ssrc} (hf : f ∈ s.receivedFecPackets) : Fits f.header m.seqNum (.media m) := by
  intro m' hm' hnum
  rw [S.media_eq (h.inv.covered f hf m' hm') hm hnum]

/-- A packet that was not known, received or recovered, becomes known. -/
theorem add (hlist : Sorts list) (h : Tracks S list items parities passed s)
    {r : RecoveredPacket (Ideal ssrc)} {m : Media ssrc} (hm : m ∈ S.media) (hpkt : r.pkt = .media m)
    (hnum : r.seqNum = m.seqNum) (hnew : ∀ r' ∈ s.recoveredPackets, r'.seqNum ≠ r.seqNum)
    {fecs : List (StoredFec ssrc)} (hfecs : fecs.Sublist s.receivedFecPackets)
    {items' : Set (Media ssrc)} (hmore : items ⊆ items') (honly : ∀ m' ∈ items', m' ∈ items ∨ m' = m)
    (hsound : Recoverable items' (check '' parities) m) (hreturned : r.returned = true → m ∈ items')
    (hused : ∀ d ∈ parities, (∃ f ∈ fecs, f.header = d) ∨
      ∀ m' ∈ d.protectedMedia, Known s m' ∨ m' = m) :
    Tracks S list items' parities passed
      ⟨list.sort (·.seqNum) (s.recoveredPackets ++ [r]), updateCoveringFecPackets r fecs⟩ := by
  have hrnear : Near S.base r.seqNum := hnum ▸ S.near m hm
  have hmem (r' : RecoveredPacket (Ideal ssrc)) :
      r' ∈ list.sort (·.seqNum) (s.recoveredPackets ++ [r]) ↔ r' ∈ s.recoveredPackets ∨ r' = r := by
    rw [(list.perm _ _).mem_iff, List.mem_append, List.mem_singleton]
  have hcover {g : StoredFec ssrc} (hg : g ∈ updateCoveringFecPackets r fecs) :
      ∃ f ∈ s.receivedFecPackets, f ∈ fecs ∧
        g = { f with protectedPackets := f.protectedPackets.map (fill r) } := by
    obtain ⟨f, hf, rfl⟩ := List.mem_map.mp hg
    exact ⟨f, hfecs.subset hf, hf, cover_held h.held h.nearState (hfecs.subset hf) hrnear⟩
  have hsmall := h.held.sublist (List.Sublist.refl _) hfecs.subset
  have hsnear := h.nearState.subset (List.Subset.refl _) hfecs.subset
  constructor
  case inv =>
    refine ⟨(h.inv.ready.subset hfecs.subset).update fun f hf => ?_, fun r' hr' => ?_, fun g hg => ?_⟩
    · rw [hpkt, hnum]
      exact h.fits hm (hfecs.subset hf)
    · rcases (hmem r').mp hr' with hr' | rfl
      · exact h.inv.recovered r' hr'
      · exact ⟨m, hm, hpkt, hnum⟩
    · obtain ⟨f, hf, -, rfl⟩ := hcover hg
      exact h.inv.covered f hf
  case held => exact (hsmall.add hlist hsnear hrnear hnew).1
  case filled =>
    intro g hg p hp hsome
    obtain ⟨f, hf, -, rfl⟩ := hcover hg
    obtain ⟨q, hq, rfl⟩ := List.mem_map.mp hp
    rw [fill_seqNum]
    rcases fill_isSome.mp hsome with heq | hsome
    · exact ⟨r, (hmem r).mpr (.inr rfl), heq.symm⟩
    · obtain ⟨r', hr', heq⟩ := h.filled f hf q hq hsome
      exact ⟨r', (hmem r').mpr (.inl hr'), heq⟩
  case stored =>
    intro g hg
    obtain ⟨f, hf, -, rfl⟩ := hcover hg
    exact h.stored f hf
  case fec_distinct =>
    have hnums : (updateCoveringFecPackets r fecs).map (·.seqNum) = fecs.map (·.seqNum) := by
      rw [updateCoveringFecPackets, List.map_map]
      refine List.map_congr_left fun f hf => ?_
      rw [Function.comp_apply, cover_held h.held h.nearState (hfecs.subset hf) hrnear]
    rw [hnums]
    exact h.fec_distinct.sublist (hfecs.map _)
  case items_known =>
    intro m' hm'
    exact (known_add hpkt).mpr ((honly m' hm').imp_left (h.items_known m'))
  case parities_used =>
    intro d hd
    rcases hused d hd with ⟨f, hf, rfl⟩ | hall
    · refine .inl ⟨f.cover r, List.mem_map_of_mem hf, ?_⟩
      rw [cover_held h.held h.nearState (hfecs.subset hf) hrnear]
    · exact .inr fun m' hm' => (known_add hpkt).mpr (hall m' hm')
  case sound =>
    intro m' hm'
    rcases (known_add hpkt).mp hm' with hm' | rfl
    · exact (h.sound m' hm').mono hmore (Set.Subset.refl _)
    · exact hsound
  case returned =>
    intro r' hr' hret m' hpkt'
    rcases (hmem r').mp hr' with hr' | rfl
    · exact (h.returned r' hr' hret m' hpkt').imp_left fun hm' => hmore hm'
    · obtain rfl := Ideal.media.inj (hpkt'.symm.trans hpkt)
      exact .inl (hreturned hret)
  case passed_held =>
    intro x hx
    obtain ⟨r', hr', hheld⟩ := h.passed_held x hx
    exact ⟨r', (hmem r').mpr (.inl hr'), hheld⟩

theorem insertMedia (hlist : Sorts list) (h : Tracks S list items parities passed s)
    {p : ReceivedPacket (Ideal ssrc)} {m : Media ssrc} (hm : m ∈ S.media) (hp : p.pkt = .media m)
    (hnum : p.seqNum = m.seqNum) :
    Tracks S list (insert m items) parities passed
      (insertMediaPacket (ideal list ssrc true) s p) := by
  have hgiven : Recoverable (insert m items) (check '' parities) m := .given (.inl rfl)
  rw [insertMediaPacket]
  split
  · next hany =>
    obtain ⟨r, hr, heq⟩ := List.any_eq_true.mp hany
    have hknown := h.known_of_num hm hr ((beq_iff_eq.mp heq).trans hnum)
    exact
      { h with
        items_known := by
          rintro m' (rfl | hm')
          · exact hknown
          · exact h.items_known m' hm'
        sound := fun m' hm' => (h.sound m' hm').mono (Set.subset_insert m items) (Set.Subset.refl _)
        returned := fun r hr hret m' hpkt => (h.returned r hr hret m' hpkt).imp_left .inr }
  · next hany =>
    refine h.add hlist hm hp hnum (fun r hr heq => hany ?_) (List.Sublist.refl _)
      (Set.subset_insert m items) ?_ hgiven (fun _ => .inl rfl) fun d hd => ?_
    · exact List.any_eq_true.mpr ⟨r, hr, by simpa using heq⟩
    · rintro m' (rfl | hm')
      · exact .inr rfl
      · exact .inl hm'
    · exact (h.parities_used d hd).imp_right fun hall m' hm' => .inl (hall m' hm')

/-! ### An FEC packet is stored -/

theorem insertFecPacket_eq {p : ReceivedPacket (Ideal ssrc)} {d : Parity ssrc}
    (hp : p.pkt = .parity d) (hnew : ∀ f ∈ s.receivedFecPackets, f.seqNum ≠ p.seqNum) :
    insertFecPacket (ideal list ssrc true) s p =
      ⟨s.recoveredPackets, storeFecPacket (ideal list ssrc true) s.receivedFecPackets
        ⟨p.ssrc, p.seqNum, assignRecoveredPackets ((d.protectedMedia.map Media.seqNum).map
          fun n => ⟨n, none⟩) s.recoveredPackets, d⟩⟩ := by
  have hany : ¬ s.receivedFecPackets.any (·.seqNum == p.seqNum) = true := by
    intro hany
    obtain ⟨f, hf, heq⟩ := List.any_eq_true.mp hany
    exact hnew f hf (beq_iff_eq.mp heq)
  have hnums : d.protectedMedia.map Media.seqNum ≠ [] := by
    simpa using protectedMedia_ne_nil d
  rw [insertFecPacket, if_neg hany]
  simp only [hp, ideal, ne_eq, not_true_eq_false, if_false, if_neg hnums]

theorem protectedNums_near {p : ReceivedPacket (Ideal ssrc)} {d : Parity ssrc}
    (hd : (p.seqNum, d) ∈ S.fec) : ∀ n ∈ d.protectedMedia.map Media.seqNum, Near S.base n := by
  intro n hn
  obtain ⟨m, hm, rfl⟩ := List.mem_map.mp hn
  exact S.near m (S.protects _ hd m hm)

theorem insertFec_inv (h : Tracks S list items parities passed s)
    {p : ReceivedPacket (Ideal ssrc)} {d : Parity ssrc} (hd : (p.seqNum, d) ∈ S.fec)
    (hp : p.pkt = .parity d) : Inv S.sent (insertFecPacket (ideal list ssrc true) s p) := by
  have hcovered : ∀ m ∈ d.protectedMedia, m ∈ S.media := S.protects _ hd
  refine h.inv.insertFec hp hcovered ?_
  rintro - m hm m' (⟨f, hf, hm'⟩ | hm' | ⟨r, hr, hpkt⟩) hnum
  · exact S.media_eq (hcovered m hm) (h.inv.covered f hf m' hm') hnum
  · exact S.media_eq (hcovered m hm) (hcovered m' hm') hnum
  · obtain ⟨m'', hm'', hpkt'', -⟩ := h.inv.recovered r hr
    obtain rfl := Ideal.media.inj (hpkt.symm.trans hpkt'')
    exact S.media_eq (hcovered m hm) hm'' hnum

theorem insertFec_held (hlist : Sorts list) (h : Tracks S list items parities passed s)
    {p : ReceivedPacket (Ideal ssrc)} {d : Parity ssrc} (hd : (p.seqNum, d) ∈ S.fec)
    (hp : p.pkt = .parity d) :
    Held (ideal list ssrc true) (insertFecPacket (ideal list ssrc true) s p) := by
  refine (insertFecPacket_held (ideal_orderly hlist true) h.held h.nearState ?_).1
  intro q nums hread hmask
  obtain rfl : d = q := by simpa [ideal, hp] using hread
  obtain rfl := Option.some.inj hmask
  exact protectedNums_near hd

theorem insertNewFec (hlist : Sorts list) (h : Tracks S list items parities passed s)
    {p : ReceivedPacket (Ideal ssrc)} {d : Parity ssrc} (hd : (p.seqNum, d) ∈ S.fec)
    (hp : p.pkt = .parity d) (hnew : ∀ f ∈ s.receivedFecPackets, f.seqNum ≠ p.seqNum) :
    Tracks S list items (insert d parities) passed
      (insertFecPacket (ideal list ssrc true) s p) := by
  have hinv := h.insertFec_inv hd hp
  have hheld := h.insertFec_held hlist hd hp
  have hroom := h.length_fec hd hnew
  have heq := @insertFecPacket_eq ssrc list s p d hp hnew
  rw [assign_slotsOf (protectedNums_ascending d) h.held.recovered (protectedNums_near hd)
    h.nearState.recovered] at heq
  rw [heq] at hinv hheld ⊢
  let fec : StoredFec ssrc :=
    ⟨p.ssrc, p.seqNum, slotsOf (d.protectedMedia.map Media.seqNum) s.recoveredPackets, d⟩
  have hperm : (storeFecPacket (ideal list ssrc true) s.receivedFecPackets fec).Perm
      (s.receivedFecPackets ++ [fec]) := storeFecPacket_perm hroom
  have hmem {g : StoredFec ssrc} :
      g ∈ storeFecPacket (ideal list ssrc true) s.receivedFecPackets fec ↔
        g ∈ s.receivedFecPackets ∨ g = fec := by
    rw [hperm.mem_iff, List.mem_append, List.mem_singleton]
  constructor
  case inv => exact hinv
  case held => exact hheld
  case filled =>
    intro g hg slot hslot hsome
    rcases hmem.mp hg with hg | rfl
    · exact h.filled g hg slot hslot hsome
    · obtain ⟨n, -, rfl⟩ := List.mem_map.mp hslot
      rw [fillFrom_seqNum]
      exact fillFrom_isSome.mp hsome
  case stored =>
    intro g hg
    rcases hmem.mp hg with hg | rfl
    · exact (h.stored g hg).imp_right .inr
    · exact ⟨hd, .inl rfl⟩
  case fec_distinct =>
    rw [(hperm.map _).nodup_iff, List.map_append, List.nodup_append]
    refine ⟨h.fec_distinct, List.nodup_singleton _, ?_⟩
    rintro a ha b hb rfl
    obtain ⟨f, hf, rfl⟩ := List.mem_map.mp ha
    exact hnew f hf (List.mem_singleton.mp hb)
  case items_known => exact h.items_known
  case parities_used =>
    rintro d' (rfl | hd')
    · exact .inl ⟨_, hmem.mpr (.inr rfl), rfl⟩
    · rcases h.parities_used d' hd' with ⟨f, hf, hheader⟩ | hall
      · exact .inl ⟨f, hmem.mpr (.inl hf), hheader⟩
      · exact .inr hall
  case sound =>
    intro m hm
    exact (h.sound m hm).mono (Set.Subset.refl _) (Set.image_mono (Set.subset_insert d parities))
  case returned => exact h.returned
  case passed_held => exact h.passed_held

theorem insertFec (hlist : Sorts list) (h : Tracks S list items parities passed s)
    {p : ReceivedPacket (Ideal ssrc)} {d : Parity ssrc} (hd : (p.seqNum, d) ∈ S.fec)
    (hp : p.pkt = .parity d) :
    Tracks S list items (insert d parities) passed
      (insertFecPacket (ideal list ssrc true) s p) := by
  by_cases hany : s.receivedFecPackets.any (·.seqNum == p.seqNum) = true
  · obtain ⟨f, hf, heq⟩ := List.any_eq_true.mp hany
    have hsame : insertFecPacket (ideal list ssrc true) s p = s := if_pos hany
    have hheader : f.header = d :=
      S.fec_eq (beq_iff_eq.mp heq ▸ (h.stored f hf).1) hd
    rw [hsame]
    exact
      { h with
        stored := fun g hg => (h.stored g hg).imp_right .inr
        parities_used := by
          rintro d' (rfl | hd')
          · exact .inl ⟨f, hf, hheader⟩
          · exact h.parities_used d' hd'
        sound := fun m hm => (h.sound m hm).mono (Set.Subset.refl _)
          (Set.image_mono (Set.subset_insert d parities)) }
  · refine h.insertNewFec hlist hd hp fun f hf heq => hany ?_
    exact List.any_eq_true.mpr ⟨f, hf, beq_iff_eq.mpr heq⟩

/-! ### Recovery -/

theorem all_known (h : Tracks S list items parities passed s) {f : StoredFec ssrc}
    (hf : f ∈ s.receivedFecPackets) {m : Media ssrc} (hm : m ∈ f.header.protectedMedia)
    {p : ProtectedPacket (Ideal ssrc)} (hp : p ∈ f.protectedPackets) (hnum : p.seqNum = m.seqNum)
    (hsome : p.pkt.isSome = true) : Known s m := by
  obtain ⟨r, hr, heq⟩ := h.filled f hf p hp hsome
  exact h.known_of_num (h.inv.covered f hf m hm) hr (heq.trans hnum)

/-- Of an FEC packet that is of no further use all is known. -/
theorem spent_known (h : Tracks S list items parities passed s) {f : StoredFec ssrc}
    (hf : f ∈ s.receivedFecPackets) (hspent : Spent (ideal list ssrc true) f) :
    ∀ m ∈ f.header.protectedMedia, Known s m := by
  rcases hspent with hnone | ⟨hone, hrecover⟩
  · intro m hm
    have hcount : f.protectedPackets.countP (·.pkt.isNone) = 0 := by
      rw [numCoveredPacketsMissing] at hnone
      omega
    have hslots := slots_known (h.inv.ready.own f hf) hcount
    exact h.all_known hf hm (hslots ▸ List.mem_map_of_mem hm) rfl rfl
  · obtain ⟨before, m, after, -, -, hsome⟩ := recoverPacket_spec (h.inv.ready.own f hf) hone
    rw [show (ideal list ssrc true).recoverPacket = recoverPacket from rfl, hsome] at hrecover
    cases hrecover

theorem recover (hlist : Sorts list) (h : Tracks S list items parities passed s) :
    Tracks S list items parities passed (attemptRecovery (ideal list ssrc true) s) ∧
      ∀ f ∈ (attemptRecovery (ideal list ssrc true) s).receivedFecPackets,
        numCoveredPacketsMissing f.protectedPackets = 2 := by
  refine attemptRecovery_rule ?_ ?_ h
  · intro s kept h hsub hspent
    exact
      { inv := ⟨h.inv.ready.subset hsub.subset, h.inv.recovered,
          fun f hf => h.inv.covered f (hsub.subset hf)⟩
        held := h.held.sublist (List.Sublist.refl _) hsub.subset
        filled := fun f hf => h.filled f (hsub.subset hf)
        stored := fun f hf => h.stored f (hsub.subset hf)
        fec_distinct := h.fec_distinct.sublist (hsub.map _)
        items_known := h.items_known
        parities_used := by
          intro d hd
          rcases h.parities_used d hd with ⟨f, hf, rfl⟩ | hall
          · rcases hspent f hf with hkept | hspent
            · exact .inl ⟨f, hkept, rfl⟩
            · exact .inr (h.spent_known hf hspent)
          · exact .inr hall
        sound := h.sound
        returned := h.returned
        passed_held := h.passed_held }
  · intro s f packet fecs h hf hmissing hpacket hsub hspent
    obtain ⟨before, m, after, hms, hslots, hrecover⟩ :=
      recoverPacket_spec (h.inv.ready.own f hf) hmissing
    obtain rfl := Option.some.inj (hrecover.symm.trans hpacket)
    have hmem : m ∈ f.header.protectedMedia := hms ▸ List.mem_append_right _ List.mem_cons_self
    have hm : m ∈ S.media := h.inv.covered f hf m hmem
    -- the slots of the other packets are filled, hence these are known
    have hothers : ∀ m' ∈ f.header.protectedMedia, m' ≠ m → Known s m' := by
      intro m' hm' hne
      refine h.all_known hf hm' (p := known m') ?_ rfl rfl
      rw [hms] at hm'
      rw [hslots]
      rcases List.mem_append.mp hm' with hm' | hm'
      · exact List.mem_append_left _ (List.mem_map_of_mem hm')
      · rcases List.mem_cons.mp hm' with rfl | hm'
        · exact absurd rfl hne
        · exact List.mem_append_right _ (List.mem_cons_of_mem _ (List.mem_map_of_mem hm'))
    have hslot : (⟨m.seqNum, none⟩ : ProtectedPacket (Ideal ssrc)) ∈ f.protectedPackets :=
      hslots ▸ List.mem_append_right _ List.mem_cons_self
    have hnew : ∀ r ∈ s.recoveredPackets, r.seqNum ≠ m.seqNum := by
      intro r hr heq
      cases h.held.filled f hf _ hslot r hr heq.symm
    have hpeeled : Recoverable items (check '' parities) m :=
      .peeled ⟨f.header, (h.stored f hf).2, rfl⟩ hmem fun m' hm' hne =>
        h.sound m' (hothers m' hm' hne)
    have hadd := h.add hlist (r := ⟨ssrc, m.seqNum, false, .media m⟩) hm rfl rfl hnew hsub
      (Set.Subset.refl items) (fun m' hm' => .inl hm') hpeeled (by simp) (by
        intro d hd
        rcases h.parities_used d hd with ⟨g, hg, rfl⟩ | hall
        · rcases hspent g hg with hg | rfl | hg'
          · exact .inl ⟨g, hg, rfl⟩
          · refine .inr fun m' hm' => ?_
            by_cases hne : m' = m
            · exact .inr hne
            · exact .inl (hothers m' hm' hne)
          · exact .inr fun m' hm' => .inl (h.spent_known hg hg' m' hm')
        · exact .inr fun m' hm' => .inl (hall m' hm'))
    rw [addRecovered, show (ideal list ssrc true).list = list from rfl, hadd.discard_eq]
    exact hadd

/-! ### One packet, and a run -/

/-- What has come once the packet has. -/
def itemsWith (items : Set (Media ssrc)) : Ideal ssrc → Set (Media ssrc)
  | .media m => insert m items
  | .parity _ => items

def paritiesWith (parities : Set (Parity ssrc)) : Ideal ssrc → Set (Parity ssrc)
  | .media _ => parities
  | .parity d => insert d parities

theorem decode (hlist : Sorts list) (h : Tracks S list items parities passed s)
    {a : Arrival ssrc} (ha : S.Has a) :
    Tracks S list (itemsWith items a.ideal) (paritiesWith parities a.ideal) passed
        (decodeFec (ideal list ssrc true) s a.received) ∧
      ∀ f ∈ (decodeFec (ideal list ssrc true) s a.received).receivedFecPackets,
        numCoveredPacketsMissing f.protectedPackets = 2 := by
  have hcleared := h.cleared_eq ha
  rw [cleared] at hcleared
  rw [Session.Has] at ha
  have hcarries := a.carries
  have hinsert : Tracks S list (itemsWith items a.ideal) (paritiesWith parities a.ideal) passed
      (insertPacket (ideal list ssrc true)
        (resetOnGap (ideal list ssrc true) s a.received) a.received) := by
    rw [insertPacket, hcleared]
    cases hideal : a.ideal with
    | media m =>
      rw [hideal] at hcarries
      simp only [hideal] at ha
      have hpkt : a.received.pkt = .media m := hideal
      have hfec : ¬ a.received.isFec = true := by simp [Arrival.received, hideal, isFec]
      have hadd := h.insertMedia hlist ha hpkt hcarries.2.2.1
      rw [if_neg hfec, hadd.discard_eq]
      exact hadd
    | parity d =>
      simp only [hideal] at ha
      have hpkt : a.received.pkt = .parity d := hideal
      have hfec : a.received.isFec = true := by simp [Arrival.received, hideal, isFec]
      have hadd := h.insertFec hlist (p := a.received) ha hpkt
      rw [if_pos hfec, hadd.discard_eq]
      exact hadd
  exact hinsert.recover hlist

/-- What has not been returned yet. -/
def fresh (s : State (Ideal ssrc) (Parity ssrc)) : List (Ideal ssrc) :=
  (s.recoveredPackets.filter (!·.returned)).map (·.pkt)

theorem pkt_injective (h : Tracks S list items parities passed s)
    {r r' : RecoveredPacket (Ideal ssrc)} (hr : r ∈ s.recoveredPackets)
    (hr' : r' ∈ s.recoveredPackets) (hpkt : r.pkt = r'.pkt) : r = r' := by
  obtain ⟨m, -, hm, hnum⟩ := h.inv.recovered r hr
  obtain ⟨m', -, hm', hnum'⟩ := h.inv.recovered r' hr'
  obtain rfl := Ideal.media.inj (hm.symm.trans (hpkt.trans hm'))
  exact List.inj_on_of_nodup_map h.held.recovered.nodup hr hr' (hnum.trans hnum'.symm)

/-- A packet is handed on only once. -/
theorem fresh_nodup (h : Tracks S list items parities passed s) (hpassed : passed.Nodup) :
    (passed ++ fresh s).Nodup := by
  have hnodup : s.recoveredPackets.Nodup := h.held.recovered.nodup.of_map
  refine List.nodup_append.mpr ⟨hpassed, ?_, ?_⟩
  · refine List.Nodup.map_on ?_ (hnodup.filter _)
    intro r hr r' hr' hpkt
    exact h.pkt_injective (List.mem_filter.mp hr).1 (List.mem_filter.mp hr').1 hpkt
  · rintro x hx y hy rfl
    obtain ⟨r, hr, hret, rfl⟩ := h.passed_held x hx
    obtain ⟨r', hr', hpkt⟩ := List.mem_map.mp hy
    obtain ⟨hr', hfresh⟩ := List.mem_filter.mp hr'
    obtain rfl := h.pkt_injective hr' hr hpkt
    rw [hret] at hfresh
    cases hfresh

theorem handOn (h : Tracks S list items parities passed s) :
    Tracks S list items parities (passed ++ fresh s)
      ⟨s.recoveredPackets.map fun r => { r with returned := true }, s.receivedFecPackets⟩ := by
  have hknown (m : Media ssrc) :
      Known ⟨s.recoveredPackets.map fun r => { r with returned := true }, s.receivedFecPackets⟩ m ↔
        Known s m := by
    simp [Known]
  exact
    { inv := by
        refine ⟨h.inv.ready, fun r hr => ?_, h.inv.covered⟩
        obtain ⟨r', hr', rfl⟩ := List.mem_map.mp hr
        exact h.inv.recovered r' hr'
      held := h.held.returned
      filled := by
        intro f hf p hp hsome
        obtain ⟨r, hr, hnum⟩ := h.filled f hf p hp hsome
        exact ⟨_, List.mem_map_of_mem hr, hnum⟩
      stored := h.stored
      fec_distinct := h.fec_distinct
      items_known := fun m hm => (hknown m).mpr (h.items_known m hm)
      parities_used := fun d hd => (h.parities_used d hd).imp_right fun hall m hm =>
        (hknown m).mpr (hall m hm)
      sound := fun m hm => h.sound m ((hknown m).mp hm)
      returned := by
        intro r hr _ m hpkt
        obtain ⟨r', hr', rfl⟩ := List.mem_map.mp hr
        cases hret : r'.returned with
        | true =>
          exact (h.returned r' hr' hret m hpkt).imp_right fun hm => List.mem_append_left _ hm
        | false =>
          refine .inr (List.mem_append_right _ ?_)
          exact List.mem_map.mpr ⟨r', List.mem_filter.mpr ⟨hr', by simp [hret]⟩, hpkt⟩
      passed_held := by
        intro x hx
        rcases List.mem_append.mp hx with hx | hx
        · obtain ⟨r, hr, -, hpkt⟩ := h.passed_held x hx
          exact ⟨_, List.mem_map_of_mem hr, rfl, hpkt⟩
        · obtain ⟨r, hr, hpkt⟩ := List.mem_map.mp hx
          exact ⟨_, List.mem_map_of_mem (List.mem_filter.mp hr).1, rfl, hpkt⟩ }

/-- In the end no FEC packet has just one unknown packet. -/
theorem closed (h : Tracks S list items parities passed s)
    (hlacks : ∀ f ∈ s.receivedFecPackets, numCoveredPacketsMissing f.protectedPackets = 2) :
    Closed (check '' parities) {m | Known s m} := by
  rintro c ⟨d, hd, rfl⟩ m hm hothers
  rcases h.parities_used d hd with ⟨f, hf, rfl⟩ | hall
  · obtain ⟨p, hp, q, hq, hne, hnot⟩ := FlexfecSaturated.lacksTwo ⟨h.held, hlacks⟩ f hf
    have hunknown {slot : ProtectedPacket (Ideal ssrc)} (hslot : slot ∈ f.protectedPackets)
        (hnot : ∀ r ∈ s.recoveredPackets, r.seqNum ≠ slot.seqNum) : slot.seqNum = m.seqNum := by
      have hnums := Option.some.inj (h.held.named f hf)
      have hmem : slot.seqNum ∈ f.header.protectedMedia.map Media.seqNum :=
        hnums ▸ List.mem_map_of_mem hslot
      obtain ⟨m', hm', hnum⟩ := List.mem_map.mp hmem
      by_cases hm'm : m' = m
      · rw [← hnum, hm'm]
      · obtain ⟨r, hr, hpkt⟩ := hothers m' hm' hm'm
        obtain ⟨m'', -, hpkt'', hnum''⟩ := h.inv.recovered r hr
        obtain rfl := Ideal.media.inj (hpkt.symm.trans hpkt'')
        exact absurd (hnum''.trans hnum) (hnot r hr)
    exact absurd ((hunknown hp fun r hr => (hnot r hr).1).trans
      (hunknown hq fun r hr => (hnot r hr).2).symm) hne
  · exact hall m hm

end Tracks

/-! ### Runs -/

section Run

variable {S : Session ssrc} {arrivals : List (Arrival ssrc)}

theorem mem_itemsWith {items : Set (Media ssrc)} {x : Ideal ssrc} {m : Media ssrc} :
    m ∈ Tracks.itemsWith items x ↔ m ∈ items ∨ x = .media m := by
  cases x with
  | media m' => simp [Tracks.itemsWith, or_comm, eq_comm]
  | parity d => simp [Tracks.itemsWith]

theorem mem_paritiesWith {parities : Set (Parity ssrc)} {x : Ideal ssrc} {d : Parity ssrc} :
    d ∈ Tracks.paritiesWith parities x ↔ d ∈ parities ∨ x = .parity d := by
  cases x with
  | media m => simp [Tracks.paritiesWith]
  | parity d' => simp [Tracks.paritiesWith, or_comm, eq_comm]

theorem exists_mem_concat {α : Type} {p : α → Prop} {l : List α} {a : α} :
    (∃ b ∈ l ++ [a], p b) ↔ (∃ b ∈ l, p b) ∨ p a := by
  simp [or_and_right, exists_or]

theorem mediaOf_concat (done : List (Arrival ssrc)) (a : Arrival ssrc) :
    mediaOf (done ++ [a]) = if a.packet.recovered then mediaOf done
      else Tracks.itemsWith (mediaOf done) a.ideal := by
  ext m
  rw [mediaOf, Set.mem_ofPred_eq, exists_mem_concat]
  cases hrecovered : a.packet.recovered with
  | true => simp [mediaOf]
  | false => simp [mediaOf, mem_itemsWith]

theorem parityOf_concat (done : List (Arrival ssrc)) (a : Arrival ssrc) :
    parityOf (done ++ [a]) = if a.packet.recovered then parityOf done
      else Tracks.paritiesWith (parityOf done) a.ideal := by
  ext d
  rw [parityOf, Set.mem_ofPred_eq, exists_mem_concat]
  cases hrecovered : a.packet.recovered with
  | true => simp [parityOf]
  | false => simp [parityOf, mem_paritiesWith]

/-- The state of the ideal receiver after a run. -/
structure Ended (S : Session ssrc) (list : ListSort) (arrivals : List (Arrival ssrc))
    (w : World ssrc) : Prop where
  tracks : Tracks S list (mediaOf arrivals) (parityOf arrivals) w.passed w.decoder
  nodup : w.passed.Nodup
  lacks : ∀ f ∈ w.decoder.receivedFecPackets, numCoveredPacketsMissing f.protectedPackets = 2
  returned : ∀ r ∈ w.decoder.recoveredPackets, r.returned = true

theorem ended (hlist : Sorts list) (harrivals : ∀ a ∈ arrivals, S.Has a) :
    Ended S list arrivals (idealRun list true arrivals) := by
  induction arrivals using List.reverseRecOn with
  | nil =>
    have hmedia : mediaOf ([] : List (Arrival ssrc)) = ∅ := by simp [mediaOf]
    have hparity : parityOf ([] : List (Arrival ssrc)) = ∅ := by simp [parityOf]
    refine ⟨?_, List.nodup_nil, List.forall_mem_nil _, List.forall_mem_nil _⟩
    rw [hmedia, hparity]
    exact Tracks.start
  | append_singleton done a ih =>
    obtain ⟨htracks, hnodup, hlacks, hreturned⟩ :=
      ih fun a' ha' => harrivals a' (List.mem_append_left _ ha')
    have ha := harrivals a (List.mem_append_right _ List.mem_cons_self)
    rw [idealRun, StepTrace.run_concat, ← idealRun, step]
    cases hrecovered : a.packet.recovered with
    | true =>
      have hsame : mediaOf (done ++ [a]) = mediaOf done ∧ parityOf (done ++ [a]) = parityOf done := by
        simp [mediaOf_concat, parityOf_concat, hrecovered]
      refine ⟨?_, hnodup, hlacks, hreturned⟩
      rw [hsame.1, hsame.2]
      exact htracks
    | false =>
      obtain ⟨hdecode, hmissing⟩ := htracks.decode hlist ha
      refine ⟨?_, hdecode.fresh_nodup hnodup, hmissing, fun r hr => ?_⟩
      · simp only [mediaOf_concat, parityOf_concat, hrecovered, Bool.false_eq_true, if_false]
        exact hdecode.handOn
      · obtain ⟨r', -, rfl⟩ := List.mem_map.mp hr
        rfl

/-- What is held in the end is what can be peeled from what arrived. -/
theorem Ended.known_iff {w : World ssrc} (h : Ended S list arrivals w) (m : Media ssrc) :
    Known w.decoder m ↔ Peeled arrivals m := by
  let known : Set (Media ssrc) := {m | Known w.decoder m}
  have hitems : mediaOf arrivals ⊆ known := fun _ hm => h.tracks.items_known _ hm
  exact mem_iff_recoverable hitems (h.tracks.closed h.lacks) h.tracks.sound m

/-- It arrived or was handed on. -/
theorem Ended.known_cases {w : World ssrc} (h : Ended S list arrivals w) (m : Media ssrc) :
    Known w.decoder m ↔ m ∈ mediaOf arrivals ∨ .media m ∈ w.passed := by
  constructor
  · rintro ⟨r, hr, hpkt⟩
    exact h.tracks.returned r hr (h.returned r hr) m hpkt
  · rintro (hm | hm)
    · exact h.tracks.items_known m hm
    · obtain ⟨r, hr, -, hpkt⟩ := h.tracks.passed_held _ hm
      exact ⟨r, hr, hpkt⟩

end Run

/-! ### The receiver of `webrtc` -/

section Webrtc

variable (list) (S : Session ssrc) (arrivals : List (Arrival ssrc))

/-- What the receiver hands on in a run. -/
def passedBy : List (List UInt8) :=
  (run FlexfecReceiver.webrtc list (create ssrc ssrc) (arrivals.map (·.packet))).passed

variable {list S arrivals}

theorem fromSent (ha : ∀ a ∈ arrivals, S.Has a) : ∀ a ∈ arrivals, FromSent S.sent a.received := by
  intro a hmem
  have hhas := ha a hmem
  rw [Session.Has] at hhas
  rw [FromSent]
  cases hideal : a.ideal with
  | media m =>
    simp only [hideal] at hhas
    simp only [Arrival.received, hideal]
    exact hhas
  | parity d =>
    simp only [hideal] at hhas
    simp only [Arrival.received, hideal]
    exact S.protects _ hhas

/-- The receiver hands on the bytes of what the ideal one hands on. -/
theorem passedBy_eq (harrivals : ∀ a ∈ arrivals, S.Has a) :
    passedBy list arrivals = (idealRun list true arrivals).passed.map fun x =>
      FlexfecReceiver.webrtc.bytes ((FlexfecGenuine.represents list ssrc).onPacket x) := by
  have hsent := fromSent harrivals
  obtain ⟨hrun, -⟩ := (FlexfecGenuine.represents list ssrc).run_image hsent
    (clearRun_of_injOn hsent S.injOn)
  rw [passedBy, hrun]
  rfl

theorem bytes_media (m : Media ssrc) : FlexfecReceiver.webrtc.bytes
    ((FlexfecGenuine.represents list ssrc).onPacket (.media m)) = m.bytes :=
  (FlexfecGenuine.represents list ssrc).bytes m

theorem mem_passedBy_iff (hlist : Sorts list) (harrivals : ∀ a ∈ arrivals, S.Has a)
    (bytes : List UInt8) : bytes ∈ passedBy list arrivals ↔
      ∃ m ∈ S.media, bytes = m.bytes ∧ .media m ∈ (idealRun list true arrivals).passed := by
  have hended := ended hlist harrivals
  rw [passedBy_eq harrivals, List.mem_map]
  constructor
  · rintro ⟨x, hx, rfl⟩
    obtain ⟨r, hr, -, rfl⟩ := hended.tracks.passed_held x hx
    obtain ⟨m, hm, hpkt, -⟩ := hended.tracks.inv.recovered r hr
    rw [hpkt] at hx ⊢
    exact ⟨m, hm, bytes_media m, hx⟩
  · rintro ⟨m, -, rfl, hm⟩
    exact ⟨.media m, hm, bytes_media m⟩

theorem delivered_iff (hlist : Sorts list) (harrivals : ∀ a ∈ arrivals, S.Has a) {m : Media ssrc}
    (hm : m ∈ S.media) :
    (m ∈ mediaOf arrivals ∨ m.bytes ∈ passedBy list arrivals) ↔ Peeled arrivals m := by
  have hended := ended hlist harrivals
  rw [← hended.known_iff, hended.known_cases]
  refine or_congr_right ?_
  rw [mem_passedBy_iff hlist harrivals]
  constructor
  · rintro ⟨m', -, hbytes, hm'⟩
    rwa [Media.ext hbytes]
  · exact fun hpassed => ⟨m, hm, rfl, hpassed⟩

theorem nodup_passedBy (hlist : Sorts list) (harrivals : ∀ a ∈ arrivals, S.Has a) :
    (passedBy list arrivals).Nodup := by
  have hended := ended hlist harrivals
  rw [passedBy_eq harrivals]
  refine List.Nodup.map_on ?_ hended.nodup
  intro x hx y hy hbytes
  obtain ⟨r, hr, -, rfl⟩ := hended.tracks.passed_held x hx
  obtain ⟨r', hr', -, rfl⟩ := hended.tracks.passed_held y hy
  obtain ⟨m, -, hpkt, -⟩ := hended.tracks.inv.recovered r hr
  obtain ⟨m', -, hpkt', -⟩ := hended.tracks.inv.recovered r' hr'
  rw [hpkt, hpkt', bytes_media, bytes_media] at hbytes
  rw [hpkt, hpkt', Media.ext hbytes]

/-- The receiver ends up with exactly what can be peeled from what arrived, and hands on each
recovered packet once, as it was sent. -/
theorem delivered_iff_peeled (list : ListSort) (hlist : Sorts list) (ssrc : UInt32)
    (S : Session ssrc) (arrivals : List (Arrival ssrc)) (harrivals : ∀ a ∈ arrivals, S.Has a) :
    (∀ m ∈ S.media, (m ∈ mediaOf arrivals ∨ m.bytes ∈ passedBy list arrivals) ↔
      Peeled arrivals m) ∧
    (passedBy list arrivals).Nodup ∧
    ∀ bytes ∈ passedBy list arrivals, ∃ m ∈ S.media, bytes = m.bytes := by
  refine ⟨fun m hm => delivered_iff hlist harrivals hm, nodup_passedBy hlist harrivals,
    fun bytes hbytes => ?_⟩
  obtain ⟨m, hm, hbytes', -⟩ := (mem_passedBy_iff hlist harrivals bytes).mp hbytes
  exact ⟨m, hm, hbytes'⟩

/-- Packets 1 and 2 and the FEC packet for both. -/
def firstSession : Session 1 where
  media := [FlexfecGenuine.stream 1, FlexfecGenuine.stream 2]
  fec := [(5, FlexfecGenuine.firstTwo)]
  base := 1
  near := by decide
  distinct := by decide
  protects := by
    intro f hf m hm
    obtain rfl := List.mem_singleton.mp hf
    exact (List.mem_filter.mp hm).1
  fec_distinct := by decide
  media_count := by decide
  fec_count := by decide
  media_close := by decide
  fec_close := by decide

theorem firstSession_has : ∀ a ∈ [FlexfecGenuine.fecArrival, FlexfecGenuine.mediaArrival 1],
    firstSession.Has a := by
  intro a ha
  obtain rfl | rfl : a = FlexfecGenuine.fecArrival ∨ a = FlexfecGenuine.mediaArrival 1 := by
    simpa using ha
  · exact List.mem_singleton.mpr rfl
  · exact List.mem_cons_self

/-- Packet 2 is recovered from packet 1. -/
theorem delivered_iff_peeled_firstSession :
    (FlexfecGenuine.stream 2 ∈
        mediaOf [FlexfecGenuine.fecArrival, FlexfecGenuine.mediaArrival 1] ∨
      (FlexfecGenuine.stream 2).bytes ∈
        passedBy insertionListSort [FlexfecGenuine.fecArrival, FlexfecGenuine.mediaArrival 1]) ↔
      Peeled [FlexfecGenuine.fecArrival, FlexfecGenuine.mediaArrival 1]
        (FlexfecGenuine.stream 2) :=
  (delivered_iff_peeled insertionListSort insertionListSort_sorts 1 firstSession
    [FlexfecGenuine.fecArrival, FlexfecGenuine.mediaArrival 1] firstSession_has).1
    (FlexfecGenuine.stream 2) (List.mem_cons_of_mem _ List.mem_cons_self)

/-- What is lost for good lies in a set of packets that did not arrive, of which no FEC packet that
arrived protects just one. -/
theorem lost_iff_stopping (list : ListSort) (hlist : Sorts list) (ssrc : UInt32)
    (S : Session ssrc) (arrivals : List (Arrival ssrc)) (harrivals : ∀ a ∈ arrivals, S.Has a) :
    ∀ m ∈ S.media, ¬ (m ∈ mediaOf arrivals ∨ m.bytes ∈ passedBy list arrivals) ↔
      ∃ stop : Set (Media ssrc), m ∈ stop ∧ (∀ n ∈ stop, n ∉ mediaOf arrivals) ∧
        ∀ d ∈ parityOf arrivals, ∀ n ∈ d.protectedMedia, n ∈ stop →
          ∃ n' ∈ d.protectedMedia, n' ≠ n ∧ n' ∈ stop := by
  intro m hm
  rw [delivered_iff hlist harrivals hm, Peeled, not_recoverable_iff]
  constructor
  · rintro ⟨stop, hstop, hmem⟩
    refine ⟨stop, hmem, hstop.apart, fun d hd n hn hin => ?_⟩
    exact hstop.meets (check d) (Set.mem_image_of_mem check hd) n hn hin
  · rintro ⟨stop, hmem, hapart, hmeets⟩
    refine ⟨stop, ⟨hapart, fun c hc n hn hin => ?_⟩, hmem⟩
    obtain ⟨d, hd, rfl⟩ := hc
    exact hmeets d hd n hn hin

/-- Where only the FEC packet arrives, both packets are lost. -/
theorem lost_iff_stopping_firstSession :
    ¬ (FlexfecGenuine.stream 1 ∈ mediaOf [FlexfecGenuine.fecArrival] ∨
      (FlexfecGenuine.stream 1).bytes ∈
        passedBy insertionListSort [FlexfecGenuine.fecArrival]) := by
  have hhas : ∀ a ∈ [FlexfecGenuine.fecArrival], firstSession.Has a := fun a ha =>
    firstSession_has a (List.mem_cons.mpr (.inl (List.mem_singleton.mp ha)))
  have hnone : ∀ m, m ∉ mediaOf [FlexfecGenuine.fecArrival] := by
    rintro m ⟨a, ha, -, hideal⟩
    obtain rfl := List.mem_singleton.mp ha
    cases hideal
  have hboth : FlexfecGenuine.firstTwo.protectedMedia =
      [FlexfecGenuine.stream 1, FlexfecGenuine.stream 2] := rfl
  have hne : FlexfecGenuine.stream 1 ≠ FlexfecGenuine.stream 2 := fun h =>
    absurd (congrArg Media.bytes h) (by decide)
  have hother : ∀ n ∈ FlexfecGenuine.firstTwo.protectedMedia,
      ∃ n' ∈ FlexfecGenuine.firstTwo.protectedMedia, n' ≠ n := by
    rw [hboth]
    exact List.forall_mem_cons.mpr ⟨⟨_, List.mem_cons_of_mem _ List.mem_cons_self, hne.symm⟩,
      List.forall_mem_singleton.mpr ⟨_, List.mem_cons_self, hne⟩⟩
  refine (lost_iff_stopping insertionListSort insertionListSort_sorts 1 firstSession
    [FlexfecGenuine.fecArrival] hhas (FlexfecGenuine.stream 1) List.mem_cons_self).mpr ?_
  refine ⟨Set.univ, trivial, fun n _ => hnone n, ?_⟩
  rintro d ⟨a, ha, -, hideal⟩ n hn -
  obtain rfl := List.mem_singleton.mp ha
  obtain rfl := FlexfecIdeal.Ideal.parity.inj hideal
  obtain ⟨n', hn', hne⟩ := hother n hn
  exact ⟨n', hn', hne, trivial⟩

end Webrtc

end FlexfecSession
