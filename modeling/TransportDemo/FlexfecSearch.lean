import TransportDemo.FlexfecEncoder

/-!
# Numbers on half of the circle

`LessThan` is an order on numbers that lie within half of the circle from some
base. There `std::list::sort` sorts, `std::lower_bound` finds the packet it
looks for, and the walk along two sorted lists finds all that they have in
common.
-/

namespace FlexfecSearch

open FlexfecDecoder FlexfecEncoder

variable {P Q : Type} {base : UInt16}

/-- On half of the circle. -/
def Near (base num : UInt16) : Prop := offset base num < 0x8000

instance nearDecidable (base num : UInt16) : Decidable (Near base num) :=
  inferInstanceAs (Decidable (offset base num < 0x8000))

/-- There it is the order of the distances from the base. -/
theorem lessThan_iff {a b : UInt16} (ha : Near base a) (hb : Near base b) :
    lessThan a b = true ↔ offset base a < offset base b := by
  have ha' := a.toNat_lt
  have hb' := b.toNat_lt
  simp only [Near, offset, UInt16.toNat_sub] at ha hb
  rw [lessThan, isNewerSequenceNumber_iff]
  simp only [offset, UInt16.toNat_sub]
  omega

theorem lessThan_false_iff {a b : UInt16} (ha : Near base a) (hb : Near base b) :
    lessThan a b = false ↔ offset base b ≤ offset base a := by
  rw [← Bool.not_eq_true, lessThan_iff ha hb, not_lt]

/-- Ascending by `LessThan`, each before all that follow. -/
def Ascending {α : Type} (key : α → UInt16) (l : List α) : Prop :=
  l.Pairwise fun a b => lessThan (key a) (key b) = true

theorem lessThan_irrefl (a : UInt16) : lessThan a a = false := by
  have hnear : Near a a := by simp [Near, offset]
  exact (lessThan_false_iff hnear hnear).mpr (Nat.le_refl _)

theorem Ascending.nodup {α : Type} {key : α → UInt16} {l : List α} (h : Ascending key l) :
    (l.map key).Nodup := by
  refine List.pairwise_map.mpr (h.imp ?_)
  intro a b hab heq
  rw [heq, lessThan_irrefl] at hab
  cases hab

/-- `LessThan` is a strict weak ordering of the numbers on half of the circle, and `std::list::sort`
sorts by such an ordering. -/
def Sorts (list : ListSort) : Prop :=
  ∀ {α : Type} (key : α → UInt16) (base : UInt16) (l : List α), (∀ a ∈ l, Near base (key a)) →
    (list.sort key l).Pairwise fun a b => lessThan (key b) (key a) = false

theorem insertionListSort_sorts : Sorts insertionListSort := by
  intro α key base l hnear
  have hrank : insertionListSort.sort key l =
      l.insertionSort fun a b => offset base (key a) ≤ offset base (key b) := by
    have hmap := List.map_insertionSort (fun a b => ¬ lessThan (key b) (key a))
      (fun a b => offset base (key a) ≤ offset base (key b)) id l fun a ha b hb => by
        rw [Bool.not_eq_true]
        exact lessThan_false_iff (hnear b hb) (hnear a ha)
    simpa [insertionListSort] using hmap
  have hmem : ∀ a ∈ insertionListSort.sort key l, Near base (key a) := fun a ha =>
    hnear a ((insertionListSort.perm key l).subset ha)
  have hsorted : (insertionListSort.sort key l).Pairwise
      fun a b => offset base (key a) ≤ offset base (key b) := by
    rw [hrank]
    have htrans : IsTrans α fun a b => offset base (key a) ≤ offset base (key b) :=
      ⟨fun _ _ _ => Nat.le_trans⟩
    have htotal : Std.Total fun a b : α => offset base (key a) ≤ offset base (key b) :=
      ⟨fun _ _ => Nat.le_total _ _⟩
    exact List.pairwise_insertionSort _ l
  refine hsorted.imp_of_mem fun {a b} ha hb hab => ?_
  exact (lessThan_false_iff (hmem b hb) (hmem a ha)).mpr hab

/-- Different numbers end up ascending. -/
theorem Sorts.ascending {list : ListSort} (h : Sorts list) {α : Type} {key : α → UInt16}
    {l : List α} (hnear : ∀ a ∈ l, Near base (key a)) (hnodup : (l.map key).Nodup) :
    Ascending key (list.sort key l) := by
  have hperm := (list.perm key l).map key
  have hdistinct : (list.sort key l).Pairwise fun a b => key a ≠ key b :=
    List.pairwise_map.mp (hperm.nodup_iff.mpr hnodup)
  refine ((h key base l hnear).and hdistinct).imp ?_
  rintro a b ⟨hab, hne⟩
  by_contra hlt
  exact hne (lessThan_total (Bool.eq_false_iff.mpr hlt) hab)

/-! ### `std::lower_bound` -/

theorem lowerBoundLoop_eq {before after : List UInt16} {value : UInt16}
    (hbefore : ∀ n ∈ before, lessThan n value = true)
    (hafter : ∀ n ∈ after, lessThan n value = false) {fuel first len : Nat} (hfuel : len ≤ fuel)
    (hfirst : first ≤ before.length) (hlast : before.length ≤ first + len)
    (hlen : first + len ≤ (before ++ after).length) :
    lowerBoundLoop (before ++ after) value fuel first len = before.length := by
  induction fuel generalizing first len with
  | zero =>
    rw [lowerBoundLoop]
    omega
  | succ fuel ih =>
    rw [lowerBoundLoop]
    split
    · omega
    · next hpos =>
      have hmid : first + len / 2 < (before ++ after).length := by omega
      rw [List.getD_eq_getElem?_getD, List.getElem?_eq_getElem hmid, Option.getD_some]
      split
      · next hless =>
        have hin : first + len / 2 < before.length := by
          by_contra hout
          rw [List.getElem_append_right (by omega), hafter _ (List.getElem_mem _)] at hless
          cases hless
        exact ih (by omega) (by omega) (by omega) (by omega)
      · next hless =>
        have hout : before.length ≤ first + len / 2 := by
          by_contra hin
          rw [List.getElem_append_left (by omega)] at hless
          exact hless (hbefore _ (List.getElem_mem _))
        exact ih (by omega) hfirst (by omega) (by omega)

/-- The first number that is not before the value. -/
theorem lowerBound_eq {before after : List UInt16} {value : UInt16}
    (hbefore : ∀ n ∈ before, lessThan n value = true)
    (hafter : ∀ n ∈ after, lessThan n value = false) :
    lowerBound (before ++ after) value = before.length := by
  have hlen : (before ++ after).length = before.length + after.length := List.length_append
  exact lowerBoundLoop_eq hbefore hafter (Nat.le_refl _) (Nat.zero_le _) (by omega) (by omega)

/-! ### Covering -/

/-- The slot with the packet's number is filled. -/
def fill (r : RecoveredPacket P) (p : ProtectedPacket P) : ProtectedPacket P :=
  if p.seqNum = r.seqNum then { p with pkt := some r.pkt } else p

@[simp] theorem fill_seqNum (r : RecoveredPacket P) (p : ProtectedPacket P) :
    (fill r p).seqNum = p.seqNum := by
  rw [fill]
  split <;> rfl

theorem fill_of_ne {r : RecoveredPacket P} {p : ProtectedPacket P} (h : p.seqNum ≠ r.seqNum) :
    fill r p = p := if_neg h

theorem map_fill_of_ne {r : RecoveredPacket P} {slots : List (ProtectedPacket P)}
    (h : ∀ p ∈ slots, p.seqNum ≠ r.seqNum) : slots.map (fill r) = slots :=
  (List.map_congr_left fun p hp => fill_of_ne (h p hp)).trans (List.map_id slots)

theorem ne_of_lessThan {a b : UInt16} (h : lessThan a b = true) : a ≠ b := by
  rintro rfl
  rw [lessThan_irrefl] at h
  cases h

/-- Ascending slots: those before a number, and the others. -/
theorem split_at {slots : List (ProtectedPacket P)} (hasc : Ascending (·.seqNum) slots)
    (hnear : ∀ p ∈ slots, Near base p.seqNum) {num : UInt16} (hnum : Near base num) :
    ∃ before after, slots = before ++ after ∧ (∀ p ∈ before, lessThan p.seqNum num = true) ∧
      ∀ p ∈ after, lessThan p.seqNum num = false := by
  induction slots with
  | nil => exact ⟨[], [], rfl, List.forall_mem_nil _, List.forall_mem_nil _⟩
  | cons p slots ih =>
    obtain ⟨hp, hslots⟩ := List.pairwise_cons.mp hasc
    obtain ⟨hpnear, hsnear⟩ := List.forall_mem_cons.mp hnear
    cases hless : lessThan p.seqNum num with
    | true =>
      obtain ⟨before, after, rfl, hbefore, hafter⟩ := ih hslots hsnear
      exact ⟨p :: before, after, rfl, List.forall_mem_cons.mpr ⟨hless, hbefore⟩, hafter⟩
    | false =>
      refine ⟨[], p :: slots, rfl, List.forall_mem_nil _, ?_⟩
      refine List.forall_mem_cons.mpr ⟨hless, fun q hq => ?_⟩
      have hpq := (lessThan_iff hpnear (hsnear q hq)).mp (hp q hq)
      rw [lessThan_false_iff hpnear hnum] at hless
      rw [lessThan_false_iff (hsnear q hq) hnum]
      omega

/-- The search finds the slot if there is one. -/
theorem cover_eq {f : ReceivedFecPacket P Q} {r : RecoveredPacket P}
    (hasc : Ascending (·.seqNum) f.protectedPackets)
    (hnear : ∀ p ∈ f.protectedPackets, Near base p.seqNum) (hr : Near base r.seqNum) :
    f.cover r = { f with protectedPackets := f.protectedPackets.map (fill r) } := by
  obtain ⟨before, after, hslots, hbefore, hafter⟩ := split_at hasc hnear hr
  have hfront : before.map (fill r) = before :=
    map_fill_of_ne fun p hp => ne_of_lessThan (hbefore p hp)
  have hindex : lowerBound (f.protectedPackets.map (·.seqNum)) r.seqNum = before.length := by
    rw [hslots, List.map_append, lowerBound_eq (by simpa using hbefore) (by simpa using hafter),
      List.length_map]
  rw [hslots] at hasc hnear
  simp only [ReceivedFecPacket.cover, hindex]
  rw [hslots, List.map_append, hfront]
  obtain ⟨ssrc, seqNum, slots, header⟩ := f
  obtain rfl := hslots
  cases after with
  | nil => simp
  | cons p after =>
    have hrest : after.map (fill r) = after := by
      refine map_fill_of_ne fun q hq heq => ?_
      have hpq := (List.pairwise_append.mp hasc).2.1
      have hq' : lessThan p.seqNum q.seqNum = true := (List.pairwise_cons.mp hpq).1 q hq
      rw [heq, hafter p List.mem_cons_self] at hq'
      cases hq'
    simp only [List.getElem?_append_right (Nat.le_refl _), Nat.sub_self, List.getElem?_cons_zero]
    rw [List.map_cons, hrest, fill]
    split
    · simp
    · rfl

/-! ### What two ascending lists have in common -/

/-- The slot is filled from the packets, if one has its number. -/
def fillFrom (rs : List (RecoveredPacket P)) (p : ProtectedPacket P) : ProtectedPacket P :=
  match rs.find? (·.seqNum == p.seqNum) with
  | none => p
  | some r => { p with pkt := some r.pkt }

theorem fillFrom_of_ne {rs : List (RecoveredPacket P)} {p : ProtectedPacket P}
    (h : ∀ r ∈ rs, r.seqNum ≠ p.seqNum) : fillFrom rs p = p := by
  have hnone : rs.find? (·.seqNum == p.seqNum) = none :=
    List.find?_eq_none.mpr fun r hr => by simpa using h r hr
  rw [fillFrom, hnone]

/-- Packets that come before a slot do not matter to it. -/
theorem fillFrom_append {before rs : List (RecoveredPacket P)} {p : ProtectedPacket P}
    (h : ∀ r ∈ before, r.seqNum ≠ p.seqNum) : fillFrom (before ++ rs) p = fillFrom rs p := by
  have hnone : before.find? (·.seqNum == p.seqNum) = none :=
    List.find?_eq_none.mpr fun r hr => by simpa using h r hr
  rw [fillFrom, fillFrom, List.find?_append, hnone, Option.none_or]

/-- What the walk skips on its way to a slot: a packet before it. -/
def skipped (p : ProtectedPacket P) (r : RecoveredPacket P) : Bool :=
  !lessThan p.seqNum r.seqNum && lessThan r.seqNum p.seqNum

theorem assignRecoveredPackets_cons (p : ProtectedPacket P) (slots : List (ProtectedPacket P))
    (rs : List (RecoveredPacket P)) : assignRecoveredPackets (p :: slots) rs =
      match rs.dropWhile (skipped p) with
      | [] => p :: slots
      | r :: rs =>
        if lessThan p.seqNum r.seqNum then p :: assignRecoveredPackets slots (r :: rs)
        else { p with pkt := some r.pkt } :: assignRecoveredPackets slots rs := rfl

theorem lessThan_of_skipped {p : ProtectedPacket P} {rs : List (RecoveredPacket P)}
    {r : RecoveredPacket P} (h : r ∈ rs.takeWhile (skipped p)) :
    lessThan r.seqNum p.seqNum = true := by
  have hall := List.all_takeWhile (p := skipped p) (l := rs)
  have hr := List.all_eq_true.mp hall r h
  exact (Bool.and_eq_true_iff.mp hr).2

/-- The packet that the walk stops at is not before the slot. -/
theorem seqNum_of_stops {p : ProtectedPacket P} {rs rs' : List (RecoveredPacket P)}
    {r : RecoveredPacket P} (h : rs.dropWhile (skipped p) = r :: rs')
    (hless : lessThan p.seqNum r.seqNum = false) : r.seqNum = p.seqNum := by
  have hhead := List.head?_dropWhile_not (skipped p) rs
  rw [h] at hhead
  refine (lessThan_total hless ?_).symm
  simpa [skipped, hless] using hhead

/-- What is skipped on the way to a slot has no later slot's number either. -/
theorem map_fillFrom_dropWhile {p : ProtectedPacket P} {slots : List (ProtectedPacket P)}
    {rs : List (RecoveredPacket P)} (hslots : Ascending (·.seqNum) (p :: slots))
    (hsnear : ∀ q ∈ p :: slots, Near base q.seqNum) (hrnear : ∀ r ∈ rs, Near base r.seqNum) :
    (p :: slots).map (fillFrom (rs.dropWhile (skipped p))) = (p :: slots).map (fillFrom rs) := by
  obtain ⟨hp, -⟩ := List.pairwise_cons.mp hslots
  have hpnear := hsnear p List.mem_cons_self
  refine List.map_congr_left fun q hq => ?_
  conv_rhs => rw [← List.takeWhile_append_dropWhile (p := skipped p) (l := rs)]
  refine (fillFrom_append fun r hr heq => ?_).symm
  have hrnear := hrnear r ((List.takeWhile_prefix _).subset hr)
  have hless := (lessThan_iff hrnear hpnear).mp (lessThan_of_skipped hr)
  rw [heq] at hless
  rcases List.mem_cons.mp hq with rfl | hq'
  · exact Nat.lt_irrefl _ hless
  · have hpq := (lessThan_iff hpnear (hsnear q hq)).mp (hp q hq')
    omega

theorem assignRecoveredPackets_eq {slots : List (ProtectedPacket P)}
    {rs : List (RecoveredPacket P)} (hslots : Ascending (·.seqNum) slots)
    (hrs : Ascending (·.seqNum) rs) (hsnear : ∀ p ∈ slots, Near base p.seqNum)
    (hrnear : ∀ r ∈ rs, Near base r.seqNum) :
    assignRecoveredPackets slots rs = slots.map (fillFrom rs) := by
  induction slots generalizing rs with
  | nil => rfl
  | cons p slots ih =>
    rw [← map_fillFrom_dropWhile hslots hsnear hrnear, assignRecoveredPackets_cons]
    obtain ⟨hp, hslots⟩ := List.pairwise_cons.mp hslots
    obtain ⟨hpnear, hsnear⟩ := List.forall_mem_cons.mp hsnear
    have hsuffix := List.dropWhile_suffix (skipped p) (l := rs)
    have hrs' : Ascending (·.seqNum) (rs.dropWhile (skipped p)) := hrs.sublist hsuffix.sublist
    have hrnear' : ∀ r ∈ rs.dropWhile (skipped p), Near base r.seqNum :=
      fun r hr => hrnear r (hsuffix.subset hr)
    cases hdrop : rs.dropWhile (skipped p) with
    | nil => exact (List.map_id (p :: slots)).symm
    | cons r rs' =>
      rw [hdrop] at hrs' hrnear'
      obtain ⟨hr, hrest⟩ := List.pairwise_cons.mp hrs'
      obtain ⟨hrnear0, hrestnear⟩ := List.forall_mem_cons.mp hrnear'
      simp only
      split
      · next hless =>
        have hp' : fillFrom (r :: rs') p = p := by
          refine fillFrom_of_ne fun r' hr' heq => ?_
          rcases List.mem_cons.mp hr' with rfl | hr'
          · exact ne_of_lessThan hless heq.symm
          · have h1 := (lessThan_iff hrnear0 (hrestnear r' hr')).mp (hr r' hr')
            have h2 := (lessThan_iff hpnear hrnear0).mp hless
            rw [heq] at h1
            omega
        rw [List.map_cons, hp', ih hslots hrs' hsnear hrnear']
      · next hless =>
        have hnum : r.seqNum = p.seqNum := seqNum_of_stops hdrop (Bool.eq_false_iff.mpr hless)
        have hp' : fillFrom (r :: rs') p = { p with pkt := some r.pkt } := by
          simp [fillFrom, hnum]
        have hlater : slots.map (fillFrom (r :: rs')) = slots.map (fillFrom rs') := by
          refine List.map_congr_left fun q hq => ?_
          have hother : ∀ r' ∈ [r], r'.seqNum ≠ q.seqNum := by
            intro r' hr' heq
            obtain rfl := List.mem_singleton.mp hr'
            exact ne_of_lessThan (hp q hq) (hnum.symm.trans heq)
          exact fillFrom_append hother
        rw [List.map_cons, hp', hlater, ih hslots hrest hsnear hrestnear]

end FlexfecSearch
