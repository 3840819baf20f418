import TransportDemo.NackRoundTrip

/-!
# The writer uses as few items as possible

An item reaches 17 consecutive numbers. The writer opens an item only for a
number that the item before it does not reach, so the first numbers of its
items lie 17 apart, and any other encoding needs an item for each of them. Only
an item that runs past 65535 can stand for two: the first and the last.
-/

namespace NackCompact

open HeadBlocks NackPacket NackRoundTrip

/-- An item as the reader expands it. -/
abbrev Item := UInt16 × UInt16

def numbers (it : Item) : List UInt16 := it.1 :: expand (it.1 + 1) it.2

/-- A bit of the item stands for a number behind 65535, so it means one from 0 on. -/
def RunsPast (it : Item) : Prop := ∃ j < 16, it.2.toNat.testBit j = true ∧ 65536 ≤ it.1.toNat + 1 + j

theorem unpackItem_numbers (packet : TESTTPPacket) (i : Nat) : (unpackItem packet i).value =
    numbers (ByteBuffer.get16 packet (RTCP_HEADER_SIZE_BYTES + NACK_ITEM_BYTES * i),
      ByteBuffer.get16 packet (RTCP_HEADER_SIZE_BYTES + NACK_ITEM_BYTES * i + 2)) := rfl

/-- A number of an item is at most 16 behind its first, with or without a wrap. -/
theorem mem_numbers {it : Item} {x : UInt16} (h : x ∈ numbers it) : ∃ j ≤ 16,
    x.toNat = it.1.toNat + j ∨ x.toNat + 65536 = it.1.toNat + j ∧ RunsPast it := by
  rcases List.mem_cons.mp h with rfl | hx
  · exact ⟨0, by omega, .inl rfl⟩
  · obtain ⟨j, hj, hbit, rfl⟩ := mem_expand.mp hx
    have hfirst := it.1.toNat_lt
    have hsum : (it.1 + 1 + UInt16.ofNat j).toNat = (it.1.toNat + 1 + j) % 65536 := by
      simp only [UInt16.toNat_add, UInt16.toNat_one, UInt16.toNat_ofNat']
      omega
    refine ⟨j + 1, by omega, ?_⟩
    rw [hsum]
    by_cases hpast : 65536 ≤ it.1.toNat + 1 + j
    · exact .inr ⟨by omega, j, hj, hbit, hpast⟩
    · exact .inl (by omega)

/-- Numbers 17 apart are in one item only across zero. -/
theorem numbers_apart {it : Item} {a b : UInt16} (ha : a ∈ numbers it) (hb : b ∈ numbers it)
    (h : a.toNat + 17 ≤ b.toNat) : a.toNat < 17 ∧ RunsPast it := by
  have hblt := b.toNat_lt
  have hfirst := it.1.toNat_lt
  obtain ⟨i, hi, ha⟩ := mem_numbers ha
  obtain ⟨j, hj, hb⟩ := mem_numbers hb
  rcases ha with ha | ⟨ha, hpast⟩
  · rcases hb with hb | ⟨hb, hpast⟩ <;> omega
  · exact ⟨by omega, hpast⟩

/-! ### The writer's items -/

/-- The numbers the writer opens an item for. -/
def firsts (v : List UInt16) : List UInt16 := (items v).map Prod.fst

theorem apart_of_not_near {a b : UInt16} (hlt : a < b) (h : near a b = false) :
    a.toNat + 17 ≤ b.toNat := by
  have hb := b.toNat_lt
  have hlt : a.toNat < b.toNat := UInt16.lt_iff_toNat_lt.mp hlt
  have hfar := mt near_iff.mpr (Bool.eq_false_iff.mp h)
  simp only [UInt16.toNat_sub, UInt16.toNat_one] at hfar
  omega

theorem firsts_subset (v : List UInt16) : firsts v ⊆ v := by
  intro x hx
  obtain ⟨b, hb, rfl⟩ := List.mem_map.mp hx
  have hmem : b.1 ∈ members (items v) :=
    List.mem_flatMap.mpr ⟨b, hb, List.mem_cons_self⟩
  rwa [members_blocks] at hmem

theorem firsts_apart {v : List UInt16} (h : v.Pairwise (· < ·)) :
    (firsts v).Pairwise fun a b => a.toNat + 17 ≤ b.toNat := by
  induction hn : v.length using Nat.strong_induction_on generalizing v with
  | _ n ih =>
    cases v with
    | nil => simp [firsts]
    | cons a l =>
      obtain ⟨hfirst, hrest⟩ := List.pairwise_cons.mp h
      have hsub : (l.dropWhile (near a)).Sublist l := List.dropWhile_sublist _
      have hshort : (l.dropWhile (near a)).length < n := by
        have hle := hsub.length_le
        simp only [List.length_cons] at hn
        omega
      rw [firsts, items, blocks_cons, List.map_cons, List.pairwise_cons]
      refine ⟨fun b hb => ?_, ih _ hshort (hrest.sublist hsub) rfl⟩
      have hb : b ∈ l.dropWhile (near a) := firsts_subset _ hb
      change a.toNat + 17 ≤ b.toNat
      cases hdrop : l.dropWhile (near a) with
      | nil =>
        rw [hdrop] at hb
        cases hb
      | cons next more =>
        -- the next item starts with the first number that this one does not reach
        have hnext : near a next = false := by
          have hhead := List.head?_dropWhile_not (near a) l
          simpa [hdrop] using hhead
        have hnextl : next ∈ l := hsub.subset (hdrop ▸ List.mem_cons_self)
        have hgap := apart_of_not_near (hfirst next hnextl) hnext
        rw [hdrop] at hb
        rcases List.mem_cons.mp hb with rfl | hb
        · exact hgap
        · have hasc := hrest.sublist hsub
          rw [hdrop] at hasc
          have hlt := UInt16.lt_iff_toNat_lt.mp ((List.pairwise_cons.mp hasc).1 b hb)
          omega

/-! ### Other encodings -/

/-- Numbers of which no two are in one item are no more than the items. -/
theorem length_le_items {l : List UInt16} {other : List Item} (hnodup : l.Nodup)
    (hcover : ∀ x ∈ l, ∃ it ∈ other, x ∈ numbers it)
    (halone : ∀ it ∈ other, ∀ x ∈ l, ∀ y ∈ l, x ∈ numbers it → y ∈ numbers it → x = y) :
    l.length ≤ other.length := by
  have hindex : ∀ x ∈ l, ∃ i, ∃ h : i < other.length, x ∈ numbers other[i] := by
    intro x hx
    obtain ⟨it, hit, hmem⟩ := hcover x hx
    obtain ⟨i, hi, rfl⟩ := List.mem_iff_getElem.mp hit
    exact ⟨i, hi, hmem⟩
  choose index hlt hmem using hindex
  have hdistinct : (l.attach.map fun x => index x.1 x.2).Nodup := by
    refine (List.nodup_attach.mpr hnodup).map_on fun x _ y _ hxy => Subtype.ext ?_
    have hin := hlt x.1 x.2
    have hy : y.1 ∈ numbers other[index x.1 x.2] := by
      have hy := hmem y.1 y.2
      simp only [← hxy] at hy
      exact hy
    exact halone _ (List.getElem_mem _) x.1 x.2 y.1 y.2 (hmem x.1 x.2) hy
  have hsub : (l.attach.map fun x => index x.1 x.2) ⊆ List.range other.length := by
    intro i hi
    obtain ⟨x, -, rfl⟩ := List.mem_map.mp hi
    exact List.mem_range.mpr (hlt x.1 x.2)
  have hle := (hdistinct.subperm hsub).length_le
  rwa [List.length_map, List.length_attach, List.length_range] at hle

section Other

variable {v : List UInt16} {other : List Item}

theorem firsts_nodup (h : v.Pairwise (· < ·)) : (firsts v).Nodup :=
  (firsts_apart h).imp fun hgap heq => by
    rw [heq] at hgap
    omega

theorem firsts_covered (hother : ∀ x, x ∈ other.flatMap numbers ↔ x ∈ v) :
    ∀ x ∈ firsts v, ∃ it ∈ other, x ∈ numbers it := fun x hx =>
  List.mem_flatMap.mp ((hother x).mpr (firsts_subset v hx))

/-- Two numbers of one item that the writer gives items of their own: the item runs past 65535, and
one of them is among the first 17 numbers. -/
theorem firsts_alone (h : v.Pairwise (· < ·)) {it : Item} {x y : UInt16} (hx : x ∈ firsts v)
    (hy : y ∈ firsts v) (hxit : x ∈ numbers it) (hyit : y ∈ numbers it) (hne : x ≠ y) :
    RunsPast it ∧ (x.toNat < 17 ∨ y.toNat < 17) := by
  have hsymm : Std.Symm fun x y : UInt16 => x.toNat + 17 ≤ y.toNat ∨ y.toNat + 17 ≤ x.toNat :=
    ⟨fun _ _ hxy => hxy.symm⟩
  have hboth : (firsts v).Pairwise fun x y => x.toNat + 17 ≤ y.toNat ∨ y.toNat + 17 ≤ x.toNat :=
    (firsts_apart h).imp fun hgap => .inl hgap
  rcases hboth.forall hx hy hne with hgap | hgap
  · obtain ⟨hlow, hpast⟩ := numbers_apart hxit hyit hgap
    exact ⟨hpast, .inl hlow⟩
  · obtain ⟨hlow, hpast⟩ := numbers_apart hyit hxit hgap
    exact ⟨hpast, .inr hlow⟩

/-- Without an item across zero there is an item for each of the writer's. -/
theorem firsts_le (h : v.Pairwise (· < ·)) (hother : ∀ x, x ∈ other.flatMap numbers ↔ x ∈ v)
    (hpast : ∀ it ∈ other, ¬ RunsPast it) : (firsts v).length ≤ other.length := by
  refine length_le_items (firsts_nodup h) (firsts_covered hother) ?_
  intro it hit x hx y hy hxit hyit
  by_contra hne
  exact hpast it hit (firsts_alone h hx hy hxit hyit hne).1

/-- Behind the first the writer's items start at 17 or later, so none of them shares an item across
zero. -/
theorem firsts_le_succ (h : v.Pairwise (· < ·))
    (hother : ∀ x, x ∈ other.flatMap numbers ↔ x ∈ v) :
    (firsts v).length ≤ other.length + 1 := by
  have hcover := firsts_covered hother
  have halone {it : Item} {x y : UInt16} := @firsts_alone v h it x y
  have hapart := firsts_apart h
  have hnodup := firsts_nodup h
  cases hv : firsts v with
  | nil => exact Nat.zero_le _
  | cons first rest =>
    rw [hv] at hcover halone hapart hnodup
    have hlate : ∀ x ∈ rest, 17 ≤ x.toNat := fun x hx => by
      have hgap := (List.pairwise_cons.mp hapart).1 x hx
      omega
    refine Nat.succ_le_succ (length_le_items (List.nodup_cons.mp hnodup).2 ?_ ?_)
    · exact fun x hx => hcover x (List.mem_cons_of_mem first hx)
    · intro it hit x hx y hy hxit hyit
      by_contra hne
      have hlow := (halone (List.mem_cons_of_mem first hx) (List.mem_cons_of_mem first hy) hxit hyit
        hne).2
      have hx17 := hlate x hx
      have hy17 := hlate y hy
      omega

end Other

/-- For an ascending list the packet holds at most one item more than any other encoding, and no
more where no item of the other runs past 65535. -/
theorem packing_compact (fresh : TESTTPPacket) (v : List UInt16) (hv : v.Pairwise (· < ·))
    (other : List Item) (hother : ∀ x, x ∈ other.flatMap numbers ↔ x ∈ v) :
    ∃ packet, packingNack fresh v = some packet ∧
      nackItems (getLength packet) ≤ other.length + 1 ∧
      ((∀ it ∈ other, ¬ RunsPast it) → nackItems (getLength packet) ≤ other.length) := by
  obtain ⟨packet, hpack, -, hlen, hfield, -⟩ := packingNack_spec fresh v
  have hcount : nackItems (getLength packet) ≤ (firsts v).length := by
    rw [nackItems, hfield, hlen, Nat.add_sub_cancel_left, Nat.mul_div_cancel_left _ (by decide),
      firsts, List.length_map]
    exact min_le_left _ _
  refine ⟨packet, hpack, hcount.trans (firsts_le_succ hv hother), fun hpast => ?_⟩
  exact hcount.trans (firsts_le hv hother hpast)

/-- Numbers on both sides of zero: one item would do, the writer makes two. -/
theorem packing_compact_across_zero : ∃ packet,
    packingNack ⟨fun _ => 0, 0⟩ [0, 65535] = some packet ∧
      nackItems (getLength packet) ≤ [((65535, 1) : Item)].length + 1 ∧
      ((∀ it ∈ [((65535, 1) : Item)], ¬ RunsPast it) →
        nackItems (getLength packet) ≤ [((65535, 1) : Item)].length) := by
  have hnumbers : ∀ x, x ∈ [((65535, 1) : Item)].flatMap numbers ↔ x ∈ [(0 : UInt16), 65535] := by
    intro x
    have hexpand : expand 0 1 = [0] := by
      rw [expand_eq 1 _ _ (by decide)]
      rfl
    simp [numbers, hexpand, or_comm]
  exact packing_compact _ _ (by decide) _ hnumbers

end NackCompact
