import TransportDemo.FecEncoder

/-!
# A visit to a group

A visit is a stretch of datagrams of one group, met by a decoder that holds
nothing of it. Until `k` different packets are there the decoder gathers: it
counts and stores the packets and hands on the source packets among them. The
`k`-th different packet makes it recover the rest. From then on it is complete
and stays silent, unless a source packet that it recovered arrives late.
-/

namespace FecVisit

open CountedLoop FecField FecMatrix FecCode FecGenerator FecDecoder FecEncoder

/-! ## Counting the packets that are there -/

/-- The source places with a packet. -/
def present (k : Nat) (marks : Nat → Bool) : List Nat := (List.range k).filter fun i => marks i

/-- How many different packets are there. -/
def held (p : Setup) (marks : Nat → Bool) : Nat :=
  (present p.k marks).length + (redundant p.k p.n marks).length

section Count

variable {k n : Nat} {marks : Nat → Bool} {p : Setup}

theorem mem_present {i : Nat} : i ∈ present k marks ↔ i < k ∧ marks i = true := by
  simp [present]

theorem present_nodup : (present k marks).Nodup := List.nodup_range.filter _

theorem present_missing_perm (k : Nat) (marks : Nat → Bool) :
    (present k marks ++ missing k marks).Perm (List.range k) := by
  rw [present, missing]
  exact List.filter_append_perm _ _

theorem present_missing_length (k : Nat) (marks : Nat → Bool) :
    (present k marks).length + (missing k marks).length = k := by
  rw [← List.length_append, (present_missing_perm k marks).length_eq, List.length_range]

theorem held_eq_card : held p marks = ((Finset.range p.n).filter fun i => marks i = true).card := by
  have hset : (Finset.range p.n).filter (fun i => marks i = true) =
      (present p.k marks ++ redundant p.k p.n marks).toFinset := by
    ext i
    have hle := p.le
    simp only [Finset.mem_filter, Finset.mem_range, List.mem_toFinset, List.mem_append, mem_present,
      mem_redundant hle]
    constructor
    · rintro ⟨hi, hm⟩
      rcases Nat.lt_or_ge i p.k with h | h
      · exact Or.inl ⟨h, hm⟩
      · exact Or.inr ⟨h, hi, hm⟩
    · rintro (⟨hi, hm⟩ | ⟨-, hi, hm⟩)
      · exact ⟨by omega, hm⟩
      · exact ⟨hi, hm⟩
  have hnodup : (present p.k marks ++ redundant p.k p.n marks).Nodup := by
    refine List.Nodup.append present_nodup redundant_nodup ?_
    intro i hi hj
    have := (Iff.mp mem_present hi).1
    have := ((mem_redundant p.le).mp hj).1
    omega
  rw [hset, List.toFinset_card_of_nodup hnodup, List.length_append, held]

theorem held_le (p : Setup) (marks : Nat → Bool) : held p marks ≤ p.n := by
  rw [held_eq_card]
  exact (Finset.card_filter_le _ _).trans (by simp)

/-- Enough redundant packets are there exactly when `k` packets are. -/
theorem missing_le_redundant :
    (missing p.k marks).length ≤ (redundant p.k p.n marks).length ↔ p.k ≤ held p marks := by
  have := present_missing_length p.k marks
  rw [held]
  omega

theorem held_mono {marks' : Nat → Bool} (h : ∀ i < p.n, marks i = true → marks' i = true) :
    held p marks ≤ held p marks' := by
  rw [held_eq_card, held_eq_card]
  apply Finset.card_le_card
  intro i
  simp only [Finset.mem_filter, Finset.mem_range]
  exact fun ⟨hi, hm⟩ => ⟨hi, h i hi hm⟩

/-- Marks of the same number that contain each other agree. -/
theorem held_agree {marks' : Nat → Bool} (h : ∀ i < p.n, marks i = true → marks' i = true)
    (hle : held p marks' ≤ held p marks) {i : Nat} (hi : i < p.n) : marks i = marks' i := by
  rw [held_eq_card, held_eq_card] at hle
  have hsub : (Finset.range p.n).filter (fun i => marks i = true) ⊆
      (Finset.range p.n).filter fun i => marks' i = true := by
    intro i
    simp only [Finset.mem_filter, Finset.mem_range]
    exact fun ⟨hi, hm⟩ => ⟨hi, h i hi hm⟩
  have heq := Finset.eq_of_subset_of_card_le hsub hle
  have hmem : i ∈ (Finset.range p.n).filter (fun i => marks i = true) ↔
      i ∈ (Finset.range p.n).filter fun i => marks' i = true := by rw [heq]
  simp only [Finset.mem_filter, Finset.mem_range, hi, true_and] at hmem
  exact Bool.eq_iff_iff.mpr hmem

theorem held_store {i : Nat} (hi : i < p.n) (hm : marks i = false) :
    held p (store marks i true) = held p marks + 1 := by
  have hset : (Finset.range p.n).filter (fun j => store marks i true j = true) =
      insert i ((Finset.range p.n).filter fun j => marks j = true) := by
    ext j
    by_cases hj : j = i
    · subst j; simp [hi]
    · simp [store_other _ _ hj, hj]
  rw [held_eq_card, held_eq_card, hset, Finset.card_insert_of_notMem (by simp [hm])]

theorem present_store {i : Nat} (hi : i < k) (hm : marks i = false) :
    (present k (store marks i true)).Perm (i :: present k marks) := by
  apply (List.perm_ext_iff_of_nodup present_nodup _).mpr
  · intro j
    rw [List.mem_cons, mem_present, mem_present]
    by_cases hj : j = i
    · subst j; simp [hi]
    · simp [store_other _ _ hj, hj]
  · exact List.nodup_cons.mpr ⟨fun h => by simp [mem_present, hm] at h, present_nodup⟩

theorem present_store_ge {i : Nat} (hi : k ≤ i) : present k (store marks i true) = present k marks := by
  apply List.filter_congr
  intro j hj
  rw [store_other _ _ (by have := List.mem_range.mp hj; omega)]

end Count

/-! ## What a feed has brought so far -/

/-- The packets that a feed contains. -/
def seen (feed : List Datagram) (i : Nat) : Bool := feed.any fun x => index x = i

/-- The payload with which packet `i` came first. -/
def first (feed : List Datagram) (i : Nat) : List Gf :=
  ((feed.find? fun x => index x = i).map payload).getD []

/-- The buffers after the arrivals. -/
def received (input : Nat → Nat → Gf) (feed : List Datagram) (i : Nat) : Nat → Gf :=
  if seen feed i then copyBytes (input i) (buffer (first feed i)) (first feed i).length else input i

section Feed

variable {feed : List Datagram} {x : Datagram}

theorem seen_iff {i : Nat} : seen feed i = true ↔ ∃ x ∈ feed, index x = i := by
  simp [seen]

theorem seen_nil : seen [] = fun _ => false := rfl

theorem seen_concat : seen (feed ++ [x]) = store (seen feed) (index x) true := by
  funext i
  by_cases hi : i = index x
  · subst i; simp [seen]
  · simp [seen, store_other _ _ hi, Ne.symm hi]

theorem seen_concat_old (h : seen feed (index x) = true) : seen (feed ++ [x]) = seen feed := by
  rw [seen_concat]
  funext i
  by_cases hi : i = index x
  · subst i; rw [store_same, h]
  · rw [store_other _ _ hi]

theorem seen_mono {feed' : List Datagram} {i : Nat} (h : seen feed i = true) :
    seen (feed ++ feed') i = true := by
  obtain ⟨x, hx, hi⟩ := Iff.mp seen_iff h
  exact Iff.mpr seen_iff ⟨x, List.mem_append_left _ hx, hi⟩

theorem first_concat_old {i : Nat} (h : seen feed i = true) :
    first (feed ++ [x]) i = first feed i := by
  obtain ⟨y, hy, hi⟩ := Iff.mp seen_iff h
  rw [first, first, List.find?_append]
  rcases hf : feed.find? (fun x => index x = i) with _ | z
  · have := List.find?_eq_none.mp hf y hy
    simp [hi] at this
  · simp

theorem first_concat_new (h : seen feed (index x) = false) :
    first (feed ++ [x]) (index x) = payload x := by
  have hf : feed.find? (fun y => index y = index x) = none := by
    rw [List.find?_eq_none]
    intro y hy
    have : ¬∃ y ∈ feed, index y = index x := fun hex => by
      rw [Iff.mpr seen_iff hex] at h
      cases h
    simpa using fun he => this ⟨y, hy, he⟩
  simp [first, List.find?_append, hf]

/-- Equal packets everywhere: what came first is the packet. -/
theorem first_eq (content : Nat → List Gf) (h : ∀ x ∈ feed, payload x = content (index x)) {i : Nat}
    (hi : seen feed i = true) : first feed i = content i := by
  obtain ⟨y, hy, hyi⟩ := Iff.mp seen_iff hi
  rw [first]
  rcases hf : feed.find? (fun x => index x = i) with _ | z
  · have := List.find?_eq_none.mp hf y hy
    simp [hyi] at this
  · have hz : index z = i := by simpa using List.find?_some hf
    simp [h z (List.mem_of_find?_eq_some hf), hz]

theorem received_concat_old (input : Nat → Nat → Gf) (h : seen feed (index x) = true) :
    received input (feed ++ [x]) = received input feed := by
  funext i
  rw [received, received, seen_concat_old h]
  by_cases hi : seen feed i = true
  · rw [first_concat_old hi]
  · simp [hi]

theorem received_concat_new (input : Nat → Nat → Gf) (h : seen feed (index x) = false) :
    store (received input feed) (index x)
      (copyBytes (received input feed (index x)) (buffer (payload x)) (payload x).length) =
    received input (feed ++ [x]) := by
  funext i
  by_cases hi : i = index x
  · subst i
    simp [received, seen_concat, h, first_concat_new h]
  · rw [store_other _ _ hi, received, received, seen_concat, store_other _ _ hi]
    by_cases hs : seen feed i = true
    · rw [first_concat_old hs]
    · simp [hs]

end Feed

/-! ## Gathering -/

/-- The arguments of a callback that say what is delivered. -/
def triple (c : Callback) : UInt64 × Int × List Gf := (c.groupId, c.index, c.data)

/-- What the arrival of a packet delivers at once. -/
def announced (p : Setup) (id : UInt32) (x : Datagram) : List (UInt64 × Int × List Gf) :=
  if index x < p.k then [(id.toUInt64, (index x : Int), payload x)] else []

/-- What the recovery delivers. -/
def restored (p : Setup) (id : UInt32) (marks : Nat → Bool) (x : Nat → Nat → Gf) :
    List (UInt64 × Int × List Gf) :=
  (missing p.k marks).map fun i : Nat => (id.toUInt64, (i : Int), bytes (x i) p.size)

theorem handOn_triple (p : Setup) (g : FECGenerator) (x : Datagram) :
    (handOn p g x).map triple = announced p g.lastGroupId x := by
  rw [handOn, announced]
  split <;> rfl

/-- Marks, buffers and counters agree with the feed. -/
structure Counted (p : Setup) (id : UInt32) (input : Nat → Nat → Gf) (feed : List Datagram)
    (g : FECGenerator) : Prop where
  runs : Runs p g
  group : g.lastGroupId = id
  marks : g.usedMarks = seen feed
  input : g.inputData = received input feed
  count : g.packetCount = held p (seen feed)
  raw : g.rawPacketCount = (present p.k (seen feed)).length

/-- After the recovery: all `k` sources have been delivered. -/
structure Complete (p : Setup) (id : UInt32) (feed : List Datagram) (g : FECGenerator) : Prop where
  runs : Runs p g
  group : g.lastGroupId = id
  marks : g.usedMarks = seen feed
  raw : g.rawPacketCount = p.k
  count_ge : (p.k : Int) ≤ g.packetCount
  count_le : g.packetCount ≤ held p (seen feed) + p.k

section Step

variable {p : Setup} {id : UInt32} {input : Nat → Nat → Gf} {feed : List Datagram}
  {g : FECGenerator} {x : Datagram}

theorem Counted.enter (h : Counted p id input feed g) (hid : x.header.fecGroupId = id) :
    Counted p id input feed (enterGroup g x.header) := by
  obtain ⟨size, he⟩ := enterGroup_same (h.group.trans hid.symm)
  rw [he]
  exact ⟨⟨h.runs.code, h.runs.fecK, h.runs.fecN, h.runs.size⟩, h.group, h.marks, h.input, h.count, h.raw⟩

theorem Complete.enter (h : Complete p id feed g) (hid : x.header.fecGroupId = id) :
    Complete p id feed (enterGroup g x.header) := by
  obtain ⟨size, he⟩ := enterGroup_same (h.group.trans hid.symm)
  rw [he]
  exact ⟨⟨h.runs.code, h.runs.fecK, h.runs.fecN, h.runs.size⟩, h.group, h.marks, h.raw, h.count_ge,
    h.count_le⟩

theorem int16_succ_held (marks : Nat → Bool) {a : Nat} (h : a ≤ held p marks) :
    int16 ((a : Int) + 1) = (a + 1 : Nat) := by
  have hheld := held_le p marks
  have hb : p.n ≤ 128 := p.bound
  rw [int16_of_small (by omega) (by omega)]
  rfl

theorem Counted.accept (h : Counted p id input feed g) (hx : Fits p x)
    (hs : seen feed (index x) = false) : Counted p id input (feed ++ [x]) (accept p g x) := by
  refine ⟨accept_runs h.runs, h.group, ?_, ?_, ?_, ?_⟩
  · rw [seen_concat, ← h.marks]
    rfl
  · rw [← received_concat_new input hs, ← h.input]
    rfl
  · rw [seen_concat, held_store hx.index hs, ← int16_succ_held (seen feed) le_rfl, ← h.count]
    rfl
  · rw [seen_concat]
    by_cases hk : index x < p.k
    · rw [(present_store hk hs).length_eq, List.length_cons,
        ← int16_succ_held (seen feed) (Nat.le_add_right _ _), ← h.raw]
      exact if_pos hk
    · rw [present_store_ge (by omega), ← h.raw]
      exact if_neg hk

theorem Counted.old (h : Counted p id input feed g) (hs : seen feed (index x) = true) :
    Counted p id input (feed ++ [x]) g :=
  ⟨h.runs, h.group, by rw [h.marks, seen_concat_old hs], by rw [h.input, received_concat_old _ hs],
    by rw [h.count, seen_concat_old hs], by rw [h.raw, seen_concat_old hs]⟩

theorem Counted.not_ready (h : Counted p id input feed g) (hfew : held p (seen feed) < p.k) :
    ¬Ready p g := by
  intro hr
  have := hr.count
  rw [h.count] at this
  omega

/-- A packet that is there already changes nothing. -/
theorem Counted.repeat_step (h : Counted p id input feed g) (hx : Fits p x)
    (hid : x.header.fecGroupId = id) (hs : seen feed (index x) = true)
    (hfew : held p (seen feed) < p.k) :
    ∃ g', decode g x.header x.data = some (g', []) ∧ Counted p id input (feed ++ [x]) g' := by
  have h₁ := h.enter hid
  refine ⟨_, decode_eq (arrive_seen hx (by rw [h₁.marks]; exact hs))
    (recover_idle h₁.runs (h₁.not_ready hfew)), h₁.old hs⟩

/-- A new packet that is not yet the `k`-th. -/
theorem Counted.fresh_step (h : Counted p id input feed g) (hx : Fits p x)
    (hid : x.header.fecGroupId = id) (hs : seen feed (index x) = false)
    (hfew : held p (seen (feed ++ [x])) < p.k) :
    ∃ g' out, decode g x.header x.data = some (g', out) ∧ out.map triple = announced p id x ∧
      Counted p id input (feed ++ [x]) g' := by
  have h₁ := h.enter hid
  have h₂ := h₁.accept hx hs
  refine ⟨_, _, decode_eq (arrive_fresh h₁.runs hx (by rw [h₁.marks]; exact hs))
    (recover_idle h₂.runs (h₂.not_ready hfew)), ?_, h₂⟩
  rw [List.append_nil, handOn_triple, h₁.group]

/-- With `k` packets the recovery delivers what explains the buffers. -/
theorem Counted.recover (h : Counted p id input feed g) (hk : held p (seen feed) = p.k) :
    ∃ g' out X, recover g = some (g', out) ∧ out.map triple = restored p id (seen feed) X ∧
      Complete p id feed g' ∧
      ∀ b, Solves g.fec (received input feed) (slotOf p.k p.n (seen feed))
        (slotOf p.k p.n (seen feed)) b fun l => X l b := by
  have hlen := present_missing_length p.k (seen feed)
  have hle := Iff.mpr missing_le_redundant hk.ge
  have hb : p.n ≤ 128 := p.bound
  have hkn := p.le
  have hpk : (present p.k (seen feed)).length ≤ p.k := by omega
  by_cases hmiss : missing p.k (seen feed) = []
  · -- every source packet arrived by itself
    have hraw : g.rawPacketCount = p.k := by
      rw [h.raw]
      simp only [hmiss, List.length_nil, Nat.add_zero] at hlen
      rw [hlen]
    refine ⟨g, [], received input feed, recover_idle h.runs fun hr => hr.raw hraw, ?_, ?_, ?_⟩
    · rw [restored, hmiss, List.map_nil, List.map_nil]
    · exact ⟨h.runs, h.group, h.marks, hraw, by rw [h.count, hk], by rw [h.count]; omega⟩
    · intro b col hcol
      have hcol' : col < p.k := h.runs.isCode.k_eq ▸ hcol
      have hm : seen feed col = true := by
        by_contra hm
        have hmem : col ∈ missing p.k (seen feed) := mem_missing.mpr ⟨hcol', by simpa using hm⟩
        rw [hmiss] at hmem
        cases hmem
      rw [slotOf_marked hm]
      exact (h.runs.isCode.codeword_source (received input feed) hcol' b).symm
  · have hpos := List.length_pos_iff.mpr hmiss
    have hready : Ready p g := by
      refine ⟨by rw [h.count, hk], ?_, by rw [h.marks]; exact hle⟩
      rw [h.raw]
      omega
    obtain ⟨g', X, hrec, hres⟩ := recover_ready h.runs hready
    have hst := hres.state
    rw [h.marks, h.count, h.raw, hk, bump_eq (by omega) (by omega), bump_eq (by omega) (by omega)] at hst
    have hsolves := hres.solves
    rw [h.input, h.marks] at hsolves
    refine ⟨g', _, X, hrec, ?_, ?_, hsolves⟩
    · rw [h.marks, h.group, restored, List.map_map]
      rfl
    · rw [hst]
      refine ⟨⟨h.runs.code, h.runs.fecK, h.runs.fecN, h.runs.size⟩, h.group, rfl, ?_, ?_, ?_⟩
      · dsimp only
        omega
      · dsimp only
        omega
      · dsimp only
        omega

/-- The packet that completes the group. -/
theorem Counted.last_step (h : Counted p id input feed g) (hx : Fits p x)
    (hid : x.header.fecGroupId = id) (hs : seen feed (index x) = false)
    (hk : held p (seen (feed ++ [x])) = p.k) :
    ∃ g' out X, decode g x.header x.data = some (g', out) ∧
      out.map triple = announced p id x ++ restored p id (seen (feed ++ [x])) X ∧
      Complete p id (feed ++ [x]) g' ∧
      ∀ b, Solves g.fec (received input (feed ++ [x])) (slotOf p.k p.n (seen (feed ++ [x])))
        (slotOf p.k p.n (seen (feed ++ [x]))) b fun l => X l b := by
  have h₁ := h.enter hid
  have h₂ := h₁.accept hx hs
  obtain ⟨g', out, X, hrec, htriple, hcomplete, hsolves⟩ := h₂.recover hk
  refine ⟨g', _, X, decode_eq (arrive_fresh h₁.runs hx (by rw [h₁.marks]; exact hs)) hrec, ?_,
    hcomplete, ?_⟩
  · rw [List.map_append, handOn_triple, h₁.group, htriple]
  · have hfec : (FecDecoder.accept p (enterGroup g x.header) x).fec = g.fec := by
      obtain ⟨size, he⟩ := enterGroup_same (h.group.trans hid.symm)
      rw [he]
      rfl
    rwa [hfec] at hsolves

/-! ## After the recovery -/

theorem Complete.not_ready (h : Complete p id feed g) : ¬Ready p g := fun hr => hr.raw h.raw

/-- A complete group takes repeats and further redundant packets in silence. -/
theorem Complete.quiet_step (h : Complete p id feed g) (hx : Fits p x)
    (hid : x.header.fecGroupId = id) (hq : seen feed (index x) = true ∨ p.k ≤ index x) :
    ∃ g', decode g x.header x.data = some (g', []) ∧ Complete p id (feed ++ [x]) g' := by
  have h₁ := h.enter hid
  by_cases hs : seen feed (index x) = true
  · refine ⟨_, decode_eq (arrive_seen hx (by rw [h₁.marks]; exact hs))
      (recover_idle h₁.runs h₁.not_ready), ?_⟩
    exact ⟨h₁.runs, h₁.group, by rw [h₁.marks, seen_concat_old hs], h₁.raw, h₁.count_ge,
      by rw [seen_concat_old hs]; exact h₁.count_le⟩
  · have hk : ¬index x < p.k := by have := hq.resolve_left hs; omega
    have hs' : seen feed (index x) = false := by simpa using hs
    have hheld := held_store hx.index hs'
    have hle := held_le p (seen (feed ++ [x]))
    have hb : p.n ≤ 128 := p.bound
    have hkn := p.le
    have hge := h₁.count_ge
    have hcount := h₁.count_le
    rw [← seen_concat] at hheld
    have hint : int16 ((enterGroup g x.header).packetCount + 1) =
        (enterGroup g x.header).packetCount + 1 := int16_of_small (by omega) (by omega)
    have h₂ : Complete p id (feed ++ [x]) (FecDecoder.accept p (enterGroup g x.header) x) := by
      refine ⟨accept_runs h₁.runs, h₁.group, ?_, ?_, ?_, ?_⟩
      · rw [seen_concat, ← h₁.marks]
        rfl
      · rw [← h₁.raw]
        exact if_neg hk
      · simp only [FecDecoder.accept, hint]
        omega
      · simp only [FecDecoder.accept, hint]
        omega
    refine ⟨_, ?_, h₂⟩
    rw [decode_eq (arrive_fresh h₁.runs hx (by rw [h₁.marks]; exact hs'))
      (recover_idle h₂.runs h₂.not_ready), handOn, if_neg hk]
    rfl

end Step

/-! ## Whole visits -/

theorem decodeAll_append (g : FECGenerator) (xs ys : List Datagram) :
    decodeAll g (xs ++ ys) = (decodeAll g xs).bind fun s =>
      (decodeAll s.1 ys).map fun s' => (s'.1, s.2 ++ s'.2) := by
  induction xs generalizing g with
  | nil => simp [decodeAll]
  | cons x xs ih =>
    rw [List.cons_append, decodeAll, decodeAll]
    rcases decode g x.header x.data with _ | ⟨g', out⟩
    · rfl
    · rcases hx : decodeAll g' xs with _ | ⟨g'', out'⟩
      · simp [ih, hx]
      · rcases hy : decodeAll g'' ys with _ | ⟨g₃, out''⟩ <;> simp [ih, hx, hy]

/-- No source packet comes as a new one when `k` packets are there. -/
def Clean (p : Setup) (feed : List Datagram) : Prop :=
  ∀ pre x post, feed = pre ++ x :: post → index x < p.k → seen pre (index x) = false →
    held p (seen pre) < p.k

/-- The source packets of a feed, as they are delivered on arrival. -/
def delivered (p : Setup) (id : UInt32) (feed : List Datagram) : List (UInt64 × Int × List Gf) :=
  (present p.k (seen feed)).map fun i : Nat => (id.toUInt64, (i : Int), first feed i)

/-- Where a clean visit has led: still gathering, or complete since the prefix `pre`. -/
inductive Visited (p : Setup) (fec : FecParms) (id : UInt32) (input : Nat → Nat → Gf)
    (feed : List Datagram) (g : FECGenerator) (log : List (UInt64 × Int × List Gf)) : Prop
  | gathering (few : held p (seen feed) < p.k) (counted : Counted p id input feed g)
      (log_eq : log.Perm (delivered p id feed))
  | complete (enough : p.k ≤ held p (seen feed)) (done : Complete p id feed g)
      (pre : List Datagram) (x : Nat → Nat → Gf) (isPrefix : pre <+: feed)
      (exact : held p (seen pre) = p.k)
      (same : ∀ i < p.k, seen pre i = seen feed i)
      (solves : ∀ b, Solves fec (received input pre) (slotOf p.k p.n (seen pre))
        (slotOf p.k p.n (seen pre)) b fun l => x l b)
      (log_eq : log.Perm (delivered p id pre ++ restored p id (seen pre) x))

section Run

variable {p : Setup} {id : UInt32} {input : Nat → Nat → Gf} {feed : List Datagram}
  {g : FECGenerator} {x : Datagram}

theorem Runs.fec_eq {g g' : FECGenerator} (h : Runs p g) (h' : Runs p g') : g.fec = g'.fec :=
  Option.some_inj.mp (h.code.symm.trans h'.code)

theorem delivered_concat_old (hs : seen feed (index x) = true) :
    delivered p id (feed ++ [x]) = delivered p id feed := by
  rw [delivered, delivered, seen_concat_old hs]
  apply List.map_congr_left
  intro i hi
  rw [first_concat_old (Iff.mp mem_present hi).2]

theorem delivered_concat_new (hs : seen feed (index x) = false) :
    (delivered p id feed ++ announced p id x).Perm (delivered p id (feed ++ [x])) := by
  have hold : (present p.k (seen feed)).map (fun i : Nat => (id.toUInt64, (i : Int), first feed i)) =
      (present p.k (seen feed)).map fun i : Nat =>
        (id.toUInt64, (i : Int), first (feed ++ [x]) i) := by
    apply List.map_congr_left
    intro i hi
    rw [first_concat_old (Iff.mp mem_present hi).2]
  rw [delivered, delivered, announced, hold, seen_concat]
  by_cases hk : index x < p.k
  · rw [if_pos hk]
    refine List.Perm.trans ?_ ((present_store hk hs).map _).symm
    rw [List.map_cons, first_concat_new hs]
    exact List.perm_append_singleton _ _
  · rw [if_neg hk, List.append_nil, present_store_ge (by omega)]

/-- One more datagram of a clean visit. -/
theorem Visited.step {fec : FecParms} {log : List (UInt64 × Int × List Gf)}
    (hfec : fecNew p.k p.n = some fec) (h : Visited p fec id input feed g log) (hx : Fits p x)
    (hid : x.header.fecGroupId = id)
    (hclean : index x < p.k → seen feed (index x) = false → held p (seen feed) < p.k) :
    ∃ g' out, decode g x.header x.data = some (g', out) ∧
      Visited p fec id input (feed ++ [x]) g' (log ++ out.map triple) := by
  cases h with
  | gathering few counted log_eq =>
    cases hs : seen feed (index x) with
    | true =>
      obtain ⟨g', hdec, hc⟩ := counted.repeat_step hx hid hs few
      refine ⟨g', [], hdec, .gathering (by rwa [seen_concat_old hs]) hc ?_⟩
      rwa [List.map_nil, List.append_nil, delivered_concat_old hs]
    | false =>
      have hheld : held p (seen (feed ++ [x])) = held p (seen feed) + 1 := by
        rw [seen_concat, held_store hx.index hs]
      have hlog := (log_eq.append_right (announced p id x)).trans (delivered_concat_new hs)
      by_cases hlt : held p (seen (feed ++ [x])) < p.k
      · obtain ⟨g', out, hdec, htriple, hc⟩ := counted.fresh_step hx hid hs hlt
        exact ⟨g', out, hdec, .gathering hlt hc (htriple ▸ hlog)⟩
      · have heq : held p (seen (feed ++ [x])) = p.k := by omega
        obtain ⟨g', out, X, hdec, htriple, hc, hsolves⟩ := counted.last_step hx hid hs heq
        have hg : g.fec = fec := Option.some_inj.mp (counted.runs.code.symm.trans hfec)
        refine ⟨g', out, hdec, .complete heq.ge hc (feed ++ [x]) X (List.prefix_refl _) heq
          (fun _ _ => rfl) (hg ▸ hsolves) ?_⟩
        rw [htriple, ← List.append_assoc]
        exact hlog.append_right _
  | complete enough done pre X isPrefix exact same solves log_eq =>
    have hq : seen feed (index x) = true ∨ p.k ≤ index x := by
      by_contra hno
      push Not at hno
      have hs : seen feed (index x) = false := by simpa using hno.1
      have := hclean hno.2 hs
      omega
    obtain ⟨g', hdec, hc⟩ := done.quiet_step hx hid hq
    have hmono : held p (seen feed) ≤ held p (seen (feed ++ [x])) :=
      held_mono fun i _ hi => seen_mono hi
    have hsame : ∀ i < p.k, seen feed i = seen (feed ++ [x]) i := by
      intro i hi
      rcases hq with hs | hk
      · rw [seen_concat_old hs]
      · rw [seen_concat, store_other _ _ (by omega)]
    refine ⟨g', [], hdec, .complete (by omega) hc pre X (isPrefix.trans (List.prefix_append _ _)) exact
      (fun i hi => (same i hi).trans (hsame i hi)) solves ?_⟩
    rwa [List.map_nil, List.append_nil]

theorem Clean.of_concat (h : Clean p (feed ++ [x])) : Clean p feed := by
  intro pre y post heq
  exact h pre y (post ++ [x]) (by rw [heq]; simp)

/-- A clean visit from a state that holds nothing. -/
theorem visit_run {g₀ : FECGenerator} (h₀ : Counted p id input [] g₀)
    (hfeed : ∀ x ∈ feed, Fits p x ∧ x.header.fecGroupId = id) (hclean : Clean p feed) :
    ∃ g log, decodeAll g₀ feed = some (g, log) ∧
      Visited p g₀.fec id input feed g (log.map triple) := by
  induction feed using List.reverseRecOn with
  | nil =>
    refine ⟨g₀, [], rfl, .gathering ?_ h₀ ?_⟩
    · rw [held_eq_card, seen_nil]
      simpa using p.pos
    · simp [delivered, present, seen_nil]
  | append_singleton feed x ih =>
    obtain ⟨g, log, hrun, hv⟩ := ih (fun y hy => hfeed y (by simp [hy])) hclean.of_concat
    obtain ⟨hx, hid⟩ := hfeed x (by simp)
    obtain ⟨g', out, hdec, hv'⟩ := hv.step h₀.runs.code hx hid
      fun hk hs => hclean feed x [] rfl hk hs
    refine ⟨g', log ++ out, ?_, by rwa [List.map_append]⟩
    rw [decodeAll_append, hrun, Option.bind_some, decodeAll, hdec]
    simp [decodeAll]

/-- Entering a vacant group is the start of a visit. -/
theorem enterGroup_counted (hg : Runs p g) (hv : Vacant g x.header.fecGroupId) :
    Counted p x.header.fecGroupId g.inputData [] (enterGroup g x.header) := by
  obtain ⟨hc, hr, hm⟩ := enterGroup_vacant hv
  refine ⟨enterGroup_runs hg, enterGroup_group, hm, enterGroup_inputData, ?_, ?_⟩
  · rw [hc, held_eq_card, seen_nil]
    simp
  · rw [hr]
    simp [present, seen_nil]

theorem decodeAll_enter (rest : List Datagram) :
    decodeAll (enterGroup g x.header) (x :: rest) = decodeAll g (x :: rest) := by
  rw [decodeAll, decodeAll, decode, decode, enterGroup_idem]

/-- A clean visit from any state in which its group is vacant. -/
theorem visit_vacant (hg : Runs p g) (hv : Vacant g id) (hne : feed ≠ [])
    (hfeed : ∀ x ∈ feed, Fits p x ∧ x.header.fecGroupId = id) (hclean : Clean p feed) :
    ∃ g' log, decodeAll g feed = some (g', log) ∧
      Visited p g.fec id g.inputData feed g' (log.map triple) := by
  obtain ⟨x, rest, rfl⟩ := List.exists_cons_of_ne_nil hne
  have hid := (hfeed x (by simp)).2
  subst hid
  have h₀ := enterGroup_counted (x := x) hg hv
  obtain ⟨g', log, hrun, hvis⟩ := visit_run h₀ hfeed hclean
  rw [decodeAll_enter] at hrun
  rw [Runs.fec_eq h₀.runs hg] at hvis
  exact ⟨g', log, hrun, hvis⟩

end Run

end FecVisit
