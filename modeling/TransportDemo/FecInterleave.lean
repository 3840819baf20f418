import TransportDemo.FecIntegrity

/-!
# Groups that interrupt each other

The decoder holds one group at a time, so an interruption ends a visit for good.
What a visit delivers depends on its datagrams alone when no payload is shorter
than the redundant packets: then two feeds with the same visits deliver the same.
-/

namespace FecInterleave

open CountedLoop FecField FecCode FecGenerator FecDecoder FecEncoder FecVisit FecRecovery
  FecDelivery

/-- Two decoders that a visit cannot tell apart. -/
structure Agree (p : Setup) (g h : FECGenerator) : Prop where
  left : Runs p g
  right : Runs p h
  group : g.lastGroupId = h.lastGroupId
  marks : g.usedMarks = h.usedMarks
  count : g.packetCount = h.packetCount
  raw : g.rawPacketCount = h.rawPacketCount
  input : ∀ i, g.usedMarks i = true → ∀ b < p.size, g.inputData i b = h.inputData i b

section Step

variable {p : Setup} {g h : FECGenerator} {x : Datagram}

theorem agree_vacant (hg : Runs p g) (hh : Runs p h) (hvg : Vacant g x.header.fecGroupId)
    (hvh : Vacant h x.header.fecGroupId) :
    Agree p (enterGroup g x.header) (enterGroup h x.header) := by
  obtain ⟨hcg, hrg, hmg⟩ := enterGroup_vacant hvg
  obtain ⟨hch, hrh, hmh⟩ := enterGroup_vacant hvh
  refine ⟨enterGroup_runs hg, enterGroup_runs hh, by simp, by rw [hmg, hmh], by rw [hcg, hch],
    by rw [hrg, hrh], ?_⟩
  intro i hi
  rw [hmg] at hi
  cases hi

theorem Agree.enter (ha : Agree p g h) (hid : g.lastGroupId = x.header.fecGroupId) :
    Agree p (enterGroup g x.header) (enterGroup h x.header) := by
  obtain ⟨size, hg⟩ := enterGroup_same hid
  obtain ⟨size', hh⟩ := enterGroup_same (ha.group.symm.trans hid)
  rw [hg, hh]
  exact ⟨⟨ha.left.code, ha.left.fecK, ha.left.fecN, ha.left.size⟩,
    ⟨ha.right.code, ha.right.fecK, ha.right.fecN, ha.right.size⟩, ha.group, ha.marks, ha.count,
    ha.raw, ha.input⟩

theorem Agree.accept (ha : Agree p g h) (hx : p.size ≤ (payload x).length) :
    Agree p (accept p g x) (accept p h x) := by
  refine ⟨accept_runs ha.left, accept_runs ha.right, ha.group, ?_, ?_, ?_, ?_⟩
  · simp only [accept_usedMarks, ha.marks]
  · simp only [accept_packetCount, ha.count]
  · simp only [accept_rawPacketCount, ha.raw]
  · intro i hi b hb
    rw [accept_usedMarks] at hi
    rw [accept_inputData, accept_inputData]
    by_cases he : i = index x
    · subst i
      rw [store_same, store_same, copyBytes, copyBytes, if_pos (by omega), if_pos (by omega)]
    · rw [store_other _ _ he] at hi ⊢
      rw [store_other _ _ he]
      exact ha.input i hi b hb

/-- Equal received bytes have equal recoveries. -/
theorem Agree.recover (ha : Agree p g h) :
    ∃ g' h' out out', recover g = some (g', out) ∧ recover h = some (h', out') ∧ Agree p g' h' ∧
      out.map triple = out'.map triple := by
  by_cases hr : Ready p g
  · have hr' : Ready p h := ⟨ha.count ▸ hr.count, ha.raw ▸ hr.raw, ha.marks ▸ hr.enough⟩
    obtain ⟨g', x, hrec, hres⟩ := recover_ready ha.left hr
    obtain ⟨h', y, hrec', hres'⟩ := recover_ready ha.right hr'
    have hplaced := slotOf_placed p.le hr.enough
    have hslot : ∀ i < p.k, g.usedMarks (slotOf p.k p.n g.usedMarks i) = true := by
      intro i hi
      cases hm : g.usedMarks i with
      | true => rw [slotOf_marked hm, hm]
      | false => exact ((mem_redundant p.le).mp (slotOf_mem hr.enough hi hm)).2.2
    have hxy : ∀ b < p.size, ∀ l < p.k, x l b = y l b := by
      intro b hb
      refine (hres.solves b).unique ha.left.isCode hplaced ?_
      intro col hcol
      have hsolve := hres'.solves b col (by rwa [← Runs.fec_eq ha.left ha.right])
      rw [← Runs.fec_eq ha.left ha.right, ← ha.marks] at hsolve
      rw [← hsolve]
      exact ha.input _ (hslot col (ha.left.isCode.k_eq ▸ hcol)) b hb
    have hbytes : ∀ i ∈ missing p.k g.usedMarks, bytes (x i) p.size = bytes (y i) p.size := by
      intro i hi
      exact bytes_congr fun b hb => hxy b hb i (mem_missing.mp hi).1
    refine ⟨g', h', _, _, hrec, hrec', ?_, ?_⟩
    · have hinput : ∀ i, g.usedMarks i = true → ∀ b < p.size, g'.inputData i b = h'.inputData i b := by
        intro i hi b hb
        by_cases hused : ∃ m ∈ missing p.k g.usedMarks, slotOf p.k p.n g.usedMarks m = i
        · obtain ⟨m, hm, rfl⟩ := hused
          have h₁ := hres'.used m (ha.marks ▸ hm) b hb
          rw [← ha.marks] at h₁
          rw [hres.used m hm b hb, h₁]
          exact hxy b hb m (mem_missing.mp hm).1
        · push Not at hused
          rw [hres.frame i b fun _ => hused, hres'.frame i b fun _ => by rw [← ha.marks]; exact hused]
          exact ha.input i hi b hb
      rw [hres.state, hres'.state]
      refine ⟨⟨ha.left.code, ha.left.fecK, ha.left.fecN, ha.left.size⟩,
        ⟨ha.right.code, ha.right.fecK, ha.right.fecN, ha.right.size⟩, ha.group, ha.marks, ?_, ?_, hinput⟩
      · simp only [ha.marks, ha.count]
      · simp only [ha.marks, ha.raw]
    · rw [← ha.marks, List.map_map, List.map_map]
      apply List.map_congr_left
      intro i hi
      simp only [Function.comp, triple, packet, hbytes i hi, ha.group]
  · have hr' : ¬Ready p h := fun hr' =>
      hr ⟨ha.count ▸ hr'.count, ha.raw ▸ hr'.raw, ha.marks ▸ hr'.enough⟩
    exact ⟨g, h, [], [], recover_idle ha.left hr, recover_idle ha.right hr', ha, rfl⟩

/-- One datagram. -/
theorem agree_decode (ha : Agree p (enterGroup g x.header) (enterGroup h x.header))
    (hx : Fits p x) (hlong : p.size ≤ (payload x).length) :
    ∃ g' h' out out', decode g x.header x.data = some (g', out) ∧
      decode h x.header x.data = some (h', out') ∧ Agree p g' h' ∧
      out.map triple = out'.map triple ∧ g'.lastGroupId = x.header.fecGroupId := by
  have harrive : ∃ g₁ h₁ out out',
      arrive (enterGroup g x.header) x.header x.data = some (g₁, out) ∧
      arrive (enterGroup h x.header) x.header x.data = some (h₁, out') ∧ Agree p g₁ h₁ ∧
      out.map triple = out'.map triple := by
    by_cases hs : (enterGroup g x.header).usedMarks (index x) = true
    · exact ⟨_, _, _, _, arrive_seen hx hs, arrive_seen hx (ha.marks ▸ hs), ha, rfl⟩
    · have hs' : (enterGroup g x.header).usedMarks (index x) = false := by simpa using hs
      refine ⟨_, _, _, _, arrive_fresh ha.left hx hs', arrive_fresh ha.right hx (ha.marks ▸ hs'),
        ha.accept hlong, ?_⟩
      rw [handOn_triple, handOn_triple, ha.group]
  obtain ⟨g₁, h₁, out, out', hg, hh, hagree, htriple⟩ := harrive
  obtain ⟨g₂, h₂, out₂, out₂', hg₂, hh₂, hagree₂, htriple₂⟩ := hagree.recover
  refine ⟨g₂, h₂, _, _, decode_eq hg hg₂, decode_eq hh hh₂, hagree₂, ?_, ?_⟩
  · rw [List.map_append, List.map_append, htriple, htriple₂]
  · rw [recover_group hagree.left hg₂, arrive_group hg, enterGroup_group]

/-- The rest of a visit. -/
theorem agree_run {feed : List Datagram} (ha : Agree p g h)
    (hfeed : ∀ x ∈ feed, Fits p x ∧ p.size ≤ (payload x).length ∧
      x.header.fecGroupId = g.lastGroupId) :
    ∃ g' h' log log', decodeAll g feed = some (g', log) ∧ decodeAll h feed = some (h', log') ∧
      log.map triple = log'.map triple := by
  induction feed generalizing g h with
  | nil => exact ⟨g, h, [], [], rfl, rfl, rfl⟩
  | cons x rest ih =>
    obtain ⟨hx, hlong, hid⟩ := hfeed x (by simp)
    obtain ⟨g₁, h₁, out, out', hg, hh, hagree, htriple, hid₁⟩ :=
      agree_decode (ha.enter hid.symm) hx hlong
    obtain ⟨g₂, h₂, log, log', hg₂, hh₂, htriple₂⟩ := ih hagree fun y hy => by
      obtain ⟨hy₁, hy₂, hy₃⟩ := hfeed y (by simp [hy])
      exact ⟨hy₁, hy₂, by rw [hy₃, hid₁, hid]⟩
    refine ⟨g₂, h₂, out ++ log, out' ++ log', by simp [decodeAll, hg, hg₂],
      by simp [decodeAll, hh, hh₂], ?_⟩
    rw [List.map_append, List.map_append, htriple, htriple₂]

/-- A whole visit: it delivers the same from all states in which its group is vacant. -/
theorem visit_agree {v : List Datagram} (hv : IsVisit v) (hg : Runs p g) (hh : Runs p h)
    (hvg : Vacant g (groupOf v)) (hvh : Vacant h (groupOf v))
    (hfeed : ∀ x ∈ v, Fits p x ∧ p.size ≤ (payload x).length) :
    ∃ g' h' log log', decodeAll g v = some (g', log) ∧ decodeAll h v = some (h', log') ∧
      log.map triple = log'.map triple := by
  obtain ⟨x, rest, rfl⟩ := List.exists_cons_of_ne_nil hv.ne_nil
  have hid := hv.group x (by simp)
  rw [← hid] at hvg hvh
  obtain ⟨g', h', log, log', h₁, h₂, htriple⟩ := agree_run (agree_vacant hg hh hvg hvh)
    (show ∀ y ∈ x :: rest, Fits p y ∧ p.size ≤ (payload y).length ∧
      y.header.fecGroupId = (enterGroup g x.header).lastGroupId from fun y hy =>
        ⟨(hfeed y hy).1, (hfeed y hy).2, by rw [hv.group y hy, enterGroup_group, hid]⟩)
  rw [decodeAll_enter] at h₁ h₂
  exact ⟨g', h', log, log', h₁, h₂, htriple⟩

end Step

/-! ## Runs -/

/-- What a visit delivers to a new decoder. -/
def visitLog (d₀ : FECGenerator) (v : List Datagram) : List (UInt64 × Int × List Gf) :=
  match decodeAll d₀ v with
  | some (_, log) => log.map triple
  | none => []

section Run

variable {p : Setup} {inputE outputE inputD outputD : Nat → Nat → Gf}
  {e e' d₀ d : FECGenerator} {payloads : List (List Gf)} {packets log₀ : List Callback}
  {history feed₁ feed₂ : List Datagram}

theorem run_long (hnewE : new inputE outputE p.k p.n p.size = some e)
    (hrun : encodeAll e payloads = some (e', packets))
    (hlong : ∀ data ∈ payloads, p.size ≤ data.length) {x : Datagram}
    (hx : ∃ c ∈ packets, Carries x c) : p.size ≤ (payload x).length := by
  have he := new_fresh hnewE
  have hP := encodeAll_fits (c := 0) he.runs he.count p.pos hrun
  obtain ⟨e'', packets', hrun', -, -, hemitted⟩ := encodeAll_run he.runs he.count payloads hP
  rw [hrun] at hrun'
  cases hrun'
  obtain ⟨c, hc, hcx⟩ := hx
  obtain ⟨G, i, hGi⟩ := hemitted c hc
  rw [hGi.eq] at hcx
  rw [(carries_packet hcx).2.2.1]
  by_cases hi : i < p.k
  · exact hlong _ (List.mem_of_getElem? (hGi.source hi))
  · obtain ⟨-, buf, hdata, -⟩ := hGi.redundant (by omega)
    rw [hdata, bytes_length]

/-- The log of a run is what its visits deliver one by one. -/
theorem run_visitLog {feed : List Datagram} (hfresh : Fresh p d₀) (hd : Runs p d)
    (hfeed : ∀ x ∈ feed, Fits p x ∧ p.size ≤ (payload x).length)
    (hvacant : ∀ x ∈ feed, Vacant d x.header.fecGroupId) :
    ∃ d' log, decodeAll d feed = some (d', log) ∧
      log.map triple = (visits feed).flatMap (visitLog d₀) := by
  have hmem : ∀ v ∈ visits feed, IsVisit v ∧ ∀ x ∈ v, Fits p x := fun v hv =>
    ⟨isVisit_of_mem hv, fun x hx => (hfeed x (mem_of_visit hv hx)).1⟩
  have hlog : ∀ v ∈ visits feed, ∀ g log g', Runs p g → Vacant g (groupOf v) →
      decodeAll g v = some (g', log) → log.map triple = visitLog d₀ v := by
    intro v hv g log g' hg hvg h
    obtain ⟨g₁, h₁, log₁, log₁', hrun₁, hrun₁', htriple⟩ := visit_agree (isVisit_of_mem hv) hg
      hfresh.runs hvg (hfresh.vacant _) fun x hx => hfeed x (mem_of_visit hv hx)
    rw [h] at hrun₁
    cases hrun₁
    rw [visitLog, hrun₁', htriple]
  have hstart : ∀ v ∈ (visits feed).head?, Vacant d (groupOf v) := by
    intro v hv
    have hv' := List.mem_of_mem_head? hv
    obtain ⟨x, hx⟩ := List.exists_mem_of_ne_nil v (isVisit_of_mem hv').ne_nil
    rw [← (isVisit_of_mem hv').group x hx]
    exact hvacant x (mem_of_visit hv' hx)
  obtain ⟨d', logs, hrun, hall⟩ := decodeAll_visits (fun v log => log.map triple = visitLog d₀ v)
    hmem (visits_chain feed) hlog hd hstart
  rw [visits, List.flatten_splitBy] at hrun
  refine ⟨d', logs.flatten, hrun, ?_⟩
  generalize visits feed = vs at hall
  clear hrun
  induction hall with
  | nil => rfl
  | @cons v log vs logs hv _ ih =>
    rw [List.flatten_cons, List.map_append, List.flatMap_cons, hv, ih]

end Run

/-! ## Two small groups -/

/-- Two groups of two source packets and one redundant packet. -/
theorem two_groups : ∃ (e₀ e' : FECGenerator) (A B : Nat → Callback),
    new (fun _ _ => 0) (fun _ _ => 0) 2 3 1 = some e₀ ∧
      encodeAll e₀ [[0], [1], [0], [1]] = some (e', [A 0, A 1, A 2, B 0, B 1, B 2]) ∧
      ∀ i < 3, (Carries (carry (A i)) (A i) ∧ index (carry (A i)) = i ∧
        (carry (A i)).header.fecGroupId = 0) ∧
        Carries (carry (B i)) (B i) ∧ index (carry (B i)) = i ∧
        (carry (B i)).header.fecGroupId = 1 := by
  have hP : ∀ data ∈ ([[0], [1]] : List (List Gf)), data.length ≤ maxFecPacketSize := by
    simp [maxFecPacketSize]
  obtain ⟨e₀, hnew, -⟩ := new_runs twoOfThree (fun _ _ => 0) (fun _ _ => 0)
  have hfresh := new_fresh hnew
  obtain ⟨e₁, hA, hr, hc, hid, -⟩ := encodeAll_group hfresh.runs hfresh.count
    (P := [[0], [1]]) hP rfl
  obtain ⟨e₂, hB, -⟩ := encodeAll_group hr hc (P := [[0], [1]]) hP rfl
  rw [group_packets rfl, hfresh.group] at hA
  rw [group_packets rfl, hid, hfresh.group] at hB
  have hcarry : ∀ (id : UInt32) (e : FECGenerator), ∀ i < 3,
      Carries (carry (packet twoOfThree id i (content twoOfThree e.fec e.inputData [[0], [1]] i)))
        (packet twoOfThree id i (content twoOfThree e.fec e.inputData [[0], [1]] i)) :=
    fun id e i hi => carry_carries (p := twoOfThree) hi (content_length_le hP)
  refine ⟨e₀, e₂, fun i => packet twoOfThree 0 i (content twoOfThree e₀.fec e₀.inputData [[0], [1]] i),
    fun i => packet twoOfThree (0 + 1) i (content twoOfThree e₁.fec e₁.inputData [[0], [1]] i),
    hnew, ?_, ?_⟩
  · rw [show ([[0], [1], [0], [1]] : List (List Gf)) = [[0], [1]] ++ [[0], [1]] from rfl,
      encodeAll_append, hA, Option.bind_some, hB]
    rfl
  · intro i hi
    have ha := carries_packet (hcarry 0 e₀ i hi)
    have hb := carries_packet (hcarry (0 + 1) e₁ i hi)
    exact ⟨⟨hcarry 0 e₀ i hi, ha.2.1, ha.1⟩, hcarry (0 + 1) e₁ i hi, hb.2.1, hb.1⟩

theorem clean_of_length {p : Setup} {v : List Datagram} (hv : ∀ x ∈ v, index x < p.n)
    (hlen : v.length ≤ p.k) : Clean p v := by
  refine clean_of_held hv ?_
  rw [held_feed hv]
  exact ((List.dedup_sublist _).length_le.trans (by simp)).trans hlen

theorem new_inputData {p : Setup} {input output : Nat → Nat → Gf} {g : FECGenerator}
    (h : new input output p.k p.n p.size = some g) : g.inputData = input := by
  rw [new] at h
  obtain ⟨fec, -, rfl⟩ := Option.map_eq_some_iff.mp h
  rfl

/-- With a payload shorter than the redundant packets even equal visits deliver different
packets: the recovery reads what the other group left behind the short payload. -/
theorem short_payload_order_matters {e : FECGenerator}
    (hnew : new (fun _ _ => 0) (fun _ _ => 0) 2 3 2 = some e) {b₀ a₀ a₂ : Datagram}
    (hb₀ : Fits twoOfThreeLong b₀ ∧ index b₀ = 0 ∧ b₀.header.fecGroupId = 1 ∧ payload b₀ = [1, 1])
    (ha₀ : OfGroup twoOfThreeLong e [[1], [0, 0]] a₀ ∧ index a₀ = 0)
    (ha₂ : OfGroup twoOfThreeLong e [[1], [0, 0]] a₂ ∧ index a₂ = 2) :
    ∃ d₁ log₁ d₂ log₂, decodeAll e [a₀, a₂] = some (d₁, log₁) ∧
      decodeAll e [b₀, a₀, a₂] = some (d₂, log₂) ∧
      (0, 1, [0, 0]) ∈ log₁.map triple ∧ (0, 1, [0, 0]) ∉ log₂.map triple := by
  have hfresh := new_fresh (p := twoOfThreeLong) hnew
  have hinput := new_inputData (p := twoOfThreeLong) hnew
  have hP : ∀ data ∈ ([[1], [0, 0]] : List (List Gf)), data.length ≤ maxFecPacketSize := by
    simp [maxFecPacketSize]
  have hfeed : ∀ x ∈ [a₀, a₂], OfGroup twoOfThreeLong e [[1], [0, 0]] x := by
    simp only [List.mem_cons, List.not_mem_nil, or_false]
    rintro x (rfl | rfl)
    · exact ha₀.1
    · exact ha₂.1
  have hk : (([a₀, a₂] : List Datagram).map index).dedup.length = twoOfThreeLong.k := by
    simp [ha₀.2, ha₂.2, twoOfThreeLong]
  have hunseen : ∀ i < twoOfThreeLong.k, seen [a₀, a₂] i = false → i = 1 := by
    intro i hi hs
    have hi' : i < 2 := hi
    have hne : i ≠ 0 := by
      rintro rfl
      simp [seen, ha₀.2] at hs
    omega
  -- the first packet of the other group leaves its bytes in the first buffer
  have hstart := enterGroup_counted (x := b₀) hfresh.runs (hfresh.vacant _)
  obtain ⟨d, out, hdec, htriple, hcounted⟩ := hstart.fresh_step hb₀.1 rfl rfl (by
    rw [List.nil_append, held_feed (by simp [hb₀.2.1, twoOfThreeLong])]
    simp [twoOfThreeLong])
  have hdec' : decode e b₀.header b₀.data = some (d, out) := by
    rw [← hdec, decode, decode, enterGroup_idem]
  have hbuf : d.inputData 0 1 = 1 := by
    rw [hcounted.input]
    simp [received, seen, first, hb₀.2.1, hb₀.2.2.2, copyBytes, buffer]
  have hvacant : Vacant d e.lastGroupId := by
    intro heq
    rw [hcounted.group, hb₀.2.2.1, hfresh.group] at heq
    exact absurd heq (by decide)
  obtain ⟨d₁, log₁, pre₁, x₁, hrun₁, hout₁⟩ :=
    group_outcome hfresh.runs hfresh.runs (hfresh.vacant _) hP hfeed hk
  obtain ⟨d₂, log₂, pre₂, x₂, hrun₂, hout₂⟩ :=
    group_outcome hfresh.runs hcounted.runs hvacant hP hfeed hk
  refine ⟨d₁, log₁, d₂, out ++ log₂, hrun₁, by rw [decodeAll, hdec']; simp [hrun₂], ?_, ?_⟩
  · have hall := (hout₁.restores_iff hfresh.runs).mpr ⟨?_, ?_⟩
    · have h := hall 1 (by decide) (by simp [seen, ha₀.2, ha₂.2])
      rw [hfresh.group] at h
      exact h
    · intro i hi hs
      rw [hunseen i hi hs]
      rfl
    · intro j _ _ _ b _
      exact Finset.sum_eq_zero fun r _ => by rw [sub_self, mul_zero]
  · rw [List.map_append, htriple, List.mem_append, not_or]
    constructor
    · rw [announced, hb₀.2.2.1]
      split <;> simp
    · intro hmem
      have hall := (hout₂.restores_iff hfresh.runs).mp (by
        intro i hi hs
        rw [hunseen i hi hs, hfresh.group]
        exact hmem)
      have hzero := hall.cancel 2 (by decide) (by decide) (by simp [seen, ha₂.2]) 1 (by decide)
      have hfilter : (Finset.range twoOfThreeLong.k).filter (fun r => seen [a₀, a₂] r = true ∧
          (([[1], [0, 0]] : List (List Gf)).getD r []).length ≤ 1) = {0} := by
        ext r
        simp only [Finset.mem_filter, Finset.mem_range, Finset.mem_singleton]
        constructor
        · rintro ⟨hr, hs, -⟩
          by_contra hne
          have hr' : r < 2 := hr
          obtain rfl : r = 1 := by omega
          simp [seen, ha₀.2, ha₂.2] at hs
        · rintro rfl
          exact ⟨by decide, by simp [seen, ha₀.2], by simp⟩
      rw [hfilter, Finset.sum_singleton, hbuf, hinput, sub_zero, mul_one] at hzero
      exact hfresh.runs.isCode.coeff_ne_zero (by decide) (by decide) (by decide) hzero

end FecInterleave
