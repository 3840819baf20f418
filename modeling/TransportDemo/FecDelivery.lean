import TransportDemo.FecRecovery

/-!
# How often a packet is delivered

A feed splits into visits, the longest stretches of datagrams of one group. A
visit starts with nothing of its group, whatever the decoder did before, so a
run is the sequence of its visits. A source packet that comes after the recovery
of its group is delivered again, and so is what a later visit delivers again.
-/

namespace FecDelivery

open CountedLoop FecField FecCode FecGenerator FecDecoder FecEncoder FecVisit FecRecovery

/-! ## Visits -/

def sameGroup (x y : Datagram) : Bool := x.header.fecGroupId == y.header.fecGroupId

/-- The visits of a feed in order. -/
def visits (feed : List Datagram) : List (List Datagram) := feed.splitBy sameGroup

/-- The group of a visit. -/
def groupOf (v : List Datagram) : UInt32 := ((v.head?).map fun x => x.header.fecGroupId).getD 0

theorem groupOf_eq {v : List Datagram} {id : UInt32} (hne : v ≠ [])
    (h : ∀ x ∈ v, x.header.fecGroupId = id) : groupOf v = id := by
  obtain ⟨x, rest, rfl⟩ := List.exists_cons_of_ne_nil hne
  exact h x (by simp)

/-- A nonempty stretch of datagrams of one group. -/
structure IsVisit (v : List Datagram) : Prop where
  ne_nil : v ≠ []
  group : ∀ x ∈ v, x.header.fecGroupId = groupOf v

theorem isVisit_of_mem {feed v : List Datagram} (hv : v ∈ visits feed) : IsVisit v := by
  have hne := List.ne_nil_of_mem_splitBy hv
  have hchain := List.isChain_of_mem_splitBy hv
  obtain ⟨x, rest, rfl⟩ := List.exists_cons_of_ne_nil hne
  refine ⟨hne, ?_⟩
  intro y hy
  have hall : ∀ (rest : List Datagram) (x : Datagram),
      (x :: rest).IsChain (fun x y => sameGroup x y) →
      ∀ y ∈ x :: rest, y.header.fecGroupId = x.header.fecGroupId := by
    intro rest
    induction rest with
    | nil => intro x _ y hy; rw [List.mem_singleton.mp hy]
    | cons z rest ih =>
      intro x hc y hy
      rw [List.isChain_cons_cons] at hc
      have hxz : x.header.fecGroupId = z.header.fecGroupId := by simpa [sameGroup] using hc.1
      rcases List.mem_cons.mp hy with rfl | hy
      · rfl
      · rw [hxz]
        exact ih z hc.2 y hy
  exact hall rest x hchain y hy

theorem visits_chain (feed : List Datagram) :
    (visits feed).IsChain fun v w => groupOf v ≠ groupOf w := by
  refine List.IsChain.imp_of_mem_imp ?_ (List.isChain_getLast_head_splitBy sameGroup feed)
  intro v w hv hw ⟨hvne, hwne, hdiff⟩ heq
  have hlast := (isVisit_of_mem hv).group _ (List.getLast_mem hvne)
  have hhead := (isVisit_of_mem hw).group _ (List.head_mem hwne)
  rw [sameGroup, hlast, hhead, heq] at hdiff
  simp at hdiff

theorem mem_of_visit {feed v : List Datagram} (hv : v ∈ visits feed) {x : Datagram} (hx : x ∈ v) :
    x ∈ feed := by
  rw [← List.flatten_splitBy sameGroup feed]
  exact List.mem_flatten.mpr ⟨v, hv, hx⟩

/-! ## A run is the sequence of its visits -/

section Sequence

variable {p : Setup}

theorem arrive_group {g g' : FECGenerator} {header : TESTFECHeader} {data : List Gf}
    {out : List Callback} (h : arrive g header data = some (g', out)) :
    g'.lastGroupId = g.lastGroupId := by
  simp only [arrive] at h
  split_ifs at h <;> cases h <;> rfl

theorem recover_group {g g' : FECGenerator} {out : List Callback} (hg : Runs p g)
    (h : recover g = some (g', out)) : g'.lastGroupId = g.lastGroupId := by
  by_cases hr : Ready p g
  · obtain ⟨g₁, x, hrec, hres⟩ := recover_ready hg hr
    rw [hrec] at h
    cases h
    rw [hres.state]
  · rw [recover_idle hg hr] at h
    cases h
    rfl

/-- A datagram that fits never makes `Decode` leave the arrays. -/
theorem decode_total {g : FECGenerator} {x : Datagram} (hg : Runs p g) (hx : Fits p x) :
    ∃ g' out, decode g x.header x.data = some (g', out) ∧ Runs p g' ∧
      g'.lastGroupId = x.header.fecGroupId := by
  have hr : Runs p (enterGroup g x.header) := enterGroup_runs hg
  have harrive : ∃ g₁ out, arrive (enterGroup g x.header) x.header x.data = some (g₁, out) := by
    by_cases hs : (enterGroup g x.header).usedMarks (index x) = true
    · exact ⟨_, _, arrive_seen hx hs⟩
    · exact ⟨_, _, arrive_fresh hr hx (by simpa using hs)⟩
  obtain ⟨g₁, out, ha⟩ := harrive
  have hr₁ := arrive_runs hr ha
  obtain ⟨g₂, out₂, hrec, hr₂⟩ := recover_total hr₁
  refine ⟨g₂, _, decode_eq ha hrec, hr₂, ?_⟩
  rw [recover_group hr₁ hrec, arrive_group ha, enterGroup_group]

theorem decodeAll_total {feed : List Datagram} {g : FECGenerator} (hg : Runs p g)
    (hfeed : ∀ x ∈ feed, Fits p x) : ∃ g' log, decodeAll g feed = some (g', log) := by
  induction feed generalizing g with
  | nil => exact ⟨g, [], rfl⟩
  | cons x rest ih =>
    obtain ⟨g₁, out, hdec, hr, -⟩ := decode_total hg (hfeed x (by simp))
    obtain ⟨g₂, log, hrest⟩ := ih hr fun y hy => hfeed y (by simp [hy])
    exact ⟨g₂, out ++ log, by simp [decodeAll, hdec, hrest]⟩

theorem decodeAll_group {v : List Datagram} {g g' : FECGenerator} {log : List Callback}
    (hg : Runs p g) (hv : IsVisit v) (hfits : ∀ x ∈ v, Fits p x)
    (h : decodeAll g v = some (g', log)) : g'.lastGroupId = groupOf v := by
  rcases List.eq_nil_or_concat v with rfl | ⟨pre, x, rfl⟩
  · exact absurd rfl hv.ne_nil
  · rw [List.concat_eq_append] at h hv hfits ⊢
    obtain ⟨g₁, log₁, h₁⟩ := decodeAll_total hg
      (show ∀ y ∈ pre, Fits p y from fun y hy => hfits y (by simp [hy]))
    obtain ⟨g₂, out, hdec, -, hid⟩ := decode_total (decodeAll_runs hg h₁) (hfits x (by simp))
    rw [decodeAll_append, h₁, Option.bind_some, decodeAll, hdec] at h
    simp only [decodeAll, Option.bind_eq_bind, Option.bind_some, Option.map_some, pure,
      Option.some.injEq, Prod.mk.injEq] at h
    rw [← h.1, hid]
    exact hv.group x (by simp)

/-- What holds of every visit that starts with its group vacant holds of each visit of a run. -/
theorem decodeAll_visits (Q : List Datagram → List Callback → Prop) {vs : List (List Datagram)}
    (hvs : ∀ v ∈ vs, IsVisit v ∧ ∀ x ∈ v, Fits p x)
    (hchain : vs.IsChain fun v w => groupOf v ≠ groupOf w)
    (hQ : ∀ v ∈ vs, ∀ g log g', Runs p g → Vacant g (groupOf v) →
      decodeAll g v = some (g', log) → Q v log) {g : FECGenerator} (hg : Runs p g)
    (hvacant : ∀ v ∈ vs.head?, Vacant g (groupOf v)) :
    ∃ g' logs, decodeAll g vs.flatten = some (g', logs.flatten) ∧ List.Forall₂ Q vs logs := by
  induction vs generalizing g with
  | nil => exact ⟨g, [], rfl, .nil⟩
  | cons v vs ih =>
    obtain ⟨hv, hfits⟩ := hvs v (by simp)
    obtain ⟨g₁, log, h₁⟩ := decodeAll_total hg hfits
    have hid := decodeAll_group hg hv hfits h₁
    have hnext : ∀ w ∈ vs.head?, Vacant g₁ (groupOf w) := by
      intro w hw heq
      have hne : groupOf v ≠ groupOf w := (List.isChain_cons.mp hchain).1 w hw
      exact absurd (hid.symm.trans heq) hne
    obtain ⟨g₂, logs, h₂, hall⟩ := ih (fun w hw => hvs w (by simp [hw]))
      (List.isChain_cons.mp hchain).2 (fun w hw => hQ w (by simp [hw])) (decodeAll_runs hg h₁) hnext
    refine ⟨g₂, log :: logs, ?_, .cons (hQ v (by simp) g log g₁ hg (hvacant v (by simp)) h₁) hall⟩
    rw [List.flatten_cons, decodeAll_append, h₁, Option.bind_some, h₂]
    rfl

end Sequence

/-! ## Delivered at most once -/

/-- What identifies a delivery. -/
def key (c : Callback) : UInt64 × Int := (c.groupId, c.index)

/-- The sources that a visit hands on: those it receives, or all of them when it receives
`k` different packets. -/
def handed (p : Setup) (v : List Datagram) : List (UInt64 × Int) :=
  ((List.range p.k).filter fun i => seen v i || decide (p.k ≤ held p (seen v))).map
    fun i : Nat => ((groupOf v).toUInt64, (i : Int))

section Once

variable {p : Setup} {g g' : FECGenerator} {v : List Datagram} {log : List Callback}

theorem handed_nodup : (handed p v).Nodup := by
  refine (List.nodup_range.filter _).map ?_
  intro i j hij
  simpa using hij

theorem map_key_eq (log : List Callback) :
    log.map key = (log.map triple).map fun t => (t.1, t.2.1) := by
  rw [List.map_map]
  rfl

theorem handed_few (h : held p (seen v) < p.k) :
    handed p v = (present p.k (seen v)).map fun i : Nat => ((groupOf v).toUInt64, (i : Int)) := by
  simp [handed, present, show ¬p.k ≤ held p (seen v) by omega]

theorem handed_enough (h : p.k ≤ held p (seen v)) :
    handed p v = (List.range p.k).map fun i : Nat => ((groupOf v).toUInt64, (i : Int)) := by
  simp [handed, h]

/-- Arrival and recovery together deliver every source. -/
theorem complete_keys (id : UInt32) (pre : List Datagram) (x : Nat → Nat → Gf) :
    ((delivered p id pre ++ restored p id (seen pre) x).map fun t => (t.1, t.2.1)).Perm
      ((List.range p.k).map fun i : Nat => (id.toUInt64, (i : Int))) := by
  have h := (present_missing_perm p.k (seen pre)).map
    fun i : Nat => (id.toUInt64, (i : Int))
  rw [List.map_append] at h
  rw [List.map_append, delivered, restored, List.map_map, List.map_map]
  exact h

/-- A clean visit hands on each of its sources once. -/
theorem clean_handed (hg : Runs p g) (hvac : Vacant g (groupOf v)) (hv : IsVisit v)
    (hfits : ∀ x ∈ v, Fits p x) (hclean : Clean p v) (h : decodeAll g v = some (g', log)) :
    (log.map key).Perm (handed p v) := by
  obtain ⟨g₁, log₁, h₁, hvis⟩ := visit_vacant hg hvac hv.ne_nil
    (fun x hx => ⟨hfits x hx, hv.group x hx⟩) hclean
  rw [h] at h₁
  cases h₁
  rw [map_key_eq]
  rcases hvis with ⟨few, -, hlog⟩ | ⟨enough, -, pre, x, -, -, -, -, hlog⟩
  · refine (hlog.map _).trans ?_
    rw [handed_few few, delivered, List.map_map]
    rfl
  · rw [handed_enough enough]
    exact (hlog.map _).trans (complete_keys _ _ _)

/-- A visit that is not clean has a first source packet that comes too late. -/
theorem exists_late (h : ¬Clean p v) : ∃ pre x post, v = pre ++ x :: post ∧ Clean p pre ∧
    index x < p.k ∧ seen pre (index x) = false ∧ p.k ≤ held p (seen pre) := by
  induction v using List.reverseRecOn with
  | nil =>
    refine absurd ?_ h
    intro pre x post heq
    simp at heq
  | append_singleton w x ih =>
    by_cases hw : Clean p w
    · rw [Clean] at h
      push Not at h
      obtain ⟨pre, y, post, heq, hk, hs, hheld⟩ := h
      rcases List.eq_nil_or_concat post with rfl | ⟨post, z, rfl⟩
      · obtain ⟨rfl, -⟩ := List.append_inj' heq rfl
        exact ⟨w, y, [], heq, hw, hk, hs, hheld⟩
      · rw [List.concat_eq_append, ← List.cons_append, ← List.append_assoc] at heq
        have hpre := (List.append_inj' heq rfl).1
        have := hw pre y post hpre hk hs
        omega
    · obtain ⟨pre, y, post, heq, hrest⟩ := ih hw
      exact ⟨pre, y, post ++ [x], by rw [heq]; simp, hrest⟩

/-- A source packet that comes too late is delivered again. -/
theorem late_twice (hg : Runs p g) (hvac : Vacant g (groupOf v)) (hv : IsVisit v)
    (hfits : ∀ x ∈ v, Fits p x) (hclean : ¬Clean p v) (h : decodeAll g v = some (g', log)) :
    ¬(log.map key).Nodup := by
  obtain ⟨pre, x, post, rfl, hpre, hk, hs, hheld⟩ := exists_late hclean
  have hne : pre ≠ [] := by
    rintro rfl
    have := p.pos
    rw [held_eq_card, seen_nil] at hheld
    simp at hheld
    omega
  obtain ⟨g₁, log₁, h₁, hvis⟩ := visit_vacant hg hvac hne
    (fun y hy => ⟨hfits y (by simp [hy]), hv.group y (by simp [hy])⟩) hpre
  rcases hvis with ⟨few, -, -⟩ | ⟨-, done, pre₀, y, -, -, -, -, hlog⟩
  · omega
  have hid := hv.group x (by simp)
  have hold : ((groupOf (pre ++ x :: post)).toUInt64, (index x : Int)) ∈ log₁.map key := by
    rw [map_key_eq, (hlog.map _).mem_iff, (complete_keys _ _ _).mem_iff]
    exact List.mem_map.mpr ⟨index x, List.mem_range.mpr hk, rfl⟩
  have henter := done.enter hid
  have ha := arrive_fresh henter.runs (hfits x (by simp)) (by rw [henter.marks]; exact hs)
  obtain ⟨g₂, out, hrec, hr₂⟩ := recover_total (accept_runs henter.runs (x := x))
  have hdec := decode_eq ha hrec
  have hnew : ((groupOf (pre ++ x :: post)).toUInt64, (index x : Int)) ∈
      (handOn p (enterGroup g₁ x.header) x ++ out).map key := by
    rw [List.map_append]
    refine List.mem_append_left _ ?_
    rw [map_key_eq, handOn_triple, announced, if_pos hk, henter.group]
    simp
  obtain ⟨g₃, log₃, hrest⟩ := decodeAll_total hr₂
    (show ∀ y ∈ post, Fits p y from fun y hy => hfits y (by simp [hy]))
  rw [decodeAll_append, h₁, Option.bind_some, decodeAll, hdec] at h
  simp only [hrest, Option.bind_eq_bind, Option.bind_some, Option.map_some, pure,
    Option.some.injEq, Prod.mk.injEq] at h
  rw [← h.2, List.map_append, List.map_append, List.nodup_append]
  intro hnodup
  exact hnodup.2.2 _ hold _ (List.mem_append_left _ hnew) rfl

/-- Datagrams of a run of `Encode` fit. -/
theorem emitted_fits {fec : FecParms} {id : UInt32} {payloads : List (List Gf)} {c : Callback}
    {G i : Nat} (hP : ∀ data ∈ payloads, data.length ≤ maxFecPacketSize)
    (hc : Emitted p fec id payloads c G i) {x : Datagram} (hx : Carries x c) : Fits p x := by
  rw [hc.eq] at hx
  refine carries_fits hx hc.lt ?_
  by_cases hi : i < p.k
  · exact hP _ (List.mem_of_getElem? (hc.source hi))
  · obtain ⟨-, buf, hdata, -⟩ := hc.redundant (by omega)
    rw [hdata, bytes_length]
    exact p.size_le

theorem run_fits {inputE outputE : Nat → Nat → Gf} {e e' : FECGenerator}
    {payloads : List (List Gf)} {packets : List Callback}
    (hnewE : new inputE outputE p.k p.n p.size = some e)
    (hrun : encodeAll e payloads = some (e', packets)) {x : Datagram}
    (hx : ∃ c ∈ packets, Carries x c) : Fits p x := by
  have he := new_fresh hnewE
  have hP := encodeAll_fits (c := 0) he.runs he.count p.pos hrun
  obtain ⟨e'', packets', hrun', -, -, hemitted⟩ := encodeAll_run he.runs he.count payloads hP
  rw [hrun] at hrun'
  cases hrun'
  obtain ⟨c, hc, hcx⟩ := hx
  obtain ⟨G, i, hGi⟩ := hemitted c hc
  exact emitted_fits hP hGi hcx

/-- What is known about the log of each visit. -/
def VisitLog (p : Setup) (v : List Datagram) (log : List Callback) : Prop :=
  ((log.map key).Nodup → Clean p v) ∧ (Clean p v → (log.map key).Perm (handed p v))

theorem clean_of_nodup {vs : List (List Datagram)} {logs : List (List Callback)}
    (hall : List.Forall₂ (VisitLog p) vs logs) (h : (logs.flatten.map key).Nodup) :
    ∀ v ∈ vs, Clean p v := by
  induction hall with
  | nil => simp
  | @cons v log vs logs hv _ ih =>
    rw [List.flatten_cons, List.map_append, List.nodup_append] at h
    intro w hw
    rcases List.mem_cons.mp hw with rfl | hw
    · exact hv.1 h.1
    · exact ih h.2.1 w hw

theorem keys_of_clean {vs : List (List Datagram)} {logs : List (List Callback)}
    (hall : List.Forall₂ (VisitLog p) vs logs) (h : ∀ v ∈ vs, Clean p v) :
    (logs.flatten.map key).Perm (vs.map (handed p)).flatten := by
  induction hall with
  | nil => simp
  | @cons v log vs logs hv _ ih =>
    rw [List.flatten_cons, List.map_append, List.map_cons, List.flatten_cons]
    exact (hv.2 (h v (by simp))).append (ih fun w hw => h w (by simp [hw]))

/-- The log of a run consists of the logs of its visits. -/
theorem run_visitLogs {d : FECGenerator} (hd : Fresh p d) {feed : List Datagram}
    (hfits : ∀ x ∈ feed, Fits p x) :
    ∃ d' logs, decodeAll d feed = some (d', logs.flatten) ∧
      List.Forall₂ (VisitLog p) (visits feed) logs := by
  have hmem : ∀ v ∈ visits feed, IsVisit v ∧ ∀ x ∈ v, Fits p x := fun v hv =>
    ⟨isVisit_of_mem hv, fun x hx => hfits x (mem_of_visit hv hx)⟩
  have hlog : ∀ v ∈ visits feed, ∀ g log g', Runs p g → Vacant g (groupOf v) →
      decodeAll g v = some (g', log) → VisitLog p v log := by
    intro v hv g log g' hg hvac h
    obtain ⟨hvisit, hfv⟩ := hmem v hv
    refine ⟨fun hnodup => ?_, fun hclean => clean_handed hg hvac hvisit hfv hclean h⟩
    by_contra hclean
    exact late_twice hg hvac hvisit hfv hclean h hnodup
  obtain ⟨d', logs, hrun, hall⟩ := decodeAll_visits (VisitLog p) hmem (visits_chain feed) hlog hd.runs
    fun v _ => hd.vacant _
  rw [visits, List.flatten_splitBy] at hrun
  exact ⟨d', logs, hrun, hall⟩

/-- A run delivers every source at most once exactly when each visit is clean and no two
visits hand on the same source. -/
theorem run_once_iff {d : FECGenerator} (hd : Fresh p d) {feed : List Datagram}
    (hfits : ∀ x ∈ feed, Fits p x) :
    ∃ d' log, decodeAll d feed = some (d', log) ∧
      ((log.map key).Nodup ↔ (∀ v ∈ visits feed, Clean p v) ∧
        (visits feed).Pairwise fun v w => (handed p v).Disjoint (handed p w)) := by
  obtain ⟨d', logs, hrun, hall⟩ := run_visitLogs hd hfits
  refine ⟨d', logs.flatten, hrun, ?_⟩
  have hsplit : ∀ vs : List (List Datagram), (vs.map (handed p)).flatten.Nodup ↔
      vs.Pairwise fun v w => (handed p v).Disjoint (handed p w) := by
    intro vs
    rw [List.nodup_flatten, List.pairwise_map]
    refine and_iff_right fun l hl => ?_
    obtain ⟨v, -, rfl⟩ := List.mem_map.mp hl
    exact handed_nodup
  constructor
  · intro h
    have hclean := clean_of_nodup hall h
    exact ⟨hclean, (hsplit _).mp ((keys_of_clean hall hclean).nodup_iff.mp h)⟩
  · rintro ⟨hclean, hpair⟩
    exact (keys_of_clean hall hclean).nodup_iff.mpr ((hsplit _).mpr hpair)

/-- The same for the datagrams of a run of `Encode` and a new decoder. -/
theorem delivered_once_iff {inputE outputE inputD outputD : Nat → Nat → Gf}
    {e e' d : FECGenerator} {payloads : List (List Gf)} {packets : List Callback}
    (hnewE : new inputE outputE p.k p.n p.size = some e)
    (hrun : encodeAll e payloads = some (e', packets))
    (hnewD : new inputD outputD p.k p.n p.size = some d) {feed : List Datagram}
    (hfeed : ∀ x ∈ feed, ∃ c ∈ packets, Carries x c) :
    ∃ d' log, decodeAll d feed = some (d', log) ∧
      ((log.map key).Nodup ↔ (∀ v ∈ visits feed, Clean p v) ∧
        (visits feed).Pairwise fun v w => (handed p v).Disjoint (handed p w)) :=
  run_once_iff (new_fresh hnewD) fun x hx => run_fits hnewE hrun (hfeed x hx)

theorem delivered_once_of_three : ∃ e₀ e' packets d' log,
    new (fun _ _ => 0) (fun _ _ => 0) 2 3 1 = some e₀ ∧
      encodeAll e₀ [[0], [1]] = some (e', packets) ∧
      decodeAll e₀ (packets.map carry) = some (d', log) ∧
      ((log.map key).Nodup ↔ (∀ v ∈ visits (packets.map carry), Clean twoOfThree v) ∧
        (visits (packets.map carry)).Pairwise fun v w =>
          (handed twoOfThree v).Disjoint (handed twoOfThree w)) := by
  have hP : ∀ data ∈ ([[0], [1]] : List (List Gf)), data.length ≤ maxFecPacketSize := by
    simp [maxFecPacketSize]
  obtain ⟨e₀, e', packets, hnew, -, hrun, hpackets, -⟩ :=
    exists_group twoOfThree (P := [[0], [1]]) rfl hP
  obtain ⟨hcarry, -⟩ := carryAll_spec (p := twoOfThree) (e := e₀) (P := [[0], [1]])
    [0, 1, 2] (by decide) hP
  have hfeed : packets.map carry = carryAll twoOfThree e₀ [[0], [1]] [0, 1, 2] := by
    rw [hpackets]
    rfl
  obtain ⟨d', log, hdec, hiff⟩ := delivered_once_iff (p := twoOfThree) hnew hrun hnew
    (show ∀ x ∈ packets.map carry, ∃ c ∈ packets, Carries x c by
      rw [hfeed, hpackets]; exact hcarry)
  exact ⟨e₀, e', packets, d', log, hnew, hrun, hdec, hiff⟩

/-- The redundant packet first, then the source packet that it already gave back. -/
theorem late_source_delivered_twice : ∃ e₀ e' packets d' log,
    new (fun _ _ => 0) (fun _ _ => 0) 1 2 2 = some e₀ ∧
      encodeAll e₀ [[1, 0]] = some (e', packets) ∧
      decodeAll e₀ (packets.reverse.map carry) = some (d', log) ∧ ¬(log.map key).Nodup := by
  have hP : ∀ data ∈ ([[1, 0]] : List (List Gf)), data.length ≤ maxFecPacketSize := by
    simp [maxFecPacketSize]
  obtain ⟨e₀, e', packets, hnew, hfresh, hrun, hpackets, hgroup⟩ :=
    exists_group oneOfTwo (P := [[1, 0]]) rfl hP
  obtain ⟨hcarry, hidx⟩ := carryAll_spec (p := oneOfTwo) (e := e₀) (P := [[1, 0]])
    [1, 0] (by decide) hP
  have hfeed : packets.reverse.map carry = carryAll oneOfTwo e₀ [[1, 0]] [1, 0] := by
    rw [hpackets]
    rfl
  have hfits : ∀ x ∈ packets.reverse.map carry, Fits oneOfTwo x := fun x hx =>
    run_fits (p := oneOfTwo) hnew hrun (by rw [hpackets]; exact hcarry x (hfeed ▸ hx))
  have hid : ∀ x ∈ packets.reverse.map carry, x.header.fecGroupId = e₀.lastGroupId := by
    intro x hx
    obtain ⟨i, -, hi⟩ := hgroup x (by rw [hpackets]; exact hcarry x (hfeed ▸ hx))
    exact (carries_packet hi).1
  have hne : packets.reverse.map carry ≠ [] := by
    rw [hfeed]
    simp [carryAll]
  have hvisit : IsVisit (packets.reverse.map carry) := ⟨hne, fun x hx => by
    rw [groupOf_eq hne hid]
    exact hid x hx⟩
  obtain ⟨d', log, hdec⟩ := decodeAll_total hfresh.runs hfits
  refine ⟨e₀, e', packets, d', log, hnew, hrun, hdec, ?_⟩
  refine late_twice hfresh.runs (hfresh.vacant _) hvisit hfits ?_ hdec
  intro hclean
  obtain ⟨x, y, hxy⟩ : ∃ x y, packets.reverse.map carry = [x, y] := ⟨_, _, hfeed⟩
  rw [← hfeed, hxy] at hidx
  simp only [List.map_cons, List.map_nil, List.cons.injEq, and_true] at hidx
  have hheld : held oneOfTwo (seen [x]) = 1 := by
    rw [held_feed (by simp [hidx.1]; decide)]
    rfl
  have hlt := hclean [x] y [] hxy (by rw [hidx.2]; decide) (by simp [seen, hidx.1, hidx.2])
  rw [hheld] at hlt
  exact absurd hlt (by decide)

end Once

end FecDelivery
