import TransportDemo.FecVisit

/-!
# Any `k` packets give back the group

The encoder and the decoder are joined here. A visit with `k` different packets
of a group delivers every source packet once; with payloads of `packet_size`
bytes each is the payload the encoder was given. With other payload sizes the
result depends on what earlier groups left in the buffers of both sides.
-/

namespace FecRecovery

open CountedLoop FecField FecMatrix FecCode FecGenerator FecDecoder FecEncoder FecVisit

/-! ## States that runs reach -/

section Reach

variable {p : Setup} {g : FECGenerator}

/-- A generator as the constructor leaves it. -/
structure Fresh (p : Setup) (g : FECGenerator) : Prop where
  runs : Runs p g
  count : g.packetCount = 0
  raw : g.rawPacketCount = 0
  marks : g.usedMarks = fun _ => false
  group : g.lastGroupId = 0

theorem new_fresh {input output : Nat → Nat → Gf} (h : new input output p.k p.n p.size = some g) :
    Fresh p g := by
  obtain ⟨g', hg', hr⟩ := new_runs p input output
  rw [hg', Option.some_inj] at h
  subst h
  rw [new] at hg'
  obtain ⟨fec, -, rfl⟩ := Option.map_eq_some_iff.mp hg'
  exact ⟨hr, rfl, rfl, rfl, rfl⟩

theorem Fresh.vacant (h : Fresh p g) (id : UInt32) : Vacant g id :=
  fun _ => ⟨h.count, h.raw, h.marks⟩

theorem arrive_runs {header : TESTFECHeader} {data : List Gf} {g' : FECGenerator}
    {out : List Callback} (hg : Runs p g) (h : arrive g header data = some (g', out)) : Runs p g' := by
  simp only [arrive] at h
  split_ifs at h <;> cases h <;> exact ⟨hg.code, hg.fecK, hg.fecN, hg.size⟩

theorem recover_total (hg : Runs p g) : ∃ g' out, recover g = some (g', out) ∧ Runs p g' := by
  by_cases hr : Ready p g
  · obtain ⟨g', x, hrec, hres⟩ := recover_ready hg hr
    refine ⟨g', _, hrec, ?_⟩
    rw [hres.state]
    exact ⟨hg.code, hg.fecK, hg.fecN, hg.size⟩
  · exact ⟨g, [], recover_idle hg hr, hg⟩

theorem decode_runs {x : Datagram} {g' : FECGenerator} {out : List Callback} (hg : Runs p g)
    (h : decode g x.header x.data = some (g', out)) : Runs p g' := by
  rcases ha : arrive (enterGroup g x.header) x.header x.data with _ | ⟨g₁, out₁⟩
  · simp [decode, ha] at h
  · have h₁ := arrive_runs (enterGroup_runs hg) ha
    obtain ⟨g₂, out₂, hrec, h₂⟩ := recover_total h₁
    rw [decode_eq ha hrec] at h
    cases h
    exact h₂

theorem decodeAll_runs {feed : List Datagram} {g' : FECGenerator} {log : List Callback}
    (hg : Runs p g) (h : decodeAll g feed = some (g', log)) : Runs p g' := by
  induction feed generalizing g log with
  | nil => cases h; exact hg
  | cons x rest ih =>
    rcases hd : decode g x.header x.data with _ | ⟨g₁, out⟩
    · simp [decodeAll, hd] at h
    · rcases hr : decodeAll g₁ rest with _ | ⟨g₂, log₂⟩
      · simp [decodeAll, hd, hr] at h
      · simp only [decodeAll, hd, hr, Option.bind_eq_bind, Option.bind_some, Option.some.injEq,
          Prod.mk.injEq, pure] at h
        exact ih (decode_runs hg hd) (h.1 ▸ hr)

/-- A decoder that is new or has last seen another group holds nothing of this one. -/
theorem vacant_of_run {input output : Nat → Nat → Gf} {d₀ d : FECGenerator}
    {history : List Datagram} {log : List Callback} {id : UInt32}
    (hnew : new input output p.k p.n p.size = some d₀) (hrun : decodeAll d₀ history = some (d, log))
    (hother : history = [] ∨ d.lastGroupId ≠ id) : Runs p d ∧ Vacant d id := by
  have h₀ := new_fresh hnew
  refine ⟨decodeAll_runs h₀.runs hrun, ?_⟩
  rcases hother with rfl | hne
  · cases hrun
    exact h₀.vacant id
  · exact fun heq => absurd heq hne

/-- The encoder between two groups. -/
theorem between_groups {input output : Nat → Nat → Gf} {e₀ e : FECGenerator}
    {earlier : List (List Gf)} {out : List Callback}
    (hnew : new input output p.k p.n p.size = some e₀)
    (hrun : encodeAll e₀ earlier = some (e, out)) (hwhole : p.k ∣ earlier.length) :
    Runs p e ∧ e.packetCount = 0 := by
  have h₀ := new_fresh hnew
  have hfits := encodeAll_fits (c := 0) h₀.runs h₀.count p.pos hrun
  obtain ⟨e', out', hrun', hr', hc', -⟩ := encodeAll_run h₀.runs h₀.count earlier hfits
  rw [hrun] at hrun'
  cases hrun'
  exact ⟨hr', by rw [hc', Nat.mod_eq_zero_of_dvd hwhole]; rfl⟩

end Reach

/-! ## The packets of one group -/

/-- Packet `i` of a group: its payload, or the redundant bytes of the buffers. -/
def content (p : Setup) (fec : FecParms) (input : Nat → Nat → Gf) (P : List (List Gf)) (i : Nat) :
    List Gf :=
  if i < p.k then P.getD i [] else bytes (codeword fec (filled input P) i) p.size

/-- The datagram of a packet, as a receiver that shares the encoder's parameters expects it. -/
def carry (c : Callback) : Datagram :=
  ⟨{ length := UInt32.ofNat c.data.length
     fecK := UInt16.ofNat c.k.toNat
     fecN := UInt16.ofNat c.n.toNat
     fecIndex := UInt16.ofNat c.index.toNat
     fecGroupId := c.groupId.toUInt32
     lastPacketSize := 0 }, c.data⟩

section Packets

variable {p : Setup} {id : UInt32} {x : Datagram} {i : Nat} {data : List Gf}

/-- What a datagram that carries a known packet says. -/
theorem carries_packet (h : Carries x (packet p id i data)) :
    x.header.fecGroupId = id ∧ index x = i ∧ payload x = data ∧
      x.header.length.toNat = data.length := by
  refine ⟨UInt32.toUInt64_inj.mp h.group, ?_, ?_, h.length⟩
  · have := h.index
    simp only [packet] at this
    simp only [index]
    omega
  · have hp : data <+: x.data := h.data
    have hlen : x.header.length.toNat = data.length := h.length
    rw [payload, hlen]
    exact (List.prefix_iff_eq_take.mp hp).symm

theorem carries_fits (h : Carries x (packet p id i data)) (hi : i < p.n)
    (hlen : data.length ≤ maxFecPacketSize) : Fits p x := by
  obtain ⟨-, hidx, -, hl⟩ := carries_packet h
  refine ⟨hidx ▸ hi, hl ▸ hlen, ?_⟩
  have hp : data <+: x.data := h.data
  exact hl ▸ hp.length_le

theorem carry_carries (hi : i < p.n) (hlen : data.length ≤ maxFecPacketSize) :
    Carries (carry (packet p id i data)) (packet p id i data) := by
  have hb : p.n ≤ 128 := p.bound
  have hl : data.length ≤ 1300 := hlen
  refine ⟨?_, ?_, ?_, List.prefix_refl _⟩
  · simp [carry, packet]
  · simp only [carry, packet, Int.toNat_natCast, UInt16.toNat_ofNat']
    omega
  · simp only [carry, packet, UInt32.toNat_ofNat']
    omega

/-- The packets of a group are its `n` contents in order. -/
theorem group_packets {fec : FecParms} {input : Nat → Nat → Gf} {P : List (List Gf)}
    (hlen : P.length = p.k) :
    sources p id P ++ redundancy p fec id (filled input P) =
      (List.range p.n).map fun i => packet p id i (content p fec input P i) := by
  have hle := p.le
  have hrange : List.range p.n = List.range p.k ++ List.range' p.k (p.n - p.k) := by
    have h := List.range'_append_1 (s := 0) (m := p.k) (n := p.n - p.k)
    rw [Nat.zero_add, Nat.add_sub_cancel' hle] at h
    rw [List.range_eq_range', List.range_eq_range', h]
  rw [hrange, List.map_append]
  congr 1
  · apply List.ext_getElem (by simp [sources, hlen])
    intro i h₁ h₂
    have hi : i < p.k := by simpa [sources, hlen] using h₁
    have hiP : i < P.length := by omega
    simp [sources, content, hi, List.getD_eq_getElem?_getD, hiP]
  · apply List.map_congr_left
    intro i hi
    rw [content, if_neg (by have := (List.mem_range'_1.mp hi).1; omega)]

theorem content_length_le {fec : FecParms} {input : Nat → Nat → Gf} {P : List (List Gf)}
    (hP : ∀ data ∈ P, data.length ≤ maxFecPacketSize) :
    (content p fec input P i).length ≤ maxFecPacketSize := by
  rw [content]
  split
  · rw [List.getD_eq_getElem?_getD]
    rcases h : P[i]? with _ | data
    · simp
    · exact hP data (List.mem_of_getElem? h)
  · rw [bytes_length]
    exact p.size_le

end Packets

/-! ## A visit with exactly `k` different packets -/

section Visit

variable {p : Setup} {feed : List Datagram}

theorem held_feed (hfeed : ∀ x ∈ feed, index x < p.n) :
    held p (seen feed) = (feed.map index).dedup.length := by
  have hset : (Finset.range p.n).filter (fun i => seen feed i = true) = (feed.map index).toFinset := by
    ext i
    simp only [Finset.mem_filter, Finset.mem_range, seen_iff, List.mem_toFinset, List.mem_map]
    constructor
    · rintro ⟨-, h⟩; exact h
    · rintro ⟨x, hx, rfl⟩; exact ⟨hfeed x hx, x, hx, rfl⟩
  rw [held_eq_card, hset, List.card_toFinset]

/-- A feed of at most `k` different packets is clean. -/
theorem clean_of_held (hfeed : ∀ x ∈ feed, index x < p.n) (hle : held p (seen feed) ≤ p.k) :
    Clean p feed := by
  intro pre x post heq hk hs
  have hx : index x < p.n := hfeed x (by simp [heq])
  have hmono : held p (seen (pre ++ [x])) ≤ held p (seen feed) := by
    apply held_mono
    intro i _ hi
    rw [heq, show pre ++ x :: post = pre ++ [x] ++ post by simp]
    exact seen_mono hi
  rw [seen_concat, held_store hx hs] at hmono
  omega

/-- The `t`-th redundant packet fills the `t`-th empty place, and with exactly `k` packets
all of them are used. -/
theorem slotOf_surj {marks : Nat → Bool} (hk : held p marks = p.k) {j : Nat}
    (hj : j ∈ redundant p.k p.n marks) : ∃ i ∈ missing p.k marks, slotOf p.k p.n marks i = j := by
  have hlen := present_missing_length p.k marks
  have hle := missing_le_redundant.mpr hk.ge
  have hplaced := slotOf_placed p.le hle
  have hnodup : ((missing p.k marks).map (slotOf p.k p.n marks)).Nodup := by
    refine (List.nodup_range.filter _).map_on ?_
    intro a ha b hb hab
    exact hplaced.inj (mem_missing.mp ha).1 (mem_missing.mp hb).1 hab
  have hsub : (missing p.k marks).map (slotOf p.k p.n marks) ⊆ redundant p.k p.n marks := by
    intro s hs
    obtain ⟨i, hi, rfl⟩ := List.mem_map.mp hs
    exact slotOf_mem hle (mem_missing.mp hi).1 (mem_missing.mp hi).2
  have hperm := (hnodup.subperm hsub).perm_of_length_le (by rw [held] at hk; simp; omega)
  exact List.mem_map.mp (hperm.mem_iff.mpr hj)

/-- At one byte position: the recovered bytes are those of `enc` exactly when `enc` in the
empty places and the received bytes in the others explain the redundant packets used. -/
theorem recovered_iff_explains {fec : FecParms} (hcode : IsCode p.k p.n fec) {marks : Nat → Bool}
    (hle : (missing p.k marks).length ≤ (redundant p.k p.n marks).length)
    {mem : Nat → Nat → Gf} {b : Nat} {x : Nat → Gf} (enc : Nat → Gf)
    (hx : Solves fec mem (slotOf p.k p.n marks) (slotOf p.k p.n marks) b x) :
    (∀ i ∈ missing p.k marks, x i = enc i) ↔
      ∀ i ∈ missing p.k marks, mem (slotOf p.k p.n marks i) b =
        codeword fec (fun l b => if marks l then mem l b else enc l) (slotOf p.k p.n marks i) b := by
  have hown : ∀ r < p.k, marks r = true → x r = mem r b := by
    intro r hr hm
    have h := hx r (hcode.k_eq ▸ hr)
    rw [slotOf_marked hm] at h
    rw [h]
    exact (hcode.codeword_source (fun l _ => x l) hr b).symm
  constructor
  · intro hall i hi
    rw [hx i (hcode.k_eq ▸ (mem_missing.mp hi).1), codeword]
    apply Finset.sum_congr rfl
    intro l hl
    have hl' : l < p.k := hcode.k_eq ▸ Finset.mem_range.mp hl
    by_cases hm : marks l = true
    · rw [if_pos hm, hown l hl' hm]
    · rw [if_neg hm, hall l (mem_missing.mpr ⟨hl', by simpa using hm⟩)]
  · intro hall i hi
    have hy : Solves fec mem (slotOf p.k p.n marks) (slotOf p.k p.n marks) b
        fun l => if marks l then mem l b else enc l := by
      intro col hcol
      have hcol' : col < p.k := hcode.k_eq ▸ hcol
      by_cases hm : marks col = true
      · rw [slotOf_marked hm]
        have h := hcode.codeword_source (fun l b => if marks l then mem l b else enc l) hcol' b
        rw [if_pos hm] at h
        exact h.symm
      · exact hall col (mem_missing.mpr ⟨hcol', by simpa using hm⟩)
    obtain ⟨hi', hm⟩ := mem_missing.mp hi
    rw [hx.unique hcode (slotOf_placed p.le hle) hy i hi', hm, if_neg (by simp)]

/-- With genuine redundant packets this means that no redundant packet sees where the
received source bytes differ from `enc`. -/
theorem recovered_iff {fec : FecParms} (hcode : IsCode p.k p.n fec) {marks : Nat → Bool}
    (hk : held p marks = p.k) {mem : Nat → Nat → Gf} {b : Nat} {x enc : Nat → Gf}
    (hx : Solves fec mem (slotOf p.k p.n marks) (slotOf p.k p.n marks) b x)
    (hpar : ∀ j ∈ redundant p.k p.n marks, mem j b = codeword fec (fun l _ => enc l) j b) :
    (∀ i ∈ missing p.k marks, x i = enc i) ↔
      ∀ j ∈ redundant p.k p.n marks,
        ∑ r ∈ (Finset.range p.k).filter (fun r => marks r = true),
          fec.encMatrix j r * (mem r b - enc r) = 0 := by
  have hle := missing_le_redundant.mpr hk.ge
  have hdiff : ∀ j, codeword fec (fun l b => if marks l then mem l b else enc l) j b -
      codeword fec (fun l _ => enc l) j b =
      ∑ r ∈ (Finset.range p.k).filter (fun r => marks r = true),
        fec.encMatrix j r * (mem r b - enc r) := by
    intro j
    rw [codeword, codeword, hcode.k_eq, ← Finset.sum_sub_distrib, Finset.sum_filter]
    apply Finset.sum_congr rfl
    intro l _
    by_cases hm : marks l = true
    · rw [if_pos hm, if_pos hm, mul_sub]
    · rw [if_neg hm, if_neg hm, sub_self]
  rw [recovered_iff_explains hcode hle enc hx]
  constructor
  · intro hall j hj
    obtain ⟨i, hi, rfl⟩ := slotOf_surj hk hj
    rw [← hdiff, ← hall i hi, hpar _ hj, sub_self]
  · intro hzero i hi
    have hmem := slotOf_mem hle (mem_missing.mp hi).1 (mem_missing.mp hi).2
    rw [hpar _ hmem]
    exact (sub_eq_zero.mp ((hdiff _).trans (hzero _ hmem))).symm

end Visit

/-! ## Encoder and decoder together -/

/-- What is known after a visit with exactly `k` different packets of the group `P`:
`pre` is the part up to the `k`-th, `x` the recovered packets. -/
structure Outcome (p : Setup) (e d : FECGenerator) (P : List (List Gf)) (feed : List Datagram)
    (log : List (UInt64 × Int × List Gf)) (pre : List Datagram) (x : Nat → Nat → Gf) : Prop where
  exact : held p (seen pre) = p.k
  same : ∀ i < p.n, seen pre i = seen feed i
  payloads : ∀ i, seen pre i = true → first pre i = content p e.fec e.inputData P i
  solves : ∀ b, Solves e.fec (received d.inputData pre) (slotOf p.k p.n (seen pre))
    (slotOf p.k p.n (seen pre)) b fun l => x l b
  log_eq : log.Perm (delivered p e.lastGroupId pre ++ restored p e.lastGroupId (seen pre) x)

section Group

variable {p : Setup} {e d : FECGenerator} {P : List (List Gf)}

/-- A datagram that carries one of the packets that `Encode` emitted for the group. -/
def OfGroup (p : Setup) (e : FECGenerator) (P : List (List Gf)) (x : Datagram) : Prop :=
  ∃ i < p.n, Carries x (packet p e.lastGroupId i (content p e.fec e.inputData P i))

theorem group_outcome (he : Runs p e) (hd : Runs p d) (hv : Vacant d e.lastGroupId)
    (hP : ∀ data ∈ P, data.length ≤ maxFecPacketSize) {feed : List Datagram}
    (hfeed : ∀ x ∈ feed, OfGroup p e P x) (hk : (feed.map index).dedup.length = p.k) :
    ∃ d' log pre x, decodeAll d feed = some (d', log) ∧
      Outcome p e d P feed (log.map triple) pre x := by
  have hfits : ∀ x ∈ feed, Fits p x ∧ x.header.fecGroupId = e.lastGroupId := by
    intro x hx
    obtain ⟨i, hi, hc⟩ := hfeed x hx
    exact ⟨carries_fits hc hi (content_length_le hP), (carries_packet hc).1⟩
  have hidx : ∀ x ∈ feed, index x < p.n := fun x hx => (hfits x hx).1.index
  have hheld : held p (seen feed) = p.k := (held_feed hidx).trans hk
  have hne : feed ≠ [] := by
    rintro rfl
    have := p.pos
    simp at hk
    omega
  obtain ⟨d', log, hrun, hvis⟩ := visit_vacant hd hv hne hfits (clean_of_held hidx hheld.le)
  rcases hvis with ⟨few, -, -⟩ | ⟨-, -, pre, x, hpre, hexact, -, hsolves, hlog⟩
  · omega
  · have hsub : ∀ i < p.n, seen pre i = true → seen feed i = true := by
      intro i _ hi
      obtain ⟨post, rfl⟩ := hpre
      exact seen_mono hi
    refine ⟨d', log, pre, x, hrun, hexact, ?_, ?_, ?_, hlog⟩
    · intro i hi
      exact held_agree hsub (by omega) hi
    · intro i hi
      refine first_eq (content p e.fec e.inputData P) ?_ hi
      intro y hy
      obtain ⟨j, hj, hc⟩ := hfeed y (hpre.subset hy)
      obtain ⟨-, hidx, hpay, -⟩ := carries_packet hc
      rw [hpay, hidx]
    · rwa [Runs.fec_eq hd he] at hsolves

/-- A redundant buffer holds the redundant bytes. -/
theorem Outcome.parity {feed pre : List Datagram} {log : List (UInt64 × Int × List Gf)}
    {x : Nat → Nat → Gf} (h : Outcome p e d P feed log pre x) {b : Nat} (hb : b < p.size) :
    ∀ j ∈ redundant p.k p.n (seen pre),
      received d.inputData pre j b = codeword e.fec (fun l _ => filled e.inputData P l b) j b := by
  intro j hj
  obtain ⟨hjk, -, hm⟩ := (mem_redundant p.le).mp hj
  have hcontent : content p e.fec e.inputData P j =
      bytes (codeword e.fec (filled e.inputData P) j) p.size := if_neg (by omega)
  rw [received, if_pos hm, h.payloads j hm, hcontent, copyBytes, bytes_length, if_pos hb,
    buffer_bytes hb]
  rfl

/-- A source buffer holds the payload, followed by what was there before. -/
theorem Outcome.source {feed pre : List Datagram} {log : List (UInt64 × Int × List Gf)}
    {x : Nat → Nat → Gf} (h : Outcome p e d P feed log pre x) {r b : Nat} (hr : r < p.k)
    (hm : seen pre r = true) :
    received d.inputData pre r b - filled e.inputData P r b =
      if (P.getD r []).length ≤ b then d.inputData r b - e.inputData r b else 0 := by
  have hcontent : content p e.fec e.inputData P r = P.getD r [] := if_pos hr
  rw [received, if_pos hm, h.payloads r hm, hcontent]
  by_cases hb : (P.getD r []).length ≤ b
  · rw [if_pos hb, filled_ge hb, copyBytes, if_neg (by omega)]
  · rw [if_neg hb, filled_lt (by omega), copyBytes, if_pos (by omega), sub_self]

/-- What is delivered for a source place, whichever way it came. -/
theorem Outcome.mem_missing_iff {feed pre : List Datagram}
    {log : List (UInt64 × Int × List Gf)} {x : Nat → Nat → Gf} (h : Outcome p e d P feed log pre x)
    {i : Nat} (hi : i ∈ missing p.k (seen pre)) (data : List Gf) :
    (e.lastGroupId.toUInt64, (i : Int), data) ∈ log ↔ bytes (x i) p.size = data := by
  rw [h.log_eq.mem_iff, List.mem_append, delivered, restored, List.mem_map, List.mem_map]
  constructor
  · rintro (⟨j, hj, heq⟩ | ⟨j, -, heq⟩)
    · simp only [Prod.mk.injEq, Int.natCast_inj, true_and] at heq
      obtain ⟨rfl, -⟩ := heq
      have h₁ := (mem_present.mp hj).2
      rw [(mem_missing.mp hi).2] at h₁
      cases h₁
    · simp only [Prod.mk.injEq, Int.natCast_inj, true_and] at heq
      obtain ⟨rfl, rfl⟩ := heq
      rfl
  · rintro rfl
    exact Or.inr ⟨i, hi, rfl⟩

/-- The bytes behind short payloads do not disturb the recovery: no payload is missing that
has another size than the redundant packets, and in each redundant packet that arrived what
the decoder's and the encoder's buffers hold behind the payloads that arrived cancels out. -/
structure TailsCancel (p : Setup) (fec : FecParms) (encoder decoder : Nat → Nat → Gf)
    (P : List (List Gf)) (feed : List Datagram) : Prop where
  size : ∀ i < p.k, seen feed i = false → (P.getD i []).length = p.size
  cancel : ∀ j, p.k ≤ j → j < p.n → seen feed j = true → ∀ b < p.size,
    ∑ r ∈ (Finset.range p.k).filter (fun r => seen feed r = true ∧ (P.getD r []).length ≤ b),
      fec.encMatrix j r * (decoder r b - encoder r b) = 0

theorem Outcome.cancel_iff {feed pre : List Datagram} {log : List (UInt64 × Int × List Gf)}
    {x : Nat → Nat → Gf} (he : Runs p e) (h : Outcome p e d P feed log pre x) {b : Nat}
    (hb : b < p.size) :
    (∀ i ∈ missing p.k (seen pre), x i b = filled e.inputData P i b) ↔
      ∀ j, p.k ≤ j → j < p.n → seen feed j = true →
        ∑ r ∈ (Finset.range p.k).filter (fun r => seen feed r = true ∧ (P.getD r []).length ≤ b),
          e.fec.encMatrix j r * (d.inputData r b - e.inputData r b) = 0 := by
  have hle := p.le
  have hsum : ∀ j, ∑ r ∈ (Finset.range p.k).filter (fun r => seen pre r = true),
      e.fec.encMatrix j r * (received d.inputData pre r b - filled e.inputData P r b) =
      ∑ r ∈ (Finset.range p.k).filter (fun r => seen feed r = true ∧ (P.getD r []).length ≤ b),
        e.fec.encMatrix j r * (d.inputData r b - e.inputData r b) := by
    intro j
    rw [Finset.sum_filter, Finset.sum_filter]
    apply Finset.sum_congr rfl
    intro r hr
    have hr' := Finset.mem_range.mp hr
    rw [← h.same r (by omega)]
    by_cases hm : seen pre r = true
    · rw [if_pos hm, h.source hr' hm]
      by_cases hlen : (P.getD r []).length ≤ b
      · rw [if_pos hlen, if_pos ⟨hm, hlen⟩]
      · rw [if_neg hlen, if_neg (fun hc => hlen hc.2), mul_zero]
    · rw [if_neg hm, if_neg (fun hc => hm hc.1)]
  rw [recovered_iff he.isCode h.exact (h.solves b) (h.parity hb)]
  simp only [hsum, mem_redundant hle]
  constructor
  · intro hall j hjk hjn hm
    exact hall j ⟨hjk, hjn, (h.same j hjn).trans hm⟩
  · rintro hall j ⟨hjk, hjn, hm⟩
    exact hall j hjk hjn ((h.same j hjn).symm.trans hm)

/-- When the missing payloads come back as they were. -/
theorem Outcome.restores_iff {feed pre : List Datagram} {log : List (UInt64 × Int × List Gf)}
    {x : Nat → Nat → Gf} (he : Runs p e) (h : Outcome p e d P feed log pre x) :
    (∀ i < p.k, seen feed i = false → (e.lastGroupId.toUInt64, (i : Int), P.getD i []) ∈ log) ↔
      TailsCancel p e.fec e.inputData d.inputData P feed := by
  have hle := p.le
  have hmiss : ∀ {i}, i ∈ missing p.k (seen pre) ↔ i < p.k ∧ seen feed i = false := by
    intro i
    rw [mem_missing]
    constructor
    · rintro ⟨hi, hm⟩; exact ⟨hi, (h.same i (by omega)).symm.trans hm⟩
    · rintro ⟨hi, hm⟩; exact ⟨hi, (h.same i (by omega)).trans hm⟩
  constructor
  · intro hall
    have hbytes : ∀ i ∈ missing p.k (seen pre), bytes (x i) p.size = P.getD i [] := by
      intro i hi
      exact (h.mem_missing_iff hi _).mp (hall i (hmiss.mp hi).1 (hmiss.mp hi).2)
    have hsize : ∀ i ∈ missing p.k (seen pre), (P.getD i []).length = p.size := by
      intro i hi
      rw [← hbytes i hi, bytes_length]
    refine ⟨fun i hi hm => hsize i (hmiss.mpr ⟨hi, hm⟩), ?_⟩
    intro j hjk hjn hm b hb
    refine (h.cancel_iff he hb).mp ?_ j hjk hjn hm
    intro i hi
    rw [filled_lt (by rw [hsize i hi]; exact hb), ← hbytes i hi, buffer_bytes hb]
  · rintro ⟨hsize, hcancel⟩ i hi hm
    rw [h.mem_missing_iff (hmiss.mpr ⟨hi, hm⟩)]
    have hlen := hsize i hi hm
    calc bytes (x i) p.size = bytes (buffer (P.getD i [])) p.size := by
          apply bytes_congr
          intro b hb
          rw [(h.cancel_iff he hb).mpr (fun j hjk hjn hm => hcancel j hjk hjn hm b hb) i
            (hmiss.mpr ⟨hi, hm⟩), filled_lt (by rw [hlen]; exact hb)]
      _ = P.getD i [] := by rw [← hlen, bytes_buffer]

/-- With payloads of the right size everything comes back. -/
theorem Outcome.delivers {feed pre : List Datagram} {log : List (UInt64 × Int × List Gf)}
    {x : Nat → Nat → Gf} (he : Runs p e) (h : Outcome p e d P feed log pre x)
    (hlen : P.length = p.k) (hsize : ∀ data ∈ P, data.length = p.size) :
    log.Perm ((List.range p.k).map fun i : Nat =>
      (e.lastGroupId.toUInt64, (i : Int), P.getD i [])) := by
  have hle := p.le
  have hget : ∀ i < p.k, (P.getD i []).length = p.size := by
    intro i hi
    have hi' : i < P.length := by omega
    rw [List.getD_eq_getElem _ _ hi']
    exact hsize _ (List.getElem_mem hi')
  have htails : TailsCancel p e.fec e.inputData d.inputData P feed := by
    refine ⟨fun i hi _ => hget i hi, ?_⟩
    intro j _ _ _ b hb
    refine Finset.sum_eq_zero fun r hr => ?_
    simp only [Finset.mem_filter, Finset.mem_range] at hr
    have := hget r hr.1
    omega
  have hrestored : restored p e.lastGroupId (seen pre) x = (missing p.k (seen pre)).map fun i : Nat =>
      (e.lastGroupId.toUInt64, (i : Int), P.getD i []) := by
    apply List.map_congr_left
    intro i hi
    obtain ⟨hik, hm⟩ := mem_missing.mp hi
    have hmem := (h.restores_iff he).mpr htails i hik ((h.same i (by omega)).symm.trans hm)
    rw [(h.mem_missing_iff hi _).mp hmem]
  have hdelivered : delivered p e.lastGroupId pre = (present p.k (seen pre)).map fun i : Nat =>
      (e.lastGroupId.toUInt64, (i : Int), P.getD i []) := by
    apply List.map_congr_left
    intro i hi
    obtain ⟨hik, hm⟩ := mem_present.mp hi
    rw [h.payloads i hm, content, if_pos hik]
  refine h.log_eq.trans ?_
  rw [hrestored, hdelivered, ← List.map_append]
  exact (present_missing_perm _ _).map _

/-- The group as `Encode` emits it, and what a decoder does with its datagrams. -/
theorem encode_group (he : Runs p e) (h₀ : e.packetCount = 0) (hlen : P.length = p.k)
    (hP : ∀ data ∈ P, data.length ≤ maxFecPacketSize) :
    ∃ e' packets, encodeAll e P = some (e', packets) ∧
      packets = (List.range p.n).map (fun i =>
        packet p e.lastGroupId i (content p e.fec e.inputData P i)) ∧
      ∀ x, (∃ c ∈ packets, Carries x c) → OfGroup p e P x := by
  obtain ⟨e', hrun, -⟩ := encodeAll_group he h₀ hP hlen
  rw [group_packets hlen] at hrun
  refine ⟨e', _, hrun, rfl, ?_⟩
  rintro x ⟨c, hc, hx⟩
  obtain ⟨i, hi, rfl⟩ := List.mem_map.mp hc
  exact ⟨i, List.mem_range.mp hi, hx⟩

end Group

/-- The datagrams of a selection of the packets. -/
def carryAll (p : Setup) (e : FECGenerator) (P : List (List Gf)) (indices : List Nat) :
    List Datagram :=
  indices.map fun i => carry (packet p e.lastGroupId i (content p e.fec e.inputData P i))

theorem carryAll_spec {p : Setup} {e : FECGenerator} {P : List (List Gf)} (indices : List Nat)
    (hidx : ∀ i ∈ indices, i < p.n) (hP : ∀ data ∈ P, data.length ≤ maxFecPacketSize) :
    (∀ x ∈ carryAll p e P indices, ∃ c ∈ (List.range p.n).map (fun i =>
      packet p e.lastGroupId i (content p e.fec e.inputData P i)), Carries x c) ∧
    (carryAll p e P indices).map index = indices := by
  have hcarry : ∀ i ∈ indices, Carries
      (carry (packet p e.lastGroupId i (content p e.fec e.inputData P i)))
      (packet p e.lastGroupId i (content p e.fec e.inputData P i)) := fun i hi =>
    carry_carries (hidx i hi) (content_length_le hP)
  constructor
  · intro x hx
    obtain ⟨i, hi, rfl⟩ := List.mem_map.mp hx
    exact ⟨_, List.mem_map.mpr ⟨i, List.mem_range.mpr (hidx i hi), rfl⟩, hcarry i hi⟩
  · rw [carryAll, List.map_map, List.map_congr_left fun i hi => ?_, List.map_id]
    exact (carries_packet (hcarry i hi)).2.1

section Main

variable {p : Setup} {inputE outputE inputD outputD : Nat → Nat → Gf} {e₀ e d₀ d : FECGenerator}
  {earlier : List (List Gf)} {history : List Datagram} {out log₀ : List Callback}
  {P : List (List Gf)}

/-- Any `k` different packets of a group of full-size payloads, in any order and with any
repetitions, make the decoder deliver each source payload exactly once. -/
theorem recovery_from_any_k (hnewE : new inputE outputE p.k p.n p.size = some e₀)
    (hearlier : encodeAll e₀ earlier = some (e, out)) (hwhole : p.k ∣ earlier.length)
    (hnewD : new inputD outputD p.k p.n p.size = some d₀)
    (hhistory : decodeAll d₀ history = some (d, log₀))
    (hother : history = [] ∨ d.lastGroupId ≠ e.lastGroupId)
    (hlen : P.length = p.k) (hsize : ∀ data ∈ P, data.length = p.size) :
    ∃ e' packets, encodeAll e P = some (e', packets) ∧
      packets.map (fun c => c.index) = (List.range p.n).map (fun i : Nat => (i : Int)) ∧
      ∀ feed : List Datagram, (∀ x ∈ feed, ∃ c ∈ packets, Carries x c) →
        (feed.map index).dedup.length = p.k →
        ∃ d' log, decodeAll d feed = some (d', log) ∧
          (log.map triple).Perm ((List.range p.k).map fun i : Nat =>
            (e.lastGroupId.toUInt64, (i : Int), P.getD i [])) := by
  obtain ⟨he, h₀⟩ := between_groups hnewE hearlier hwhole
  obtain ⟨hd, hv⟩ := vacant_of_run hnewD hhistory hother
  have hP : ∀ data ∈ P, data.length ≤ maxFecPacketSize := fun data hdata =>
    (hsize data hdata).trans_le p.size_le
  obtain ⟨e', packets, hrun, hpackets, hcarry⟩ := encode_group he h₀ hlen hP
  refine ⟨e', packets, hrun, by rw [hpackets, List.map_map]; rfl, ?_⟩
  intro feed hfeed hk
  obtain ⟨d', log, pre, x, hdec, hout⟩ :=
    group_outcome he hd hv hP (fun x hx => hcarry x (hfeed x hx)) hk
  exact ⟨d', log, hdec, hout.delivers he hlen hsize⟩

/-- With payloads of any size, the payloads that did not arrive come back unchanged exactly
when the bytes behind short payloads cancel out. -/
theorem recovery_of_any_size_iff (hnewE : new inputE outputE p.k p.n p.size = some e₀)
    (hearlier : encodeAll e₀ earlier = some (e, out)) (hwhole : p.k ∣ earlier.length)
    (hnewD : new inputD outputD p.k p.n p.size = some d₀)
    (hhistory : decodeAll d₀ history = some (d, log₀))
    (hother : history = [] ∨ d.lastGroupId ≠ e.lastGroupId)
    (hlen : P.length = p.k) (hP : ∀ data ∈ P, data.length ≤ maxFecPacketSize) :
    ∃ e' packets, encodeAll e P = some (e', packets) ∧
      ∀ feed : List Datagram, (∀ x ∈ feed, ∃ c ∈ packets, Carries x c) →
        (feed.map index).dedup.length = p.k →
        ∃ d' log, decodeAll d feed = some (d', log) ∧
          ((∀ i < p.k, seen feed i = false →
              (e.lastGroupId.toUInt64, (i : Int), P.getD i []) ∈ log.map triple) ↔
            TailsCancel p e.fec e.inputData d.inputData P feed) := by
  obtain ⟨he, h₀⟩ := between_groups hnewE hearlier hwhole
  obtain ⟨hd, hv⟩ := vacant_of_run hnewD hhistory hother
  obtain ⟨e', packets, hrun, -, hcarry⟩ := encode_group he h₀ hlen hP
  refine ⟨e', packets, hrun, ?_⟩
  intro feed hfeed hk
  obtain ⟨d', log, pre, x, hdec, hout⟩ :=
    group_outcome he hd hv hP (fun x hx => hcarry x (hfeed x hx)) hk
  exact ⟨d', log, hdec, hout.restores_iff he⟩

end Main

/-! ## Small groups -/

/-- Two source packets and one redundant packet, one byte each. -/
def twoOfThree : Setup := ⟨2, 3, 1, by decide, by decide, by decide, by decide, by decide⟩

/-- One source packet and one redundant packet of two bytes. -/
def oneOfTwo : Setup := ⟨1, 2, 2, by decide, by decide, by decide, by decide, by decide⟩

/-- Two source packets and two redundant packets of one byte. -/
def twoOfFour : Setup := ⟨2, 4, 1, by decide, by decide, by decide, by decide, by decide⟩

/-- Two source packets and one redundant packet of two bytes. -/
def twoOfThreeLong : Setup := ⟨2, 3, 2, by decide, by decide, by decide, by decide, by decide⟩

/-- A first group and its packets. -/
theorem exists_group (p : Setup) {P : List (List Gf)} (hlen : P.length = p.k)
    (hP : ∀ data ∈ P, data.length ≤ maxFecPacketSize) :
    ∃ e₀ e' packets, new (fun _ _ => 0) (fun _ _ => 0) p.k p.n p.size = some e₀ ∧ Fresh p e₀ ∧
      encodeAll e₀ P = some (e', packets) ∧
      packets = (List.range p.n).map (fun i =>
        packet p e₀.lastGroupId i (content p e₀.fec e₀.inputData P i)) ∧
      ∀ x, (∃ c ∈ packets, Carries x c) → OfGroup p e₀ P x := by
  obtain ⟨e₀, hnew, -⟩ := new_runs p (fun _ _ => 0) (fun _ _ => 0)
  have hfresh := new_fresh hnew
  obtain ⟨e', packets, h⟩ := encode_group hfresh.runs hfresh.count hlen hP
  exact ⟨e₀, e', packets, hnew, hfresh, h⟩

theorem recovery_from_two_of_three : ∃ e₀ e' packets d' log,
    new (fun _ _ => 0) (fun _ _ => 0) 2 3 1 = some e₀ ∧
      encodeAll e₀ [[0], [1]] = some (e', packets) ∧
      decodeAll e₀ ((packets.drop 1).reverse.map carry) = some (d', log) ∧
      (log.map triple).Perm [(0, 0, [0]), (0, 1, [1])] := by
  have hP : ∀ data ∈ ([[0], [1]] : List (List Gf)), data.length = 1 := by simp
  have hP' : ∀ data ∈ ([[0], [1]] : List (List Gf)), data.length ≤ maxFecPacketSize :=
    fun data hd => (hP data hd).trans_le (by decide)
  obtain ⟨e₀, e', packets, hnew, hfresh, hrun, hpackets, -⟩ :=
    exists_group twoOfThree (P := [[0], [1]]) rfl hP'
  obtain ⟨e'', packets', hrun', -, hall⟩ := recovery_from_any_k (p := twoOfThree) (P := [[0], [1]])
    hnew (show encodeAll e₀ [] = some (e₀, []) from rfl) ⟨0, rfl⟩ hnew
    (show decodeAll e₀ [] = some (e₀, []) from rfl) (Or.inl rfl) rfl hP
  rw [hrun] at hrun'
  cases hrun'
  obtain ⟨hcarry, hidx⟩ := carryAll_spec (p := twoOfThree) (e := e₀) (P := [[0], [1]])
    [2, 1] (by decide) hP'
  have hfeed : (packets.drop 1).reverse.map carry = carryAll twoOfThree e₀ [[0], [1]] [2, 1] := by
    rw [hpackets]
    rfl
  obtain ⟨d', log, hdec, hlog⟩ := hall ((packets.drop 1).reverse.map carry)
    (by rw [hfeed, hpackets]; exact hcarry) (by rw [hfeed, hidx]; rfl)
  refine ⟨e₀, e', packets, d', log, hnew, hrun, hdec, ?_⟩
  rw [hfresh.group] at hlog
  exact hlog

theorem recovery_of_any_size_two_of_three : ∃ e₀ e' packets d' log,
    new (fun _ _ => 0) (fun _ _ => 0) 2 3 1 = some e₀ ∧
      encodeAll e₀ [[0], [1]] = some (e', packets) ∧
      decodeAll e₀ ((packets.drop 1).reverse.map carry) = some (d', log) ∧
      ((∀ i < 2, seen ((packets.drop 1).reverse.map carry) i = false →
          (0, (i : Int), [[0], [1]].getD i []) ∈ log.map triple) ↔
        TailsCancel twoOfThree e₀.fec e₀.inputData e₀.inputData [[0], [1]]
          ((packets.drop 1).reverse.map carry)) := by
  have hP : ∀ data ∈ ([[0], [1]] : List (List Gf)), data.length ≤ maxFecPacketSize := by
    simp [maxFecPacketSize]
  obtain ⟨e₀, e', packets, hnew, hfresh, hrun, hpackets, -⟩ :=
    exists_group twoOfThree (P := [[0], [1]]) rfl hP
  obtain ⟨e'', packets', hrun', hall⟩ := recovery_of_any_size_iff (p := twoOfThree)
    (P := [[0], [1]]) hnew (show encodeAll e₀ [] = some (e₀, []) from rfl) ⟨0, rfl⟩ hnew
    (show decodeAll e₀ [] = some (e₀, []) from rfl) (Or.inl rfl) rfl hP
  rw [hrun] at hrun'
  cases hrun'
  obtain ⟨hcarry, hidx⟩ := carryAll_spec (p := twoOfThree) (e := e₀) (P := [[0], [1]])
    [2, 1] (by decide) hP
  have hfeed : (packets.drop 1).reverse.map carry = carryAll twoOfThree e₀ [[0], [1]] [2, 1] := by
    rw [hpackets]
    rfl
  obtain ⟨d', log, hdec, hlog⟩ := hall ((packets.drop 1).reverse.map carry)
    (by rw [hfeed, hpackets]; exact hcarry) (by rw [hfeed, hidx]; rfl)
  refine ⟨e₀, e', packets, d', log, hnew, hrun, hdec, ?_⟩
  rw [hfresh.group] at hlog
  exact hlog

/-- A lost payload shorter than the redundant packets comes back with another size. -/
theorem recovery_of_short_payload_fails : ∃ e₀ e' packets d' log,
    new (fun _ _ => 0) (fun _ _ => 0) 1 2 2 = some e₀ ∧
      encodeAll e₀ [[1]] = some (e', packets) ∧
      decodeAll e₀ ((packets.drop 1).map carry) = some (d', log) ∧
      (packets.drop 1).map (fun c => c.index) = [1] ∧ (0, 0, [1]) ∉ log.map triple := by
  have hP : ∀ data ∈ ([[1]] : List (List Gf)), data.length ≤ maxFecPacketSize := by
    simp [maxFecPacketSize]
  obtain ⟨e₀, e', packets, hnew, hfresh, hrun, hpackets, hgroup⟩ :=
    exists_group oneOfTwo (P := [[1]]) rfl hP
  obtain ⟨hcarry, hidx⟩ := carryAll_spec (p := oneOfTwo) (e := e₀) (P := [[1]])
    [1] (by decide) hP
  have hfeed : (packets.drop 1).map carry = carryAll oneOfTwo e₀ [[1]] [1] := by
    rw [hpackets]
    rfl
  obtain ⟨d', log, pre, x, hdec, hout⟩ := group_outcome hfresh.runs hfresh.runs (hfresh.vacant _) hP
    (show ∀ y ∈ (packets.drop 1).map carry, OfGroup oneOfTwo e₀ [[1]] y from
      fun y hy => hgroup y (by rw [hpackets]; exact hcarry y (hfeed ▸ hy)))
    (by rw [hfeed, hidx]; rfl)
  refine ⟨e₀, e', packets, d', log, hnew, hrun, hdec, by rw [hpackets]; rfl, ?_⟩
  have hunseen : seen ((packets.drop 1).map carry) 0 = false := by
    rw [← Bool.not_eq_true, seen_iff, hfeed]
    rintro ⟨y, hy, h₀⟩
    have hmem : index y ∈ (carryAll oneOfTwo e₀ [[1]] [1]).map index := List.mem_map.mpr ⟨y, hy, rfl⟩
    rw [hidx, h₀] at hmem
    simp at hmem
  have hmiss : 0 ∈ missing oneOfTwo.k (seen pre) :=
    mem_missing.mpr ⟨by decide, (hout.same 0 (by decide)).trans hunseen⟩
  intro hmem
  have hbytes := (hout.mem_missing_iff hmiss [1]).mp (by rw [hfresh.group]; exact hmem)
  have hlen := congrArg List.length hbytes
  rw [bytes_length] at hlen
  exact absurd hlen (by decide)

end FecRecovery
