import TransportDemo.FecDecoder

/-!
# What a run of `Encode` hands out

Every source packet is handed out unchanged. The redundant packets of a group
are computed from the buffers, which hold the payloads of the group in their
first bytes and whatever earlier groups left there after them.
-/

namespace FecEncoder

open CountedLoop FecField FecMatrix FecCode FecGenerator FecDecoder

/-- The buffers after the source packets `P` of a group were stored. -/
def filled (input : Nat → Nat → Gf) (P : List (List Gf)) (j : Nat) : Nat → Gf :=
  copyBytes (input j) (buffer (P.getD j [])) (P.getD j []).length

theorem filled_nil (input : Nat → Nat → Gf) : filled input [] = input := by
  funext j b
  simp [filled, copyBytes]

theorem filled_append (input : Nat → Nat → Gf) (P : List (List Gf)) (data : List Gf) :
    store (filled input P) P.length
      (copyBytes (filled input P P.length) (buffer data) data.length) =
    filled input (P ++ [data]) := by
  funext j
  by_cases hj : j = P.length
  · subst j
    rw [store_same]
    funext b
    simp [filled, copyBytes, List.getD_eq_getElem?_getD]
  · rw [store_other _ _ hj]
    rcases Nat.lt_or_gt_of_ne hj with hlt | hgt
    · simp [filled, List.getD_eq_getElem?_getD, List.getElem?_append_left hlt]
    · have h1 : P[j]? = none := List.getElem?_eq_none (by omega)
      have h2 : (P ++ [data])[j]? = none := List.getElem?_eq_none (by simp; omega)
      simp [filled, List.getD_eq_getElem?_getD, h1, h2]

theorem filled_lt {input : Nat → Nat → Gf} {P : List (List Gf)} {j b : Nat}
    (h : b < (P.getD j []).length) : filled input P j b = buffer (P.getD j []) b := by
  rw [filled, copyBytes, if_pos h]

theorem filled_ge {input : Nat → Nat → Gf} {P : List (List Gf)} {j b : Nat}
    (h : (P.getD j []).length ≤ b) : filled input P j b = input j b := by
  rw [filled, copyBytes, if_neg (by omega)]

theorem bytes_buffer (data : List Gf) : bytes (buffer data) data.length = data := by
  apply List.ext_getElem (by simp [bytes])
  intro b h _
  have hb : b < data.length := by simpa [bytes] using h
  simp [bytes, buffer, List.getD_eq_getElem?_getD, hb]

theorem bytes_length (buf : Nat → Gf) (size : Nat) : (bytes buf size).length = size := by
  simp [bytes]

theorem buffer_bytes {buf : Nat → Gf} {size b : Nat} (hb : b < size) :
    buffer (bytes buf size) b = buf b := by
  simp [buffer, bytes, List.getD_eq_getElem?_getD, hb]

/-- The output buffer of a source packet begins with the packet. -/
theorem fecEncode_source {k n : Nat} {code : FecParms} (h : IsCode k n code)
    (input : Nat → Nat → Gf) (output : Nat → Gf) {c : Nat} (hc : c < k) (data : List Gf) :
    bytes (fecEncode code (store input c (copyBytes (input c) (buffer data) data.length)) output c
      data.length) data.length = data := by
  rw [fecEncode_eq h _ _ (hc.trans_le h.le)]
  calc bytes (copyBytes output (codeword code
        (store input c (copyBytes (input c) (buffer data) data.length)) c) data.length) data.length
      = bytes (buffer data) data.length := by
        apply bytes_congr
        intro b hb
        rw [copyBytes, if_pos hb, h.codeword_source _ hc]
        simp only [store_same, copyBytes, if_pos hb]
    _ = data := bytes_buffer data

/-! ## One call -/

section Step

variable {p : Setup} {g : FECGenerator} {data : List Gf} {c : Nat}

theorem encodeSource_eq (hg : Runs p g) (hc : g.packetCount = c) (hck : c < p.k)
    (hlen : data.length ≤ maxFecPacketSize) :
    ∃ output, encodeSource g data = some ({ g with
      inputData := store g.inputData c (copyBytes (g.inputData c) (buffer data) data.length)
      outputData := output
      packetCount := int16 (c + 1)
      rawPacketCount := int16 (g.rawPacketCount + 1) }, [packet p g.lastGroupId c data]) := by
  have hn := hck.trans_le p.le
  have hb := p.bound
  let input := store g.inputData c (copyBytes (g.inputData c) (buffer data) data.length)
  have hdata : bytes (fecEncode g.fec input (g.outputData c) c data.length) data.length = data :=
    fecEncode_source hg.isCode g.inputData (g.outputData c) hck data
  refine ⟨store g.outputData c (fecEncode g.fec input (g.outputData c) c data.length), ?_⟩
  have hguard : (0 : Int) ≤ c ∧ (c : Int) < kMaxN ∧ data.length ≤ maxFecPacketSize :=
    ⟨by omega, by omega, hlen⟩
  simp only [encodeSource, hc, if_pos hguard, Int.toNat_natCast, store_same, packet, hg.fecK,
    hg.fecN]
  simp only [input] at hdata ⊢
  rw [hdata]

/-- The redundant packets of the group in the buffers. -/
theorem encodeRedundant_loop (hg : Runs p g) (out : List Callback) (m : Nat) (hm : p.k + m ≤ p.n) :
    ∃ output count, loopOption m (fun i => encodeRedundant (p.k + i)) (g, out) =
      some ({ g with outputData := output, packetCount := count },
        out ++ (List.range' p.k m).map fun i =>
          packet p g.lastGroupId i (bytes (codeword g.fec g.inputData i) p.size)) := by
  induction m with
  | zero => exact ⟨g.outputData, g.packetCount, by simp [loopOption]⟩
  | succ m ih =>
    obtain ⟨output, count, h⟩ := ih (by omega)
    have hb := p.bound
    let fec := fecEncode g.fec g.inputData (output (p.k + m)) (p.k + m) p.size
    have hbytes : bytes fec p.size = bytes (codeword g.fec g.inputData (p.k + m)) p.size := by
      apply bytes_congr
      intro b hb
      simp only [fec]
      rw [fecEncode_eq hg.isCode _ _ (by omega), copyBytes, if_pos hb]
    refine ⟨store output (p.k + m) fec, int16 (count + 1), ?_⟩
    rw [loopOption, h, Option.bind_some, encodeRedundant, hg.size]
    rw [if_pos ⟨by omega, sizeFits_size p⟩]
    simp only [store_same, List.range'_1_concat, List.map_append, List.map_singleton, ← hbytes,
      Int.toNat_natCast, hg.fecK, hg.fecN, packet, List.append_assoc, fec]

/-- A call that does not complete the group. -/
theorem encode_source (hg : Runs p g) (hc : g.packetCount = c) (hck : c + 1 < p.k)
    (hlen : data.length ≤ maxFecPacketSize) :
    ∃ g', encode g data = some (g', [packet p g.lastGroupId c data]) ∧ Runs p g' ∧
      g'.packetCount = c + 1 ∧ g'.lastGroupId = g.lastGroupId ∧
      g'.inputData = store g.inputData c (copyBytes (g.inputData c) (buffer data) data.length) := by
  obtain ⟨output, h⟩ := encodeSource_eq hg hc (by omega) hlen
  have hb : p.n ≤ 128 := p.bound
  have hle := p.le
  have hint : int16 ((c : Int) + 1) = c + 1 := int16_of_small (by omega) (by omega)
  rw [hint] at h
  refine ⟨{ g with
      inputData := store g.inputData c (copyBytes (g.inputData c) (buffer data) data.length)
      outputData := output
      packetCount := c + 1
      rawPacketCount := int16 (g.rawPacketCount + 1) }, ?_,
    ⟨hg.code, hg.fecK, hg.fecN, hg.size⟩, rfl, rfl, rfl⟩
  have hlt : (c : Int) + 1 < p.k := by omega
  simp [encode, hc, hg.fecK, h, show (c : Int) < p.k by omega, hlt]

/-- The call that completes the group. -/
theorem encode_last (hg : Runs p g) (hc : g.packetCount = c) (hck : c + 1 = p.k)
    (hlen : data.length ≤ maxFecPacketSize) :
    ∃ g', encode g data = some (g', packet p g.lastGroupId c data ::
        (List.range' p.k (p.n - p.k)).map fun i =>
          packet p g.lastGroupId i (bytes (codeword g.fec g'.inputData i) p.size)) ∧ Runs p g' ∧
      g'.packetCount = 0 ∧ g'.lastGroupId = g.lastGroupId + 1 ∧
      g'.inputData = store g.inputData c (copyBytes (g.inputData c) (buffer data) data.length) := by
  obtain ⟨output, h⟩ := encodeSource_eq hg hc (by omega) hlen
  have hb : p.n ≤ 128 := p.bound
  have hle := p.le
  have hint : int16 ((c : Int) + 1) = p.k := by
    rw [int16_of_small (by omega) (by omega)]
    omega
  rw [hint] at h
  obtain ⟨output', count, hloop⟩ := encodeRedundant_loop (p := p) (g := { g with
      inputData := store g.inputData c (copyBytes (g.inputData c) (buffer data) data.length)
      outputData := output
      packetCount := p.k
      rawPacketCount := int16 (g.rawPacketCount + 1) }) ⟨hg.code, hg.fecK, hg.fecN, hg.size⟩
    [packet p g.lastGroupId c data] (p.n - p.k) (by omega)
  refine ⟨clear { g with
      inputData := store g.inputData c (copyBytes (g.inputData c) (buffer data) data.length)
      outputData := output'
      packetCount := count
      rawPacketCount := int16 (g.rawPacketCount + 1)
      lastGroupId := g.lastGroupId + 1 }, ?_, ⟨hg.code, hg.fecK, hg.fecN, hg.size⟩, rfl, rfl, rfl⟩
  simp only [hg.fecK, hg.fecN] at hloop
  simp [encode, hc, hg.fecK, hg.fecN, h, show (c : Int) < p.k by omega, hloop, clear]

end Step

/-! ## A group -/

theorem encodeAll_append (g : FECGenerator) (P Q : List (List Gf)) :
    encodeAll g (P ++ Q) = (encodeAll g P).bind fun s =>
      (encodeAll s.1 Q).map fun s' => (s'.1, s.2 ++ s'.2) := by
  induction P generalizing g with
  | nil => simp [encodeAll]
  | cons data P ih =>
    rw [List.cons_append, encodeAll, encodeAll]
    rcases encode g data with _ | ⟨g', out⟩
    · rfl
    · rcases hP : encodeAll g' P with _ | ⟨g'', out'⟩
      · simp [ih, hP]
      · rcases hQ : encodeAll g'' Q with _ | ⟨g₃, out''⟩ <;> simp [ih, hP, hQ]

/-- The source packets of a group, as far as its payloads are known. -/
def sources (p : Setup) (id : UInt32) (P : List (List Gf)) : List Callback :=
  P.mapIdx fun i data => packet p id i data

/-- The redundant packets computed from the buffers. -/
def redundancy (p : Setup) (fec : FecParms) (id : UInt32) (input : Nat → Nat → Gf) : List Callback :=
  (List.range' p.k (p.n - p.k)).map fun i => packet p id i (bytes (codeword fec input i) p.size)

section Group

variable {p : Setup} {e : FECGenerator}

/-- The beginning of a group. -/
theorem encodeAll_partial (he : Runs p e) (h₀ : e.packetCount = 0) {P : List (List Gf)}
    (hP : ∀ data ∈ P, data.length ≤ maxFecPacketSize) (hlen : P.length < p.k) :
    ∃ e', encodeAll e P = some (e', sources p e.lastGroupId P) ∧ Runs p e' ∧
      e'.packetCount = P.length ∧ e'.lastGroupId = e.lastGroupId ∧
      e'.inputData = filled e.inputData P := by
  induction P using List.reverseRecOn with
  | nil => exact ⟨e, rfl, he, h₀, rfl, (filled_nil _).symm⟩
  | append_singleton P data ih =>
    rw [List.length_append, List.length_singleton] at hlen
    obtain ⟨g, hg, hr, hc, hid, hin⟩ := ih (fun d hd => hP d (by simp [hd])) (by omega)
    obtain ⟨g', hg', hr', hc', hid', hin'⟩ := encode_source hr hc hlen (hP data (by simp))
    refine ⟨g', ?_, hr', by rw [hc']; simp, hid'.trans hid, ?_⟩
    · rw [encodeAll_append, hg, Option.bind_some, encodeAll, hg', hid]
      simp [encodeAll, sources, List.mapIdx_append]
    · rw [hin', hin, filled_append]

/-- A whole group. -/
theorem encodeAll_group (he : Runs p e) (h₀ : e.packetCount = 0) {P : List (List Gf)}
    (hP : ∀ data ∈ P, data.length ≤ maxFecPacketSize) (hlen : P.length = p.k) :
    ∃ e', encodeAll e P = some (e', sources p e.lastGroupId P ++
        redundancy p e.fec e.lastGroupId (filled e.inputData P)) ∧ Runs p e' ∧
      e'.packetCount = 0 ∧ e'.lastGroupId = e.lastGroupId + 1 ∧
      e'.inputData = filled e.inputData P := by
  have hpos := p.pos
  rcases List.eq_nil_or_concat P with rfl | ⟨Q, data, rfl⟩
  · simp at hlen
    omega
  · rw [List.concat_eq_append] at hP hlen ⊢
    rw [List.length_append, List.length_singleton] at hlen
    obtain ⟨g, hg, hr, hc, hid, hin⟩ :=
      encodeAll_partial he h₀ (P := Q) (fun d hd => hP d (by simp [hd])) (by omega)
    obtain ⟨g', hg', hr', hc', hid', hin'⟩ := encode_last hr hc hlen (hP data (by simp))
    rw [hin, filled_append] at hin'
    have hfec : g.fec = e.fec := Option.some_inj.mp (hr.code.symm.trans he.code)
    refine ⟨g', ?_, hr', hc', by rw [hid', hid], hin'⟩
    rw [encodeAll_append, hg, Option.bind_some, encodeAll, hg', hid, hin', hfec]
    simp [encodeAll, sources, redundancy, List.mapIdx_append]

end Group

/-! ## A run over any number of groups -/

/-- A packet of group `G` of a run over `payloads`: a payload, or a codeword of buffers
that begin with the payloads of the group. -/
structure Emitted (p : Setup) (fec : FecParms) (id : UInt32) (payloads : List (List Gf))
    (c : Callback) (G i : Nat) : Prop where
  lt : i < p.n
  eq : c = packet p (id + UInt32.ofNat G) i c.data
  source : i < p.k → payloads[G * p.k + i]? = some c.data
  redundant : p.k ≤ i → (G + 1) * p.k ≤ payloads.length ∧
    ∃ buf : Nat → Nat → Gf, c.data = bytes (codeword fec buf i) p.size ∧
      ∀ l < p.k, ∀ data, payloads[G * p.k + l]? = some data →
        ∀ b < data.length, buf l b = buffer data b

section Run

variable {p : Setup}

theorem emitted_source {fec : FecParms} {id : UInt32} {P : List (List Gf)} (hlen : P.length ≤ p.k)
    {c : Callback} (hc : c ∈ sources p id P) : ∃ i, Emitted p fec id P c 0 i := by
  obtain ⟨i, hi, rfl⟩ := List.mem_mapIdx.mp hc
  have hle := p.le
  refine ⟨i, ⟨by omega, by simp [packet], ?_, by intro; omega⟩⟩
  intro _
  simp [packet, List.getElem?_eq_getElem hi]

theorem emitted_redundancy {fec : FecParms} {id : UInt32} {P : List (List Gf)}
    (hlen : P.length = p.k) {input : Nat → Nat → Gf} {c : Callback}
    (hc : c ∈ redundancy p fec id (filled input P)) : ∃ i, Emitted p fec id P c 0 i := by
  obtain ⟨i, hi, rfl⟩ := List.mem_map.mp hc
  rw [List.mem_range'_1] at hi
  refine ⟨i, ⟨by omega, by simp [packet], by intro; omega, ?_⟩⟩
  intro _
  refine ⟨by omega, filled input P, rfl, ?_⟩
  intro l hl data hdata b hb
  rw [Nat.zero_mul, Nat.zero_add] at hdata
  have hget : P.getD l [] = data := by rw [List.getD_eq_getElem?_getD, hdata, Option.getD_some]
  rw [← hget] at hb ⊢
  exact filled_lt hb

/-- What a group emits belongs to the payloads that begin with it. -/
theorem Emitted.append_right {fec : FecParms} {id : UInt32} {P Q : List (List Gf)} {c : Callback}
    {G i : Nat} (h : Emitted p fec id P c G i) : Emitted p fec id (P ++ Q) c G i := by
  have hget : ∀ {m : Nat} {data : List Gf}, P[m]? = some data → (P ++ Q)[m]? = some data := by
    intro m data hm
    rw [List.getElem?_append_left (List.getElem?_eq_some_iff.mp hm).1, hm]
  refine ⟨h.lt, h.eq, fun hi => hget (h.source hi), ?_⟩
  intro hi
  obtain ⟨hlen, buf, hdata, hbuf⟩ := h.redundant hi
  refine ⟨by rw [List.length_append]; omega, buf, hdata, ?_⟩
  intro l hl data hd
  apply hbuf l hl data
  have hlt : G * p.k + l < P.length := by rw [Nat.add_mul] at hlen; omega
  rwa [List.getElem?_append_left hlt] at hd

/-- What later groups emit, seen from the first. -/
theorem Emitted.append_left {fec : FecParms} {id : UInt32} {P Q : List (List Gf)}
    (hlen : P.length = p.k) {c : Callback} {G i : Nat} (h : Emitted p fec (id + 1) Q c G i) :
    Emitted p fec id (P ++ Q) c (G + 1) i := by
  have hget : ∀ l, (P ++ Q)[(G + 1) * p.k + l]? = Q[G * p.k + l]? := by
    intro l
    rw [List.getElem?_append_right (by rw [hlen, Nat.add_mul]; omega), hlen, Nat.add_mul]
    congr 1
    omega
  refine ⟨h.lt, ?_, fun hi => (hget i).trans (h.source hi), ?_⟩
  · have hid : id + UInt32.ofNat (G + 1) = id + 1 + UInt32.ofNat G := by
      rw [UInt32.ofNat_add, add_comm (UInt32.ofNat G), ← add_assoc]
      rfl
    rw [hid]
    exact h.eq
  · intro hi
    obtain ⟨hle, buf, hdata, hbuf⟩ := h.redundant hi
    refine ⟨by rw [List.length_append, hlen, Nat.add_mul]; omega, buf, hdata, ?_⟩
    intro l hl data hd
    exact hbuf l hl data (by rwa [hget] at hd)

/-- Every run of `Encode` succeeds, and its packets are those of its groups. -/
theorem encodeAll_run {e : FECGenerator} (he : Runs p e) (h₀ : e.packetCount = 0)
    (payloads : List (List Gf)) (hP : ∀ data ∈ payloads, data.length ≤ maxFecPacketSize) :
    ∃ e' out, encodeAll e payloads = some (e', out) ∧ Runs p e' ∧
      e'.packetCount = (payloads.length % p.k : Nat) ∧
      ∀ c ∈ out, ∃ G i, Emitted p e.fec e.lastGroupId payloads c G i := by
  have hpos := p.pos
  by_cases hlt : payloads.length < p.k
  · obtain ⟨e', hrun, hr, hc, -, -⟩ := encodeAll_partial he h₀ hP hlt
    refine ⟨e', _, hrun, hr, by rw [hc, Nat.mod_eq_of_lt hlt], fun c hc => ⟨0, ?_⟩⟩
    exact emitted_source (by omega) hc
  · have hsplit := List.take_append_drop p.k payloads
    have hlen : (payloads.take p.k).length = p.k := by rw [List.length_take]; omega
    obtain ⟨g, hg, hr, hc, hid, -⟩ := encodeAll_group he h₀ (P := payloads.take p.k)
      (fun data hd => hP data (List.mem_of_mem_take hd)) hlen
    obtain ⟨e', out, hrun, hr', hc', hout⟩ := encodeAll_run hr hc (payloads.drop p.k)
      fun data hd => hP data (List.mem_of_mem_drop hd)
    have hfec : g.fec = e.fec := Option.some_inj.mp (hr.code.symm.trans he.code)
    have hall := encodeAll_append e (payloads.take p.k) (payloads.drop p.k)
    rw [hsplit, hg, Option.bind_some, hrun, Option.map_some] at hall
    refine ⟨e', _, hall, hr', ?_, ?_⟩
    · rw [hc', List.length_drop, ← Nat.mod_eq_sub_mod (by omega)]
    · intro c hc
      rw [← hsplit]
      rcases List.mem_append.mp hc with hc | hc
      · have : ∃ i, Emitted p e.fec e.lastGroupId (payloads.take p.k) c 0 i := by
          rcases List.mem_append.mp hc with hc | hc
          · exact emitted_source hlen.le hc
          · exact emitted_redundancy hlen hc
        obtain ⟨i, hi⟩ := this
        exact ⟨0, i, hi.append_right⟩
      · obtain ⟨G, i, hi⟩ := hout c hc
        rw [hfec, hid] at hi
        exact ⟨G + 1, i, hi.append_left hlen⟩
termination_by payloads.length

/-- A run that stays inside the arrays had payloads that fit the buffers. -/
theorem encodeAll_fits {payloads : List (List Gf)} {e e' : FECGenerator} {out : List Callback}
    {c : Nat} (he : Runs p e) (hc : e.packetCount = c) (hck : c < p.k)
    (hrun : encodeAll e payloads = some (e', out)) :
    ∀ data ∈ payloads, data.length ≤ maxFecPacketSize := by
  induction payloads generalizing e c out with
  | nil => simp
  | cons data rest ih =>
    have hlen : data.length ≤ maxFecPacketSize := by
      by_contra hlong
      have hnone : encode e data = none := by
        simp [encode, encodeSource, hc, he.fecK, hck, hlong]
      simp [encodeAll, hnone] at hrun
    have hnext : ∃ g out₁ c', encode e data = some (g, out₁) ∧ Runs p g ∧
        g.packetCount = (c' : Nat) ∧ c' < p.k := by
      by_cases hlast : c + 1 = p.k
      · obtain ⟨g, hg, hr, hz, -⟩ := encode_last he hc hlast hlen
        exact ⟨g, _, 0, hg, hr, hz, p.pos⟩
      · obtain ⟨g, hg, hr, hs, -⟩ := encode_source he hc (by omega) hlen
        exact ⟨g, _, c + 1, hg, hr, by rw [hs]; rfl, by omega⟩
    obtain ⟨g, out₁, c', hg, hr, hc', hck'⟩ := hnext
    rcases hrest : encodeAll g rest with _ | ⟨g', out₂⟩
    · simp [encodeAll, hg, hrest] at hrun
    · have he' : g' = e' := by
        simp only [encodeAll, hg, hrest, Option.bind_eq_bind, Option.bind_some, Option.some.injEq,
          Prod.mk.injEq, pure] at hrun
        exact hrun.1
      intro data' hd
      rcases List.mem_cons.mp hd with rfl | hd
      · exact hlen
      · exact ih hr hc' hck' (he' ▸ hrest) data' hd

end Run

end FecEncoder
