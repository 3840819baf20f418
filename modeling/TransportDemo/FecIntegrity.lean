import TransportDemo.FecDelivery

/-!
# What is delivered

The buffers of the source packets that are there always hold their payloads:
the recovery writes into buffers of redundant packets only. Those it does
overwrite, and keeps their marks, so a later recovery of the same group may take
a source packet for a redundant one. The payloads delivered are right exactly as
long as that does not happen.
-/

namespace FecIntegrity

open CountedLoop FecField FecCode FecGenerator FecDecoder FecEncoder FecVisit FecRecovery FecDelivery

/-- The payloads of a group: identifiers count the groups of a run from zero on. -/
def payloadOf (p : Setup) (payloads : List (List Gf)) (id : UInt32) (i : Nat) : List Gf :=
  payloads.getD (id.toNat * p.k + i) []

/-- A delivery of the right payload. -/
def Delivers (p : Setup) (src : UInt32 → Nat → List Gf) (c : Callback) : Prop :=
  ∃ id : UInt32, ∃ i < p.k, triple c = (id.toUInt64, (i : Int), src id i)

/-- A datagram of a run whose groups have the payloads `src`. -/
structure Genuine (p : Setup) (fec : FecParms) (src : UInt32 → Nat → List Gf) (x : Datagram) :
    Prop where
  fits : Fits p x
  source : index x < p.k →
    payload x = src x.header.fecGroupId (index x) ∧ (payload x).length = p.size
  redundant : p.k ≤ index x → (∀ i < p.k, (src x.header.fecGroupId i).length = p.size) ∧
    payload x = bytes (codeword fec (fun l => buffer (src x.header.fecGroupId l)) (index x)) p.size

/-- The source buffers hold their payloads. -/
structure Sound (p : Setup) (src : UInt32 → Nat → List Gf) (g : FECGenerator) : Prop where
  runs : Runs p g
  source : ∀ i < p.k, g.usedMarks i = true → ∀ b < p.size,
    g.inputData i b = buffer (src g.lastGroupId i) b
  size : ∀ j, p.k ≤ j → g.usedMarks j = true → ∀ i < p.k, (src g.lastGroupId i).length = p.size

/-- The redundant buffers that a recovery takes hold the bytes of their packets. -/
def Unspoilt (p : Setup) (src : UInt32 → Nat → List Gf) (g : FECGenerator) : Prop :=
  Ready p g → ∀ i ∈ missing p.k g.usedMarks, ∀ b < p.size,
    g.inputData (slotOf p.k p.n g.usedMarks i) b =
      codeword g.fec (fun l => buffer (src g.lastGroupId l)) (slotOf p.k p.n g.usedMarks i) b

/-- The same for the recovery of the call that receives `x`. -/
def Intact (p : Setup) (src : UInt32 → Nat → List Gf) (g : FECGenerator) (x : Datagram) : Prop :=
  ∀ g₁ out, arrive (enterGroup g x.header) x.header x.data = some (g₁, out) → Unspoilt p src g₁

/-- The same for every call of a run. -/
def IntactRun (p : Setup) (src : UInt32 → Nat → List Gf) : FECGenerator → List Datagram → Prop
  | _, [] => True
  | g, x :: rest => Intact p src g x ∧
      ∀ g' out, decode g x.header x.data = some (g', out) → IntactRun p src g' rest

section Step

variable {p : Setup} {src : UInt32 → Nat → List Gf} {g g' : FECGenerator} {x : Datagram}

theorem fresh_sound (h : Fresh p g) : Sound p src g := by
  refine ⟨h.runs, ?_, ?_⟩
  · intro i _ hm
    rw [h.marks] at hm
    cases hm
  · intro j _ hm
    rw [h.marks] at hm
    cases hm

theorem Sound.enter (h : Sound p src g) : Sound p src (enterGroup g x.header) := by
  by_cases hg : g.lastGroupId = x.header.fecGroupId
  · obtain ⟨size, he⟩ := enterGroup_same hg
    rw [he]
    exact ⟨⟨h.runs.code, h.runs.fecK, h.runs.fecN, h.runs.size⟩, h.source, h.size⟩
  · obtain ⟨size, he⟩ := enterGroup_other hg
    rw [he]
    refine ⟨⟨h.runs.code, h.runs.fecK, h.runs.fecN, h.runs.size⟩, ?_, ?_⟩
    · intro i _ hm
      cases hm
    · intro j _ hm
      cases hm

theorem Sound.accept {fec : FecParms} (h : Sound p src g) (hid : g.lastGroupId = x.header.fecGroupId)
    (hx : Genuine p fec src x) : Sound p src (accept p g x) := by
  refine ⟨accept_runs h.runs, ?_, ?_⟩
  · intro i hi hm b hb
    simp only [FecDecoder.accept] at hm ⊢
    by_cases he : i = index x
    · subst i
      obtain ⟨hpay, hlen⟩ := hx.source hi
      rw [store_same, copyBytes, if_pos (hlen ▸ hb), hpay, hid]
    · rw [store_other _ _ he] at hm ⊢
      exact h.source i hi hm b hb
  · intro j hj hm
    simp only [FecDecoder.accept] at hm ⊢
    by_cases he : j = index x
    · subst j
      rw [hid]
      exact (hx.redundant hj).1
    · rw [store_other _ _ he] at hm
      exact h.size j hj hm

theorem handOn_delivers {fec : FecParms} (hid : g.lastGroupId = x.header.fecGroupId)
    (hx : Genuine p fec src x) : ∀ c ∈ handOn p g x, Delivers p src c := by
  intro c hc
  rw [handOn] at hc
  split at hc
  · next hk =>
    rw [List.mem_singleton] at hc
    subst hc
    exact ⟨_, index x, hk, by rw [triple, (hx.source hk).1, ← hid]⟩
  · cases hc

/-- A recovery delivers the right payloads exactly when it takes unspoilt buffers. -/
theorem recover_sound (h : Sound p src g) :
    ∃ g' out, recover g = some (g', out) ∧ Sound p src g' ∧
      ((∀ c ∈ out, Delivers p src c) ↔ Unspoilt p src g) := by
  by_cases hr : Ready p g
  · obtain ⟨g', x, hrec, hres⟩ := recover_ready h.runs hr
    refine ⟨g', _, hrec, ?_, ?_⟩
    · have hframe : ∀ i < p.k, ∀ b, g'.inputData i b = g.inputData i b := by
        intro i hi b
        apply hres.frame
        intro _ m hm hslot
        have := ((mem_redundant p.le).mp (slotOf_mem hr.enough (mem_missing.mp hm).1
          (mem_missing.mp hm).2)).1
        omega
      rw [hres.state]
      refine ⟨⟨h.runs.code, h.runs.fecK, h.runs.fecN, h.runs.size⟩, ?_, h.size⟩
      intro i hi hm b hb
      exact (hframe i hi b).trans (h.source i hi hm b hb)
    · have hsize : ∀ i ∈ missing p.k g.usedMarks, (src g.lastGroupId i).length = p.size := by
        intro i hi
        obtain ⟨hik, hm⟩ := mem_missing.mp hi
        obtain ⟨hj, -, hmj⟩ := (mem_redundant p.le).mp (slotOf_mem hr.enough hik hm)
        exact h.size _ hj hmj i hik
      have hout : (∀ c ∈ (missing p.k g.usedMarks).map (fun i =>
          packet p g.lastGroupId i (bytes (x i) p.size)), Delivers p src c) ↔
          ∀ i ∈ missing p.k g.usedMarks, bytes (x i) p.size = src g.lastGroupId i := by
        constructor
        · intro hall i hi
          obtain ⟨id, j, -, heq⟩ := hall _ (List.mem_map.mpr ⟨i, hi, rfl⟩)
          simp only [triple, packet, Prod.mk.injEq, UInt32.toUInt64_inj, Int.natCast_inj] at heq
          obtain ⟨rfl, rfl, hdata⟩ := heq
          exact hdata
        · intro hall c hc
          obtain ⟨i, hi, rfl⟩ := List.mem_map.mp hc
          exact ⟨_, i, (mem_missing.mp hi).1, by rw [triple, packet, hall i hi]⟩
      have hbytes : (∀ i ∈ missing p.k g.usedMarks, bytes (x i) p.size = src g.lastGroupId i) ↔
          ∀ b < p.size, ∀ i ∈ missing p.k g.usedMarks, x i b = buffer (src g.lastGroupId i) b := by
        constructor
        · intro hall b hb i hi
          rw [← hall i hi, buffer_bytes hb]
        · intro hall i hi
          rw [bytes_congr fun b hb => hall b hb i hi, ← hsize i hi, bytes_buffer]
      have hword : ∀ b < p.size, ∀ i,
          codeword g.fec (fun l b => if g.usedMarks l then g.inputData l b
            else buffer (src g.lastGroupId l) b) i b =
          codeword g.fec (fun l => buffer (src g.lastGroupId l)) i b := by
        intro b hb i
        refine h.runs.isCode.codeword_congr (fun l hl => ?_) i
        by_cases hm : g.usedMarks l = true
        · rw [if_pos hm, h.source l hl hm b hb]
        · rw [if_neg hm]
      rw [hout, hbytes]
      constructor
      · intro hall _ i hi b hb
        rw [← hword b hb]
        exact (recovered_iff_explains h.runs.isCode hr.enough
          (fun l => buffer (src g.lastGroupId l) b) (hres.solves b)).mp (hall b hb) i hi
      · intro hun b hb
        refine (recovered_iff_explains h.runs.isCode hr.enough
          (fun l => buffer (src g.lastGroupId l) b) (hres.solves b)).mpr ?_
        intro i hi
        exact (hun hr i hi b hb).trans (hword b hb _).symm
  · refine ⟨g, [], recover_idle h.runs hr, h, ?_⟩
    constructor
    · exact fun _ hr' => absurd hr' hr
    · intro _ c hc
      cases hc

/-- One call of `Decode`. -/
theorem decode_sound {fec : FecParms} (h : Sound p src g) (hx : Genuine p fec src x) :
    ∃ g' out, decode g x.header x.data = some (g', out) ∧ Sound p src g' ∧
      ((∀ c ∈ out, Delivers p src c) ↔ Intact p src g x) := by
  have h₁ : Sound p src (enterGroup g x.header) := h.enter
  have harrive : ∃ g₁ out, arrive (enterGroup g x.header) x.header x.data = some (g₁, out) ∧
      Sound p src g₁ ∧ ∀ c ∈ out, Delivers p src c := by
    by_cases hs : (enterGroup g x.header).usedMarks (index x) = true
    · refine ⟨_, _, arrive_seen hx.fits hs, h₁, ?_⟩
      intro c hc
      cases hc
    · exact ⟨_, _, arrive_fresh h₁.runs hx.fits (by simpa using hs), h₁.accept enterGroup_group hx,
        handOn_delivers enterGroup_group hx⟩
  obtain ⟨g₁, out, ha, hsound, hout⟩ := harrive
  obtain ⟨g₂, out₂, hrec, hsound₂, hiff⟩ := recover_sound hsound
  refine ⟨g₂, _, decode_eq ha hrec, hsound₂, ?_⟩
  have hintact : Intact p src g x ↔ Unspoilt p src g₁ := by
    constructor
    · exact fun hi => hi g₁ out ha
    · intro hu g' out' ha'
      rw [ha] at ha'
      cases ha'
      exact hu
  rw [hintact, ← hiff, List.forall_mem_append]
  exact and_iff_right hout

/-- A run delivers right payloads only exactly as long as its recoveries take unspoilt buffers. -/
theorem decodeAll_sound {fec : FecParms} {feed : List Datagram} (h : Sound p src g)
    (hfeed : ∀ x ∈ feed, Genuine p fec src x) :
    ∃ g' log, decodeAll g feed = some (g', log) ∧ Sound p src g' ∧
      ((∀ c ∈ log, Delivers p src c) ↔ IntactRun p src g feed) := by
  induction feed generalizing g with
  | nil => exact ⟨g, [], rfl, h, by simp [IntactRun]⟩
  | cons x rest ih =>
    obtain ⟨g₁, out, hdec, h₁, hiff⟩ := decode_sound h (hfeed x (by simp))
    obtain ⟨g₂, log, hrest, h₂, hiff₂⟩ := ih h₁ fun y hy => hfeed y (by simp [hy])
    refine ⟨g₂, out ++ log, by simp [decodeAll, hdec, hrest], h₂, ?_⟩
    rw [List.forall_mem_append, hiff, hiff₂, IntactRun]
    refine and_congr_right fun _ => ⟨?_, fun hall => hall g₁ out hdec⟩
    intro hrun g' out' hdec'
    rw [hdec] at hdec'
    cases hdec'
    exact hrun

end Step

/-! ## Clean visits spoil nothing -/

section Clean

variable {p : Setup} {fec : FecParms} {src : UInt32 → Nat → List Gf} {id : UInt32}
  {input : Nat → Nat → Gf} {feed : List Datagram} {g : FECGenerator}

/-- Before the first recovery of a visit every redundant buffer is as it arrived. -/
theorem counted_unspoilt (h : Counted p id input feed g) (hfec : g.fec = fec)
    (hfeed : ∀ x ∈ feed, Genuine p fec src x ∧ x.header.fecGroupId = id) : Unspoilt p src g := by
  intro hr i hi b hb
  have hj := slotOf_mem hr.enough (mem_missing.mp hi).1 (mem_missing.mp hi).2
  obtain ⟨hjk, -, hm⟩ := (mem_redundant p.le).mp hj
  generalize slotOf p.k p.n g.usedMarks i = j at hjk hm
  rw [h.marks] at hm
  have hfirst : first feed j = bytes (codeword fec (fun l => buffer (src id l)) j) p.size := by
    have hpay : ∀ x ∈ feed, payload x = if p.k ≤ index x then
        bytes (codeword fec (fun l => buffer (src id l)) (index x)) p.size
      else src id (index x) := by
      intro x hx
      obtain ⟨hgen, hid⟩ := hfeed x hx
      by_cases hk : p.k ≤ index x
      · rw [if_pos hk, ← hid]
        exact (hgen.redundant hk).2
      · rw [if_neg hk, ← hid]
        exact (hgen.source (by omega)).1
    have hcontent := first_eq (fun j => if p.k ≤ j then
      bytes (codeword fec (fun l => buffer (src id l)) j) p.size else src id j) hpay hm
    rw [hcontent, if_pos hjk]
  rw [h.input, h.group, hfec, received, if_pos hm, hfirst, bytes_length, copyBytes, if_pos hb,
    buffer_bytes hb]

theorem intactRun_concat (x : Datagram) : IntactRun p src g (feed ++ [x]) ↔
    IntactRun p src g feed ∧ ∀ g' log, decodeAll g feed = some (g', log) → Intact p src g' x := by
  induction feed generalizing g with
  | nil => simp [IntactRun, decodeAll]
  | cons y rest ih =>
    rw [List.cons_append, IntactRun, IntactRun, and_assoc]
    refine and_congr_right fun _ => ?_
    rcases hdec : decode g y.header y.data with _ | ⟨g₁, out⟩
    · simp [decodeAll, hdec]
    · have hone : ∀ (P : FECGenerator → Prop),
          (∀ g' out', some (g₁, out) = some (g', out') → P g') ↔ P g₁ := by
        intro P
        simp
      rw [hone, hone, ih]
      refine and_congr_right fun _ => ⟨?_, ?_⟩
      · intro h g' log hrun
        rcases hrest : decodeAll g₁ rest with _ | ⟨g₂, log₂⟩
        · simp [decodeAll, hdec, hrest] at hrun
        · simp only [decodeAll, hdec, hrest, Option.bind_eq_bind, Option.bind_some, pure,
            Option.some.injEq, Prod.mk.injEq] at hrun
          exact hrun.1 ▸ h g₂ log₂ hrest
      · intro h g' log hrest
        exact h g' (out ++ log) (by simp [decodeAll, hdec, hrest])

theorem clean_intact {g₀ : FECGenerator} (h₀ : Counted p id input [] g₀) (hfec : g₀.fec = fec)
    (hfeed : ∀ x ∈ feed, Genuine p fec src x ∧ x.header.fecGroupId = id) (hclean : Clean p feed) :
    IntactRun p src g₀ feed := by
  induction feed using List.reverseRecOn with
  | nil => trivial
  | append_singleton feed x ih =>
    have hold : ∀ y ∈ feed, Genuine p fec src y ∧ y.header.fecGroupId = id := fun y hy =>
      hfeed y (by simp [hy])
    obtain ⟨hx, hid⟩ := hfeed x (by simp)
    rw [intactRun_concat]
    refine ⟨ih hold hclean.of_concat, ?_⟩
    intro g log hrun g₁ out ha
    obtain ⟨g', log', hrun', hvis⟩ := visit_run h₀
      (fun y hy => ⟨(hold y hy).1.fits, (hold y hy).2⟩) hclean.of_concat
    rw [hrun] at hrun'
    cases hrun'
    rcases hvis with ⟨few, counted, -⟩ | ⟨enough, done, -, -, -, -, -, -, -⟩
    · have hent := counted.enter hid
      by_cases hs : seen feed (index x) = true
      · rw [arrive_seen hx.fits (by rw [hent.marks]; exact hs)] at ha
        cases ha
        exact counted_unspoilt hent ((Runs.fec_eq hent.runs h₀.runs).trans hfec) hold
      · have hs' : seen feed (index x) = false := by simpa using hs
        rw [arrive_fresh hent.runs hx.fits (by rw [hent.marks]; exact hs')] at ha
        cases ha
        have hacc := hent.accept hx.fits hs'
        exact counted_unspoilt hacc ((Runs.fec_eq hacc.runs h₀.runs).trans hfec) hfeed
    · have hent := done.enter hid
      intro hr
      refine absurd ?_ hr.raw
      by_cases hs : seen feed (index x) = true
      · rw [arrive_seen hx.fits (by rw [hent.marks]; exact hs)] at ha
        cases ha
        exact hent.raw
      · have hs' : seen feed (index x) = false := by simpa using hs
        have hk : ¬index x < p.k := fun hk => by
          have := hclean feed x [] rfl hk hs'
          omega
        rw [arrive_fresh hent.runs hx.fits (by rw [hent.marks]; exact hs')] at ha
        cases ha
        exact (if_neg hk).trans hent.raw

/-- A clean visit delivers right payloads only. -/
theorem clean_delivers {g' : FECGenerator} {log : List Callback} (hg : Runs p g)
    (hvac : Vacant g (groupOf feed)) (hv : IsVisit feed) (hfec : g.fec = fec)
    (hfeed : ∀ x ∈ feed, Genuine p fec src x) (hclean : Clean p feed)
    (h : decodeAll g feed = some (g', log)) : ∀ c ∈ log, Delivers p src c := by
  obtain ⟨x, rest, rfl⟩ := List.exists_cons_of_ne_nil hv.ne_nil
  have hid := hv.group x (by simp)
  rw [← hid] at hvac
  have h₀ := enterGroup_counted hg hvac
  have hfec₀ : (enterGroup g x.header).fec = fec := (Runs.fec_eq h₀.runs hg).trans hfec
  have hsound : Sound p src (enterGroup g x.header) := by
    refine ⟨h₀.runs, ?_, ?_⟩
    · intro i _ hm
      rw [h₀.marks] at hm
      cases hm
    · intro j _ hm
      rw [h₀.marks] at hm
      cases hm
  have hintact := clean_intact h₀ hfec₀
    (fun y hy => ⟨hfeed y hy, (hv.group y hy).trans hid.symm⟩) hclean
  obtain ⟨g₁, log₁, hrun, -, hiff⟩ := decodeAll_sound hsound hfeed
  rw [decodeAll_enter, h] at hrun
  cases hrun
  exact hiff.mpr hintact

/-- So a run of clean visits does. -/
theorem clean_run_delivers {d : FECGenerator} (hd : Fresh p d)
    (hfeed : ∀ x ∈ feed, Genuine p d.fec src x) (hclean : ∀ v ∈ visits feed, Clean p v) :
    ∃ d' log, decodeAll d feed = some (d', log) ∧ ∀ c ∈ log, Delivers p src c := by
  have hmem : ∀ v ∈ visits feed, IsVisit v ∧ ∀ x ∈ v, Fits p x := fun v hv =>
    ⟨isVisit_of_mem hv, fun x hx => (hfeed x (mem_of_visit hv hx)).fits⟩
  obtain ⟨d', logs, hrun, hall⟩ := decodeAll_visits (fun _ log => ∀ c ∈ log, Delivers p src c)
    hmem (visits_chain feed)
    (fun v hv g log g' hg hvac h => clean_delivers hg hvac (isVisit_of_mem hv)
      (Runs.fec_eq hg hd.runs) (fun x hx => hfeed x (mem_of_visit hv hx)) (hclean v hv) h) hd.runs
    fun v _ => hd.vacant _
  rw [visits, List.flatten_splitBy] at hrun
  refine ⟨d', logs.flatten, hrun, ?_⟩
  generalize visits feed = vs at hall
  clear hrun hclean
  induction hall with
  | nil => simp
  | @cons v log vs logs hv _ ih =>
    rw [List.flatten_cons, List.forall_mem_append]
    exact ⟨hv, ih⟩

end Clean

/-! ## Datagrams of a run -/

section Run

variable {p : Setup} {payloads : List (List Gf)}

theorem genuine_of_emitted {fec : FecParms} (hcode : IsCode p.k p.n fec) {c : Callback} {G i : Nat}
    {x : Datagram}
    (hsize : ∀ data ∈ payloads, data.length = p.size) (hids : payloads.length ≤ p.k * 2 ^ 32)
    (hc : Emitted p fec 0 payloads c G i) (hx : Carries x c) :
    Genuine p fec (payloadOf p payloads) x := by
  have hfits := emitted_fits (fun data hd => (hsize data hd).trans_le p.size_le) hc hx
  rw [hc.eq] at hx
  obtain ⟨hid, hidx, hpay, -⟩ := carries_packet hx
  have hG : G < 2 ^ 32 := by
    have hlen : G * p.k < payloads.length := by
      by_cases hi : i < p.k
      · have := (List.getElem?_eq_some_iff.mp (hc.source hi)).1
        omega
      · have := (hc.redundant (by omega)).1
        have := p.pos
        rw [Nat.add_mul] at *
        omega
    by_contra hge
    have := Nat.mul_le_mul_right p.k (Nat.le_of_not_lt hge)
    rw [Nat.mul_comm p.k] at hids
    omega
  have hnat : x.header.fecGroupId.toNat = G := by
    rw [hid, zero_add]
    exact UInt32.toNat_ofNat_of_lt hG
  refine ⟨hfits, ?_, ?_⟩
  · intro hk
    rw [hidx] at hk
    have hget := hc.source hk
    rw [hpay, hidx, payloadOf, hnat, List.getD_eq_getElem?_getD, hget, Option.getD_some]
    exact ⟨rfl, hsize _ (List.mem_of_getElem? hget)⟩
  · intro hk
    rw [hidx] at hk
    obtain ⟨hlen, buf, hdata, hbuf⟩ := hc.redundant hk
    have hget : ∀ l < p.k, payloads[G * p.k + l]? =
        some (payloadOf p payloads x.header.fecGroupId l) := by
      intro l hl
      have hlt : G * p.k + l < payloads.length := by
        rw [Nat.add_mul] at hlen
        omega
      rw [payloadOf, hnat, List.getD_eq_getElem?_getD, List.getElem?_eq_getElem hlt, Option.getD_some]
    have hlength : ∀ l < p.k, (payloadOf p payloads x.header.fecGroupId l).length = p.size :=
      fun l hl => hsize _ (List.mem_of_getElem? (hget l hl))
    refine ⟨hlength, ?_⟩
    rw [hpay, hidx, hdata]
    apply bytes_congr
    intro b hb
    refine hcode.codeword_congr (fun l hl => ?_) i
    exact hbuf l hl _ (hget l hl) b (by rw [hlength l hl]; exact hb)

theorem genuine_of_run {inputE outputE : Nat → Nat → Gf} {e e' : FECGenerator}
    {packets : List Callback} (hnewE : new inputE outputE p.k p.n p.size = some e)
    (hrun : encodeAll e payloads = some (e', packets))
    (hsize : ∀ data ∈ payloads, data.length = p.size) (hids : payloads.length ≤ p.k * 2 ^ 32)
    {x : Datagram} (hx : ∃ c ∈ packets, Carries x c) :
    Genuine p e.fec (payloadOf p payloads) x := by
  have he := new_fresh hnewE
  obtain ⟨e'', packets', hrun', -, -, hemitted⟩ := encodeAll_run he.runs he.count payloads
    fun data hd => (hsize data hd).trans_le p.size_le
  rw [hrun] at hrun'
  cases hrun'
  obtain ⟨c, hc, hcx⟩ := hx
  obtain ⟨G, i, hGi⟩ := hemitted c hc
  rw [he.group] at hGi
  exact genuine_of_emitted he.runs.isCode hsize hids hGi hcx

/-- Every payload delivered in a run is the right one exactly when no recovery of the run
takes a redundant buffer that an earlier recovery has overwritten with other bytes. -/
theorem payloads_right_iff {inputE outputE inputD outputD : Nat → Nat → Gf}
    {e e' d : FECGenerator} {packets : List Callback}
    (hnewE : new inputE outputE p.k p.n p.size = some e)
    (hrun : encodeAll e payloads = some (e', packets))
    (hsize : ∀ data ∈ payloads, data.length = p.size) (hids : payloads.length ≤ p.k * 2 ^ 32)
    (hnewD : new inputD outputD p.k p.n p.size = some d) {feed : List Datagram}
    (hfeed : ∀ x ∈ feed, ∃ c ∈ packets, Carries x c) :
    ∃ d' log, decodeAll d feed = some (d', log) ∧
      ((∀ c ∈ log, Delivers p (payloadOf p payloads) c) ↔
        IntactRun p (payloadOf p payloads) d feed) := by
  obtain ⟨d', log, hdec, -, hiff⟩ := decodeAll_sound (fresh_sound (new_fresh hnewD)) fun x hx =>
    genuine_of_run hnewE hrun hsize hids (hfeed x hx)
  exact ⟨d', log, hdec, hiff⟩

theorem payloads_right_of_three : ∃ e₀ e' packets d' log,
    new (fun _ _ => 0) (fun _ _ => 0) 2 3 1 = some e₀ ∧
      encodeAll e₀ [[0], [1]] = some (e', packets) ∧
      decodeAll e₀ (packets.map carry) = some (d', log) ∧
      ((∀ c ∈ log, Delivers twoOfThree (payloadOf twoOfThree [[0], [1]]) c) ↔
        IntactRun twoOfThree (payloadOf twoOfThree [[0], [1]]) e₀ (packets.map carry)) := by
  have hsize : ∀ data ∈ ([[0], [1]] : List (List Gf)), data.length = 1 := by simp
  have hP : ∀ data ∈ ([[0], [1]] : List (List Gf)), data.length ≤ maxFecPacketSize :=
    fun data hd => (hsize data hd).trans_le (by decide)
  obtain ⟨e₀, e', packets, hnew, -, hrun, hpackets, -⟩ :=
    exists_group twoOfThree (P := [[0], [1]]) rfl hP
  obtain ⟨hcarry, -⟩ := carryAll_spec (p := twoOfThree) (e := e₀) (P := [[0], [1]])
    [0, 1, 2] (by decide) hP
  have hfeed : packets.map carry = carryAll twoOfThree e₀ [[0], [1]] [0, 1, 2] := by
    rw [hpackets]
    rfl
  obtain ⟨d', log, hdec, hiff⟩ := payloads_right_iff (p := twoOfThree) hnew hrun hsize
    (by decide) hnew (show ∀ x ∈ packets.map carry, ∃ c ∈ packets, Carries x c by
      rw [hfeed, hpackets]; exact hcarry)
  exact ⟨e₀, e', packets, d', log, hnew, hrun, hdec, hiff⟩

/-- The state after both redundant packets: the first buffer holds the first source packet. -/
theorem after_redundant {d : FECGenerator} (hd : Fresh twoOfFour d) {x₂ x₃ : Datagram}
    {src : UInt32 → Nat → List Gf} (h₂ : Genuine twoOfFour d.fec src x₂)
    (h₃ : Genuine twoOfFour d.fec src x₃) (hid₂ : x₂.header.fecGroupId = 0)
    (hid₃ : x₃.header.fecGroupId = 0) (hi₂ : index x₂ = 2) (hi₃ : index x₃ = 3) :
    ∃ g log, decodeAll d [x₂, x₃] = some (g, log) ∧ Sound twoOfFour src g ∧ g.lastGroupId = 0 ∧
      g.usedMarks = seen [x₂, x₃] ∧ g.packetCount = 4 ∧ g.rawPacketCount = 2 ∧
      g.inputData 2 0 = buffer (src 0 0) 0 := by
  have hmarks : seen [x₂, x₃] = fun i => decide (i ∈ [2, 3]) := by
    funext i
    simp [seen, hi₂, hi₃, eq_comm]
  have hstart := enterGroup_counted (x := x₂) hd.runs (hd.vacant _)
  rw [hid₂] at hstart
  obtain ⟨g₁, out₁, hdec₁, -, hc₁⟩ := hstart.fresh_step h₂.fits hid₂ rfl (by
    rw [List.nil_append, held_feed (by simp [hi₂, twoOfFour])]
    simp [hi₂, twoOfFour])
  rw [List.nil_append] at hc₁
  have hdec₁' : decode d x₂.header x₂.data = some (g₁, out₁) := by
    rw [← hdec₁, decode, decode, enterGroup_idem]
  obtain ⟨g₁', out₁', hdec, hs₁, -⟩ := decode_sound (fresh_sound hd) h₂
  rw [hdec₁'] at hdec
  cases hdec
  have hent := hc₁.enter hid₃
  have hnew : seen [x₂] (index x₃) = false := by simp [seen, hi₂, hi₃]
  have hacc := hent.accept h₃.fits hnew
  have hs₃ := hs₁.enter.accept enterGroup_group h₃
  have hboth : ∀ y ∈ [x₂] ++ [x₃], Genuine twoOfFour d.fec src y ∧ y.header.fecGroupId = 0 := by
    intro y hy
    rcases List.mem_append.mp hy with hy | hy <;> rw [List.mem_singleton.mp hy]
    · exact ⟨h₂, hid₂⟩
    · exact ⟨h₃, hid₃⟩
  have hun := counted_unspoilt hacc (Runs.fec_eq hacc.runs hd.runs) hboth
  have harr := arrive_fresh hent.runs h₃.fits (by rw [hent.marks]; exact hnew)
  rw [List.singleton_append] at hacc
  generalize FecDecoder.accept twoOfFour (enterGroup g₁ x₃.header) x₃ = a at hacc hs₃ hun harr
  have hcount : a.packetCount = 2 := by
    rw [hacc.count, hmarks]
    decide
  have hraw : a.rawPacketCount = 0 := by
    rw [hacc.raw, hmarks]
    decide
  have hready : Ready twoOfFour a := by
    refine ⟨by rw [hcount]; decide, by rw [hraw]; decide, ?_⟩
    rw [hacc.marks, hmarks]
    decide
  obtain ⟨g₂, X, hrec, hres⟩ := recover_ready hacc.runs hready
  obtain ⟨g₂', out₂, hrec', hs₂, hiff⟩ := recover_sound hs₃
  rw [hrec] at hrec'
  cases hrec'
  have hmiss : missing twoOfFour.k a.usedMarks = [0, 1] := by
    rw [hacc.marks, hmarks]
    decide
  have hslot : slotOf twoOfFour.k twoOfFour.n a.usedMarks 0 = 2 := by
    rw [hacc.marks, hmarks]
    decide
  have hst := hres.state
  have hused := hres.used 0 (by rw [hmiss]; simp) 0 (by decide)
  rw [hslot] at hused
  obtain ⟨id, i, -, heq⟩ := hiff.mpr hun _ (List.mem_map.mpr ⟨0, by rw [hmiss]; simp, rfl⟩)
  simp only [triple, packet, Prod.mk.injEq, UInt32.toUInt64_inj, Int.natCast_inj] at heq
  obtain ⟨rfl, rfl, hdata⟩ := heq
  rw [hacc.group] at hdata
  have hrun : decodeAll d [x₂, x₃] = some (g₂, out₁ ++ (handOn twoOfFour
      (enterGroup g₁ x₃.header) x₃ ++ (missing twoOfFour.k a.usedMarks).map fun i =>
        packet twoOfFour a.lastGroupId i (bytes (X i) twoOfFour.size))) := by
    simp [decodeAll, hdec₁', decode_eq harr hrec]
  refine ⟨g₂, _, hrun, hs₂, ?_, ?_, ?_, ?_, ?_⟩
  · rw [hst]
    exact hacc.group
  · rw [hst]
    exact hacc.marks
  · have h := congrArg FECGenerator.packetCount hst
    rw [hmiss, hcount] at h
    exact h.trans (show bump 2 2 = 4 by decide)
  · have h := congrArg FECGenerator.rawPacketCount hst
    rw [hmiss, hraw] at h
    exact h.trans (show bump 2 0 = 2 by decide)
  · rw [hused, ← hdata, buffer_bytes (by decide)]

/-- Both redundant packets arrive and give back both sources, which then lie in their
buffers; when the first source packet arrives after all, the recovery of the second takes
the first for a redundant packet. -/
theorem late_source_spoils_payload : ∃ e₀ e' packets d' log,
    new (fun _ _ => 0) (fun _ _ => 0) 2 4 1 = some e₀ ∧
      encodeAll e₀ [[0], [1]] = some (e', packets) ∧
      decodeAll e₀ ((packets.drop 2 ++ packets.take 1).map carry) = some (d', log) ∧
      ∃ c ∈ log, c.groupId = 0 ∧ c.index = 1 ∧ c.data ≠ [1] := by
  have hsize : ∀ data ∈ ([[0], [1]] : List (List Gf)), data.length = 1 := by simp
  have hP : ∀ data ∈ ([[0], [1]] : List (List Gf)), data.length ≤ maxFecPacketSize :=
    fun data hd => (hsize data hd).trans_le (by decide)
  obtain ⟨e₀, e', packets, hnew, hfresh, hrun, hpackets, hgroup⟩ :=
    exists_group twoOfFour (P := [[0], [1]]) rfl hP
  obtain ⟨hcarry, hidx⟩ := carryAll_spec (p := twoOfFour) (e := e₀) (P := [[0], [1]])
    [2, 3, 0] (by decide) hP
  have hfeed : (packets.drop 2 ++ packets.take 1).map carry =
      carryAll twoOfFour e₀ [[0], [1]] [2, 3, 0] := by
    rw [hpackets]
    rfl
  obtain ⟨x₂, x₃, x₀, hxs⟩ : ∃ x₂ x₃ x₀, carryAll twoOfFour e₀ [[0], [1]] [2, 3, 0] = [x₂, x₃, x₀] :=
    ⟨_, _, _, rfl⟩
  rw [hxs] at hidx hcarry hfeed
  rw [← hpackets] at hcarry
  simp only [List.map_cons, List.map_nil, List.cons.injEq, and_true] at hidx
  obtain ⟨hi₂, hi₃, hi₀⟩ := hidx
  have hgen : ∀ x ∈ [x₂, x₃, x₀], Genuine twoOfFour e₀.fec (payloadOf twoOfFour [[0], [1]]) x :=
    fun x hx => genuine_of_run (p := twoOfFour) hnew hrun hsize (by decide) (hcarry x hx)
  have hid : ∀ x ∈ [x₂, x₃, x₀], x.header.fecGroupId = 0 := by
    intro x hx
    obtain ⟨i, -, hi⟩ := hgroup x (hcarry x hx)
    rw [(carries_packet hi).1, hfresh.group]
  obtain ⟨g, log, hdec, hs, hlast, hmarks, hcount, hraw, hbuf⟩ := after_redundant hfresh
    (hgen x₂ (by simp)) (hgen x₃ (by simp)) (hid x₂ (by simp)) (hid x₃ (by simp)) hi₂ hi₃
  have h₀ := hgen x₀ (by simp)
  have hs₀ := (hs.enter (x := x₀)).accept enterGroup_group h₀
  have hseen : seen [x₂, x₃] = fun i => decide (i ∈ [2, 3]) := by
    funext i
    simp [seen, hi₂, hi₃, eq_comm]
  rw [hseen] at hmarks
  obtain ⟨size, he⟩ := enterGroup_same (hlast.trans (hid x₀ (by simp)).symm)
  have harr := arrive_fresh (enterGroup_runs hs.runs) h₀.fits (by rw [he]; simp [hmarks, hi₀])
  rw [he] at hs₀ harr
  obtain ⟨a, ha⟩ : ∃ a, a = FecDecoder.accept twoOfFour { g with lastPacketSize := size } x₀ :=
    ⟨_, rfl⟩
  have hmarks' : a.usedMarks = store (fun i => decide (i ∈ [2, 3])) 0 true := by
    rw [ha, accept_usedMarks, hmarks, hi₀]
  have hbuf' : a.inputData 2 0 = buffer (payloadOf twoOfFour [[0], [1]] 0 0) 0 := by
    rw [ha, accept_inputData, hi₀, store_other _ _ (by decide), hbuf]
  have hlast' : a.lastGroupId = 0 := by rw [ha, accept_lastGroupId, hlast]
  have hcount' : a.packetCount = 5 := by
    rw [ha, accept_packetCount, hcount]
    decide
  have hraw' : a.rawPacketCount = 3 := by
    rw [ha, accept_rawPacketCount, hi₀, hraw]
    decide
  rw [← ha] at hs₀ harr
  have hmiss : missing twoOfFour.k a.usedMarks = [1] := by rw [hmarks']; decide
  have hslot : slotOf twoOfFour.k twoOfFour.n a.usedMarks 1 = 2 := by rw [hmarks']; decide
  have hready : Ready twoOfFour a :=
    ⟨by rw [hcount']; decide, by rw [hraw']; decide, by rw [hmarks']; decide⟩
  have hspoilt : ¬Unspoilt twoOfFour (payloadOf twoOfFour [[0], [1]]) a := by
    intro hun
    have hcode := hs₀.runs.isCode
    have h := hun hready 1 (by rw [hmiss]; simp) 0 (by decide)
    rw [hslot, hbuf', hlast', codeword, hcode.k_eq] at h
    refine hcode.coeff_ne_zero (j := 2) (l := 1) (by decide) (by decide) (by decide) ?_
    simpa [twoOfFour, payloadOf, buffer, Finset.sum_range_succ] using h.symm
  obtain ⟨g', X, hrec, hres⟩ := recover_ready hs₀.runs hready
  obtain ⟨g'', out, hrec', -, hiff⟩ := recover_sound hs₀
  rw [hrec] at hrec'
  cases hrec'
  have hrun' : decodeAll e₀ [x₂, x₃, x₀] = some (g', log ++ (handOn twoOfFour
      { g with lastPacketSize := size } x₀ ++ (missing twoOfFour.k a.usedMarks).map fun i =>
        packet twoOfFour a.lastGroupId i (bytes (X i) twoOfFour.size))) := by
    have hstep := decode_eq (g := g) (x := x₀) (by rw [he]; exact harr) hrec
    rw [show [x₂, x₃, x₀] = [x₂, x₃] ++ [x₀] from rfl, decodeAll_append, hdec, Option.bind_some]
    simp [decodeAll, hstep]
  refine ⟨e₀, e', packets, g', _, hnew, hrun, by rw [hfeed]; exact hrun', ?_⟩
  refine ⟨packet twoOfFour a.lastGroupId 1 (bytes (X 1) twoOfFour.size), by simp [hmiss], ?_, rfl, ?_⟩
  · rw [hlast']
    rfl
  · intro hdata
    refine hspoilt (hiff.mp ?_)
    intro c hc
    rw [hmiss, List.map_singleton, List.mem_singleton] at hc
    refine ⟨0, 1, by decide, ?_⟩
    rw [hc, triple, hlast']
    exact congrArg _ (congrArg _ hdata)

end Run

end FecIntegrity
