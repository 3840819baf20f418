import TransportDemo.FecEncoder

/-!
# The order of the encoder's output

One counter serves as the position of the next source packet and as the number
of all packets of the group. After `j` calls it stands at `j % k`, and the group
is number `j / k`; a call hands out its own packet, and the redundant ones if it
completes the group.
-/

namespace FecOrder

open CountedLoop FecField FecCode FecGenerator FecDecoder FecEncoder

/-- Every access stays inside the arrays. The size of redundant packets matters only if there are
any. -/
structure Ready (k n : Nat) (g : FECGenerator) : Prop where
  isCode : IsCode k n g.fec
  bound : n ≤ kMaxN
  fecK : g.fecK = k
  fecN : g.fecN = n
  size : k < n → sizeFits g.packetSize = true

/-- Successive calls of `Encode`, with the callbacks of each. -/
def encodeEach (g : FECGenerator) : List (List Gf) → Option (FECGenerator × List (List Callback))
  | [] => some (g, [])
  | data :: rest => do
    let (g, out) ← encode g data
    let (g, outs) ← encodeEach g rest
    return (g, out :: outs)

def place (c : Callback) : UInt64 × Int := (c.groupId, c.index)

/-- The places of a group from index `first` on; group ids wrap. -/
def places (group first count : Nat) : List (UInt64 × Int) :=
  (List.range' first count).map fun i : Nat => ((UInt32.ofNat group).toUInt64, (i : Int))

/-- The complete groups and the begun one. -/
def order (k n m : Nat) : List (UInt64 × Int) :=
  (List.range (m / k)).flatMap (places · 0 n) ++ places (m / k) 0 (m % k)

/-! ### The counter -/

/-- A call completes a group or moves on within it. -/
theorem next_place {k : Nat} (hk : 0 < k) (j : Nat) :
    ((j + 1) % k = 0 ∧ (j + 1) / k = j / k + 1 ∧ j % k + 1 = k) ∨
      ((j + 1) % k = j % k + 1 ∧ (j + 1) / k = j / k ∧ j % k + 1 < k) := by
  have hmod := Nat.mod_lt j hk
  have hj := Nat.div_add_mod j k
  by_cases hlast : j % k + 1 = k
  · have hnext : j + 1 = k * (j / k + 1) := by
      rw [Nat.mul_add]
      omega
    refine .inl ⟨?_, ?_, hlast⟩
    · rw [hnext, Nat.mul_mod_right]
    · rw [hnext, Nat.mul_div_cancel_left _ hk]
  · have hlt : j % k + 1 < k := by omega
    have hnext : j + 1 = k * (j / k) + (j % k + 1) := by omega
    refine .inr ⟨?_, ?_, hlt⟩
    · rw [hnext, Nat.mul_add_mod, Nat.mod_eq_of_lt hlt]
    · rw [hnext, Nat.mul_add_div hk, Nat.div_eq_of_lt hlt, Nat.add_zero]

theorem places_append (group first a b : Nat) :
    places group first a ++ places group (first + a) b = places group first (a + b) := by
  rw [places, places, places, ← List.map_append, List.range'_append_1]

/-- What a call adds to the order. -/
theorem order_succ {k n : Nat} (hk : 0 < k) (hkn : k ≤ n) (j : Nat) : order k n (j + 1) =
    order k n j ++ places (j / k) (j % k) 1 ++
      if (j + 1) % k = 0 then places (j / k) k (n - k) else [] := by
  have hopen : order k n j ++ places (j / k) (j % k) 1 =
      (List.range (j / k)).flatMap (places · 0 n) ++ places (j / k) 0 (j % k + 1) := by
    rw [order, List.append_assoc]
    congr 1
    exact (congrArg (places (j / k) 0 (j % k) ++ places (j / k) · 1) (Nat.zero_add _).symm).trans
      (places_append _ 0 _ 1)
  rw [hopen]
  rcases next_place hk j with ⟨hzero, hdiv, hlast⟩ | ⟨hmod, hdiv, hlt⟩
  · have hgroup : places (j / k) 0 k ++ places (j / k) k (n - k) = places (j / k) 0 n := by
      have happend := places_append (j / k) 0 k (n - k)
      rwa [Nat.zero_add, Nat.add_sub_cancel' hkn] at happend
    rw [if_pos hzero, order, hzero, hdiv, hlast, List.append_assoc, hgroup, List.range_succ,
      List.flatMap_append, List.flatMap_singleton]
    exact List.append_nil _
  · rw [if_neg (by omega), order, hmod, hdiv, List.append_nil]

/-! ### One call -/

section Step

variable {k n : Nat} {g : FECGenerator} {c : Nat} {data : List Gf}

theorem encodeSource_out (h : Ready k n g) (hc : g.packetCount = c) (hck : c < k)
    (hlen : data.length ≤ maxFecPacketSize) : ∃ g',
    encodeSource g data = some (g', [⟨g.lastGroupId.toUInt64, k, n, c, data⟩]) ∧ Ready k n g' ∧
      g'.packetCount = c + 1 ∧ g'.lastGroupId = g.lastGroupId := by
  have hn := h.bound
  have hle := h.isCode.le
  have hmax : kMaxN = 128 := rfl
  have hguard : (0 : Int) ≤ c ∧ (c : Int) < kMaxN ∧ data.length ≤ maxFecPacketSize :=
    ⟨by omega, by omega, hlen⟩
  have hint : int16 ((c : Int) + 1) = c + 1 := int16_of_small (by omega) (by omega)
  have hdata := fecEncode_source h.isCode g.inputData (g.outputData c) hck data
  rw [encodeSource, hc, if_pos hguard]
  simp only [Int.toNat_natCast, store_same, hdata, hint, h.fecK, h.fecN]
  exact ⟨_, rfl, ⟨h.isCode, h.bound, rfl, rfl, h.size⟩, rfl, rfl⟩

/-- The redundant packets, by their places. -/
theorem encodeRedundant_out (h : Ready k n g) (out : List Callback) (m : Nat) (hm : k + m ≤ n) :
    ∃ g' parity, loopOption m (fun i => encodeRedundant (k + i)) (g, out) =
        some (g', out ++ parity) ∧ Ready k n g' ∧ g'.lastGroupId = g.lastGroupId ∧
      parity.map place = (List.range' k m).map fun i : Nat => (g.lastGroupId.toUInt64, (i : Int)) := by
  have hn := h.bound
  induction m with
  | zero => exact ⟨g, [], by simp [loopOption], h, rfl, rfl⟩
  | succ m ih =>
    obtain ⟨g', parity, hloop, hready, hid, hplaces⟩ := ih (by omega)
    have hfits : k + m < kMaxN ∧ sizeFits g'.packetSize = true :=
      ⟨by omega, hready.size (by omega)⟩
    rw [loopOption, hloop, Option.bind_some, encodeRedundant, if_pos hfits]
    let fec := fecEncode g'.fec g'.inputData (g'.outputData (k + m)) (k + m) g'.packetSize.toNat
    refine ⟨{ g' with
        outputData := store g'.outputData (k + m) fec, packetCount := int16 (g'.packetCount + 1) },
      parity ++ [⟨g'.lastGroupId.toUInt64, g'.fecK, g'.fecN, (k + m : Nat),
      bytes fec g'.packetSize.toNat⟩], ?_,
      ⟨hready.isCode, hready.bound, hready.fecK, hready.fecN, hready.size⟩, hid, ?_⟩
    · simp only [store_same, List.append_assoc, fec]
    · rw [List.map_append, hplaces, List.range'_1_concat, List.map_append, ← hid]
      rfl

/-- A call that leaves the group incomplete, and one that completes it. -/
theorem encode_out (h : Ready k n g) (hc : g.packetCount = c) (hck : c < k)
    (hlen : data.length ≤ maxFecPacketSize) : ∃ g' parity,
    encode g data = some (g', ⟨g.lastGroupId.toUInt64, k, n, c, data⟩ :: parity) ∧ Ready k n g' ∧
      if c + 1 = k then g'.packetCount = 0 ∧ g'.lastGroupId = g.lastGroupId + 1 ∧
        parity.map place = (List.range' k (n - k)).map fun i : Nat => (g.lastGroupId.toUInt64, (i : Int))
      else g'.packetCount = (c + 1 : Nat) ∧ g'.lastGroupId = g.lastGroupId ∧ parity = [] := by
  obtain ⟨g₁, hsource, hready, hcount, hid⟩ := encodeSource_out h hc hck hlen
  have hlt : g.packetCount < g.fecK := by
    rw [hc, h.fecK]
    omega
  by_cases hlast : c + 1 = k
  · obtain ⟨g₂, parity, hloop, hready₂, hid₂, hplaces⟩ := encodeRedundant_out hready
      [⟨g.lastGroupId.toUInt64, k, n, c, data⟩] (n - k) (by have hle := h.isCode.le; omega)
    have hfull : ¬ g₁.packetCount < k := by
      rw [hcount]
      omega
    refine ⟨clear { g₂ with lastGroupId := g₂.lastGroupId + 1 }, parity, ?_,
      ⟨hready₂.isCode, hready₂.bound, hready₂.fecK, hready₂.fecN, hready₂.size⟩, ?_⟩
    · simp only [encode, if_pos hlt, hsource, Option.bind_eq_bind, Option.bind_some, if_neg hfull,
        hready.fecK, hready.fecN, Int.toNat_natCast, hloop]
      rfl
    · rw [if_pos hlast]
      refine ⟨rfl, ?_, by rw [hplaces, hid]⟩
      rw [← hid, ← hid₂]
      rfl
  · have hmore : g₁.packetCount < g₁.fecK := by
      rw [hcount, hready.fecK]
      omega
    refine ⟨g₁, [], ?_, hready, ?_⟩
    · simp only [encode, if_pos hlt, hsource, Option.bind_eq_bind, Option.bind_some, if_pos hmore]
      rfl
    · rw [if_neg hlast]
      exact ⟨by rw [hcount]; rfl, hid, rfl⟩

end Step

/-! ### Runs -/

/-- The generator after `j` calls. -/
structure At (k n j : Nat) (g : FECGenerator) : Prop where
  ready : Ready k n g
  packetCount : g.packetCount = (j % k : Nat)
  lastGroupId : g.lastGroupId = UInt32.ofNat (j / k)

/-- The callbacks of call `j`: the payload itself, and in the last call of a group the redundant
packets. -/
def Emits (k n j : Nat) (data : List Gf) (out : List Callback) : Prop :=
  ∃ parity, out = ⟨(UInt32.ofNat (j / k)).toUInt64, k, n, (j % k : Nat), data⟩ :: parity ∧
    parity.map place = if (j + 1) % k = 0 then places (j / k) k (n - k) else []

theorem encode_emits {k n j : Nat} {g : FECGenerator} {data : List Gf} (hk : 0 < k)
    (h : At k n j g) (hlen : data.length ≤ maxFecPacketSize) : ∃ g' out,
    encode g data = some (g', out) ∧ At k n (j + 1) g' ∧ Emits k n j data out := by
  obtain ⟨g', parity, hencode, hready, hout⟩ :=
    encode_out h.ready h.packetCount (Nat.mod_lt j hk) hlen
  rw [h.lastGroupId] at hencode hout
  refine ⟨g', _, hencode, ?_⟩
  rcases next_place hk j with ⟨hzero, hdiv, hlast⟩ | ⟨hmod, hdiv, hlt⟩
  · rw [if_pos hlast] at hout
    obtain ⟨hcount, hid, hplaces⟩ := hout
    refine ⟨⟨hready, by rw [hcount, hzero]; rfl, ?_⟩, parity, rfl, ?_⟩
    · rw [hid, hdiv, UInt32.ofNat_add]
      rfl
    · rw [if_pos hzero, hplaces]
      rfl
  · rw [if_neg (by omega)] at hout
    obtain ⟨hcount, hid, rfl⟩ := hout
    refine ⟨⟨hready, by rw [hcount, hmod], by rw [hid, hdiv]⟩, [], rfl, ?_⟩
    rw [if_neg (by omega)]
    rfl

theorem encodeEach_concat (g : FECGenerator) (payloads : List (List Gf)) (data : List Gf) :
    encodeEach g (payloads ++ [data]) = (encodeEach g payloads).bind fun s =>
      (encode s.1 data).map fun s' => (s'.1, s.2 ++ [s'.2]) := by
  induction payloads generalizing g with
  | nil =>
    simp only [List.nil_append, encodeEach, Option.bind_eq_bind, Option.bind_some]
    cases encode g data <;> rfl
  | cons first payloads ih =>
    rw [List.cons_append, encodeEach, encodeEach]
    cases encode g first with
    | none => rfl
    | some s =>
      simp only [Option.bind_eq_bind, Option.bind_some, ih]
      cases encodeEach s.1 payloads with
      | none => rfl
      | some s' =>
        cases hdata : encode s'.1 data with
        | none => simp [hdata]
        | some s'' => simp [hdata]

/-- The run lemma. -/
theorem encodeEach_run {k n : Nat} {g : FECGenerator} (hk : 0 < k) (h : At k n 0 g)
    (payloads : List (List Gf)) (hlen : ∀ data ∈ payloads, data.length ≤ maxFecPacketSize) :
    ∃ g' outs, encodeEach g payloads = some (g', outs) ∧ At k n payloads.length g' ∧
      outs.length = payloads.length ∧
      (∀ j data, payloads[j]? = some data → ∃ out, outs[j]? = some out ∧ Emits k n j data out) ∧
      outs.flatten.map place = order k n payloads.length := by
  induction payloads using List.reverseRecOn with
  | nil => exact ⟨g, [], rfl, h, rfl, by simp, by simp [order, places]⟩
  | append_singleton payloads data ih =>
    obtain ⟨g₁, outs, hrun, hat, hcount, hcalls, horder⟩ :=
      ih fun d hd => hlen d (List.mem_append_left _ hd)
    obtain ⟨g', out, hencode, hat', hemits⟩ :=
      encode_emits hk hat (hlen data (List.mem_append_right _ List.mem_cons_self))
    have hlast : out.map place = places (payloads.length / k) (payloads.length % k) 1 ++
        if (payloads.length + 1) % k = 0 then
          places (payloads.length / k) k (n - k) else [] := by
      obtain ⟨parity, rfl, hparity⟩ := hemits
      rw [List.map_cons, hparity]
      rfl
    refine ⟨g', outs ++ [out], ?_, by simpa using hat', by simp [hcount], fun j d hj => ?_, ?_⟩
    · rw [encodeEach_concat, hrun, Option.bind_some, hencode]
      rfl
    · by_cases hlt : j < payloads.length
      · rw [List.getElem?_append_left hlt] at hj
        rw [List.getElem?_append_left (hcount ▸ hlt)]
        exact hcalls j d hj
      · have hin := (List.getElem?_eq_some_iff.mp hj).1
        obtain rfl : j = payloads.length := by
          simp only [List.length_append, List.length_singleton] at hin
          omega
        obtain rfl : data = d := by simpa using hj
        exact ⟨out, by simp [← hcount], hemits⟩
    · rw [List.flatten_append, List.map_append, horder, List.length_append, List.length_singleton,
        order_succ hk h.ready.isCode.le, List.flatten_singleton, hlast, List.append_assoc]

example : order 2 3 3 = [(0, 0), (0, 1), (0, 2), (1, 0)] := by decide

end FecOrder
