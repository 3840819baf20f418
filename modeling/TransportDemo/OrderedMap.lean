import Mathlib.Data.Finset.Card
import Mathlib.Data.List.Pairwise
import Mathlib.Order.Defs.LinearOrder

/-!
# Ordered maps

A map with unique keys is the list of its entries in strictly ascending order
of the keys; the order is a field, so an unsorted map cannot be built. What an
operation does is said once, by the value it leaves at every key, and later
proofs never look at the entries again.
-/

namespace OrderedMap

variable {κ ν ω : Type*}

/-- One pass of an iterator that stands on each entry once: `f` says what the
entry emits, and the value it keeps, or that it is erased. -/
def walkEntries (f : ν → Option ω × Option ν) : List (κ × ν) → List ω × List (κ × ν)
  | [] => ([], [])
  | e :: rest =>
    let tail := walkEntries f rest
    ((f e.2).1.toList ++ tail.1, ((f e.2).2.map fun v => (e.1, v)).toList ++ tail.2)

theorem walkEntries_keys (f : ν → Option ω × Option ν) (l : List (κ × ν)) :
    ((walkEntries f l).2.map Prod.fst).Sublist (l.map Prod.fst) := by
  induction l with
  | nil => simp [walkEntries]
  | cons e rest ih =>
    simp only [walkEntries, List.map_append, List.map_cons]
    cases (f e.2).2 with
    | none => simpa using ih.cons e.1
    | some v => simpa using ih

variable [LinearOrder κ]

/-- The entries stand in strictly ascending order of the keys. -/
structure Map (κ ν : Type*) [LinearOrder κ] where
  entries : List (κ × ν)
  sorted : entries.Pairwise fun a b => a.1 < b.1

/-- The value of the first entry with this key. -/
def lookup (k : κ) : List (κ × ν) → Option ν
  | [] => none
  | e :: rest => if e.1 = k then some e.2 else lookup k rest

/-- A new entry goes before the first greater key; an entry with the same key is replaced. -/
def insertEntry (k : κ) (v : ν) : List (κ × ν) → List (κ × ν)
  | [] => [(k, v)]
  | e :: rest =>
    if k < e.1 then (k, v) :: e :: rest
    else if e.1 = k then (k, v) :: rest
    else e :: insertEntry k v rest

theorem mem_insertEntry {k : κ} {v : ν} {e : κ × ν} {l : List (κ × ν)}
    (h : e ∈ insertEntry k v l) : e = (k, v) ∨ e ∈ l := by
  induction l with
  | nil => simpa [insertEntry] using h
  | cons d rest ih =>
    rw [insertEntry] at h
    split at h
    · simpa using h
    · split at h
      · simp only [List.mem_cons] at h ⊢
        tauto
      · cases List.mem_cons.mp h with
        | inl he => exact .inr (by simp [he])
        | inr hr => exact (ih hr).imp id (List.mem_cons_of_mem d)

theorem insertEntry_sorted (k : κ) (v : ν) {l : List (κ × ν)}
    (h : l.Pairwise fun a b => a.1 < b.1) :
    (insertEntry k v l).Pairwise fun a b => a.1 < b.1 := by
  induction l with
  | nil => simp [insertEntry]
  | cons d rest ih =>
    obtain ⟨hd, hrest⟩ := List.pairwise_cons.mp h
    rw [insertEntry]
    split
    case isTrue hlt =>
      refine List.pairwise_cons.mpr ⟨fun e he => ?_, h⟩
      cases List.mem_cons.mp he with
      | inl he => rw [he]; exact hlt
      | inr he => exact hlt.trans (hd e he)
    case isFalse hle =>
      split
      case isTrue heq => exact List.pairwise_cons.mpr ⟨fun e he => heq ▸ hd e he, hrest⟩
      case isFalse hne =>
        refine List.pairwise_cons.mpr ⟨fun e he => ?_, ih hrest⟩
        cases mem_insertEntry he with
        | inl he => rw [he]; exact lt_of_le_of_ne (not_lt.mp hle) hne
        | inr he => exact hd e he

theorem walkEntries_sorted (f : ν → Option ω × Option ν) {l : List (κ × ν)}
    (h : l.Pairwise fun a b => a.1 < b.1) :
    (walkEntries f l).2.Pairwise fun a b => a.1 < b.1 :=
  List.pairwise_map.mp ((List.pairwise_map.mpr h).sublist (walkEntries_keys f l))

/-! ### Operations -/

def Map.empty : Map κ ν := ⟨[], List.Pairwise.nil⟩

def Map.find (m : Map κ ν) (k : κ) : Option ν := lookup k m.entries

def Map.keys (m : Map κ ν) : List κ := m.entries.map Prod.fst

def Map.size (m : Map κ ν) : Nat := m.entries.length

def Map.insert (m : Map κ ν) (k : κ) (v : ν) : Map κ ν :=
  ⟨insertEntry k v m.entries, insertEntry_sorted k v m.sorted⟩

/-- `emplace`: an entry that is there stays. -/
def Map.emplace (m : Map κ ν) (k : κ) (v : ν) : Map κ ν :=
  if (m.find k).isSome then m else m.insert k v

def Map.erase (m : Map κ ν) (k : κ) : Map κ ν :=
  ⟨m.entries.filter fun e => e.1 ≠ k, m.sorted.sublist List.filter_sublist⟩

/-- Erase from the first entry up to the lower bound of `k`. -/
def Map.eraseBelow (m : Map κ ν) (k : κ) : Map κ ν :=
  ⟨m.entries.dropWhile fun e => e.1 < k, m.sorted.sublist (List.dropWhile_sublist _)⟩

def Map.walk (m : Map κ ν) (f : ν → Option ω × Option ν) : List ω × Map κ ν :=
  ((walkEntries f m.entries).1, ⟨(walkEntries f m.entries).2, walkEntries_sorted f m.sorted⟩)

/-! ### What each operation leaves at a key -/

theorem lookup_isSome {k : κ} {l : List (κ × ν)} :
    (lookup k l).isSome ↔ k ∈ l.map Prod.fst := by
  induction l with
  | nil => simp [lookup]
  | cons e rest ih =>
    simp only [lookup, List.map_cons, List.mem_cons]
    split
    case isTrue h => simp [h]
    case isFalse h => simp [ih, Ne.symm h]

theorem mem_keys {m : Map κ ν} {k : κ} : k ∈ m.keys ↔ (m.find k).isSome :=
  Iff.symm lookup_isSome

theorem keys_sorted (m : Map κ ν) : m.keys.Pairwise (· < ·) :=
  List.pairwise_map.mpr m.sorted

theorem keys_nodup (m : Map κ ν) : m.keys.Nodup :=
  (keys_sorted m).imp ne_of_lt

theorem size_eq_card (m : Map κ ν) : m.size = m.keys.toFinset.card := by
  rw [List.toFinset_card_of_nodup (keys_nodup m), Map.keys, List.length_map, Map.size]

theorem mem_entries {m : Map κ ν} {k : κ} {v : ν} :
    (k, v) ∈ m.entries ↔ m.find k = some v := by
  obtain ⟨l, hl⟩ := m
  simp only [Map.find]
  induction l with
  | nil => simp [lookup]
  | cons e rest ih =>
    obtain ⟨he, hrest⟩ := List.pairwise_cons.mp hl
    simp only [lookup, List.mem_cons, ih hrest]
    split
    case isTrue hk =>
      constructor
      · rintro (h | h)
        · rw [← h]
        · have hmem : k ∈ rest.map Prod.fst := Iff.mp lookup_isSome (by simp [h])
          obtain ⟨d, hd, rfl⟩ := List.mem_map.mp hmem
          exact absurd hk (he d hd).ne
      · intro h
        exact .inl (Prod.ext hk.symm (Option.some.inj h).symm)
    case isFalse hk =>
      constructor
      · rintro (h | h)
        · exact absurd (by rw [← h]) hk
        · exact h
      · exact .inr

@[simp] theorem find_empty (k : κ) : (Map.empty : Map κ ν).find k = none := rfl

@[simp] theorem size_empty : (Map.empty : Map κ ν).size = 0 := rfl

theorem find_insert (m : Map κ ν) (k k' : κ) (v : ν) :
    (m.insert k v).find k' = if k' = k then some v else m.find k' := by
  obtain ⟨l, hl⟩ := m
  simp only [Map.find, Map.insert]
  induction l with
  | nil => simp [insertEntry, lookup, eq_comm]
  | cons e rest ih =>
    rw [insertEntry]
    split
    · simp [lookup, eq_comm]
    · split
      case isTrue heq => subst heq; simp only [lookup]; split <;> simp_all [eq_comm]
      case isFalse hne =>
        simp only [lookup, ih (List.pairwise_cons.mp hl).2]
        split <;> simp_all [eq_comm]

theorem find_emplace (m : Map κ ν) (k k' : κ) (v : ν) :
    (m.emplace k v).find k' = if k' = k then some ((m.find k).getD v) else m.find k' := by
  rw [Map.emplace]
  cases hk : m.find k with
  | none => simp [find_insert]
  | some w =>
    by_cases h : k' = k
    · simp [h, hk]
    · simp [h]

theorem find_erase (m : Map κ ν) (k k' : κ) :
    (m.erase k).find k' = if k' = k then none else m.find k' := by
  obtain ⟨l, hl⟩ := m
  simp only [Map.find, Map.erase]
  induction l with
  | nil => simp [lookup]
  | cons e rest ih =>
    have hrest := ih (List.pairwise_cons.mp hl).2
    by_cases hk : e.1 = k
    · simp only [hk, ne_eq, not_true_eq_false, decide_false, Bool.false_eq_true,
        not_false_eq_true, List.filter_cons_of_neg, lookup, hrest]
      grind
    · simp only [ne_eq, hk, not_false_eq_true, decide_true, List.filter_cons_of_pos, lookup]
      grind

theorem find_eraseBelow (m : Map κ ν) (k k' : κ) :
    (m.eraseBelow k).find k' = if k' < k then none else m.find k' := by
  obtain ⟨l, hl⟩ := m
  simp only [Map.find, Map.eraseBelow]
  induction l with
  | nil => simp [lookup]
  | cons e rest ih =>
    obtain ⟨he, hrest⟩ := List.pairwise_cons.mp hl
    by_cases hk : e.1 < k
    · simp only [List.dropWhile_cons, hk, decide_true, if_true, ih hrest, lookup]
      split
      case isTrue => rfl
      case isFalse hk' => rw [if_neg fun h : e.1 = k' => hk' (h ▸ hk)]
    · simp only [List.dropWhile_cons, hk, decide_false, Bool.false_eq_true, if_false]
      split
      case isFalse => rfl
      case isTrue hk' =>
        rw [← Option.not_isSome_iff_eq_none, lookup_isSome, List.map_cons, List.mem_cons]
        rintro (rfl | hmem)
        · exact hk hk'
        · obtain ⟨d, hd, rfl⟩ := List.mem_map.mp hmem
          exact hk ((he d hd).trans hk')

theorem find_walk (m : Map κ ν) (f : ν → Option ω × Option ν) (k : κ) :
    (m.walk f).2.find k = (m.find k).bind fun v => (f v).2 := by
  obtain ⟨l, hl⟩ := m
  simp only [Map.find, Map.walk]
  induction l with
  | nil => rfl
  | cons e rest ih =>
    obtain ⟨he, hrest⟩ := List.pairwise_cons.mp hl
    have hgone : lookup e.1 (walkEntries f rest).2 = none := by
      rw [← Option.not_isSome_iff_eq_none, lookup_isSome]
      intro hmem
      obtain ⟨d, hd, hde⟩ := List.mem_map.mp ((walkEntries_keys f rest).subset hmem)
      exact absurd hde (he d hd).ne'
    simp only [walkEntries, lookup]
    by_cases hk : e.1 = k
    · subst hk
      cases hf : (f e.2).2 with
      | none => simp [hgone, hf]
      | some v => simp [lookup, hf]
    · cases hf : (f e.2).2 with
      | none => simpa [hk] using ih hrest
      | some v => simpa [lookup, hk] using ih hrest

/-- What a pass emits, in the order of the keys. -/
theorem walk_emits (m : Map κ ν) (f : ν → Option ω × Option ν) :
    (m.walk f).1 = m.entries.filterMap fun e => (f e.2).1 := by
  simp only [Map.walk]
  induction m.entries with
  | nil => rfl
  | cons e rest ih =>
    simp only [walkEntries, ih, List.filterMap_cons]
    cases (f e.2).1 <;> rfl

theorem mem_walk_emits {m : Map κ ν} {f : ν → Option ω × Option ν} {x : ω} :
    x ∈ (m.walk f).1 ↔ ∃ k v, m.find k = some v ∧ (f v).1 = some x := by
  simp [walk_emits, List.mem_filterMap, mem_entries]

/-! ### Sizes and ends -/

theorem size_le_of_keys {m m' : Map κ ν}
    (h : ∀ k, (m.find k).isSome → (m'.find k).isSome) : m.size ≤ m'.size := by
  rw [size_eq_card, size_eq_card]
  refine Finset.card_le_card fun k hk => ?_
  rw [List.mem_toFinset, mem_keys] at hk ⊢
  exact h k hk

theorem size_insert_le (m : Map κ ν) (k : κ) (v : ν) : (m.insert k v).size ≤ m.size + 1 := by
  have hkeys : (m.insert k v).keys.toFinset ⊆ insert k m.keys.toFinset := by
    intro k' hk'
    simp only [List.mem_toFinset, mem_keys, find_insert, Finset.mem_insert] at hk' ⊢
    by_cases h : k' = k
    · exact .inl h
    · exact .inr (by simpa [h] using hk')
  rw [size_eq_card, size_eq_card]
  exact (Finset.card_le_card hkeys).trans (Finset.card_insert_le _ _)

theorem size_emplace_le (m : Map κ ν) (k : κ) (v : ν) : (m.emplace k v).size ≤ m.size + 1 := by
  rw [Map.emplace]
  split
  · exact Nat.le_succ _
  · exact size_insert_le m k v

theorem size_insert_pos (m : Map κ ν) (k : κ) (v : ν) : 0 < (m.insert k v).size := by
  rw [size_eq_card, Finset.card_pos]
  exact ⟨k, by simp [mem_keys, find_insert]⟩

theorem size_erase_lt {m : Map κ ν} {k : κ} (h : (m.find k).isSome) :
    (m.erase k).size < m.size := by
  rw [size_eq_card, size_eq_card]
  refine Finset.card_lt_card (Finset.ssubset_iff_subset_ne.mpr ⟨fun k' hk' => ?_, fun heq => ?_⟩)
  · simp only [List.mem_toFinset, mem_keys, find_erase] at hk' ⊢
    split at hk'
    · cases hk'
    · exact hk'
  · have hk : k ∈ (m.erase k).keys.toFinset := by
      rw [heq, List.mem_toFinset, mem_keys]
      exact h
    simp [mem_keys, find_erase] at hk

/-- `*begin()` and `*rbegin()`. -/
def Map.first (m : Map κ ν) : Option (κ × ν) := m.entries.head?

def Map.last (m : Map κ ν) : Option (κ × ν) := m.entries.getLast?

theorem find_first {m : Map κ ν} {e : κ × ν} (h : m.first = some e) : m.find e.1 = some e.2 :=
  Iff.mp mem_entries (List.mem_of_head? h)

theorem find_last {m : Map κ ν} {e : κ × ν} (h : m.last = some e) : m.find e.1 = some e.2 :=
  Iff.mp mem_entries (List.mem_of_getLast? h)

theorem first_le {m : Map κ ν} {e : κ × ν} (h : m.first = some e) {k : κ}
    (hk : (m.find k).isSome) : e.1 ≤ k := by
  obtain ⟨v, hv⟩ := Option.isSome_iff_exists.mp hk
  have hmem := Iff.mpr mem_entries hv
  obtain ⟨rest, hl⟩ : ∃ rest, m.entries = e :: rest := List.head?_eq_some_iff.mp h
  have hs := m.sorted
  rw [hl] at hmem hs
  cases List.mem_cons.mp hmem with
  | inl he => exact (congrArg Prod.fst he).ge
  | inr hr => exact ((List.pairwise_cons.mp hs).1 _ hr).le

theorem le_last {m : Map κ ν} {e : κ × ν} (h : m.last = some e) {k : κ}
    (hk : (m.find k).isSome) : k ≤ e.1 := by
  obtain ⟨v, hv⟩ := Option.isSome_iff_exists.mp hk
  have hmem := Iff.mpr mem_entries hv
  obtain ⟨front, hl⟩ : ∃ front, m.entries = front ++ [e] := List.getLast?_eq_some_iff.mp h
  have hs := m.sorted
  rw [hl] at hmem hs
  cases List.mem_append.mp hmem with
  | inl hf => exact ((List.pairwise_append.mp hs).2.2 _ hf e (List.mem_singleton_self e)).le
  | inr he => exact (congrArg Prod.fst (List.mem_singleton.mp he)).le

end OrderedMap
