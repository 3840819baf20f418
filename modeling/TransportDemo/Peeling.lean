import Mathlib.Data.Set.Basic

/-!
# Peeling

A check is a set of items. Once all but one of them are known, the check gives
the last one, which may leave another check with one unknown item. What can be
known in the end does not depend on the order in which this is done: it is the
least set that holds the given items and that no check can add to. An item is
out of reach exactly if it lies in a stopping set, which every check meets more
than once or not at all.
-/

namespace Peeling

variable {ι : Type*} {items items' known : Set ι} {checks checks' : Set (Set ι)}

/-- What the given items and the checks let one know. -/
inductive Recoverable (items : Set ι) (checks : Set (Set ι)) : ι → Prop
  | given {i : ι} (hi : i ∈ items) : Recoverable items checks i
  | peeled {c : Set ι} {i : ι} (hc : c ∈ checks) (hi : i ∈ c)
      (hrest : ∀ j ∈ c, j ≠ i → Recoverable items checks j) : Recoverable items checks i

/-- No check has just one unknown item. -/
def Closed (checks : Set (Set ι)) (known : Set ι) : Prop :=
  ∀ c ∈ checks, ∀ i ∈ c, (∀ j ∈ c, j ≠ i → j ∈ known) → i ∈ known

theorem Recoverable.mem (hitems : items ⊆ known) (hclosed : Closed checks known) {i : ι}
    (h : Recoverable items checks i) : i ∈ known := by
  induction h with
  | given hi => exact hitems hi
  | peeled hc hi _ ih => exact hclosed _ hc _ hi ih

theorem Recoverable.mono (hitems : items ⊆ items') (hchecks : checks ⊆ checks') {i : ι}
    (h : Recoverable items checks i) : Recoverable items' checks' i := by
  induction h with
  | given hi => exact .given (hitems hi)
  | peeled hc hi _ ih => exact .peeled (hchecks hc) hi ih

/-- What is known is all that can be known once it holds what is given, nothing but what can be
known, and is closed. -/
theorem mem_iff_recoverable (hitems : items ⊆ known) (hclosed : Closed checks known)
    (hsound : ∀ i ∈ known, Recoverable items checks i) (i : ι) :
    i ∈ known ↔ Recoverable items checks i :=
  ⟨hsound i, Recoverable.mem hitems hclosed⟩

/-- None of it is given, and no check has just one item in it. -/
structure Stopping (items : Set ι) (checks : Set (Set ι)) (stop : Set ι) : Prop where
  apart : ∀ i ∈ stop, i ∉ items
  meets : ∀ c ∈ checks, ∀ i ∈ c, i ∈ stop → ∃ j ∈ c, j ≠ i ∧ j ∈ stop

theorem not_recoverable_iff {i : ι} :
    ¬ Recoverable items checks i ↔ ∃ stop, Stopping items checks stop ∧ i ∈ stop := by
  constructor
  · intro h
    refine ⟨{j | ¬ Recoverable items checks j}, ⟨fun j hj hgiven => hj (.given hgiven), ?_⟩, h⟩
    intro c hc j hj hstop
    by_contra hnone
    refine hstop (.peeled hc hj fun k hk hkj => ?_)
    by_contra hk'
    exact hnone ⟨k, hk, hkj, hk'⟩
  · rintro ⟨stop, hstop, hi⟩ h
    induction h with
    | given hgiven => exact hstop.apart _ hi hgiven
    | peeled hc hic _ ih =>
      obtain ⟨j, hj, hne, hjs⟩ := hstop.meets _ hc _ hic hi
      exact ih j hj hne hjs

end Peeling
