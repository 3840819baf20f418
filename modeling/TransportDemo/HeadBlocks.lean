import Mathlib.Data.List.TakeWhile

/-!
# Greedy blocks

A list is cut into blocks from the left: a block is an element together with
the longest stretch after it whose members are all in reach of that first
element.
-/

namespace HeadBlocks

variable {α : Type*} (reach : α → α → Bool)

/-- The blocks, each as its first element and the rest. -/
def blocks : List α → List (α × List α)
  | [] => []
  | a :: l => (a, l.takeWhile (reach a)) :: blocks (l.dropWhile (reach a))
termination_by l => l.length
decreasing_by exact Nat.lt_succ_of_le (List.length_dropWhile_le _ _)

/-- The members of some blocks in order. -/
def members (bs : List (α × List α)) : List α := bs.flatMap fun b => b.1 :: b.2

@[simp] theorem blocks_nil : blocks reach [] = [] := by rw [blocks]

theorem blocks_cons (a : α) (l : List α) : blocks reach (a :: l) =
    (a, l.takeWhile (reach a)) :: blocks reach (l.dropWhile (reach a)) := by
  rw [blocks]

/-- Nothing is lost or moved. -/
theorem members_blocks (l : List α) : members (blocks reach l) = l := by
  fun_induction blocks reach l with
  | case1 => rfl
  | case2 a l ih =>
    have hrest : members (blocks reach (l.dropWhile (reach a))) = l.dropWhile (reach a) := ih
    rw [members, List.flatMap_cons]
    change a :: l.takeWhile (reach a) ++ members (blocks reach (l.dropWhile (reach a))) = a :: l
    rw [hrest, List.cons_append, List.takeWhile_append_dropWhile]

theorem reach_of_mem_blocks {l : List α} {b : α × List α} (hb : b ∈ blocks reach l) :
    ∀ x ∈ b.2, reach b.1 x = true := by
  fun_induction blocks reach l with
  | case1 => cases hb
  | case2 a l ih =>
    cases List.mem_cons.mp hb with
    | inl h =>
      rw [h]
      exact fun x hx => List.mem_takeWhile_imp hx
    | inr h => exact ih h

/-- The first blocks hold a prefix of the list. -/
theorem members_take (n : Nat) (l : List α) :
    members ((blocks reach l).take n) ++ members ((blocks reach l).drop n) = l := by
  rw [members, members, ← List.flatMap_append, List.take_append_drop]
  exact members_blocks reach l

end HeadBlocks
