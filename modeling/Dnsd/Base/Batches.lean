import Mathlib.Data.List.TakeWhile
import Mathlib.Tactic.Common

/-! Sequences that are cut into batches of a bounded length, with a rest that has
room for one more item. -/

namespace Batches

variable {α : Type} {limit : Nat} {items : List α} {batches : List (List α)} {rest : List α}

/-- The batches and the rest are the items, in their order. -/
structure Cut (limit : Nat) (items : List α) (batches : List (List α)) (rest : List α) : Prop where
  whole : batches.flatten ++ rest = items
  bounds : ∀ batch ∈ batches, batch ≠ [] ∧ batch.length ≤ limit
  room : rest.length < limit

theorem Cut.nil (hLimit : 0 < limit) : Cut limit ([] : List α) [] [] :=
  ⟨rfl, fun _ hBatch => absurd hBatch List.not_mem_nil, hLimit⟩

/-- An item for the rest. -/
theorem Cut.push (h : Cut limit items batches rest) {item : α} (hRoom : (rest ++ [item]).length < limit) :
    Cut limit (items ++ [item]) batches (rest ++ [item]) :=
  ⟨by rw [← List.append_assoc, h.whole], h.bounds, hRoom⟩

/-- A rest that is not empty is a batch, if it fits. -/
theorem Cut.close (hWhole : batches.flatten ++ rest = items)
    (hBounds : ∀ batch ∈ batches, batch ≠ [] ∧ batch.length ≤ limit) (hRest : rest ≠ [])
    (hFits : rest.length ≤ limit) : Cut limit items (batches ++ [rest]) [] where
  whole := by rw [List.flatten_append, List.flatten_singleton, List.append_nil, hWhole]
  bounds := by
    intro batch hBatch
    rcases List.mem_append.mp hBatch with hEarlier | hLast
    · exact hBounds batch hEarlier
    · rw [List.mem_singleton.mp hLast]
      exact ⟨hRest, hFits⟩
  room := Nat.lt_of_lt_of_le (List.length_pos_iff.mpr hRest) hFits

/-- An item that ends a batch. -/
theorem Cut.fill (h : Cut limit items batches rest) (item : α) :
    Cut limit (items ++ [item]) (batches ++ [rest ++ [item]]) [] := by
  refine .close (by rw [← List.append_assoc, h.whole]) h.bounds (by simp) ?_
  rw [List.length_append, List.length_singleton]
  exact h.room

/-- What is left if every batch is cut at its first item without a property. -/
theorem flatMap_takeWhile_sublist (keep : α → Bool) (batches : List (List α)) :
    (batches.flatMap (List.takeWhile keep)).Sublist batches.flatten := by
  induction batches with
  | nil => exact List.Sublist.refl _
  | cons batch batches ih => exact (List.takeWhile_sublist keep).append ih

theorem flatMap_takeWhile_eq_flatten_iff {keep : α → Bool} {batches : List (List α)} :
    batches.flatMap (List.takeWhile keep) = batches.flatten ↔
      ∀ item ∈ batches.flatten, keep item = true := by
  induction batches with
  | nil => simp
  | cons batch batches ih =>
      have hFront := (List.takeWhile_sublist (l := batch) keep).length_le
      have hBack := (flatMap_takeWhile_sublist keep batches).length_le
      rw [List.flatMap_cons, List.flatten_cons, List.forall_mem_append, ← ih,
        ← List.takeWhile_eq_self_iff]
      constructor
      · intro h
        have hLength := congrArg List.length h
        rw [List.length_append, List.length_append] at hLength
        exact List.append_inj h (by omega)
      · rintro ⟨hBatch, hBatches⟩
        rw [hBatch, hBatches]

end Batches
