import Mathlib.Tactic.Common

/-! Questions that are passed down a tree. A node answers a question itself, or passes
it on to a node below. -/

/-- Each node that a question is passed on to is lower than the one before. -/
structure Descent (Node Question : Type) where
  next : Node → Question → Option Node
  height : Node → Nat
  next_height : ∀ {a q b}, next a q = some b → height b < height a

namespace Descent

variable {Node Question : Type} (d : Descent Node Question) {q : Question} {a b c : Node}

/-- Up to an answer, or for all nodes below: the induction along the way of a question. -/
theorem induction_on {P : Node → Prop} (q : Question) (answers : ∀ a, d.next a q = none → P a)
    (passes : ∀ a b, d.next a q = some b → P b → P a) (a : Node) : P a := by
  induction hHeight : d.height a using Nat.strongRecOn generalizing a with
  | ind height ih =>
      cases hNext : d.next a q with
      | none => exact answers a hNext
      | some b =>
          have hLower : d.height b < height := hHeight ▸ d.next_height hNext
          exact passes a b hNext (ih _ hLower b rfl)

/-- The node that a question ends at, when it is passed down as long as a node refers it.
-/
def bottom (a : Node) (q : Question) : Node :=
  match h : d.next a q with
  | none => a
  | some b =>
      have := d.next_height h
      bottom b q
termination_by d.height a

theorem bottom_of_none (h : d.next a q = none) : d.bottom a q = a := by
  rw [bottom]
  split
  · rfl
  · rename_i hNext
    rw [h] at hNext
    cases hNext

theorem bottom_of_some (h : d.next a q = some b) : d.bottom a q = d.bottom b q := by
  rw [bottom]
  split
  · rename_i hNext
    rw [h] at hNext
    cases hNext
  · rename_i hNext
    rw [h] at hNext
    cases hNext
    rfl

/-- The question comes to the second node on its way from the first. -/
inductive Passes (q : Question) : Node → Node → Prop where
  | here (a : Node) : Passes q a a
  | down (a b c : Node) (hNext : d.next a q = some b) (hRest : Passes q b c) : Passes q a c

variable {d}

theorem Passes.snoc (h : d.Passes q a b) (hNext : d.next b q = some c) : d.Passes q a c := by
  induction h with
  | here a => exact .down a c c hNext (.here c)
  | down a b' b hFirst _ ih => exact .down a b' c hFirst (ih hNext)

theorem Passes.trans (h : d.Passes q a b) (h' : d.Passes q b c) : d.Passes q a c := by
  induction h with
  | here a => exact h'
  | down a b' b hFirst _ ih => exact .down a b' c hFirst (ih h')

theorem Passes.bottom (h : d.Passes q a b) : d.bottom a q = d.bottom b q := by
  induction h with
  | here a => rfl
  | down a b c hNext _ ih => rw [d.bottom_of_some hNext, ih]

theorem Passes.height_le (h : d.Passes q a b) : d.height b ≤ d.height a := by
  induction h with
  | here a => exact Nat.le_refl _
  | down a b c hNext _ ih => exact Nat.le_of_lt (Nat.lt_of_le_of_lt ih (d.next_height hNext))

/-- What holds from some number on at each node of a way holds from one number on at all
of them. -/
theorem exists_bound {P : Nat → Node → Prop} (hMono : ∀ {m n a}, m ≤ n → P m a → P n a)
    (q : Question) (a : Node) (h : ∀ b, d.Passes q a b → ∃ n, P n b) :
    ∃ n, ∀ b, d.Passes q a b → P n b := by
  induction a using d.induction_on q with
  | answers a hNext =>
      obtain ⟨n, hHere⟩ := h a (.here a)
      refine ⟨n, fun b hPasses => ?_⟩
      cases hPasses with
      | here => exact hHere
      | down _ b' _ hDown _ =>
          rw [hNext] at hDown
          cases hDown
  | passes a b hNext ih =>
      obtain ⟨n, hHere⟩ := h a (.here a)
      obtain ⟨m, hBelow⟩ := ih fun c hRest => h c (.down a b c hNext hRest)
      refine ⟨max n m, fun c hPasses => ?_⟩
      cases hPasses with
      | here => exact hMono (Nat.le_max_left n m) hHere
      | down _ b' _ hDown hRest =>
          rw [hNext] at hDown
          cases hDown
          exact hMono (Nat.le_max_right n m) (hBelow c hRest)

end Descent
