import Mathlib.Tactic.Common

/-! Halving an interval of places for the last one that is accepted. What is found
hangs only on the places that the halving comes to. -/

namespace Bisect

/-- The place that is looked at, for the places from `lo` up to in front of `stop`. -/
def middle (lo stop : Nat) : Nat := lo + (stop - 1 - lo) / 2

theorem middle_bounds {lo stop : Nat} (h : lo < stop) : lo ≤ middle lo stop ∧ middle lo stop < stop := by
  rw [middle]
  omega

/-- To the right of an accepted place, else to the left of it. -/
def find (accepts : Nat → Bool) (lo stop : Nat) (best : Option Nat) : Option Nat :=
  if _h : lo < stop then
    if accepts (middle lo stop) then find accepts (middle lo stop + 1) stop (some (middle lo stop))
    else find accepts lo (middle lo stop) best
  else best
termination_by stop - lo
decreasing_by
  · have := middle_bounds _h
    omega
  · have := middle_bounds _h
    omega

/-- The places that a search by halving looks at, on its way from a range to its end. -/
inductive Visits (accepts : Nat → Bool) : Nat → Nat → Nat → Prop where
  | here (lo stop : Nat) (h : lo < stop) : Visits accepts lo stop (middle lo stop)
  | right (lo stop m : Nat) (h : lo < stop) (hAccepted : accepts (middle lo stop) = true)
      (hRest : Visits accepts (middle lo stop + 1) stop m) : Visits accepts lo stop m
  | left (lo stop m : Nat) (h : lo < stop) (hRefused : accepts (middle lo stop) = false)
      (hRest : Visits accepts lo (middle lo stop) m) : Visits accepts lo stop m

variable {accepts accepts' : Nat → Bool} {lo stop m : Nat}

theorem Visits.bounds (h : Visits accepts lo stop m) : lo ≤ m ∧ m < stop := by
  induction h with
  | here lo stop h => exact middle_bounds h
  | right lo stop m h _ _ ih =>
      have hMiddle := middle_bounds h
      omega
  | left lo stop m h _ _ ih =>
      have hMiddle := middle_bounds h
      omega

theorem find_empty (h : ¬lo < stop) (best : Option Nat) : find accepts lo stop best = best := by
  rw [find, dif_neg h]

theorem find_right (h : lo < stop) (hAccepted : accepts (middle lo stop) = true) (best : Option Nat) :
    find accepts lo stop best =
      find accepts (middle lo stop + 1) stop (some (middle lo stop)) := by
  rw [find, dif_pos h, if_pos hAccepted]

theorem find_left (h : lo < stop) (hRefused : accepts (middle lo stop) = false) (best : Option Nat) :
    find accepts lo stop best = find accepts lo (middle lo stop) best := by
  rw [find, dif_pos h, if_neg (by simp [hRefused])]

/-- An interval is empty, or it is searched on one side of its middle. -/
theorem halving {motive : Nat → Nat → Prop} (accepts : Nat → Bool)
    (empty : ∀ lo stop, ¬lo < stop → motive lo stop)
    (right : ∀ lo stop, lo < stop → accepts (middle lo stop) = true →
      motive (middle lo stop + 1) stop → motive lo stop)
    (left : ∀ lo stop, lo < stop → accepts (middle lo stop) = false →
      motive lo (middle lo stop) → motive lo stop) (lo stop : Nat) : motive lo stop := by
  induction hSize : stop - lo using Nat.strongRecOn generalizing lo stop with
  | ind size ih =>
      by_cases h : lo < stop
      · have hMiddle := middle_bounds h
        cases hSide : accepts (middle lo stop) with
        | true => exact right lo stop h hSide (ih _ (by omega) _ _ rfl)
        | false => exact left lo stop h hSide (ih _ (by omega) _ _ rfl)
      · exact empty lo stop h

theorem visits_right (h : lo < stop) (hAccepted : accepts (middle lo stop) = true) :
    Visits accepts lo stop m ↔ m = middle lo stop ∨ Visits accepts (middle lo stop + 1) stop m := by
  constructor
  · rintro (_ | ⟨_, _, _, _, _, hRest⟩ | ⟨_, _, _, _, hRefused, _⟩)
    · exact Or.inl rfl
    · exact Or.inr hRest
    · rw [hAccepted] at hRefused
      cases hRefused
  · rintro (rfl | hRest)
    · exact .here lo stop h
    · exact .right lo stop m h hAccepted hRest

theorem visits_left (h : lo < stop) (hRefused : accepts (middle lo stop) = false) :
    Visits accepts lo stop m ↔ m = middle lo stop ∨ Visits accepts lo (middle lo stop) m := by
  constructor
  · rintro (_ | ⟨_, _, _, _, hAccepted, _⟩ | ⟨_, _, _, _, _, hRest⟩)
    · exact Or.inl rfl
    · rw [hRefused] at hAccepted
      cases hAccepted
    · exact Or.inr hRest
  · rintro (rfl | hRest)
    · exact .here lo stop h
    · exact .left lo stop m h hRefused hRest

theorem not_visits (h : ¬lo < stop) : ¬Visits accepts lo stop m := fun hVisits => by
  have hBounds := hVisits.bounds
  omega

/-- The last accepted one of the places that are looked at. -/
structure Last (accepts : Nat → Bool) (lo stop j : Nat) : Prop where
  visits : Visits accepts lo stop j
  accepted : accepts j = true
  last : ∀ m, Visits accepts lo stop m → accepts m = true → m ≤ j

theorem Last.not_refused {j : Nat} (h : Last accepts lo stop j) :
    ¬∀ m, Visits accepts lo stop m → accepts m = false := fun hNone => by
  have hRefused := hNone j h.visits
  rw [h.accepted] at hRefused
  cases hRefused

theorem find_last (accepts : Nat → Bool) (lo stop : Nat) (best : Option Nat) :
    (find accepts lo stop best = best ∧ ∀ m, Visits accepts lo stop m → accepts m = false) ∨
      ∃ j, find accepts lo stop best = some j ∧ Last accepts lo stop j := by
  induction lo, stop using halving accepts generalizing best with
  | empty lo stop h => exact Or.inl ⟨find_empty h best, fun m hVisits => absurd hVisits (not_visits h)⟩
  | right lo stop h hAccepted ih =>
      rw [find_right h hAccepted]
      right
      rcases ih (some (middle lo stop)) with ⟨hFind, hNone⟩ | ⟨j, hFind, hLast⟩
      · refine ⟨_, hFind, .here lo stop h, hAccepted, fun m hVisits hM => ?_⟩
        rcases (visits_right h hAccepted).mp hVisits with rfl | hRest
        · exact Nat.le_refl _
        · rw [hNone m hRest] at hM
          cases hM
      · refine ⟨j, hFind, .right lo stop j h hAccepted hLast.visits, hLast.accepted,
          fun m hVisits hM => ?_⟩
        rcases (visits_right h hAccepted).mp hVisits with rfl | hRest
        · have hBounds := hLast.visits.bounds
          omega
        · exact hLast.last m hRest hM
  | left lo stop h hRefused ih =>
      rw [find_left h hRefused]
      rcases ih best with ⟨hFind, hNone⟩ | ⟨j, hFind, hLast⟩
      · refine Or.inl ⟨hFind, fun m hVisits => ?_⟩
        rcases (visits_left h hRefused).mp hVisits with rfl | hRest
        · exact hRefused
        · exact hNone m hRest
      · refine Or.inr ⟨j, hFind, .left lo stop j h hRefused hLast.visits, hLast.accepted,
          fun m hVisits hM => ?_⟩
        rcases (visits_left h hRefused).mp hVisits with rfl | hRest
        · rw [hRefused] at hM
          cases hM
        · exact hLast.last m hRest hM

theorem find_eq_none_iff :
    find accepts lo stop none = none ↔ ∀ m, Visits accepts lo stop m → accepts m = false := by
  rcases find_last accepts lo stop none with ⟨hFind, hNone⟩ | ⟨j, hFind, hLast⟩
  · exact iff_of_true hFind hNone
  · rw [hFind]
    exact iff_of_false (by simp) hLast.not_refused

theorem find_eq_some_iff {j : Nat} :
    find accepts lo stop none = some j ↔ Last accepts lo stop j := by
  rcases find_last accepts lo stop none with ⟨hFind, hNone⟩ | ⟨i, hFind, hLast⟩
  · rw [hFind]
    exact iff_of_false (by simp) fun hLast => hLast.not_refused hNone
  · rw [hFind, Option.some.injEq]
    constructor
    · rintro rfl
      exact hLast
    · intro hLast'
      exact Nat.le_antisymm (hLast'.last i hLast.visits hLast.accepted)
        (hLast.last j hLast'.visits hLast'.accepted)

/-- A change of places that are not looked at is of no account. -/
theorem visits_congr (h : ∀ m, Visits accepts lo stop m → accepts m = accepts' m) :
    Visits accepts' lo stop m ↔ Visits accepts lo stop m := by
  induction lo, stop using halving accepts with
  | empty lo stop hEmpty => exact iff_of_false (not_visits hEmpty) (not_visits hEmpty)
  | right lo stop hLess hAccepted ih =>
      have hAccepted' := (h _ (.here lo stop hLess)).symm.trans hAccepted
      rw [visits_right hLess hAccepted, visits_right hLess hAccepted',
        ih fun m hVisits => h m (.right lo stop m hLess hAccepted hVisits)]
  | left lo stop hLess hRefused ih =>
      have hRefused' := (h _ (.here lo stop hLess)).symm.trans hRefused
      rw [visits_left hLess hRefused, visits_left hLess hRefused',
        ih fun m hVisits => h m (.left lo stop m hLess hRefused hVisits)]

/-- The halving comes to the last place in front of a cut. -/
theorem visits_cut {t : Nat} (hLo : lo ≤ t) (hStop : t < stop) :
    Visits (fun m => decide (m ≤ t)) lo stop t := by
  induction lo, stop using halving fun m => decide (m ≤ t) with
  | empty lo stop h => omega
  | right lo stop h hAccepted ih =>
      rw [visits_right h hAccepted]
      have hMiddle : middle lo stop ≤ t := of_decide_eq_true hAccepted
      rcases Nat.eq_or_lt_of_le hMiddle with hEq | hLess
      · exact Or.inl hEq.symm
      · exact Or.inr (ih hLess hStop)
  | left lo stop h hRefused ih =>
      rw [visits_left h hRefused]
      have hMiddle : ¬middle lo stop ≤ t := of_decide_eq_false hRefused
      exact Or.inr (ih hLo (by omega))

end Bisect
