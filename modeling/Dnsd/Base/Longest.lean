import Mathlib.Data.List.Induction
import Mathlib.Order.Lattice
import Mathlib.Tactic.Common

/-! A scan that keeps the largest of the items that match, the first one among
equals, and when the order of the items is of no account to such a choice. -/

/-- A choice among the values that have a property, made whenever there is one. -/
structure Picks {β : Type} (x : Option β) (P : β → Prop) : Prop where
  some : ∀ b, x = some b → P b
  none : x = none → ∀ b, ¬P b

/-- Without a choice to make, two ways to choose agree. -/
theorem Picks.eq {β : Type} {x y : Option β} {P : β → Prop} (hx : Picks x P) (hy : Picks y P)
    (hUnique : ∀ a b, P a → P b → a = b) : x = y := by
  cases x with
  | none =>
      cases y with
      | none => rfl
      | some b => exact absurd (hy.some b rfl) (hx.none rfl b)
  | some a =>
      cases y with
      | none => exact absurd (hx.some a rfl) (hy.none rfl a)
      | some b => rw [hUnique a b (hx.some a rfl) (hy.some b rfl)]

namespace Longest

variable {α β ι : Type} [LinearOrder ι]

variable {fits : α → Prop} {out : α → β} {size : β → ι}

/-- What a scan ends with: what a fitting item gives, and no fitting item gives anything
larger. -/
structure Found (fits : α → Prop) (out : α → β) (size : β → ι) (items : List α) (b : β) : Prop where
  source : ∃ a ∈ items, fits a ∧ out a = b
  largest : ∀ a ∈ items, fits a → size (out a) ≤ size b

/-- The item that is kept is the first one that no other is larger than. -/
structure First (fits : α → Prop) (out : α → β) (size : β → ι) (items : List α) (b : β) : Prop where
  split : ∃ before a after, items = before ++ a :: after ∧ fits a ∧ out a = b ∧
    (∀ c ∈ before, fits c → size (out c) < size b) ∧ ∀ c ∈ after, fits c → size (out c) ≤ size b

theorem First.found {items : List α} {b : β} (h : First fits out size items b) :
    Found fits out size items b := by
  obtain ⟨before, a, after, rfl, hFits, rfl, hBefore, hAfter⟩ := h.split
  refine ⟨⟨a, by simp, hFits, rfl⟩, fun c hc hFitsC => ?_⟩
  rcases List.mem_append.mp hc with hc | hc
  · exact le_of_lt (hBefore c hc hFitsC)
  · rcases List.mem_cons.mp hc with rfl | hc
    · exact le_refl _
    · exact hAfter c hc hFitsC

/-- An item behind the others that is not kept. -/
theorem First.concat {items : List α} {b : β} (h : First fits out size items b) {a : α}
    (hKeep : fits a → size (out a) ≤ size b) : First fits out size (items ++ [a]) b := by
  obtain ⟨before, d, after, rfl, hFits, hOut, hBefore, hAfter⟩ := h.split
  refine ⟨before, d, after ++ [a], by simp, hFits, hOut, hBefore, fun c hc hFitsC => ?_⟩
  rcases List.mem_append.mp hc with hc | hc
  · exact hAfter c hc hFitsC
  · rw [List.mem_singleton.mp hc] at hFitsC ⊢
    exact hKeep hFitsC

/-- One turn of the scan: `out` is what is kept of an item, `size` its rank. -/
def keep (fits : α → Prop) [DecidablePred fits] (out : α → β) (size : β → ι) (best : Option β)
    (a : α) : Option β :=
  if fits a ∧ best.all fun b => size b < size (out a) then some (out a) else best

variable [DecidablePred fits]

variable (fits out size) in
theorem scan (items : List α) :
    match items.foldl (keep fits out size) none with
    | some b => First fits out size items b
    | none => ∀ a ∈ items, ¬fits a := by
  induction items using List.reverseRecOn with
  | nil => simp
  | append_singleton items a ih =>
      rw [List.foldl_append, List.foldl_cons, List.foldl_nil]
      generalize items.foldl (keep fits out size) none = best at ih ⊢
      by_cases hFits : fits a
      · cases best with
        | none =>
            have hTake : keep fits out size none a = some (out a) := by simp [keep, hFits]
            rw [hTake]
            exact ⟨items, a, [], rfl, hFits, rfl, fun c hc hFitsC => absurd hFitsC (ih c hc), by simp⟩
        | some b =>
            by_cases hLess : size b < size (out a)
            · have hTake : keep fits out size (some b) a = some (out a) := by
                simp [keep, hFits, hLess]
              rw [hTake]
              refine ⟨items, a, [], rfl, hFits, rfl, fun c hc hFitsC => ?_, by simp⟩
              exact lt_of_le_of_lt (ih.found.largest c hc hFitsC) hLess
            · have hKeep : keep fits out size (some b) a = some b := by simp [keep, hLess]
              rw [hKeep]
              exact ih.concat fun _ => not_lt.mp hLess
      · have hKeep : keep fits out size best a = best := by simp [keep, hFits]
        rw [hKeep]
        cases best with
        | none =>
            intro c hc
            rcases List.mem_append.mp hc with hOld | hNew
            · exact ih c hOld
            · rwa [List.mem_singleton.mp hNew]
        | some b => exact ih.concat fun h => absurd h hFits

theorem first_of_eq_some {items : List α} {b : β}
    (h : items.foldl (keep fits out size) none = some b) : First fits out size items b := by
  have hScan := scan fits out size items
  rwa [h] at hScan

theorem found_of_eq_some {items : List α} {b : β}
    (h : items.foldl (keep fits out size) none = some b) : Found fits out size items b :=
  (first_of_eq_some h).found

theorem eq_none_iff {items : List α} :
    items.foldl (keep fits out size) none = none ↔ ∀ a ∈ items, ¬fits a := by
  have hScan := scan fits out size items
  constructor
  · intro h
    rwa [h] at hScan
  · intro hNone
    cases h : items.foldl (keep fits out size) none with
    | none => rfl
    | some b =>
        obtain ⟨a, ha, hFits, -⟩ := (found_of_eq_some h).source
        exact absurd hFits (hNone a ha)

theorem picks (items : List α) :
    Picks (items.foldl (keep fits out size) none) (Found fits out size items) := by
  constructor
  · exact fun _ h => found_of_eq_some h
  · intro h b hFound
    obtain ⟨a, ha, hFits, -⟩ := hFound.source
    exact eq_none_iff.mp h a ha hFits

/-- The order of the items does not matter where those of one size are kept alike. -/
theorem fold_perm {items other : List α} (hPerm : items.Perm other)
    (hSame : ∀ a ∈ items, ∀ b ∈ items, fits a → fits b → size (out a) = size (out b) → out a = out b) :
    other.foldl (keep fits out size) none = items.foldl (keep fits out size) none := by
  have hFound : Found fits out size other = Found fits out size items := by
    funext b
    refine propext ⟨fun h => ?_, fun h => ?_⟩
    · exact ⟨by simpa only [hPerm.mem_iff] using h.source,
        fun a ha => h.largest a (hPerm.mem_iff.mp ha)⟩
    · exact ⟨by simpa only [hPerm.mem_iff] using h.source,
        fun a ha => h.largest a (hPerm.mem_iff.mpr ha)⟩
  refine Picks.eq (hFound ▸ picks other) (picks items) ?_
  rintro _ _ ⟨⟨a, ha, hFits, rfl⟩, hLargest⟩ ⟨⟨b, hb, hFits', rfl⟩, hLargest'⟩
  exact hSame a ha b hb hFits hFits'
    (le_antisymm (hLargest' a ha hFits) (hLargest b hb hFits'))

end Longest
