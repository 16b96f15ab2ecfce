import Mathlib.Data.List.Chain
import Mathlib.Tactic.Common

/-! Append-only lists whose entries carry a name of their own and the name of the
entry before them, the first one that of an origin. -/

namespace Chain

variable {E N : Type} {back own : E → N} {origin : N}

/-- Every entry points back to the one before it. -/
structure Linked (back own : E → N) (origin : N) (entries : List E) : Prop where
  first : ∀ e ∈ entries.head?, back e = origin
  next : entries.IsChain fun e later => back later = own e

instance [DecidableEq N] (entries : List E) : Decidable (Linked back own origin entries) :=
  decidable_of_iff ((∀ e ∈ entries.head?, back e = origin) ∧
    entries.IsChain fun e later => back later = own e) ⟨fun h => ⟨h.1, h.2⟩, fun h => ⟨h.1, h.2⟩⟩

/-- What the next entry has to point back to. -/
def tip (own : E → N) (origin : N) (entries : List E) : N :=
  (entries.getLast?.map own).getD origin

@[simp] theorem tip_nil : tip own origin [] = origin := rfl

@[simp] theorem tip_concat (entries : List E) (e : E) : tip own origin (entries ++ [e]) = own e := by
  simp [tip]

theorem linked_nil : Linked back own origin [] := ⟨by simp, .nil⟩

theorem Linked.concat {entries : List E} (h : Linked back own origin entries) {e : E}
    (hBack : back e = tip own origin entries) : Linked back own origin (entries ++ [e]) := by
  rcases entries.eq_nil_or_concat with rfl | ⟨before, last, rfl⟩
  · exact ⟨by simpa using hBack, .singleton e⟩
  · rw [List.concat_eq_append] at h hBack ⊢
    refine ⟨fun first hFirst => h.first first (by simpa using hFirst), ?_⟩
    rw [List.isChain_append]
    refine ⟨h.next, .singleton e, fun x hx y hy => ?_⟩
    rw [List.getLast?_concat, Option.mem_def, Option.some.injEq] at hx
    rw [List.head?_cons, Option.mem_def, Option.some.injEq] at hy
    rw [← hx, ← hy, hBack, tip_concat]

/-- The last entry of a chain points back to the end of the chain in front of it. -/
theorem Linked.of_concat {entries : List E} {e : E} (h : Linked back own origin (entries ++ [e])) :
    Linked back own origin entries ∧ back e = tip own origin entries := by
  rcases entries.eq_nil_or_concat with rfl | ⟨before, last, rfl⟩
  · exact ⟨linked_nil, h.first e rfl⟩
  · rw [List.concat_eq_append] at h ⊢
    obtain ⟨hFront, -, hLast⟩ := List.isChain_append.mp h.next
    refine ⟨⟨fun first hFirst => h.first first ?_, hFront⟩, ?_⟩
    · rw [List.append_assoc, List.head?_append]
      cases before with
      | nil => exact hFirst
      | cons b before => exact hFirst
    · rw [tip_concat]
      exact hLast last (by simp) e rfl

/-! ## Names that are digests -/

section Digests

variable {M : Type} {message : E → M} {digest : M → N}

/-- Two chains with one end have the same messages, or two different messages have one
digest, or a message has the origin as its digest. -/
theorem Linked.same_or_collision {entries others : List E} (h : Linked back own origin entries)
    (hOthers : Linked back own origin others) (hTip : tip own origin entries = tip own origin others)
    (hOwn : ∀ e ∈ entries ++ others, own e = digest (message e))
    (hBack : ∀ e ∈ entries, ∀ other ∈ others, message e = message other → back e = back other) :
    entries.map message = others.map message ∨
      (∃ e ∈ entries, ∃ other ∈ others, message e ≠ message other ∧
        digest (message e) = digest (message other)) ∨
      ∃ e ∈ entries ++ others, digest (message e) = origin := by
  induction entries using List.reverseRecOn generalizing others with
  | nil =>
      rcases others.eq_nil_or_concat with rfl | ⟨before, last, rfl⟩
      · exact Or.inl rfl
      · rw [List.concat_eq_append] at hTip hOwn ⊢
        rw [tip_nil, tip_concat] at hTip
        exact Or.inr (Or.inr ⟨last, by simp, by rw [← hOwn last (by simp), hTip]⟩)
  | append_singleton entries e ih =>
      rcases others.eq_nil_or_concat with rfl | ⟨before, last, rfl⟩
      · rw [tip_nil, tip_concat] at hTip
        exact Or.inr (Or.inr ⟨e, by simp, by rw [← hOwn e (by simp), hTip]⟩)
      · rw [List.concat_eq_append] at hOthers hTip hOwn hBack ⊢
        rw [tip_concat, tip_concat] at hTip
        have hDigest : digest (message e) = digest (message last) := by
          rw [← hOwn e (by simp), ← hOwn last (by simp), hTip]
        by_cases hMessage : message e = message last
        · obtain ⟨hFront, hEnd⟩ := h.of_concat
          obtain ⟨hFront', hEnd'⟩ := hOthers.of_concat
          have hTips : tip own origin entries = tip own origin before := by
            rw [← hEnd, ← hEnd', hBack e (by simp) last (by simp) hMessage]
          have hOwns : ∀ x ∈ entries ++ before, own x = digest (message x) := by
            intro x hx
            apply hOwn x
            rcases List.mem_append.mp hx with hx | hx <;> simp [hx]
          have hBacks : ∀ x ∈ entries, ∀ y ∈ before, message x = message y → back x = back y :=
            fun x hx y hy => hBack x (by simp [hx]) y (by simp [hy])
          rcases ih hFront hFront' hTips hOwns hBacks with hSame | ⟨x, hx, y, hy, hCollide⟩ | ⟨x, hx, hZero⟩
          · exact Or.inl (by rw [List.map_append, List.map_append, hSame, List.map_singleton,
              List.map_singleton, hMessage])
          · exact Or.inr (Or.inl ⟨x, by simp [hx], y, by simp [hy], hCollide⟩)
          · refine Or.inr (Or.inr ⟨x, ?_, hZero⟩)
            rcases List.mem_append.mp hx with hx | hx <;> simp [hx]
        · exact Or.inr (Or.inl ⟨e, by simp, last, by simp, hMessage, hDigest⟩)

end Digests

end Chain
