import Mathlib.Data.List.Basic
import Mathlib.Tactic.Common
import Dnsd.Rust.HashMap

/-! Histories of writes to a map: the last write to a key is the one that
counts. A replay of the history into a hash map computes exactly this. -/

namespace LastWrite

universe u v w
variable {K : Type u} {V : Type v} [DecidableEq K]

/-- The value of the last write to `k`. -/
def lastWrite : List (K × V) → K → Option V
  | [], _ => none
  | e :: rest, k => (lastWrite rest k).or (if e.1 = k then some e.2 else none)

@[simp] theorem lastWrite_nil (k : K) : lastWrite ([] : List (K × V)) k = none := rfl

theorem lastWrite_append (before after : List (K × V)) (k : K) :
    lastWrite (before ++ after) k = (lastWrite after k).or (lastWrite before k) := by
  induction before with
  | nil => simp
  | cons e rest ih => simp only [List.cons_append, lastWrite, ih, Option.or_assoc]

theorem lastWrite_concat (h : List (K × V)) (e : K × V) (k : K) :
    lastWrite (h ++ [e]) k = if e.1 = k then some e.2 else lastWrite h k := by
  rw [lastWrite_append, lastWrite, lastWrite_nil, Option.none_or]
  split_ifs <;> rfl

theorem mem_of_lastWrite {h : List (K × V)} {k : K} {v : V} (hLast : lastWrite h k = some v) :
    (k, v) ∈ h := by
  induction h with
  | nil => cases hLast
  | cons e rest ih =>
      rw [lastWrite, Option.or_eq_some_iff] at hLast
      rcases hLast with hRest | ⟨_, hFirst⟩
      · exact List.mem_cons_of_mem e (ih hRest)
      · split_ifs at hFirst with hKey
        cases hFirst
        subst hKey
        exact List.mem_cons_self

theorem lastWrite_eq_none_iff {h : List (K × V)} {k : K} :
    lastWrite h k = none ↔ ∀ e ∈ h, e.1 ≠ k := by
  induction h with
  | nil => simp
  | cons e rest ih =>
      rw [lastWrite, Option.or_eq_none_iff, ih, List.forall_mem_cons]
      constructor
      · rintro ⟨hRest, hFirst⟩
        exact ⟨fun hKey => by simp [hKey] at hFirst, hRest⟩
      · rintro ⟨hFirst, hRest⟩
        exact ⟨hRest, if_neg hFirst⟩

/-- A history of the entries of a map, each written as the map has it. -/
theorem lastWrite_eq_of_mem {h : List (K × V)} {m : K → Option V} (hMap : ∀ e ∈ h, m e.1 = some e.2)
    (hAll : ∀ k v, m k = some v → (k, v) ∈ h) (k : K) : lastWrite h k = m k := by
  cases hLast : lastWrite h k with
  | some v => exact (hMap _ (mem_of_lastWrite hLast)).symm
  | none =>
      cases hEntry : m k with
      | none => rfl
      | some v => exact absurd rfl (lastWrite_eq_none_iff.mp hLast _ (hAll k v hEntry))

/-- Where every key is written once, each write is the last one of its key. -/
theorem lastWrite_of_nodup {h : List (K × V)} (hNodup : (h.map Prod.fst).Nodup) {k : K} {v : V}
    (hMem : (k, v) ∈ h) : lastWrite h k = some v := by
  cases hLast : lastWrite h k with
  | none => exact absurd rfl (lastWrite_eq_none_iff.mp hLast (k, v) hMem)
  | some v' =>
      have hPair := List.inj_on_of_nodup_map hNodup (mem_of_lastWrite hLast) hMem rfl
      rw [(Prod.mk.inj hPair).2]

/-- What is written may be computed from the write that counts. -/
theorem lastWrite_map {α : Type w} (key : α → K) (value : α → V) (items : List α) (k : K) :
    lastWrite (items.map fun a => (key a, value a)) k =
      (lastWrite (items.map fun a => (key a, a)) k).map value := by
  induction items with
  | nil => rfl
  | cons a rest ih =>
      rw [List.map_cons, List.map_cons, lastWrite, lastWrite, ih]
      cases lastWrite (rest.map fun a => (key a, a)) k with
      | some v => rfl
      | none =>
          simp only [Option.map_none, Option.none_or]
          split_ifs <;> rfl

end LastWrite

namespace HashMap

variable {K V : Type} [DecidableEq K]

/-- Inserting a history into a map, oldest write first. -/
theorem get_foldl_insert {α : Type} (key : α → K) (value : α → V) (items : List α)
    (m : HashMap K V) (k : K) :
    get (items.foldl (fun m a => m.insert (key a) (value a)) m) k =
      (LastWrite.lastWrite (items.map fun a => (key a, value a)) k).or (get m k) := by
  induction items generalizing m with
  | nil => simp
  | cons a rest ih =>
      rw [List.foldl_cons, ih, List.map_cons, LastWrite.lastWrite, get_insert, Option.or_assoc]
      congr 1
      by_cases hKey : key a = k
      · rw [if_pos hKey.symm, if_pos hKey, Option.some_or]
      · rw [if_neg (Ne.symm hKey), if_neg hKey, Option.none_or]

end HashMap
