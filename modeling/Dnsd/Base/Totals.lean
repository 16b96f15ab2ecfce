import Dnsd.Rust.HashMap
import Mathlib.Algebra.BigOperators.Group.List.Basic
import Mathlib.Algebra.GroupWithZero.Nat

/-! The sum of a measure over the entries of a map, and how much of what a list
of writes has written is left in it. -/

namespace HashMap

variable {K V : Type} {size size' : K → V → Nat}

/-- The sum of a size over all entries of a map. -/
def total (size : K → V → Nat) (m : HashMap K V) : Nat := (m.entries.map fun e => size e.1 e.2).sum

@[simp] theorem total_empty : total size (∅ : HashMap K V) = 0 := rfl

variable [DecidableEq K] {m m' : HashMap K V}

/-- What the entry of a key measures, if there is one. -/
def measure (size : K → V → Nat) (m : HashMap K V) (k : K) : Nat := ((get m k).map (size k)).getD 0

theorem measure_of_none {k : K} (h : get m k = none) : measure size m k = 0 := by
  rw [measure, h]
  rfl

theorem measure_of_some {k : K} {v : V} (h : get m k = some v) : measure size m k = size k v := by
  rw [measure, h]
  rfl

theorem measure_congr {k : K} (h : ∀ v, get m k = some v → size k v = size' k v) :
    measure size m k = measure size' m k := by
  cases hEntry : get m k with
  | none => rw [measure_of_none hEntry, measure_of_none hEntry]
  | some v => rw [measure_of_some hEntry, measure_of_some hEntry, h v hEntry]

/-- The sum without an entry, and the entry. -/
theorem total_erase (size : K → V → Nat) (m : HashMap K V) (k : K) :
    total size (m.erase k) + measure size m k = total size m := by
  by_cases hMem : k ∈ m
  · obtain ⟨v, before, after, -, hSplit, hErase⟩ := List.exists_of_kerase (AList.mem_keys.mp hMem)
    have hEntry : get m k = some v := mem_entries_iff.mp (by rw [hSplit]; simp)
    have hErased : (m.erase k).entries = before ++ after := hErase
    rw [total, total, hErased, hSplit, measure_of_some hEntry]
    simp only [List.map_append, List.map_cons, List.sum_append, List.sum_cons]
    omega
  · have hSame : m.erase k = m := AList.ext (List.kerase_of_notMem_keys hMem)
    rw [hSame, measure_of_none (AList.lookup_eq_none.mpr hMem), Nat.add_zero]

/-- The sum with another entry, and the one it replaces. -/
theorem total_insert (size : K → V → Nat) (m : HashMap K V) (k : K) (v : V) :
    total size (m.insert k v) + measure size m k = total size m + size k v := by
  have hErase := total_erase size m k
  have hInsert : total size (m.insert k v) = size k v + total size (m.erase k) := by
    rw [total, AList.entries_insert, List.map_cons, List.sum_cons]
    rfl
  omega

/-- Two measures that agree on the entries. -/
theorem total_congr (h : ∀ k v, get m k = some v → size k v = size' k v) :
    total size m = total size' m := by
  rw [total, total]
  congr 1
  exact List.map_congr_left fun e he => h e.1 e.2 (mem_entries_iff.mp he)

/-- The order of the entries is of no account. -/
theorem total_eq_of_get (h : ∀ k, get m k = get m' k) : total size m = total size m' := by
  have hPerm : m.entries.Perm m'.entries :=
    List.lookup_ext m.nodupKeys m'.nodupKeys fun k v => by
      have hSame : m.entries.dlookup k = m'.entries.dlookup k := h k
      rw [hSame]
  exact (hPerm.map _).sum_eq

section Writes

variable {α : Type} (key : α → K) (value : α → V)

/-- The sum over what some items write, each as often as it is in the list. -/
def written (size : K → V → Nat) (items : List α) : Nat :=
  (items.map fun a => size (key a) (value a)).sum

/-- No more is left than has been written, and all of it just when the keys are
different and new. -/
theorem total_foldl_insert (hPositive : ∀ k v, 0 < size k v) (items : List α) (m : HashMap K V) :
    total size (items.foldl (fun m a => m.insert (key a) (value a)) m) ≤
        total size m + written key value size items ∧
      (total size (items.foldl (fun m a => m.insert (key a) (value a)) m) =
          total size m + written key value size items ↔
        (items.map key).Nodup ∧ ∀ a ∈ items, get m (key a) = none) := by
  induction items generalizing m with
  | nil => simp [written]
  | cons a rest ih =>
      obtain ⟨hLe, hEq⟩ := ih (m.insert (key a) (value a))
      have hInsert := total_insert size m (key a) (value a)
      have hWritten : written key value size (a :: rest) =
          size (key a) (value a) + written key value size rest := by
        rw [written, List.map_cons, List.sum_cons]
        rfl
      rw [List.foldl_cons, hWritten, List.map_cons, List.nodup_cons, List.forall_mem_cons]
      cases hOld : get m (key a) with
      | some old =>
          have hReplaced := hPositive (key a) old
          rw [measure_of_some hOld] at hInsert
          exact ⟨by omega, iff_of_false (by omega) (by simp)⟩
      | none =>
          rw [measure_of_none hOld] at hInsert
          refine ⟨by omega, ?_⟩
          have hSum : total size m + (size (key a) (value a) + written key value size rest) =
              total size (m.insert (key a) (value a)) + written key value size rest := by omega
          rw [hSum, hEq]
          have hNew (b : α) : get (m.insert (key a) (value a)) (key b) = none ↔
              key b ≠ key a ∧ get m (key b) = none := by
            rw [get_insert]
            split_ifs with hKey
            · simp [hKey]
            · simp [hKey]
          simp only [hNew, List.mem_map, not_exists, not_and, forall_and]
          grind

end Writes

end HashMap
