import Mathlib.Data.List.AList

/-! Hash maps as association lists with distinct keys. The order of the list
stands for the unspecified iteration order of a map. -/

/-- `HashMap<K, V>`, as the list of its entries in the order in which an iteration meets
them. Its keys are distinct. -/
abbrev HashMap (K V : Type) := AList fun _ : K => V

namespace HashMap

variable {K V : Type} [DecidableEq K]

/-- `HashMap::get`: the value under a key, if there is one. -/
def get (m : HashMap K V) (k : K) : Option V := AList.lookup k m

/-- `HashMap::values`, in the order of iteration, which nothing may rely on. -/
def values (m : HashMap K V) : List V := m.entries.map Sigma.snd

/-- `HashMap::len`: as many as there are keys. -/
def len (m : HashMap K V) : Nat := m.entries.length

/-- `HashMap::retain`: the entries that a predicate keeps, with the order left as it was.
-/
def retain (keeps : K → V → Bool) (m : HashMap K V) : HashMap K V :=
  ⟨m.entries.filter fun e => keeps e.1 e.2, m.nodupKeys.sublist List.filter_sublist⟩

@[simp] theorem get_empty (k : K) : get (∅ : HashMap K V) k = none := rfl

@[simp] theorem get_insert_self (m : HashMap K V) (k : K) (v : V) :
    get (m.insert k v) k = some v := AList.lookup_insert m

@[simp] theorem get_insert_ne (m : HashMap K V) {k k' : K} (v : V) (h : k ≠ k') :
    get (m.insert k' v) k = get m k := AList.lookup_insert_ne h

theorem get_insert (m : HashMap K V) (k k' : K) (v : V) :
    get (m.insert k' v) k = if k = k' then some v else get m k := by
  split_ifs with h
  · rw [h, get_insert_self]
  · rw [get_insert_ne m v h]

@[simp] theorem get_erase_self (m : HashMap K V) (k : K) : get (m.erase k) k = none :=
  AList.lookup_erase k m

@[simp] theorem get_erase_ne (m : HashMap K V) {k k' : K} (h : k ≠ k') :
    get (m.erase k') k = get m k := AList.lookup_erase_ne h

theorem get_erase (m : HashMap K V) (k k' : K) :
    get (m.erase k') k = if k = k' then none else get m k := by
  split_ifs with h
  · rw [h, get_erase_self]
  · rw [get_erase_ne m h]

/-- The entries of a map are what lookups return. -/
theorem mem_entries_iff {m : HashMap K V} {k : K} {v : V} :
    (⟨k, v⟩ : Sigma fun _ : K => V) ∈ m.entries ↔ get m k = some v := by
  rw [get, ← AList.mem_lookup_iff]
  rfl

theorem get_retain (keeps : K → V → Bool) (m : HashMap K V) (k : K) :
    get (m.retain keeps) k = (get m k).filter (keeps k) := by
  have hMem : ∀ v, get (m.retain keeps) k = some v ↔ get m k = some v ∧ keeps k v = true := by
    intro v
    rw [← mem_entries_iff, ← mem_entries_iff]
    exact List.mem_filter
  refine Option.ext fun v => ?_
  rw [hMem, Option.filter_eq_some_iff]

end HashMap
