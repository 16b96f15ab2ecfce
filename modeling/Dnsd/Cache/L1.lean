import Mathlib.Algebra.GroupWithZero.Nat
import Mathlib.Data.List.Nodup
import Mathlib.Tactic.Common
import Dnsd.Rust.Text

/-! The first cache level: 64 shards in memory, each a list of entries with its
own bound on their number. -/

namespace Dnsd.Cache.L1

open Bytes

/-- `SHARDS`, the number of parts that each have a lock of their own. -/
def shardCount : Nat := 64

/-- A reply in the first level, with the time it was stored at and its lifetime there. -/
structure Entry where
  raw : Bytes
  storedSecs : Int64
  ttlSecs : Int64
  deriving DecidableEq

/-- The entries of one shard behind their lock. -/
abbrev Shard := List (Str × Entry)

/-- The shards, the room in each of them, and the lifetime that no entry goes beyond. -/
structure L1Cache where
  shards : Vector Shard shardCount
  maxPerShard : Nat
  maxTtlSecs : Int64

/-- `fnv32`: the hash that picks the shard of a key. -/
def fnv32 (data : Bytes) : UInt32 :=
  data.foldl (fun h b => (h ^^^ b.toUInt32) * 16777619) 2166136261

/-- `now - e.stored_secs < e.ttl_secs && now - e.stored_secs < self.max_ttl_secs`. -/
def Entry.fresh (e : Entry) (maxTtlSecs now : Int64) : Bool :=
  now - e.storedSecs < e.ttlSecs ∧ now - e.storedSecs < maxTtlSecs

/-- `Vec::swap_remove`: the last element takes the place of the removed one. -/
def swapRemove {α : Type} (xs : List α) (i : Nat) : List α :=
  match xs.getLast? with
  | none => xs
  | some last => (xs.set i last).dropLast

namespace Shard

/-- The first entry of the key decides; an expired one is removed. -/
def get (s : Shard) (maxTtlSecs now : Int64) (key : Str) : Option Bytes × Shard :=
  let i := s.findIdx fun p => p.1 = key
  match s[i]? with
  | none => (none, s)
  | some (_, e) => if e.fresh maxTtlSecs now then (some e.raw, s) else (none, swapRemove s i)

/-- Room for one more entry: the expired ones go first, then the one in front. -/
def evict (s : Shard) (maxPerShard : Nat) (maxTtlSecs now : Int64) : Shard :=
  let s := if maxPerShard ≤ s.length then s.filter fun p => p.2.fresh maxTtlSecs now else s
  if maxPerShard ≤ s.length then swapRemove s 0 else s

/-- Replace the entry of the key in place, or append one. -/
def store (s : Shard) (key : Str) (entry : Entry) : Shard :=
  let i := s.findIdx fun p => p.1 = key
  if i < s.length then s.set i (key, entry) else s ++ [(key, entry)]

end Shard

namespace L1Cache

/-- `L1Cache::new`: each shard has room for its part of the entries, and for 64 at least.
Zero stands for the defaults. -/
def new (maxEntries : Nat) (maxTtlSecs : Int64) : L1Cache where
  shards := Vector.replicate shardCount []
  maxPerShard := max ((if maxEntries = 0 then 131072 else maxEntries) / shardCount) 64
  maxTtlSecs := if maxTtlSecs ≤ 0 then 60 else maxTtlSecs

/-- The index of the shard of a key. -/
def shard (key : Str) : Fin shardCount :=
  ⟨(fnv32 key.bytes).toNat % shardCount, Nat.mod_lt _ (by decide)⟩

/-- `L1Cache::get`: an entry that has expired is taken out on the way. -/
def get (c : L1Cache) (now : Int64) (key : Str) : Option Bytes × L1Cache :=
  let (found, s) := Shard.get c.shards[shard key] c.maxTtlSecs now key
  (found, { c with shards := c.shards.set (shard key) s })

/-- `L1Cache::put`: an entry for no time at all is not stored, and a shard without room
gets some first. -/
def put (c : L1Cache) (now : Int64) (key : Str) (raw : Bytes) (ttlSecs : Int64) : L1Cache :=
  if ttlSecs ≤ 0 then c
  else
    let ttl := min ttlSecs c.maxTtlSecs
    let s := Shard.evict c.shards[shard key] c.maxPerShard c.maxTtlSecs now
    { c with shards := c.shards.set (shard key) (Shard.store s key ⟨raw, now, ttl⟩) }

/-- `L1Cache::del`: the entry of the key is dropped from its shard, if there is one. -/
def del (c : L1Cache) (key : Str) : L1Cache :=
  { c with shards := c.shards.set (shard key) (c.shards[shard key].filter fun p => p.1 ≠ key) }

/-- The shard of a key, where it is looked for and stored. -/
abbrev shardOf (c : L1Cache) (key : Str) : Shard := c.shards[shard key]

/-- The number of removed entries and what is left. -/
def purgePrefix (c : L1Cache) (pre : Str) : Nat × L1Cache :=
  let keep (s : Shard) : Shard := s.filter fun p => !pre.isPrefixOf p.1
  ((c.shards.map fun s => s.length - (keep s).length).sum, { c with shards := c.shards.map keep })

/-- `L1Cache::len`: the entries of all shards, the expired ones included. -/
def len (c : L1Cache) : Nat := (c.shards.map List.length).sum

end L1Cache

/-! ## Where entries come from -/

theorem mem_of_mem_swapRemove {α : Type} {xs : List α} {i : Nat} {x : α}
    (h : x ∈ swapRemove xs i) : x ∈ xs := by
  rw [swapRemove] at h
  cases hLast : xs.getLast? with
  | none => rwa [hLast] at h
  | some last =>
      rw [hLast] at h
      rcases List.mem_or_eq_of_mem_set ((List.dropLast_sublist _).subset h) with hOld | rfl
      · exact hOld
      · exact List.mem_of_getLast? hLast

namespace Shard

variable {s : Shard} {maxTtlSecs now : Int64} {key : Str} {p : Str × Entry}

/-- What a shard returns is the value of a fresh entry of the key. -/
theorem get_eq_some {raw : Bytes} (h : (get s maxTtlSecs now key).1 = some raw) :
    ∃ e, (key, e) ∈ s ∧ e.fresh maxTtlSecs now = true ∧ e.raw = raw := by
  rw [get] at h
  split at h
  · cases h
  · rename_i k e hFound
    split_ifs at h with hFresh
    cases h
    obtain ⟨hBound, hGet⟩ := List.getElem?_eq_some_iff.mp hFound
    have hKey := List.findIdx_getElem (w := hBound)
    rw [hGet] at hKey
    rw [← of_decide_eq_true hKey]
    exact ⟨e, hGet ▸ List.getElem_mem hBound, hFresh, rfl⟩

/-- A get adds no entry to a shard. -/
theorem mem_of_mem_get (h : p ∈ (get s maxTtlSecs now key).2) : p ∈ s := by
  rw [get] at h
  split at h
  · exact h
  · split_ifs at h
    · exact h
    · exact mem_of_mem_swapRemove h

theorem mem_of_mem_evict {maxPerShard : Nat} (h : p ∈ evict s maxPerShard maxTtlSecs now) :
    p ∈ s := by
  rw [evict] at h
  have hKept : p ∈ if maxPerShard ≤ s.length then s.filter fun p => p.2.fresh maxTtlSecs now
      else s := by
    split_ifs at h ⊢
    · exact mem_of_mem_swapRemove h
    · exact h
    · exact h
  split_ifs at hKept
  · exact List.mem_of_mem_filter hKept
  · exact hKept

/-- A store adds its own entry and no other. -/
theorem mem_store {entry : Entry} (h : p ∈ store s key entry) : p ∈ s ∨ p = (key, entry) := by
  rw [store] at h
  split_ifs at h
  · exact List.mem_or_eq_of_mem_set h
  · simpa using h

end Shard

namespace L1Cache

variable {c : L1Cache} {now : Int64} {key k : Str} {e : Entry}

/-- Some shard has the entry under the key. -/
def Has (c : L1Cache) (k : Str) (e : Entry) : Prop := ∃ i : Fin shardCount, (k, e) ∈ c.shards[i]

/-- A new cache has nothing. -/
theorem not_has_new (maxEntries : Nat) (maxTtlSecs : Int64) : ¬(new maxEntries maxTtlSecs).Has k e := by
  rintro ⟨i, h⟩
  simp [new] at h

/-- After the replacement of one shard an entry is an old one or in that shard. -/
theorem has_set {i : Fin shardCount} {s : Shard} (h : Has { c with shards := c.shards.set i s } k e) :
    c.Has k e ∨ (k, e) ∈ s := by
  obtain ⟨j, hj⟩ := h
  by_cases hSame : i = j
  · subst hSame
    exact Or.inr (by simpa using hj)
  · have hNe : (i : Nat) ≠ j := fun hEq => hSame (Fin.ext hEq)
    refine Or.inl ⟨j, ?_⟩
    simpa [Vector.getElem_set_ne _ _ hNe] using hj

/-- What the cache returns is the value of a fresh entry of the key. -/
theorem get_eq_some {raw : Bytes} (h : (c.get now key).1 = some raw) :
    ∃ e, c.Has key e ∧ e.fresh c.maxTtlSecs now = true ∧ e.raw = raw := by
  obtain ⟨e, hMem, hFresh⟩ := Shard.get_eq_some h
  exact ⟨e, ⟨shard key, hMem⟩, hFresh⟩

@[simp] theorem get_maxTtlSecs (c : L1Cache) (now : Int64) (key : Str) :
    (c.get now key).2.maxTtlSecs = c.maxTtlSecs := rfl

@[simp] theorem put_maxTtlSecs (c : L1Cache) (now : Int64) (key : Str) (raw : Bytes)
    (ttlSecs : Int64) : (c.put now key raw ttlSecs).maxTtlSecs = c.maxTtlSecs := by
  rw [put]
  split_ifs <;> rfl

/-- A get adds nothing. -/
theorem has_get (h : (c.get now key).2.Has k e) : c.Has k e := by
  rcases has_set h with hOld | hMem
  · exact hOld
  · exact ⟨shard key, Shard.mem_of_mem_get hMem⟩

/-- A put adds one entry, stored now and with at most the given ttl. -/
theorem has_put {raw : Bytes} {ttlSecs : Int64} (h : (c.put now key raw ttlSecs).Has k e) :
    c.Has k e ∨ 0 < ttlSecs ∧ k = key ∧ e = ⟨raw, now, min ttlSecs c.maxTtlSecs⟩ := by
  rw [put] at h
  split_ifs at h with hTtl
  · exact Or.inl h
  · rcases has_set h with hOld | hMem
    · exact Or.inl hOld
    · rcases Shard.mem_store hMem with hKept | hNew
      · exact Or.inl ⟨shard key, Shard.mem_of_mem_evict hKept⟩
      · cases hNew
        exact Or.inr ⟨Int64.not_le.mp hTtl, rfl, rfl⟩

theorem has_del (h : (c.del key).Has k e) : c.Has k e := by
  rcases has_set h with hOld | hMem
  · exact hOld
  · exact ⟨shard key, List.mem_of_mem_filter hMem⟩

theorem has_purgePrefix {pre : Str} (h : (c.purgePrefix pre).2.Has k e) : c.Has k e := by
  obtain ⟨i, hi⟩ := h
  have hKept : (k, e) ∈ c.shards[i].filter fun p => !pre.isPrefixOf p.1 := by
    simpa [purgePrefix] using hi
  exact ⟨i, List.mem_of_mem_filter hKept⟩

end L1Cache

/-! ## One entry for each key -/

theorem nodup_swapRemove {α : Type} {xs : List α} (h : xs.Nodup) (i : Nat) :
    (swapRemove xs i).Nodup := by
  rcases xs.eq_nil_or_concat with rfl | ⟨ys, last, rfl⟩
  · exact h
  · obtain ⟨hLast, hBefore⟩ := (List.nodup_concat ys last).mp h
    rw [List.concat_eq_append, swapRemove, List.getLast?_concat]
    dsimp only
    by_cases hi : i < ys.length
    · rw [List.set_append_left i last hi, List.dropLast_concat]
      exact hBefore.set hLast
    · rw [List.set_append_right i last (by omega)]
      rcases Nat.eq_zero_or_pos (i - ys.length) with hEnd | hPast
      · rwa [hEnd, List.set_cons_zero, List.dropLast_concat]
      · rwa [List.set_eq_of_length_le (by rw [List.length_singleton]; exact hPast), List.dropLast_concat]

theorem map_swapRemove {α β : Type} (f : α → β) (xs : List α) (i : Nat) :
    (swapRemove xs i).map f = swapRemove (xs.map f) i := by
  rw [swapRemove, swapRemove, List.getLast?_map]
  cases xs.getLast? with
  | none => rfl
  | some last => rw [Option.map_some, List.map_dropLast, List.map_set]

namespace Shard

/-- No two entries of a shard have one key. -/
def Keyed (s : Shard) : Prop := (s.map Prod.fst).Nodup

variable {s : Shard} {maxTtlSecs now : Int64} {key : Str}

/-- Taking out an entry leaves one entry for each key. -/
theorem Keyed.swapRemove (h : s.Keyed) (i : Nat) : Keyed (swapRemove s i) := by
  rw [Keyed, map_swapRemove]
  exact nodup_swapRemove h i

theorem Keyed.filter (h : s.Keyed) (p : Str × Entry → Bool) : Keyed (s.filter p) :=
  List.Nodup.sublist (List.filter_sublist.map _) h

theorem Keyed.get (h : s.Keyed) : Keyed (get s maxTtlSecs now key).2 := by
  rw [Shard.get]
  split
  · exact h
  · split_ifs
    · exact h
    · exact h.swapRemove _

theorem Keyed.evict (h : s.Keyed) (maxPerShard : Nat) :
    Keyed (evict s maxPerShard maxTtlSecs now) := by
  have hFresh : Keyed (if maxPerShard ≤ s.length then s.filter fun p => p.2.fresh maxTtlSecs now
      else s) := by
    split_ifs
    · exact h.filter _
    · exact h
  rw [Shard.evict]
  split_ifs at hFresh ⊢
  · exact hFresh.swapRemove 0
  · exact hFresh
  · exact hFresh

/-- And a store, which replaces the entry of its key. -/
theorem Keyed.store (h : s.Keyed) (entry : Entry) : Keyed (store s key entry) := by
  rw [Shard.store]
  split_ifs with hFound
  · have hKey := List.findIdx_getElem (w := hFound)
    have hAt : (s.map Prod.fst)[s.findIdx fun p => p.1 = key]? = some key := by
      rw [List.getElem?_map, List.getElem?_eq_getElem hFound, Option.map_some]
      exact congrArg some (of_decide_eq_true hKey)
    have hSame : (s.map Prod.fst).set (s.findIdx fun p => p.1 = key) key = s.map Prod.fst := by
      apply List.ext_getElem?
      intro j
      rw [List.getElem?_set]
      split_ifs with hj hBound
      · rw [← hj, hAt]
      · rw [List.length_map] at hBound
        exact absurd hFound hBound
      · rfl
    rw [Keyed, List.map_set, hSame]
    exact h
  · have hNone : key ∉ s.map Prod.fst := by
      intro hMem
      obtain ⟨p, hp, hEq⟩ := List.mem_map.mp hMem
      exact hFound (List.findIdx_lt_length_of_exists ⟨p, hp, by simpa using hEq⟩)
    rw [Keyed, List.map_append, List.map_singleton, ← List.concat_eq_append]
    exact h.concat hNone

theorem mem_store_self (entry : Entry) : (key, entry) ∈ store s key entry := by
  rw [Shard.store]
  split_ifs with hFound
  · exact List.mem_set hFound _
  · simp

/-- Behind a store the key has the new entry only. -/
theorem Keyed.eq_of_mem_store (h : s.Keyed) {entry e : Entry} (hMem : (key, e) ∈ Shard.store s key entry) :
    e = entry := by
  have hPair := List.inj_on_of_nodup_map (h.store entry) hMem (mem_store_self entry) rfl
  exact congrArg Prod.snd hPair

end Shard

namespace L1Cache

/-- Every entry is in the shard of its key, and no two have one key. -/
structure Placed (c : L1Cache) : Prop where
  here : ∀ (i : Fin shardCount) p, p ∈ c.shards[i] → shard p.1 = i
  keyed : ∀ i : Fin shardCount, Shard.Keyed c.shards[i]

variable {c : L1Cache} {now : Int64} {key : Str}

/-- In a new cache nothing is out of place. -/
theorem placed_new (maxEntries : Nat) (maxTtlSecs : Int64) : (new maxEntries maxTtlSecs).Placed := by
  constructor
  · intro i p h
    simp [new] at h
  · intro i
    simp [new, Shard.Keyed]

/-- Writing back one shard keeps the keys in their places, if they belong there. -/
theorem Placed.set (h : c.Placed) {i : Fin shardCount} {s : Shard} (hHere : ∀ p ∈ s, shard p.1 = i)
    (hKeyed : s.Keyed) : Placed { c with shards := c.shards.set i s } := by
  constructor
  · intro j p hp
    by_cases hSame : i = j
    · subst hSame
      exact hHere p (by simpa using hp)
    · have hNe : (i : Nat) ≠ j := fun hEq => hSame (Fin.ext hEq)
      exact h.here j p (by simpa [Vector.getElem_set_ne _ _ hNe] using hp)
  · intro j
    by_cases hSame : i = j
    · subst hSame
      simpa using hKeyed
    · have hNe : (i : Nat) ≠ j := fun hEq => hSame (Fin.ext hEq)
      simpa [Vector.getElem_set_ne _ _ hNe] using h.keyed j

/-- A get keeps every key in its shard. -/
theorem Placed.get (h : c.Placed) : (c.get now key).2.Placed :=
  h.set (fun p hp => h.here _ p (Shard.mem_of_mem_get hp)) (h.keyed _).get

theorem Placed.put (h : c.Placed) (raw : Bytes) (ttlSecs : Int64) :
    (c.put now key raw ttlSecs).Placed := by
  rw [L1Cache.put]
  split_ifs
  · exact h
  · refine h.set (fun p hp => ?_) (((h.keyed _).evict _).store _)
    rcases Shard.mem_store hp with hOld | rfl
    · exact h.here _ p (Shard.mem_of_mem_evict hOld)
    · rfl

theorem Placed.del (h : c.Placed) : (c.del key).Placed :=
  h.set (fun p hp => h.here _ p (List.mem_of_mem_filter hp)) ((h.keyed _).filter _)

/-- Behind a put the key has no other entry. -/
theorem Placed.has_put_self (h : c.Placed) {raw : Bytes} {ttlSecs : Int64} (hTtl : 0 < ttlSecs)
    {e : Entry} (hHas : (c.put now key raw ttlSecs).Has key e) : e.raw = raw := by
  obtain ⟨i, hi⟩ := hHas
  have hPut : (c.put now key raw ttlSecs).Placed := h.put raw ttlSecs
  have hPlace := hPut.here i _ hi
  subst hPlace
  rw [L1Cache.put, if_neg (Int64.not_le.mpr hTtl)] at hi
  have hMem : (key, e) ∈ Shard.store (Shard.evict c.shards[shard key] c.maxPerShard c.maxTtlSecs now)
      key ⟨raw, now, min ttlSecs c.maxTtlSecs⟩ := by simpa using hi
  rw [((h.keyed _).evict _).eq_of_mem_store hMem]

/-- Behind a del the key has no entry. -/
theorem Placed.not_has_del (h : c.Placed) (e : Entry) : ¬(c.del key).Has key e := by
  rintro ⟨i, hi⟩
  have hDel : (c.del key).Placed := h.del
  have hPlace := hDel.here i _ hi
  subst hPlace
  simp [L1Cache.del] at hi

end L1Cache

end Dnsd.Cache.L1
