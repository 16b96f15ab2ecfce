import Mathlib.Data.List.Perm.Basic
import Dnsd.Cache.L1

/-! Runs of the first level: a map with an expiry for each key that is bounded shard
by shard, and which of its entries a full shard gives up. -/

namespace Dnsd.Cache.L1

open Bytes

/-- The arguments of a put, with the time at which it is made. -/
structure Put where
  now : Int64
  key : Str
  raw : Bytes
  ttlSecs : Int64

/-- What is asked of the first level, with the times that the calls read. -/
inductive Request where
  | put (p : Put)
  | get (now : Int64) (key : Str)
  | del (key : Str)
  | purgePrefix (pre : Str)

/-- The reading of the clock in a request. -/
def Request.now? : Request → Option Int64
  | .put p => some p.now
  | .get now _ => some now
  | _ => none

/-- The request is a put that stores the key, or removes the key. -/
def Request.Touches (k : Str) : Request → Prop
  | .put p => 0 < p.ttlSecs ∧ p.key = k
  | .get _ _ => False
  | .del key => key = k
  | .purgePrefix pre => pre.isPrefixOf k = true

/-- The entry that a put leaves, with its lifetime cut to that of the level. -/
def Put.entry (p : Put) (maxTtlSecs : Int64) : Entry := ⟨p.raw, p.now, min p.ttlSecs maxTtlSecs⟩

/-! ## Removal by swapping -/

/-- What is taken out and what is left are the list again, in some order. -/
theorem cons_swapRemove_perm {α : Type} {xs : List α} {i : Nat} (h : i < xs.length) :
    (xs[i] :: swapRemove xs i).Perm xs := by
  rcases xs.eq_nil_or_concat with rfl | ⟨ys, last, rfl⟩
  · simp at h
  · simp only [List.concat_eq_append] at h ⊢
    rw [swapRemove, List.getLast?_concat]
    dsimp only
    rw [List.length_append, List.length_singleton] at h
    by_cases hi : i < ys.length
    · rw [List.set_append_left i last hi, List.dropLast_concat, List.getElem_append_left hi]
      calc (ys[i] :: ys.set i last).Perm (ys[i] :: last :: ys.eraseIdx i) :=
            (List.set_perm_cons_eraseIdx hi last).cons _
        _ |>.Perm (last :: ys[i] :: ys.eraseIdx i) := .swap ..
        _ |>.Perm (last :: ys) := (List.getElem_cons_eraseIdx_perm hi).cons _
        _ |>.Perm (ys ++ [last]) := (List.perm_append_singleton last ys).symm
    · obtain rfl : i = ys.length := by omega
      rw [List.set_append_right _ _ (Nat.le_refl _), Nat.sub_self, List.set_cons_zero,
        List.dropLast_concat, List.getElem_concat_length rfl]
      exact (List.perm_append_singleton last ys).symm

namespace Shard

variable {s : Shard} {maxTtlSecs now : Int64} {key : Str} {p : Str × Entry}

/-- A shard has at most one entry for a key. -/
theorem Keyed.unique (h : s.Keyed) {e e' : Entry} (hMem : (key, e) ∈ s) (hMem' : (key, e') ∈ s) :
    e = e' := congrArg Prod.snd (List.inj_on_of_nodup_map h hMem hMem' rfl)

/-- Without one of its entries a shard has those of the other keys. -/
theorem Keyed.mem_others (h : s.Keyed) {q : Str × Entry} {others : Shard}
    (hPerm : (q :: others).Perm s) : p ∈ others ↔ p ∈ s ∧ p.1 ≠ q.1 := by
  have hKeys : ((q :: others).map Prod.fst).Nodup := (hPerm.map Prod.fst).nodup_iff.mpr h
  rw [List.map_cons, List.nodup_cons] at hKeys
  rw [← hPerm.mem_iff, List.mem_cons]
  constructor
  · intro hMem
    exact ⟨Or.inr hMem, fun hSame => hKeys.1 (hSame ▸ List.mem_map_of_mem hMem)⟩
  · rintro ⟨rfl | hMem, hNe⟩
    · exact absurd rfl hNe
    · exact hMem

theorem length_swapRemove (hi : 0 < s.length) (i : Nat) :
    (L1.swapRemove s i).length + 1 = s.length := by
  rw [L1.swapRemove, List.getLast?_eq_some_getLast (List.length_pos_iff.mp hi)]
  simp only [List.length_dropLast, List.length_set]
  omega

/-- Where a scan for the key ends. -/
theorem scan_cases (s : Shard) (key : Str) :
    s.length ≤ (s.findIdx fun p => p.1 = key) ∧ (∀ p ∈ s, p.1 ≠ key) ∨
      ∃ e, ∃ hBound : (s.findIdx fun p => p.1 = key) < s.length,
        s[s.findIdx fun p => p.1 = key] = (key, e) ∧ (key, e) ∈ s := by
  by_cases hBound : (s.findIdx fun p => p.1 = key) < s.length
  · have hKey := of_decide_eq_true (List.findIdx_getElem (w := hBound))
    have hPair : s[s.findIdx fun p => p.1 = key] = (key, s[s.findIdx fun p => p.1 = key].2) :=
      Prod.ext hKey rfl
    refine Or.inr ⟨_, hBound, hPair, ?_⟩
    rw [← hPair]
    exact List.getElem_mem hBound
  · refine Or.inl ⟨by omega, fun p hp hKey => hBound ?_⟩
    exact List.findIdx_lt_length_of_exists ⟨p, hp, by simpa using hKey⟩

/-- A get drops nothing but a stale entry of its own key. -/
theorem Keyed.mem_get (h : s.Keyed) :
    p ∈ (Shard.get s maxTtlSecs now key).2 ↔
      p ∈ s ∧ (p.1 = key → p.2.fresh maxTtlSecs now = true) := by
  rw [Shard.get]
  rcases scan_cases s key with ⟨hEnd, hAbsent⟩ | ⟨e, hBound, hAt, hMem⟩
  · rw [List.getElem?_eq_none hEnd]
    exact ⟨fun hp => ⟨hp, fun hKey => absurd hKey (hAbsent p hp)⟩, fun hp => hp.1⟩
  · rw [List.getElem?_eq_getElem hBound, hAt]
    dsimp only
    have hOnly (hp : p ∈ s) (hKey : p.1 = key) : p.2 = e :=
      h.unique (show (key, p.2) ∈ s from hKey ▸ hp) hMem
    split_ifs with hFresh
    · refine ⟨fun hp => ⟨hp, fun hKey => ?_⟩, fun hp => hp.1⟩
      rwa [hOnly hp hKey]
    · rw [h.mem_others (cons_swapRemove_perm hBound), hAt]
      constructor
      · rintro ⟨hp, hNe⟩
        exact ⟨hp, fun hKey => absurd hKey hNe⟩
      · rintro ⟨hp, hLive⟩
        refine ⟨hp, fun hKey => hFresh ?_⟩
        rw [← hOnly hp hKey]
        exact hLive hKey

/-- A get returns the value of the fresh entry of its key, and nothing else. -/
theorem Keyed.get_eq_some (h : s.Keyed) {raw : Bytes} :
    (Shard.get s maxTtlSecs now key).1 = some raw ↔
      ∃ e, (key, e) ∈ s ∧ e.fresh maxTtlSecs now = true ∧ e.raw = raw := by
  constructor
  · exact Shard.get_eq_some
  · rintro ⟨e, hMem, hFresh, rfl⟩
    rw [Shard.get]
    rcases scan_cases s key with ⟨-, hAbsent⟩ | ⟨e', hBound, hAt, hMem'⟩
    · exact absurd rfl (hAbsent _ hMem)
    · obtain rfl := h.unique hMem hMem'
      rw [List.getElem?_eq_getElem hBound, hAt]
      dsimp only
      rw [if_pos hFresh]

/-- A store puts its entry in place of the one that had the key. -/
theorem Keyed.mem_store (h : s.Keyed) {entry : Entry} :
    p ∈ Shard.store s key entry ↔ p = (key, entry) ∨ p ∈ s ∧ p.1 ≠ key := by
  rw [Shard.store]
  rcases scan_cases s key with ⟨hEnd, hAbsent⟩ | ⟨e, hBound, hAt, -⟩
  · rw [if_neg (by omega), List.mem_append, List.mem_singleton, or_comm]
    exact or_congr_right ⟨fun hp => ⟨hp, hAbsent p hp⟩, fun hp => hp.1⟩
  · have hOthers := h.mem_others (p := p) (List.getElem_cons_eraseIdx_perm hBound)
    rw [hAt] at hOthers
    rw [if_pos hBound, (List.set_perm_cons_eraseIdx hBound _).mem_iff, List.mem_cons, hOthers]

/-- What an eviction does first: a full shard loses its expired entries. -/
def sweep (s : Shard) (maxPerShard : Nat) (maxTtlSecs now : Int64) : Shard :=
  if maxPerShard ≤ s.length then s.filter fun p => p.2.fresh maxTtlSecs now else s

theorem evict_sweep (s : Shard) (maxPerShard : Nat) (maxTtlSecs now : Int64) :
    evict s maxPerShard maxTtlSecs now =
      if maxPerShard ≤ (sweep s maxPerShard maxTtlSecs now).length then
        swapRemove (sweep s maxPerShard maxTtlSecs now) 0
      else sweep s maxPerShard maxTtlSecs now := rfl

theorem Keyed.sweep (h : s.Keyed) (maxPerShard : Nat) :
    Keyed (sweep s maxPerShard maxTtlSecs now) := by
  rw [Shard.sweep]
  split_ifs
  · exact h.filter _
  · exact h

/-- A sweep drops the stale entries, and only of a shard that is full. -/
theorem mem_sweep {maxPerShard : Nat} : p ∈ sweep s maxPerShard maxTtlSecs now ↔
    p ∈ s ∧ (maxPerShard ≤ s.length → p.2.fresh maxTtlSecs now = true) := by
  rw [sweep]
  split_ifs with hFull
  · simp [hFull]
  · simp [hFull]

/-- The key of the entry that a full shard gives up for a new one. -/
def victim (s : Shard) (maxPerShard : Nat) (maxTtlSecs now : Int64) : Option Str :=
  if maxPerShard ≤ (sweep s maxPerShard maxTtlSecs now).length then
    (sweep s maxPerShard maxTtlSecs now).head?.map Prod.fst
  else none

/-- An eviction drops the stale entries of a full shard, and then at most its victim. -/
theorem Keyed.mem_evict (h : s.Keyed) {maxPerShard : Nat} (hRoom : 0 < maxPerShard) :
    p ∈ Shard.evict s maxPerShard maxTtlSecs now ↔
      p ∈ Shard.sweep s maxPerShard maxTtlSecs now ∧
        victim s maxPerShard maxTtlSecs now ≠ some p.1 := by
  have hSwept : Keyed (Shard.sweep s maxPerShard maxTtlSecs now) := h.sweep maxPerShard
  rw [evict_sweep, victim]
  generalize Shard.sweep s maxPerShard maxTtlSecs now = swept at hSwept ⊢
  split_ifs with hFull
  · have hBound : 0 < swept.length := by omega
    rw [hSwept.mem_others (cons_swapRemove_perm hBound), List.head?_eq_getElem?,
      List.getElem?_eq_getElem hBound]
    simp [eq_comm]
  · simp

/-- Behind an eviction there is room for one more entry. -/
theorem length_evict_lt {maxPerShard : Nat} (hRoom : 0 < maxPerShard)
    (h : s.length ≤ maxPerShard) :
    (evict s maxPerShard maxTtlSecs now).length < maxPerShard := by
  have hSwept : (sweep s maxPerShard maxTtlSecs now).length ≤ s.length := by
    rw [sweep]
    split_ifs
    · exact List.length_filter_le _ _
    · exact Nat.le_refl _
  rw [evict_sweep]
  split_ifs with hFull
  · have hLess := length_swapRemove (s := sweep s maxPerShard maxTtlSecs now) (by omega) 0
    omega
  · omega

theorem length_store_le (s : Shard) (key : Str) (entry : Entry) :
    (store s key entry).length ≤ s.length + 1 := by
  rw [store]
  split_ifs <;> simp

theorem length_get_le (s : Shard) (maxTtlSecs now : Int64) (key : Str) :
    (get s maxTtlSecs now key).2.length ≤ s.length := by
  rw [get]
  split
  · exact Nat.le_refl _
  · rename_i hFound
    split_ifs
    · exact Nat.le_refl _
    · obtain ⟨hBound, -⟩ := List.getElem?_eq_some_iff.mp hFound
      have hLess := length_swapRemove (s := s) (by omega) (s.findIdx fun p => p.1 = key)
      dsimp only
      omega

end Shard

/-! ## One request -/

namespace L1Cache

/-- The entry is listed under the key, in the shard of the key. -/
def Lists (c : L1Cache) (k : Str) (e : Entry) : Prop := (k, e) ∈ c.shardOf k

/-- A put of another key drops the entry of this one from their full shard. -/
def Evicts (c : L1Cache) (k : Str) : Request → Prop
  | .put p => 0 < p.ttlSecs ∧ p.key ≠ k ∧ shard p.key = shard k ∧
      Shard.victim (c.shardOf k) c.maxPerShard c.maxTtlSecs p.now = some k
  | _ => False

/-- What a request makes of the level, whatever it returns. -/
def serve (c : L1Cache) : Request → L1Cache
  | .put p => c.put p.now p.key p.raw p.ttlSecs
  | .get now key => (c.get now key).2
  | .del key => c.del key
  | .purgePrefix pre => (c.purgePrefix pre).2

variable {c : L1Cache} {k : Str} {e : Entry}

/-- After the replacement of the shard of a key. -/
theorem lists_set {key : Str} {s : Shard} {hKey : (shard key : Nat) < shardCount} :
    Lists { c with shards := c.shards.set (shard key) s hKey } k e ↔
      if shard key = shard k then (k, e) ∈ s else c.Lists k e := by
  rw [Lists]
  split_ifs with hSame
  · simp [hSame]
  · have hNe : (shard key : Nat) ≠ shard k := fun hEq => hSame (Fin.ext hEq)
    simp [Vector.getElem_set_ne _ _ hNe, Lists]

/-- Keys with the same number are in the same shard. -/
theorem shards_congr {key : Str} (h : shard key = shard k) :
    c.shards[shard key] = c.shards[shard k] := by
  simp only [h]

/-- A get changes what is listed for its own key alone, and only where that entry is
stale. -/
theorem lists_get (h : c.Placed) {now : Int64} {key : Str} :
    (c.get now key).2.Lists k e ↔
      c.Lists k e ∧ (key = k → e.fresh c.maxTtlSecs now = true) := by
  rw [get, lists_set]
  split_ifs with hShard
  · rw [shards_congr hShard, (h.keyed _).mem_get]
    exact and_congr_right fun _ => ⟨fun hLive hKey => hLive hKey.symm, fun hLive hKey => hLive hKey.symm⟩
  · have hKey : key ≠ k := fun hKey => hShard (congrArg shard hKey)
    simp [hKey]

/-- A put lists its entry; in its shard the sweep and the victim are gone, and everything
else stays. -/
theorem lists_put (h : c.Placed) (hRoom : 0 < c.maxPerShard) {p : Put} (hTtl : 0 < p.ttlSecs) :
    (c.put p.now p.key p.raw p.ttlSecs).Lists k e ↔
      p.key = k ∧ e = p.entry c.maxTtlSecs ∨
      p.key ≠ k ∧ c.Lists k e ∧ (shard p.key = shard k →
        (c.maxPerShard ≤ c.shards[shard k].length → e.fresh c.maxTtlSecs p.now = true) ∧
        Shard.victim c.shards[shard k] c.maxPerShard c.maxTtlSecs p.now ≠ some k) := by
  rw [put, if_neg (Int64.not_le.mpr hTtl), lists_set]
  split_ifs with hShard
  · rw [shards_congr hShard, ((h.keyed _).evict _).mem_store, (h.keyed _).mem_evict hRoom,
      Shard.mem_sweep, Prod.mk.injEq]
    constructor
    · rintro (⟨hKey, hEntry⟩ | ⟨⟨⟨hMem, hLive⟩, hVictim⟩, hKey⟩)
      · exact Or.inl ⟨hKey.symm, hEntry⟩
      · exact Or.inr ⟨Ne.symm hKey, hMem, fun _ => ⟨hLive, hVictim⟩⟩
    · rintro (⟨hKey, hEntry⟩ | ⟨hKey, hMem, hKept⟩)
      · exact Or.inl ⟨hKey.symm, hEntry⟩
      · obtain ⟨hLive, hVictim⟩ := hKept hShard
        exact Or.inr ⟨⟨⟨hMem, hLive⟩, hVictim⟩, Ne.symm hKey⟩
  · have hKey : p.key ≠ k := fun hKey => hShard (congrArg shard hKey)
    simp [hKey, hShard]

/-- A del changes what is listed for its own key alone. -/
theorem lists_del {key : Str} : (c.del key).Lists k e ↔ c.Lists k e ∧ key ≠ k := by
  rw [del, lists_set]
  split_ifs with hShard
  · rw [shards_congr hShard, List.mem_filter, decide_eq_true_iff]
    exact and_congr_right fun _ => ne_comm
  · have hKey : key ≠ k := fun hKey => hShard (congrArg shard hKey)
    simp [hKey]

/-- A purge drops the keys with the prefix, and no others. -/
theorem lists_purgePrefix {pre : Str} :
    (c.purgePrefix pre).2.Lists k e ↔ c.Lists k e ∧ pre.isPrefixOf k = false := by
  simp [Lists, purgePrefix]

theorem Placed.purgePrefix (h : c.Placed) (pre : Str) : (c.purgePrefix pre).2.Placed := by
  constructor
  · intro i p hp
    have hMem : p ∈ c.shards[i] ∧ pre.isPrefixOf p.1 = false := by simpa [L1Cache.purgePrefix] using hp
    exact h.here i p hMem.1
  · intro i
    have hKept : (c.purgePrefix pre).2.shards[i] = c.shards[i].filter fun p => !pre.isPrefixOf p.1 := by
      simp [L1Cache.purgePrefix]
    rw [hKept]
    exact (h.keyed i).filter _

/-- Every entry is in the shard of its key, the keys of a shard are distinct, and
no shard is larger than its bound. -/
structure Bounded (c : L1Cache) : Prop extends c.Placed where
  room : 0 < c.maxPerShard
  length : ∀ i : Fin shardCount, (c.shards[i] : Shard).length ≤ c.maxPerShard

theorem length_set (h : c.Bounded) {i : Fin shardCount} {s : Shard} (hLength : s.length ≤ c.maxPerShard)
    (j : Fin shardCount) : ((c.shards.set i s)[j] : Shard).length ≤ c.maxPerShard := by
  by_cases hSame : i = j
  · subst hSame
    simpa using hLength
  · have hNe : (i : Nat) ≠ j := fun hEq => hSame (Fin.ext hEq)
    simpa [Vector.getElem_set_ne _ _ hNe] using h.length j

/-- A new cache is within its bounds. -/
theorem bounded_new (maxEntries : Nat) (maxTtlSecs : Int64) : (new maxEntries maxTtlSecs).Bounded where
  toPlaced := placed_new maxEntries maxTtlSecs
  room := Nat.lt_of_lt_of_le (by decide : 0 < 64) (Nat.le_max_right _ _)
  length i := by simp [new]

/-- No request changes the bounds themselves. -/
theorem serve_bounds (c : L1Cache) (req : Request) : (c.serve req).maxPerShard = c.maxPerShard ∧
    (c.serve req).maxTtlSecs = c.maxTtlSecs := by
  cases req with
  | put p =>
      rw [serve, put]
      split_ifs <;> exact ⟨rfl, rfl⟩
  | get | del | purgePrefix => exact ⟨rfl, rfl⟩

/-- Every request keeps the cache within its bounds. -/
theorem Bounded.serve (h : c.Bounded) (req : Request) : (c.serve req).Bounded := by
  have hRoom : 0 < (c.serve req).maxPerShard := by
    rw [(c.serve_bounds req).1]
    exact h.room
  cases req with
  | put p =>
      refine ⟨h.toPlaced.put _ _, hRoom, fun j => ?_⟩
      rw [(c.serve_bounds _).1, L1Cache.serve, put]
      split_ifs
      · exact h.length j
      · refine length_set h ?_ j
        have hEvicted :
            (Shard.evict c.shards[shard p.key] c.maxPerShard c.maxTtlSecs p.now).length <
              c.maxPerShard := Shard.length_evict_lt h.room (h.length (shard p.key))
        exact (Shard.length_store_le _ _ _).trans hEvicted
  | get now key =>
      refine ⟨h.toPlaced.get, hRoom, length_set h ?_⟩
      exact (Shard.length_get_le _ _ _ _).trans (h.length _)
  | del key =>
      exact ⟨h.toPlaced.del, hRoom, length_set h ((List.length_filter_le _ _).trans (h.length _))⟩
  | purgePrefix pre =>
      refine ⟨h.toPlaced.purgePrefix pre, hRoom, fun j => ?_⟩
      have hKept : ((c.purgePrefix pre).2.shards[j] : Shard) =
          c.shards[j].filter fun p => !pre.isPrefixOf p.1 := by simp [L1Cache.purgePrefix]
      rw [L1Cache.serve, hKept]
      exact (List.length_filter_le _ _).trans (h.length j)

/-- Behind a request an entry is one that it stores, or an old one that it neither
touches nor evicts. -/
theorem Bounded.lists_serve (h : c.Bounded) {req : Request} (hLists : (c.serve req).Lists k e) :
    (∃ p, req = .put p ∧ req.Touches k ∧ e = p.entry c.maxTtlSecs) ∨
      c.Lists k e ∧ ¬req.Touches k ∧ ¬c.Evicts k req := by
  cases req with
  | put p =>
      by_cases hTtl : 0 < p.ttlSecs
      · rcases (lists_put h.toPlaced h.room hTtl).mp hLists with ⟨hKey, hEntry⟩ | ⟨hKey, hOld, hKept⟩
        · exact Or.inl ⟨p, rfl, ⟨hTtl, hKey⟩, hEntry⟩
        · refine Or.inr ⟨hOld, fun hTouches => hKey hTouches.2, ?_⟩
          rintro ⟨-, -, hShard, hVictim⟩
          exact (hKept hShard).2 hVictim
      · rw [L1Cache.serve, put, if_pos (Int64.not_lt.mp hTtl)] at hLists
        exact Or.inr ⟨hLists, fun hTouches => hTtl hTouches.1, fun hEvicts => hTtl hEvicts.1⟩
  | get now key => exact Or.inr ⟨((lists_get h.toPlaced).mp hLists).1, id, id⟩
  | del key =>
      obtain ⟨hOld, hKey⟩ := lists_del.mp hLists
      exact Or.inr ⟨hOld, hKey, id⟩
  | purgePrefix pre =>
      obtain ⟨hOld, hKey⟩ := lists_purgePrefix.mp hLists
      exact Or.inr ⟨hOld, by simp [Request.Touches, hKey], id⟩

/-- An entry that is neither touched nor evicted stays, unless it has expired. -/
theorem Bounded.keeps_serve (h : c.Bounded) {req : Request} (hLists : c.Lists k e)
    (hTouches : ¬req.Touches k) (hEvicts : ¬c.Evicts k req) :
    (c.serve req).Lists k e ∨ ∃ now, req.now? = some now ∧ e.fresh c.maxTtlSecs now = false := by
  cases req with
  | put p =>
      by_cases hTtl : 0 < p.ttlSecs
      · by_cases hLive : e.fresh c.maxTtlSecs p.now = true
        · have hKey : p.key ≠ k := fun hKey => hTouches ⟨hTtl, hKey⟩
          refine Or.inl ((lists_put h.toPlaced h.room hTtl).mpr (Or.inr ⟨hKey, hLists, fun hShard => ?_⟩))
          exact ⟨fun _ => hLive, fun hVictim => hEvicts ⟨hTtl, hKey, hShard, hVictim⟩⟩
        · exact Or.inr ⟨p.now, rfl, by simpa using hLive⟩
      · rw [L1Cache.serve, put, if_pos (Int64.not_lt.mp hTtl)]
        exact Or.inl hLists
  | get now key =>
      by_cases hLive : e.fresh c.maxTtlSecs now = true
      · exact Or.inl ((lists_get h.toPlaced).mpr ⟨hLists, fun _ => hLive⟩)
      · exact Or.inr ⟨now, rfl, by simpa using hLive⟩
  | del key => exact Or.inl (lists_del.mpr ⟨hLists, hTouches⟩)
  | purgePrefix pre =>
      exact Or.inl (lists_purgePrefix.mpr ⟨hLists, Bool.eq_false_iff.mpr hTouches⟩)

/-- Right after a put its entry is listed: the shard had room or made it. -/
theorem Bounded.lists_put_self (h : c.Bounded) {p : Put} (hTtl : 0 < p.ttlSecs) :
    (c.serve (.put p)).Lists p.key (p.entry c.maxTtlSecs) :=
  (lists_put h.toPlaced h.room hTtl).mpr (Or.inl ⟨rfl, rfl⟩)

/-! ## Runs -/

/-- What some requests make of it, one after the other. -/
def serveAll (c : L1Cache) (requests : List Request) : L1Cache := requests.foldl serve c

/-- One of the requests is a put that evicts the key. -/
def EvictedIn (c : L1Cache) : List Request → Str → Prop
  | [], _ => False
  | req :: rest, k => c.Evicts k req ∨ EvictedIn (c.serve req) rest k

/-- The put is the last request that stores or removes its key, and no later put
evicts it. -/
def Stands (c : L1Cache) (requests : List Request) (k : Str) (p : Put) : Prop :=
  ∃ before after, requests = before ++ .put p :: after ∧ (Request.put p).Touches k ∧
    (∀ req ∈ after, ¬req.Touches k) ∧
    ¬EvictedIn (c.serveAll (before ++ [.put p])) after k

theorem serveAll_append (c : L1Cache) (requests more : List Request) :
    c.serveAll (requests ++ more) = (c.serveAll requests).serveAll more := List.foldl_append

/-- A key is evicted in a longer run if it was before, or if the last request evicts it.
-/
theorem evictedIn_concat (c : L1Cache) (requests : List Request) (req : Request) (k : Str) :
    EvictedIn c (requests ++ [req]) k ↔
      EvictedIn c requests k ∨ (c.serveAll requests).Evicts k req := by
  induction requests generalizing c with
  | nil => simp [EvictedIn, serveAll]
  | cons r rest ih => rw [List.cons_append, EvictedIn, EvictedIn, ih, or_assoc]; rfl

/-- A put stands after one more request if it is that request, or if the request neither
touches nor evicts its key. -/
theorem stands_concat {c : L1Cache} {requests : List Request} {req : Request} {k : Str} {p : Put} :
    Stands c (requests ++ [req]) k p ↔ req = .put p ∧ req.Touches k ∨
      Stands c requests k p ∧ ¬req.Touches k ∧ ¬(c.serveAll requests).Evicts k req := by
  constructor
  · rintro ⟨before, after, hSplit, hStores, hUntouched, hKept⟩
    rcases after.eq_nil_or_concat with rfl | ⟨after, last, rfl⟩
    · obtain ⟨-, hLast⟩ := List.append_inj' hSplit rfl
      rw [List.singleton_inj] at hLast
      exact Or.inl ⟨hLast, hLast ▸ hStores⟩
    · rw [List.concat_eq_append, ← List.cons_append, ← List.append_assoc] at hSplit
      obtain ⟨rfl, hLast⟩ := List.append_inj' hSplit rfl
      rw [List.singleton_inj] at hLast
      subst hLast
      rw [List.concat_eq_append, evictedIn_concat, not_or, ← serveAll_append] at hKept
      refine Or.inr ⟨⟨before, after, rfl, hStores, fun r hr => hUntouched r (by simp [hr]), hKept.1⟩,
        hUntouched req (by simp), ?_⟩
      simpa using hKept.2
  · rintro (⟨rfl, hStores⟩ | ⟨⟨before, after, rfl, hStores, hUntouched, hKept⟩, hOther, hStays⟩)
    · exact ⟨requests, [], rfl, hStores, by simp, id⟩
    · refine ⟨before, after ++ [req], by simp, hStores, fun r hr => ?_, ?_⟩
      · rcases List.mem_append.mp hr with hr | hr
        · exact hUntouched r hr
        · rwa [List.mem_singleton.mp hr]
      · rw [evictedIn_concat, not_or, ← serveAll_append]
        exact ⟨hKept, by simpa using hStays⟩

/-- The readings of the clock in some requests. -/
def times (requests : List Request) : List Int64 := requests.filterMap Request.now?

/-- The clock starts at the epoch or later and does not run backwards up to `now`. -/
structure Ticks (requests : List Request) (now : Int64) : Prop where
  epoch : ∀ t ∈ times requests, 0 ≤ t
  ordered : (times requests ++ [now]).Pairwise (· ≤ ·)

/-- A run that ticks up to a time ticks up to its last request, and that is not behind the
time. -/
theorem Ticks.before {requests : List Request} {req : Request} {now : Int64}
    (h : Ticks (requests ++ [req]) now) :
    Ticks requests now ∧ ∀ t, req.now? = some t → Ticks requests t ∧ t ≤ now := by
  have hTimes : times (requests ++ [req]) = times requests ++ times [req] := List.filterMap_append
  obtain ⟨hEpoch, hOrdered⟩ := h
  rw [hTimes] at hEpoch hOrdered
  have hOld : ∀ t ∈ times requests, 0 ≤ t := fun t ht => hEpoch t (List.mem_append_left _ ht)
  refine ⟨⟨hOld, ?_⟩, fun t ht => ⟨⟨hOld, ?_⟩, ?_⟩⟩
  · refine hOrdered.sublist (List.Sublist.append ?_ (List.Sublist.refl _))
    exact List.sublist_append_left _ _
  · have hLast : times [req] = [t] := by simp [times, ht]
    rw [hLast] at hOrdered
    exact hOrdered.sublist (List.sublist_append_left _ _)
  · have hMem : t ∈ times [req] := by simp [times, ht]
    exact (List.pairwise_append.mp hOrdered).2.2 t (List.mem_append_right _ hMem) now (by simp)

/-- The puts of such a run are between the origin and its end. -/
theorem Ticks.put {requests : List Request} {now : Int64} (h : Ticks requests now) {p : Put}
    (hPut : .put p ∈ requests) : 0 ≤ p.now ∧ p.now ≤ now := by
  have hMem : p.now ∈ times requests := List.mem_filterMap.mpr ⟨_, hPut, rfl⟩
  exact ⟨h.epoch _ hMem, (List.pairwise_append.mp h.ordered).2.2 _ hMem now (by simp)⟩

/-- Behind the time it was stored at, an entry is fresh for so many seconds. -/
theorem fresh_iff {p : Put} {maxTtlSecs now : Int64} (hStored : 0 ≤ p.now) (hNow : p.now ≤ now) :
    (p.entry maxTtlSecs).fresh maxTtlSecs now = true ↔
      now.toInt - p.now.toInt < (min p.ttlSecs maxTtlSecs).toInt := by
  have hLow := Int64.le_iff_toInt_le.mp hStored
  have hHigh := Int64.le_iff_toInt_le.mp hNow
  have hMost := now.toInt_lt
  have hZero : (0 : Int64).toInt = 0 := rfl
  have hMin : (min p.ttlSecs maxTtlSecs).toInt ≤ maxTtlSecs.toInt := by
    have hDef : min p.ttlSecs maxTtlSecs = if p.ttlSecs ≤ maxTtlSecs then p.ttlSecs else maxTtlSecs :=
      rfl
    rw [hDef]
    split_ifs with hLe
    · exact Int64.le_iff_toInt_le.mp hLe
    · exact Int.le_refl _
  have hAge : (now - p.now).toInt = now.toInt - p.now.toInt := by
    rw [Int64.toInt_sub, Int.bmod_eq_of_le (by omega) (by omega)]
  simp only [Put.entry, Entry.fresh, decide_eq_true_eq, Int64.lt_iff_toInt_lt, hAge]
  omega

/-- The entries are those of the puts that stand, as long as they are fresh. -/
theorem Bounded.lists_serveAll {c : L1Cache} (h : c.Bounded) (hEmpty : ∀ k e, ¬c.Lists k e)
    {requests : List Request} {now : Int64} (hTicks : Ticks requests now) :
    (c.serveAll requests).Bounded ∧ (c.serveAll requests).maxTtlSecs = c.maxTtlSecs ∧
    (∀ k e, (c.serveAll requests).Lists k e →
      ∃ p, Stands c requests k p ∧ e = p.entry c.maxTtlSecs) ∧
    ∀ k p, Stands c requests k p → (c.serveAll requests).Lists k (p.entry c.maxTtlSecs) ∨
      (p.entry c.maxTtlSecs).fresh c.maxTtlSecs now = false := by
  induction requests using List.reverseRecOn with
  | nil =>
      refine ⟨h, rfl, fun k e hLists => absurd hLists (hEmpty k e), ?_⟩
      rintro k p ⟨before, after, hSplit, -⟩
      simp at hSplit
  | append_singleton requests req ih =>
      obtain ⟨hBefore, hTime⟩ := hTicks.before
      obtain ⟨hBounded, hTtl, hOnly, hAll⟩ := ih hBefore
      have hServe : c.serveAll (requests ++ [req]) = (c.serveAll requests).serve req := by
        rw [serveAll_append]
        rfl
      rw [hServe]
      refine ⟨hBounded.serve req, (serve_bounds _ _).2.trans hTtl, fun k e hLists => ?_,
        fun k p hStands => ?_⟩
      · rcases hBounded.lists_serve hLists with ⟨p, rfl, hStores, rfl⟩ | ⟨hOld, hOther, hStays⟩
        · exact ⟨p, stands_concat.mpr (Or.inl ⟨rfl, hStores⟩), by rw [hTtl]⟩
        · obtain ⟨p, hStands, rfl⟩ := hOnly k e hOld
          exact ⟨p, stands_concat.mpr (Or.inr ⟨hStands, hOther, hStays⟩), rfl⟩
      · rcases stands_concat.mp hStands with ⟨rfl, hPositive, rfl⟩ | ⟨hOld, hOther, hStays⟩
        · exact Or.inl (hTtl ▸ hBounded.lists_put_self hPositive)
        · rcases hAll k p hOld with hLists | hExpired
          · rcases hBounded.keeps_serve hLists hOther hStays with hKept | ⟨t, hNow, hExpired⟩
            · exact Or.inl hKept
            · -- what has expired does not become fresh again
              obtain ⟨before, after, hSplit, -⟩ := hOld
              have hPut : .put p ∈ requests := by simp [hSplit]
              obtain ⟨hThen, hLater⟩ := hTime t hNow
              obtain ⟨hEpoch, hStored⟩ := hThen.put hPut
              have hSince := Int64.le_iff_toInt_le.mp hLater
              rw [hTtl, Bool.eq_false_iff, Ne, fresh_iff hEpoch hStored] at hExpired
              rw [Bool.eq_false_iff, Ne, fresh_iff hEpoch (hBefore.put hPut).2]
              exact Or.inr fun hFresh => hExpired (by omega)
          · exact Or.inr hExpired

/-- From an empty cache: the shards stay within their bounds, and a key has a value
exactly if a put of it stands that is younger than its ttl and the largest one. -/
theorem serveAll_refines {maxEntries : Nat} {maxTtlSecs : Int64} {requests : List Request}
    {now : Int64} (hTicks : Ticks requests now) :
    ((new maxEntries maxTtlSecs).serveAll requests).Bounded ∧
      ((new maxEntries maxTtlSecs).serveAll requests).maxPerShard =
        (new maxEntries maxTtlSecs).maxPerShard ∧
      ∀ k raw, (((new maxEntries maxTtlSecs).serveAll requests).get now k).1 = some raw ↔
        ∃ p, Stands (new maxEntries maxTtlSecs) requests k p ∧ p.raw = raw ∧
          now.toInt - p.now.toInt <
            (min p.ttlSecs (new maxEntries maxTtlSecs).maxTtlSecs).toInt := by
  have hEmpty : ∀ k e, ¬(new maxEntries maxTtlSecs).Lists k e := fun k e hLists =>
    not_has_new maxEntries maxTtlSecs ⟨_, hLists⟩
  obtain ⟨hBounded, hTtl, hOnly, hAll⟩ :=
    (bounded_new maxEntries maxTtlSecs).lists_serveAll hEmpty hTicks
  generalize new maxEntries maxTtlSecs = c at hBounded hTtl hOnly hAll ⊢
  have hPerShard : (c.serveAll requests).maxPerShard = c.maxPerShard := by
    clear hTicks hBounded hTtl hOnly hAll
    induction requests using List.reverseRecOn with
    | nil => rfl
    | append_singleton requests req ih =>
        rw [serveAll_append]
        exact (serve_bounds _ req).1.trans ih
  have hYoung {k : Str} {p : Put} (hStands : Stands c requests k p) :
      (p.entry c.maxTtlSecs).fresh c.maxTtlSecs now = true ↔
        now.toInt - p.now.toInt < (min p.ttlSecs c.maxTtlSecs).toInt := by
    obtain ⟨before, after, hSplit, -⟩ := hStands
    obtain ⟨hEpoch, hStored⟩ := hTicks.put (p := p) (by simp [hSplit])
    exact fresh_iff hEpoch hStored
  refine ⟨hBounded, hPerShard, fun k raw => ?_⟩
  have hGet : ((c.serveAll requests).get now k).1 = some raw ↔
      ∃ e, (c.serveAll requests).Lists k e ∧ e.fresh c.maxTtlSecs now = true ∧ e.raw = raw := by
    rw [← hTtl]
    exact (hBounded.keyed _).get_eq_some
  rw [hGet]
  constructor
  · rintro ⟨e, hLists, hFresh, rfl⟩
    obtain ⟨p, hStands, rfl⟩ := hOnly k e hLists
    exact ⟨p, hStands, rfl, (hYoung hStands).mp hFresh⟩
  · rintro ⟨p, hStands, rfl, hAge⟩
    have hFresh := (hYoung hStands).mpr hAge
    refine ⟨p.entry c.maxTtlSecs, (hAll k p hStands).resolve_right ?_, hFresh, rfl⟩
    simp [hFresh]

/-- Two puts, a delete of the second key, and a get of the first. -/
def fewRequests : List Request :=
  [.put ⟨100, ['a'], [1], 30⟩, .put ⟨110, ['b'], [2], 500⟩, .del ['b'], .get 120 ['a']]

/-- A few requests of two keys: the shards are within their bounds, and the value of the
first key is found. -/
theorem serveAll_refines_fewRequests :
    ((new 0 60).serveAll fewRequests).Bounded ∧
      (((new 0 60).serveAll fewRequests).get 129 ['a']).1 = some [1] := by
  have hEpoch : ∀ t ∈ times fewRequests, 0 ≤ t := by
    have hTimes : times fewRequests = [100, 110, 120] := rfl
    simp only [hTimes, List.forall_mem_cons]
    exact ⟨by decide, by decide, by decide, by simp⟩
  have hTicks : Ticks fewRequests 129 := ⟨hEpoch, by decide⟩
  obtain ⟨hBounded, -, hGet⟩ := @serveAll_refines 0 60 _ _ hTicks
  refine ⟨hBounded, (hGet ['a'] [1]).mpr ⟨⟨100, ['a'], [1], 30⟩, ?_, rfl, by decide⟩⟩
  refine ⟨[], _, rfl, ⟨by decide, rfl⟩, ?_, ?_⟩
  · simp [Request.Touches]
  · have hShard : shard ['b'] ≠ shard ['a'] := by decide
    rintro (⟨-, -, hSame, -⟩ | hEvicted | hEvicted | hEvicted)
    · exact hShard hSame
    all_goals exact hEvicted

end L1Cache

end Dnsd.Cache.L1
