import Dnsd.Base.Longest
import Dnsd.Resolve.Qqwry

/-! Longest-prefix match: the masks of the code against the leading bits of networks,
and what the two tables of networks find for an address. -/

namespace Dnsd.Resolve

namespace Ipv6NetOwned

/-- The address starts with the bits of the prefix. -/
def Covers (net : Ipv6NetOwned) (ip : Ipv6Addr) : Prop :=
  ∀ i < net.prefixLen.toNat, (ipv6Bits ip).getMsbD i = net.addr.getMsbD i

/-- The same prefix; the bits behind it are not of the network. -/
def Same (a b : Ipv6NetOwned) : Prop :=
  a.prefixLen = b.prefixLen ∧ ∀ i < a.prefixLen.toNat, a.addr.getMsbD i = b.addr.getMsbD i

theorem Same.symm {a b : Ipv6NetOwned} (h : a.Same b) : b.Same a :=
  ⟨h.1.symm, fun i hi => (h.2 i (h.1 ▸ hi)).symm⟩

/-- Two networks of one length that share an address are one. -/
theorem Covers.same {a b : Ipv6NetOwned} {ip : Ipv6Addr} (ha : a.Covers ip) (hb : b.Covers ip)
    (hLen : a.prefixLen = b.prefixLen) : a.Same b :=
  ⟨hLen, fun i hi => (ha i hi).symm.trans (hb i (hLen ▸ hi))⟩

/-- Under a mask of leading ones, what counts is the bits there. -/
theorem and_mask_eq_iff {x y : BitVec 128} {len : Nat} (h : len ≤ 128) :
    x &&& BitVec.allOnes 128 <<< (128 - len) = y &&& BitVec.allOnes 128 <<< (128 - len) ↔
      ∀ i < len, x.getMsbD i = y.getMsbD i := by
  have hMask (i : Nat) : (BitVec.allOnes 128 <<< (128 - len)).getMsbD i = decide (i < len) := by
    rw [BitVec.getMsbD_shiftLeft, BitVec.getMsbD_allOnes, decide_eq_decide]
    omega
  constructor
  · intro hEq i hi
    have hBit := congrArg (fun v => v.getMsbD i) hEq
    rwa [BitVec.getMsbD_and, BitVec.getMsbD_and, hMask, decide_eq_true hi, Bool.and_true,
      Bool.and_true] at hBit
  · intro hBits
    refine BitVec.eq_of_getMsbD_eq fun i _ => ?_
    rw [BitVec.getMsbD_and, BitVec.getMsbD_and, hMask]
    by_cases hi : i < len
    · rw [hBits i hi]
    · rw [decide_eq_false hi, Bool.and_false, Bool.and_false]

theorem contains_iff (net : Ipv6NetOwned) (ip : Ipv6Addr) : net.contains ip = true ↔ net.Covers ip := by
  have hLe : net.prefixLen.toNat ≤ 128 := UInt8.le_iff_toNat_le.mp net.prefixLen_le
  rw [contains, Covers]
  split_ifs with hZero hFull
  · refine iff_of_true rfl fun i hi => ?_
    rw [hZero] at hi
    exact absurd hi (Nat.not_lt_zero i)
  · have hLen : net.prefixLen.toNat = 128 := Nat.le_antisymm hLe (UInt8.le_iff_toNat_le.mp hFull)
    have hMask : BitVec.allOnes 128 = BitVec.allOnes 128 <<< (128 - 128) := by
      rw [Nat.sub_self, BitVec.shiftLeft_zero]
    rw [decide_eq_true_eq, hLen, hMask, and_mask_eq_iff (Nat.le_refl 128)]
  · rw [decide_eq_true_eq, and_mask_eq_iff hLe]

end Ipv6NetOwned

/-! ## Tables of networks -/

section

variable {β : Type}

/-- The value is that of the first one of the longest networks with the address. -/
def LongestMatch (entries : List (Ipv6NetOwned × β)) (ip : Ipv6Addr) (value : β) : Prop :=
  ∃ before e after, entries = before ++ e :: after ∧ e.1.Covers ip ∧ e.2 = value ∧
    (∀ c ∈ before, c.1.Covers ip → c.1.prefixLen < e.1.prefixLen) ∧
    ∀ c ∈ after, c.1.Covers ip → c.1.prefixLen ≤ e.1.prefixLen

/-- A lookup that finds the longest match, whenever there is one. -/
structure LongestPrefix (entries : List (Ipv6NetOwned × β)) (lookup : Ipv6Addr → Option β) : Prop where
  none : ∀ ip, lookup ip = none ↔ ∀ e ∈ entries, ¬e.1.Covers ip
  some : ∀ ip value, lookup ip = some value → LongestMatch entries ip value

/-- No two entries are for one network, so that no entry hides another of its prefix. -/
def Distinct (entries : List (Ipv6NetOwned × β)) : Prop :=
  entries.Pairwise fun a b => ¬a.1.Same b.1

theorem Distinct.value {entries : List (Ipv6NetOwned × β)} (h : Distinct entries)
    {a b : Ipv6NetOwned × β} (ha : a ∈ entries) (hb : b ∈ entries) (hSame : a.1.Same b.1) :
    a.2 = b.2 := by
  by_cases hEq : a = b
  · rw [hEq]
  · have hSymm : Std.Symm fun a b : Ipv6NetOwned × β => ¬a.1.Same b.1 :=
      ⟨fun _ _ hNot hSame => hNot hSame.symm⟩
    exact absurd hSame (h.forall ha hb hEq)

/-- What the loops of both tables do, on networks with their values. -/
def scanNets (entries : List (Ipv6NetOwned × β)) (ip : Ipv6Addr) : Option β :=
  (entries.foldl (Longest.keep (fun e => e.1.contains ip = true) (fun e => (e.1.prefixLen, e.2))
    fun b : UInt8 × β => b.1.toNat) none).map Prod.snd

theorem scanNets_longestPrefix (entries : List (Ipv6NetOwned × β)) :
    LongestPrefix entries (scanNets entries) := by
  constructor
  · intro ip
    rw [scanNets, Option.map_eq_none_iff, Longest.eq_none_iff]
    simp only [Ipv6NetOwned.contains_iff]
  · intro ip value hScan
    rw [scanNets] at hScan
    obtain ⟨best, hBest, rfl⟩ := Option.map_eq_some_iff.mp hScan
    obtain ⟨before, e, after, hSplit, hFits, rfl, hBefore, hAfter⟩ := (Longest.first_of_eq_some hBest).split
    simp only [Ipv6NetOwned.contains_iff] at hFits hBefore hAfter
    exact ⟨before, e, after, hSplit, hFits, rfl,
      fun c hc hCovers => UInt8.lt_iff_toNat_lt.mpr (hBefore c hc hCovers),
      fun c hc hCovers => UInt8.le_iff_toNat_le.mpr (hAfter c hc hCovers)⟩

theorem scanNets_perm {entries other : List (Ipv6NetOwned × β)} (hPerm : entries.Perm other)
    (hDistinct : Distinct entries) (ip : Ipv6Addr) : scanNets other ip = scanNets entries ip := by
  rw [scanNets, scanNets, Longest.fold_perm hPerm]
  intro a ha b hb hFits hFits' hSize
  have hLen := UInt8.toNat_inj.mp hSize
  have hSame := ((a.1.contains_iff ip).mp hFits).same ((b.1.contains_iff ip).mp hFits') hLen
  exact Prod.ext hLen (hDistinct.value ha hb hSame)

end

namespace BindingTable

/-- An entry as it is kept, if its texts can be read. -/
def bindingOf (texts : Str × Str) : Option (Ipv6NetOwned × Ipv4Addr) := do
  let net ← Ipv6NetOwned.parse texts.1
  let ip ← Ipv4Addr.parse texts.2
  some (net, ip)

/-- The table after a sequence of calls of `add`. -/
def ofAdds (adds : List (Str × Str)) : BindingTable :=
  adds.foldl (fun table texts => table.add texts.1 texts.2) {}

theorem ofAdds_entries (adds : List (Str × Str)) :
    (ofAdds adds).entries.map (fun e => (e.net, e.ipv4)) = adds.filterMap bindingOf := by
  rw [ofAdds]
  induction adds using List.reverseRecOn with
  | nil => rfl
  | append_singleton adds texts ih =>
      rw [List.foldl_append, List.foldl_cons, List.foldl_nil, List.filterMap_append, ← ih, add]
      cases hNet : Ipv6NetOwned.parse texts.1 with
      | none => simp [bindingOf, hNet]
      | some net =>
          cases hIp : Ipv4Addr.parse texts.2 with
          | none => simp [bindingOf, hNet, hIp]
          | some ip => simp [bindingOf, hNet, hIp]

theorem lookup_ofAdds (adds : List (Str × Str)) (ip : Ipv6Addr) :
    (ofAdds adds).lookup ip = scanNets (adds.filterMap bindingOf) ip := by
  rw [← ofAdds_entries, scanNets, List.foldl_map]
  rfl

end BindingTable

namespace Ipv6Geo

theorem load_entries (data : Str) : (load data).entries = (Str.lines data).filterMap entry := by
  rw [load]
  induction Str.lines data using List.reverseRecOn with
  | nil => rfl
  | append_singleton lines line ih =>
      rw [List.foldl_append, List.foldl_cons, List.foldl_nil, List.filterMap_append, ← ih]
      cases hEntry : entry line with
      | none => simp [hEntry]
      | some e => simp [hEntry]

theorem lookup_load (data : Str) (ip : Ipv6Addr) :
    (load data).lookup ip = scanNets ((Str.lines data).filterMap entry) ip := by
  rw [← load_entries]
  rfl

end Ipv6Geo

/-- Both tables find the first one of the longest networks with the address, and where
no two entries are for one network, their order does not matter. -/
theorem tables_longestPrefix :
    (∀ adds : List (Str × Str), LongestPrefix (adds.filterMap BindingTable.bindingOf)
      (BindingTable.ofAdds adds).lookup) ∧
    (∀ data : Str, LongestPrefix ((Str.lines data).filterMap Ipv6Geo.entry)
      (Ipv6Geo.load data).lookup) ∧
    (∀ adds other : List (Str × Str), adds.Perm other →
      Distinct (adds.filterMap BindingTable.bindingOf) →
      (BindingTable.ofAdds other).lookup = (BindingTable.ofAdds adds).lookup) ∧
    ∀ data other : Str, (Str.lines data).Perm (Str.lines other) →
      Distinct ((Str.lines data).filterMap Ipv6Geo.entry) →
      (Ipv6Geo.load other).lookup = (Ipv6Geo.load data).lookup := by
  have hBindings (adds : List (Str × Str)) : (BindingTable.ofAdds adds).lookup =
      scanNets (adds.filterMap BindingTable.bindingOf) := funext (BindingTable.lookup_ofAdds adds)
  have hGeo (data : Str) : (Ipv6Geo.load data).lookup =
      scanNets ((Str.lines data).filterMap Ipv6Geo.entry) := funext (Ipv6Geo.lookup_load data)
  refine ⟨fun adds => ?_, fun data => ?_, fun adds other hPerm hDistinct => ?_,
    fun data other hPerm hDistinct => ?_⟩
  · rw [hBindings]
    exact scanNets_longestPrefix _
  · rw [hGeo]
    exact scanNets_longestPrefix _
  · rw [hBindings, hBindings]
    exact funext (scanNets_perm (hPerm.filterMap _) hDistinct)
  · rw [hGeo, hGeo]
    exact funext (scanNets_perm (hPerm.filterMap _) hDistinct)

end Dnsd.Resolve
