import Dnsd.Store.Tables

/-! The check of a mapped address against the location databases, from the load
of their files on. -/

namespace Dnsd.Resolve

open Proto

/-- What is overlapping in the text of one database and of the other: the city in
strict mode, else the provider or the city. -/
def Overlaps (v4Loc v4Isp v6Isp v6City : Str) (strictCity : Bool) : Prop :=
  if strictCity then v6City ≠ [] ∧ (v6City <:+: v4Isp ∨ v6City <:+: v4Loc)
  else v4Isp ≠ [] ∧ v6Isp ≠ [] ∧ (v6Isp <:+: v4Isp ∨ v4Isp <:+: v6Isp) ∨
    v4Loc ≠ [] ∧ v6City ≠ [] ∧ v4Loc = v6City

/-- Neither database has a city, and the providers have nothing in common. -/
structure Cityless (v4Loc v4Isp v6Isp v6City : Str) : Prop where
  loc : v4Loc = []
  city : v6City = []
  isp : v4Isp ≠ []
  isp' : v6Isp ≠ []
  apart : ¬v6Isp <:+: v4Isp
  apart' : ¬v4Isp <:+: v6Isp

/-- `consistent` takes two missing cities for the same city, unless it is strict. -/
theorem consistent_iff (v4Loc v4Isp v6Isp v6City : Str) (strictCity : Bool) :
    consistent v4Loc v4Isp v6Isp v6City strictCity = true ↔
      Overlaps v4Loc v4Isp v6Isp v6City strictCity ∨
        strictCity = false ∧ Cityless v4Loc v4Isp v6Isp v6City := by
  cases strictCity with
  | true =>
      simp only [consistent, Overlaps, if_true, reduceCtorEq, false_and, or_false]
      constructor
      · intro h
        split_ifs at h
        simpa using h
      · rintro ⟨hCity, hOverlap⟩
        -- a city that is part of a text makes neither side empty
        have hFirst : ¬(v4Loc.isEmpty && v4Isp.isEmpty) = true := by
          rintro hEmpty
          simp only [Bool.and_eq_true, List.isEmpty_iff] at hEmpty
          simp [hEmpty.1, hEmpty.2, hCity] at hOverlap
        have hSecond : ¬(v6Isp.isEmpty && v6City.isEmpty) = true := by simp [hCity]
        rw [if_neg hFirst, if_neg hSecond]
        simpa [hCity] using hOverlap
  | false =>
      simp only [consistent, Overlaps, Bool.false_eq_true, if_false, true_and]
      constructor
      · intro h
        split_ifs at h with hFirst hSecond
        by_cases hIsp : v4Isp ≠ [] ∧ v6Isp ≠ [] ∧ (v6Isp <:+: v4Isp ∨ v4Isp <:+: v6Isp)
        · exact Or.inl (Or.inl hIsp)
        · have hLoc : v4Loc = v6City := by
            rcases Bool.or_eq_true_iff.mp h with h | h
            · exact absurd (by simpa [and_assoc] using h) hIsp
            · simpa using h
          by_cases hEmpty : v4Loc = []
          · have hCity : v6City = [] := hLoc ▸ hEmpty
            have hIsp4 : v4Isp ≠ [] := by simpa [hEmpty] using hFirst
            have hIsp6 : v6Isp ≠ [] := by simpa [hCity] using hSecond
            simp only [hIsp4, hIsp6, ne_eq, not_false_eq_true, true_and, not_or] at hIsp
            exact Or.inr ⟨hEmpty, hCity, hIsp4, hIsp6, hIsp.1, hIsp.2⟩
          · exact Or.inl (Or.inr ⟨hEmpty, hLoc ▸ hEmpty, hLoc⟩)
      · rintro ((⟨h4, h6, hOverlap⟩ | ⟨h4, h6, hSame⟩) | h)
        · simp [h4, h6, hOverlap]
        · simp [h6, hSame]
        · simp [h.loc, h.city, h.isp, h.isp']

namespace Dualstack

/-- `Dualstack::new`: what the loaders make of the files, `none` where one fails. -/
def new (cfg : Config) (mapFile : Option Str)
    (loadV4 : Str → Option (Ipv4Addr → Option (Str × Str)))
    (loadV6 : Str → Option (Ipv6Addr → Option (Str × Str))) : Dualstack where
  table := Store.loadMapFile {} mapFile
  v4 := match cfg.geoIpv4File with
    | some path => loadV4 path
    | none => none
  v6 := match cfg.geoIpv6File with
    | some path => loadV6 path
    | none => none

/-- Both databases know the addresses, and what they say overlaps. -/
def Checked (d : Dualstack) (cfg : Config) (clientIpv6 : Ipv6Addr) (v4 : Ipv4Addr) : Prop :=
  ∃ qqwry v6geo v4Loc v4Isp v6Isp v6City, d.v4 = some qqwry ∧ d.v6 = some v6geo ∧
    qqwry v4 = some (v4Loc, v4Isp) ∧ v6geo clientIpv6 = some (v6Isp, v6City) ∧
    Overlaps v4Loc v4Isp v6Isp v6City cfg.geoStrictCity

/-- Both databases know the addresses, but no city, and the mode is not strict. -/
def Slips (d : Dualstack) (cfg : Config) (clientIpv6 : Ipv6Addr) (v4 : Ipv4Addr) : Prop :=
  cfg.geoStrictCity = false ∧ ∃ qqwry v6geo v4Loc v4Isp v6Isp v6City,
    d.v4 = some qqwry ∧ d.v6 = some v6geo ∧ qqwry v4 = some (v4Loc, v4Isp) ∧
    v6geo clientIpv6 = some (v6Isp, v6City) ∧ Cityless v4Loc v4Isp v6Isp v6City

section

variable {d : Dualstack} {cfg : Config} {mapViaApi : Str → Ipv6Addr → Option Ipv4Addr}
  {clientIpv6 : Ipv6Addr} {v4 : Ipv4Addr}

theorem Checked.not_slips (h : d.Checked cfg clientIpv6 v4) : ¬d.Slips cfg clientIpv6 v4 := by
  rintro ⟨hLoose, qqwry, v6geo, v4Loc, v4Isp, v6Isp, v6City, hV4, hV6, hFirst, hSecond, hNone⟩
  obtain ⟨_, _, _, _, _, _, hV4', hV6', hFirst', hSecond', hOverlap⟩ := h
  rw [hV4, Option.some.injEq] at hV4'
  rw [hV6, Option.some.injEq] at hV6'
  subst hV4' hV6'
  rw [hFirst, Option.some.injEq, Prod.mk.injEq] at hFirst'
  rw [hSecond, Option.some.injEq, Prod.mk.injEq] at hSecond'
  obtain ⟨rfl, rfl⟩ := hFirst'
  obtain ⟨rfl, rfl⟩ := hSecond'
  rw [Overlaps, hLoose] at hOverlap
  rcases hOverlap with ⟨-, -, hOverlap | hOverlap⟩ | ⟨hLoc, -⟩
  · exact hNone.apart hOverlap
  · exact hNone.apart' hOverlap
  · exact hLoc hNone.loc

/-- With both databases, a mapped address is passed on if they agree on it, or in
a slip. -/
theorem verified_eq_some_iff (hV4 : d.v4.isSome) (hV6 : d.v6.isSome) :
    d.verified cfg mapViaApi clientIpv6 = some v4 ↔
      d.mapToIpv4 cfg mapViaApi clientIpv6 = some v4 ∧
        (d.Checked cfg clientIpv6 v4 ∨ d.Slips cfg clientIpv6 v4) := by
  obtain ⟨qqwry, hV4⟩ := Option.isSome_iff_exists.mp hV4
  obtain ⟨v6geo, hV6⟩ := Option.isSome_iff_exists.mp hV6
  constructor
  · intro h
    simp only [verified, hV4, hV6] at h
    split at h
    · cases h
    · rename_i v4 hMap
      split at h
      · rename_i v4Loc v4Isp v6Isp v6City hFirst hSecond
        split_ifs at h with hConsistent
        cases h
        refine ⟨hMap, ?_⟩
        rcases (consistent_iff ..).mp hConsistent with hOverlap | ⟨hLoose, hCityless⟩
        · exact Or.inl ⟨_, _, _, _, _, _, hV4, hV6, hFirst, hSecond, hOverlap⟩
        · exact Or.inr ⟨hLoose, _, _, _, _, _, _, hV4, hV6, hFirst, hSecond, hCityless⟩
      · cases h
  · rintro ⟨hMap, h⟩
    have hData : ∃ v4Loc v4Isp v6Isp v6City, qqwry v4 = some (v4Loc, v4Isp) ∧
        v6geo clientIpv6 = some (v6Isp, v6City) ∧
        consistent v4Loc v4Isp v6Isp v6City cfg.geoStrictCity = true := by
      rcases h with ⟨_, _, _, _, _, _, hV4', hV6', hFirst, hSecond, hOverlap⟩ |
        ⟨hLoose, _, _, _, _, _, _, hV4', hV6', hFirst, hSecond, hCityless⟩
      · rw [hV4, Option.some.injEq] at hV4'
        rw [hV6, Option.some.injEq] at hV6'
        subst hV4' hV6'
        exact ⟨_, _, _, _, hFirst, hSecond, (consistent_iff ..).mpr (Or.inl hOverlap)⟩
      · rw [hV4, Option.some.injEq] at hV4'
        rw [hV6, Option.some.injEq] at hV6'
        subst hV4' hV6'
        exact ⟨_, _, _, _, hFirst, hSecond, (consistent_iff ..).mpr (Or.inr ⟨hLoose, hCityless⟩)⟩
    obtain ⟨v4Loc, v4Isp, v6Isp, v6City, hFirst, hSecond, hConsistent⟩ := hData
    simp [verified, hMap, hV4, hV6, hFirst, hSecond, hConsistent]

/-- Without one of them, every mapped address is. -/
theorem verified_unloaded (h : d.v4 = none ∨ d.v6 = none) :
    d.verified cfg mapViaApi clientIpv6 = d.mapToIpv4 cfg mapViaApi clientIpv6 := by
  rw [verified]
  cases d.mapToIpv4 cfg mapViaApi clientIpv6 with
  | none => rfl
  | some v4 =>
      rcases h with h | h
      · simp [h]
      · cases hV4 : d.v4 <;> simp [h]

theorem deriveEcs_isSome_iff : (d.deriveEcs cfg mapViaApi clientIpv6).isSome ↔
    ∃ v4, d.verified cfg mapViaApi clientIpv6 = some v4 := by
  rw [deriveEcs, Option.isSome_map, Option.isSome_iff_exists]

/-- An option is derived for no unchecked address exactly if, where the client's
address is mapped, both databases are loaded and nothing slips. -/
theorem derives_checked_iff : ((d.deriveEcs cfg mapViaApi clientIpv6).isSome →
      ∃ v4, d.mapToIpv4 cfg mapViaApi clientIpv6 = some v4 ∧ d.Checked cfg clientIpv6 v4) ↔
    ∀ v4, d.mapToIpv4 cfg mapViaApi clientIpv6 = some v4 →
      d.v4.isSome ∧ d.v6.isSome ∧ ¬d.Slips cfg clientIpv6 v4 := by
  rw [deriveEcs_isSome_iff]
  constructor
  · intro hFails v4 hMap
    have hLoaded : d.v4.isSome ∧ d.v6.isSome := by
      by_contra hMissing
      have hNone : d.v4 = none ∨ d.v6 = none := by
        rw [not_and_or, Option.not_isSome_iff_eq_none, Option.not_isSome_iff_eq_none] at hMissing
        exact hMissing
      obtain ⟨_, _, _, _, _, _, _, _, hV4, hV6, _⟩ :=
        hFails ⟨v4, (verified_unloaded hNone).trans hMap⟩
      rcases hNone with hNone | hNone
      · simp [hNone] at hV4
      · simp [hNone] at hV6
    refine ⟨hLoaded.1, hLoaded.2, fun hSlips => ?_⟩
    obtain ⟨v4', hMap', hChecked⟩ :=
      hFails ⟨v4, (verified_eq_some_iff hLoaded.1 hLoaded.2).mpr ⟨hMap, Or.inr hSlips⟩⟩
    rw [hMap, Option.some.injEq] at hMap'
    subst hMap'
    exact hChecked.not_slips hSlips
  · rintro hCondition ⟨v4, hVerified⟩
    cases hMap : d.mapToIpv4 cfg mapViaApi clientIpv6 with
    | none => simp [verified, hMap] at hVerified
    | some v4' =>
        obtain ⟨hV4, hV6, hNoSlip⟩ := hCondition v4' hMap
        obtain ⟨hSame, hEither⟩ := (verified_eq_some_iff hV4 hV6).mp hVerified
        rw [hMap, Option.some.injEq] at hSame
        subst hSame
        exact ⟨v4', rfl, hEither.resolve_right hNoSlip⟩

/-- With both files configured: no option is derived for an unchecked address exactly
if, where the client's address is mapped, both are loaded and nothing slips. -/
theorem new_derives_checked_iff {path4 path6 : Str} {mapFile : Option Str}
    {loadV4 : Str → Option (Ipv4Addr → Option (Str × Str))}
    {loadV6 : Str → Option (Ipv6Addr → Option (Str × Str))} {table : BindingTable}
    (hV4 : cfg.geoIpv4File = some path4) (hV6 : cfg.geoIpv6File = some path6)
    (hNew : d = { Dualstack.new cfg mapFile loadV4 loadV6 with table := table }) :
    ((d.deriveEcs cfg mapViaApi clientIpv6).isSome →
      ∃ v4, d.mapToIpv4 cfg mapViaApi clientIpv6 = some v4 ∧ d.Checked cfg clientIpv6 v4) ↔
    ∀ v4, d.mapToIpv4 cfg mapViaApi clientIpv6 = some v4 →
      (loadV4 path4).isSome ∧ (loadV6 path6).isSome ∧ ¬d.Slips cfg clientIpv6 v4 := by
  have hLoaded4 : d.v4 = loadV4 path4 := by simp [hNew, Dualstack.new, hV4]
  have hLoaded6 : d.v6 = loadV6 path6 := by simp [hNew, Dualstack.new, hV6]
  rw [derives_checked_iff, hLoaded4, hLoaded6]

end

/-- Both files are configured, and the city has to agree. -/
def geoConfig : Config :=
  { plainSettings.cfg with
    dualstackEnabled := true
    geoIpv4File := some "qqwry.dat".toList
    geoIpv6File := some "ipv6.csv".toList
    geoStrictCity := true }

/-- A client of the bound network. -/
def labClient : Ipv6Addr := ⟨[0x20, 0x01, 0x0d, 0xb8] ++ List.replicate 11 0 ++ [1], rfl⟩

/-- A table that binds one network to one address. -/
def labBindings : BindingTable := ({} : BindingTable).add "2001:db8::/32".toList "192.0.2.7".toList

/-- Databases that place every address in one city. -/
def sameCity : Dualstack :=
  { Dualstack.new geoConfig none (fun _ => some fun _ => some ("Hefei".toList, "CT".toList))
      (fun _ => some fun _ => some ("CT".toList, "Hefei".toList)) with table := labBindings }

/-- The databases name one city with their words in either order. An option is derived,
and its address has been checked. -/
theorem sameCity_derives_checked :
    (sameCity.deriveEcs geoConfig (fun _ _ => none) labClient).isSome ∧
      ((sameCity.deriveEcs geoConfig (fun _ _ => none) labClient).isSome →
        ∃ v4, sameCity.mapToIpv4 geoConfig (fun _ _ => none) labClient = some v4 ∧
          sameCity.Checked geoConfig labClient v4) :=
  ⟨by decide +kernel, (@new_derives_checked_iff sameCity geoConfig (fun _ _ => none) labClient
    _ _ none (fun _ => some fun _ => some _) (fun _ => some fun _ => some _) labBindings
    rfl rfl rfl).mpr fun _ _ => ⟨rfl, rfl, fun hSlips => Bool.noConfusion hSlips.1⟩⟩

/-- The file for IPv4 cannot be loaded. -/
def unloaded : Dualstack :=
  { Dualstack.new geoConfig none (fun _ => none)
      (fun _ => some fun _ => some ("CT".toList, "Hefei".toList)) with table := labBindings }

/-- The IPv4 database is configured and cannot be loaded. It counts as not configured, and
the mapped address is given out unchecked. -/
theorem derives_unchecked : ¬∀ (cfg : Config) path4 path6 mapFile loadV4 loadV6 table mapViaApi
    clientIpv6 (d : Dualstack), cfg.geoIpv4File = some path4 → cfg.geoIpv6File = some path6 →
    d = { Dualstack.new cfg mapFile loadV4 loadV6 with table := table } →
    (d.deriveEcs cfg mapViaApi clientIpv6).isSome →
      ∃ v4, d.mapToIpv4 cfg mapViaApi clientIpv6 = some v4 ∧ d.Checked cfg clientIpv6 v4 := by
  intro hAll
  have hDerived : (unloaded.deriveEcs geoConfig (fun _ _ => none) labClient).isSome := by
    decide +kernel
  obtain ⟨v4, -, qqwry, _, _, _, _, _, hV4, -⟩ :=
    hAll geoConfig _ _ none _ _ labBindings _ labClient unloaded rfl rfl rfl hDerived
  cases hV4

end Dualstack

end Dnsd.Resolve
