import Dnsd.Config
import Dnsd.Environment

/-! The configuration at start-up, from the environment and the file, and the file
that a configuration is read back from. -/

namespace Dnsd

/-! ## Variables as values -/

namespace Env

variable (env : Env)

/-- A variable, or its default if it is not set. -/
def get (key default : String) : Str := (env.var key.toList).getD default.toList

/-- A variable; one that is empty counts as not set. -/
def getOpt (key : String) : Option Str := (env.var key.toList).filter fun v => !v.isEmpty

/-- A variable through a parser. What the parser refuses counts as not set. -/
def getParsed {α : Type} (parse : Str → Option α) (key : String) (default : α) : α :=
  ((env.var key.toList).bind parse).getD default

/-- `parse::<u64>`: digits with or without a plus, below 2^64. -/
def parseU64 (s : Str) : Option UInt64 := (Str.parseUnsigned (2 ^ 64) s).map UInt64.ofNat

/-- `parse::<u8>`: digits with or without a plus, below 2^8. -/
def parseU8 (s : Str) : Option UInt8 := (Str.parseUnsigned (2 ^ 8) s).map UInt8.ofNat

/-- `parse::<bool>`: one of the two words, as it is. -/
def parseBool (s : Str) : Option Bool :=
  if s = "true".toList then some true else if s = "false".toList then some false else none

/-- A number of 64 bits, or its default. -/
def getU64 (key : String) (default : UInt64) : UInt64 := env.getParsed parseU64 key default

/-- A number of eight bits, or its default: one that is too large is no number of them. -/
def getU8 (key : String) (default : UInt8) : UInt8 := env.getParsed parseU8 key default

/-- A switch, or its default where it is not set or cannot be parsed. -/
def getBool (key : String) (default : Bool) : Bool := env.getParsed parseBool key default

/-- The items of a text between commas, trimmed, without the empty ones. -/
def items (s : Str) : List Str := ((s.splitOn ',').map Str.trim).filter fun item => !item.isEmpty

/-- The parts of a list between commas, trimmed, without the empty ones. -/
def getCsv (key : String) : List Str := items ((env.var key.toList).getD [])

end Env

/-! ## The configuration -/

/-- The path of the file, as a variable has it or else by default; the first one need
not be text. -/
def Env.file (env : Env) : Option Str := (env.varOs "DNSD_ENV_FILE".toList).getD (some ".env".toList)

namespace Config

/-- The fields from the variables, if `validate` finds nothing wrong. -/
def ofEnv (env : Env) : Result Config :=
  if env.get "ENV" "dev" ≠ "dev".toList ∧ env.get "ENV" "dev" ≠ "prod".toList then
    .err (.config "ENV must be dev or prod")
  else if hScope : env.getU8 "ECS_SCOPE_MAX" 24 ≤ 32 then
    if hMask : env.getU8 "ECS_DERIVE_MASK" 32 ≤ 32 then
      .ok
        { cacheMaxTtlSecs := env.getU64 "CACHE_MAX_TTL" 21600
          negCacheTtlSecs := env.getU64 "NEG_CACHE_TTL" 30
          rootHints := env.getCsv "ROOT_HINTS"
          recurseMaxDepth := env.getU8 "RECURSE_MAX_DEPTH" 12
          ecsScopeMax := env.getU8 "ECS_SCOPE_MAX" 24
          dualstackEnabled := env.getBool "DUALSTACK_ENABLED" false
          nat64Prefixes := env.getCsv "NAT64_PREFIXES"
          mapApiUrl := env.getOpt "IPV6_IPV4_MAP_API_URL"
          ecsDeriveMask := env.getU8 "ECS_DERIVE_MASK" 32
          geoIpv4File := env.getOpt "GEO_IPV4_FILE"
          geoIpv6File := env.getOpt "GEO_IPV6_FILE"
          geoStrictCity := env.getBool "GEO_STRICT_CITY" false
          ecsScopeMax_le := hScope
          ecsDeriveMask_le := hMask }
    else .err (.config "ECS_DERIVE_MASK must be 0..32")
  else .err (.config "ECS_SCOPE_MAX must be 0..32")

/-- `Config::from_env`, with the texts of the files at their paths. -/
def fromEnv (files : Option Str → Option Str) (env : Env) : Result Config :=
  loadDotenv env (files env.file) >>= ofEnv

end Config

/-! ## A file for a configuration -/

theorem clean_decimal (n : Nat) : Clean (Str.decimal n) := by
  apply clean_of_chars
  intro c hc
  have hDigit := Str.decimal_isDigit hc
  rw [Char.isDigit, Bool.and_eq_true, decide_eq_true_eq, decide_eq_true_eq] at hDigit
  have hLow : 48 ≤ c.toNat := hDigit.1
  have hHigh : c.toNat ≤ 57 := hDigit.2
  refine ⟨?_, ?_, ?_, ?_⟩
  · simp [Unicode.whiteSpace, Unicode.inRuns]
    omega
  · rintro rfl
    exact absurd hLow (by decide)
  · rintro rfl
    exact absurd hLow (by decide)
  · rintro rfl
    exact absurd hLow (by decide)

/-- `to_string` of a truth value. -/
def boolText (b : Bool) : Str := if b then "true".toList else "false".toList

theorem clean_boolText (b : Bool) : Clean (boolText b) := by
  apply clean_of_chars
  cases b <;> decide

/-- Some items with commas between them. -/
def joined (items : List Str) : Str := [','].intercalate items

/-- Items that can stand between commas on a line. -/
structure Listable (items : List Str) : Prop where
  ne_nil : ∀ item ∈ items, item ≠ []
  trim : ∀ item ∈ items, item.trim = item
  comma : ∀ item ∈ items, ',' ∉ item
  clean : Clean (joined items)

theorem items_joined {items : List Str} (h : Listable items) : Env.items (joined items) = items := by
  have hTrim : items.map Str.trim = items := by
    rw [List.map_congr_left h.trim, List.map_id']
  have hKept : items.filter (fun item => !item.isEmpty) = items :=
    List.filter_eq_self.mpr fun item hItem => by simpa using h.ne_nil item hItem
  by_cases hNil : items = []
  · rw [hNil]
    rfl
  · rw [Env.items, joined, List.splitOn_intercalate ',' h.comma hNil, hTrim, hKept]

/-- The name of a variable that can stand in front of the sign. -/
def FitsLine (key : Str) : Prop :=
  Named key ∧ key.trim = key ∧ key.head? ≠ some '#' ∧ '\n' ∉ key

instance (key : Str) : Decidable (FitsLine key) := inferInstanceAs (Decidable (_ ∧ _))

/-- A setting for a variable of the configuration, with what keeps it readable. -/
def setting (key : String) (hKey : FitsLine key.toList) (value : Str) (h : Clean value) : Setting :=
  ⟨key.toList, value, hKey.1, hKey.2.1, hKey.2.2.1, hKey.2.2.2, h⟩

/-- An optional text that is there has something in it. -/
def Optional (v : Option Str) : Prop := ∀ text ∈ v, text ≠ [] ∧ Clean text

theorem Optional.clean {v : Option Str} (h : Optional v) : Clean (v.getD []) := by
  cases v with
  | none => exact clean_of_chars fun c hc => absurd hc List.not_mem_nil
  | some text => exact (h text rfl).2

namespace Config

/-- The texts of a configuration can stand in a file. -/
structure Expressible (cfg : Config) : Prop where
  rootHints : Listable cfg.rootHints
  nat64Prefixes : Listable cfg.nat64Prefixes
  mapApiUrl : Optional cfg.mapApiUrl
  geoIpv4File : Optional cfg.geoIpv4File
  geoIpv6File : Optional cfg.geoIpv6File

/-- The settings that stand for a configuration, one for each field that is read. -/
def settings (cfg : Config) (h : cfg.Expressible) : List Setting :=
  [setting "CACHE_MAX_TTL" (by decide) (Str.decimal cfg.cacheMaxTtlSecs.toNat) (clean_decimal _),
    setting "NEG_CACHE_TTL" (by decide) (Str.decimal cfg.negCacheTtlSecs.toNat) (clean_decimal _),
    setting "ROOT_HINTS" (by decide) (joined cfg.rootHints) h.rootHints.clean,
    setting "RECURSE_MAX_DEPTH" (by decide) (Str.decimal cfg.recurseMaxDepth.toNat) (clean_decimal _),
    setting "ECS_SCOPE_MAX" (by decide) (Str.decimal cfg.ecsScopeMax.toNat) (clean_decimal _),
    setting "DUALSTACK_ENABLED" (by decide) (boolText cfg.dualstackEnabled) (clean_boolText _),
    setting "NAT64_PREFIXES" (by decide) (joined cfg.nat64Prefixes) h.nat64Prefixes.clean,
    setting "IPV6_IPV4_MAP_API_URL" (by decide) (cfg.mapApiUrl.getD []) h.mapApiUrl.clean,
    setting "ECS_DERIVE_MASK" (by decide) (Str.decimal cfg.ecsDeriveMask.toNat) (clean_decimal _),
    setting "GEO_IPV4_FILE" (by decide) (cfg.geoIpv4File.getD []) h.geoIpv4File.clean,
    setting "GEO_IPV6_FILE" (by decide) (cfg.geoIpv6File.getD []) h.geoIpv6File.clean,
    setting "GEO_STRICT_CITY" (by decide) (boolText cfg.geoStrictCity) (clean_boolText _)]

/-- The variables of a configuration: each field is what the environment gives for it. -/
structure Reads (env : Env) (cfg : Config) : Prop where
  profile : env.get "ENV" "dev" = "dev".toList
  cacheMaxTtlSecs : env.getU64 "CACHE_MAX_TTL" 21600 = cfg.cacheMaxTtlSecs
  negCacheTtlSecs : env.getU64 "NEG_CACHE_TTL" 30 = cfg.negCacheTtlSecs
  rootHints : env.getCsv "ROOT_HINTS" = cfg.rootHints
  recurseMaxDepth : env.getU8 "RECURSE_MAX_DEPTH" 12 = cfg.recurseMaxDepth
  ecsScopeMax : env.getU8 "ECS_SCOPE_MAX" 24 = cfg.ecsScopeMax
  dualstackEnabled : env.getBool "DUALSTACK_ENABLED" false = cfg.dualstackEnabled
  nat64Prefixes : env.getCsv "NAT64_PREFIXES" = cfg.nat64Prefixes
  mapApiUrl : env.getOpt "IPV6_IPV4_MAP_API_URL" = cfg.mapApiUrl
  ecsDeriveMask : env.getU8 "ECS_DERIVE_MASK" 32 = cfg.ecsDeriveMask
  geoIpv4File : env.getOpt "GEO_IPV4_FILE" = cfg.geoIpv4File
  geoIpv6File : env.getOpt "GEO_IPV6_FILE" = cfg.geoIpv6File
  geoStrictCity : env.getBool "GEO_STRICT_CITY" false = cfg.geoStrictCity

theorem Reads.ofEnv {env : Env} {cfg : Config} (h : Reads env cfg) : ofEnv env = .ok cfg := by
  obtain ⟨hEnv, h1, h2, h3, h4, h5, h6, h7, h8, h9, h10, h11, h12⟩ := h
  obtain ⟨_, _, _, _, _, _, _, _, _, _, _, _, hScope, hMask⟩ := cfg
  dsimp only at h1 h2 h3 h4 h5 h6 h7 h8 h9 h10 h11 h12
  subst h1 h2 h3 h4 h5 h6 h7 h8 h9 h10 h11 h12
  rw [Config.ofEnv, if_neg (fun hOther => hOther.1 hEnv), dif_pos hScope, dif_pos hMask]

/-! Each kind of variable, by the text that it has. -/

theorem getU64_decimal {env : Env} {key : String} {n default : UInt64}
    (h : env.var key.toList = some (Str.decimal n.toNat)) : env.getU64 key default = n := by
  rw [Env.getU64, Env.getParsed, h, Option.bind_some, Env.parseU64,
    Str.parseUnsigned_decimal n.toNat_lt, Option.map_some, Option.getD_some, UInt64.ofNat_toNat]

theorem getU8_decimal {env : Env} {key : String} {n default : UInt8}
    (h : env.var key.toList = some (Str.decimal n.toNat)) : env.getU8 key default = n := by
  rw [Env.getU8, Env.getParsed, h, Option.bind_some, Env.parseU8,
    Str.parseUnsigned_decimal n.toNat_lt, Option.map_some, Option.getD_some, UInt8.ofNat_toNat]

theorem getBool_boolText {env : Env} {key : String} {b default : Bool}
    (h : env.var key.toList = some (boolText b)) : env.getBool key default = b := by
  have hParse : Env.parseBool (boolText b) = some b := by cases b <;> rfl
  rw [Env.getBool, Env.getParsed, h, Option.bind_some, hParse, Option.getD_some]

theorem getCsv_joined {env : Env} {key : String} {items : List Str} (hItems : Listable items)
    (h : env.var key.toList = some (joined items)) : env.getCsv key = items := by
  rw [Env.getCsv, h, Option.getD_some, items_joined hItems]

theorem getOpt_getD {env : Env} {key : String} {v : Option Str} (hText : Optional v)
    (h : env.var key.toList = some (v.getD [])) : env.getOpt key = v := by
  rw [Env.getOpt, h]
  cases v with
  | none => rfl
  | some text =>
      rw [Option.getD_some, Option.filter_some, if_pos]
      simpa using (hText text rfl).1

/-- A configuration whose texts can stand in a file is what is read at start-up from
the file that is written for it. -/
theorem fromEnv_render {cfg : Config} (h : cfg.Expressible) {files : Option Str → Option Str}
    (hFile : files (some ".env".toList) = some (render (cfg.settings h))) :
    fromEnv files .empty = .ok cfg := by
  obtain ⟨env, hLoad, hVar⟩ := loadDotenv_render (cfg.settings h)
  have hPath : Env.empty.file = some ".env".toList := rfl
  have hReads : Reads env cfg := by
    constructor
    · rw [Env.get, hVar]
      rfl
    · exact getU64_decimal (hVar _)
    · exact getU64_decimal (hVar _)
    · exact getCsv_joined h.rootHints (hVar _)
    · exact getU8_decimal (hVar _)
    · exact getU8_decimal (hVar _)
    · exact getBool_boolText (hVar _)
    · exact getCsv_joined h.nat64Prefixes (hVar _)
    · exact getOpt_getD h.mapApiUrl (hVar _)
    · exact getU8_decimal (hVar _)
    · exact getOpt_getD h.geoIpv4File (hVar _)
    · exact getOpt_getD h.geoIpv6File (hVar _)
    · exact getBool_boolText (hVar _)
  rw [fromEnv, hPath, hFile, hLoad, Exec.ok_bind, hReads.ofEnv]

/-- A configuration with items, an optional text and none. -/
def mapped : Config :=
  { ecsScopeMax := 16, ecsDeriveMask := 28, dualstackEnabled := true
    geoIpv4File := some "data/qqwry.dat".toList
    nat64Prefixes := ["64:ff9b::/96".toList, "2001:db8::/96".toList] }

theorem expressible_mapped : mapped.Expressible where
  rootHints := ⟨by decide, by decide, by decide, clean_of_chars (by decide)⟩
  nat64Prefixes := ⟨by decide, by decide, by decide, clean_of_chars (by decide)⟩
  mapApiUrl := fun _ h => nomatch h
  geoIpv4File := by
    rintro _ ⟨⟩
    exact ⟨by decide, clean_of_chars (by decide)⟩
  geoIpv6File := fun _ h => nomatch h

theorem fromEnv_mapped :
    fromEnv (fun _ => some (render (mapped.settings expressible_mapped))) .empty = .ok mapped :=
  fromEnv_render expressible_mapped rfl

end Config

end Dnsd
