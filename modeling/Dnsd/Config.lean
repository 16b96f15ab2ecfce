import Dnsd.Rust.Text

/-! The runtime settings that the request pipeline reads. -/

namespace Dnsd

/-- The bounds that `validate` checks are part of the structure. -/
structure Config where
  cacheMaxTtlSecs : UInt64 := 21600
  negCacheTtlSecs : UInt64 := 30
  recurseMaxDepth : UInt8 := 12
  rootHints : List Str := []
  ecsScopeMax : UInt8 := 24
  dualstackEnabled : Bool := false
  nat64Prefixes : List Str := []
  mapApiUrl : Option Str := none
  geoIpv4File : Option Str := none
  geoIpv6File : Option Str := none
  ecsDeriveMask : UInt8 := 32
  geoStrictCity : Bool := false
  ecsScopeMax_le : ecsScopeMax ≤ 32 := by decide
  ecsDeriveMask_le : ecsDeriveMask ≤ 32 := by decide

end Dnsd
