import Dnsd.Error
import Dnsd.Resolve.Dualstack
import Dnsd.Rust.Words

/-! The location databases: a binary index of IPv4 ranges, and a table of IPv6
networks. Arithmetic that leaves 32 bits unwinds, as it does with overflow checks. -/

namespace Dnsd.Resolve

open Bytes

/-- The value of a `u32` computation, which unwinds where it overflows: the build has its
checks on. -/
def u32 (n : Nat) : Result UInt32 := if n < 2 ^ 32 then .ok (UInt32.ofNat n) else .panicked

/-! ## IPv4 -/

/-- The file, with the offsets of the first and the last index entry. -/
structure QQwry where
  data : Bytes
  firstIdx : UInt32
  lastIdx : UInt32

namespace QQwry

/-- What follows the reading of the file: its first eight bytes are the two offsets, and
nothing else is checked. -/
def load (data : Bytes) : Result QQwry :=
  if data.length < 8 then .err (.config "qqwry.dat too small")
  else .ok ⟨data, UInt32.fromLeBytes (data.take 4), UInt32.fromLeBytes ((data.drop 4).take 4)⟩

variable (gbk : Bytes → Str) (db : QQwry)

/-- `read_u24`, a number of three bytes. It unwinds at the end of the data. -/
def readU24 (off : Nat) : Result UInt32 := do
  let b0 ← idx db.data off
  let b1 ← idx db.data (off + 1)
  let b2 ← idx db.data (off + 2)
  .ok (UInt32.fromLeBytes [b0, b1, b2, 0])

/-- A text up to a zero byte or the end of the data; `gbk` decodes. -/
def readString (off : Nat) : Result Str := do
  let stop := off + ((db.data.drop off).takeWhile (· ≠ 0)).length
  let bytes ← slice db.data off stop
  .ok (gbk bytes)

/-- `read_area`: the second text of a record, at its place or where a redirect leads. -/
def readArea (off : Nat) : Result Str :=
  if db.data.length ≤ off then .ok []
  else do
    let mode ← idx db.data off
    if mode = 1 ∨ mode = 2 then
      let redirect ← db.readU24 (off + 1)
      db.readString gbk redirect.toNat
    else db.readString gbk off

/-- The texts of a record, within so many redirects of the first kind. -/
def countryArea (depth : Nat) (off : Nat) : Option (Result (Str × Str)) :=
  match depth with
  | 0 => none
  | depth + 1 =>
      if db.data.length < off + 4 then some (.ok ([], []))
      else
        match (idx db.data off : Result UInt8) with
        | .ok mode =>
            if mode = 1 then
              match db.readU24 (off + 1) with
              | .ok redirect => countryArea depth redirect.toNat
              | .err e => some (.err e)
              | .panicked => some .panicked
            else if mode = 2 then
              some do
                let redirect ← db.readU24 (off + 1)
                let country ← db.readString gbk redirect.toNat
                let area ← db.readArea gbk (off + 4)
                .ok (country, area)
            else
              some do
                let country ← db.readString gbk (off + 1)
                let area ← db.readArea gbk (off + 1 + mode.toNat)
                .ok (country, area)
        | .err e => some (.err e)
        | .panicked => some .panicked

/-- The start of a range; what is behind the data starts at the last address. -/
def indexStartIp (idx : Nat) : Result UInt32 := do
  let entries ← u32 (idx * 7)
  let off ← u32 (db.firstIdx.toNat + entries.toNat)
  if db.data.length < off.toNat + 4 then .ok (UInt32.ofNat (2 ^ 32 - 1))
  else .ok (UInt32.fromLeBytes ((db.data.drop off.toNat).take 4))

/-- `index_record_offset`: where the record of an entry is. -/
def indexRecordOffset (idx : Nat) : Result UInt32 := do
  let entries ← u32 (idx * 7)
  let off ← u32 (db.firstIdx.toNat + entries.toNat)
  let off ← u32 (off.toNat + 4)
  db.readU24 off.toNat

/-- The loop of the lookup, from some `lo`, `hi` and `found` on. -/
def search (ip : UInt32) (lo hi : Nat) (found : Option Nat) : Result (Option Nat) :=
  if _h : lo ≤ hi then
    let mid := lo + (hi - lo) / 2
    match db.indexStartIp mid with
    | .ok start =>
        if start ≤ ip then
          if mid + 1 < 2 ^ 32 then search ip (mid + 1) hi (some mid) else .panicked
        else if _hZero : mid = 0 then .panicked
        else search ip lo (mid - 1) found
    | .err e => .err e
    | .panicked => .panicked
  else .ok found
termination_by hi + 1 - lo
decreasing_by
  · omega
  · omega

/-- The texts for an address, within so many redirects. -/
def lookup (depth : Nat) (ip : Ipv4Addr) : Option (Result (Option (Str × Str))) :=
  match db.search ip.toU32 db.firstIdx.toNat db.lastIdx.toNat none with
  | .ok none => some (.ok none)
  | .ok (some idx) =>
      match db.indexRecordOffset idx with
      | .ok recOff => (db.countryArea gbk depth recOff.toNat).map fun texts => texts >>= fun t => .ok (some t)
      | .err e => some (.err e)
      | .panicked => some .panicked
  | .err e => some (.err e)
  | .panicked => some .panicked

end QQwry

/-! ## IPv6 -/

/-- The type has the fields and the functions of the other one under its own name. -/
abbrev Ipv6Net := Ipv6NetOwned

/-- A network with its provider and its city. -/
structure Ipv6Geo where
  entries : List (Ipv6Net × Str × Str) := []

namespace Ipv6Geo

/-- A line of the file; a comment, too few fields and a bad network are passed over. -/
def entry (line : Str) : Option (Ipv6Net × Str × Str) :=
  let line := line.trim
  if line = [] ∨ line.head? = some '#' then none
  else
    let parts := (line.splitOn ',').map Str.trim
    if parts.length < 2 then none
    else (Ipv6NetOwned.parse (parts.getD 0 [])).map fun net => (net, parts.getD 4 [], parts.getD 3 [])

/-- What follows the reading of the file: every line that can be read is an entry, and all
others are passed over. -/
def load (data : Str) : Ipv6Geo :=
  (Str.lines data).foldl
    (fun geo line =>
      match entry line with
      | some e => ⟨geo.entries ++ [e]⟩
      | none => geo) {}

/-- Provider and city of the first one of the longest networks that contain the address. -/
def lookup (geo : Ipv6Geo) (ip : Ipv6Addr) : Option (Str × Str) :=
  let best := geo.entries.foldl (fun best e =>
    if e.1.contains ip ∧ (best.all fun b : UInt8 × Str × Str => b.1 < e.1.prefixLen) then
      some (e.1.prefixLen, e.2.1, e.2.2)
    else best) none
  best.map Prod.snd

end Ipv6Geo

end Dnsd.Resolve
