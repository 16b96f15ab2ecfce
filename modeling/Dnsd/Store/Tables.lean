import Dnsd.Resolve.Pipeline

/-! The policy tables of the database: what the loads of the store read, and what
its writes change. -/

namespace Dnsd.Store

open Resolve

/-- Rows with their `enabled`, in the order in which a query meets them. How often
the table has been written is not in the database. -/
structure Table (α : Type) where
  rows : List (α × Bool) := []
  writes : Nat := 0

/-- What a query has read, with the writes that it has seen. -/
structure Loaded (α : Type) where
  rows : List α
  writes : Nat

namespace Table

variable {α β : Type}

/-- `exec_map` of `SELECT … WHERE enabled = 1`. -/
def load (make : α → β) (t : Table α) : Loaded β :=
  ⟨(t.rows.filter Prod.snd).map fun row => make row.1, t.writes⟩

/-- `INSERT`; where a query meets the new row is up to the database. -/
def insert (t : Table α) (place : Nat) (row : α) : Table α :=
  ⟨t.rows.take place ++ (row, true) :: t.rows.drop place, t.writes + 1⟩

/-- A statement that removes the rows with some keys. -/
def delete (t : Table α) (gone : α → Bool) : Table α :=
  ⟨t.rows.filter fun row => !gone row.1, t.writes + 1⟩

/-- A table as it was, or behind a statement, which counts as a write. -/
def Grows (t t' : Table α) : Prop := t' = t ∨ t.writes < t'.writes

theorem Grows.refl (t : Table α) : t.Grows t := Or.inl rfl

theorem grows_insert (t : Table α) (place : Nat) (row : α) : t.Grows (t.insert place row) :=
  Or.inr (Nat.lt_succ_self _)

theorem grows_delete (t : Table α) (gone : α → Bool) : t.Grows (t.delete gone) :=
  Or.inr (Nat.lt_succ_self _)

end Table

/-- What has been read is what is there, unless the table has been written since. -/
structure Loaded.Of {α β : Type} (make : α → β) (read : Loaded β) (t : Table α) : Prop where
  le : read.writes ≤ t.writes
  rows : read.writes = t.writes → read.rows = (t.load make).rows

namespace Loaded.Of

variable {α β : Type} {make : α → β} {read : Loaded β} {t t' : Table α}

theorem load (make : α → β) (t : Table α) : (t.load make).Of make t :=
  ⟨Nat.le_refl _, fun _ => rfl⟩

theorem grow (h : read.Of make t) (hGrows : t.Grows t') : read.Of make t' := by
  rcases hGrows with rfl | hLess
  · exact h
  · have hLe := h.le
    exact ⟨by omega, fun hSame => by omega⟩

end Loaded.Of

/-- A row of the blocked domains, its mode still a text. -/
structure BlockedRow where
  domain : Str
  mode : Str

/-- A row of the bindings: a network and the address of its clients, both as texts. -/
structure BindingRow where
  ipv6Subnet : Str
  ipv4 : Str

/-- A binding as it is loaded, with the mark that it is enabled. -/
structure DualstackBinding where
  ipv6Subnet : Str
  ipv4 : Str
  enabled : Bool

/-- `BlockMode::from_str`: all texts but one stand for the loopback address. -/
def blockModeFromStr (s : Str) : BlockMode := if s = "random".toList then .random else .loopback

/-- The tables that the program reads and writes. -/
structure Tables where
  zones : Table Zone := {}
  zoneRecords : Table ZoneRecord := {}
  blockedDomains : Table BlockedRow := {}
  dualstackBindings : Table BindingRow := {}

namespace Tables

/-- The row as `load_blocked` returns it, with its mode read. -/
def toBlocked (row : BlockedRow) : BlockedDomain := ⟨row.domain, blockModeFromStr row.mode⟩

/-- The row as `load_bindings` returns it: the query selects the enabled ones alone. -/
def toBinding (row : BindingRow) : DualstackBinding := ⟨row.ipv6Subnet, row.ipv4, true⟩

variable (t : Tables)

/-- `Store::load_zones`: the enabled rows, with the number of writes that they are behind.
-/
def loadZones : Loaded Zone := t.zones.load id

/-- `Store::load_zone_records`: the enabled rows of all zones together. -/
def loadZoneRecords : Loaded ZoneRecord := t.zoneRecords.load id

/-- `Store::load_blocked`: the enabled rows, each with its mode read. -/
def loadBlocked : Loaded BlockedDomain := t.blockedDomains.load toBlocked

/-- `Store::load_bindings`: the enabled rows, as bindings that are enabled. -/
def loadBindings : Loaded DualstackBinding := t.dualstackBindings.load toBinding

/-- `Store::insert_zone`: the name is stored in lower case. -/
def insertZone (place : Nat) (id name : Str) : Tables :=
  { t with zones := t.zones.insert place ⟨id, name.toLowercase⟩ }

/-- `Store::insert_zone_record`: the record is stored as it is. -/
def insertZoneRecord (place : Nat) (zr : ZoneRecord) : Tables :=
  { t with zoneRecords := t.zoneRecords.insert place zr }

/-- `Store::insert_blocked`: the domain is stored in lower case, its mode as it is. -/
def insertBlocked (place : Nat) (domain mode : Str) : Tables :=
  { t with blockedDomains := t.blockedDomains.insert place ⟨domain.toLowercase, mode⟩ }

/-- `Store::delete_blocked`: all rows of the domain in lower case. `same` is the
comparison of the column. -/
def deleteBlocked (same : Str → Str → Bool) (domain : Str) : Tables :=
  { t with blockedDomains := t.blockedDomains.delete fun row => same row.domain domain.toLowercase }

end Tables

/-! ## The binding table -/

/-- A line of the binding file. One that is blank, a comment or without a comma is passed
over. -/
def loadLine (table : BindingTable) (line : Str) : BindingTable :=
  let line := line.trim
  if line = [] ∨ line.head? = some '#' then table
  else
    match (line.splitOn ',').map Str.trim with
    | cidr :: ipv4 :: _ => table.add cidr ipv4
    | _ => table

/-- `data` is what can be read of the file of the configuration. -/
def loadMapFile (table : BindingTable) (data : Option Str) : BindingTable :=
  (data.elim [] Str.lines).foldl loadLine table

/-- `Dualstack::reload`: the lines of the file first, then the rows of the table that are
enabled. -/
def reloadBindings (mapFile : Option Str) (bindings : List DualstackBinding) : BindingTable :=
  bindings.foldl (fun table b => if b.enabled then table.add b.ipv6Subnet b.ipv4 else table)
    (loadMapFile {} mapFile)

end Dnsd.Store
