import Dnsd.Error
import Dnsd.Rust.Net
import Dnsd.Rust.Text

/-! The DNS message model: header, questions, records and their data. -/

namespace Dnsd.Proto

def typeA : UInt16 := 1
def typeNs : UInt16 := 2
def typeCname : UInt16 := 5
def typeSoa : UInt16 := 6
def typePtr : UInt16 := 12
def typeMx : UInt16 := 15
def typeTxt : UInt16 := 16
def typeAaaa : UInt16 := 28
def typeSrv : UInt16 := 33
def typeDname : UInt16 := 39
def typeOpt : UInt16 := 41
def typeDs : UInt16 := 43
def typeRrsig : UInt16 := 46
def typeNsec : UInt16 := 47
def typeDnskey : UInt16 := 48
def typeNsec3 : UInt16 := 50
def typeCaa : UInt16 := 257

def classIn : UInt16 := 1

def rcodeNoerror : UInt8 := 0
def rcodeFormerr : UInt8 := 1
def rcodeServfail : UInt8 := 2
def rcodeNxdomain : UInt8 := 3
def rcodeNotimp : UInt8 := 4
def rcodeRefused : UInt8 := 5

def ednsOptEcs : UInt16 := 8

/-- `type_to_string`: the name that the log and the zones have for a type. -/
def typeToString (t : UInt16) : String :=
  if t = typeA then "A"
  else if t = typeNs then "NS"
  else if t = typeCname then "CNAME"
  else if t = typeSoa then "SOA"
  else if t = typePtr then "PTR"
  else if t = typeMx then "MX"
  else if t = typeTxt then "TXT"
  else if t = typeAaaa then "AAAA"
  else if t = typeSrv then "SRV"
  else if t = typeDname then "DNAME"
  else if t = typeOpt then "OPT"
  else if t = typeDs then "DS"
  else if t = typeRrsig then "RRSIG"
  else if t = typeNsec then "NSEC"
  else if t = typeDnskey then "DNSKEY"
  else if t = typeNsec3 then "NSEC3"
  else if t = typeCaa then "CAA"
  else "TYPE" ++ toString t.toNat

/-- `rcode_to_string`: the name that the log has for a response code. -/
def rcodeToString (rc : UInt8) : String :=
  if rc = rcodeNoerror then "NOERROR"
  else if rc = rcodeFormerr then "FORMERR"
  else if rc = rcodeServfail then "SERVFAIL"
  else if rc = rcodeNxdomain then "NXDOMAIN"
  else if rc = rcodeNotimp then "NOTIMP"
  else if rc = rcodeRefused then "REFUSED"
  else "RCODE" ++ toString rc.toNat

/-- The twelve RDATA layouts that the codec tells apart. -/
inductive RdataKind where
  | a | aaaa | name | mx | soa | txt | srv | caa | rrsig | nsec | opt | raw
  deriving DecidableEq

/-- The arm of the `match rtype` that a record type selects. -/
def rdataKind (rtype : UInt16) : RdataKind :=
  if rtype = typeA then .a
  else if rtype = typeAaaa then .aaaa
  else if rtype = typeNs ∨ rtype = typeCname ∨ rtype = typePtr ∨ rtype = typeDname then .name
  else if rtype = typeMx then .mx
  else if rtype = typeSoa then .soa
  else if rtype = typeTxt then .txt
  else if rtype = typeSrv then .srv
  else if rtype = typeCaa then .caa
  else if rtype = typeRrsig then .rrsig
  else if rtype = typeNsec then .nsec
  else if rtype = typeOpt then .opt
  else .raw

theorem rdataKind_eq_opt_iff {rtype : UInt16} : rdataKind rtype = .opt ↔ rtype = typeOpt := by
  constructor
  · intro h
    simp only [rdataKind, ↓ite_eq_iff, reduceCtorEq, and_false, false_or, or_false, and_true] at h
    exact h.2.2.2.2.2.2.2.2.2.2
  · rintro rfl
    decide

theorem rdataKind_eq_soa_iff {rtype : UInt16} : rdataKind rtype = .soa ↔ rtype = typeSoa := by
  constructor
  · intro h
    simp only [rdataKind, ↓ite_eq_iff, reduceCtorEq, and_false, false_or, or_false, and_true] at h
    exact h.2.2.2.2
  · rintro rfl
    decide

/-- The flags and codes of a message, without its counts. -/
structure Header where
  id : UInt16 := 0
  qr : Bool := false
  opcode : UInt8 := 0
  aa : Bool := false
  tc : Bool := false
  rd : Bool := false
  ra : Bool := false
  ad : Bool := false
  cd : Bool := false
  rcode : UInt8 := 0
  deriving DecidableEq

/-- A question: a name, a type and a class. -/
structure Question where
  name : Str
  qtype : UInt16
  qclass : UInt16
  deriving DecidableEq

/-- An option of an OPT record, its data as they are. -/
structure OptOption where
  code : UInt16
  data : Bytes
  deriving DecidableEq

/-- Record data. `name` serves NS, CNAME, PTR and DNAME; `raw` is opaque. -/
inductive RData where
  | a (ip : Ipv4Addr)
  | aaaa (ip : Ipv6Addr)
  | name (name : Str)
  | mx (preference : UInt16) (exchange : Str)
  | soa (mname rname : Str) (serial refresh retry expire minimum : UInt32)
  | txt (strings : List Bytes)
  | srv (priority weight port : UInt16) (target : Str)
  | caa (flags : UInt8) (tag : Str) (value : Bytes)
  | rrsig (typeCovered : UInt16) (algorithm labels : UInt8)
      (originalTtl expiration inception : UInt32) (keyTag : UInt16)
      (signerName : Str) (signature : Bytes)
  | nsec (nextDomain : Str) (typeBitmaps : Bytes)
  | raw (bytes : Bytes)
  | opt (udpSize : UInt16) (extRcode version : UInt8) (flags : UInt16)
      (options : List OptOption)
  deriving DecidableEq

/-- The layout that a value is written in. -/
def RData.kind : RData → RdataKind
  | .a .. => .a
  | .aaaa .. => .aaaa
  | .name .. => .name
  | .mx .. => .mx
  | .soa .. => .soa
  | .txt .. => .txt
  | .srv .. => .srv
  | .caa .. => .caa
  | .rrsig .. => .rrsig
  | .nsec .. => .nsec
  | .raw .. => .raw
  | .opt .. => .opt

/-- A record with its data taken apart by its type. -/
structure Record where
  name : Str
  rtype : UInt16
  rclass : UInt16
  ttl : UInt32
  data : RData
  deriving DecidableEq

/-- A message: a header and its four sections. -/
structure Message where
  header : Header := {}
  questions : List Question := []
  answers : List Record := []
  authority : List Record := []
  additional : List Record := []
  deriving DecidableEq

/-- The first OPT record of the additional section. -/
def Message.edns (m : Message) : Option Record :=
  m.additional.find? fun r => r.rtype == typeOpt

/-- The first question, which is the only one that the program looks at. -/
def Message.question (m : Message) : Option Question := m.questions.head?

end Dnsd.Proto
