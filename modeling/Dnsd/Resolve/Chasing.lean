import Dnsd.Resolve.Recurse

/-! Chains of aliases. The loop that should follow them ends in its first turn,
so that a resolution is one walk for the name that is asked. -/

namespace Dnsd.Resolve

open Proto Asking

section Chain

variable (net : Network) (r : Resolver) (nesting : Nat)

/-- The walk for the name and type ends with this message, whenever it begins. -/
def Answered (asked : Asked) (m : Message) : Prop :=
  ∀ n, ∃ n', r.iterative net nesting asked n = some (.ok m, n')

/-- The answers are records of the type that the name owns. -/
structure OwnsRecords (asked : Asked) (m : Message) : Prop where
  rcode : m.header.rcode = rcodeNoerror
  nonempty : m.answers ≠ []
  owned : ∀ rec ∈ m.answers, canonicalName rec.name = canonicalName asked.qname ∧
    rec.rtype = asked.qtype

/-- The answer is a CNAME record of the name, alone. -/
structure AliasOf (asked : Asked) (target : Str) (m : Message) : Prop where
  rcode : m.header.rcode = rcodeNoerror
  alone : ∃ rec, m.answers = [rec] ∧ canonicalName rec.name = canonicalName asked.qname ∧
    rec.rtype = typeCname ∧ rec.data = .name target

/-- Following CNAME records for so many steps leads from the name to another. -/
inductive Follows : Asked → Nat → Asked → Prop where
  | here (asked : Asked) : Follows asked 0 asked
  | cname (asked last : Asked) (target : Str) (m : Message) (k : Nat)
      (hAnswered : Answered net r nesting asked m) (hAlias : AliasOf asked target m)
      (hRest : Follows { asked with qname := target } k last) : Follows asked (k + 1) last

/-- The question of the first turn. -/
def Asked.canonical (asked : Asked) : Asked := { asked with qname := canonicalName asked.qname }

/-- What chasing is for: records at the end of a short enough chain are found, a
longer chain is an error, and no alias is left open at the end of an answer. -/
structure Chased (asked : Asked) : Prop where
  found : ∀ k last m, k ≤ r.maxDepth → Follows net r nesting asked.canonical k last →
    Answered net r nesting last m → OwnsRecords last m →
    ∀ n, ∃ resp n', r.doResolve net nesting asked n = some (.ok resp, n') ∧
      ∀ rec ∈ m.answers, rec ∈ resp.answers
  endless : (∀ k last, k ≤ r.maxDepth → Follows net r nesting asked.canonical k last →
      ∃ target m, Answered net r nesting last m ∧ AliasOf last target m) →
    ∀ n, ∃ e n', r.doResolve net nesting asked n = some (.err e, n')
  closed : ∀ n resp n', r.doResolve net nesting asked n = some (.ok resp, n') →
    resp.header.rcode = rcodeNoerror →
    ∀ rec, resp.answers.getLast? = some rec → rec.rtype ≠ typeCname

/-- Each name of the chain is answered with its records, with an alias, or with
no records at all. -/
def Upstream (asked : Asked) : Prop :=
  ∀ k last, Follows net r nesting asked.canonical k last → ∃ m, Answered net r nesting last m ∧
    (OwnsRecords last m ∨ (∃ target, AliasOf last target m) ∨ m.answers = [])

end Chain

section Chase

variable {net : Network} {r : Resolver} {nesting : Nat}

/-- A turn never goes on: an answer with records is returned as it is, and so is
one without. -/
theorem chaseTurn_eq (follow : Str → Asks Message) (asked : Asked) :
    r.chaseTurn net nesting follow asked = r.iterative net nesting asked := by
  funext n
  change Asking.bind _ _ n = _
  rw [Asking.bind]
  split
  · rename_i resp n' hWalk
    rw [hWalk]
    split
    · rfl
    · rename_i hNone
      rw [if_pos (by simpa using (not_or.mp hNone).2)]
      rfl
  · rename_i hWalk
    rw [hWalk]
  · rename_i hWalk
    rw [hWalk]
  · rename_i hWalk
    rw [hWalk]

theorem doResolve_eq (asked : Asked) :
    r.doResolve net nesting asked = r.iterative net nesting asked.canonical := by
  rw [Resolver.doResolve]
  cases r.maxDepth with
  | zero => exact chaseTurn_eq _ _
  | succ left => exact chaseTurn_eq _ _

theorem Answered.eq {asked : Asked} {m m' : Message} (h : Answered net r nesting asked m)
    (h' : Answered net r nesting asked m') : m = m' := by
  obtain ⟨n, hWalk⟩ := h 0
  obtain ⟨n', hWalk'⟩ := h' 0
  rw [hWalk] at hWalk'
  cases hWalk'
  rfl

/-- For a type other than CNAME, names are chased as they should be if and only
if the name that is asked is not an alias itself. -/
theorem chased_iff {asked : Asked} (hType : asked.qtype ≠ typeCname)
    (hUpstream : Upstream net r nesting asked) :
    Chased net r nesting asked ↔
      ¬∃ target m, Answered net r nesting asked.canonical m ∧ AliasOf asked.canonical target m := by
  constructor
  · rintro hChased ⟨target, m, hAnswered, hAlias⟩
    obtain ⟨n', hWalk⟩ := hAnswered 0
    obtain ⟨rec, hAnswers, _, hCname, _⟩ := hAlias.alone
    refine hChased.closed 0 m n' (by rw [doResolve_eq, hWalk]) hAlias.rcode rec ?_ hCname
    rw [hAnswers]
    rfl
  · intro hNone
    have hHere {k : Nat} {last : Asked} (hFollows : Follows net r nesting asked.canonical k last) :
        last = asked.canonical := by
      cases hFollows with
      | here => rfl
      | cname _ _ target m k hAnswered hAlias hRest =>
          exact absurd ⟨target, m, hAnswered, hAlias⟩ hNone
    refine ⟨fun k last m _ hFollows hAnswered hOwns n => ?_, fun hAll => ?_,
      fun n resp n' hRun hRcode rec hLast => ?_⟩
    · rw [hHere hFollows] at hAnswered
      obtain ⟨n', hWalk⟩ := hAnswered n
      exact ⟨m, n', by rw [doResolve_eq, hWalk], fun rec hRec => hRec⟩
    · obtain ⟨target, m, hAlias⟩ := hAll 0 asked.canonical (Nat.zero_le _) (.here _)
      exact absurd ⟨target, m, hAlias⟩ hNone
    · obtain ⟨m, hAnswered, hKind⟩ := hUpstream 0 asked.canonical (.here _)
      obtain ⟨n'', hWalk⟩ := hAnswered n
      rw [doResolve_eq, hWalk] at hRun
      cases hRun
      have hMem := List.mem_of_getLast? hLast
      rcases hKind with hOwns | ⟨target, hAlias⟩ | hNil
      · rw [(hOwns.owned rec hMem).2]
        exact hType
      · exact absurd ⟨target, resp, hAnswered, hAlias⟩ hNone
      · rw [hNil] at hMem
        cases hMem

end Chase

/-- The query of the resolver for the addresses of a name of one letter. -/
def letterQuery (letter : UInt8) : Bytes :=
  [29, 94, 1, 0, 0, 1, 0, 0, 0, 0, 0, 1, 1, letter, 0, 0, 1, 0, 1, 0, 0, 41, 4, 208, 0, 0, 0, 0, 0, 0]

/-- "a." is an alias of "b.", which has the address 192.0.2.1. -/
def aliasReply : Bytes :=
  [29, 94, 128, 0, 0, 1, 0, 1, 0, 0, 0, 0, 1, 97, 0, 0, 1, 0, 1, 192, 12, 0, 5, 0, 1, 0, 0, 0, 60,
    0, 3, 1, 98, 0]

/-- "b." has the address 192.0.2.1. -/
def addressReply : Bytes :=
  [29, 94, 128, 0, 0, 1, 0, 1, 0, 0, 0, 0, 1, 98, 0, 0, 1, 0, 1, 192, 12, 0, 1, 0, 1, 0, 0, 0, 60,
    0, 4, 192, 0, 2, 1]

/-- The reply that is an alias alone, parsed. -/
def aliasMessage : Message where
  header := { id := queryId, qr := true }
  questions := [⟨['a', '.'], typeA, classIn⟩]
  answers := [⟨['a', '.'], typeCname, classIn, 60, .name ['b', '.']⟩]

/-- The reply with the address, parsed. -/
def addressMessage : Message where
  header := { id := queryId, qr := true }
  questions := [⟨['b', '.'], typeA, classIn⟩]
  answers := [⟨['b', '.'], typeA, classIn, 60, .a ⟨192, 0, 2, 1⟩⟩]

/-- The servers answer the two names and nothing else. -/
def aliasNetwork : Network where
  expired _ := false
  udp _ _ sent :=
    if sent = letterQuery 97 then .ok aliasReply
    else if sent = letterQuery 98 then .ok addressReply
    else .err (.io "timed out")
  tcp _ _ _ := .err (.io "timed out")

/-- A resolver with one turn and one root server. -/
def aliasResolver : Resolver := ⟨1, [⟨.v4 Ipv4Addr.localhost, 53⟩]⟩

theorem answered_a : Answered aliasNetwork aliasResolver 1 ⟨['a', '.'], typeA, none⟩ aliasMessage :=
  fun n => ⟨n + 3, rfl⟩

theorem answered_b : Answered aliasNetwork aliasResolver 1 ⟨['b', '.'], typeA, none⟩ addressMessage :=
  fun n => ⟨n + 3, rfl⟩

theorem aliasOf_a : AliasOf ⟨['a', '.'], typeA, none⟩ ['b', '.'] aliasMessage :=
  ⟨rfl, _, rfl, rfl, rfl, rfl⟩

theorem ownsRecords_b : OwnsRecords ⟨['b', '.'], typeA, none⟩ addressMessage := by
  refine ⟨rfl, by decide, fun rec hRec => ?_⟩
  rw [List.mem_singleton.mp hRec]
  exact ⟨rfl, rfl⟩

theorem follows_b {k : Nat} {last : Asked}
    (h : Follows aliasNetwork aliasResolver 1 ⟨['b', '.'], typeA, none⟩ k last) :
    last = ⟨['b', '.'], typeA, none⟩ := by
  cases h with
  | here => rfl
  | cname _ _ target m k hAnswered hAlias hRest =>
      rw [hAnswered.eq answered_b] at hAlias
      obtain ⟨rec, hAnswers, _, hCname, _⟩ := hAlias.alone
      cases hAnswers
      exact absurd hCname (by decide)

theorem upstream_b : Upstream aliasNetwork aliasResolver 1 ⟨['b', '.'], typeA, none⟩ := by
  intro k last hFollows
  rw [follows_b hFollows]
  exact ⟨addressMessage, answered_b, Or.inl ownsRecords_b⟩

theorem upstream_a : Upstream aliasNetwork aliasResolver 1 ⟨['a', '.'], typeA, none⟩ := by
  intro k last hFollows
  cases hFollows with
  | here => exact ⟨aliasMessage, answered_a, Or.inr (Or.inl ⟨_, aliasOf_a⟩)⟩
  | cname _ _ target m k hAnswered hAlias hRest =>
      rw [hAnswered.eq answered_a] at hAlias
      obtain ⟨rec, hAnswers, _, _, hTarget⟩ := hAlias.alone
      cases hAnswers
      cases hTarget
      rw [follows_b hRest]
      exact ⟨addressMessage, answered_b, Or.inl ownsRecords_b⟩

/-- A name with an address of its own is answered by it, there is nothing to chase. -/
theorem chased_b :
    Chased aliasNetwork aliasResolver 1 ⟨['b', '.'], typeA, none⟩ ↔
      ¬∃ target m, Answered aliasNetwork aliasResolver 1 ⟨['b', '.'], typeA, none⟩ m ∧
        AliasOf ⟨['b', '.'], typeA, none⟩ target m :=
  chased_iff (by decide) upstream_b

/-- The servers answer "a." with an alias of "b.". The alias is returned as it is, and the
address of "b." is not looked up. -/
theorem chased_not_a :
    ¬∀ net r nesting asked, asked.qtype ≠ typeCname → Upstream net r nesting asked →
      Chased net r nesting asked := by
  intro hAll
  have hChased := hAll aliasNetwork aliasResolver 1 ⟨['a', '.'], typeA, none⟩ (by decide) upstream_a
  obtain ⟨resp, n', hRun, hRecords⟩ := hChased.found 1 _ addressMessage (Nat.le_refl 1)
    (.cname _ _ _ _ 0 answered_a aliasOf_a (.here _)) answered_b ownsRecords_b 0
  have hResolved : aliasResolver.doResolve aliasNetwork 1 ⟨['a', '.'], typeA, none⟩ 0 =
      some (.ok aliasMessage, 3) := rfl
  rw [hResolved] at hRun
  cases hRun
  exact absurd (hRecords _ List.mem_cons_self) (by decide)

end Dnsd.Resolve
