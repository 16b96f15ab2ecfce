import Dnsd.Resolve.Acceptance
import Dnsd.Resolve.Chasing

/-! How deep the walks of one resolution are nested. The loop of a walk is
bounded by the configured depth; the walks for the names of its servers, which
start over, are not. -/

namespace Dnsd.Resolve

open Proto Asking

theorem rootHints_parse : (rootHints.filterMap fun s => SocketAddr.parse s.toList) ≠ [] := by
  decide +kernel

theorem new_roots_ne_nil (cfg : Config) : (Resolver.new cfg).roots ≠ [] := by
  rw [Resolver.new]
  dsimp only
  split_ifs with hParsed
  · exact rootHints_parse
  · exact hParsed

/-- The servers of the name are those of "a.", of which no address is given. -/
def circularReply : Bytes :=
  [29, 94, 128, 0, 0, 0, 0, 0, 0, 1, 0, 0, 0, 0, 2, 0, 1, 0, 0, 0, 0, 0, 3, 1, 97, 0]

/-- The referral to the servers of "a.", parsed. -/
def circularMessage : Message where
  header := { id := queryId, qr := true }
  authority := [⟨['.'], typeNs, classIn, 0, .name ['a', '.']⟩]

/-- Every server gives this reply to every query, at once. -/
def circularNetwork : Network where
  expired _ := false
  udp _ _ _ := .ok circularReply
  tcp _ _ _ := .err (.io "timed out")

theorem queryServers_circular {servers : List SocketAddr} (hServers : servers ≠ []) (n : Nat) :
    queryServers circularNetwork servers ['a', '.'] typeA none n =
      some (.ok circularMessage, n + 2) := by
  obtain ⟨server, rest, rfl⟩ := List.exists_cons_of_ne_nil hServers
  have hDelivers : Delivers circularNetwork server (buildQuery ['a', '.'] typeA queryId none)
      (n + 1) circularMessage (n + 2) := .udp (n + 1) _ _ circularMessage rfl rfl rfl rfl
  rw [queryServers, queryServersFrom_delivers rfl hDelivers]
  rfl

/-- A lookup that is cut off cuts off the turn that it is made in. -/
theorem nameservers_cut {lookup : Asked → Asks Message} {glue : HashMap Str SocketAddr} {ns : Str}
    {rest : List Str} {n : Nat} (hGlue : glue.get ns = none)
    (hLookup : lookup ⟨ns, typeA, none⟩ n = none) :
    Resolver.nameservers lookup glue (ns :: rest) n = none := by
  rw [Resolver.nameservers, hGlue]
  refine bind_of_cut ?_ _
  exact attempt_of_cut hLookup

/-- The walk for "a." begins a walk for "a.", on every level. -/
theorem iterative_circular {r : Resolver} (hDepth : r.maxDepth ≠ 0) (hRoots : r.roots ≠ [])
    (nesting n : Nat) : r.iterative circularNetwork nesting ⟨['a', '.'], typeA, none⟩ n = none := by
  induction nesting generalizing n with
  | zero => rfl
  | succ nesting ih =>
      obtain ⟨left, hLeft⟩ := Nat.exists_eq_succ_of_ne_zero hDepth
      have hReferral : (extractReferral circularMessage).nsNames = [['a', '.']] := rfl
      have hGlue : (extractReferral circularMessage).glue.get ['a', '.'] = none := rfl
      have hGoesOn : ¬Ending circularMessage := by decide
      rw [Resolver.iterative, hLeft, Resolver.walk_of_response ⟨['a', '.'], typeA, none⟩ rfl
        (queryServers_circular hRoots (n + 1)), if_neg hGoesOn]
      refine bind_of_cut ?_ _
      rw [hReferral]
      exact nameservers_cut hGlue (ih (n + 1 + 2))

theorem doResolve_circular {r : Resolver} (hDepth : r.maxDepth ≠ 0) (hRoots : r.roots ≠ [])
    (nesting n : Nat) : r.doResolve circularNetwork nesting ⟨['a', '.'], typeA, none⟩ n = none := by
  rw [doResolve_eq]
  exact iterative_circular hDepth hRoots nesting n

/-- The nesting of the walks is bounded, while the clock stays before the
deadline, if and only if the configured depth is 0 and there is no walk at all. -/
theorem nesting_bounded_iff (cfg : Config) :
    (∃ bound, ∀ net asked n, (∀ n, net.expired n = false) →
      (Resolver.new cfg).doResolve net bound asked n ≠ none) ↔ cfg.recurseMaxDepth = 0 := by
  constructor
  · rintro ⟨bound, hBounded⟩
    by_contra hDepth
    refine hBounded circularNetwork ⟨['a', '.'], typeA, none⟩ 0 (fun _ => rfl)
      (doResolve_circular ?_ (new_roots_ne_nil cfg) bound 0)
    exact fun hZero => hDepth (UInt8.toNat_inj.mp hZero)
  · intro hDepth
    have hZero : (Resolver.new cfg).maxDepth = 0 := congrArg UInt8.toNat hDepth
    refine ⟨1, fun net asked n _ => ?_⟩
    rw [doResolve_eq, Resolver.iterative, hZero, Resolver.walk]
    exact Option.some_ne_none _

/-- With the configuration that is the default, no bound holds for the servers that refer
every name to those of "a.": their address is looked up by a walk that comes to the same
referral. -/
theorem nesting_unbounded_circular :
    ¬∃ bound : Nat → Nat, ∀ cfg net asked n, (∀ n, net.expired n = false) →
      (Resolver.new cfg).doResolve net (bound cfg.recurseMaxDepth.toNat) asked n ≠ none := by
  rintro ⟨bound, hBounded⟩
  exact hBounded {} circularNetwork ⟨['a', '.'], typeA, none⟩ 0 (fun _ => rfl)
    (doResolve_circular (show (12 : Nat) ≠ 0 by decide) (new_roots_ne_nil {}) _ 0)

end Dnsd.Resolve
