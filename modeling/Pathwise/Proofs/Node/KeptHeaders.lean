import Pathwise.Node.Assemble
import Pathwise.Proofs.Fragment.Recorded
import Pathwise.Proofs.Node.Code

/-!
# Headers that a node keeps

A node keeps the headers that are recorded about its fragments, and no others
(`Node.mem_usedHeaders_iff`).  Whether it keeps what its code refers to is therefore a question of
the record, which is complete up to header compressions and copies of values into parameters
(`Gen.services_logged`).
-/

namespace Pathwise

open Steps Placement

/-- **A node keeps headers for what is recorded about its fragments**, and for nothing else. -/
theorem Node.mem_usedHeaders_iff {P : Node.Plan} {node : String} {headers : List String}
    (h : Node.usedHeaders P node = .ok headers) (x : String) :
    x ∈ headers ↔ ∃ f ∈ P.assignment.on node, ∃ r,
      P.relation.find? f = some (.fragment r) ∧
        ∃ t ∈ r.inputs ++ r.outputs, Node.headerOf t = .ok (some x) := by
  obtain ⟨rs, hrs, h⟩ := except_bind_eq_ok.mp h
  obtain ⟨hs, hhs, h⟩ := except_bind_eq_ok.mp h
  cases h
  obtain ⟨hof, hfrom⟩ := except_mapM_eq_ok _ hrs
  obtain ⟨hheader, hoperand⟩ := except_mapM_eq_ok _ hhs
  have hmem : ∀ t, t ∈ rs.flatMap (·.inputs) ++ rs.flatMap (·.outputs) ↔
      ∃ r ∈ rs, t ∈ r.inputs ++ r.outputs := by
    intro t
    simp only [List.mem_append, List.mem_flatMap]
    grind
  rw [List.mem_filterMap]
  constructor
  · rintro ⟨header, hheader, rfl : header = some x⟩
    obtain ⟨t, ht, htx⟩ := hoperand _ hheader
    obtain ⟨r, hr, ht⟩ := (hmem t).mp ht
    obtain ⟨f, hf, hfr⟩ := hfrom r hr
    exact ⟨f, hf, r, Node.fragment_eq_ok hfr, t, ht, htx⟩
  · rintro ⟨f, hf, r, hr, t, ht, htx⟩
    obtain ⟨r', hr', hfr⟩ := hof f hf
    obtain rfl : r = r' := RelationEntry.fragment.inj
      (Option.some.inj (hr.symm.trans (Node.fragment_eq_ok hfr)))
    obtain ⟨header, hmem', hht⟩ := hheader t ((hmem t).mpr ⟨r, hr', ht⟩)
    rw [htx] at hht
    cases hht
    exact ⟨some x, hmem', rfl⟩

/--
**What is recorded about fragments.**  Every fragment was generated by one run of an application,
from `g₀` on, and everything that this run wrote to the texts of the fragment is logged in its
entry: the variables and header fields are among the inputs and outputs, except the operand of a
header compression and the two sides of a copy into a parameter that takes a value.  A node keeps
the headers that are recorded so, and no others.
-/
theorem Gen.services_logged {p : Program} {g g' : Generation} {svcs : OrderedMap String Service}
    (hrelation : g.relation = {}) (h : Gen.services p g = .ok svcs g') :
    (∀ f r, g'.relation.find? f = some (.fragment r) →
      ∃ g₀ g₁ service name, MadeBy p g g' g₀ g₁ service name f r ∧
      ∀ kind, kind ≠ .vars → ∃ ps, g'.written ⟨f, kind⟩ = g₀.written ⟨f, kind⟩ ++ ps ∧
        Logged p.modules (· ∈ r.inputs ++ r.outputs) ps) ∧
    ∀ (P : Node.Plan) (node : String) (headers : List String), P.relation = g'.relation →
      Node.usedHeaders P node = .ok headers → ∀ x, x ∈ headers ↔ ∃ f ∈ P.assignment.on node, ∃ r,
        g'.relation.find? f = some (.fragment r) ∧
          ∃ t ∈ r.inputs ++ r.outputs, Node.headerOf t = .ok (some x) := by
  refine ⟨fun f r hr => ?_, fun P node headers hP hused x => ?_⟩
  · obtain ⟨g₀, g₁, service, name, e, hmade, _⟩ := (Gen.services_runs h).exists_madeBy hrelation hr
    obtain ⟨a, k, hk, ha, rfl, hrun⟩ := hmade.run
    refine ⟨g₀, g₁, service, name, hmade, fun kind hkind => ?_⟩
    rw [hmade.text kind hkind]
    exact Gen.application_logged ha hrun k hk r hmade.relation kind hkind
  · rw [Node.mem_usedHeaders_iff hused, hP]

/-- A service of one application, which compresses a header and sets a field of another one. -/
def squeezeProgram : Program where
  services := ⟨[("svc", ⟨"svc", ["A"]⟩)]⟩
  applications := ⟨[("A", ⟨"A", {}, [.primitive "headercompress" [.ofField ["hdr", "ip", "ttl"]],
    .assign [.ofField ["hdr", "eth", "kind"]] (.ofDigits "1")]⟩)]⟩
  modules := {}

/-- Two nodes have one fragment each. -/
def squeezePlan (g : Generation) : Node.Plan where
  workspace := ⟨"", "", "", true, true⟩
  relation := g.relation
  paths := ⟨[("svc", ["s1", "s2"])]⟩
  topology := ⟨[("s1", default), ("s2", default)]⟩
  assignment := ⟨⟨[("s1", ["svc_A_0"]), ("s2", ["svc_A_1"])]⟩, {}, {}⟩

def squeezeTest (g : Generation) : Bool :=
  g.relation.find? "svc_A_0" = some (.fragment ⟨[], [], [varFileOf "svc_A"], [], 0⟩) &&
  g.relation.find? "svc_A_1" = some (.fragment ⟨[], ["hdr.eth.kind"],
    [varFileOf "svc_A"], [], 0⟩) &&
  (Node.usedHeaders (squeezePlan g) "s1").toOption = some [] &&
  Piece.render (g.written ⟨"svc_A_0", .control⟩) = "LynetteHeaderCompress(hdr.ip.ttl);\n"

/-- A node compresses the header `ip`, but keeps no header at all; what the other node assigns to is
recorded. -/
theorem Gen.services_logged_squeeze :
    ∃ svcs g', Gen.services squeezeProgram .empty = .ok svcs g' ∧
      Piece.render (g'.written ⟨"svc_A_0", .control⟩) = "LynetteHeaderCompress(hdr.ip.ttl);\n" ∧
      Node.usedHeaders (squeezePlan g') "s1" = .ok [] ∧
      (¬ ∃ f ∈ (squeezePlan g').assignment.on "s1", ∃ r, g'.relation.find? f = some (.fragment r) ∧
        ∃ t ∈ r.inputs ++ r.outputs, Node.headerOf t = .ok (some "ip")) ∧
      ∃ (g₀ : Generation) (ps : List Piece), g'.written ⟨"svc_A_1", .control⟩ = g₀.written
        ⟨"svc_A_1", .control⟩ ++ ps ∧ Logged {} (· ∈ ["hdr.eth.kind"]) ps := by
  obtain ⟨svcs, g', h, htest⟩ :=
    exists_ok_of_succeededWith (P := squeezeTest) (r := Gen.services squeezeProgram .empty)
    (by decide +kernel)
  simp only [squeezeTest, Bool.and_eq_true, decide_eq_true_eq] at htest
  obtain ⟨⟨⟨_, hset⟩, hused⟩, hcompressed⟩ := htest
  obtain ⟨hlogged, hkept⟩ := Gen.services_logged rfl h
  have hused := eq_ok_of_toOption hused
  refine ⟨svcs, g', h, hcompressed, hused, fun hip => ?_, ?_⟩
  · exact List.not_mem_nil ((hkept _ "s1" _ rfl hused "ip").mpr hip)
  · obtain ⟨g₀, _, _, _, _, htext⟩ := hlogged _ _ hset
    exact ⟨g₀, htext .control (by decide)⟩

end Pathwise
