import Pathwise.Proofs.Fragment.Origins
import Pathwise.Proofs.Node.Code

/-!
# Variables of nodes

Whatever is generated mentions declared variables only, and the code of a node declares the
variables of all its fragments (`services_declared`).  In the body of a module, names stand for its
parameters and its own variables.

The code of a node is put together after that, and there the word for the next hop is replaced
wherever it occurs, also inside the name of a variable: a line that holds such a name mentions a
variable that nobody declares (`services_declared_hop`).
-/

namespace Pathwise

open Steps List

/-- **The scope of a called module**: its names are bound by the call, and every operand is such a
name or a constant. -/
theorem Emit.moduleCall_binds {run : Job → Gen Unit} {sc : Scope} {site : Site} {c : Call}
    {g g' : Generation} {u : Unit} (h : moduleCall run sc site c g = .ok u g') :
    ∃ m vars g1, let body : Scope := ⟨sc.callStem c, vars, m.maps, m.sets, m.funcs, sc.modules⟩
      sc.modules.find? c.name = some m ∧
        run ⟨body, { site with inAction := false }, m.body⟩ g1 = .ok u g' ∧
      (∀ name v, vars.find? name = some v → CallBinds sc m c name v) ∧
      ∀ t o, body.operand? t = some o → (∃ name, CallBinds sc m c name o.text) ∨
        t.constant? = some o.text := by
  let S : Setting := ⟨sc.modules, True, fun _ => True⟩
  obtain ⟨m, vars, e, g1, hm, hprepares, _, hrun⟩ :=
    moduleCall_eq_ok (S := S) (fun _ _ _ _ => trivial) h
  have hbinds : ∀ name v, vars.find? name = some v → CallBinds sc m c name v := by
    intro name v hv
    rcases hprepares.names name v hv with hempty | ⟨hbinds, _⟩
    · cases hempty
    · exact hbinds
  refine ⟨m, vars, g1, hm, hrun, hbinds, fun t o ho => ?_⟩
  obtain ⟨_, hresolve⟩ := result?_eq_some ho
  refine (Scope.binds_or_constant hresolve).imp_left ?_
  rintro ⟨name, hname⟩
  exact ⟨name, hbinds name _ hname⟩

/-- **The variables of the fragments on a node are declared in its code.** -/
theorem Node.declared_of_needs {P : Plan} {node : String} {g : Generation} {scopes : List String}
    {f : String} {r : Relation} {v : String} (hf : f ∈ P.assignment.on node)
    (hscopes : ∀ scope, varFileOf scope ∈ r.varFiles → scope ∈ scopes) (hv : g.Declares f r v) :
    v ∈ declaredVars (scopes.flatMap fun scope => g.written ⟨scope, .vars⟩) ∨
      v ∈ declaredVars ((P.assignment.on node).flatMap fun f => g.written ⟨f, .temp⟩) := by
  have hmem : ∀ {α : Type} {xs : List α} {x : α} {ps : α → List Piece}, x ∈ xs →
      v ∈ declaredVars (ps x) →
      v ∈ declaredVars (xs.flatMap ps) := by
    intro α xs x ps hx hv
    obtain ⟨piece, hpiece, hdeclared⟩ := mem_filterMap.mp hv
    exact mem_filterMap.mpr ⟨piece, mem_flatMap.mpr ⟨x, hx, hpiece⟩, hdeclared⟩
  rcases hv with hv | ⟨scope, hfile, hv⟩
  · exact .inr (hmem hf hv)
  · exact .inl (hmem (hscopes scope hfile) hv)

/--
**The variables of generated code.**  After services were generated,

* every variable that a fragment's texts mention, from the run on that made its entry, is declared
  among its temporary variables or in a file of variables of its entry, if it is a variable at all
  and no constant that is passed to a module;
* the code of a node is the texts of its fragments behind their declarations, with the next hop
  filled in, and declares all variables that are declared for these fragments;
* in the body of a module a name stands for the argument of a parameter that takes a result, or for
  a variable that the call introduces.
-/
theorem Gen.services_declared {p : Program} {g g' : Generation} {svcs : OrderedMap String Service}
    (hrelation : g.relation = {}) (h : Gen.services p g = .ok svcs g') :
    (∀ f r, g'.relation.find? f = some (.fragment r) →
      ∃ g₀ g₁ service name, MadeBy p g g' g₀ g₁ service name f r ∧
      ∀ kind, kind ≠ .vars → ∃ ps, g'.written ⟨f, kind⟩ = g₀.written ⟨f, kind⟩ ++ ps ∧
        ∀ v ∈ mentioned ps, p.PassesConstant v ∨ g'.Declares f r v) ∧
    (∀ (P : Node.Plan) (node : String) (s s' : Session),
      (∀ f ∈ P.assignment.on node, P.relation.find? f = g'.relation.find? f) →
      (∀ k, Node.Needs P node k → ∀ t, Run.read (P.workspace.componentFile k.fileName) s = .ok t s →
        t = Piece.render (g'.written k)) →
      Node.control P node s = .ok () s' →
      ∃ scopes : List String, scopes.Nodup ∧ Run.readRaw (P.workspace.codeFile node "control") s' =
          .ok (Node.codeText P node scopes fun k => Piece.render (g'.written k)) s' ∧
        ∀ f ∈ P.assignment.on node, ∃ r, g'.relation.find? f = some (.fragment r) ∧
          ∀ v, g'.Declares f r v →
          v ∈ declaredVars (scopes.flatMap fun scope => g'.written ⟨scope, .vars⟩) ∨
            v ∈ declaredVars ((P.assignment.on node).flatMap fun f => g'.written ⟨f, .temp⟩)) ∧
    ∀ (run : Job → Gen Unit) (sc : Scope) (site : Site) (c : Call) (g g' : Generation),
      Emit.moduleCall run sc site c g = .ok () g' →
      ∃ m vars g₁, let body : Scope := ⟨sc.callStem c, vars, m.maps, m.sets, m.funcs, sc.modules⟩
        sc.modules.find? c.name = some m ∧
          run ⟨body, { site with inAction := false }, m.body⟩ g₁ = .ok () g' ∧
        (∀ name v, vars.find? name = some v → CallBinds sc m c name v) ∧
        ∀ t o, body.operand? t = some o → (∃ name, CallBinds sc m c name o.text) ∨
          t.constant? = some o.text := by
  have hruns := Gen.services_runs h
  refine ⟨fun f r hr => ?_, fun P node s s' hP htext hcontrol => ?_,
    fun run sc site c g g' hcall => Emit.moduleCall_binds hcall⟩
  · obtain ⟨g₀, g₁, service, name, e, hmade, _, _, _, htext, hdeclared⟩ :=
      hruns.exists_madeBy hrelation hr
    exact ⟨g₀, g₁, service, name, hmade,
      fun kind hkind => ⟨e.own kind, htext kind hkind, hdeclared kind⟩⟩
  · have hfiles : ∀ f ∈ P.assignment.on node, ∀ r, P.relation.find? f = some (.fragment r) →
        ∀ file ∈ r.varFiles, file ∈ Set.range varFileOf := by
      intro f hf r hr
      rw [hP f hf] at hr
      obtain ⟨_, _, _, _, _, _, hfiles, _⟩ := hruns.exists_madeBy hrelation hr
      exact hfiles
    obtain ⟨scopes, hnodup, hneeded, hcode⟩ := Node.control_eq_ok htext hfiles hcontrol
    refine ⟨scopes, hnodup, hcode, fun f hf => ?_⟩
    obtain ⟨r, hr, hscopes⟩ := hneeded f hf
    exact ⟨r, hP f hf ▸ hr, fun v hv => Node.declared_of_needs hf hscopes hv⟩

/-- A service of one application, whose variable has the word for the next hop in its name. -/
def hopProgram : Program :=
  let m : Module := { Module.named "M" with
    directions := ["inout"]
    params := ["x"]
    paramTypes := ["bit<8>"]
    vars := ⟨[("y", "bit<8>")]⟩
    body := [.assign [.ofVariable "y"] (.ofDigits "1"),
      .assign [.ofVariable "x"] (.ofVariable "y")] }
  { services := ⟨[("svc", ⟨"svc", ["A"]⟩)]⟩
    applications :=
      ⟨[("A", ⟨"A", ⟨[("NextHop", "bit<8>")]⟩, [.call ⟨true, "M", [.ofVariable "NextHop"]⟩]⟩)]⟩
    modules := ⟨[("M", m)]⟩ }

def hopPlan (g : Generation) : Node.Plan where
  workspace := ⟨"", "", "", true, true⟩
  relation := g.relation
  paths := ⟨[("svc", ["s1"])]⟩
  topology := ⟨[("s1", default)]⟩
  assignment := ⟨⟨[("s1", ["svc_A_0"])]⟩, {}, {}⟩

def hopEntry : Relation :=
  ⟨["svc_A_M_y"], ["svc_A_M_y", "svc_A_NextHop"],
    [varFileOf "svc_A", varFileOf "svc_A_M"], ["M"], 0⟩

def hopCode : String :=
  "bit<8> svc_A_NextHop;\nbit<8> svc_A_M_y;\n\n\n\n\napply \x7b\n" ++ Node.divider ++
    "    svc_A_M_y = 1;\n    svc_A_0Hop = svc_A_M_y;\n" ++ Node.divider ++ "\x7d\n"

def hopTest (g : Generation) : Bool :=
  g.relation.find? "svc_A_0" = some (.fragment hopEntry) &&
  Node.holdsTexts (hopPlan g) g (Node.textsOf ["svc_A", "svc_A_M"] "svc_A_0") &&
  "svc_A_NextHop" ∈ mentioned (g.written ⟨"svc_A_0", .control⟩) &&
  "svc_A_NextHop" ∈ declaredVars (g.written ⟨"svc_A", .vars⟩) &&
  succeededWith (fun s => onlyGives (· = hopCode)
    (Run.readRaw ((hopPlan g).workspace.codeFile "s1" "control") s))
    (Node.control (hopPlan g) "s1" (Node.textSession g))

/--
The fragment mentions the variable `svc_A_NextHop`, which is declared.  The code of the node
declares it too, but assigns to `svc_A_0Hop`.
-/
theorem Gen.services_declared_hop :
    ∃ svcs g' s', Gen.services hopProgram .empty = .ok svcs g' ∧
      Node.control (hopPlan g') "s1" (Node.textSession g') = .ok () s' ∧
      "svc_A_NextHop" ∈ mentioned (g'.written ⟨"svc_A_0", .control⟩) ∧
      ∃ scopes, Node.codeText (hopPlan g') "s1" scopes
        (fun k => Piece.render (g'.written k)) = hopCode ∧
        ("svc_A_NextHop" ∈ declaredVars (scopes.flatMap fun scope => g'.written ⟨scope, .vars⟩) ∨
          "svc_A_NextHop" ∈ declaredVars (["svc_A_0"].flatMap fun f => g'.written ⟨f, .temp⟩)) := by
  obtain ⟨svcs, g', h, htest⟩ :=
    exists_ok_of_succeededWith (P := hopTest) (r := Gen.services hopProgram .empty)
    (by decide +kernel)
  simp only [hopTest, Bool.and_eq_true, decide_eq_true_eq] at htest
  obtain ⟨⟨⟨⟨hr, hkeys⟩, hmentioned⟩, hdeclared⟩, hcontrol⟩ := htest
  obtain ⟨_, s', hcontrol, hcode⟩ := exists_ok_of_succeededWith hcontrol
  have hsole : ∀ f ∈ (hopPlan g').assignment.on "s1", f = "svc_A_0" := fun f => mem_singleton.mp
  have htext := Node.text_of_holdsTexts hsole hr rfl hkeys
  obtain ⟨scopes, _, hread, hall⟩ :=
    (Gen.services_declared rfl h).2.1 (hopPlan g') "s1" _ s' (fun _ _ => rfl) htext hcontrol
  obtain ⟨r, hr', hscopes⟩ := hall "svc_A_0" mem_cons_self
  obtain rfl : hopEntry = r := RelationEntry.fragment.inj (Option.some.inj (hr.symm.trans hr'))
  refine ⟨svcs, g', s', h, hcontrol, hmentioned, scopes, ?_,
    hscopes _ (.inr ⟨"svc_A", mem_cons_self, hdeclared⟩)⟩
  have hgives := of_onlyGives hcode hread
  exact of_decide_eq_true hgives

end Pathwise
