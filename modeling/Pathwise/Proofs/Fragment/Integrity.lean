import Pathwise.Proofs.Fragment.Origins

/-!
# References of generated fragments

After services were generated, the texts of every fragment refer to each other consistently
(`services_references`): the tables that are declared are applied in the same order, the count of
tables is right, tables list declared actions, and entries name a table and one of the actions that
it lists.  No action is declared twice in all texts.

A function with the name of a primitive is not looked at when a switch is checked, but generated
like any other.  If it holds more than statements, its tables come to stand inside the table of the
switch; this is why the references are consistent in regular programs only.
-/

namespace Pathwise

open Steps

def Generation.textsOf (g : Generation) (f : String) : Effect :=
  { Effect.empty with own := fun kind => g.written ⟨f, kind⟩ }

theorem ActionsApart.of_written_nil {g : Generation} (h : ∀ k, g.written k = []) :
    ActionsApart g := by
  refine ⟨fun f a ha => ?_, fun f f' n n' a ha => ?_⟩
  · rw [h] at ha
    cases ha
  · rw [h] at ha
    cases ha

/-- **A property of texts that joined effects have** holds of the texts of every fragment, if every
sound effect has it. -/
theorem Runs.textsOf {p : Program} {g g' : Generation} {C : Effect → Prop} (hC : Joins C)
    (hcongr : ∀ {e e' : Effect}, C e → (∀ kind, kind ≠ .vars → e'.own kind = e.own kind) → C e')
    (hsound : ∀ {sc : Scope} {e : Effect}, Sound p.setting sc e → C e) (h : Runs p g g')
    (hg : ∀ k, g.written k = []) {f : String} (hf : f ≠ Gen.looseFragment) : C (g'.textsOf f) := by
  induction h with
  | refl => exact hcongr hC.empty fun kind _ => hg _
  | @tail g0 g1 service name a _ ha hrun ih =>
    obtain ⟨sc, _, _, hcut⟩ := Gen.application_of_program ha hrun
    by_cases hk : ∃ k : Nat, k < a.body.length ∧ f = Placement.fragmentName sc.stem k
    · obtain ⟨k, hk, rfl⟩ := hk
      obtain ⟨e, he, hbegun⟩ := hcut.begun k (Nat.zero_le k) hk
      exact hcongr (hC.append ih (hsound he)) hbegun.text
    · exact hcongr ih (hcut.kept f hf fun k _ hlt heq => hk ⟨k, hlt, heq⟩).text

/--
**The references of generated fragments.**  After services were generated, with nothing written
before,

* no action is declared twice in all texts;
* the entry of a fragment counts the tables that were added to it since the run that made the entry;
* the tables of a fragment are those that it applies, the actions that its tables list and their
  default actions are declared in it, and every entry names one of its tables and an action that is
  listed;
* if functions with the name of a primitive hold statements only, then tables are moreover declared
  in the order in which they are applied, and the action of an entry is listed by the table of the
  entry.
-/
theorem Gen.services_references {p : Program} {g g' : Generation} {svcs : OrderedMap String Service}
    (htexts : ∀ k, g.written k = []) (hrelation : g.relation = {})
    (h : Gen.services p g = .ok svcs g') :
    (∀ f f' (n n' : Nat) a, (actionNames (g'.written ⟨f, .action⟩))[n]? = some a →
      (actionNames (g'.written ⟨f', .action⟩))[n']? = some a → f = f' ∧ n = n') ∧
    ∀ f r, g'.relation.find? f = some (.fragment r) →
      (∃ g₀ g₁ service name, MadeBy p g g' g₀ g₁ service name f r ∧
        r.tableCount + (tableNames (g₀.written ⟨f, .table⟩)).length =
          (tableNames (g'.written ⟨f, .table⟩)).length) ∧
      Linked none (g'.textsOf f) ∧ (p.Regular → Tabled (g'.textsOf f)) := by
  have hruns := Gen.services_runs h
  refine ⟨(hruns.apart (.of_written_nil htexts)).unique, fun f r hr => ?_⟩
  have hloose : f ≠ Gen.looseFragment := by
    rintro rfl
    rw [hruns.loose (by rw [hrelation]; rfl)] at hr
    cases hr
  refine ⟨?_, ?_, fun hregular => ?_⟩
  · obtain ⟨g₀, g₁, service, name, e, hmade, _, hcount, htables, htext, _⟩ :=
      hruns.exists_madeBy hrelation hr
    refine ⟨g₀, g₁, service, name, hmade, ?_⟩
    rw [htext .table (by decide), tableNames_append, List.length_append, htables, hcount]
    omega
  · exact hruns.textsOf ⟨.of_table_nil rfl rfl rfl, Linked.append⟩ Linked.congr
      (fun he => he.linked) htexts hloose
  · exact hruns.textsOf ⟨(sound_joins p.setting default).empty.tabled hregular,
      Tabled.append⟩ Tabled.congr
      (fun he => he.tabled hregular) htexts hloose

/-- A service of one application that looks a value up and then switches on it, by default to a
function named `nop`. -/
def switchProgram (nop : List Ins) : Program :=
  let m : Module := { Module.named "M" with
    directions := ["inout"]
    params := ["x"]
    paramTypes := ["bit<8>"]
    maps := ⟨[("m", ⟨"m", ["bit<8>"], ["bit<8>"], 50, [["1", "7"]]⟩)]⟩
    sets := ⟨[("s", ⟨"s", ["bit<8>"], [], 50, [["1"]]⟩)]⟩
    body := [.assign [.ofVariable "x"] (.node "data" [.node "array"
        [.ofVariable "m", .node "indexs" [.node "index" [.ofVariable "x"]]]]),
      .switch [.ofVariable "x"] [.ofVariable "m", .ofVariable "default"]
        [⟨false, "drop", []⟩, ⟨false, "nop", []⟩]]
    funcs := ⟨[("nop", nop)]⟩ }
  { services := ⟨[("svc", ⟨"svc", ["A"]⟩)]⟩
    applications := ⟨[("A", ⟨"A", ⟨[("v", "bit<8>")]⟩, [.call ⟨true, "M", [.ofVariable "v"]⟩]⟩)]⟩
    modules := ⟨[("M", m)]⟩ }

theorem switchProgram_regular {nop : List Ins} (h : ∀ i ∈ nop, i.IsStep) :
    (switchProgram nop).Regular := by
  intro name m hm f _ body hbody i hi
  have hm := OrderedMap.mem_entries_of_find? hm
  simp only [switchProgram, List.mem_singleton, Prod.mk.injEq] at hm
  obtain ⟨_, rfl⟩ := hm
  have hbody := OrderedMap.mem_entries_of_find? hbody
  simp only [List.mem_singleton, Prod.mk.injEq] at hbody
  obtain ⟨_, rfl⟩ := hbody
  exact h i hi

/--
If `nop` is a statement, the tables stand in the order in which they are applied.  If it asks for
membership in a set, the table of the set stands inside the table of the switch, but is applied
before it.
-/
theorem Gen.services_references_switch :
    (∃ svcs g', Gen.services (switchProgram [.assign [.ofVariable "x"] (.ofDigits "2")])
      Generation.empty = .ok svcs g' ∧
      tableNames (g'.written ⟨"svc_A_0", .table⟩) = ["svc_A_M_m", "svc_A_M_m_1"] ∧
        Tabled (g'.textsOf "svc_A_0")) ∧
    ∃ svcs g', Gen.services (switchProgram
      [.branch [⟨.member, [.ofVariable "x"], [.ofVariable "s"]⟩]
        [[.assign [.ofVariable "x"] (.ofDigits "2")]] none none]) Generation.empty = .ok svcs g' ∧
      tableNames (g'.written ⟨"svc_A_0", .table⟩) = ["svc_A_M_m", "svc_A_M_m_1", "svc_A_M_s"] ∧
      appliedTables (g'.written ⟨"svc_A_0", .control⟩) = ["svc_A_M_m", "svc_A_M_s", "svc_A_M_m_1"] ∧
      Linked none (g'.textsOf "svc_A_0") := by
  let entry (count : Nat) : Relation :=
    ⟨.replicate count "svc_A_v", ["svc_A_v", "svc_A_v"], [varFileOf "svc_A", varFileOf "svc_A_M"],
      ["M"], count⟩
  refine ⟨?_, ?_⟩
  · obtain ⟨svcs, g', h, htest⟩ := exists_ok_of_succeededWith
      (P := fun g => g.relation.find? "svc_A_0" = some (.fragment (entry 2)) ∧
        tableNames (g.written ⟨"svc_A_0", .table⟩) = ["svc_A_M_m", "svc_A_M_m_1"])
      (r := Gen.services (switchProgram [.assign [.ofVariable "x"] (.ofDigits "2")])
        Generation.empty) (by decide +kernel)
    obtain ⟨hr, hnames⟩ := of_decide_eq_true htest
    have hregular := switchProgram_regular
      (by simp [Ins.IsStep] : ∀ i ∈ [Ins.assign [.ofVariable "x"] (.ofDigits "2")], i.IsStep)
    exact ⟨svcs, g', h, hnames,
      ((Gen.services_references (fun _ => rfl) rfl h).2 _ _ hr).2.2 hregular⟩
  · obtain ⟨svcs, g', h, htest⟩ := exists_ok_of_succeededWith
      (P := fun g => g.relation.find? "svc_A_0" = some (.fragment (entry 3)) ∧
        tableNames (g.written ⟨"svc_A_0", .table⟩) = ["svc_A_M_m", "svc_A_M_m_1", "svc_A_M_s"] ∧
        appliedTables (g.written ⟨"svc_A_0", .control⟩) = ["svc_A_M_m", "svc_A_M_s", "svc_A_M_m_1"])
      (r := Gen.services (switchProgram [.branch [⟨.member, [.ofVariable "x"], [.ofVariable "s"]⟩]
        [[.assign [.ofVariable "x"] (.ofDigits "2")]] none none]) Generation.empty)
          (by decide +kernel)
    obtain ⟨hr, hnames, happlied⟩ := of_decide_eq_true htest
    exact ⟨svcs, g', h, hnames, happlied,
      ((Gen.services_references (fun _ => rfl) rfl h).2 _ _ hr).2.1⟩

end Pathwise
