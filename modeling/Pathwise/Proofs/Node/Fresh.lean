import Pathwise.Proofs.Node.Alike

/-!
# Nodes that are put together later in a process

The constants of a project are still there when the next project is compiled by the same process.
So a project that names a constant without defining it may be compiled with the value that an
earlier project gave to it.  This is the only way in which an earlier compilation can make a
difference: a project that defines all constants itself that it names is put together as in a
process that begins with it, with the same code files, the same report, and the same fault if there
is one (`assemble_as_in_fresh_process`).
-/

namespace Pathwise

open Steps OrderedMap

namespace Node

variable {w : Workspace} {relation : OrderedMap String RelationEntry}
  {services : OrderedMap String Service} {s : Session}

/-! ### What is still there afterwards -/

theorem alike_self (s : Session) : Alike "" (s.constants, s.constants) s s :=
  ⟨rfl, rfl, rfl, (String.empty_append ..).symm⟩

theorem constants_final {α : Type} {x : Run α}
    (h : Matched (Alike "" (s.constants, s.constants)) (x s) (x s)) :
    (final (x s)).constants = s.constants :=
  congrArg Prod.fst h.final.constants

theorem constants_final_read (path : String) (s : Session) :
    (final (Run.read path s)).constants = s.constants :=
  constants_final (Alike.respects_read path s s (alike_self s))

theorem constants_final_finish (types : OrderedMap String String) (s : Session) :
    (final (finish w relation services types s)).constants = s.constants :=
  constants_final (finish_matched (alike_self s) (fun _ _ _ _ => rfl) types)

theorem constants_final_readDefinitions {text : String}
    (hread : Run.read (w.projectFile "include//define.pne") s = .ok text s) {s1 : Session}
    {n : String} (hn : n ∈ (final (Run.readDefinitions text s1)).constants.keys) :
    n ∈ s1.constants.keys ∨ Defines w s n := by
  cases hparse : Language.definitions.parse text with
  | error e =>
    unfold Run.readDefinitions at hn
    rw [hparse] at hn
    exact .inl hn
  | ok tree =>
    cases hcs : tree.children? with
    | error x =>
      unfold Run.readDefinitions at hn
      rw [hparse] at hn
      simp only [hcs] at hn
      exact .inl hn
    | ok cs =>
      rw [Run.readDefinitions_eq hparse hcs] at hn
      obtain ⟨x, hs, _⟩ | ⟨d, e, bad, hs, he, _, hover⟩ := Definitions.addAll_over s1.constants cs
        (d := ⟨{}, s1.constants⟩) (e := .empty) rfl fun n => rfl
      · rw [hs] at hn
        exact .inl hn
      · have hn : n ∈ d.constants.keys := by
          rw [hs] at hn
          cases bad with
          | none => exact hn
          | some b =>
            dsimp only at hn
            cases hrule : b.rule? with
            | error x => rwa [hrule] at hn
            | ok rule => rwa [hrule] at hn
        obtain ⟨c, hc⟩ := (mem_keys_iff _ n).mp hn
        rw [hover, Option.or_eq_some_iff] at hc
        rcases hc with hc | ⟨_, hc⟩
        · exact .inr ⟨e, ⟨tree, cs, bad, ⟨text, hread, hparse⟩, hcs, he⟩,
            (mem_keys_iff _ n).mpr ⟨c, hc⟩⟩
        · exact .inl ((mem_keys_iff _ n).mpr ⟨c, hc⟩)

/-- **A constant that is there afterwards was there before or is defined by the project**, also if
there is a fault. -/
theorem constants_final_assemble {n : String}
    (hn : n ∈ (final (assemble w relation services s)).constants.keys) :
    n ∈ s.constants.keys ∨ Defines w s n := by
  let Accounted (s' : Session) : Prop := n ∈ s'.constants.keys → n ∈ s.constants.keys ∨
    Defines w s n
  have hsame : ∀ {s1 s2 : Session}, Accounted s1 → s2.constants = s1.constants → Accounted s2 := by
    intro s1 s2 h heq hn
    rw [heq] at hn
    exact h hn
  suffices h : Accounted (final (assemble w relation services s)) from h hn
  rw [assemble_eq_finish]
  refine final_bind Accounted (fun e s1 hsay => by cases hsay) fun _ s1 hsay => ?_
  have hkeeps : KeepsFiles (fun _ => True) s s1 := Run.Leaves.report _ s _ s1 rfl rfl hsay
  have hconstants : s1.constants = s.constants := by
    obtain ⟨_, _, rfl⟩ := Run.report_eq_ok.mp hsay
    rfl
  refine final_bind Accounted (fun e s2 hfail => hsame (show Accounted s from .inl) ?_)
    fun text s2 hread => ?_
  · rw [← hconstants, ← constants_final_read (w.projectFile "include//define.pne") s1, hfail, final]
  obtain rfl := Run.read_stays hread
  have hdefinitions : Accounted (final (Run.readDefinitions text s1)) := fun hn =>
    hconstants ▸ constants_final_readDefinitions
      ((hkeeps.read_eq_ok fun _ _ => trivial).mp hread) hn
  refine final_bind Accounted (fun e s3 hfail => ?_) fun types s3 hok => ?_
  · rwa [hfail] at hdefinitions
  · rw [hok] at hdefinitions
    exact hsame hdefinitions (constants_final_finish types s3)

/-! ### A process -/

/--
The sessions of a process whose projects define only constants with these names.  Whatever else
happens between nodes are put together, it leaves the constants alone.
-/
inductive Process (defined : String → Prop) : Session → Prop
  | start (disk : Disk) (home : Place) : Process defined (Session.start disk home)
  | other {s s' : Session} : Process defined s → s'.constants = s.constants → Process defined s'
  | assembled {s : Session} (w : Workspace) (relation : OrderedMap String RelationEntry)
      (services : OrderedMap String Service) :
      Process defined s → (∀ n, Defines w s n → defined n) →
        Process defined (final (assemble w relation services s))

theorem Process.defined_of_mem {defined : String → Prop} (h : Process defined s) :
    ∀ n ∈ s.constants.keys, defined n := by
  induction h with
  | start disk home => exact fun n hn => absurd hn List.not_mem_nil
  | other _ hsame ih => rwa [hsame]
  | assembled w relation services _ hdefines ih =>
    exact fun n hn => (constants_final_assemble hn).elim (ih n) (hdefines n)

/-- The files are the same, and the same was reported since the first session. -/
def EndAlike (s₀ s t : Session) : Prop :=
  t.disk.directories = s.disk.directories ∧ (∀ p, t.disk.file? p = s.disk.file? p) ∧
    s.console = s₀.console ++ t.console

/--
**Nodes are put together as in a process that begins with them**, with the same result or the same
fault, the same files and the same report, if the project defines every constant itself that it
names and that was defined earlier in the process.
-/
theorem assemble_as_in_fresh_process {defined : String → Prop} (hprocess : Process defined s)
    (hown : ∀ n, defined n → Names w s n → Defines w s n) :
    Matched (EndAlike s) (assemble w relation services s)
    (assemble w relation services (Session.start s.disk s.home)) := by
  have halike : Alike s.console (s.constants, {}) s (Session.start s.disk s.home) :=
    ⟨rfl, rfl, rfl, String.append_empty.symm⟩
  refine (assemble_matched halike fun n hn => hown n (hprocess.defined_of_mem n hn)).mono
    fun s' t' h => ?_
  obtain ⟨_, h⟩ := h
  exact ⟨congrArg Disk.directories h.disk, fun p => by rw [h.disk], h.console⟩

def definesTest (names : List String) (text : String) : Bool :=
  match Language.definitions.parse text with
  | .ok t =>
    match t.children? with
    | .ok cs =>
      match Definitions.addAll .empty cs with
      | .ok (d, _) => d.constants.keys = names
      | .error _ => false
    | .error _ => false
  | .error _ => false

theorem defines_iff_of_test {names : List String}
    (h : passes (fun text _ => definesTest names text)
      (Run.read (w.projectFile "include//define.pne") s) = true) (n : String) :
    Defines w s n ↔ n ∈ names := by
  obtain ⟨text, s', hread, htest⟩ := exists_ok_of_passes h
  obtain rfl := Run.read_stays hread
  have hgives : ∃ d, Gives w s d ∧ d.constants.keys = names := by
    unfold definesTest at htest
    split at htest
    · next t hparse =>
      split at htest
      · next cs hcs =>
        split at htest
        · next d bad hadd =>
            exact ⟨d, ⟨t, cs, bad, ⟨text, hread, hparse⟩, hcs, hadd⟩, of_decide_eq_true htest⟩
        · cases htest
      · cases htest
    · cases htest
  obtain ⟨d, hgives, rfl⟩ := hgives
  constructor
  · rintro ⟨d', hgives', hn⟩
    exact hgives'.unique hgives ▸ hn
  · exact fun hn => ⟨d, hgives, hn⟩

/-- Two projects that define the same constant, of which the parser of the second one names it. -/
def pairDisk : Disk where
  files := [(["a", "include", "define.pne"], "const bit<8> LAST = 1;"),
    (["b", "include", "define.pne"], "const bit<8> LAST = 2;"),
    (["b", "include", "header.pne"], "struct c\x7b\x7d"),
    (["b", "include", "parser.pne"],
      "parser P(a b,c d,e f)\x7bstate start\x7bpkt.advance(LAST);transition accept;\x7d" ++
        "deparser D\x7b\x7d\x7d"),
    (["b", "path", "path.json"],
      "\x7b\"s\":\x7b\"n\":\x7b\"next\":\x7b\x7d,\"tables\":1,\"ip\":1\x7d\x7d\x7d")]
  directories := [["a"], ["a", "include"], ["b"], ["b", "include"], ["b", "path"],
    ["b", "path_out"], ["c"], ["c", "component"],
    ["c", "component", "topo"], ["c", "component", "path"], ["c", "component", "code"]]

def pairWorkspace (project : String) : Workspace :=
  ⟨project, "/c", "service.json", true, true⟩

def afterFirst : Session :=
  final (assemble (pairWorkspace "/a") {} {} (Session.start pairDisk []))

theorem second_passes :
    passes (fun header s => header = "c" && s.disk.file? ["c", "component", "code", "n_parser"] =
        some ("    state start \x7b\n        pkt.advance(2);\n" ++
          "        transition accept;\n    \x7d\n"))
      (assemble (pairWorkspace "/b") {} {} afterFirst) = true := by
  decide +kernel

/-- The value that the first project gave to the constant makes no difference to the second one,
which defines it anew. -/
theorem assemble_as_in_fresh_process_second : afterFirst.constants.find? "LAST" = some "1" ∧
    Process (· = "LAST") afterFirst ∧
    ∃ s t, assemble (pairWorkspace "/b") {} {} afterFirst = .ok "c" s ∧
      assemble (pairWorkspace "/b") {} {}
      (Session.start afterFirst.disk afterFirst.home) = .ok "c" t ∧ EndAlike afterFirst s t ∧
      t.disk.file? ["c", "component", "code", "n_parser"] =
        some ("    state start \x7b\n        pkt.advance(2);\n" ++
          "        transition accept;\n    \x7d\n") := by
  have hfirst : ∀ n, Defines (pairWorkspace "/a") (Session.start pairDisk []) n ↔ n ∈ ["LAST"] :=
    defines_iff_of_test (by decide +kernel)
  have hsecond : ∀ n, Defines (pairWorkspace "/b") afterFirst n ↔ n ∈ ["LAST"] :=
    defines_iff_of_test (by decide +kernel)
  have hprocess : Process (· = "LAST") afterFirst :=
    .assembled _ _ _ (.start pairDisk []) fun n hn => List.mem_singleton.mp ((hfirst n).mp hn)
  obtain ⟨header, s, hok, htest⟩ := exists_ok_of_passes second_passes
  simp only [Bool.and_eq_true, decide_eq_true_eq] at htest
  obtain ⟨rfl, hparser⟩ := htest
  obtain ⟨t, hok', h⟩ :=
    (assemble_as_in_fresh_process hprocess fun n hn _ =>
    (hsecond n).mpr (List.mem_singleton.mpr hn)).eq_ok hok
  exact ⟨by decide +kernel, hprocess, s, t, hok, hok', h, (h.2.1 _).trans hparser⟩

end Node

end Pathwise
