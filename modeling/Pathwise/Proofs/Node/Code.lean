import Mathlib.Data.Set.List
import Pathwise.Node.Control
import Pathwise.Proofs.Fragment.Effect
import Pathwise.Proofs.Session

/-!
# The code of a node

`codeText` is the control code of a node, put together from texts: the variables of naming scopes,
and for every fragment on the node its temporary variables, actions, tables, registers and
statements.  Actions and statements are routed line by line: a line in which the word for the next
hop occurs gets the name of the next hop in its place, all other lines stay as they are.

If the files of a session show these texts, then `Node.control` writes that code (`control_eq_ok`).
-/

namespace Pathwise

open Steps Run String

variable {node f : String} {scopes : List String} {u : Unit}

theorem varFileOf_injective : Function.Injective varFileOf :=
  fun _ _ h => (append_left_inj _).mp h

namespace Node

/-- What the next hop is called in the text of a fragment on a node. -/
def hopOn (P : Plan) (node fragment : String) : String :=
  match P.topology.find? node with
  | some info => (NextHop.inText P.paths info fragment node).toOption.getD ""
  | none => ""

def routedLine (P : Plan) (node fragment line : String) : String :=
  if NextHop.occurs line then NextHop.fillLine (hopOn P node fragment) line else line

def routedText (P : Plan) (node fragment indent text : String) : String :=
  String.join ((Text.lines text).map fun line => indent ++ routedLine P node fragment line)

def codeText (P : Plan) (node : String) (scopes : List String) (text : TextKey → String) : String :=
  let all (part : String → String) := String.join ((P.assignment.on node).map part)
  String.join (scopes.map fun scope => text ⟨scope, .vars⟩) ++ "\n" ++
    all (fun f => text ⟨f, .temp⟩) ++
    all (fun f => routedText P node f "" (text ⟨f, .action⟩)) ++ "\n" ++
    all (fun f => text ⟨f, .table⟩) ++ "\n" ++
    all (fun f => text ⟨f, .register⟩) ++ "\n" ++
    "apply \x7b\n" ++ divider ++ all
      (fun f => routedText P node f "    " (text ⟨f, .control⟩) ++ divider) ++ "\x7d\n"

/-- The texts that the code of a node is put together from. -/
inductive Needs (P : Plan) (node : String) : TextKey → Prop
  | own {f : String} {kind : TextKind} (hf : f ∈ P.assignment.on node) : Needs P node ⟨f, kind⟩
  | vars {f scope : String} {r : Relation} (hf : f ∈ P.assignment.on node)
      (hr : P.relation.find? f = some (.fragment r)) (hfile : varFileOf scope ∈ r.varFiles) :
      Needs P node ⟨scope, .vars⟩

def kindName : TextKind → String
  | .control => "control"
  | .action => "action"
  | .table => "table"
  | .entry => "entry"
  | .temp => "tem"
  | .register => "reg"
  | .vars => "var"

/-- Copies the parts of the code into a file that is begun already. -/
def copyParts (P : Plan) (node : String) (files : List String) : Run Unit := do
  let target := P.workspace.codeFile node "control"
  files.forM fun file => do Run.append target (← Run.read (P.workspace.componentFile file))
  Run.append target "\n"
  copyAll P node "tem" target
  (P.assignment.on node).forM fun f => copyRouted P node f "action" "" target
  Run.append target "\n"
  copyAll P node "table" target
  Run.append target "\n"
  copyAll P node "reg" target
  Run.append target "\n"
  Run.append target ("apply \x7b\n" ++ divider)
  (P.assignment.on node).forM fun f => do
    copyRouted P node f "control" "    " target
    Run.append target divider
  Run.append target "\x7d\n"

theorem control_eq (P : Plan) (node : String) :
    control P node = (do
      let files ← varFiles P node
      Run.create (P.workspace.codeFile node "control") ""
      copyParts P node files) :=
  rfl

theorem fragmentText_eq (P : Plan) (f : String) (kind : TextKind) :
    fragmentText P f (kindName kind) = Run.read
      (P.workspace.componentFile (TextKey.fileName ⟨f, kind⟩)) := by
  have hending : "_" ++ kindName kind ++ ".pne" = kind.ending := by
    cases kind <;> rfl
  rw [fragmentText, TextKey.fileName, ← hending, ← append_assoc, ← append_assoc]

theorem component_ne_code {d : Disk} {home p q : Place} {w : Workspace} {k : TextKey}
    (h : d.locate home (w.componentFile k.fileName) = .ok p)
    (h' : d.locate home (w.codeFile node "control") = .ok q) :
    p ≠ q := by
  rw [Workspace.componentFile, TextKey.fileName, ← append_assoc] at h
  refine Disk.locate_ne (x := 'e') (y := 'l') ?_ ?_ (by decide) h h'
  · cases k.kind <;> decide
  · decide

theorem fragment_eq_ok {relation : OrderedMap String RelationEntry} {r : Relation}
    (h : Placement.fragment relation f = .ok r) : relation.find? f = some (.fragment r) := by
  rw [Placement.fragment] at h
  split at h
  · next hr =>
    cases h
    exact hr
  · cases h
  · cases h

theorem varFiles_eq_ok {P : Plan} {files : List String} (h : varFiles P node = .ok files) :
    files.Nodup ∧
    (∀ f ∈ P.assignment.on node, ∃ r, P.relation.find? f = some (.fragment r) ∧
      ∀ file ∈ r.varFiles, file ∈ files) ∧
    ∀ file ∈ files, ∃ f ∈ P.assignment.on node, ∃ r, P.relation.find? f = some (.fragment r) ∧
      file ∈ r.varFiles := by
  obtain ⟨lists, hlists, h⟩ := except_bind_eq_ok.mp h
  cases h
  obtain ⟨hfragments, hentries⟩ := except_mapM_eq_ok _ hlists
  have hone : ∀ {f : String} {list : List String},
      (do pure (← Placement.fragment P.relation f).varFiles) = Except.ok list →
      ∃ r, P.relation.find? f = some (.fragment r) ∧ list = r.varFiles := by
    intro f list h
    obtain ⟨r, hr, h⟩ := except_bind_eq_ok.mp h
    cases h
    exact ⟨r, fragment_eq_ok hr, rfl⟩
  have hmem : ∀ file, file ∈ (OrderedMap.ofList (lists.flatten.map fun f => (f, ()))).keys ↔
      ∃ list ∈ lists, file ∈ list := by
    intro file
    rw [OrderedMap.mem_keys_ofList, List.map_map]
    simp
  refine ⟨OrderedMap.nodup_ofList _, fun f hf => ?_, fun file hfile => ?_⟩
  · obtain ⟨list, hlist, h⟩ := hfragments f hf
    obtain ⟨r, hr, rfl⟩ := hone h
    exact ⟨r, hr, fun file hfile => (hmem file).mpr ⟨_, hlist, hfile⟩⟩
  · obtain ⟨list, hlist, hfile⟩ := (hmem file).mp hfile
    obtain ⟨f, hf, h⟩ := hentries list hlist
    obtain ⟨r, hr, rfl⟩ := hone h
    exact ⟨f, hf, r, hr, hfile⟩

section

variable {P : Plan} {node : String} {q : Place} {s s' : Session} {text : TextKey → String}

theorem routeLine_outputs (f line : String) : Outputs q s (routeLine P node f line)
    (routedLine P node f line) "" := by
  rw [routeLine, routedLine]
  split
  · refine .use (.say _) ?_
    rw [hopOn]
    cases P.topology.find? node with
    | none => exact .throw _ _
    | some info =>
      refine .use (.lift fun hop hhop => ?_) (.pure _)
      simp only [hhop]
      rfl
  · exact .pure line

-- the code of the node is written to `q`, and the files that are needed show what `text` says
variable (hcode : s.disk.locate s.home (P.workspace.codeFile node "control") = .ok q)
  (htext : ∀ k, Needs P node k → ∀ t, Run.read (P.workspace.componentFile k.fileName) s = .ok t s →
    t = text k)

include hcode htext

theorem fragmentText_outputs (hf : f ∈ P.assignment.on node) (kind : TextKind) :
    Outputs q s (fragmentText P f (kindName kind)) (text ⟨f, kind⟩) "" := by
  rw [fragmentText_eq]
  exact .read (fun p hp => component_ne_code hp hcode) (htext _ (.own hf))

theorem scopes_outputs (hscopes : ∀ scope ∈ scopes, Needs P node ⟨scope, .vars⟩) :
    Outputs q s ((scopes.map varFileOf).forM fun file => do
        Run.append (P.workspace.codeFile node "control")
          (← Run.read (P.workspace.componentFile file))) ()
      (String.join (scopes.map fun scope => text ⟨scope, .vars⟩)) := by
  have hread : ∀ scope ∈ scopes, Outputs q s
      (Run.read (P.workspace.componentFile (varFileOf scope))) (text ⟨scope, .vars⟩) "" := by
    intro scope hscope
    have hname : varFileOf scope = TextKey.fileName ⟨scope, .vars⟩ := rfl
    rw [hname]
    exact .read (fun p hp => component_ne_code hp hcode) (htext _ (hscopes scope hscope))
  rw [List.forM_eq_forM, List.forM_map]
  exact .forM fun scope hscope => .use (hread scope hscope) (.append hcode _)

theorem copyAll_outputs (kind : TextKind) :
    Outputs q s (copyAll P node (kindName kind) (P.workspace.codeFile node "control")) ()
      (String.join ((P.assignment.on node).map fun f => text ⟨f, kind⟩)) :=
  .forM fun _ hf => .use (fragmentText_outputs hcode htext hf kind) (.append hcode _)

theorem copyRouted_outputs (hf : f ∈ P.assignment.on node) (indent : String) (kind : TextKind) :
    Outputs q s
      (copyRouted P node f (kindName kind) indent (P.workspace.codeFile node "control")) ()
      (routedText P node f indent (text ⟨f, kind⟩)) :=
  .use (fragmentText_outputs hcode htext hf kind)
    (.forM fun line _ => .use (routeLine_outputs f line) (.append hcode _))

theorem copyParts_outputs (hscopes : ∀ scope ∈ scopes, Needs P node ⟨scope, .vars⟩) :
    Outputs q s (copyParts P node (scopes.map varFileOf)) () (codeText P node scopes text) := by
  have h : Outputs q s (copyParts P node (scopes.map varFileOf)) () _ :=
    .bind (scopes_outputs hcode htext hscopes) <|
    .bind (.append hcode "\n") <|
    .bind (copyAll_outputs hcode htext .temp) <|
    .bind (.forM fun _ hf => copyRouted_outputs hcode htext hf "" .action) <|
    .bind (.append hcode "\n") <|
    .bind (copyAll_outputs hcode htext .table) <|
    .bind (.append hcode "\n") <|
    .bind (copyAll_outputs hcode htext .register) <|
    .bind (.append hcode "\n") <|
    .bind (.append hcode ("apply \x7b\n" ++ divider)) <|
    .bind (.forM fun _ hf => .bind (copyRouted_outputs hcode htext hf "    " .control)
      (.append hcode divider)) <|
    .append hcode "\x7d\n"
  simpa only [codeText, append_assoc] using h

omit hcode htext in
theorem control_begins (hfiles : ∀ f ∈ P.assignment.on node, ∀ r, P.relation.find? f =
    some (.fragment r) →
      ∀ file ∈ r.varFiles, file ∈ Set.range varFileOf) (h : control P node s = .ok u s') :
    ∃ (scopes : List String) (q : Place) (s1 : Session), scopes.Nodup ∧
      (∀ f ∈ P.assignment.on node, ∃ r, P.relation.find? f = some (.fragment r) ∧
        ∀ scope, varFileOf scope ∈ r.varFiles → scope ∈ scopes) ∧
      (∀ scope ∈ scopes, Needs P node ⟨scope, .vars⟩) ∧
      s.disk.locate s.home (P.workspace.codeFile node "control") = .ok q ∧ SameBut q s s1 ∧
        s1.disk.file? q = some "" ∧
      copyParts P node (scopes.map varFileOf) s1 = .ok u s' := by
  rw [control_eq] at h
  obtain ⟨files, hvars, h⟩ := bind_fault_eq_ok.mp h
  obtain ⟨hnodup, hfragments, hentries⟩ := varFiles_eq_ok hvars
  obtain ⟨scopes, rfl⟩ : files ∈ Set.range (List.map varFileOf) := by
    rw [Set.range_list_map]
    intro file hfile
    obtain ⟨f, hf, r, hr, hfile⟩ := hentries file hfile
    exact hfiles f hf r hr file hfile
  have hneeds : ∀ scope ∈ scopes, Needs P node ⟨scope, .vars⟩ := by
    intro scope hscope
    obtain ⟨f, hf, r, hr, hfile⟩ := hentries _ (List.mem_map_of_mem hscope)
    exact .vars hf hr hfile
  obtain ⟨_, s1, hcreate, h⟩ := bind_eq_ok.mp h
  obtain ⟨q, hcode, hsame, hempty⟩ := create_eq_ok hcreate
  refine ⟨scopes, q, s1, hnodup.of_map _, fun f hf => ?_, hneeds, hcode, hsame, hempty, h⟩
  obtain ⟨r, hr, hall⟩ := hfragments f hf
  refine ⟨r, hr, fun scope hscope => ?_⟩
  exact (List.mem_map_of_injective varFileOf_injective).mp (hall _ hscope)

omit hcode in
/-- **What is written as the control code of a node**, if all files of variables belong to naming
scopes. -/
theorem control_eq_ok (hfiles : ∀ f ∈ P.assignment.on node, ∀ r, P.relation.find? f =
    some (.fragment r) →
      ∀ file ∈ r.varFiles, file ∈ Set.range varFileOf) (h : control P node s = .ok u s') :
    ∃ scopes : List String, scopes.Nodup ∧
      (∀ f ∈ P.assignment.on node, ∃ r, P.relation.find? f = some (.fragment r) ∧
        ∀ scope, varFileOf scope ∈ r.varFiles → scope ∈ scopes) ∧
      Run.readRaw (P.workspace.codeFile node "control") s' =
        .ok (codeText P node scopes text) s' := by
  obtain ⟨scopes, q, s1, hnodup, hscopes, hneeds, hcode, hsame, hempty, hcopy⟩ :=
    control_begins hfiles h
  obtain ⟨_, hcopied⟩ := copyParts_outputs hcode htext hneeds s1 u s' hsame hcopy
  refine ⟨scopes, hnodup, hscopes,
    readRaw_eq_ok.mpr ⟨q, (hsame.trans hcopied.toSameBut).locate.mpr hcode, ?_, rfl⟩⟩
  rw [hcopied.file "" hempty, empty_append]

end

/-! ### Nodes with one fragment -/

/-- A session in which all texts are files of the component directory. -/
def textSession (g : Generation) : Session :=
  .start ⟨g.files.map fun (name, text) => (["component", name], text),
    [["component"], ["component", "code"]]⟩ []

/-- The texts of a fragment, and those with the variables of naming scopes. -/
def textsOf (scopes : List String) (f : String) : List TextKey :=
  (scopes.map fun scope => ⟨scope, .vars⟩) ++
    [.control, .action, .table, .entry, .temp, .register, .vars].map fun kind => ⟨f, kind⟩

/-- Whether the files of the texts hold what was generated. -/
def holdsTexts (P : Plan) (g : Generation) (ks : List TextKey) : Bool :=
  ks.all fun k => onlyGives (· = Piece.render (g.written k))
    (Run.read (P.workspace.componentFile k.fileName) (textSession g))

theorem text_of_holdsTexts {P : Plan} {g : Generation} {r : Relation}
    (hon : ∀ f' ∈ P.assignment.on node, f' = f) (hr : P.relation.find? f = some (.fragment r))
    (hfiles : r.varFiles = scopes.map varFileOf) (h : holdsTexts P g (textsOf scopes f) = true) :
    ∀ k, Needs P node k → ∀ t,
      Run.read (P.workspace.componentFile k.fileName) (textSession g) = .ok t (textSession g) →
      t = Piece.render (g.written k) := by
  intro k hk t hread
  have hmem : k ∈ textsOf scopes f := by
    rcases hk with @⟨f', kind, hf⟩ | @⟨f', scope, r', hf, hr', hfile⟩
    · obtain rfl := hon _ hf
      exact List.mem_append_right _ (List.mem_map_of_mem (by cases kind <;> decide))
    · obtain rfl := hon _ hf
      obtain rfl : r = r' := RelationEntry.fragment.inj (Option.some.inj (hr.symm.trans hr'))
      rw [hfiles] at hfile
      have hscope := (List.mem_map_of_injective varFileOf_injective).mp hfile
      exact List.mem_append_left _ (List.mem_map_of_mem hscope)
  have hgives := of_onlyGives (List.all_eq_true.mp h k hmem) hread
  exact of_decide_eq_true hgives

end Node

end Pathwise
