import Pathwise.Node.Assemble
import Pathwise.Proofs.Node.Entries

/-!
# Nodes that are put together

Nodes are put together one after another.  All files that are written have names of a few kinds
(`IsMade`), so the texts of fragments are the same for all nodes, and the entries of a node stay as
they are once they are written (`assemble_eq_ok`).
-/

namespace Pathwise

open Steps Run List OrderedMap

/-! ### The nodes of the network -/

namespace Survey

variable {t t' : Survey} {node : String} {info : Json}

theorem addLinks_nodup (ht : t.keys.Nodup) (h : addLinks t node info = .ok t') : t'.keys.Nodup := by
  have hnew : (t.insertNew node .unknown).keys.Nodup := by
    rw [OrderedMap.insertNew]
    split
    · exact ht
    · exact nodup_insert ht node .unknown
  obtain ⟨links, _, h⟩ := except_bind_eq_ok.mp h
  obtain ⟨names, _, h⟩ := except_bind_eq_ok.mp h
  refine except_foldlM_keeps (fun t : Survey => t.keys.Nodup) (fun t n t' ht h => ?_) _ hnew h
  obtain ⟨name, _, h⟩ := except_bind_eq_ok.mp h
  split at h
  · split at h
    · cases h
      exact ht
    · obtain ⟨port, _, h⟩ := except_bind_eq_ok.mp h
      cases h
      rwa [keys_modify]
  · cases h
    exact ht

/-- Sets what is known about a node to what the file says in a field. -/
def setField (field : String) (change : Json → NodeInfo Json.Key → NodeInfo Json.Key) (t : Survey)
    (node : String) (info : Json) :
    Except Mismatch Survey := do
  let v ← info.get field
  pure (t.modify node (change v))

theorem setField_nodup {field : String} {change : Json → NodeInfo Json.Key → NodeInfo Json.Key}
    (ht : t.keys.Nodup) (h : setField field change t node info = .ok t') : t'.keys.Nodup := by
  obtain ⟨v, _, h⟩ := except_bind_eq_ok.mp h
  cases h
  rwa [keys_modify]

theorem addPath_nodup {path : Json} (ht : t.keys.Nodup) (h : addPath t path = .ok t') :
    t'.keys.Nodup := by
  have heach : ∀ {nodes : List Json} {f : Survey → String → Json →
      Except Mismatch Survey} {t t' : Survey},
      (∀ t node info t', t.keys.Nodup → f t node info = .ok t' → t'.keys.Nodup) → t.keys.Nodup →
      nodes.foldlM (fun t n => do f t (← n.key).name (← path.part n)) t = Except.ok t' →
        t'.keys.Nodup := by
    intro nodes f t t' hf ht h
    refine except_foldlM_keeps (fun t : Survey => t.keys.Nodup) (fun t n t' ht h => ?_) _ ht h
    obtain ⟨key, _, h⟩ := except_bind_eq_ok.mp h
    obtain ⟨info, _, h⟩ := except_bind_eq_ok.mp h
    exact hf t _ info t' ht h
  obtain ⟨nodes, _, h⟩ := except_bind_eq_ok.mp h
  obtain ⟨t1, hlinks, h⟩ := except_bind_eq_ok.mp h
  obtain ⟨t2, htables, h⟩ := except_bind_eq_ok.mp h
  obtain ⟨t3, hip, hresource⟩ := except_bind_eq_ok.mp h
  have ht1 := heach (f := addLinks) (fun _ _ _ _ => addLinks_nodup) ht hlinks
  have ht2 := heach (f := setField "tables" fun v k => { k with tables := v })
    (fun _ _ _ _ => setField_nodup) ht1 htables
  have ht3 := heach (f := setField "ip" fun v k => { k with ip := v })
    (fun _ _ _ _ => setField_nodup) ht2 hip
  dsimp only at hresource
  refine heach (f := fun t node info => do
    if ← info.member "resource" then
      setField "resource" (fun v k => { k with resource := v }) t node info
    else pure t) (fun t node info t' ht h => ?_) ht3 hresource
  obtain ⟨has, _, h⟩ := except_bind_eq_ok.mp h
  cases has with
  | true => exact setField_nodup ht h
  | false =>
    cases h
    exact ht

/-- **Every node is known once.** -/
theorem nodup_keys {file : Json} (h : ofJson file = .ok t) : t.keys.Nodup := by
  obtain ⟨services, _, h⟩ := except_bind_eq_ok.mp h
  refine except_foldlM_keeps (fun t : Survey => t.keys.Nodup) (fun t s t' ht h => ?_) services ?_ h
  · obtain ⟨path, _, h⟩ := except_bind_eq_ok.mp h
    exact addPath_nodup ht h
  · exact nodup_nil

end Survey

namespace Node

variable {P : Plan} {s s' : Session}

/-! ### Steps -/

/-- Reads the paths, and places the fragments along them. -/
def planned (w : Workspace) (relation : OrderedMap String RelationEntry)
    (services : OrderedMap String Service) : Run Plan := do
  let (paths, topology) ← readPaths w
  let assignment ← (Placement.placeAll relation paths topology services : Except Fault _)
  Run.create (w.projectFile "path_out//path-result.json") ""
  let overview ← (Placement.overview assignment paths services : Except Fault _)
  Run.create (w.projectFile "path_out//path-result.json") (overview.pretty true 2 0)
  pure ⟨w, relation, paths, topology, assignment⟩

/-- Reads what is needed to put nodes together, and places the fragments. -/
def plan (w : Workspace) (relation : OrderedMap String RelationEntry)
    (services : OrderedMap String Service) :
    Run (Plan × OrderedMap String String) := do
  Report.say "aggregate..."
  let types ← Run.readDefinitions (← Run.read (w.projectFile "include//define.pne"))
  pure (← planned w relation services, types)

def putTogether (P : Plan) (node : String) : Run Unit := do
  control P node
  entries P node

theorem assemble_eq (w : Workspace) (relation : OrderedMap String RelationEntry)
    (services : OrderedMap String Service) :
    assemble w relation services = (do
      let (p, types) ← plan w relation services
      p.topology.keys.forM (putTogether p)
      parsers p types) := by
  simp only [assemble, plan, planned, bind_assoc, pure_bind]
  rfl

/-! ### What is written -/

/-- The endings of the files that are written when nodes are put together. -/
def madeEndings : List String :=
  ["path.json", "topo.json", "path-result.json", "_control", "_entry", "_parser",
    "_header", "_deparser"]

/-- The file is one of those that are written when nodes are put together. -/
def IsMade (q : Place) : Prop :=
  ∃ b ∈ madeEndings, EndsWith q b

theorem not_isMade_of_endsWith {q : Place} {ending : String} (h : EndsWith q ending)
    (hdiffer : ∀ b ∈ madeEndings, Differ ending b) :
    ¬ IsMade q := by
  rintro ⟨b, hb, hend⟩
  exact h.not_of_differ (hdiffer b hb) hend

/-! ### Steps of one node -/

section

variable {K : ∀ {α : Type}, Run α → Prop} (hK : Sequential K) {P : Plan} {node : String}

include hK

theorem control_keeps (hsay : ∀ line, K (liftM (Report.say line) : Run Unit))
    (htexts : ∀ f ∈ P.assignment.on node, ∀ kind, K (fragmentText P f kind))
    (hvars : ∀ files, varFiles P node = .ok files →
      ∀ name ∈ files, K (Run.read (P.workspace.componentFile name)))
    (hcreate : ∀ text, K (create (P.workspace.codeFile node "control") text))
    (hadd : ∀ text, K (append (P.workspace.codeFile node "control") text)) :
    K (control P node) := by
  have hcopy : ∀ kind, K (copyAll P node kind (P.workspace.codeFile node "control")) := fun kind =>
    hK.forM _ fun f hf => hK.bind (htexts f hf kind) fun _ => hadd _
  have hrouted : ∀ f ∈ P.assignment.on node, ∀ kind indent,
      K (copyRouted P node f kind indent (P.workspace.codeFile node "control")) := by
    intro f hf kind indent
    refine hK.bind (htexts f hf kind) fun _ => hK.forM _ fun line _ => hK.bind ?_ fun _ => hadd _
    unfold routeLine
    split
    · refine hK.bind (hsay _) fun _ => ?_
      split
      · exact hK.throw _
      · exact hK.bind (hK.fault _) fun _ => hK.pure _
    · exact hK.pure _
  refine hK.use (hK.fault _) fun _ vars _ hlift => hK.bind (hcreate _) fun _ => ?_
  have hfiles := hvars vars (lift_fault_eq_ok.mp hlift).1
  refine hK.bind (hK.forM _ fun name hname => hK.bind (hfiles name hname) fun _ => hadd _) fun _ =>
    hK.bind (hadd _) fun _ => ?_
  refine hK.bind (hcopy _) fun _ => hK.bind (hK.forM _ fun f hf => hrouted f hf _ _) fun _ =>
    hK.bind (hadd _) fun _ => ?_
  refine hK.bind (hcopy _) fun _ => hK.bind (hadd _) fun _ => hK.bind (hcopy _) fun _ =>
    hK.bind (hadd _) fun _ => ?_
  refine hK.bind (hadd _) fun _ => hK.bind (hK.forM _ fun f hf => ?_) fun _ => hadd _
  exact hK.bind (hrouted f hf _ _) fun _ => hadd _

theorem entries_keeps (htexts : ∀ f ∈ P.assignment.on node, K (fragmentText P f "entry"))
    (hconfig : P.workspace.debug = false →
      K (readJson (P.workspace.projectFile P.workspace.config)))
    (hadd : ∀ text, K (append (P.workspace.codeFile node "entry") text)) : K (entries P node) := by
  have hport : ∀ f, K (nextPort P node f) := by
    intro f
    refine hK.bind (hK.fault _) fun path => hK.bind (hK.fault _) fun next => ?_
    split
    · split
      · exact hK.pure _
      · exact hK.throw _
    · split
      · exact hK.pure _
      · next hdebug =>
          exact hK.bind (hconfig (by simpa using hdebug)) fun _ =>
            hK.bind (hK.mismatch _) fun _ => hK.pure _
  have hroute : ∀ f e, K (routeEntry P node f e) := by
    intro f e
    refine hK.bind (hK.mismatch _) fun params => hK.bind (hK.mismatch _) fun names =>
      hK.bind (hK.foldlM _ (fun acc name _ => ?_) _)
      fun _ => hK.pure _
    refine hK.bind (hK.mismatch _) fun part => hK.bind (hK.mismatch _) fun values => ?_
    split
    · exact hK.bind (hport f) fun _ => hK.bind (hK.mismatch _) fun _ => hK.pure _
    · exact hK.pure _
  refine hK.bind (hadd _) fun _ =>
    hK.bind (hK.flatMapM _ fun f hf => hK.bind (htexts f hf) fun text => ?_) fun _ => hadd _
  refine hK.mapM _ fun line _ => ?_
  split
  · exact hroute f _
  · exact hK.throw _

end

section

variable {keep : Place → Prop} (s₀ : Session)

theorem control_leaves (P : Plan) (node : String)
    (hkeep : ∀ p, s₀.disk.locate s₀.home (P.workspace.codeFile node "control") = .ok p → ¬ keep p) :
    Leaves keep s₀ (control P node) :=
  control_keeps Leaves.sequential (fun _ => .report _) (fun _ _ _ => .read _)
    (fun _ _ _ _ => .read _) (.create hkeep)
    (.append hkeep)

theorem readDefinitions_leaves (text : String) : Leaves keep s₀ (readDefinitions text) := by
  unfold readDefinitions
  generalize Language.definitions.parse text = parsed
  cases parsed with
  | error e => exact Leaves.sequential.throw _
  | ok t =>
    refine .bind .get fun s => .bind (Leaves.sequential.shape _) fun ts =>
      .bind (Leaves.sequential.shape _) fun d => .bind (.update fun _ => ⟨rfl, rfl⟩) fun _ => ?_
    cases d.2 with
    | none => exact .pure _
    | some b => exact .bind (Leaves.sequential.shape _) fun _ => .report _

theorem parseInclude_leaves (w : Workspace) (g : Grammar) (name : String) :
    Leaves keep s₀ (parseInclude w g name) := by
  refine .bind (.read _) fun text => ?_
  generalize g.parse text = parsed
  cases parsed with
  | error e => exact Leaves.sequential.throw _
  | ok t => exact .pure _

theorem parsers_leaves (P : Plan) (types : OrderedMap String String)
    (hkeep : ∀ node, ∀ part ∈ ["parser", "header", "deparser"], ∀ p,
    s₀.disk.locate s₀.home (P.workspace.codeFile node part) = .ok p → ¬ keep p) :
    Leaves keep s₀ (parsers P types) := by
  have hL : Sequential (Leaves keep s₀) := Leaves.sequential
  have hparser := fun node => hkeep node "parser" (by decide)
  have hheader := fun node => hkeep node "header" (by decide)
  have hdeparser := fun node => hkeep node "deparser" (by decide)
  refine .bind (hL.mapM _ fun n _ => .bind (hL.fault _) fun _ => .pure _) fun used => ?_
  refine .bind (parseInclude_leaves s₀ _ _ _) fun headers => .bind (.report _) fun layout => ?_
  refine .bind (parseInclude_leaves s₀ _ _ _) fun tree => .bind (hL.shape _) fun sig =>
    .bind (.report _) fun deparser => ?_
  refine .bind .get fun s => .bind (.report _) fun table =>
    .bind (hL.mapM _ fun x _ => ?_) fun extracted => ?_
  · exact .bind (hL.fault _) fun pruned => .bind (.draft (hparser _) _) fun _ => .pure _
  refine .bind (hL.forM _ fun x _ => .bind (.create (hheader _) _) fun _ =>
    .draft (hheader _) _) fun _ => ?_
  exact .bind (hL.forM _ fun x _ => .append (hheader _) _) fun _ =>
    .bind (hL.forM _ fun x _ => .append (hdeparser _) _) fun _ => .pure _

variable (hmade : ∀ b ∈ ["path.json", "topo.json", "path-result.json"], ∀ q, EndsWith q b →
  ¬ keep q)

include hmade

theorem create_leaves {path a b : String} (hpath : path = a ++ b)
    (hb : b ∈ ["path.json", "topo.json", "path-result.json"]) (text : String) :
    Leaves keep s₀ (create path text) := by
  have hendings : ∀ b ∈ ["path.json", "topo.json", "path-result.json"], IsEnding b := by decide
  refine .create (fun q hq => hmade b hb q ?_) text
  rw [hpath] at hq
  exact endsWith_of_locate (hendings b hb) hq

theorem readPaths_leaves (w : Workspace) : Leaves keep s₀ (readPaths w) := by
  have hpath : w.pathFile = w.component ++ "//path//" ++ "path.json" := by
    rw [String.append_assoc]
    rfl
  have htopo : w.topologyFile = w.component ++ "//topo//" ++ "topo.json" := by
    rw [String.append_assoc]
    rfl
  have hpaths := create_leaves s₀ hmade hpath (by decide)
  have htopology := create_leaves s₀ hmade htopo (by decide)
  refine .bind (.readJson _) fun file => .bind (hpaths _) fun _ =>
    .bind (Leaves.sequential.mismatch _) fun lists => .bind (hpaths _) fun _ => ?_
  exact .bind (htopology _) fun _ => .bind (Leaves.sequential.mismatch _) fun survey =>
    .bind (htopology _) fun _ => .pure _

theorem planned_leaves (w : Workspace) (relation : OrderedMap String RelationEntry)
    (services : OrderedMap String Service) :
    Leaves keep s₀ (planned w relation services) := by
  have hpath : w.projectFile "path_out//path-result.json" = w.project ++ "//path_out//" ++
      "path-result.json" := by
    rw [Workspace.projectFile, String.append_assoc, String.append_assoc]
    rfl
  have hresult := create_leaves s₀ hmade hpath (by decide)
  refine .bind (readPaths_leaves s₀ hmade w) fun paths =>
    .bind (Leaves.sequential.fault _) fun assignment => .bind (hresult _) fun _ => ?_
  exact .bind (Leaves.sequential.fault _) fun overview => .bind (hresult _) fun _ => .pure _

theorem plan_leaves (w : Workspace) (relation : OrderedMap String RelationEntry)
    (services : OrderedMap String Service) :
    Leaves keep s₀ (plan w relation services) :=
  .bind (.report _) fun _ => .bind (.read _) fun text =>
    .bind (readDefinitions_leaves s₀ text) fun _ =>
    .bind (planned_leaves s₀ hmade w relation services) fun _ => .pure _

end

variable {w : Workspace} {relation : OrderedMap String RelationEntry}
  {services : OrderedMap String Service}

/-! ### The plan -/

/-- What the plan is made from: the paths of the project, as they are in `s`. -/
structure IsPlan (w : Workspace) (relation : OrderedMap String RelationEntry)
    (services : OrderedMap String Service) (s : Session) (P : Plan) : Prop where
  workspace : P.workspace = w
  relation : P.relation = relation
  source : ∃ file lists survey, Run.readJson (w.projectFile "path//path.json") s = .ok file s ∧
    Paths.ofJson file = .ok lists ∧
    Survey.ofJson file = .ok survey ∧ P.paths = Paths.ofLists lists ∧ P.topology = survey.topology
  placed : Placement.placeAll P.relation P.paths P.topology services = .ok P.assignment

theorem IsPlan.nodup_keys (h : IsPlan w relation services s P) : P.topology.keys.Nodup := by
  obtain ⟨file, lists, survey, _, _, hsurvey, _, htopology⟩ := h.source
  rw [htopology, Survey.topology, keys_map]
  exact Survey.nodup_keys hsurvey

theorem readPaths_eq_ok {paths : Paths} {topology : Topology}
    (h : readPaths w s = .ok (paths, topology) s') :
    ∃ file lists survey, Run.readJson (w.projectFile "path//path.json") s = .ok file s ∧
      Paths.ofJson file = .ok lists ∧
      Survey.ofJson file = .ok survey ∧ paths = Paths.ofLists lists ∧
        topology = survey.topology := by
  obtain ⟨file, s1, hfile, h⟩ := bind_eq_ok.mp h
  obtain ⟨_, _, _, h⟩ := bind_eq_ok.mp h
  obtain ⟨lists, hlists, h⟩ := bind_mismatch_eq_ok.mp h
  obtain ⟨_, _, _, h⟩ := bind_eq_ok.mp h
  obtain ⟨_, _, _, h⟩ := bind_eq_ok.mp h
  obtain ⟨survey, hsurvey, h⟩ := bind_mismatch_eq_ok.mp h
  obtain ⟨_, _, hresult⟩ := bind_pure_eq_ok.mp h
  cases hresult
  obtain rfl := readJson_stays hfile
  exact ⟨file, lists, survey, hfile, hlists, hsurvey, rfl, rfl⟩

theorem IsPlan.of_keeps (h : IsPlan w relation services s' P)
    (hkeeps : KeepsFiles (fun _ => True) s s') :
    IsPlan w relation services s P := by
  obtain ⟨file, lists, survey, hfile, hrest⟩ := h.source
  exact { h with source := ⟨file, lists, survey,
    (hkeeps.readJson_eq_ok fun _ _ => trivial).mp hfile, hrest⟩ }

theorem planned_eq_ok (h : planned w relation services s = .ok P s') :
    IsPlan w relation services s P := by
  obtain ⟨⟨paths, topology⟩, s1, hpaths, h⟩ := bind_eq_ok.mp h
  obtain ⟨assignment, hplaced, h⟩ := bind_fault_eq_ok.mp h
  obtain ⟨_, s2, _, h⟩ := bind_eq_ok.mp h
  obtain ⟨overview, s3, _, h⟩ := bind_eq_ok.mp h
  obtain ⟨_, _, rfl⟩ := bind_pure_eq_ok.mp h
  exact ⟨rfl, rfl, readPaths_eq_ok hpaths, hplaced⟩

theorem plan_eq_ok {types : OrderedMap String String}
    (h : plan w relation services s = .ok (P, types) s') :
    IsPlan w relation services s P := by
  obtain ⟨_, s1, hsay, h⟩ := bind_eq_ok.mp h
  obtain ⟨text, s2, hread, h⟩ := bind_eq_ok.mp h
  obtain ⟨types', s3, hdefinitions, h⟩ := bind_eq_ok.mp h
  obtain ⟨P', hplanned, hresult⟩ := bind_pure_eq_ok.mp h
  cases hresult
  obtain rfl := read_stays hread
  -- the paths are read from the files that are there at the start
  have hfront : KeepsFiles (fun _ => True) s s3 :=
    (Leaves.report _ s _ s1 rfl rfl hsay).trans
      (readDefinitions_leaves s1 text s1 _ s3 rfl rfl hdefinitions)
  exact (planned_eq_ok hplanned).of_keeps hfront

/-! ### One node after another -/

/-- The entries of a node, which has fragments only, were added to the file that the node's entries
are in. -/
def Adds (P : Plan) (es : String → List Entry) (s s' : Session) (node : String) : Prop :=
  (∀ f ∈ P.assignment.on node, ∃ r, P.relation.find? f = some (.fragment r)) ∧
    ∃ q s₁ port, s.disk.locate s.home (P.workspace.codeFile node "entry") = .ok q ∧
    KeepsFiles (fun q => ¬ IsMade q) s s₁ ∧
    s'.disk.file? q = some ((s.disk.file? q).getD "" ++
      (entryDocument node (entriesOn P node es port)).pretty true 2 0) ∧
    ∀ f ∈ P.assignment.on node, ∀ e ∈ es f, NextHop.operand ∈ e.params → ∀ service,
      P.assignment.services.find? f = some service → Leads P s₁ service node (port f)

/-- The texts of fragments' entries are those of `es`. -/
def Lists (P : Plan) (es : String → List Entry) (s : Session) : Prop :=
  ∀ f r, P.relation.find? f = some (.fragment r) →
    ∀ t, Run.read (P.workspace.componentFile (TextKey.fileName ⟨f, .entry⟩)) s = .ok t s →
      t = Piece.render ((es f).map .entry)

theorem Lists.of_keeps {es : String → List Entry} (h : Lists P es s)
    (hkeeps : KeepsFiles (fun q => ¬ IsMade q) s s') :
    Lists P es s' := by
  intro f r hr t ht
  refine h f r hr t ((hkeeps.read_eq_ok fun q hq => ?_).mp ht)
  exact not_isMade_of_endsWith (endsWith_of_text hq)
    (show ∀ b ∈ madeEndings, Differ (TextKind.ending .entry) b by decide)

section

variable {es : String → List Entry} (hlabelled : Placement.Labelled P.assignment)
  (hkeys : ∀ f, ∀ e ∈ es f, e.keys.keys.Nodup)

include hlabelled hkeys

theorem putTogether_eq_ok {node : String} {u : Unit} (htext : Lists P es s)
    (h : putTogether P node s = .ok u s') :
    KeepsFiles (fun q => ¬ IsMade q) s s' ∧
    (∀ q, EndsWith q "_entry" → s.disk.locate s.home (P.workspace.codeFile node "entry") ≠ .ok q →
      s'.disk.file? q = s.disk.file? q) ∧ Adds P es s s' node := by
  obtain ⟨_, s1, hcontrol, hentries⟩ := bind_eq_ok.mp h
  have hwrites : ∀ {keep : Place → Prop}, (∀ q, EndsWith q "_control" → ¬ keep q) →
      KeepsFiles keep s s1 := fun hkeep =>
    control_leaves s P node (fun q hq => hkeep q (endsWith_of_code (by decide) (by decide) hq)) s _
      s1 rfl rfl hcontrol
  have hmade : KeepsFiles (fun q => ¬ IsMade q) s s1 :=
    hwrites fun q hq => not_not.mpr ⟨"_control", by decide, hq⟩
  have hentry : KeepsFiles (EndsWith · "_entry") s s1 :=
    hwrites fun q hq => hq.not_of_differ (by decide)
  have hfragments : ∀ f ∈ P.assignment.on node, ∃ r, P.relation.find? f = some (.fragment r) := by
    obtain ⟨files, hvars, _⟩ := bind_fault_eq_ok.mp hcontrol
    intro f hf
    obtain ⟨r, hr, _⟩ := (varFiles_eq_ok hvars).2.1 f hf
    exact ⟨r, hr⟩
  obtain ⟨q, s2, port, hq, hsame2, hsame, hfile, hports⟩ := entries_eq_ok (fun f _ => hkeys f)
    (fun f hf => (hlabelled node f hf).imp fun _ => And.left)
    (fun f hf => (hfragments f hf).elim (htext.of_keeps hmade f)) hentries
  have hq0 : s.disk.locate s.home (P.workspace.codeFile node "entry") = .ok q :=
    (hmade.locate _ _).mp hq
  have hentryPlace : EndsWith q "_entry" := endsWith_of_code (by decide) (by decide) hq0
  have hne : ∀ p, ¬ IsMade p → p ≠ q := by
    rintro p hp rfl
    exact hp ⟨"_entry", by decide, hentryPlace⟩
  refine ⟨hmade.trans ((KeepsFiles.of_sameBut hsame).mono hne), fun p hp hother => ?_, hfragments,
    q, s2, port, hq0, hmade.trans ((KeepsFiles.of_sameBut hsame2).mono hne), ?_, hports⟩
  · rw [hsame.files p (fun heq => hother (heq ▸ hq0)), hentry.files p hp]
  · rw [hfile, hentry.files q hentryPlace]

theorem nodes_eq_ok (nodes : List String) : ∀ {s s' : Session} {u : PUnit}, nodes.Nodup →
    (∀ n ∈ nodes, '/' ∉ n.toList) → Lists P es s → nodes.forM (putTogether P) s = .ok u s' →
    KeepsFiles (fun q => ¬ IsMade q) s s' ∧
    (∀ node q, '/' ∉ node.toList → node ∉ nodes →
      s.disk.locate s.home (P.workspace.codeFile node "entry") = .ok q →
      s'.disk.file? q = s.disk.file? q) ∧ ∀ node ∈ nodes, Adds P es s s' node := by
  induction nodes with
  | nil =>
    intro s s' u _ _ _ h
    obtain rfl := forM_nil_eq_ok.mp h
    exact ⟨.refl _ s, fun _ _ _ _ _ => rfl, forall_mem_nil _⟩
  | cons first nodes ih =>
    intro s s' u hnodup hslash htext h
    obtain ⟨hfirst, hnodup⟩ := nodup_cons.mp hnodup
    obtain ⟨hfirstSlash, hslash⟩ := forall_mem_cons.mp hslash
    obtain ⟨s1, hstep, hrest⟩ := forM_cons_eq_ok.mp h
    obtain ⟨hkeeps, hothers, hadds⟩ := putTogether_eq_ok hlabelled hkeys htext hstep
    obtain ⟨hkeeps', hothers', hadds'⟩ := ih hnodup hslash (htext.of_keeps hkeeps) hrest
    have hother : ∀ node q, '/' ∉ node.toList → node ≠ first →
        s.disk.locate s.home (P.workspace.codeFile node "entry") = .ok q →
          s1.disk.file? q = s.disk.file? q := by
      intro node q hnode hne hq
      refine hothers q (endsWith_of_code (by decide) (by decide) hq) fun hq' => hne ?_
      exact eq_of_code hnode hfirstSlash (by decide) hq hq'
    refine ⟨hkeeps.trans hkeeps', fun node q hnode hmem hq => ?_,
      forall_mem_cons.mpr ⟨?_, fun node hmem => ?_⟩⟩
    · obtain ⟨hne, hmem⟩ := not_or.mp (mt mem_cons.mpr hmem)
      rw [hothers' node q hnode hmem ((hkeeps.locate _ _).mpr hq), hother node q hnode hne hq]
    · obtain ⟨hfragments, q, s2, port, hq, hkeeps2, hfile, hports⟩ := hadds
      refine ⟨hfragments, q, s2, port, hq, hkeeps2, ?_, hports⟩
      rw [hothers' first q hfirstSlash hfirst ((hkeeps.locate _ _).mpr hq), hfile]
    · obtain ⟨hfragments, q, s2, port, hq, hkeeps2, hfile, hports⟩ := hadds' node hmem
      have hne : node ≠ first := by
        rintro rfl
        exact hfirst hmem
      have hq0 := (hkeeps.locate _ _).mp hq
      refine ⟨hfragments, q, s2, port, hq0, hkeeps.trans hkeeps2, ?_, hports⟩
      rw [hfile, hother node q (hslash node hmem) hne hq0]

end

/--
**Nodes are put together from the files that are there.**  What is not written now stays as it is.
If the names of nodes have no slashes, then every node has its entries added to its own file, and no
other file of entries is changed.
-/
theorem assemble_eq_ok {w : Workspace} {relation : OrderedMap String RelationEntry}
    {services : OrderedMap String Service} {es : String → List Entry}
    (hkeys : ∀ f, ∀ e ∈ es f, e.keys.keys.Nodup)
    (htext : ∀ f r, relation.find? f = some (.fragment r) →
      ∀ t, Run.read (w.componentFile (TextKey.fileName ⟨f, .entry⟩)) s = .ok t s →
        t = Piece.render ((es f).map .entry))
    {headerType : String} (h : assemble w relation services s = .ok headerType s') :
    ∃ P, IsPlan w relation services s P ∧ ((∀ n ∈ P.topology.keys, '/' ∉ n.toList) →
      KeepsFiles (fun q => ¬ IsMade q) s s' ∧
      (∀ node q, '/' ∉ node.toList → node ∉ P.topology.keys →
        s.disk.locate s.home (w.codeFile node "entry") = .ok q →
        s'.disk.file? q = s.disk.file? q) ∧ ∀ node ∈ P.topology.keys, Adds P es s s' node) := by
  rw [assemble_eq] at h
  obtain ⟨⟨P, types⟩, s1, hplan, h⟩ := bind_eq_ok.mp h
  obtain ⟨_, s2, hnodes, hparsers⟩ := bind_eq_ok.mp h
  have hisPlan := plan_eq_ok hplan
  refine ⟨P, hisPlan, fun hslash => ?_⟩
  obtain rfl := hisPlan.workspace
  -- neither the files of the plan nor the parsers are files of entries
  let keep : Place → Prop := fun q => ¬ IsMade q ∨ EndsWith q "_entry"
  have hother : ∀ {b : String}, b ∈ madeEndings → Differ b "_entry" → ∀ q, EndsWith q b →
      ¬ keep q := by
    rintro b hb hdiffer q hq (hmade | hentry)
    · exact hmade ⟨b, hb, hq⟩
    · exact hq.not_of_differ hdiffer hentry
  have hfirst : KeepsFiles keep s s1 := by
    refine plan_leaves s (fun b hb => ?_) _ _ _ s _ s1 rfl rfl hplan
    have hendings : ∀ b ∈ ["path.json", "topo.json", "path-result.json"], b ∈ madeEndings ∧
        Differ b "_entry" := by decide
    exact hother (hendings b hb).1 (hendings b hb).2
  have hlast : KeepsFiles keep s2 s' := by
    refine parsers_leaves s2 P types (fun node part hpart q hq => ?_) s2 _ s' rfl rfl hparsers
    have hendings : ∀ part ∈ ["parser", "header", "deparser"],
        "_" ++ part ∈ madeEndings ∧ Differ ("_" ++ part) "_entry" ∧
          IsEnding ("_" ++ part) := by decide
    obtain ⟨hmem, hdiffer, hending⟩ := hendings part hpart
    exact hother hmem hdiffer q (endsWith_of_code rfl hending hq)
  have hlists : Lists P es s1 := by
    refine Lists.of_keeps ?_ (hfirst.mono fun q hq => .inl hq)
    intro f r hr
    exact htext f r (hisPlan.relation ▸ hr)
  obtain ⟨hkeeps, hothers, hadds⟩ :=
    nodes_eq_ok (Placement.labelled_of_placeAll hisPlan.placed) hkeys _ hisPlan.nodup_keys hslash
    hlists hnodes
  have hentry : ∀ {node : String} {q : Place}, s.disk.locate s.home
      (P.workspace.codeFile node "entry") = .ok q →
      s1.disk.file? q = s.disk.file? q ∧ s'.disk.file? q = s2.disk.file? q := by
    intro node q hq
    have hend : keep q := .inr (endsWith_of_code (by decide) (by decide) hq)
    exact ⟨hfirst.files q hend, hlast.files q hend⟩
  refine ⟨(hfirst.mono fun q hq => .inl hq).trans (hkeeps.trans (hlast.mono fun q hq => .inl hq)),
    fun node q hnode hmem hq => ?_, fun node hmem => ?_⟩
  · rw [(hentry hq).2, hothers node q hnode hmem ((hfirst.locate _ _).mpr hq), (hentry hq).1]
  · obtain ⟨hfragments, q, s3, port, hq, hkeeps3, hfile, hports⟩ := hadds node hmem
    have hq0 := (hfirst.locate _ _).mp hq
    refine ⟨hfragments, q, s3, port, hq0, (hfirst.mono fun q hq => .inl hq).trans hkeeps3, ?_,
      hports⟩
    rw [(hentry hq0).2, hfile, (hentry hq0).1]

end Node

end Pathwise
