import Mathlib.Data.List.TakeWhile
import Pathwise.Node.Entries
import Pathwise.Proofs.Fragment.Origins
import Pathwise.Proofs.Node.Code
import Pathwise.Proofs.Placement.Labels
import Pathwise.Proofs.Text

/-!
# The next hop in the code of a node

A program writes `_Next` for the next hop.  In the actions and statements of a node the word for it
is replaced, and in the entries of its tables the operand.

* `routedText_render`: if the word occurs only where an operand stands for the next hop, then
  exactly these operands are replaced, and all else is written as it was generated.
* `serviceOf_eq_iff`: text is routed for the part of the fragment's name before the first
  underscore.  That is the service of the fragment just if the name of the service has no
  underscore.
* `nextPort_eq_ok`: entries are routed for the service that the fragment is filed under.
-/

namespace Pathwise

open Steps Run List Option

variable {p : Piece} {ps : List Piece} {service fragment node : String} {nodes : List String}
  {kind : TextKind}

/-! ### Pieces that stand for the next hop -/

def Operand.nextHop : Operand := ⟨NextHop.word, .system⟩

example : Operand.systemText? NextHop.operand = some Operand.nextHop.text := rfl

namespace Piece

def isHop : Piece → Bool
  | operand o => o = Operand.nextHop
  | _ => false

theorem text_of_isHop (h : p.isHop = true) : p.text = NextHop.word := by
  cases p with
  | operand o =>
    rw [of_decide_eq_true h]
    rfl
  | _ => cases h

theorem toList_render_cons (p : Piece) (ps : List Piece) :
    (render (p :: ps)).toList = p.text.toList ++ (render ps).toList := by
  rw [render, map_cons, String.join_cons, String.toList_append, render]

/--
The pieces as they stand in the code of a node: operands for the next hop are written as `hop`, and
`indent` stands in front of every line.  `fresh` tells whether a line begins.
-/
def laid (hop indent : List Char) : Bool → List Piece → List Char
  | _, [] => []
  | fresh, p :: ps =>
    if p.isHop then (if fresh then indent else []) ++ hop ++ laid hop indent false ps
    else
      Text.indented indent fresh p.text.toList ++
        laid hop indent (Text.freshAfter fresh p.text.toList) ps

/-- The word for the next hop occurs in the text only where an operand stands for the next hop. -/
def NamesHop (ps : List Piece) : Prop :=
  ∀ a b, (render ps).toList = a ++ NextHop.word.toList ++ b →
    ∃ qs p rs, ps = qs ++ p :: rs ∧ p.isHop = true ∧ (render qs).toList = a

theorem namesHop_nil : NamesHop [] := by
  intro a b h
  have hlength := congrArg List.length h
  simp [render, NextHop.word] at hlength

theorem word_begins_once {rest a b : List Char}
    (h : NextHop.word.toList ++ rest = a ++ NextHop.word.toList ++ b)
    (ha : a.length < NextHop.word.toList.length) : a = [] := by
  match a, ha with
  | [], _ => rfl
  | [_], _ => simp [NextHop.word] at h
  | [_, _], _ => simp [NextHop.word] at h
  | [_, _, _], _ => simp [NextHop.word] at h
  | _ :: _ :: _ :: _ :: _, ha =>
    simp [NextHop.word] at ha
    omega

theorem namesHop_cons :
    NamesHop (p :: ps) ↔
      (p.isHop = true ∨ ∀ i < p.text.toList.length, ¬ NextHop.word.toList <+:
        (p.text.toList ++ (render ps).toList).drop i) ∧ NamesHop ps := by
  constructor
  · intro h
    refine ⟨or_iff_not_imp_left.mpr fun hp i hi hfront => ?_, fun a b hab => ?_⟩
    · obtain ⟨b, hb⟩ := hfront
      obtain ⟨qs, q, rs, hsplit, hq, hqs⟩ := h ((p.text.toList ++ (render ps).toList).take i) b
        (by rw [append_assoc, hb, take_append_drop, toList_render_cons])
      cases qs with
      | nil =>
        injection hsplit with hpq _
        exact hp (hpq ▸ hq)
      | cons p' qs =>
        injection hsplit with hpq _
        have hlength := congrArg List.length hqs
        rw [← hpq, toList_render_cons, length_append, length_take] at hlength
        omega
    · obtain ⟨qs, q, rs, hsplit, hq, hqs⟩ :=
        h (p.text.toList ++ a) b (by rw [toList_render_cons, hab]; simp)
      cases qs with
      | nil =>
        injection hsplit with hpq _
        have hlength := congrArg List.length hqs
        rw [hpq, text_of_isHop hq] at hlength
        simp [render, NextHop.word] at hlength
      | cons p' qs =>
        injection hsplit with hpq hsplit
        rw [← hpq, toList_render_cons] at hqs
        exact ⟨qs, q, rs, hsplit, hq, append_cancel_left hqs⟩
  · rintro ⟨hp, hps⟩ a b hab
    rw [toList_render_cons] at hab
    by_cases hlong : p.text.toList.length ≤ a.length
    · obtain ⟨a', rfl⟩ : ∃ a', a = p.text.toList ++ a' := by
        have hfront : p.text.toList <+: a :=
          prefix_of_prefix_length_le (prefix_append _ _)
            (by rw [hab, append_assoc]; exact prefix_append _ _) hlong
        exact ⟨_, hfront.choose_spec.symm⟩
      have htail : (render ps).toList = a' ++ NextHop.word.toList ++ b := by
        rw [append_assoc, append_assoc] at hab
        rw [append_assoc]
        exact append_cancel_left hab
      obtain ⟨qs, q, rs, rfl, hq, rfl⟩ := hps a' b htail
      exact ⟨p :: qs, q, rs, rfl, hq, toList_render_cons p qs⟩
    · rcases hp with hp | hapart
      · rw [text_of_isHop hp] at hab hlong
        obtain rfl := word_begins_once hab (Nat.lt_of_not_le hlong)
        exact ⟨[], p, ps, rfl, hp, rfl⟩
      · refine absurd ?_ (hapart a.length (Nat.lt_of_not_le hlong))
        rw [hab, append_assoc, drop_left]
        exact prefix_append _ _

instance decidableNamesHop : ∀ ps, Decidable (NamesHop ps)
  | [] => isTrue namesHop_nil
  | _ :: ps =>
    have := decidableNamesHop ps
    decidable_of_iff' _ namesHop_cons

theorem filled_render (hop indent : List Char) : ∀ {ps : List Piece} (fresh : Bool), NamesHop ps →
    Text.filled NextHop.word.toList hop indent fresh 0 (render ps).toList =
      laid hop indent fresh ps := by
  intro ps
  induction ps with
  | nil => exact fun _ _ => rfl
  | cons p ps ih =>
    intro fresh h
    obtain ⟨hp, hps⟩ := namesHop_cons.mp h
    rw [toList_render_cons, laid]
    by_cases hhop : p.isHop = true
    · rw [if_pos hhop, text_of_isHop hhop, Text.filled_word hop indent (by decide), ih false hps]
    · rw [if_neg hhop, Text.filled_append hop indent, ih _ hps]
      intro a b hab
      by_contra hshort
      refine hp.resolve_left hhop a.length (Nat.lt_of_not_le hshort) ?_
      rw [hab, append_assoc, drop_left]
      exact prefix_append _ _

theorem infix_render_of_isHop (h : ∃ p ∈ ps, p.isHop = true) :
    NextHop.word.toList <:+: (render ps).toList := by
  obtain ⟨p, hp, hhop⟩ := h
  obtain ⟨qs, rs, rfl⟩ := append_of_mem hp
  refine ⟨(render qs).toList, (render rs).toList, ?_⟩
  rw [← text_of_isHop hhop]
  simp [render, map_append]

end Piece

/-! ### The service that text is routed for -/

namespace NextHop

theorem serviceOf_eq (fragment : String) :
    serviceOf fragment = String.ofList (fragment.toList.takeWhile (· ≠ '_')) := by
  have hparts : ∀ (cs current : List Char),
      (Text.partsFrom '_' current cs).headD "" = String.ofList
        (current.reverse ++ cs.takeWhile (· ≠ '_')) := by
    intro cs
    induction cs with
    | nil =>
      intro current
      simp [Text.partsFrom]
    | cons c cs ih =>
      intro current
      rw [Text.partsFrom]
      split
      · next hc => simp [hc]
      · next hc =>
        rw [ih, takeWhile_cons_of_pos (by simpa using hc), reverse_cons, append_assoc,
          singleton_append]
  rw [serviceOf, nameParts, Text.parts, hparts]
  rfl

/-- **The name up to the first underscore is the service just if the service has no underscore in
its name.** -/
theorem serviceOf_eq_iff (h : Placement.BelongsTo service fragment) :
    serviceOf fragment = service ↔ '_' ∉ service.toList := by
  obtain ⟨app, number, rfl⟩ := h
  obtain ⟨rest, hrest⟩ : ∃ rest, (Placement.fragmentName (service ++ "_" ++ app) number).toList =
    service.toList ++ '_' :: rest :=
    ⟨app.toList ++ "_".toList ++ (toString number).toList, by simp [Placement.fragmentName]⟩
  rw [serviceOf_eq, hrest]
  constructor
  · intro heq hmem
    rw [← heq, String.toList_ofList] at hmem
    simpa using mem_takeWhile_imp hmem
  · intro hmem
    have hall : ∀ c ∈ service.toList, decide (c ≠ '_') = true := fun c hc => by
      rw [decide_eq_true_eq]
      rintro rfl
      exact hmem hc
    rw [takeWhile_append_of_pos hall]
    simp

/--
What the next hop of a service is called on a node: the port that leads there, or the name of the
next node if no link leads there, and zero on the last node.
-/
def ofService (P : Node.Plan) (service node : String) : Option String := do
  let nodes ← P.paths.find? service
  let i ← nodes.idxOf? node
  match nodes[i + 1]? with
  | none => some "0"
  | some next => some (((P.topology.find? node).bind (·.next.find? next)).elim next Json.text)

/-- The node is the last one on the path of the service. -/
def EndsAt (P : Node.Plan) (service node : String) : Prop :=
  ∃ nodes i, P.paths.find? service = some nodes ∧ nodes.idxOf? node = some i ∧ nodes[i + 1]? = none

theorem after_eq_ok {next : Option String} (h : after nodes node = .ok next) :
    ∃ i, nodes.idxOf? node = some i ∧ nodes[i + 1]? = next := by
  rw [after] at h
  split at h
  · next i hi =>
    cases h
    exact ⟨i, hi, rfl⟩
  · cases h

theorem pathOf_eq_ok {paths : Paths} (h : pathOf paths service = .ok nodes) :
    paths.find? service = some nodes := by
  rw [pathOf] at h
  split at h
  · cases h
    assumption
  · cases h

theorem inText_eq_ok {P : Node.Plan} {info : NodeInfo String} {hop : String}
    (hinfo : P.topology.find? node = some info) (h : inText P.paths info fragment node = .ok hop) :
    ofService P (serviceOf fragment) node = some hop := by
  obtain ⟨nodes, hnodes, h⟩ := except_bind_eq_ok.mp h
  obtain ⟨next, hnext, h⟩ := except_bind_eq_ok.mp h
  obtain ⟨i, hi, rfl⟩ := after_eq_ok hnext
  rw [ofService, pathOf_eq_ok hnodes, bind_eq_bind, bind_some, hi, bind_eq_bind, bind_some, hinfo]
  cases hlast : nodes[i + 1]? with
  | none =>
    rw [hlast] at h
    cases h
    rfl
  | some next =>
    rw [hlast] at h
    dsimp only [bind_some] at h ⊢
    cases hport : info.next.find? next with
    | none =>
      rw [hport] at h
      cases h
      rfl
    | some port =>
      rw [hport] at h
      cases h
      rfl

end NextHop

namespace Node

variable {P : Plan} {node f : String} {s s' : Session}

/-! ### Texts -/

theorem toList_routedLine (line : String) :
    (routedLine P node f line).toList = Text.replaceFrom NextHop.word.toList
      (hopOn P node f).toList 0 line.toList := by
  rw [routedLine]
  split
  · rw [NextHop.fillLine, Text.replace, String.toList_ofList]
  · next h =>
    rw [NextHop.occurs, Text.occursIn_iff] at h
    rw [Text.replaceFrom_of_not_infix _ h]

/-- **Routed text**: operands for the next hop are replaced, and nothing else is changed. -/
theorem routedText_render (hps : Piece.NamesHop ps) (indent : String) :
    (routedText P node f indent (Piece.render ps)).toList = Piece.laid
      (hopOn P node f).toList indent.toList true ps := by
  rw [← Piece.filled_render _ _ true hps, ← Text.flatMap_lines _ _ (by decide) (by decide),
    routedText, String.toList_join, flatMap_map]
  simp only [String.toList_append, toList_routedLine]

theorem routeLine_eq_ok {line line' : String} (hline : NextHop.occurs line = true)
    (h : routeLine P node f line s = .ok line' s') :
    NextHop.ofService P (NextHop.serviceOf f) node = some (hopOn P node f) := by
  rw [routeLine, if_pos hline] at h
  obtain ⟨_, s1, _, h⟩ := bind_eq_ok.mp h
  rw [hopOn]
  cases hinfo : P.topology.find? node with
  | none =>
    rw [hinfo] at h
    exact absurd h throw_ne_ok
  | some info =>
    rw [hinfo] at h
    obtain ⟨hop, hhop, _⟩ := bind_fault_eq_ok.mp h
    rw [NextHop.inText_eq_ok hinfo hhop]
    simp only [hhop]
    rfl

section

variable {q : Place} {text : TextKey → String}
  (hcode : s.disk.locate s.home (P.workspace.codeFile node "control") = .ok q)
  (htext : ∀ k, Needs P node k → ∀ t, Run.read (P.workspace.componentFile k.fileName) s = .ok t s →
    t = text k)

include hcode htext

theorem copyRouted_requires (hf : f ∈ P.assignment.on node) (indent : String)
    (hword : NextHop.word.toList <:+: (text ⟨f, kind⟩).toList) :
    Requires q s (copyRouted P node f (kindName kind) indent (P.workspace.codeFile node "control"))
      (NextHop.ofService P (NextHop.serviceOf f) node = some (hopOn P node f)) := by
  obtain ⟨line, hline, hoccurs⟩ := Text.exists_line_of_infix (by decide) (by decide) hword
  refine .behind (fragmentText_outputs hcode htext hf kind)
    (.forM (fun line _ => .use (routeLine_outputs f line) (.append hcode _)) hline (.first ?_ _))
  exact fun s1 b s2 _ h => routeLine_eq_ok (Text.occursIn_iff.mpr hoccurs) h

theorem copyParts_requires {scopes : List String}
    (hscopes : ∀ scope ∈ scopes, Needs P node ⟨scope, .vars⟩) (hf : f ∈ P.assignment.on node)
    (hkind : kind = .action ∨ kind = .control)
    (hword : NextHop.word.toList <:+: (text ⟨f, kind⟩).toList) :
    Requires q s (copyParts P node (scopes.map varFileOf))
      (NextHop.ofService P (NextHop.serviceOf f) node = some (hopOn P node f)) := by
  have hactions := fun f hf => copyRouted_outputs hcode htext (f := f) hf "" .action
  refine .behind (scopes_outputs hcode htext hscopes) <| .behind (.append hcode "\n") <|
    .behind (copyAll_outputs hcode htext .temp) ?_
  rcases hkind with rfl | rfl
  · exact .first (.forM hactions hf (copyRouted_requires hcode htext hf "" hword)) _
  · have hstatements : ∀ f ∈ P.assignment.on node, Outputs q s (do
        copyRouted P node f (kindName .control) "    " (P.workspace.codeFile node "control")
        Run.append (P.workspace.codeFile node "control") divider) () _ :=
      fun f hf => .bind (copyRouted_outputs hcode htext hf "    " .control) (.append hcode divider)
    refine .behind (.forM hactions) <| .behind (.append hcode "\n") <|
      .behind (copyAll_outputs hcode htext .table) <|
      .behind (.append hcode "\n") <| .behind (copyAll_outputs hcode htext .register) <|
        .behind (.append hcode "\n") <|
      .behind (.append hcode ("apply \x7b\n" ++ divider)) <| .first (.forM hstatements hf ?_) _
    exact .first (copyRouted_requires hcode htext hf "    " hword) _

omit hcode in
theorem control_requires (hfiles : ∀ f ∈ P.assignment.on node, ∀ r, P.relation.find? f =
    some (.fragment r) →
      ∀ file ∈ r.varFiles, file ∈ Set.range varFileOf) (hf : f ∈ P.assignment.on node)
    (hkind : kind = .action ∨ kind = .control)
    (hword : NextHop.word.toList <:+: (text ⟨f, kind⟩).toList) {u : Unit}
    (h : control P node s = .ok u s') :
    NextHop.ofService P (NextHop.serviceOf f) node = some (hopOn P node f) := by
  obtain ⟨scopes, q, s1, _, _, hneeds, hcode, hsame, _, hcopy⟩ := control_begins hfiles h
  exact copyParts_requires hcode htext hneeds hf hkind hword s1 u s' hsame hcopy

end

/-! ### Entries -/

/--
**The next hop in entries**: the one of the service that the fragment is filed under.  On the last
node of its path it is zero in a compilation without a service configuration, and otherwise the port
of the last host, if the configuration names one.
-/
theorem nextPort_eq_ok {port : String} (hservice : P.assignment.services.find? f = some service)
    (h : nextPort P node f s = .ok port s') :
    s = s' ∧
    ((¬ NextHop.EndsAt P service node ∧ NextHop.ofService P service node = some port) ∨
      (NextHop.EndsAt P service node ∧ NextHop.ofService P service node = some "0" ∧
        (if P.workspace.debug then port = "0"
        else ∃ config found,
          Run.readJson (P.workspace.projectFile P.workspace.config) s = .ok config s ∧
          hostPort service config = .ok found ∧ port = found.getD "0"))) := by
  rw [nextPort, hservice, getD_some] at h
  obtain ⟨nodes, hnodes, h⟩ := bind_fault_eq_ok.mp h
  obtain ⟨next, hnext, h⟩ := bind_fault_eq_ok.mp h
  obtain ⟨i, hi, rfl⟩ := NextHop.after_eq_ok hnext
  have hpath := NextHop.pathOf_eq_ok hnodes
  have hservice : NextHop.ofService P service node = match nodes[i + 1]? with
      | none => some "0"
      | some next =>
        some (((P.topology.find? node).bind (·.next.find? next)).elim next Json.text) := by
    rw [NextHop.ofService, hpath, bind_eq_bind, bind_some, hi]
    rfl
  cases hlast : nodes[i + 1]? with
  | some next =>
    rw [hlast] at h hservice
    have hends : ¬ NextHop.EndsAt P service node := by
      rintro ⟨nodes', i', hpath', hi', hlast'⟩
      obtain rfl := Option.some.inj (hpath.symm.trans hpath')
      obtain rfl := Option.some.inj (hi.symm.trans hi')
      rw [hlast] at hlast'
      cases hlast'
    dsimp only at h hservice
    cases hport : (P.topology.find? node).bind (·.next.find? next) with
    | none =>
      rw [hport] at h
      exact absurd h throw_ne_ok
    | some port =>
      rw [hport] at h hservice
      obtain ⟨rfl, rfl⟩ := pure_eq_ok.mp h
      exact ⟨rfl, .inl ⟨hends, hservice⟩⟩
  | none =>
    rw [hlast] at h hservice
    have hends : NextHop.EndsAt P service node := ⟨nodes, i, hpath, hi, hlast⟩
    dsimp only at h
    split at h
    · next hdebug =>
      obtain ⟨rfl, rfl⟩ := pure_eq_ok.mp h
      exact ⟨rfl, .inr ⟨hends, hservice, by rw [if_pos hdebug]⟩⟩
    · next hdebug =>
      obtain ⟨config, s1, hread, h⟩ := bind_eq_ok.mp h
      obtain ⟨found, hfound, h⟩ := bind_mismatch_eq_ok.mp h
      obtain ⟨rfl, rfl⟩ := pure_eq_ok.mp h
      obtain ⟨text, hraw, _⟩ := readJson_eq_ok.mp hread
      obtain ⟨_, hraw, _⟩ := read_eq_ok.mp hraw
      obtain ⟨_, _, _, rfl⟩ := readRaw_eq_ok.mp hraw
      exact ⟨rfl, .inr ⟨hends, hservice, by rw [if_neg hdebug]; exact ⟨config, found, hread,
        hfound, rfl⟩⟩⟩

/--
**The next hop on a node.**  Let services be generated, fragments placed and the code of a node put
together.  Then

* the code is the routed texts of the node's fragments behind their declarations;
* every fragment on the node is filed under a service that it is named for, and its text is routed
  for the part of its name before the first underscore, which is that service just if its name has
  no underscore;
* if the word for the next hop occurs in the actions or statements of a fragment only where an
  operand stands for it, then all these operands become the next hop of the service that the text is
  routed for, and nothing else is changed;
* in the entries of a fragment the next hop is the one of the service that the fragment is filed
  under, except that on the last node of a path it may be a port of a host.
-/
theorem next_hop_of_texts_and_entries {p : Program} {g g' : Generation}
    {svcs services : OrderedMap String Service} (hrelation : g.relation = {})
    (h : Gen.services p g = .ok svcs g')
    (hplaced : Placement.placeAll P.relation P.paths P.topology services = .ok P.assignment)
    (hP : ∀ f ∈ P.assignment.on node, P.relation.find? f = g'.relation.find? f)
    (htext : ∀ k, Needs P node k →
      ∀ t, Run.read (P.workspace.componentFile k.fileName) s = .ok t s →
      t = Piece.render (g'.written k))
    (hcontrol : control P node s = .ok () s') :
    (∃ scopes, Run.readRaw (P.workspace.codeFile node "control") s' =
      .ok (codeText P node scopes fun k => Piece.render (g'.written k)) s') ∧
    ∀ f ∈ P.assignment.on node, ∃ service,
      P.assignment.services.find? f = some service ∧ Placement.BelongsTo service f ∧
      (NextHop.serviceOf f = service ↔ '_' ∉ service.toList) ∧
      (∀ kind, kind = .action ∨ kind = .control → Piece.NamesHop (g'.written ⟨f, kind⟩) →
        ∃ hop : String,
          ((∃ piece ∈ g'.written ⟨f, kind⟩, piece.isHop) →
            NextHop.ofService P (NextHop.serviceOf f) node = some hop) ∧
          ∀ indent : String, (routedText P node f indent
            (Piece.render (g'.written ⟨f, kind⟩))).toList =
            Piece.laid hop.toList indent.toList true (g'.written ⟨f, kind⟩)) ∧
      ∀ s₁ port s₂, nextPort P node f s₁ = .ok port s₂ →
        (¬ NextHop.EndsAt P service node ∧ NextHop.ofService P service node = some port) ∨
          (NextHop.EndsAt P service node ∧ NextHop.ofService P service node = some "0" ∧
            (if P.workspace.debug then port = "0"
            else ∃ config found,
              Run.readJson (P.workspace.projectFile P.workspace.config) s₁ = .ok config s₁ ∧
              hostPort service config = .ok found ∧ port = found.getD "0")) := by
  have hruns := Gen.services_runs h
  have hfiles : ∀ f ∈ P.assignment.on node, ∀ r, P.relation.find? f = some (.fragment r) →
      ∀ file ∈ r.varFiles, file ∈ Set.range varFileOf := by
    intro f hf r hr
    rw [hP f hf] at hr
    obtain ⟨_, _, _, _, _, _, hfiles, _⟩ := hruns.exists_madeBy hrelation hr
    exact hfiles
  refine ⟨?_, fun f hf => ?_⟩
  · obtain ⟨scopes, _, _, hcode⟩ := control_eq_ok htext hfiles hcontrol
    exact ⟨scopes, hcode⟩
  · obtain ⟨service, hservice, hbelongs⟩ := Placement.labelled_of_placeAll hplaced node f hf
    refine ⟨service, hservice, hbelongs, NextHop.serviceOf_eq_iff hbelongs,
      fun kind hkind hnames => ?_, fun s₁ port s₂ hport => (nextPort_eq_ok hservice hport).2⟩
    refine ⟨hopOn P node f, fun hhop => ?_, fun indent => routedText_render hnames indent⟩
    exact control_requires htext hfiles hf hkind (Piece.infix_render_of_isHop hhop) hcontrol

/-- A service with an underscore in its name, whose only application assigns the next hop to a
variable. -/
def forkProgram : Program :=
  let m : Module := { Module.named "M" with
    directions := ["inout"]
    params := ["x"]
    paramTypes := ["bit<8>"]
    body := [.assign [.ofVariable "x"] (.node "data" [.node "sys_data" [.leaf NextHop.operand]])] }
  { services := ⟨[("a_b", ⟨"a_b", ["A"]⟩)]⟩
    applications := ⟨[("A", ⟨"A", ⟨[("v", "bit<8>")]⟩, [.call ⟨true, "M", [.ofVariable "v"]⟩]⟩)]⟩
    modules := ⟨[("M", m)]⟩ }

/-- The path of the service leads from the first node to the third, and the path of another service
to the second. -/
def forkPlan (g : Generation) : Plan :=
  let info (next : OrderedMap String Json) : NodeInfo String := ⟨next, .int 6, .str "", .str "CPU"⟩
  let paths : Paths := ⟨[("a", ["s1", "s2"]), ("a_b", ["s1", "s3"])]⟩
  let topology : Topology :=
    ⟨[("s1", info ⟨[("s2", .int 1), ("s3", .int 2)]⟩), ("s2", info {}), ("s3", info {})]⟩
  { workspace := ⟨"", "", "", true, true⟩
    relation := g.relation
    paths := paths
    topology := topology
    assignment :=
      (Placement.placeAll g.relation paths topology forkProgram.services).toOption.getD default }

def forkEntry : Relation :=
  ⟨[], ["a_b_A_v"], [varFileOf "a_b_A", varFileOf "a_b_A_M"], ["M"], 0⟩

def forkTest (g : Generation) : Bool :=
  (Placement.placeAll g.relation (forkPlan g).paths
    (forkPlan g).topology forkProgram.services).toOption.isSome &&
  ((forkPlan g).assignment.on "s1" = ["a_b_A_0", "a_b_A_0"]) &&
  ((forkPlan g).assignment.services.find? "a_b_A_0" = some "a_b") &&
  (g.relation.find? "a_b_A_0" = some (.fragment forkEntry)) &&
  holdsTexts (forkPlan g) g (textsOf ["a_b_A", "a_b_A_M"] "a_b_A_0") &&
  ((g.written ⟨"a_b_A_0", .control⟩).any Piece.isHop) &&
  (Piece.NamesHop (g.written ⟨"a_b_A_0", .control⟩)) &&
  (Piece.laid "1".toList "    ".toList true (g.written ⟨"a_b_A_0", .control⟩) =
    "    a_b_A_v = 1;\n".toList) &&
  succeeded (Node.control (forkPlan g) "s1" (textSession g)) &&
  succeeded (nextPort (forkPlan g) "s1" "a_b_A_0" (textSession g))

/-- The statement sends packets to the port of another service, and the entries to the port of their
own. -/
theorem fork_sent_two_ways :
    ∃ svcs g' s' s₂, Gen.services forkProgram .empty = .ok svcs g' ∧
      control (forkPlan g') "s1" (textSession g') = .ok () s' ∧
        "a_b_A_0" ∈ (forkPlan g').assignment.on "s1" ∧
      (forkPlan g').assignment.services.find? "a_b_A_0" = some "a_b" ∧
        NextHop.serviceOf "a_b_A_0" ≠ "a_b" ∧
      routedText (forkPlan g') "s1" "a_b_A_0" "    "
        (Piece.render (g'.written ⟨"a_b_A_0", .control⟩)) =
        "    a_b_A_v = 1;\n" ∧
      nextPort (forkPlan g') "s1" "a_b_A_0" (textSession g') = .ok "2" s₂ := by
  obtain ⟨svcs, g', h, htest⟩ :=
    exists_ok_of_succeededWith (P := forkTest) (r := Gen.services forkProgram .empty)
    (by decide +kernel)
  simp only [forkTest, Bool.and_eq_true, decide_eq_true_eq] at htest
  obtain ⟨⟨⟨⟨⟨⟨⟨⟨⟨hplaced, hon⟩, hfiled⟩, hr⟩, hkeys⟩, hhop⟩, hnames⟩, hlaid⟩, hcontrol⟩, hport⟩ :=
    htest
  obtain ⟨_, s', hcontrol⟩ := exists_ok_of_succeeded hcontrol
  obtain ⟨port, s₂, hport⟩ := exists_ok_of_succeeded hport
  obtain ⟨a, ha⟩ := isSome_iff_exists.mp hplaced
  have hplaced : Placement.placeAll g'.relation (forkPlan g').paths
      (forkPlan g').topology forkProgram.services =
      .ok (forkPlan g').assignment := by
    have hassignment : (forkPlan g').assignment = a := congrArg (Option.getD · default) ha
    rw [hassignment]
    exact eq_ok_of_toOption ha
  have hsole : ∀ f ∈ (forkPlan g').assignment.on "s1", f = "a_b_A_0" := by
    rw [hon]
    simp
  have htext := text_of_holdsTexts hsole hr rfl hkeys
  have hfork : "a_b_A_0" ∈ (forkPlan g').assignment.on "s1" := by
    rw [hon]
    exact mem_cons_self
  obtain ⟨service, hservice, _, hparts, htexts, hentries⟩ :=
    (next_hop_of_texts_and_entries rfl h hplaced (fun _ _ => rfl) htext hcontrol).2 "a_b_A_0" hfork
  obtain rfl : "a_b" = service := Option.some.inj (hfiled.symm.trans hservice)
  obtain ⟨hop, hfound, hrouted⟩ := htexts .control (.inr rfl) hnames
  obtain rfl : "1" = hop := Option.some.inj (hfound (any_eq_true.mp hhop))
  have hends : ¬ NextHop.EndsAt (forkPlan g') "a_b" "s1" := by
    rintro ⟨nodes, i, hnodes, hi, hlast⟩
    obtain rfl : ["s1", "s3"] = nodes := Option.some.inj hnodes
    obtain rfl : 0 = i := Option.some.inj hi
    cases hlast
  have htwo : port = "2" := by
    rcases hentries _ _ _ hport with ⟨_, hservice⟩ | ⟨hend, _⟩
    · exact (Option.some.inj hservice).symm
    · exact absurd hend hends
  refine ⟨svcs, g', s', s₂, h, hcontrol, hfork, hfiled, fun heq => (hparts.mp heq) (by decide), ?_,
    htwo ▸ hport⟩
  rw [← String.toList_inj, hrouted "    ", hlaid]

end Node

end Pathwise
