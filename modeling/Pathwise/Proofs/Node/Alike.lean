import Pathwise.Proofs.Node.Assembled
import Pathwise.Proofs.PacketParser.Constants
import Pathwise.Proofs.PacketParser.Machine

/-!
# Putting nodes together twice

From sessions that are alike, nodes are put together in the same way: the same code is written, the
same is reported, and what fails in one session fails in the other one.  The constants that were
defined before make no difference if the project defines all constants itself that it names.
-/

namespace Pathwise

open Steps OrderedMap String

variable {t tree : Tree} {w : Workspace} {d d' : Definitions} {s : Session}

/-! ### Reports -/

namespace Layout

theorem fields_blind {nameRule : String} {typeOf : String → Report String}
    (htypeOf : ∀ type, Blind (typeOf type)) (parts : List Tree) :
    Blind (fields nameRule typeOf parts) := by
  refine .foldlM ?_ _ _
  rintro ⟨name, fs⟩ part
  refine .bind (.lift _) fun rule => ?_
  split
  · exact .bind (.lift _) fun _ => .pure _
  · exact .bind (.lift _) fun field => .bind (.lift _) fun type =>
      .bind (htypeOf type) fun _ => .pure _

theorem collect_blind (types : OrderedMap String String) (t : Tree) : Blind (collect types t) := by
  have hheader : ∀ type, Blind (headerFieldType types type) := by
    intro type
    unfold headerFieldType
    split
    · exact .pure _
    · split
      · exact .pure _
      · exact .halt _
  have hstruct : ∀ l type, Blind (structFieldType types l type) := by
    intro l type
    unfold structFieldType
    split
    · exact .pure _
    · split
      · exact .pure _
      · split
        · exact .pure _
        · exact .bind (.say _) fun _ => .halt _
  refine .bind (.lift _) fun parts => .bind (.foldlM (fun l t => ?_) _ _) fun l =>
    .foldlM (fun l t => ?_) _ _
  · refine .bind (.lift _) fun rule => ?_
    split
    · exact .bind (.lift _) fun cs => .bind (fields_blind hheader cs) fun _ => .pure _
    · exact .pure _
  · refine .bind (.lift _) fun rule => ?_
    split
    · exact .bind (.lift _) fun cs => .bind (fields_blind (hstruct l) cs) fun _ => .pure _
    · exact .pure _

end Layout

namespace PacketParser

theorem deparser_blind (sig : Signature) (l : Layout) (t : Tree) : Blind (deparser sig l t) := by
  have hemitted : ∀ t, Blind (emitted sig l t) := by
    intro t
    refine .bind (.lift _) fun place => .bind (.lift _) fun cs => ?_
    split
    · exact .halt _
    · refine .bind (.lift _) fun owner => .bind (.lift _) fun header => ?_
      split
      · exact .halt _
      · split
        · exact .throw _
        · split
          · exact .pure _
          · exact .halt _
  refine .bind (.lift _) fun blocks =>
    .bind (Blind.sequential.flatMapM _ fun b _ => .lift _) fun places => ?_
  exact Blind.sequential.mapM _ fun t _ => hemitted t

theorem table_blind (constants : OrderedMap String String) (sig : Signature)
    (l : Layout) (t : Tree) :
    Blind (table constants sig l t) := by
  have hextraction : ∀ t, Blind (extraction sig l t) := by
    intro t
    refine .bind (.lift _) fun owner => ?_
    split
    · exact .halt _
    · refine .bind (.lift _) fun header => ?_
      split
      · exact .throw _
      · split
        · exact .pure _
        · exact .halt _
  have hselector : ∀ t, Blind (selector constants t) := by
    intro t
    refine .bind (.lift _) fun value => .bind (.lift _) fun rule => ?_
    split
    · exact .pure _
    · split
      · exact .pure _
      · exact .bind (.say _) fun _ => .halt _
  have htransition : ∀ s t, Blind (transition constants s t) := by
    intro s t
    refine .bind (.lift _) fun t => .bind (.lift _) fun rule => ?_
    split
    · exact .bind (.lift _) fun _ => .pure _
    · split
      · refine .bind (.lift _) fun chosen => .bind (.lift _) fun entries =>
          .foldlM (fun s t => ?_) _ _
        exact .bind (.lift _) fun target => .bind (.lift _) fun d =>
          .bind (hselector d) fun _ => .pure _
      · exact .pure _
  have hstate : ∀ t, Blind (state constants sig l t) := by
    intro t
    refine .bind (.lift _) fun name => .bind (.lift _) fun exacts =>
      .bind (Blind.sequential.mapM _ fun t _ => hextraction t) fun _ => ?_
    refine .bind (.lift _) fun transitions => .bind (.foldlM htransition _ _) fun s => ?_
    exact .bind (.lift _) fun body => .pure _
  refine .bind (.lift _) fun nodes =>
    .bind (.foldlM (fun acc n => .bind (hstate n) fun _ => .pure _) _ _) fun filed => ?_
  unfold linked
  split
  · split
    · exact .throw _
    · exact .pure _
  · exact .halt _

end PacketParser

/-! ### Drafts -/

section

open Draft.Alike

variable {front : String}

namespace PacketParser

theorem respects_side {constants : OrderedMap String String} {sig : Signature} {owner : String}
    {kind : String → Report Unit} (hkind : ∀ rule, Blind (kind rule)) : Respects (Draft.Alike front)
    (side constants sig t owner kind) := by
  refine .bind (.shape _) fun rule => ?_
  split
  · refine .bind (.shape _) fun first => ?_
    split
    · exact .bind (.shape _) fun _ => respects_write _
    · exact respects_report (.halt _)
  · split
    · exact .bind (.shape _) fun _ => respects_write _
    · exact respects_report (hkind _)

theorem respects_instruction (constants : OrderedMap String String) (sig : Signature) (t : Tree) :
    Respects (Draft.Alike front) (instruction constants sig t) := by
  refine .bind (.shape _) fun ins => .bind (.shape _) fun rule => ?_
  split
  · exact .bind (.shape _) fun type => .bind (.shape _) fun name => respects_write _
  split
  · refine .bind (.shape _) fun target => .bind (.shape _) fun kind => ?_
    split
    · exact .bind (.shape _) fun name => .bind (.shape _) fun type => respects_write _
    · exact respects_report (.halt _)
  split
  · refine .bind (respects_write _) fun _ => .bind (.shape _) fun amount =>
      .bind (.shape _) fun kind => ?_
    split
    · exact .bind (.shape _) fun _ => .bind (respects_write _) fun _ => respects_write _
    split
    · refine .bind (.shape _) fun _ => .bind (respects_write _) fun _ =>
        .bind (respects_write _) fun _ => ?_
      exact .bind (.shape _) fun _ => .bind (respects_write _) fun _ => respects_write _
    · exact respects_write _
  split
  · refine .bind (respects_write _) fun _ => .bind (.shape _) fun left =>
      .bind (.shape _) fun right => ?_
    refine .bind (respects_side fun _ => .halt _) fun _ => .bind (respects_write _) fun _ => ?_
    exact .bind (respects_side fun _ => .bind (.say _) fun _ => .halt _) fun _ => respects_write _
  · exact respects_report (.halt _)

theorem respects_tableText (constants : OrderedMap String String) (sig : Signature) (t : Table) :
    Respects (Draft.Alike front) (tableText constants sig t) := by
  have hselected : ∀ t, Respects (Draft.Alike front) (selected sig t) := by
    intro t
    refine .bind (.shape _) fun value => .bind (.shape _) fun rule => ?_
    split
    · refine .bind (.shape _) fun first => ?_
      split
      · refine .bind (.shape _) fun field => ?_
        split
        · exact respects_write _
        · exact respects_report (.say _)
      · exact .bind (.shape _) fun _ => respects_write _
    split
    · exact .bind (.shape _) fun _ => respects_write _
    · exact respects_report (.halt _)
  have htransition : ∀ s, Respects (Draft.Alike front) (transitionText constants sig s) := by
    intro s
    unfold transitionText
    split
    · refine .bind (respects_write _) fun _ => ?_
      split <;> exact .bind (respects_write _) fun _ => respects_write _
    · refine .bind (respects_write _) fun _ => .bind (hselected _) fun _ =>
        .bind (respects_write _) fun _ => ?_
      split
      · exact .bind (respects_write _) fun _ => respects_write _
      · exact .bind (.forM _ fun e _ => respects_write _) fun _ => respects_write _
  refine .forM _ fun e _ => ?_
  refine .bind (respects_write _) fun _ => ?_
  have hrest : Respects (Draft.Alike front) (do
      e.2.body.forM (instruction constants sig)
      transitionText constants sig e.2
      Drafting.write "    \x7d\n" : Drafting Unit) :=
    .bind (.forM _ fun t _ => respects_instruction constants sig t) fun _ =>
      .bind (htransition _) fun _ => respects_write _
  cases e.2.extracted with
  | some header => exact .bind (respects_write _) fun _ => hrest
  | none => exact hrest

end PacketParser

theorem Node.respects_headersText (l : Layout) (headerType : String) (extracted : List String) :
    Respects (Draft.Alike front) (headersText l headerType extracted) := by
  refine .forM _ fun header _ => .bind (.fault _) fun fs => ?_
  split
  · exact .throw _
  · refine .bind (respects_write _) fun _ => ?_
    split
    · exact .throw _
    · exact .bind (respects_write _) fun _ => respects_write _

end

/-! ### Nodes -/

open Alike

namespace Node

variable {front : String} {old : OrderedMap String String × OrderedMap String String}

theorem respects_putTogether (P : Plan) (node : String) : Respects (Alike front old)
    (putTogether P node) := by
  refine .bind (control_keeps Respects.sequential (fun line => respects_report (.say line))
    (fun _ _ _ => respects_read _)
    (fun _ _ _ _ => respects_read _) (respects_create _) (respects_append _)) fun _ => ?_
  exact entries_keeps Respects.sequential (fun _ _ => respects_read _)
    (fun _ => respects_readJson _) (respects_append _)

theorem respects_parseInclude (g : Grammar) (name : String) : Respects (Alike front old)
    (parseInclude w g name) := by
  refine .bind (respects_read _) fun text => ?_
  split
  · exact .pure _
  · exact .throw _

theorem respects_planned (relation : OrderedMap String RelationEntry)
    (services : OrderedMap String Service) :
    Respects (Alike front old) (planned w relation services) := by
  have hpaths : Respects (Alike front old) (readPaths w) := by
    refine .bind (respects_readJson _) fun file => .bind (respects_create _ _) fun _ =>
      .bind (.mismatch _) fun lists => ?_
    refine .bind (respects_create _ _) fun _ => .bind (respects_create _ _) fun _ =>
      .bind (.mismatch _) fun survey => ?_
    exact .bind (respects_create _ _) fun _ => .pure _
  refine .bind hpaths fun read => .bind (.fault _) fun assignment =>
    .bind (respects_create _ _) fun _ => ?_
  exact .bind (.fault _) fun overview => .bind (respects_create _ _) fun _ => .pure _

end Node

/-! ### Definitions -/

namespace Definitions

theorem add_eq (t : Tree) : (∃ x, ∀ d, add d t = .error x) ∨ (∀ d, add d t = .ok none) ∨
    (∃ name type, ∀ d, add d t = .ok (some ⟨(d.types.insert name type).insert "bool" "bit<1>",
      d.constants⟩)) ∨
    ∃ name value, ∀ d, add d t = .ok (some ⟨d.types.insert "bool" "bit<1>",
      d.constants.insert name value⟩) := by
  unfold add
  cases hkind : t.rule? with
  | error x => exact .inl ⟨x, fun _ => rfl⟩
  | ok kind =>
    simp only [bind, Except.bind]
    by_cases htype : kind = "type_define"
    · simp only [if_pos htype]
      cases t.textAt? [1] with
      | error x => exact .inl ⟨x, fun _ => rfl⟩
      | ok name =>
        cases t.textAt? [0] with
        | error x => exact .inl ⟨x, fun _ => rfl⟩
        | ok type => exact .inr (.inr (.inl ⟨name, type, fun _ => rfl⟩))
    · simp only [if_neg htype]
      by_cases hconstant : kind = "const_define"
      · simp only [if_pos hconstant]
        cases t.textAt? [1, 0, 0] with
        | error x => exact .inl ⟨x, fun _ => rfl⟩
        | ok name =>
          cases t.textAt? [2, 0, 0] with
          | error x => exact .inl ⟨x, fun _ => rfl⟩
          | ok value => exact .inr (.inr (.inr ⟨name, value, fun _ => rfl⟩))
      · simp only [if_neg hconstant]
        exact .inr (.inl fun _ => rfl)

theorem addAll_cons (h : add d t = .ok (some d')) (ts : List Tree) :
    addAll d (t :: ts) = addAll d' ts := by
  rw [addAll, h]
  rfl

/-- **Definitions are added to older constants as to none**, and what is not defined anew stays as
it was. -/
theorem addAll_over (old : OrderedMap String String) :
    ∀ (ts : List Tree) {d e : Definitions}, d.types = e.types →
    (∀ n, d.constants.find? n = (e.constants.find? n).or (old.find? n)) →
    (∃ x, addAll d ts = .error x ∧ addAll e ts = .error x) ∨
      ∃ d' e' bad, addAll d ts = .ok (d', bad) ∧ addAll e ts = .ok (e', bad) ∧ d'.types = e'.types ∧
        ∀ n, d'.constants.find? n = (e'.constants.find? n).or (old.find? n) := by
  intro ts
  induction ts with
  | nil => exact fun htypes hold => .inr ⟨_, _, none, rfl, rfl, htypes, hold⟩
  | cons t ts ih =>
    intro d e htypes hold
    obtain ⟨x, hadd⟩ | hadd | ⟨name, type, hadd⟩ | ⟨name, value, hadd⟩ := add_eq t
    · exact .inl ⟨x, by rw [addAll, hadd]; rfl, by rw [addAll, hadd]; rfl⟩
    · exact .inr ⟨d, e, some t, by rw [addAll, hadd]; rfl, by rw [addAll, hadd]; rfl, htypes, hold⟩
    · rw [addAll_cons (hadd d), addAll_cons (hadd e)]
      exact ih (by rw [htypes]) hold
    · rw [addAll_cons (hadd d), addAll_cons (hadd e)]
      refine ih (by rw [htypes]) fun n => ?_
      rw [find?_insert, find?_insert, hold]
      split <;> rfl

end Definitions

namespace Run

theorem readDefinitions_eq {text : String} {cs : List Tree}
    (hparse : Language.definitions.parse text = .ok tree) (hcs : tree.children? = .ok cs)
    (s : Session) :
    readDefinitions text s = match Definitions.addAll ⟨{}, s.constants⟩ cs with
      | .error x => .error (.shape x) s
      | .ok (d, none) => .ok d.types { s with constants := d.constants }
      | .ok (d, some b) =>
        (do Report.halt s!"666565 {← b.rule?}" : Run _) { s with constants := d.constants } := by
  unfold readDefinitions
  rw [hparse]
  simp only [hcs]
  show (liftM (Definitions.addAll ⟨{}, s.constants⟩ cs) >>= _ : Run _) s = _
  cases Definitions.addAll ⟨{}, s.constants⟩ cs with
  | error x => rfl
  | ok r =>
    obtain ⟨d, bad⟩ := r
    cases bad with
    | none => rfl
    | some b => rfl

/-- **Definitions are read in the same way whatever was defined before**, and the same constants are
defined. -/
theorem readDefinitions_matched {front : String} {before : OrderedMap String String} {s t : Session}
    (h : Alike front (before, {}) s t) (text : String) :
    Matched (fun s t => ∃ old, Alike front old s t) (readDefinitions text s)
    (readDefinitions text t) ∧
      ∀ {types : OrderedMap String String}
      {s' t' : Session}, readDefinitions text s = .ok types s' →
        readDefinitions text t = .ok types t' →
        ∃ tree cs d, Language.definitions.parse text = .ok tree ∧ tree.children? = .ok cs ∧
          Definitions.addAll .empty cs = .ok (d, none) ∧ t'.constants = d.constants ∧
          ∀ n, s'.constants.find? n = (d.constants.find? n).or (before.find? n) := by
  obtain ⟨hbefore, hnone⟩ := Prod.mk.inj h.constants
  cases hparse : Language.definitions.parse text with
  | error e =>
    have heq : readDefinitions text = throw (.refusedText e) := by
      unfold readDefinitions
      rw [hparse]
    rw [heq]
    exact ⟨.error ⟨_, h⟩, fun hok => absurd hok throw_ne_ok⟩
  | ok tree =>
    cases hcs : tree.children? with
    | error x =>
      have heq : ∀ s, readDefinitions text s = .error (.shape x) s := by
        intro s
        unfold readDefinitions
        rw [hparse]
        simp only [hcs]
        rfl
      rw [heq, heq]
      exact ⟨.error ⟨_, h⟩, fun hok => by cases hok⟩
    | ok cs =>
      rw [readDefinitions_eq hparse hcs, readDefinitions_eq hparse hcs, hbefore, hnone]
      obtain ⟨x, hs, ht⟩ | ⟨d, e, bad, hs, ht, htypes, hover⟩ := Definitions.addAll_over before cs
        (d := ⟨{}, before⟩) (e := .empty) rfl fun n => rfl
      · rw [hs, show (⟨{}, {}⟩ : Definitions) = .empty from rfl, ht]
        exact ⟨.error ⟨_, h⟩, fun hok => by cases hok⟩
      · have hdefined : Alike front (d.constants, e.constants) { s with constants := d.constants }
            { t with constants := e.constants } :=
          { h with constants := rfl }
        rw [hs, show (⟨{}, {}⟩ : Definitions) = .empty from rfl, ht]
        cases bad with
        | none =>
          dsimp only
          rw [htypes]
          refine ⟨.ok ⟨_, hdefined⟩, fun hs' ht' => ?_⟩
          cases hs'
          cases ht'
          exact ⟨tree, cs, e, rfl, hcs, ht, rfl, hover⟩
        | some b =>
          have hhalt : ∀ old, Respects (Alike front old)
              (do Report.halt s!"666565 {← b.rule?}" : Run (OrderedMap String String)) :=
            fun _ => .bind (.shape _) fun _ => respects_report (.halt _)
          refine ⟨(hhalt _ _ _ hdefined).mono fun _ _ h => ⟨_, h⟩, fun hs' _ => ?_⟩
          obtain ⟨_, _, _, hs'⟩ := bind_eq_ok.mp hs'
          obtain ⟨_, hs', _⟩ := Run.report_eq_ok.mp hs'
          exact absurd hs' halt_ne_ok

end Run

namespace Node

variable {front : String} {old : OrderedMap String String × OrderedMap String String}
  {s t s' : Session} {P : Plan}

/-- Reads the header and parser definitions of a project. -/
def describe (P : Plan) (types : OrderedMap String String) :
    Run (List (String × List String) × Layout × Tree × PacketParser.Signature × List String) := do
  let used ← P.topology.keys.mapM fun n => do pure (n, ← (usedHeaders P n : Except Fault _))
  let layout ← Layout.collect types (← parseInclude P.workspace Language.headers "header.pne")
  let tree ← parseInclude P.workspace Language.states "parser.pne"
  let sig ← PacketParser.signature tree
  let deparser ← PacketParser.deparser sig layout tree
  pure (used, layout, tree, sig, deparser)

/-- Writes what is described for every node. -/
def writeDescribed (P : Plan) (used : List (String × List String)) (layout : Layout) (tree : Tree)
    (sig : PacketParser.Signature) (deparser : List String) (constants : OrderedMap String String) :
    Run String := do
  let table ← PacketParser.table constants sig layout tree
  let extracted ← used.mapM fun (node, hs) => do
    let pruned ← PacketParser.prune hs table
    Run.draft (P.workspace.codeFile node "parser") (PacketParser.tableText constants sig pruned)
    pure (node, PacketParser.extractedHeaders pruned)
  extracted.forM fun (node, hs) => do
    Run.create (P.workspace.codeFile node "header") ""
    Run.draft (P.workspace.codeFile node "header") (headersText layout sig.headerType hs)
  extracted.forM fun (node, hs) =>
    Run.append (P.workspace.codeFile node "header") (structsText layout sig.headerType hs)
  extracted.forM fun (node, hs) =>
    Run.append (P.workspace.codeFile node "deparser") (deparserText sig.headerName deparser hs)
  pure sig.headerType

theorem parsers_eq (P : Plan) (types : OrderedMap String String) :
    parsers P types = (do
      let (used, layout, tree, sig, deparser) ← describe P types
      writeDescribed P used layout tree sig deparser (← get).constants) := by
  simp only [parsers, describe, writeDescribed, bind_assoc, pure_bind]

theorem respects_describe (types : OrderedMap String String) : Respects (Alike front old)
    (describe P types) := by
  refine .bind (.mapM _ fun n _ => .bind (.fault _) fun _ => .pure _) fun used => ?_
  refine .bind (respects_parseInclude _ _) fun t =>
    .bind (respects_report (Layout.collect_blind types t)) fun layout => ?_
  refine .bind (respects_parseInclude _ _) fun tree => .bind (.shape _) fun sig => ?_
  exact .bind (respects_report (PacketParser.deparser_blind sig layout tree)) fun _ => .pure _

section

variable {used : List (String × List String)} {layout : Layout} {tree : Tree}
  {sig : PacketParser.Signature} {deparser : List String}

/-- **What is written depends on the constants that the parser definition mentions**, and on those
that their values name. -/
theorem writeDescribed_congr {K K' : OrderedMap String String}
    (hmentions : ∀ n, tree.Mentions n → K'.find? n = K.find? n)
    (hselects : ∀ n, PacketParser.Selects K tree n → K'.find? n = K.find? n) :
    writeDescribed P used layout tree sig deparser K' =
      writeDescribed P used layout tree sig deparser K := by
  have htext : ∀ {tbl pruned : PacketParser.Table} {hs : List String} {c c' : String},
      PacketParser.table K sig layout tree c = .ok tbl c' →
      PacketParser.prune hs tbl = .ok pruned →
        PacketParser.tableText K' sig pruned = PacketParser.tableText K sig pruned := by
    intro tbl pruned hs c c' htable hprune
    have hcollected := PacketParser.table_collected htable
    rw [hcollected.prune_eq_kept] at hprune
    obtain rfl := Except.ok.inj hprune
    have hnodup : (PacketParser.kept hs tbl).keys.Nodup := by
      rw [PacketParser.kept, PacketParser.keys_thinned]
      exact List.Nodup.sublist (List.filter_sublist.map _) hcollected.nodup
    funext d
    refine forM_congr (fun e he d => ?_) d
    obtain ⟨s0, h0, _, heq⟩ := hcollected.find?_kept.mp ((mem_entries_iff hnodup e.1 e.2).mp he)
    have htaken := PacketParser.table_takenFrom htable h0
    refine PacketParser.stateText_congr (fun b hb n hn => ?_) (fun x hx => ?_) e.1 d
    · rw [heq] at hb
      exact hmentions n (htaken.body b hb n hn)
    · rw [heq] at hx
      exact hselects x.2 (htaken.next x (List.mem_of_mem_filter hx))
  funext s
  refine bind_congr (by rw [PacketParser.table_congr hmentions]) fun tbl s1 htable => ?_
  rw [PacketParser.table_congr hmentions] at htable
  obtain ⟨c, htable, _⟩ := Run.report_eq_ok.mp htable
  refine bind_congr (mapM_congr (fun e _ s => bind_congr rfl fun pruned s2 hprune => ?_) s1)
    fun _ _ _ => rfl
  rw [htext htable (lift_fault_eq_ok.mp hprune).1]

theorem respects_writeDescribed (constants : OrderedMap String String) :
    Respects (Alike front old) (writeDescribed P used layout tree sig deparser constants) := by
  refine .bind (respects_report (PacketParser.table_blind constants sig layout tree)) fun tbl =>
    .bind ?_ fun extracted => ?_
  · refine .mapM _ fun e _ => .bind (.fault _) fun pruned => ?_
    exact .bind (respects_draft _ (PacketParser.respects_tableText constants sig pruned))
      fun _ => .pure _
  refine .bind (.forM _ fun e _ => .bind (respects_create _ _) fun _ => ?_) fun _ => ?_
  · exact respects_draft _ (respects_headersText layout sig.headerType e.2)
  · exact .bind (.forM _ fun e _ => respects_append _ _) fun _ =>
      .bind (.forM _ fun e _ => respects_append _ _) fun _ => .pure _

end

/-! ### All nodes -/

theorem putTogether_leaves (s0 : Session) (P : Plan) (node : String) :
    Run.Leaves (fun q => ¬ IsMade q) s0 (putTogether P node) := by
  have hmade : ∀ part, "_" ++ part ∈ madeEndings →
      ∀ p, s0.disk.locate s0.home (P.workspace.codeFile node part) = .ok p →
      ¬ ¬ IsMade p := by
    intro part hpart p hp
    have hendings : ∀ b ∈ madeEndings, IsEnding b := by decide
    exact not_not.mpr ⟨_, hpart, endsWith_of_code rfl (hendings _ hpart) hp⟩
  refine .bind (control_leaves s0 P node (hmade "control" (by decide))) fun _ => ?_
  exact entries_keeps Run.Leaves.sequential (fun _ _ => .read _) (fun _ => .readJson _)
    (.append (hmade "entry" (by decide)))

/-- The tree of a file of the project. -/
def Reads (w : Workspace) (s : Session) (g : Grammar) (name : String) (t : Tree) : Prop :=
  ∃ text, Run.read (w.projectFile ("include//" ++ name)) s = .ok text s ∧ g.parse text = .ok t

theorem Reads.unique {w : Workspace} {s : Session} {g : Grammar} {name : String} {t t' : Tree}
    (h : Reads w s g name t) (h' : Reads w s g name t') : t = t' := by
  obtain ⟨text, hread, hparse⟩ := h
  obtain ⟨text', hread', hparse'⟩ := h'
  rw [hread] at hread'
  cases hread'
  exact Except.ok.inj (hparse.symm.trans hparse')

/-- The definitions of the project, as far as they are understood. -/
def Gives (w : Workspace) (s : Session) (d : Definitions) : Prop :=
  ∃ t cs bad, Reads w s Language.definitions "define.pne" t ∧ t.children? = .ok cs ∧
    Definitions.addAll .empty cs = .ok (d, bad)

theorem Gives.unique (h : Gives w s d) (h' : Gives w s d') : d = d' := by
  obtain ⟨t, cs, bad, hreads, hcs, hadd⟩ := h
  obtain ⟨t', cs', bad', hreads', hcs', hadd'⟩ := h'
  obtain rfl := hreads.unique hreads'
  obtain rfl := Except.ok.inj (hcs.symm.trans hcs')
  exact congrArg Prod.fst (Except.ok.inj (hadd.symm.trans hadd'))

/-- The project defines a constant. -/
def Defines (w : Workspace) (s : Session) (n : String) : Prop :=
  ∃ d, Gives w s d ∧ n ∈ d.constants.keys

/--
A name that is looked up among the constants has to be one of these: the word `default`, the value
of a constant that the project defines, or a text of the parser.
-/
def Names (w : Workspace) (s : Session) (n : String) : Prop :=
  n = PacketParser.defaultWord ∨ (∃ d m, Gives w s d ∧ d.constants.find? m = some n) ∨
    ∃ t, Reads w s Language.states "parser.pne" t ∧ t.Mentions n

variable {w : Workspace} {relation : OrderedMap String RelationEntry}
  {services : OrderedMap String Service}

theorem describe_eq_ok {types : OrderedMap String String} {used : List (String × List String)}
    {layout : Layout} {sig : PacketParser.Signature} {deparser : List String} {s' : Session}
    (h : describe P types s = .ok (used, layout, tree, sig, deparser) s') :
    used.map (·.1) = P.topology.keys ∧
      (∀ e ∈ used, usedHeaders P e.1 = .ok e.2) ∧
        (∃ headers c c', Layout.collect types headers c = .ok layout c') ∧
      Reads P.workspace s Language.states "parser.pne" tree := by
  obtain ⟨used', s1, hused, h⟩ := bind_eq_ok.mp h
  obtain ⟨headers, s2, hheaders, h⟩ := bind_eq_ok.mp h
  obtain ⟨_, s3, hlayout, h⟩ := bind_eq_ok.mp h
  obtain ⟨tree', s4, htree, h⟩ := bind_eq_ok.mp h
  obtain ⟨_, _, _, h⟩ := bind_eq_ok.mp h
  obtain ⟨_, _, heq⟩ := bind_pure_eq_ok.mp h
  cases heq
  obtain ⟨c, hcollect, _⟩ := Run.report_eq_ok.mp hlayout
  refine ⟨?_, fun e he => ?_, ⟨headers, s2.console, c, hcollect⟩, ?_⟩
  · rw [map_eq_of_mapM (g := id) (fun n s e s' h => ?_) _ hused, List.map_id]
    obtain ⟨_, _, rfl⟩ := bind_pure_eq_ok.mp h
    rfl
  · obtain ⟨n, _, _, _, hstep⟩ := mem_of_mapM hused e he
    obtain ⟨hs, hlift, rfl⟩ := bind_pure_eq_ok.mp hstep
    exact (lift_fault_eq_ok.mp hlift).1
  · have hL : Sequential (Run.Leaves (fun _ => True) s) := Run.Leaves.sequential
    have hkeep : Run.Leaves (fun _ => True) s (do
        let used ← P.topology.keys.mapM fun n => do pure (n, ← (usedHeaders P n : Except Fault _))
        let layout ← Layout.collect types (← parseInclude P.workspace Language.headers "header.pne")
        pure (used, layout) : Run (List (String × List String) × Layout)) :=
      .bind (hL.mapM _ fun n _ => .bind (hL.fault _) fun _ => .pure _) fun _ =>
        .bind (parseInclude_leaves s _ _ _) fun _ =>
        .bind (.report _) fun _ => .pure _
    have hkeeps := hkeep s (used, layout) s3 rfl rfl
      (bind_eq_ok.mpr ⟨_, _, hused,
        bind_eq_ok.mpr ⟨_, _, hheaders, bind_eq_ok.mpr ⟨_, _, hlayout, rfl⟩⟩⟩)
    obtain ⟨text, s3', hread, hparse⟩ := bind_eq_ok.mp htree
    obtain rfl := Run.read_stays hread
    refine ⟨text, (hkeeps.read_eq_ok fun _ _ => trivial).mp hread, ?_⟩
    cases hresult : Language.states.parse text with
    | ok tree' =>
      rw [hresult] at hparse
      obtain ⟨rfl, _⟩ := pure_eq_ok.mp hparse
      rfl
    | error e =>
      rw [hresult] at hparse
      exact absurd hparse throw_ne_ok

theorem parsers_matched (h : Alike front old s t)
    (hsame : ∀ tree, Reads P.workspace s Language.states "parser.pne" tree →
      ∀ n, PacketParser.Selects old.2 tree n → old.1.find? n = old.2.find? n)
      (types : OrderedMap String String) :
    Matched (Alike front old) (parsers P types s) (parsers P types t) := by
  rw [parsers_eq]
  refine (respects_describe types s t h).bind (fun _ _ => id)
    fun described s1 t1 hdescribe _ h1 => ?_
  obtain ⟨used, layout, tree, sig, deparser⟩ := described
  obtain ⟨_, _, _, hreads⟩ := describe_eq_ok hdescribe
  obtain rfl := h1.constants
  have hwrite : writeDescribed P used layout tree sig deparser s1.constants =
      writeDescribed P used layout tree sig deparser t1.constants :=
    writeDescribed_congr (fun n hn => hsame tree hreads n (.text hn)) (hsame tree hreads)
  show Matched _ (writeDescribed P used layout tree sig deparser s1.constants s1)
    (writeDescribed P used layout tree sig deparser t1.constants t1)
  rw [hwrite]
  exact respects_writeDescribed _ s1 t1 h1

/-- What follows once the definitions are known. -/
def finish (w : Workspace) (relation : OrderedMap String RelationEntry)
    (services : OrderedMap String Service) (types : OrderedMap String String) : Run String := do
  let p ← planned w relation services
  p.topology.keys.forM (putTogether p)
  parsers p types

theorem assemble_eq_finish (w : Workspace) (relation : OrderedMap String RelationEntry)
    (services : OrderedMap String Service) :
    assemble w relation services = (do
      Report.say "aggregate..."
      let text ← Run.read (w.projectFile "include//define.pne")
      let types ← Run.readDefinitions text
      finish w relation services types) := by
  simp only [assemble_eq, finish, plan, bind_assoc, pure_bind]

theorem finish_matched (h : Alike front old s t)
    (hsame : ∀ tree, Reads w s Language.states "parser.pne" tree →
      ∀ n, PacketParser.Selects old.2 tree n → old.1.find? n = old.2.find? n)
      (types : OrderedMap String String) :
    Matched (Alike front old) (finish w relation services types s)
    (finish w relation services types t) := by
  refine (respects_planned relation services s t h).bind
    (fun _ _ => id) fun P s1 t1 hplanned _ h1 => ?_
  have hall : Respects (Alike front old) (P.topology.keys.forM (putTogether P)) :=
    .forM _ fun node _ => respects_putTogether P node
  refine (hall s1 t1 h1).bind (fun _ _ => id) fun _ s2 t2 hput _ h2 => ?_
  have hmade : ∀ b ∈ ["path.json", "topo.json", "path-result.json"], ∀ q, EndsWith q b →
      ¬ ¬ IsMade q := fun b hb q hq =>
    not_not.mpr ⟨b, List.mem_of_mem_take (i := 3) hb, hq⟩
  have hkeeps1 := planned_leaves s hmade w relation services s P s1 rfl rfl hplanned
  have hkeeps2 := Run.Leaves.sequential.forM P.topology.keys
    (fun node _ => putTogether_leaves s1 P node) s1 _ s2 rfl rfl hput
  refine parsers_matched h2 ?_ types
  -- the parser definition is none of the files that were written
  rintro tree ⟨text, hread, hparse⟩
  rw [(planned_eq_ok hplanned).workspace] at hread
  refine hsame tree ⟨text, ((hkeeps1.trans hkeeps2).read_eq_ok fun q hq => ?_).mp hread, hparse⟩
  have hpath : w.projectFile ("include//" ++ "parser.pne") = w.project ++ "//include//" ++
      "parser.pne" := by
    rw [Workspace.projectFile, append_assoc, append_assoc]
    rfl
  rw [hpath] at hq
  exact not_isMade_of_endsWith (endsWith_of_locate (by decide) hq) (by decide)

/--
**Nodes are put together in the same way from sessions that are alike**, if one of them is fresh and
the project defines all constants itself that it names.
-/
theorem assemble_matched {before : OrderedMap String String} (h : Alike front (before, {}) s t)
    (hold : ∀ n ∈ before.keys, Names w s n → Defines w s n) :
    Matched (fun s t => ∃ old, Alike front old s t) (assemble w relation services s)
    (assemble w relation services t) := by
  rw [assemble_eq_finish]
  refine (respects_report (.say _) s t h).bind (fun _ _ h => ⟨_, h⟩) fun _ s1 t1 hsay _ h1 => ?_
  refine (respects_read _ s1 t1 h1).bind (fun _ _ h => ⟨_, h⟩) fun text s2 t2 hread hread' h2 => ?_
  obtain rfl := Run.read_stays hread
  obtain rfl := Run.read_stays hread'
  have hkeeps1 : KeepsFiles (fun _ => True) s s1 := Run.Leaves.report _ s _ s1 rfl rfl hsay
  obtain ⟨hmatched, hboth⟩ := Run.readDefinitions_matched h2 text
  refine hmatched.bind (fun _ _ => id) fun types s3 t3 hdefinitions hdefinitions' h3 => ?_
  obtain ⟨tree, cs, d, hparse, hcs, hadd, hnew, hover⟩ := hboth hdefinitions hdefinitions'
  obtain ⟨_, h3⟩ := h3
  obtain rfl := h3.constants
  have hkeeps3 := hkeeps1.trans (readDefinitions_leaves s1 text s1 _ s3 rfl rfl hdefinitions)
  have hgives : Gives w s d := ⟨tree, cs, none,
    ⟨text, (hkeeps1.read_eq_ok fun _ _ => trivial).mp hread, hparse⟩, hcs, hadd⟩
  -- the constants agree, but for old ones that are not named
  have hnames : ∀ n, Names w s n → s3.constants.find? n = t3.constants.find? n := by
    intro n hn
    rw [hover, hnew]
    by_cases hmem : n ∈ before.keys
    · obtain ⟨d', hgives', hn'⟩ := hold n hmem hn
      obtain rfl := hgives.unique hgives'
      obtain ⟨c, hc⟩ := (mem_keys_iff _ n).mp hn'
      rw [hc]
      rfl
    · rw [(find?_eq_none_iff _ n).mpr hmem, Option.or_none]
  refine (finish_matched h3 ?_ types).mono fun _ _ h => ⟨_, h⟩
  rintro tree' ⟨text', hread', hparse'⟩ n hn
  refine hnames n ?_
  have hreads : Reads w s Language.states "parser.pne" tree' :=
    ⟨text', (hkeeps3.read_eq_ok fun _ _ => trivial).mp hread', hparse'⟩
  cases hn with
  | default => exact .inl rfl
  | text hn => exact .inr (.inr ⟨tree', hreads, hn⟩)
  | constant _ hn => exact .inr (.inl ⟨d, _, hgives, hnew ▸ hn⟩)

end Node

end Pathwise
