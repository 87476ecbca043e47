import Pathwise.Proofs.Fragment.TableParts

/-!
# The four tables

Look-ups, membership tests, ifs and switches are written as tables.

* `lookup_sound`: the table of an assignment from a map.
* `membership_sound`: the table that sets the flag of a membership test.
* `table_sound`: the table of an if that fits into one.
* `switch_sound`: the table of a switch.
-/

namespace Pathwise

open Steps List

/-- The maps and sets of the scope belong to modules. -/
def Setting.Offers (S : Setting) (sc : Scope) : Prop :=
  ∀ t l, sc.maps.find? t = some l ∨ sc.sets.find? t = some l → HasLookup S.modules l

theorem Scope.known_of_mapM {sc : Scope} :
    ∀ {ts : List Tree} {os : List Operand}, ts.mapM sc.operand? = some os →
      ∀ o ∈ os, sc.Known o := by
  intro ts
  induction ts with
  | nil =>
    rintro _ ⟨⟩
    exact forall_mem_nil _
  | cons t ts ih =>
    intro os h
    simp only [mapM_cons, Option.bind_eq_bind, Option.bind_eq_some_iff, Option.pure_def,
      Option.some.injEq] at h
    obtain ⟨o, ho, os, hos, rfl⟩ := h
    exact forall_mem_cons.mpr ⟨known_of_operand? ho, ih hos⟩

namespace Emit

variable {sc : Scope} {site : Site} {S : Setting} {g g' : Generation} {u : Unit}

/-! ### Look-ups -/

/-- What is written for a target of an assignment from a map. -/
def targetPieces (sc : Scope) (x : Tree × Nat) : List Piece :=
  match sc.operand? x.1 with
  | some o => [.indent 1, .operand o, .assignSign, .param x.2, .endStatement]
  | none => []

theorem isPlain_targetPieces (sc : Scope) (xs : List (Tree × Nat)) :
    ∀ p ∈ xs.flatMap (targetPieces sc), p.IsPlain sc := by
  refine forall_mem_flatMap.mpr fun x _ => ?_
  unfold targetPieces
  cases ho : sc.operand? x.1 with
  | none => exact forall_mem_nil _
  | some o => exact Piece.forall_isPlain rfl (by simpa using Scope.known_of_operand? ho)

theorem lookup_eq_ok {targets : List Tree} {source : Tree} {name : String} {map : Lookup}
    (h : lookup sc site targets source name map g = .ok u g') :
    ∃ (table a : String) (keys : List Operand) (params : List Piece), (∀ o ∈ keys, sc.Known o) ∧
      (∀ p ∈ params, p.isActionParam = true) ∧ RowsFit keys.length params.length map.entries ∧
      Performs site.fragment g (tableEffect table []
        (keys.flatMap fun o => [.keyMargin, .operand o, .keyEnd, .sectionClose])
        (actionEffect a params (.write .action (targets.zipIdx.flatMap (targetPieces sc)))
          (map.entries.map (.ofRow table a (keys.map (·.text))))) none [.apply table]) g' := by
  simp only [lookup, bind_eq_ok] at h
  obtain ⟨_, g1, h1, table, g2, h2, ixs, g3, h3, keys, g4, h4, _, g5, h5, _, g6, h6, _, g7, h7,
    a, g8, h8, params, g9, h9, _, g10, h10, _, g11, h11, _, g12, h12, _, g13, h13, _, g14, h14,
    h15⟩ := h
  have hkey : ∀ (ix : Tree) (g : Generation) (o : Operand) (g' : Generation), (do
      let o ← (sc.resolve (← ix.child? 0) : Report Operand)
      if o.kind == .header || o.kind == .var || o.kind == .packet then pure o
      else Report.halt s!"error-generate-ins-assign what key {o.kind.name}" : Gen Operand) g =
        .ok o g' →
      Performs site.fragment g .empty g' ∧ sc.Known o := by
    intro ix g o g' h
    simp only [bind_eq_ok] at h
    obtain ⟨t, g1, h1, o', g2, h2, h⟩ := h
    obtain ⟨_, rfl⟩ := lift_shape_eq_ok.mp h1
    split at h
    · obtain ⟨rfl, rfl⟩ := pure_eq_ok.mp h
      exact ⟨.report h2, Scope.known_of_operand? (Gen.quiet_eq_ok (sc.resolve_quiet t) h2)⟩
    · exact absurd h Gen.lift_halt_ne_ok
  have p4 := Performs.mapM (fun ix g o g' h => (hkey ix g o g' h).1) h4
  obtain ⟨_, hkeys⟩ := mapM_all _ _ (fun ix _ g o g' h => (hkey ix g o g' h).2) h4
  obtain ⟨_, p7⟩ := Performs.forIn (f := site.fragment) .table
    (fun o => [.keyMargin, .operand o, .keyEnd, .sectionClose])
    (fun _ => True) (fun o g r g' hpass => by
      obtain ⟨_, h, rfl⟩ := bind_pure_eq_ok.mp hpass
      exact ⟨rfl, trivial, .emit h⟩) _ h7
  obtain ⟨p9, hlen, hparams⟩ := actionParams_eq_ok h9
  obtain ⟨_, p11⟩ := Performs.forIn (f := site.fragment) .action (targetPieces sc) (fun _ => True)
    (fun x g r g' hpass => by
      simp only [bind_eq_ok, pure_eq_ok] at hpass
      obtain ⟨o, g1, h1, _, g2, h2, _, g3, h3, rfl, rfl⟩ := hpass
      have ho := Gen.quiet_eq_ok (sc.resolve_quiet x.1) h1
      have p := (((Performs.report h1).silent (.recordOutput h2)).trans (.emit h3)).congr
        (Effect.empty_append _)
      rw [targetPieces, show sc.operand? x.1 = some o from ho]
      exact ⟨rfl, trivial, p⟩) _ h11
  obtain ⟨hrows, p14⟩ := entries_eq_ok h14
  rw [length_map, length_map, length_range, ← hlen] at hrows
  have p := ((((((Performs.recordTable h1).silent (.drawTable h2)).silent
    (.report h3)).silent p4).silent
    (recordInputs_eq_ok h5)).trans (.emit h6)).trans p7 |>.trans
      (.drawAction h8) |>.silent p9 |>.trans (.emit h10) |>.trans p11
    |>.trans (.emit h12) |>.trans (.emit h13) |>.trans p14 |>.trans (.emit h15)
  refine ⟨table, a, keys, params, hkeys, hparams, hrows, p.congr ?_⟩
  refine Effect.ext (funext fun kind => ?_) (funext fun scope => ?_) ?_ ?_ ?_
  · cases kind <;> simp [tableEffect, actionEffect, tableEnd]
  all_goals simp [tableEffect, actionEffect]

/-- **The table of an assignment from a map.** -/
theorem lookup_sound (targets : List Tree) (source : Tree) (name : String) {map : Lookup}
    (hmap : HasLookup S.modules map) :
    Keeps site.fragment (Sound S sc) (lookup sc site targets source name map) fun _ => True := by
  intro g u g' h
  obtain ⟨table, a, keys, params, hkeys, hparams, hrows, p⟩ := lookup_eq_ok h
  rw [← length_map Operand.text] at hrows
  have hpart : Part S (fun v => sc.Binds v ∨ S.literal v) table _ :=
    .action hparams (.plain (fun _ => .inl) (isPlain_targetPieces sc targets.zipIdx))
      (.of_rows (a := a) hmap hrows)
  refine ⟨_, p, trivial, .of_part hpart (fun _ => .inl) ?_ (by simp) rfl (fun _ => .inl) rfl
    (forall_mem_nil _)⟩
  exact forall_mem_flatMap.mpr fun o ho => Piece.isKeyPart_keyLine (hkeys o ho) rfl

/-! ### Membership tests -/

theorem membershipKeys_eq_ok : ∀ (left : List Tree) {texts : List String} {g g' : Generation},
    (left.mapM fun t => do
      Gen.emit (site.key .table) [.keyMargin]
      let o ← operand .write sc (site.key .table) t
      Gen.recordInput site.fragment o.text
      Gen.emit (site.key .table) [.keyEnd]
      pure o.text : Gen (List String)) g = .ok texts g' →
    ∃ os, left.mapM sc.operand? = some os ∧ texts = os.map (·.text) ∧
      Performs site.fragment g (.write .table (keyLines os)) g' := by
  intro left
  induction left with
  | nil =>
    intro texts g g' h
    obtain ⟨rfl, rfl⟩ := pure_eq_ok.mp h
    exact ⟨[], rfl, rfl, Effect.write_nil .table ▸ .refl _ g⟩
  | cons t left ih =>
    intro texts g g' h
    rw [mapM_cons] at h
    simp only [bind_eq_ok, pure_eq_ok] at h
    obtain ⟨_, g1, ⟨_, g2, h2, o, g3, h3, _, g4, h4, _, g5, h5, rfl, rfl⟩, texts', g6, h6,
      rfl, rfl⟩ := h
    obtain ⟨ho, p3⟩ := operand_eq_ok h3
    obtain ⟨os, hos, rfl, p6⟩ := ih h6
    refine ⟨o :: os, by rw [mapM_cons, ho, hos]; rfl, rfl, ?_⟩
    exact ((((Performs.emit h2).append p3).silent (.recordInput h4)).append (.emit h5)).append p6

/-- What the two actions of a membership test add, and the entries, which all run the second of
them. -/
def flagParts (table hit miss : String) (keys : List String) (rows : List (List String)) : Effect :=
  actionEffect hit [] (.write .action [.setFlag (table ++ "_data") true]) [] ++
    actionEffect miss [] (.write .action [.setFlag (table ++ "_data") false])
      (rows.map fun row => { Entry.ofRow table miss keys row with params := [] })

theorem flagAction_eq_ok {table flag a : String} {value : Bool}
    (h : flagAction site table flag value g = .ok a g') :
    Performs site.fragment g (.draw a ++ .write .action
      [.actionHead a, .actionBody, .setFlag flag value, .blockClose]) g' := by
  obtain ⟨b, g1, h1, h⟩ := bind_eq_ok.mp h
  obtain ⟨_, h2, rfl⟩ := bind_pure_eq_ok.mp h
  exact (Performs.drawAction h1).trans (.emit h2)

theorem membership_eq_ok {c : Condition} (h : membership sc site c g = .ok u g') :
    ∃ table hit miss os rows, c.left.mapM sc.operand? = some os ∧ Performs site.fragment g
      (tableEffect table [.declare "bit<1>" (table ++ "_data")] (keyLines os ++ [.sectionClose])
        (flagParts table hit miss (os.map (·.text)) rows) (some miss)
        [.indent site.level, .apply table, .indent site.level, .ifFlag (table ++ "_data")]) g' := by
  simp only [membership, bind_eq_ok] at h
  obtain ⟨right, g1, h1, name, g2, h2, h⟩ := h
  cases hm : (sc.maps.find? name).orElse fun _ => sc.sets.find? name with
  | none =>
    rw [hm] at h
    obtain ⟨_, _, h, _⟩ := bind_eq_ok.mp h
    exact absurd h Gen.lift_halt_ne_ok
  | some m =>
  rw [hm] at h
  simp only [bind_eq_ok, pure_eq_ok] at h
  obtain ⟨rows, _, ⟨rfl, rfl⟩, table, g4, h4, _, g5, h5, _, g6, h6, hit, g7, h7, miss, g8, h8, _,
    g9, h9, keys, g10, h10, _, g11, h11, _, g12, h12, _, g13, h13, h14⟩ := h
  obtain ⟨os, hos, rfl, p10⟩ := membershipKeys_eq_ok c.left h10
  obtain ⟨_, p13⟩ := Performs.forIn (f := site.fragment) .entry
    (fun row => [.entry { Entry.ofRow table miss (os.map (·.text)) row with params := [] }])
      (fun _ => True)
    (fun row g r g' hpass => by
      simp only [bind_eq_ok, pure_eq_ok] at hpass
      obtain ⟨e, g3, h3, _, g4, h4, rfl, rfl⟩ := hpass
      obtain ⟨_, rfl, rfl⟩ := rowEntry_eq_ok h3
      exact ⟨rfl, trivial, .emit h4⟩) _ h13
  rw [← map_eq_flatMap] at p13
  have p := ((((Performs.report h1).silent (.report h2)).silent (.drawTable h4)).trans
    (.recordTable h5)).trans (.emit h6)
    |>.trans (flagAction_eq_ok h7) |>.trans (flagAction_eq_ok h8) |>.trans
      (.emit h9) |>.trans p10 |>.trans (.emit h11)
    |>.trans (.emit h12) |>.trans p13 |>.trans (.emit h14)
  refine ⟨table, hit, miss, os, m.entries, hos, p.congr ?_⟩
  refine Effect.ext (funext fun kind => ?_) (funext fun scope => ?_) ?_ ?_ ?_
  · cases kind <;> simp [tableEffect, flagParts, actionEffect, tableEnd]
  all_goals simp [tableEffect, flagParts, actionEffect]

/-- **The table that sets the flag of a membership test.** -/
theorem membership_sound (site : Site) (c : Condition) :
    Keeps site.fragment (Sound S sc) (membership sc site c) fun _ => True := by
  intro g u g' h
  obtain ⟨table, hit, miss, os, rows, hos, p⟩ := membership_eq_ok h
  -- the flag counts as known in the parts, since the temporary variables declare it
  let known (v : String) : Prop := (sc.Binds v ∨ S.literal v) ∨ v ∈ [table ++ "_data"]
  have hflag : ∀ {a : String} (value : Bool) {entries : List Entry}, RunAction S table a 0 entries →
      Part S known table (actionEffect a []
        (.write .action [.setFlag (table ++ "_data") value]) entries) :=
    fun _ _ h => .action (forall_mem_nil _) (.body rfl fun v hv => .inr hv) h
  have hpart : Part S known table (flagParts table hit miss (os.map (·.text)) rows) := by
    refine (part_joins S known table).append (hflag true (forall_mem_nil _)) (hflag false ?_)
    exact forall_mem_map.mpr fun row _ => ⟨rfl, rfl, .inl rfl⟩
  refine ⟨_, p, trivial, .of_part hpart (fun v hv => .inl (.inl hv))
    (isKeyPart_keyLines (Scope.known_of_mapM hos)) ?_ rfl
    (fun v hv => hv) rfl (fun v hv => .inr hv)⟩
  rintro _ ⟨⟩
  simp [flagParts, actionEffect]

/-! ### Conditions -/

theorem condition_sound (site : Site) (c : Condition) :
    Keeps site.fragment (Sound S sc) (condition sc site c) fun _ => True := by
  have hJ := sound_joins S sc
  unfold condition
  split
  · exact membership_sound site c
  · exact comparison_keeps (absorbs_sound S sc) _ c
  · exact validity_keeps (absorbs_sound S sc) c
  · exact .bind hJ (.report hJ fun _ _ _ _ => trivial) fun _ _ => .halt

/-! ### Ifs -/

theorem Links.part {table : String} {keys : List Operand} {named : List (String × Case)}
    {other : Option (String × List Statement)} {e : Effect} (hoffers : S.Offers sc)
    (h : Links sc table keys named other e) :
    Part S (fun v => sc.Binds v ∨ S.literal v) table e ∧ ∀ a, other.map (·.1) = some a →
      a ∈ e.actions := by
  induction h with
  | none => exact ⟨(part_joins S _ table).empty, by simp⟩
  | default _ hplain =>
    refine ⟨.action (forall_mem_nil _) (.plain (fun _ => .inl) hplain) (forall_mem_nil _), ?_⟩
    rintro _ ⟨⟩
    simp [actionEffect]
  | @link a name m params ps ss named other e hm hrows hparams _ hplain _ ih =>
    have hl : HasLookup S.modules m :=
      hoffers name m (Option.or_eq_some_iff.mp
      (Option.or_eq_orElse.trans hm) |>.imp_right And.right)
    rw [← length_map Operand.text] at hrows
    refine ⟨(part_joins S _ table).append
      (.action hparams (.plain (fun _ => .inl) hplain) (.of_rows hl hrows)) ih.1, fun b hb => ?_⟩
    exact mem_append_right _ (ih.2 b hb)

theorem table_sound {run : Job → Gen Unit} (hoffers : S.Offers sc) (site : Site) {i : Ins}
    (hi : i.StepsOnly) :
    Keeps site.fragment (Sound S sc) (table run sc site i) fun _ => True := by
  intro g u g' h
  obtain ⟨c, cs, keys, name, named, other, e, _, hkeys, _, hlinks, p⟩ := table_eq_ok hi h
  obtain ⟨hpart, hdeflt⟩ := hlinks.part hoffers
  exact ⟨_, p, trivial, .of_part hpart (fun _ => .inl)
    (isKeyPart_keyLines (Scope.known_of_mapM hkeys)) hdeflt rfl (fun _ => .inl) rfl
    (forall_mem_nil _)⟩

/-! ### Switches -/

section

variable (run : Job → Gen Unit) (sc : Scope) (site : Site)

def caseBody : Option Call → Gen Unit
  | none => throw .outOfRange
  | some c =>
    match sc.funcs.find? c.name with
    | some body => run ⟨sc, ⟨site.fragment, 1, true⟩, body⟩
    | none =>
      if c.name = "nop" then Gen.emit (site.key .action) [.emptyAction]
      else if c.name = "drop" then Gen.emit (site.key .action) [.dropAction]
      else Report.halt s!"error-generate_switch_single_table what call {c.name}"

def caseEntries (table action : String) (keys : List Operand) : Option Lookup → Gen Unit
  | none => pure ()
  | some m => do
    let shown ← m.value.mapM Gen.typeOf
    entries (site.key .entry) table action (keys.map (·.text)) m.value.length
      (Text.quoteList shown) m.entries

theorem switchCase_eq (table : String) (keys : List Operand) (calls : List Call)
    (deflt : Option String) (case : Tree) (i : Nat) :
    switchCase run sc site table keys calls deflt (case, i) = (do
      let action ← Gen.drawAction table
      let name ← (tableNameOf case : Report String)
      Gen.emit (site.key .table) [.actionName action]
      let map? := if name = "default" then none else sc.maps.find? name
      let params ← actionParams ((map?.map (·.value)).getD [])
      Gen.emit (site.key .action) (.actionHead action :: params ++ [.actionBody])
      caseBody run sc site calls[i]?
      Gen.emit (site.key .action) [.blockClose]
      caseEntries site table action keys map?
      pure (if name = "default" then some action else deflt)) := by
  refine bind_congr fun action => bind_congr fun name => bind_congr fun _ =>
    bind_congr fun params => bind_congr fun _ => ?_
  generalize (if name = "default" then none else sc.maps.find? name) = map?
  cases calls[i]? with
  | none => cases map? <;> rfl
  | some c =>
    simp only [caseBody]
    cases sc.funcs.find? c.name with
    | some body => cases map? <;> simp [caseEntries]
    | none =>
      by_cases hnop : c.name = "nop"
      · cases map? <;> simp [hnop, caseEntries]
      · by_cases hdrop : c.name = "drop"
        · cases map? <;> simp [hdrop, caseEntries]
        · cases map? <;> simp [hnop, hdrop, caseEntries]

end

theorem caseEntries_eq_ok {table a : String} {keys : List Operand} {map? : Option Lookup}
    (h : caseEntries site table a keys map? g = .ok u g') :
    (∀ m, map? = some m → RowsFit keys.length m.value.length m.entries) ∧
      Performs site.fragment g
        (.write .entry ((((map?.map (·.entries)).getD []).map
          (.ofRow table a (keys.map (·.text)))).map .entry)) g' := by
  cases map? with
  | none =>
    obtain ⟨_, rfl⟩ := pure_eq_ok.mp h
    exact ⟨by simp, Effect.write_nil .entry ▸ .refl _ g⟩
  | some m =>
    obtain ⟨shown, g1, h1, h2⟩ := bind_eq_ok.mp h
    obtain ⟨hrows, p2⟩ := entries_eq_ok h2
    rw [length_map] at hrows
    refine ⟨by rintro _ ⟨⟩; exact hrows, ?_⟩
    have p1 := Performs.mapM (f := site.fragment)
      (fun _ g _ _ h => Gen.typeOf_eq_ok h ▸ .refl _ g) h1
    exact (p1.trans p2).congr (Effect.empty_append _)

/-- **What is written for a case of a switch**, apart from the body of its action. -/
theorem switchCase_eq_ok {run : Job → Gen Unit} {table : String} {keys : List Operand}
    {calls : List Call} {deflt deflt' : Option String} {case : Tree} {i : Nat}
    (h : switchCase run sc site table keys calls deflt (case, i) g = .ok deflt' g') :
    ∃ a name params map? g1 g2, case.textAt? [0, 0] = .ok name ∧
      map? = (if name = "default" then none else sc.maps.find? name) ∧
      deflt' = (if name = "default" then some a else deflt) ∧
        caseBody run sc site calls[i]? g1 = .ok () g2 ∧
      (∀ p ∈ params, p.isActionParam = true) ∧ params.length = (map?.map (·.value.length)).getD 0 ∧
      (∀ m, map? = some m → RowsFit keys.length params.length m.entries) ∧
      ∀ body, Performs site.fragment g1 body g2 → Performs site.fragment g
        (actionEffect a params body (((map?.map (·.entries)).getD []).map
          (.ofRow table a (keys.map (·.text))))) g' := by
  rw [switchCase_eq] at h
  simp only [bind_eq_ok, pure_eq_ok] at h
  obtain ⟨a, g1, h1, name, g2, h2, _, g3, h3, params, g4, h4, _, g5, h5, _, g6, h6, _, g7, h7, _,
    g8, h8, rfl, rfl⟩ := h
  obtain ⟨_, hname, _⟩ := Gen.report_eq_ok.mp h2
  obtain ⟨p4, hlen, hparams⟩ := actionParams_eq_ok h4
  obtain ⟨hrows, p8⟩ := caseEntries_eq_ok h8
  have harity : ∀ map? : Option Lookup, ((map?.map (·.value)).getD []).length =
      (map?.map (·.value.length)).getD 0 := by
    rintro (_ | m) <;> rfl
  refine ⟨a, name, params, _, g5, g6, (lift_shape_eq_ok.mp hname).1, rfl, rfl, h6, hparams,
    hlen.trans (harity _), fun m hm => ?_, fun body p => ?_⟩
  · rw [hlen, hm]
    exact hrows m hm
  · have p1 := ((Performs.drawAction h1).silent (.report h2)).trans (.emit h3)
    exact ((((p1.silent p4).trans (.emit h5)).trans p).trans (.emit h7)).trans p8

theorem switch_eq_ok {run : Job → Gen Unit} {keys cases : List Tree} {calls : List Call}
    (h : switch run sc site keys cases calls g = .ok u g') :
    ∃ table os deflt g1 g2, keys.mapM sc.operand? = some os ∧
      cases.zipIdx.foldlM (switchCase run sc site table os calls) none g1 = .ok deflt g2 ∧
      ∀ e, Performs site.fragment g1 e g2 →
        Performs site.fragment g (tableEffect table [] (keyLines os ++ [.sectionClose]) e deflt
          [.apply table]) g' := by
  simp only [switch, bind_eq_ok] at h
  obtain ⟨_, g1, h1, first, g2, h2, name, g3, h3, table, g4, h4, os, g5, h5, _, g6, h6, deflt, g7,
    h7, _, g8, h8, h9⟩ := h
  have hkey : ∀ (t : Tree) (g : Generation) (o : Operand) (g' : Generation), (do
      let o ← (sc.resolve t : Report Operand)
      Gen.recordInput site.fragment o.text
      pure o : Gen Operand) g = .ok o g' → Performs site.fragment g .empty g' ∧
        sc.operand? t = some o := by
    intro t g o g' h
    simp only [bind_eq_ok, pure_eq_ok] at h
    obtain ⟨_, g1, h1, _, g2, h2, rfl, rfl⟩ := h
    exact ⟨(Performs.report h1).silent (.recordInput h2), Gen.quiet_eq_ok (sc.resolve_quiet t) h1⟩
  have p5 := Performs.mapM (fun t g o g' h => (hkey t g o g' h).1) h5
  refine ⟨table, os, deflt, g6, g7, mapM_eq_some (fun t g o g' h => (hkey t g o g' h).2) _ h5, h7,
    fun e p => ?_⟩
  have p1 := ((((Performs.recordTable h1).silent (.report h2)).silent (.report h3)).silent
    (.drawTable h4)).silent p5
  rw [tableEffect, Effect.write_nil, Effect.empty_append, append_assoc]
  exact (((p1.trans (.emit h6)).trans p).trans (.emit h8)).trans (.emit h9)

theorem caseBody_part {run : Job → Gen Unit} {table : String} {call? : Option Call}
    (hrun : ∀ c ∈ call?, ∀ body, sc.funcs.find? c.name = some body →
      Keeps site.fragment (Part S (fun v => sc.Binds v ∨ S.literal v) table)
      (run ⟨sc, ⟨site.fragment, 1, true⟩, body⟩) fun _ => True) :
    Keeps site.fragment (Part S (fun v => sc.Binds v ∨ S.literal v) table)
    (caseBody run sc site call?) fun _ => True := by
  cases call? with
  | none => exact .throw
  | some c =>
    simp only [caseBody]
    split
    · next body hfind => exact hrun c rfl body hfind
    · split
      · exact .emit (by decide) (.body rfl (forall_mem_nil _))
      · split
        · exact .emit (by decide) (.body rfl (forall_mem_nil _))
        · exact .halt

theorem switchCases_part {run : Job → Gen Unit} {table : String} {keys : List Operand}
    {calls : List Call} (hoffers : S.Offers sc)
    (hrun : ∀ c ∈ calls, ∀ body, sc.funcs.find? c.name = some body →
      Keeps site.fragment (Part S (fun v => sc.Binds v ∨ S.literal v) table)
      (run ⟨sc, ⟨site.fragment, 1, true⟩, body⟩)
        fun _ => True) (xs : List (Tree × Nat)) : ∀ deflt : Option String,
    Yields site.fragment (xs.foldlM (switchCase run sc site table keys calls) deflt) fun deflt' e =>
      (∀ a, deflt' = some a → deflt = some a ∨ a ∈ e.actions) ∧
        Part S (fun v => sc.Binds v ∨ S.literal v) table e := by
  induction xs with
  | nil =>
    intro deflt g deflt' g' h
    obtain ⟨rfl, rfl⟩ := pure_eq_ok.mp h
    exact ⟨.empty, .refl _ _, fun a ha => .inl ha, (part_joins S _ table).empty⟩
  | cons x xs ih =>
    intro deflt g deflt' g' h
    rw [foldlM_cons] at h
    obtain ⟨next, g1, h1, h2⟩ := bind_eq_ok.mp h
    obtain ⟨a, name, params, map?, g3, g4, _, hmap, rfl, hcase, hparams, _, hrows, p⟩ :=
      switchCase_eq_ok h1
    obtain ⟨eb, pb, _, heb⟩ := caseBody_part (fun c hc => hrun c (mem_of_getElem? hc)) hcase
    obtain ⟨e2, p2, hlast, hpart2⟩ := ih _ h2
    have hentries : RunAction S table a params.length
        (((map?.map (·.entries)).getD []).map (.ofRow table a (keys.map (·.text)))) := by
      cases map? with
      | none => exact forall_mem_nil _
      | some m =>
        rw [← length_map Operand.text] at hrows
        exact .of_rows (hoffers name m (.inl (Option.ite_none_left_eq_some.mp hmap.symm).2))
          (hrows m rfl)
    refine ⟨_, (p eb pb).trans p2, ?_,
      (part_joins S _ table).append (.action hparams heb hentries) hpart2⟩
    intro b hb
    rcases hlast b hb with hb | hb
    · split at hb
      · cases hb
        exact .inr (mem_append_left _ (by simp [actionEffect]))
      · exact .inl hb
    · exact .inr (mem_append_right _ hb)

/-- **The table of a switch**, if the functions that it calls are sound, and plain in a regular
program. -/
theorem switch_sound {run : Job → Gen Unit} (hoffers : S.Offers sc) (site : Site)
    {keys cases : List Tree} {calls : List Call}
    (hrun : ∀ c ∈ calls, ∀ body, sc.funcs.find? c.name = some body →
      Keeps site.fragment (fun e => Sound S sc e ∧ (S.regular → Plain sc e))
      (run ⟨sc, ⟨site.fragment, 1, true⟩, body⟩)
        fun _ => True) :
    Keeps site.fragment (Sound S sc) (switch run sc site keys cases calls) fun _ => True := by
  intro g u g' h
  obtain ⟨table, os, deflt, g1, g2, hos, hcases, p⟩ := switch_eq_ok h
  have hparts : ∀ c ∈ calls, ∀ body, sc.funcs.find? c.name = some body →
      Keeps site.fragment (Part S (fun v => sc.Binds v ∨ S.literal v) table)
        (run ⟨sc, ⟨site.fragment, 1, true⟩, body⟩)
        fun _ => True := by
    intro c hc body hfind
    exact (hrun c hc body hfind).mono fun _ e h => ⟨trivial, .of_sound h.2.1 h.2.2⟩
  obtain ⟨parts, p', hdeflt, hpart⟩ := switchCases_part hoffers hparts cases.zipIdx none hcases
  exact ⟨_, p parts p', trivial,
    .of_part hpart (fun _ => .inl) (isKeyPart_keyLines (Scope.known_of_mapM hos))
    (fun a ha => by simpa using hdeflt a ha) rfl (fun _ => .inl) rfl (forall_mem_nil _)⟩

end Emit

end Pathwise
