import Pathwise.Fragment.Generate
import Pathwise.Proofs.Fragment.SingleTable
import Pathwise.Proofs.Fragment.Tables

/-!
# Tables of membership tests and switches

Membership tests and switches are written as tables as well.

* `Emit.condition_member_meaning`: all entries of a membership test name the action of its default,
  so that the flag becomes zero whatever the keys are.
* `Emit.switch_meaning`: the cases of a switch that name maps have entries, those that name sets
  have none.
-/

namespace Pathwise

open Steps List

/-! ### Lines in one piece -/

def flagLine (name : String) (value : Bool) : List Piece :=
  [.indent 1, .operand ⟨name, .var⟩, .assignSign, .operand ⟨if value then "1" else "0", .integer⟩,
    .endStatement]

theorem isBody_flagLine (name : String) (value : Bool) :
    IsBody (flagLine name value) [.assign name (if value then "1" else "0")] :=
  .line rfl rfl

/-- Lines of actions that are written as one piece are written out. -/
inductive Spelt : List Piece → List Piece → Prop
  | same (ps : List Piece) : Spelt ps ps
  | flag (name : String) (value : Bool) : Spelt [.setFlag name value] (flagLine name value)
  | nop : Spelt [.emptyAction] [.indent 1, .endStatement]
  | drop : Spelt [.dropAction] [.indent 1, .dropPacket]
  | append {ps qs ps' qs' : List Piece} (h : Spelt ps qs) (h' : Spelt ps' qs') :
      Spelt (ps ++ ps') (qs ++ qs')

theorem Spelt.action {ps qs : List Piece} (h : Spelt ps qs) (name : String) (params : List Piece) :
    Spelt (actionPieces name params ps) (actionPieces name params qs) := by
  have hall := (Spelt.same (.actionHead name :: (params ++ [.actionBody]))).append
    (h.append (.same [.blockClose]))
  simpa [actionPieces] using hall

/-- The code is read as the table once its actions are written out. -/
def Code.ReadsAs (c : Code) (t : MatchTable) : Prop :=
  ∃ action, Spelt c.action action ∧
    readCode? ⟨c.table, action, c.entry, [.indent 0, .apply t.name]⟩ = some t

namespace Emit

variable {g g' : Generation} {sc : Scope} {site : Site}

/-! ### Membership tests -/

/-- The table of a membership test. -/
def flagTable (table hit miss : String) (keys : List String) (rows : List (List String)) :
    MatchTable where
  name := table
  keys := keys
  actions := [⟨hit, 0, [.assign (table ++ "_data") "1"]⟩,
    ⟨miss, 0, [.assign (table ++ "_data") "0"]⟩]
  default? := some miss
  entries := rows.map fun row => { Entry.ofRow table miss keys row with params := [] }

theorem run_flagTable {V : Type} [DecidableEq V] (μ : Meaning V) (table : String)
    {hit miss : String} (hne : hit ≠ miss) (keys : List String) (rows : List (List String))
    (σ : Store V) :
    (flagTable table hit miss keys rows).run μ σ = σ.set (table ++ "_data") (σ.read μ "0") := by
  have hmiss : ∀ values, runAction μ (flagTable table hit miss keys rows).actions miss values σ =
      σ.set (table ++ "_data") (σ.read μ "0") := by
    intro values
    rw [runAction, flagTable, find?_cons_of_neg (by simpa using hne), find?_cons_of_pos (by simp)]
    rfl
  rw [MatchTable.run]
  split
  · next e he =>
    obtain ⟨row, _, rfl⟩ := mem_map.mp (mem_of_find?_eq_some he)
    exact hmiss _
  · exact hmiss []

theorem describes_flagParts (table hit miss : String) (keys : List String)
    (rows : List (List String)) :
    Describes (flagParts table hit miss keys rows)
    (actionPieces hit [] (flagLine (table ++ "_data") true) ++
      actionPieces miss [] (flagLine (table ++ "_data") false))
      (flagTable table hit miss keys rows).actions
      (flagTable table hit miss keys rows).entries :=
  (Describes.single (forall_mem_nil _) (isBody_flagLine _ true)).append
    (.single (forall_mem_nil _) (isBody_flagLine _ false))

/--
**A membership test sets its flag to zero.**  What is written for it is read as a table that is
applied before its flag is tested.  Whatever values the keys have, the flag becomes zero; so it is
right exactly where the condition does not hold.
-/
theorem condition_member_meaning {c : Condition} {u : Unit} (hc : c.test = .member)
    (h : condition sc site c g = .ok u g') :
    ∃ (code : Code) (t : MatchTable), (∀ k, g'.written k = g.written k ++
        only (site.key .temp) [.declare "bit<1>" (t.name ++ "_data")] k ++
          code.addedTo site.fragment k) ∧
      code.control = [.indent site.level, .apply t.name, .indent site.level,
        .ifFlag (t.name ++ "_data")] ∧ code.ReadsAs t ∧
      c.left.mapM sc.text? = some t.keys ∧
      ∀ (V : Type) [DecidableEq V] (μ : Meaning V) (σ : Store V),
        t.run μ σ = σ.set (t.name ++ "_data") (σ.read μ "0") ∧
        ∀ b, sc.holds? μ c σ = some b →
          (t.run μ σ = σ.set (t.name ++ "_data") (σ.read μ (if b then "1" else "0")) ↔
            (b = true → σ.read μ "1" = σ.read μ "0")) := by
  rw [condition, hc] at h
  obtain ⟨table, hit, miss, os, rows, hos, hp⟩ := membership_eq_ok h
  have hdesc := describes_flagParts table hit miss (os.map (·.text)) rows
  obtain ⟨code, htext, haction, hcontrol, hread⟩ := hdesc.written rfl hp
  have hspelt : Spelt code.action (actionPieces hit [] (flagLine (table ++ "_data") true) ++
      actionPieces miss [] (flagLine (table ++ "_data") false)) := by
    have hboth := (Spelt.action (.flag (table ++ "_data") true) hit []).append
      (.action (.flag (table ++ "_data") false) miss [])
    rw [haction]
    simpa [flagParts, actionEffect, actionPieces] using hboth
  have hne : hit ≠ miss := by simpa [flagTable] using hdesc.nodup hp
  refine ⟨code, flagTable table hit miss (os.map Operand.text) rows, htext, hcontrol,
    ⟨_, hspelt, hread 0⟩, mapM_map_eq_some Operand.text hos, fun V _ μ σ => ?_⟩
  have hrun := run_flagTable μ table hne (os.map (·.text)) rows σ
  refine ⟨hrun, fun b _ => ?_⟩
  rw [hrun]
  constructor
  · rintro hset rfl
    have hvalue := congrArg (·.value (table ++ "_data")) hset
    simpa [Store.set, flagTable] using hvalue.symm
  · intro hsame
    cases b with
    | false => rfl
    | true => rw [if_pos rfl, hsame rfl]; rfl

def pairTest : Condition :=
  ⟨.member, [.ofVariable "a", .ofVariable "b"], [.ofVariable "s"]⟩

/-- The two values of a flag differ. -/
def flagMeaning : Meaning String :=
  { pairMeaning with constant? := fun w => if w = "0" ∨ w = "1" then some w else none }

/-- The keys have the values of the set's row, and the flag becomes zero. -/
theorem condition_member_meaning_pair :
    pairScope.holds? flagMeaning pairTest pairStore = some true ∧
    ∃ (g' : Generation) (code : Code)
    (t : MatchTable), condition pairScope ⟨"f", 0, false⟩ pairTest pairStart = .ok () g' ∧
      code.ReadsAs t ∧ t.run flagMeaning pairStore ≠ pairStore.set (t.name ++ "_data")
      (pairStore.read flagMeaning "1") := by
  obtain ⟨_, g', h⟩ := exists_ok_of_succeeded
    (r := condition pairScope ⟨"f", 0, false⟩ pairTest pairStart) (by decide +kernel)
  obtain ⟨code, t, _, _, hread, _, hmeaning⟩ := condition_member_meaning rfl h
  have hholds : pairScope.holds? flagMeaning pairTest pairStore = some true := by decide +kernel
  refine ⟨hholds, g', code, t, h, hread, fun hset => ?_⟩
  exact absurd (((hmeaning String flagMeaning pairStore).2 true hholds).mp hset rfl) (by decide)

end Emit

/-! ### Switches -/

namespace Scope

variable (sc : Scope)

/-- The statements of an action that calls a function or a primitive. -/
def callBody? (c : Call) : Option (List Statement) :=
  match sc.funcs.find? c.name with
  | some body => sc.statements? body
  | none => if c.name = "nop" then some [.empty] else if c.name = "drop" then some [.drop] else none

def caseMap? (name : String) : Option Lookup :=
  if name = "default" then none else sc.maps.find? name

/-- A case of a switch with its name: the rows of its map, and what is done for them.  A case that
names a set has no rows. -/
def switchCase? (calls : List Call) (x : Tree × Nat) : Option (String × Case) := do
  let name ← (x.1.textAt? [0, 0]).toOption
  let body ← sc.callBody? (← calls[x.2]?)
  let m := sc.caseMap? name
  some (name, ⟨(m.map (·.entries)).getD [], (m.map (·.value.length)).getD 0, body⟩)

end Scope

def defaultOf (xs : List (String × Case)) : List Statement :=
  ((xs.reverse.find? (·.1 = "default")).map (·.2.body)).getD []

namespace Emit

variable {g g' : Generation} {sc : Scope} {site : Site} {table : String} {os : List Operand}
  {calls : List Call} {depth : Nat}

theorem caseBody_eq_ok {call? : Option Call} {u : Unit}
    (hsteps : ∀ c ∈ call?, ∀ body, sc.funcs.find? c.name = some body →
      ∀ i ∈ body, i.IsStep) (h : caseBody (Gen.runJob depth) sc site call? g = .ok u g') :
    ∃ c ps qs ss, call? = some c ∧ sc.callBody? c = some ss ∧
      Performs site.fragment g (.write .action ps) g' ∧ Spelt ps qs ∧ IsBody qs ss := by
  cases call? with
  | none => exact absurd h throw_ne_ok
  | some c =>
    simp only [caseBody] at h
    simp only [Scope.callBody?]
    cases hf : sc.funcs.find? c.name with
    | some body =>
      rw [hf] at h
      cases depth with
      | zero => exact absurd h throw_ne_ok
      | succ depth =>
        obtain ⟨ps, ss, hp, hss, hbody, _⟩ := block_eq_ok body (hsteps c rfl body hf) h
        exact ⟨c, ps, ps, ss, rfl, by rw [hf]; exact hss, hp, .same ps, hbody⟩
    | none =>
      rw [hf] at h
      simp only at h
      split at h
      · next hnop =>
          exact ⟨c, _, _, [.empty],
            rfl, by rw [hf]; exact if_pos hnop, .emit h, .nop, .line rfl rfl⟩
      · next hnop =>
        split at h
        · next hdrop =>
          exact ⟨c, _, _, [.drop], rfl, by
            rw [hf]; exact (if_neg hnop).trans (if_pos hdrop), .emit h, .drop, .line rfl rfl⟩
        · exact absurd h Gen.lift_halt_ne_ok

/-- **The cases of a switch are written one after another**, each with the name of its action. -/
theorem switchCases_eq_ok (hsteps : ∀ c ∈ calls, ∀ body, sc.funcs.find? c.name = some body →
    ∀ i ∈ body, i.IsStep) :
    ∀ (xs : List (Tree × Nat)) {deflt deflt' : Option String} {g g' : Generation},
    xs.foldlM (switchCase (Gen.runJob depth) sc site table os calls) deflt g = .ok deflt' g' →
    ∃ (ys : List (String × String × Case)) (e : Effect)
    (action : List Piece), xs.mapM (sc.switchCase? calls) = some (ys.map (·.2)) ∧
      (∀ y ∈ ys, ∀ row ∈ y.2.2.rows, os.length ≤ row.length) ∧ Performs site.fragment g e g' ∧
        Spelt (e.own .action) action ∧
      Describes e action (ys.map fun y => ⟨y.1, y.2.2.arity, y.2.2.body⟩)
        (ys.flatMap fun y => y.2.2.rows.map (.ofRow table y.1 (os.map (·.text)))) ∧
      deflt' = ((ys.reverse.find? (·.2.1 = "default")).map (·.1)).or deflt := by
  intro xs
  induction xs with
  | nil =>
    intro deflt deflt' g g' h
    obtain ⟨rfl, rfl⟩ := pure_eq_ok.mp h
    exact ⟨[], .empty, [], rfl, forall_mem_nil _, .refl _ g, .same [], .empty, rfl⟩
  | cons x xs ih =>
    intro deflt deflt' g g' h
    rw [foldlM_cons] at h
    obtain ⟨next, g1, h1, h2⟩ := bind_eq_ok.mp h
    obtain ⟨a, name, params, map?, g3, g4, hname, hmap, rfl, hcase, hparams, harity, hrows, p⟩ :=
      switchCase_eq_ok h1
    obtain ⟨c, ps, qs, ss, hc, hss, p6, hspelt, hbody⟩ :=
      caseBody_eq_ok (fun c hc => hsteps c (mem_of_getElem? hc)) hcase
    obtain ⟨ys, e, action, hys, hlens, p2, hspelt', hdesc, rfl⟩ := ih h2
    have hy : sc.switchCase? calls x = some (name,
        ⟨(map?.map (·.entries)).getD [], params.length, ss⟩) := by
      rw [Scope.switchCase?, hname, hc, harity, hmap]
      simp only [Except.toOption, hss, Option.bind_eq_bind, Option.bind_some, Scope.caseMap?]
    refine ⟨(a, name, ⟨(map?.map (·.entries)).getD [], params.length, ss⟩) :: ys, _, _, ?_,
      forall_mem_cons.mpr ⟨?_, hlens⟩, (p _ p6).trans p2, ?_,
        (Describes.single hparams hbody).append hdesc, ?_⟩
    · rw [mapM_cons, hy, hys]
      rfl
    · cases map? with
      | none => exact forall_mem_nil _
      | some m => exact (hrows m rfl).wide
    · have hboth := (hspelt.action a params).append hspelt'
      simpa [actionEffect, actionPieces] using hboth
    · rw [reverse_cons, find?_append]
      by_cases hdefault : name = "default" <;> cases ys.reverse.find? (·.2.1 = "default") <;>
        simp [hdefault]

/-- The table of a switch whose cases have the names of their actions. -/
def switchTable (table : String) (keys : List String) (ys : List (String × String × Case)) :
    MatchTable where
  name := table
  keys := keys
  actions := ys.map fun y => ⟨y.1, y.2.2.arity, y.2.2.body⟩
  default? := (ys.reverse.find? (·.2.1 = "default")).map (·.1)
  entries := ys.flatMap fun y => y.2.2.rows.map (.ofRow table y.1 keys)

theorem run_switchTable {V : Type} [DecidableEq V] (μ : Meaning V) (table : String)
    (keys : List String) {ys : List (String × String × Case)} (hnames : (ys.map (·.1)).Nodup)
    (σ : Store V) :
    (switchTable table keys ys).run μ σ =
      dispatch μ keys (defaultOf (ys.map (·.2))) ((ys.map (·.2)).map (·.2)) σ := by
  have hfind : ∀ y ∈ ys, (switchTable table keys ys).actions.find? (·.name = y.1) =
      some ⟨y.1, y.2.2.arity, y.2.2.body⟩ := by
    intro y hy
    have hnodup : ((switchTable table keys ys).actions.map (·.name)).Nodup := by
      simpa [switchTable, Function.comp_def] using hnames
    exact MatchTable.find?_of_nodup hnodup (a := ⟨y.1, y.2.2.arity, y.2.2.body⟩) (mem_map_of_mem hy)
  have hentries := MatchTable.run_entries μ table keys (defaultOf (ys.map (·.2))) σ
    (switchTable table keys ys).actions
    (ys.map fun y => (y.1, y.2.2)) (forall_mem_map.mpr hfind)
  rw [flatMap_map, map_map] at hentries
  rw [map_map, MatchTable.run]
  refine Eq.trans ?_ hentries
  have hother : defaultOf (ys.map (·.2)) =
      ((ys.reverse.find? (·.2.1 = "default")).map (·.2.2.body)).getD [] := by
    rw [defaultOf, ← map_reverse, find?_map, Option.map_map]
    rfl
  have hdefault : (switchTable table keys ys).default? =
      (ys.reverse.find? (·.2.1 = "default")).map (·.1) := rfl
  rw [hother, hdefault]
  cases hlast : ys.reverse.find? (·.2.1 = "default") with
  | none => rfl
  | some y =>
    have hrun : runAction μ (switchTable table keys ys).actions y.1 [] σ =
        Statement.runAll μ noParams y.2.2.body σ := by
      rw [runAction, hfind y (mem_reverse.mp (mem_of_find?_eq_some hlast))]
      simp only [take_nil]
      rfl
    simp only [Option.map_some, Option.getD_some, hrun]
    rfl

/--
**What a switch does as a table.**  If a switch fits into a table and the table is written, then the
texts that were added are read as a table.  It runs the first case that names a map with a row for
the keys, with the other columns of that row as parameters, and the default case if there is none.
A case that names a set is never run.
-/
theorem switch_meaning {keys cases : List Tree} {level : Nat} {g₀ g₁ : Generation} {u : Unit}
    (hfit : Fit.switch sc level keys cases calls g₀ = .ok true g₁)
    (hregular : ∀ name ∈ ["nop", "drop"], ∀ body, sc.funcs.find? name = some body →
      ∀ i ∈ body, i.IsStep)
    (h : switch (Gen.runJob depth) sc site keys cases calls g = .ok u g') :
    ∃ (code : Code) (t : MatchTable) (xs : List (String × Case)),
      (∀ k, g'.written k = g.written k ++ code.addedTo site.fragment k) ∧
        code.control = [.apply t.name] ∧ code.ReadsAs t ∧
      keys.mapM sc.text? = some t.keys ∧ cases.zipIdx.mapM (sc.switchCase? calls) = some xs ∧
      ∀ (V : Type) [DecidableEq V] (μ : Meaning V) (σ : Store V),
        t.run μ σ = dispatch μ t.keys (defaultOf xs) (xs.map (·.2)) σ ∧
        (t.keys.Nodup → ∀ x ∈ xs, ∀ row ∈ x.2.rows,
          (rowFits μ t.keys σ row = true ↔
            (row.take t.keys.length).map μ.cell = t.keys.map (σ.read μ))) := by
  have hsteps : ∀ f ∈ calls, ∀ body, sc.funcs.find? f.name = some body → ∀ i ∈ body, i.IsStep := by
    intro f hf body hbody
    by_cases hname : f.name ∈ ["nop", "drop"]
    · exact hregular _ hname body hbody
    · simp only [mem_cons, not_mem_nil, or_false, not_or] at hname
      exact Fit.switch_eq_true hfit f hf hname.1 hname.2 body hbody
  obtain ⟨table, os, deflt, g1, g2, hos, hcases, hp⟩ := switch_eq_ok h
  obtain ⟨ys, e, action, hys, hlens, hp', hspelt, hdesc, rfl⟩ := switchCases_eq_ok hsteps _ hcases
  rw [Option.or_none] at hp
  obtain ⟨code, htext, haction, hcontrol, hread⟩ :=
    hdesc.written (t := switchTable table (os.map (·.text)) ys) rfl (hp e hp')
  refine ⟨code, _, ys.map (·.2), fun k => by simpa [only] using htext k, hcontrol,
    ⟨action, haction ▸ hspelt, hread 0⟩, mapM_map_eq_some Operand.text hos, hys, fun V _ μ σ => ?_⟩
  have hnames : (ys.map (·.1)).Nodup := by simpa [Function.comp_def] using hdesc.nodup (hp e hp')
  have hrun := run_switchTable μ table (os.map (·.text)) hnames σ
  refine ⟨hrun, fun hkeys x hx row hrow => ?_⟩
  obtain ⟨y, hy, rfl⟩ := mem_map.mp hx
  exact rowFits_iff μ hkeys σ (by simpa [switchTable] using hlens y hy row hrow)

def switchScope : Scope :=
  { pairScope with
    funcs := ⟨[("f", [.assign [.ofVariable "x"] pairLookup]),
      ("g", [.assign [.ofVariable "x"] (.ofDigits "2")])]⟩ }

def pairCases : List Tree :=
  [.ofVariable "m", .ofVariable "s", .ofVariable "default"]

def pairCalls : List Call :=
  [⟨false, "f", []⟩, ⟨false, "g", []⟩, ⟨false, "drop", []⟩]

/-- The keys have the values of the set's row, and the default case is run. -/
theorem switch_meaning_pair : ∃ (g' : Generation) (code : Code) (t : MatchTable),
    switch (Gen.runJob 1) switchScope ⟨"f", 0, false⟩
      [.ofVariable "a", .ofVariable "b"] pairCases pairCalls pairStart = .ok () g' ∧
      code.ReadsAs t ∧ rowFits pairMeaning t.keys pairStore ["3", "4"] = true ∧
        (t.run pairMeaning pairStore).marks = [.dropped] := by
  obtain ⟨_, g', h⟩ := exists_ok_of_succeeded
    (r := switch (Gen.runJob 1) switchScope ⟨"f", 0, false⟩
    [.ofVariable "a", .ofVariable "b"] pairCases pairCalls pairStart) (by decide +kernel)
  have hregular : ∀ name ∈ ["nop", "drop"], switchScope.funcs.find? name = none := by decide
  have hfit := (Fit.switch_onlyReports switchScope 0
    [.ofVariable "a", .ofVariable "b"] pairCases pairCalls).eq_true_of_passes
    (g := pairStart) (by decide +kernel)
  obtain ⟨code, t, xs, _, _, hread, hkeys, hxs, hmeaning⟩ := switch_meaning hfit
    (fun name hname body hbody => by rw [hregular name hname] at hbody; cases hbody) h
  have hkeys' : t.keys = ["p_a", "p_b"] := Option.some.inj (hkeys.symm.trans (by decide +kernel))
  have hmarks : (pairCases.zipIdx.mapM (switchScope.switchCase? pairCalls)).map (fun xs =>
      (dispatch pairMeaning ["p_a", "p_b"] (defaultOf xs) (xs.map (·.2)) pairStore).marks) =
        some [.dropped] := by
    decide +kernel
  rw [hxs, Option.map_some, ← hkeys', ← (hmeaning String pairMeaning pairStore).1] at hmarks
  exact ⟨g', code, t, h, hread, by rw [hkeys']; decide, Option.some.inj hmarks⟩

end Emit

end Pathwise
