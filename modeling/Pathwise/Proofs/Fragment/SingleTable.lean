import Mathlib.Data.List.Find
import Pathwise.Proofs.Fragment.IfTable
import Pathwise.Proofs.Fragment.Words

/-!
# What an if does as a single table

An if that fits into a single table is written as one.  The table always compares the keys of the
first condition, in their order, with the columns of every row, and the values of a look-up are the
other columns of the row that was hit; nothing else of the conditions and look-ups is seen in it
(`single_table_meaning`, first part).

An if is faithful to that order (`Scope.Faithful`) if every condition names the keys of the first
one in the same order, no key stands twice, and a look-up in a block asks the map of its own
condition for these keys before one of them is assigned.  Then the if and the table have the same
effect on every valuation (second part).  The check whether an if fits asks for less: that the keys
are the same up to their order.
-/

namespace Pathwise

open Steps List Option

namespace Scope

variable (sc : Scope)

/-! ### Ifs that keep to the keys of the first condition -/

/-- The keys of the first condition. -/
def keys? (i : Ins) : Option (List String) :=
  i.conditions.head?.bind fun c => c.left.mapM sc.text?

/-- An operand that no parameter hides. -/
def Unhidden (arity : Nat) (t : Tree) : Prop :=
  ∀ o, sc.text? t = some o → ∀ j < arity, o ≠ paramName j

/-- Targets none of which is a key. -/
def Spares (keys : List String) (targets : List Tree) : Prop :=
  ∀ t ∈ targets, ∀ o, sc.text? t = some o → o ∉ keys

/--
Blocks whose look-ups find the row that was hit: they ask the block's own map for the keys, in
order, as long as the keys have the values they were compared with (`live`).
-/
inductive FaithfulBlock (own : Option String) (arity : Nat) (keys : List String) :
    Bool → List Ins → Prop
  | nil {live : Bool} : FaithfulBlock own arity keys live []
  | assign {live live' : Bool} {t s : Tree} {is : List Ins} : s.isIndexed = false →
      sc.Unhidden arity s →
      (live' = true → live = true ∧ sc.Spares keys [t]) → FaithfulBlock own arity keys live' is →
      FaithfulBlock own arity keys live (.assign [t] s :: is)
  | lookup {live' : Bool} {targets ixs : List Tree} {s : Tree} {name : String} {m : Lookup}
      {is : List Ins} :
      s.isIndexed = true → s.indexed? = some (name, ixs) → own = some name →
        sc.maps.find? name = some m →
      ixs.mapM sc.text? = some keys → targets.length ≤ arity →
      (∀ row ∈ m.entries, m.key.length + targets.length ≤ row.length) →
        (live' = true → sc.Spares keys targets) →
      FaithfulBlock own arity keys live' is →
        FaithfulBlock own arity keys true (.assign targets s :: is)
  | arith {live live' : Bool} {t l r : Tree} {op : String} {is : List Ins} : sc.Unhidden arity l →
      sc.Unhidden arity r →
      (live' = true → live = true ∧ sc.Spares keys [t]) → FaithfulBlock own arity keys live' is →
      FaithfulBlock own arity keys live (.arith [t] l op r :: is)
  | primitive {live : Bool} {kind : String} {args : List Tree} {is : List Ins} :
      FaithfulBlock own arity keys live is →
      FaithfulBlock own arity keys live (.primitive kind args :: is)

/-- A condition that names the keys in order, before a block that finds its row. -/
structure FaithfulLink (keys : List String) (c : Condition) (b : List Ins) : Prop where
  left : c.left.mapM sc.text? = some keys
  columns : ∀ name m, c.tableName? = some name → sc.lookup? name = some m →
    m.key.length = keys.length
  block : ∀ name, c.tableName? = some name → sc.FaithfulBlock (some name)
    (sc.arity name) keys true b

/-- All links of an if keep to the same keys. -/
inductive FaithfulChain (keys : List String) : Ins → Prop
  | last {c : Condition} {b : List Ins} {d : Option (List Ins)} : sc.FaithfulLink keys c b →
      (∀ b', d = some b' → sc.FaithfulBlock none 0 keys true b') →
        FaithfulChain keys (.branch [c] [b] none d)
  | link {c : Condition} {b : List Ins} {e : Ins} {d : Option (List Ins)} :
      sc.FaithfulLink keys c b →
      FaithfulChain keys e → FaithfulChain keys (.branch [c] [b] (some e) d)

/-- An if whose conditions name the same keys in the same order, none of them twice, and whose
look-ups ask for them. -/
def Faithful (keys : List String) (i : Ins) : Prop :=
  keys.Nodup ∧ sc.FaithfulChain keys i

end Scope

/-! ### Blocks -/

section Block

variable {V : Type} {μ : Meaning V} {sc : Scope} {params : String → Option V}

variable {ss : List Statement} {arity : Nat} {t s : Tree} {o : String} {keys : List String}

theorem statements?_cons {i : Ins} {is : List Ins} (h : sc.statements? (i :: is) = some ss) :
    ∃ s1 s2, sc.lines? i = some s1 ∧ sc.statements? is = some s2 ∧ ss = s1 ++ s2 := by
  rw [Scope.statements?] at h
  simp only [bind_eq_bind, bind_eq_some_iff, Option.some.injEq] at h
  obtain ⟨s1, h1, s2, h2, rfl⟩ := h
  exact ⟨s1, s2, h1, h2, rfl⟩

theorem runAll_fromParams :
    ∀ (targets : List Tree) {n : Nat} {values : List V} {ss : List Statement} (σ : Store V),
    (targets.zipIdx n).mapM sc.fromParam? = some ss → targets.length ≤ values.length →
    (∀ j < targets.length, params (paramName (n + j)) = values[j]?) →
    ∃ names, targets.mapM sc.text? = some names ∧ names.length = targets.length ∧
      (∀ x ∈ names, ∃ t ∈ targets, sc.text? t = some x) ∧
      Statement.runAll μ params ss σ = σ.setAll (names.zip values) := by
  intro targets
  induction targets with
  | nil =>
    intro n values ss σ hss _ _
    cases hss
    exact ⟨[], rfl, rfl, forall_mem_nil _, rfl⟩
  | cons t ts ih =>
    intro n values ss σ hss hlen hparams
    rw [zipIdx_cons, mapM_cons] at hss
    simp only [bind_eq_bind, bind_eq_some_iff, Scope.fromParam?, map_eq_some_iff] at hss
    obtain ⟨s, ⟨o, ho, rfl⟩, ss', hss', hs⟩ := hss
    cases hs
    cases values with
    | nil => exact absurd hlen (by simp)
    | cons v values =>
      have hrest : ∀ j < ts.length, params (paramName (n + 1 + j)) = values[j]? := by
        intro j hj
        have hj' := hparams (j + 1) (by simpa using hj)
        rw [show n + (j + 1) = n + 1 + j by omega] at hj'
        exact hj'
      obtain ⟨names, hnames, hcount, hmem, hrun⟩ := ih (σ.set o v) hss' (by simpa using hlen) hrest
      refine ⟨o :: names, ?_, congrArg (· + 1) hcount, ?_, ?_⟩
      · rw [mapM_cons, ho, hnames]
        rfl
      · refine forall_mem_cons.mpr ⟨⟨t, mem_cons_self, ho⟩, fun x hx => ?_⟩
        obtain ⟨t', ht', hx'⟩ := hmem x hx
        exact ⟨t', mem_cons_of_mem t ht', hx'⟩
      · have hv := hparams 0 (Nat.succ_pos _)
        rw [Nat.add_zero] at hv
        rw [Statement.runAll, Statement.run, Store.readWith, hv]
        exact hrun

theorem Scope.Unhidden.readWith (h : sc.Unhidden arity t) (ho : sc.text? t = some o)
    (hparams : ∀ w, (∀ j < arity, w ≠ paramName j) → params w = none) (σ : Store V) :
    σ.readWith μ params o = σ.read μ o := by
  rw [Store.readWith, hparams o (h o ho)]
  rfl

theorem Scope.Spares.read_set (h : sc.Spares keys [t])
    (ho : sc.text? t = some o) (σ : Store V) (v : V) :
    keys.map ((σ.set o v).read μ) = keys.map (σ.read μ) := by
  refine map_congr_left fun k hk => Store.read_set_of_ne μ σ (fun hko => ?_) v
  exact h t (mem_singleton_self t) o ho (hko ▸ hk)

variable [DecidableEq V]

/-! The lines of an instruction do what it does, and leave the keys alone that it does not
assign. -/

theorem step?_assign (hparams : ∀ w, (∀ j < arity, w ≠ paramName j) → params w = none)
    (hs : s.isIndexed = false) (hhidden : sc.Unhidden arity s)
    (h : sc.lines? (.assign [t] s) = some ss) (σ : Store V) :
    sc.step? μ (.assign [t] s) σ = some (Statement.runAll μ params ss σ) ∧
      ∀ keys, sc.Spares keys [t] → keys.map ((Statement.runAll μ params ss σ).read μ) = keys.map
        (σ.read μ) := by
  simp only [Scope.lines?, hs, Bool.false_eq_true, if_false, head?_cons, bind_eq_bind, bind_some,
    bind_eq_some_iff, Option.some.injEq] at h
  obtain ⟨o, ho, o', ho', rfl⟩ := h
  have hrun : Statement.runAll μ params [.assign o o'] σ = σ.set o (σ.read μ o') := by
    simp only [Statement.runAll, Statement.run, hhidden.readWith ho' hparams]
  rw [hrun]
  refine ⟨?_, fun keys hspares => hspares.read_set ho σ _⟩
  simp only [Scope.step?, hs, Bool.false_eq_true, if_false, Scope.value?, ho, ho', map_some,
    bind_eq_bind, bind_some]

theorem step?_arith (hparams : ∀ w, (∀ j < arity, w ≠ paramName j) → params w = none) {l r : Tree}
    {op : String} (hl : sc.Unhidden arity l) (hr : sc.Unhidden arity r)
    (h : sc.lines? (.arith [t] l op r) = some ss) (σ : Store V) :
    sc.step? μ (.arith [t] l op r) σ = some (Statement.runAll μ params ss σ) ∧
      ∀ keys, sc.Spares keys [t] → keys.map ((Statement.runAll μ params ss σ).read μ) = keys.map
        (σ.read μ) := by
  simp only [Scope.lines?, head?_cons, bind_eq_bind, bind_some, bind_eq_some_iff,
    Option.some.injEq] at h
  obtain ⟨o, ho, ol, hol, or, hor, rfl⟩ := h
  have hrun : Statement.runAll μ params [.arith o ol op or] σ
      = σ.set o (μ.combine op (σ.read μ ol) (σ.read μ or)) := by
    simp only [Statement.runAll, Statement.run, hl.readWith hol hparams, hr.readWith hor hparams]
  rw [hrun]
  refine ⟨?_, fun keys hspares => hspares.read_set ho σ _⟩
  simp only [Scope.step?, Scope.value?, ho, hol, hor, map_some, bind_eq_bind, bind_some]

theorem step?_fromMap {targets ixs : List Tree} {name : String} {m : Lookup}
    (hs : s.isIndexed = true) (hindexed : s.indexed? = some (name, ixs))
    (hm : sc.maps.find? name = some m) (h : sc.lines? (.assign targets s) = some ss) {σ : Store V}
    {values : List V} {row : List String} (hixs : ixs.mapM (sc.value? μ σ) = some values)
    (hrow : m.row? μ values = some row) (hlen : targets.length ≤ (m.values μ row).length)
    (hparams : ∀ j < targets.length, params (paramName j) = (m.values μ row)[j]?) :
    sc.step? μ (.assign targets s) σ = some (Statement.runAll μ params ss σ) ∧
      ∀ keys, sc.Spares keys targets →
        keys.map ((Statement.runAll μ params ss σ).read μ) = keys.map (σ.read μ) := by
  rw [Scope.lines?, if_pos hs] at h
  obtain ⟨names, hnames, hcount, hmem, hrun⟩ := runAll_fromParams (μ := μ) targets σ h hlen
    fun j hj => by rw [Nat.zero_add]; exact hparams j hj
  rw [hrun]
  refine ⟨?_, fun keys hspares => ?_⟩
  · rw [Scope.step?_lookup _ _ _ hs, Scope.fromMap?]
    simp only [hindexed, hm, hnames, hixs, hrow, bind_eq_bind, bind_some, hcount, hlen, if_true]
  · refine map_congr_left fun k hk => Store.read_setAll_of_not_mem μ k _ σ fun hzip => ?_
    obtain ⟨x, hx, rfl⟩ := mem_map.mp hzip
    obtain ⟨t, ht, htext⟩ := hmem x.1 (of_mem_zip hx).1
    exact hspares t ht x.1 htext hk

theorem step?_primitive {kind : String} {args : List Tree}
    (h : sc.lines? (.primitive kind args) = some ss) (σ : Store V) :
    sc.step? μ (.primitive kind args) σ = some (Statement.runAll μ params ss σ) ∧
      ∀ text, (Statement.runAll μ params ss σ).read μ text = σ.read μ text := by
  rw [Scope.lines?] at h
  rw [Scope.step?]
  by_cases hdrop : kind = "drop"
  · rw [if_pos hdrop] at h ⊢
    cases h
    exact ⟨rfl, fun _ => rfl⟩
  · rw [if_neg hdrop] at h ⊢
    by_cases hnop : kind = "nop"
    · rw [if_pos hnop] at h ⊢
      cases h
      exact ⟨rfl, fun _ => rfl⟩
    · rw [if_neg hnop] at h ⊢
      split at h
      · next hcompress =>
        simp only [bind_eq_bind, bind_eq_some_iff, Option.some.injEq] at h
        obtain ⟨a, ha, o, ho, rfl⟩ := h
        simp only [if_pos hcompress, ha, ho, bind_eq_bind, bind_some]
        exact ⟨rfl, fun _ => rfl⟩
      · cases h

/--
**In a faithful block, running the lines of an action is running the block.**  The parameters of the
action have the values of the row that the block's own map has for the keys.
-/
theorem Scope.FaithfulBlock.exec_eq {own : Option String} (values : List V)
    (hparams : ∀ w, (∀ j < arity, w ≠ paramName j) → params w = none)
    (hrow : ∀ name m, own = some name → sc.maps.find? name = some m →
      ∃ row, m.row? μ values = some row ∧ ∀ j < arity, params (paramName j) = (m.values μ row)[j]?)
    {live : Bool} {b : List Ins} (hb : sc.FaithfulBlock own arity keys live b) :
    ∀ {ss : List Statement} (σ : Store V), sc.statements? b = some ss →
      (live = true → keys.map (σ.read μ) = values) →
        sc.exec μ b σ = some (Statement.runAll μ params ss σ) := by
  induction hb with
  | nil =>
    intro ss σ hss _
    cases hss
    rfl
  | assign hs hhidden hlive _ ih =>
    intro ss σ hss hkeys
    obtain ⟨s1, s2, h1, h2, rfl⟩ := statements?_cons hss
    obtain ⟨hstep, hspared⟩ := step?_assign hparams hs hhidden h1 σ
    rw [Scope.exec_assign, hstep, bind_some, Statement.runAll_append]
    refine ih _ h2 fun hl => ?_
    obtain ⟨hl, hspares⟩ := hlive hl
    rw [hspared keys hspares, hkeys hl]
  | lookup hs hindexed hown hm hixs hcount hrows hlive _ ih =>
    intro ss σ hss hkeys
    obtain ⟨s1, s2, h1, h2, rfl⟩ := statements?_cons hss
    obtain ⟨row, hfind, hvalues⟩ := hrow _ _ hown hm
    have hlen := hrows row (mem_of_find?_eq_some hfind)
    -- the indexes are the keys, which have their values still
    have hixValues := (Scope.mapM_value?_eq μ σ hixs).trans (congrArg some (hkeys rfl))
    obtain ⟨hstep, hspared⟩ := step?_fromMap hs hindexed hm h1 hixValues hfind
      (by rw [Lookup.values, length_map, length_drop]; omega)
      fun j hj => hvalues j (lt_of_lt_of_le hj hcount)
    rw [Scope.exec_assign, hstep, bind_some, Statement.runAll_append]
    exact ih _ h2 fun hl => (hspared keys (hlive hl)).trans (hkeys rfl)
  | arith hl hr hlive _ ih =>
    intro ss σ hss hkeys
    obtain ⟨s1, s2, h1, h2, rfl⟩ := statements?_cons hss
    obtain ⟨hstep, hspared⟩ := step?_arith hparams hl hr h1 σ
    rw [Scope.exec_arith, hstep, bind_some, Statement.runAll_append]
    refine ih _ h2 fun hl => ?_
    obtain ⟨hl, hspares⟩ := hlive hl
    rw [hspared keys hspares, hkeys hl]
  | primitive _ ih =>
    intro ss σ hss hkeys
    obtain ⟨s1, s2, h1, h2, rfl⟩ := statements?_cons hss
    obtain ⟨hstep, hread⟩ := step?_primitive h1 σ
    rw [Scope.exec_primitive, hstep, bind_some, Statement.runAll_append]
    refine ih _ h2 fun hl => ?_
    rw [← hkeys hl]
    exact map_congr_left fun k _ => hread k

end Block

/-! ### Chains -/

section Chain

variable {V : Type} [DecidableEq V] {μ : Meaning V} {sc : Scope} {keys : List String}

theorem Lookup.row?_eq (hkeys : keys.Nodup) {m : Lookup} (hcolumns : m.key.length = keys.length)
    (hlens : ∀ row ∈ m.entries, keys.length ≤ row.length) (σ : Store V) :
    m.row? μ (keys.map (σ.read μ)) = m.entries.find? (rowFits μ keys σ) := by
  refine find?_congr fun row hrow => ?_
  rw [hcolumns, Bool.eq_iff_iff, decide_eq_true_iff, rowFits_iff μ hkeys σ (hlens row hrow)]

theorem Scope.FaithfulLink.runs {c : Condition} {b : List Ins} (hl : sc.FaithfulLink keys c b)
    (hkeys : keys.Nodup) (hc : c.test = .member) {x : Case} (hx : sc.case? c b = some x)
    (hlens : ∀ row ∈ x.rows, keys.length ≤ row.length) (σ : Store V) :
    sc.holds? μ c σ = some (x.rows.find? (rowFits μ keys σ)).isSome ∧
    ∀ row, x.rows.find? (rowFits μ keys σ) = some row → sc.exec μ b σ
      = some (Statement.runAll μ (paramValues (((row.drop keys.length).map μ.cell).take x.arity))
        x.body σ) := by
  simp only [Scope.case?, bind_eq_bind, bind_eq_some_iff, Option.some.injEq] at hx
  obtain ⟨name, hname, m, hm, ss, hss, rfl⟩ := hx
  have hcolumns := hl.columns name m hname hm
  have hrow := Lookup.row?_eq (μ := μ) hkeys hcolumns hlens σ
  have hvalues := Scope.mapM_value?_eq μ σ hl.left
  refine ⟨?_, fun row hfind => ?_⟩
  · obtain ⟨test, left, right⟩ := c
    subst hc
    cases right with
    | nil => cases hname
    | cons t ts =>
      have hname' : (t.textAt? [0, 0]).toOption = some name := hname
      simp only [Scope.holds?, hname', hm, hvalues, bind_eq_bind, bind_some, hrow]
  · refine (hl.block name hname).exec_eq (keys.map (σ.read μ)) ?_ ?_ σ hss fun _ => rfl
    · intro w hw
      refine paramValues_eq_none fun j hj => hw j ?_
      rw [length_take] at hj
      exact (lt_min_iff.mp hj).1
    · intro name' m' hown hm'
      cases hown
      have hsame : m = m' := by
        rw [Scope.lookup?, hm'] at hm
        exact (Option.some.inj hm).symm
      subst hsame
      refine ⟨row, by rw [hrow, hfind], fun j hj => ?_⟩
      rw [paramValues_paramName, getElem?_take_of_lt hj, Lookup.values, hcolumns]

theorem Scope.FaithfulChain.execIf_eq (hkeys : keys.Nodup) (σ : Store V) {i : Ins}
    (hi : sc.FaithfulChain keys i) :
    ∀ {cases : List Case} {other : Option (List Statement)}, sc.cases? i = some (cases, other) →
    (∀ j ∈ i.chain, ∀ c cs, j.conditions = c :: cs → c.test = .member) →
    (∀ x ∈ cases, ∀ row ∈ x.rows, keys.length ≤ row.length) →
    sc.execIf μ i σ = some (dispatch μ keys (other.getD []) cases σ) := by
  induction hi with
  | @last c b d hlink hd =>
    intro cases other hcases hmember hlens
    simp only [Scope.cases?, bind_eq_bind, bind_eq_some_iff, Option.some.injEq,
      Prod.mk.injEq] at hcases
    obtain ⟨x, hx, other', hother, rfl, rfl⟩ := hcases
    have hc := hmember _ (mem_singleton_self _) c [] rfl
    obtain ⟨hholds, hrun⟩ := hlink.runs (μ := μ) hkeys hc hx (hlens x (mem_singleton_self x)) σ
    rw [Scope.execIf_branch, hholds, bind_some, dispatch]
    cases hfind : x.rows.find? (rowFits μ keys σ) with
    | some row => exact hrun row hfind
    | none =>
      cases d with
      | none =>
        cases hother
        rfl
      | some b' =>
        obtain ⟨ss, hss, rfl⟩ := map_eq_some_iff.mp hother
        refine (hd b' rfl).exec_eq (keys.map (σ.read μ)) (fun _ _ => rfl)
          (fun name m h => ?_) σ hss fun _ => rfl
        cases h
  | @link c b e d hlink _ ih =>
    intro cases other hcases hmember hlens
    simp only [Scope.cases?, bind_eq_bind, bind_eq_some_iff] at hcases
    obtain ⟨x, hx, ⟨xs, other'⟩, hxs, hpair⟩ := hcases
    cases hpair
    obtain ⟨hlen, hlens'⟩ := forall_mem_cons.mp hlens
    have hc := hmember _ mem_cons_self c [] rfl
    obtain ⟨hholds, hrun⟩ := hlink.runs (μ := μ) hkeys hc hx hlen σ
    rw [Scope.execIf_branch, hholds, bind_some, dispatch]
    cases hfind : x.rows.find? (rowFits μ keys σ) with
    | some row => exact hrun row hfind
    | none => exact ih hxs (fun j hj => hmember j (mem_cons_of_mem _ hj)) hlens'

end Chain

theorem Ins.chain_ne_nil (i : Ins) : i.chain ≠ [] := by
  cases i with
  | branch cs bs e d => cases e <;> exact cons_ne_nil _ _
  | _ => exact cons_ne_nil _ _

theorem Ins.stepsOnly_of_chain (i : Ins)
    (hblocks : ∀ j ∈ i.chain, ∀ b bs, j.blocks = b :: bs → ∀ x ∈ b, x.IsStep)
    (hlast : ∀ b, (i.chain.getLast?.getD i).otherwise = some b → ∀ x ∈ b, x.IsStep) :
    i.StepsOnly := by
  cases i with
  | branch cs bs e d =>
    cases bs with
    | nil => cases e <;> trivial
    | cons b bs =>
      cases e with
      | none => exact ⟨hblocks _ (mem_singleton_self _) b bs rfl, fun b' hb' => hlast b' hb'⟩
      | some e =>
        refine ⟨hblocks _ mem_cons_self b bs rfl, stepsOnly_of_chain e ?_ ?_⟩
        · exact fun j hj => hblocks j (mem_cons_of_mem _ hj)
        · intro b' hb'
          obtain ⟨l, hl⟩ := ne_none_iff_exists'.mp (mt getLast?_eq_none_iff.mp e.chain_ne_nil)
          refine hlast b' ?_
          rw [hl] at hb'
          rw [show (Ins.branch cs (b :: bs) (some e) d).chain = .branch cs (b :: bs) (some e) d ::
            e.chain from rfl, getLast?_cons, hl]
          exact hb'
  | _ => trivial

/--
**What an if does as a single table.**  If the check says that an if fits and the table is written,
then the texts that were added are read as a table.  It runs the first link that has a row for the
keys of the first condition, with the other columns of that row as the values of look-ups.  If the
if is faithful to these keys, this is what the if does, on every valuation.
-/
theorem single_table_meaning {run : Job → Gen Unit} {sc : Scope} {site : Site} {i : Ins}
    {level : Nat} {g₀ g₁ g g' : Generation} {u : Unit}
    (hfit : Fit.branch sc level i g₀ = .ok true g₁) (h : Emit.table run sc site i g = .ok u g') :
    ∃ t keys cases other, AddsTable site.fragment g g' t ∧ sc.keys? i = some keys ∧
      sc.cases? i = some (cases, other) ∧
      ∀ (V : Type) [DecidableEq V] (μ : Meaning V) (σ : Store V),
        t.run μ σ = dispatch μ keys (other.getD []) cases σ ∧
        (sc.Faithful keys i → sc.execIf μ i σ = some (t.run μ σ)) := by
  obtain ⟨hmember, hblocks, hlast⟩ := Fit.branch_eq_true hfit
  obtain ⟨c₁, cs, os, name, named, other, e, hcs, hos, hcases, hlinks, hp⟩ :=
    Emit.table_eq_ok (i.stepsOnly_of_chain hblocks hlast) h
  obtain ⟨⟨table, action, entry, control⟩, htext, rfl, rfl, hread⟩ :=
    hlinks.describes.written rfl hp
  refine ⟨_, os.map (·.text), _, _, ⟨_, fun k => ?_, hread site.level⟩, ?_, hcases,
    fun V _ μ σ => ?_⟩
  · simpa [only, MatchTable.ofCases] using htext k
  · rw [Scope.keys?, hcs, head?_cons, bind_some]
    exact mapM_map_eq_some (·.text) hos
  · have hnames := hlinks.describes.nodup hp
    have hrun := MatchTable.run_ofCases μ name (os.map (·.text)) named other σ
      (by simpa [MatchTable.ofCases, Function.comp_def] using hnames)
    refine ⟨hrun, fun hi => ?_⟩
    rw [hrun]
    exact hi.2.execIf_eq hi.1 σ hcases hmember
      (forall_mem_map.mpr (by simpa only [length_map] using hlinks.wide))

def pairScope : Scope :=
  { (default : Scope) with
    stem := "p"
    vars := ⟨[("a", "p_a"), ("b", "p_b"), ("x", "p_x")]⟩
    maps := ⟨[("m", ⟨"m", ["bit<8>", "bit<8>"], ["bit<8>"], 50, [["1", "2", "7"]]⟩)]⟩
    sets := ⟨[("s", ⟨"s", ["bit<8>", "bit<8>"], [], 50, [["3", "4"]]⟩)]⟩ }

/-- The value that the map has for `a` and `b`. -/
def pairLookup : Tree :=
  .node "data" [.node "array" [.ofVariable "m",
    .node "indexs" [.node "index" [.ofVariable "a"], .node "index" [.ofVariable "b"]]]]

/-- An if whose second condition names the keys in a given order. -/
def pairIf (keys : List Tree) : Ins :=
  .branch [⟨.member, [.ofVariable "a", .ofVariable "b"], [.ofVariable "m"]⟩]
    [[.assign [.ofVariable "x"] pairLookup]]
    (some (.branch [⟨.member, keys, [.ofVariable "s"]⟩]
      [[.assign [.ofVariable "x"] (.ofDigits "2")]] none
      (some [.primitive "drop" []]))) none

def pairStart : Generation :=
  { Generation.empty with
    relation := .ofList [("f", .fragment .empty)]
    texts := [(⟨"f", .control⟩, #[]), (⟨"f", .action⟩, #[]), (⟨"f", .table⟩, #[]),
      (⟨"f", .entry⟩, #[])] }

/-- Digits stand for themselves. -/
def pairMeaning : Meaning String where
  constant? text := if text = "2" then some "2" else none
  cell := id
  combine _ l _ := l
  compare _ l r := l = r

/-- The keys have the values of the set's row. -/
def pairStore : Store String where
  value text := if text = "p_a" then "3" else if text = "p_b" then "4" else "0"
  valid _ := false
  marks := []

theorem pairIf_faithful : pairScope.Faithful ["p_a", "p_b"]
    (pairIf [.ofVariable "a", .ofVariable "b"]) := by
  refine ⟨by decide, .link ⟨by decide +kernel, ?_, ?_⟩ (.last ⟨by decide +kernel, ?_, ?_⟩ ?_)⟩
  · intro name m hname hm
    cases hname
    cases hm
    rfl
  · intro name hname
    cases hname
    have hend : pairScope.FaithfulBlock (some "m") (pairScope.arity "m") ["p_a", "p_b"] false [] :=
      .nil
    exact .lookup rfl rfl rfl rfl (by decide +kernel) (by decide) (by decide)
      (fun h => absurd h Bool.false_ne_true) hend
  · intro name m hname hm
    cases hname
    cases hm
    rfl
  · intro name hname
    cases hname
    have hend : pairScope.FaithfulBlock (some "s") (pairScope.arity "s") ["p_a", "p_b"] false [] :=
      .nil
    exact .assign rfl (fun o _ j hj => absurd hj (Nat.not_lt_zero j))
      (fun h => absurd h Bool.false_ne_true) hend
  · rintro b' ⟨⟩
    exact .primitive .nil

/-- Keys in the same order: the table does what the if does.  Crossed keys: it does not. -/
theorem pairIf_in_order_and_crossed :
    (Fit.branch pairScope 0 (pairIf [.ofVariable "a", .ofVariable "b"]) pairStart =
      .ok true pairStart ∧
      ∃ g' t, Emit.table (fun _ => pure ()) pairScope ⟨"f", 0,
        false⟩ (pairIf [.ofVariable "a", .ofVariable "b"])
          pairStart = .ok () g' ∧ AddsTable "f" pairStart g' t ∧
        ∀ (V : Type) [DecidableEq V] (μ : Meaning V) (σ : Store V),
          pairScope.execIf μ (pairIf [.ofVariable "a", .ofVariable "b"]) σ = some (t.run μ σ)) ∧
    (Fit.branch pairScope 0 (pairIf [.ofVariable "b", .ofVariable "a"]) pairStart =
      .ok true pairStart ∧
      ∃ g' t, Emit.table (fun _ => pure ()) pairScope ⟨"f", 0,
        false⟩ (pairIf [.ofVariable "b", .ofVariable "a"])
          pairStart = .ok () g' ∧ AddsTable "f" pairStart g' t ∧
        pairScope.execIf pairMeaning (pairIf [.ofVariable "b", .ofVariable "a"]) pairStore
          ≠ some (t.run pairMeaning pairStore)) := by
  have hfits : ∀ keys ∈ [[.ofVariable "a", .ofVariable "b"], [.ofVariable "b", .ofVariable "a"]],
      Fit.branch pairScope 0 (pairIf keys) pairStart = .ok true pairStart := fun keys hkeys =>
    (Fit.branch_onlyReports pairScope 0 (pairIf keys)).eq_true_of_passes
      (by revert keys; decide +kernel)
  have horder := hfits _ mem_cons_self
  have hcrossed := hfits _ (mem_cons_of_mem _ mem_cons_self)
  refine ⟨⟨horder, ?_⟩, ⟨hcrossed, ?_⟩⟩
  · obtain ⟨_, g', h⟩ := exists_ok_of_succeeded
      (r := Emit.table (fun _ => pure ()) pairScope ⟨"f", 0, false⟩
      (pairIf [.ofVariable "a", .ofVariable "b"]) pairStart) (by decide +kernel)
    obtain ⟨t, keys, cases, other, htable, hkeys, _, hmeaning⟩ := single_table_meaning horder h
    have hkeys' : pairScope.keys? (pairIf [.ofVariable "a", .ofVariable "b"]) =
        some ["p_a", "p_b"] := by
      decide +kernel
    obtain rfl := Option.some.inj (hkeys.symm.trans hkeys')
    exact ⟨g', t, h, htable, fun V _ μ σ => (hmeaning V μ σ).2 pairIf_faithful⟩
  · obtain ⟨_, g', h⟩ := exists_ok_of_succeeded
      (r := Emit.table (fun _ => pure ()) pairScope ⟨"f", 0, false⟩
      (pairIf [.ofVariable "b", .ofVariable "a"]) pairStart) (by decide +kernel)
    obtain ⟨t, keys, cases, other, htable, hkeys, hcases, hmeaning⟩ :=
      single_table_meaning hcrossed h
    refine ⟨g', t, h, htable, fun hsame => ?_⟩
    have hkeys' : pairScope.keys? (pairIf [.ofVariable "b", .ofVariable "a"]) =
        some ["p_a", "p_b"] := by
      decide +kernel
    obtain rfl := Option.some.inj (hkeys.symm.trans hkeys')
    -- the if drops the packet, the table takes the second link
    have hif : (pairScope.execIf pairMeaning (pairIf [.ofVariable "b", .ofVariable "a"])
        pairStore).map
        (·.value "p_x") = some "0" := by decide +kernel
    have htab : (pairScope.cases? (pairIf [.ofVariable "b", .ofVariable "a"])).map
        (fun x => (dispatch pairMeaning ["p_a", "p_b"] (x.2.getD []) x.1 pairStore).value "p_x") =
          some "2" := by
      decide +kernel
    rw [hcases, map_some, ← (hmeaning String pairMeaning pairStore).1] at htab
    rw [hsame, map_some, htab] at hif
    exact absurd hif (by decide)

end Pathwise
