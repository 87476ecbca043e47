import Pathwise.Proofs.Fragment.Meaning

/-!
# The checks for a single table

An if fits into a single table only if all its conditions ask for membership and its blocks consist
of assignments, sums and differences, and primitives (`Fit.branch_eq_true`), and the same holds for
the functions of a switch (`Fit.switch_eq_true`).

The checks go through operands and assignments with the steps that write them.  In a mode that does
not write, such a step only reports (`Emit.operand_onlyReports`, `Emit.assign_onlyReports`), and so
do the checks (`Fit.checks_only_report`).
-/

namespace Pathwise

open Steps Gen

/-- Instructions that can stand in an action. -/
def Ins.IsStep : Ins → Prop
  | .assign .. => True
  | .arith .. => True
  | .primitive .. => True
  | _ => False

variable {sc : Scope} {targets : List Tree} {source : Tree} {b : Bool}

/-! ### Steps that do not write -/

namespace Emit

variable {c c' : String} {mode : Mode}

/-- **Whether an assignment is a look-up depends on its source alone.** -/
theorem isLookup_eq_ok (h : isLookup sc targets source c = .ok b c') : b = source.isIndexed := by
  simp only [isLookup, bind_eq_ok, lift_shape_eq_ok] at h
  obtain ⟨target, _, _, part, _, _, rule, _, _, h⟩ := h
  split at h
  · obtain ⟨_, _, h, _⟩ := bind_eq_ok.mp h
    exact absurd h halt_ne_ok
  · simp only [bind_eq_ok, lift_shape_eq_ok] at h
    obtain ⟨spart, _, ⟨hs, _⟩, srule, _, ⟨hr, _⟩, h⟩ := h
    simp only [Tree.isIndexed, hs, hr]
    split at h
    · next harray =>
      obtain ⟨name, _, _, h⟩ := bind_eq_ok.mp h
      split at h
      · obtain ⟨rfl, _⟩ := pure_eq_ok.mp h
        simp [harray]
      · exact absurd h halt_ne_ok
    · next harray =>
      obtain ⟨rfl, _⟩ := pure_eq_ok.mp h
      simp [harray]

theorem isLookup_targets (h : isLookup sc targets source c = .ok b c') :
    ∃ t ts, targets = t :: ts := by
  simp only [isLookup, bind_eq_ok] at h
  obtain ⟨target, _, hfirst, _⟩ := h
  cases targets with
  | nil => exact absurd hfirst throw_ne_ok
  | cons t ts => exact ⟨t, ts, rfl⟩

theorem indexes_blind (source : Tree) : Blind (indexes source) := by
  refine .bind (.lift _) fun ix => .bind (.lift _) fun rule => ?_
  split
  · exact .halt _
  · exact .lift _

theorem isLookup_blind (sc : Scope) (targets : List Tree) (source : Tree) :
    Blind (isLookup sc targets source) := by
  have hsource : Blind (do
      let sourcePart ← source.child? 0
      if (← sourcePart.rule?) = "array" then
        let name ← indexedName source
        if sc.maps.contains name then pure true
        else Report.halt "generate-ins-assign error function 3"
      else pure false : Report Bool) := by
    refine .bind (.lift _) fun part => .bind (.lift _) fun rule => ?_
    split
    · refine .bind (.lift _) fun name => ?_
      split
      · exact .pure _
      · exact .halt _
    · exact .pure _
  refine .bind (firstOf_blind targets) fun target => .bind (.lift _) fun part =>
    .bind (.lift _) fun rule => ?_
  split
  · exact .bind (.halt _) fun _ => hsource
  · exact hsource

theorem when_onlyReports (hmode : mode.writes = false) (x : Gen Unit) :
    OnlyReports (mode.when x) := by
  rw [Mode.when, hmode]
  exact .pure ()

/-- **An operand that is not to be written** is resolved, and that is all. -/
theorem operand_onlyReports (hmode : mode.writes = false) (sc : Scope) (k : TextKey) (t : Tree) :
    OnlyReports (operand mode sc k t) :=
  .bind (.report (sc.resolve_blind t)) fun _ => .bind (when_onlyReports hmode _) fun _ => .pure _

theorem indexesFit_onlyReports (sc : Scope) (k : TextKey) (available : List String)
    (source : Tree) :
    OnlyReports (indexesFit sc k available source) := by
  refine .bind (.report (indexes_blind source)) fun ixs => ?_
  split
  · exact .pure _
  · refine .foldlM (fun fits ix => .bind (.shape _) fun t => ?_) ixs true
    exact .bind (operand_onlyReports rfl sc k t) fun o => .pure _

/-- **An assignment that is not to be written** only reports, whatever it is gone through for
instead. -/
theorem assign_onlyReports (hmode : mode.writes = false) (sc : Scope) (site : Site)
    (targets : List Tree) (source : Tree) :
    OnlyReports (assign mode sc site targets source) := by
  refine .bind (when_onlyReports hmode _) fun _ =>
    .bind (.report (isLookup_blind sc targets source)) fun lookup => ?_
  split
  · cases mode with
    | write => cases hmode
    | check available => exact .bind (indexesFit_onlyReports sc _ available source) fun _ => .pure _
    | idle => exact .halt _
  · exact .bind (when_onlyReports hmode _) fun _ => .pure _

end Emit

/-! ### What fits -/

namespace Fit

variable {level : Nat} {g g' : Generation}

theorem blockFits_eq_true {available : List String} {accepts : AssignKind → Bool}
    {report : String → Gen Unit} {block : List Ins}
    (h : blockFits sc level available accepts report block g = .ok true g') :
    ∀ i ∈ block, i.IsStep := by
  refine (foldlM_all (fun i : Ins => i.IsStep) ?_ _ h).2
  intro fits i k k' hpass
  have hfalse : ∀ {kind : String}, (do report kind; pure false : Gen Bool) k ≠ .ok true k' := by
    intro kind hkind
    obtain ⟨_, _, _, hkind⟩ := bind_eq_ok.mp hkind
    exact Bool.false_ne_true (pure_eq_ok.mp hkind).1
  cases i with
  | assign targets source =>
    obtain ⟨kind, _, _, hpass⟩ := bind_eq_ok.mp hpass
    exact ⟨(Bool.and_eq_true_iff.mp (pure_eq_ok.mp hpass).1).1, trivial⟩
  | arith targets left op right => exact ⟨(pure_eq_ok.mp hpass).1, trivial⟩
  | primitive kind args => exact ⟨(pure_eq_ok.mp hpass).1, trivial⟩
  | _ => exact absurd hpass hfalse

/--
**If an if fits into a single table**, its conditions ask for membership, and what stands in its
blocks and after its last `else` can stand in an action.
-/
theorem branch_eq_true {i : Ins} (h : branch sc level i g = .ok true g') :
    (∀ j ∈ i.chain, ∀ c cs, j.conditions = c :: cs → c.test = .member) ∧
    (∀ j ∈ i.chain, ∀ b bs, j.blocks = b :: bs → ∀ x ∈ b, x.IsStep) ∧
    ∀ b, (i.chain.getLast?.getD i).otherwise = some b → ∀ x ∈ b, x.IsStep := by
  simp only [branch, bind_eq_ok, pure_eq_ok] at h
  obtain ⟨membership, _, hmember, keys, _, _, later, _, _, b, _, hb, first, _, hfirst, laterBlocks,
    _, hlater, otherwise, _, hotherwise, hand, _⟩ := h
  simp only [Bool.and_eq_true] at hand
  obtain ⟨⟨⟨⟨⟨rfl, _⟩, _⟩, rfl⟩, rfl⟩, rfl⟩ := hand
  refine ⟨?_, ?_, ?_⟩
  · refine (foldlM_all (fun i : Ins => ∀ c cs, i.conditions = c :: cs →
      c.test = .member) ?_ _ hmember).2
    intro b i k k' hpass
    simp only [bind_eq_ok, pure_eq_ok] at hpass
    obtain ⟨c', _, hfirst, heq, _⟩ := hpass
    simp only [Bool.and_eq_true, beq_iff_eq] at heq
    refine ⟨heq.1, fun c cs hcs => ?_⟩
    rw [conditionOf, hcs] at hfirst
    cases hfirst
    exact heq.2
  · have hlater :=
      (foldlM_all (fun i : Ins => ∀ b bs, i.blocks = b :: bs → ∀ x ∈ b, x.IsStep) ?_ _ hlater).2
    · have hchain : ∀ j ∈ i.chain, j = i ∨ j ∈ i.chain.drop 1 := by
        intro j hj
        cases i with
        | branch cs bs e d => cases e <;> exact List.mem_cons.mp hj
        | _ => exact List.mem_cons.mp hj
      intro j hj b' bs hbs
      rcases hchain j hj with rfl | hj
      · rw [blockOf, hbs] at hb
        cases hb
        exact blockFits_eq_true hfirst
      · exact hlater j hj b' bs hbs
    · intro fits j k k' hpass
      simp only [bind_eq_ok, pure_eq_ok] at hpass
      obtain ⟨b', _, hb', fits', _, hfits', heq, _⟩ := hpass
      obtain ⟨rfl, rfl⟩ := Bool.and_eq_true_iff.mp heq
      refine ⟨rfl, fun b'' bs hbs => ?_⟩
      rw [blockOf, hbs] at hb'
      cases hb'
      exact blockFits_eq_true hfits'
  · intro b' hb'
    rw [otherwiseFits, hb'] at hotherwise
    exact blockFits_eq_true hotherwise

/--
**If a switch fits into a single table**, what stands in the functions that it calls can stand in an
action.  A function that has the name of a primitive is not looked at.
-/
theorem switch_eq_true {keys cases : List Tree} {calls : List Call}
    (h : switch sc level keys cases calls g = .ok true g') :
    ∀ f ∈ calls, f.name ≠ "nop" → f.name ≠ "drop" → ∀ body, sc.funcs.find? f.name = some body →
      ∀ i ∈ body, i.IsStep := by
  simp only [switch, bind_eq_ok] at h
  obtain ⟨texts, _, _, _, _, _, h⟩ := h
  refine (foldlM_all (fun f : Call => f.name ≠ "nop" → f.name ≠ "drop" →
    ∀ body, sc.funcs.find? f.name = some body →
    ∀ i ∈ body, i.IsStep) ?_ _ h).2
  intro fits f k k' hpass
  simp only [bind_eq_ok, pure_eq_ok] at hpass
  obtain ⟨b, _, hcall, heq, _⟩ := hpass
  obtain ⟨rfl, rfl⟩ := Bool.and_eq_true_iff.mp heq
  refine ⟨rfl, fun hnop hdrop body hbody => ?_⟩
  rw [switchCall, if_neg (by simp [hnop, hdrop]), hbody] at hcall
  exact blockFits_eq_true hcall

/-! ### The checks only report -/

section

variable (sc : Scope) (level : Nat)

theorem operand_onlyReports (t : Tree) : OnlyReports (operand sc t) :=
  Emit.operand_onlyReports rfl sc _ t

theorem conditionOf_onlyReports (i : Ins) : OnlyReports (conditionOf i) :=
  .report (firstOf_blind _)

theorem blockOf_onlyReports (i : Ins) : OnlyReports (blockOf i) :=
  .report (firstOf_blind _)

theorem reportMisfit_onlyReports (mark kind : String) : OnlyReports (reportMisfit mark kind) :=
  .report (.say _)

theorem blockFits_onlyReports (available : List String) (accepts : AssignKind → Bool)
    {report : String → Gen Unit} (hreport : ∀ kind, OnlyReports (report kind)) (block : List Ins) :
    OnlyReports (blockFits sc level available accepts report block) := by
  refine .foldlM (fun fits i => ?_) block true
  cases i with
  | assign targets source =>
    exact .bind (Emit.assign_onlyReports rfl sc _ targets source) fun _ => .pure _
  | arith _ _ _ _ => exact .pure _
  | primitive _ _ => exact .pure _
  | _ => exact .bind (hreport _) fun _ => .pure _

theorem firstKeys_onlyReports (i : Ins) : OnlyReports (firstKeys sc i) := by
  refine .bind (conditionOf_onlyReports i) fun c =>
    .foldlM (fun found t => .bind (operand_onlyReports sc t) fun o => ?_) _ _
  obtain ⟨keys, fits⟩ := found
  dsimp only
  split
  · exact .pure _
  · exact .bind (.report (.say _)) fun _ => .pure _

theorem laterKeysFit_onlyReports (keys : List String) (i : Ins) :
    OnlyReports (laterKeysFit sc keys i) := by
  refine .bind (conditionOf_onlyReports i) fun c =>
    .bind (.foldlM (fun fits t => ?_) _ _) fun _ => .pure _
  exact .bind (operand_onlyReports sc t) fun o => .pure _

theorem otherwiseFits_onlyReports (keys : List String) (i : Ins) :
    OnlyReports (otherwiseFits sc level keys i) := by
  unfold otherwiseFits
  split
  · exact blockFits_onlyReports sc level keys _ (reportMisfit_onlyReports _) _
  · exact .pure _

theorem branch_onlyReports (i : Ins) : OnlyReports (branch sc level i) := by
  refine .bind (.foldlM (fun fits l => .bind (conditionOf_onlyReports l) fun _ => .pure _) _ _)
    fun membership => ?_
  refine .bind (firstKeys_onlyReports sc i) fun found => ?_
  obtain ⟨keys, firstFits⟩ := found
  refine .bind (.foldlM (fun fits l => .bind (laterKeysFit_onlyReports sc keys l) fun _ => .pure _)
    _ _) fun laterFit => ?_
  refine .bind (blockOf_onlyReports i) fun b =>
    .bind (blockFits_onlyReports sc level keys _ (fun _ => .pure _) b) fun first => ?_
  refine .bind (.foldlM (fun fits l => .bind (blockOf_onlyReports l) fun b => ?_) _ _)
    fun laterBlocks => ?_
  · exact .bind (blockFits_onlyReports sc level keys _ (reportMisfit_onlyReports _) b)
      fun _ => .pure _
  exact .bind (otherwiseFits_onlyReports sc level keys _) fun _ => .pure _

theorem switchCase_blind (keyCount : Nat) (case : Tree) : Blind (switchCase sc keyCount case) := by
  refine .bind (.lift _) fun name => ?_
  split
  · exact .pure _
  · split
    · exact .halt _
    · split
      · exact .halt _
      · exact .pure _

theorem switchCall_onlyReports (keys : List String) (c : Call) :
    OnlyReports (switchCall sc level keys c) := by
  unfold switchCall
  split
  · exact .pure _
  · split
    · exact .halt _
    · exact blockFits_onlyReports sc level keys _ (reportMisfit_onlyReports _) _

theorem switch_onlyReports (keys cases : List Tree) (calls : List Call) :
    OnlyReports (switch sc level keys cases calls) := by
  refine .bind (OnlyReports.sequential.mapM keys fun k _ =>
    .bind (operand_onlyReports sc k) fun _ => .pure _) fun texts => ?_
  refine .bind (OnlyReports.sequential.forIn (fun case _ => ?_) cases _) fun _ => ?_
  · exact .bind (.report (switchCase_blind sc _ case)) fun _ => .pure _
  · exact .foldlM (fun fits c => .bind (switchCall_onlyReports sc level texts c) fun _ =>
      .pure _) calls true

/--
**Trying the single-table form has no effect.**  Wherever generation stands, a check ends with the
same answer or the same fault.  It may add lines to the console; the texts, the names drawn, the
scopes declared and the relation stay as they are.
-/
theorem checks_only_report :
    (∀ i, ∃ r said, ∀ g : Generation, branch sc level i g = ended r
      { g with console := g.console ++ said }) ∧
    ∀ keys cases calls, ∃ r said, ∀ g : Generation,
      switch sc level keys cases calls g = ended r { g with console := g.console ++ said } :=
  ⟨branch_onlyReports sc level, switch_onlyReports sc level⟩

end

end Fit

end Pathwise
