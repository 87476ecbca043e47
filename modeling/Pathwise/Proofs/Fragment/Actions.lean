import Pathwise.Proofs.Fragment.Emitted
import Pathwise.Proofs.Fragment.MatchTable

/-!
# The bodies of actions

Inside an action every instruction is one line, or one line for each target of an assignment from a
map, which takes the parameters of the action in order.  `Scope.statements?` says which statements a
block becomes there, and `block_eq_ok` that these can be read off what is written for the block.
-/

namespace Pathwise

open Steps List Option

/-! ### The statements of a block -/

namespace Scope

variable (sc : Scope)

/-- A target takes a parameter. -/
def fromParam? (x : Tree × Nat) : Option Statement :=
  (sc.text? x.1).map fun o => .assign o (paramName x.2)

/-- The statements that an instruction becomes in an action. -/
def lines? : Ins → Option (List Statement)
  | .assign targets source =>
    if source.isIndexed then targets.zipIdx.mapM sc.fromParam?
    else do some [.assign (← sc.text? (← targets.head?)) (← sc.text? source)]
  | .arith targets l op r => do
    some [.arith (← sc.text? (← targets.head?)) (← sc.text? l) op (← sc.text? r)]
  | .primitive kind args =>
    if kind = "drop" then some [.drop]
    else if kind = "nop" then some [.empty]
    else if kind = "headercompress" then do some [.compress (← sc.text? (← args.head?))]
    else none
  | _ => none

/-- The statements that a block becomes in an action. -/
def statements? : List Ins → Option (List Statement)
  | [] => some []
  | i :: is => do some ((← sc.lines? i) ++ (← statements? is))

end Scope

/-! ### Bodies -/

/-- Pieces that begin neither a line nor an action. -/
def Piece.isInner (p : Piece) : Bool :=
  !p.isIndent && !p.isActionHead

/-- Pieces that are read as the body of an action. -/
structure IsBody (ps : List Piece) (ss : List Statement) : Prop where
  read : readBody? ps = some ss
  headless : ∀ p ∈ ps, p.isActionHead = false

namespace IsBody

variable {ps qs : List Piece} {ss ts : List Statement}

theorem nil : IsBody [] [] :=
  ⟨rfl, forall_mem_nil _⟩

theorem append (hp : IsBody ps ss) (hq : IsBody qs ts) : IsBody (ps ++ qs) (ss ++ ts) :=
  ⟨readGroups?_append hp.read hq.read, forall_mem_append.mpr ⟨hp.headless, hq.headless⟩⟩

theorem line {level : Nat} {s : Statement} (hread : readLine? (.indent level :: ps) = some s)
    (hinner : ps.all Piece.isInner = true) : IsBody (.indent level :: ps) [s] := by
  have hps : ∀ p ∈ ps, p.isIndent = false ∧ p.isActionHead = false := by
    intro p hp
    have := all_eq_true.mp hinner p hp
    simpa [Piece.isInner] using this
  exact ⟨readGroups?_group rfl (fun p hp => (hps p hp).1) hread,
    forall_mem_cons.mpr ⟨rfl, fun p hp => (hps p hp).2⟩⟩

end IsBody

theorem readActions?_actionPieces (name : String) {params ps : List Piece} {ss : List Statement}
    (hparams : ∀ p ∈ params, p.isActionParam = true) (hbody : IsBody ps ss) :
    readActions? (actionPieces name params ps) = some [⟨name, params.length, ss⟩] := by
  refine readGroups?_group rfl ?_ (readAction?_actionPieces name hparams hbody.read)
  intro p hp
  rcases mem_append.mp hp with hp | hp
  · cases p with
    | actionHead a => exact absurd (hparams _ hp) Bool.false_ne_true
    | _ => rfl
  · rcases mem_cons.mp hp with rfl | hp
    · rfl
    · rcases mem_append.mp hp with hp | hp
      · exact hbody.headless p hp
      · rw [mem_singleton.mp hp]
        rfl

namespace Emit

variable {g g' : Generation} {sc : Scope} {site : Site}

variable {targets : List Tree} {u : Unit} {run : Job → Gen Unit} {frag : String} {level : Nat}

/-! ### Assignments from a map -/

/-- What is written after the margin of the first line, for one target after another. -/
def paramPieces (sc : Scope) (level : Nat) (x : Tree × Nat) : List Piece :=
  (if x.2 = 0 then [] else [.indent level]) ++ match sc.operand? x.1 with
    | some o => [.operand o, .assignSign, .param x.2, .endStatement]
    | none => []

theorem isPlain_paramPieces (sc : Scope) (level : Nat) (xs : List (Tree × Nat)) :
    ∀ p ∈ xs.flatMap (paramPieces sc level), p.IsPlain sc := by
  refine forall_mem_flatMap.mpr fun x _ => forall_mem_append.mpr ⟨?_, ?_⟩
  · split
    · exact forall_mem_nil _
    · exact Piece.forall_isPlain rfl (by simp)
  · cases ho : sc.operand? x.1 with
    | none => exact forall_mem_nil _
    | some o => exact Piece.forall_isPlain rfl (by simpa using Scope.known_of_operand? ho)

theorem fromParams_eq_ok (h : fromParams sc site targets g = .ok u g') :
    (∀ x ∈ targets.zipIdx, ∃ o, sc.operand? x.1 = some o) ∧
      Performs site.fragment g (.write site.text.kind
        (targets.zipIdx.flatMap (paramPieces sc site.level))) g' := by
  simp only [fromParams, bind_eq_ok, pure_eq_ok] at h
  obtain ⟨_, g1, h, _, rfl⟩ := h
  refine Performs.forIn _ _ _ ?_ _ h
  rintro ⟨t, i⟩ g r g' hpass
  have hline : ∀ {g0 : Generation}, (do
      let o ← operand .write sc site.text t
      Gen.recordOutput site.fragment o.text
      Gen.emit site.text [.assignSign, .param i, .endStatement]
      pure (ForInStep.yield PUnit.unit) : Gen (ForInStep PUnit)) g0 = .ok r g' →
      r = .yield ⟨⟩ ∧ ∃ o, sc.operand? t = some o ∧
        Performs site.fragment g0 (.write site.text.kind
          [.operand o, .assignSign, .param i, .endStatement]) g' := by
    intro g0 hline
    simp only [bind_eq_ok, pure_eq_ok] at hline
    obtain ⟨o, g1, h1, _, g2, h2, _, g3, h3, rfl, rfl⟩ := hline
    obtain ⟨ho, p1⟩ := operandText_eq_ok h1
    exact ⟨rfl, o, ho, (p1.silent (.recordOutput h2)).append (emitText_eq_ok h3)⟩
  by_cases hi : i = 0
  · rw [if_neg (by simpa using hi)] at hpass
    obtain ⟨rfl, o, ho, hp⟩ := hline hpass
    refine ⟨rfl, ⟨o, ho⟩, ?_⟩
    simpa only [paramPieces, hi, if_true, ho, nil_append] using hp
  · rw [if_pos (by simpa using hi)] at hpass
    obtain ⟨_, g1, h1, h2⟩ := bind_eq_ok.mp hpass
    obtain ⟨rfl, o, ho, hp⟩ := hline h2
    refine ⟨rfl, ⟨o, ho⟩, ?_⟩
    have hboth := (emitText_eq_ok h1).append hp
    simpa only [paramPieces, hi, if_false, ho] using hboth

theorem isBody_paramPieces (level : Nat) : ∀ (ts : List Tree) (n : Nat),
    (∀ x ∈ ts.zipIdx (n + 1), ∃ o, sc.operand? x.1 = some o) →
    ∃ ss, (ts.zipIdx (n + 1)).mapM sc.fromParam? = some ss ∧
      IsBody ((ts.zipIdx (n + 1)).flatMap (paramPieces sc level)) ss := by
  intro ts
  induction ts with
  | nil => exact fun n _ => ⟨[], rfl, .nil⟩
  | cons t ts ih =>
    intro n h
    rw [zipIdx_cons] at h ⊢
    obtain ⟨⟨o, ho⟩, hts⟩ := forall_mem_cons.mp h
    obtain ⟨ss, hss, hbody⟩ := ih (n + 1) hts
    refine ⟨.assign o.text (paramName (n + 1)) :: ss, ?_, ?_⟩
    · rw [mapM_cons, hss, Scope.fromParam?, Scope.text?_eq ho]
      rfl
    · have hline : IsBody (paramPieces sc level (t, n + 1))
          [.assign o.text (paramName (n + 1))] := by
        rw [paramPieces, if_neg (Nat.succ_ne_zero n), ho]
        exact .line rfl rfl
      exact hline.append hbody

theorem isBody_fromParams {t : Tree} {ts : List Tree} (level : Nat)
    (h : ∀ x ∈ (t :: ts).zipIdx, ∃ o, sc.operand? x.1 = some o) :
    ∃ ss, (t :: ts).zipIdx.mapM sc.fromParam? = some ss ∧
      IsBody ([.indent level] ++ (t :: ts).zipIdx.flatMap (paramPieces sc level)) ss := by
  rw [zipIdx_cons] at h ⊢
  obtain ⟨⟨o, ho⟩, hts⟩ := forall_mem_cons.mp h
  obtain ⟨ss, hss, hbody⟩ := isBody_paramPieces level ts 0 hts
  refine ⟨.assign o.text (paramName 0) :: ss, ?_, ?_⟩
  · rw [mapM_cons, hss, Scope.fromParam?, Scope.text?_eq ho]
    rfl
  · have hline : IsBody ([.indent level] ++ paramPieces sc level (t, 0))
        [.assign o.text (paramName 0)] := by
      rw [paramPieces, if_pos rfl, ho]
      exact .line rfl rfl
    rw [flatMap_cons, ← append_assoc]
    exact hline.append hbody

/-! ### Blocks -/

theorem step_eq_ok {n : Nat} {i : Ins} {is : List Ins}
    (hi : i.IsStep) (h : block run sc ⟨frag, level, true⟩ ⟨false, n, 0⟩ (i :: is) g = .ok u g') :
    ∃ g1 ps ss, Performs frag g (.write .action ps) g1 ∧ sc.lines? i = some ss ∧ IsBody ps ss ∧
      (∀ p ∈ ps, p.IsPlain sc) ∧
      block run sc ⟨frag, level, true⟩ ⟨false, n + 1, 0⟩ is g1 = .ok u g' := by
  cases i with
  | assign targets source =>
    rw [block_assign, bind_eq_ok] at h
    obtain ⟨b, g1, h1, h2⟩ := h
    obtain ⟨hs, t, ts, o, o', rfl, ho, ho', hp⟩ | ⟨hs, g0, t, ts, rfl, p0, hparams, _⟩ :=
      assign_cases h1
    · refine ⟨g1, _, [.assign o.text o'.text], hp, ?_, .line rfl rfl, ?_, h2⟩
      · simp only [Scope.lines?, hs, Bool.false_eq_true, if_false, head?_cons,
          bind_eq_bind, bind_some, Scope.text?_eq ho, Scope.text?_eq ho']
      · exact Piece.forall_isPlain rfl
          (by simp [Scope.known_of_operand? ho, Scope.known_of_operand? ho'])
    · obtain ⟨hall, hp⟩ := fromParams_eq_ok (hparams rfl)
      obtain ⟨ss, hss, hbody⟩ := isBody_fromParams level hall
      refine ⟨g1, _, ss, p0.append hp, by rw [Scope.lines?, if_pos hs, hss],
        hbody, forall_mem_append.mpr ⟨?_, ?_⟩, h2⟩
      · exact Piece.forall_isPlain rfl (by simp)
      · exact isPlain_paramPieces sc level _
  | arith targets l op r =>
    rw [block_arith, bind_eq_ok] at h
    obtain ⟨_, g1, h1, h2⟩ := h
    obtain ⟨t, ts, o, ol, or, rfl, ho, hol, hor, hp⟩ := arith_eq_ok h1
    refine ⟨g1, _, [.arith o.text ol.text op or.text], hp, ?_, .line rfl rfl, ?_, h2⟩
    · simp only [Scope.lines?, head?_cons, bind_eq_bind, bind_some, Scope.text?_eq ho,
        Scope.text?_eq hol, Scope.text?_eq hor]
    · exact Piece.forall_isPlain rfl
        (by simp [Scope.known_of_operand? ho, Scope.known_of_operand? hol,
        Scope.known_of_operand? hor])
  | primitive kind args =>
    rw [block_primitive, bind_eq_ok] at h
    obtain ⟨_, g1, h1, h2⟩ := h
    obtain ⟨ps, hps, hp⟩ := primitive_eq_ok h1
    have hplain := hps.isPlain level
    cases hps with
    | drop hk => exact ⟨g1, _, [.drop],
      hp, by rw [Scope.lines?, if_pos hk], .line rfl rfl, hplain, h2⟩
    | compress hk ha ho =>
      refine ⟨g1, _, _, hp, ?_, .line rfl rfl, hplain, h2⟩
      rw [Scope.lines?, if_neg (by rw [hk]; decide), if_neg (by rw [hk]; decide), if_pos hk, ha]
      simp only [head?_cons, bind_eq_bind, bind_some, Scope.text?_eq ho]
    | nop hk =>
      refine ⟨g1, _, [.empty], hp, ?_, .line rfl rfl, hplain, h2⟩
      rw [Scope.lines?, if_neg (by rw [hk]; decide), if_pos hk]
  | call c => exact hi.elim
  | assert cs => exact hi.elim
  | branch cs bs e d => exact hi.elim
  | switch keys cases calls => exact hi.elim
  | other kind => exact hi.elim

/-- **A block of steps is written as the body of an action**, and it is plain. -/
theorem block_eq_ok :
    ∀ (is : List Ins) {n : Nat} {g g' : Generation} {u : Unit}, (∀ i ∈ is, i.IsStep) →
    block run sc ⟨frag, level, true⟩ ⟨false, n, 0⟩ is g = .ok u g' →
    ∃ ps ss, Performs frag g (.write .action ps) g' ∧ sc.statements? is = some ss ∧ IsBody ps ss ∧
      ∀ p ∈ ps, p.IsPlain sc := by
  intro is
  induction is with
  | nil =>
    intro n g g' u _ h
    obtain ⟨_, rfl⟩ := pure_eq_ok.mp h
    exact ⟨[], [], Effect.write_nil .action ▸ .refl frag g, rfl, .nil, forall_mem_nil _⟩
  | cons i is ih =>
    intro n g g' u hsteps h
    obtain ⟨hi, his⟩ := forall_mem_cons.mp hsteps
    obtain ⟨g1, ps, ss, hp, hss, hbody, hplain, hrest⟩ := step_eq_ok hi h
    obtain ⟨qs, ts, hp', hts, hbody', hplain'⟩ := ih his hrest
    refine ⟨ps ++ qs, ss ++ ts, hp.append hp', ?_, hbody.append hbody',
      forall_mem_append.mpr ⟨hplain, hplain'⟩⟩
    rw [Scope.statements?, hss, hts]
    rfl

end Emit

end Pathwise
