import Pathwise.Proofs.Fragment.References

/-!
# Statements and conditions without tables

What is written for statements and for conditions without a table is plain.  The lemmas hold for
every property of effects that joined effects and plain effects have (`Absorbs`), since the same
statements stand in control code and in the actions of tables.
-/

namespace Pathwise

open Steps List

variable {sc : Scope} {ps : List Piece} {C : Effect → Prop}

/-- Properties of effects that joined effects and plain effects have. -/
structure Absorbs (sc : Scope) (C : Effect → Prop) : Prop extends Joins C where
  plain : ∀ e, Plain sc e → C e

theorem absorbs_sound (S : Setting) (sc : Scope) : Absorbs sc (Sound S sc) where
  toJoins := sound_joins S sc
  plain _ h := h.sound S

theorem Absorbs.control (hC : Absorbs sc C) (hps : ∀ p ∈ ps, p.IsPlain sc) :
    C (.write .control ps) :=
  hC.plain _ (.write fun p hp => ⟨.inl rfl, hps p hp⟩)

theorem Absorbs.text (hC : Absorbs sc C) (site : Site) (hps : ∀ p ∈ ps, p.IsPlain sc) :
    C (.write site.text.kind ps) := by
  refine hC.plain _ (.write fun p hp => ⟨?_, hps p hp⟩)
  show (if site.inAction then TextKind.action else .control) = .control ∨
    (if site.inAction then TextKind.action else .control) = .action
  cases site.inAction
  · exact .inl rfl
  · exact .inr rfl

theorem Keeps.emit {f : String} {kind : TextKind} (hkind : kind ≠ .vars) (hC : C (.write kind ps)) :
    Keeps f C (Gen.emit ⟨f, kind⟩ ps) fun _ => True :=
  fun _ _ _ h => ⟨_, .emit h hkind, trivial, hC⟩

namespace Emit

variable {site : Site}

theorem assign_keeps (hC : Absorbs sc C) (site : Site) (targets : List Tree) (source : Tree)
    (hlookup : site.inAction = false → ∀ name map, sc.maps.find? name = some map →
      Keeps site.fragment C (lookup sc site targets source name map) fun _ => True) :
    Keeps site.fragment C (assign .write sc site targets source) fun _ => True := by
  intro g b g' h
  obtain ⟨_, t, ts, o, o', rfl, ho, ho', p⟩ | ⟨_, g1, t, ts, rfl, p, hparams, hasks⟩ :=
    assign_cases h
  · refine ⟨_, p, trivial, hC.text site (Piece.forall_isPlain rfl ?_)⟩
    simp [Scope.known_of_operand? ho, Scope.known_of_operand? ho']
  · have hindent : C (.write site.text.kind [.indent site.level]) :=
      hC.text site (Piece.forall_isPlain rfl (by simp))
    cases hsite : site.inAction with
    | true =>
      obtain ⟨_, p'⟩ := fromParams_eq_ok (hparams hsite)
      exact ⟨_, p.trans p', trivial,
        hC.append hindent (hC.text site (isPlain_paramPieces sc site.level _))⟩
    | false =>
      obtain ⟨name, map, hmap, h⟩ := hasks hsite
      obtain ⟨e, p', _, he⟩ := hlookup hsite name map hmap h
      exact ⟨_, p.trans p', trivial, hC.append hindent he⟩

theorem arith_keeps (hC : Absorbs sc C) (site : Site) (targets : List Tree) (left : Tree)
    (op : String) (right : Tree) :
    Keeps site.fragment C (arith sc site targets left op right) fun _ => True := by
  intro g u g' h
  obtain ⟨t, ts, o, l, r, rfl, ho, hl, hr, p⟩ := arith_eq_ok h
  refine ⟨_, p, trivial, hC.text site (Piece.forall_isPlain rfl ?_)⟩
  simp [Scope.known_of_operand? ho, Scope.known_of_operand? hl, Scope.known_of_operand? hr]

theorem primitive_keeps (hC : Absorbs sc C) (site : Site) (kind : String) (args : List Tree) :
    Keeps site.fragment C (primitive sc site kind args) fun _ => True := by
  intro g u g' h
  obtain ⟨ps, hps, p⟩ := primitive_eq_ok h
  exact ⟨_, p, trivial, hC.text site (hps.isPlain site.level)⟩

theorem comparison_keeps (hC : Absorbs sc C) (cmp : Comparison) (c : Condition) :
    Keeps site.fragment C (comparison sc site cmp c) fun _ => True := by
  intro g u g' h
  obtain ⟨l, ls, r, rs, o, o', _, _, ho, ho', p⟩ := comparison_eq_ok h
  refine ⟨_, p, trivial, hC.control (Piece.forall_isPlain rfl ?_)⟩
  simp [Scope.known_of_operand? ho, Scope.known_of_operand? ho']

theorem validity_keeps (hC : Absorbs sc C) (c : Condition) :
    Keeps site.fragment C (validity site c) fun _ => True := by
  intro g u g' h
  obtain ⟨t, ts, owner, name, _, _, _, p⟩ := validity_eq_ok h
  refine ⟨_, p, trivial, hC.control (Piece.forall_isPlain rfl ?_)⟩
  simp [Scope.Known]

theorem emitControl_keeps (hC : Absorbs sc C) (hps : ps.all Piece.isInert = true) :
    Keeps site.fragment C (Gen.emit (site.key .control) ps) fun _ => True :=
  .emit (by decide) (hC.control fun p hp => Piece.isPlain_of_inert (all_eq_true.mp hps p hp))

theorem closeBlocks_keeps (hC : Absorbs sc C) (site : Site) (n : Nat) :
    Keeps site.fragment C (closeBlocks site n) fun _ => True := by
  induction n with
  | zero => exact .pure hC.toJoins trivial
  | succ n ih =>
    unfold closeBlocks
    exact .bind hC.toJoins (emitControl_keeps hC rfl) fun _ _ => ih

theorem steps_plain {run : Job → Gen Unit} {frag : String} {level n : Nat} (is : List Ins)
    (hsteps : ∀ i ∈ is, i.IsStep) :
    Keeps frag (Plain sc) (block run sc ⟨frag, level, true⟩ ⟨false, n, 0⟩ is) fun _ => True := by
  intro g u g' h
  obtain ⟨ps, ss, p, _, _, hplain⟩ := block_eq_ok is hsteps h
  exact ⟨_, p, trivial, .write fun p hp => ⟨.inr rfl, hplain p hp⟩⟩

end Emit

end Pathwise
