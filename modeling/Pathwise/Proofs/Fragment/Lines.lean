import Pathwise.Proofs.Fragment.Statement

/-!
# The lines of generated code

How every line spells its tokens, at any level of indentation.  A line ends with a line break, so
what follows cannot run on into it; inside a line, operands are words and the marks around them are
none.  Only the test of a header's validity writes a word in two parts.
-/

namespace Pathwise

open List

theorem tokensOf_margin (level : Nat) (rest : List Char) :
    tokensOf ((Piece.margin level).toList ++ rest) = tokensOf rest := by
  rw [Piece.margin, String.toList_ofList, tokensOf, scan_blanks]
  rfl

theorem tokensOf_word_append {w : String} (hw : IsWord w) (sep : String) (hne : sep.toList ≠ [])
    (hsep : sep.toList.head?.bind charKind ≠ some .word) (rest : List Char) :
    tokensOf (w.toList ++ (sep.toList ++ rest)) = w :: tokensOf (sep.toList ++ rest) := by
  refine tokensOf_word hw ?_
  obtain ⟨c, cs, hcs⟩ := exists_cons_of_ne_nil hne
  rw [hcs] at hsep ⊢
  exact hsep

theorem IsWord.append {w v : String} (hw : IsWord w) (hv : IsWord v) : IsWord (w ++ v) := by
  refine ⟨?_, ?_⟩
  · rw [String.toList_append]
    exact append_ne_nil_of_left_ne_nil hw.1 _
  · intro c hc
    rw [String.toList_append, mem_append] at hc
    exact hc.elim (hw.2 c) (hv.2 c)

namespace Spells

variable {o o' l r : Operand} {p : Piece} {ps : List Piece} {ts : List String}

/-! ### One piece at a time -/

theorem indented (level : Nat) (h : Spells ps ts) : Spells (.indent level :: ps) ts := by
  intro rest
  rw [Piece.chars_cons, append_assoc]
  exact (tokensOf_margin level _).trans (h rest)

theorem piece (us : List String)
    (hp : ∀ rest, tokensOf (p.text.toList ++ rest) = us ++ tokensOf rest) (h : Spells ps ts) :
    Spells (p :: ps) (us ++ ts) := by
  intro rest
  rw [Piece.chars_cons, append_assoc, hp, h, append_assoc]

theorem word (ho : IsWord o.text) (hne : p.text.toList ≠ [])
    (hsep : p.text.toList.head?.bind charKind ≠ some .word) (h : Spells (p :: ps) ts) :
    Spells (.operand o :: p :: ps) (o.text :: ts) := by
  intro rest
  have htail := h rest
  rw [Piece.chars_cons, append_assoc] at htail
  rw [Piece.chars_cons, Piece.chars_cons, append_assoc, append_assoc]
  exact (tokensOf_word_append ho _ hne hsep _).trans (congrArg (o.text :: ·) htail)

theorem endStatement : Spells [.endStatement] [";"] := piece [";"] (fun _ => rfl) nil

theorem assignSign (h : Spells ps ts) : Spells (.assignSign :: ps) ("=" :: ts) := piece ["="]
    (fun _ => rfl) h

theorem ifOpen (h : Spells ps ts) : Spells (.ifOpen :: ps) ("if" :: "(" :: ts) :=
  piece ["if", "("] (fun _ => rfl) h

/-! ### Lines -/

theorem assign (level : Nat) (ho : IsWord o.text) (ho' : IsWord o'.text) :
    Spells [.indent level, .operand o, .assignSign, .operand o', .endStatement]
      (Statement.assign o.text o'.text).tokens := by
  have hsource : Spells [.operand o', .endStatement] [o'.text, ";"] :=
    endStatement.word ho' (by decide) (by decide)
  exact (hsource.assignSign.word ho (by decide) (by decide)).indented level

theorem arith (level : Nat) (ho : IsWord o.text) (hl : IsWord l.text) (hr : IsWord r.text)
    {op : String} (hop : op = "+" ∨ op = "-") :
    Spells [.indent level, .operand o, .assignSign, .operand l, .operator op, .operand r,
      .endStatement]
      (Statement.arith o.text l.text op r.text).tokens := by
  have hright : Spells [.operand r, .endStatement] [r.text, ";"] :=
    endStatement.word hr (by decide) (by decide)
  have hsum : Spells [.operand l, .operator op, .operand r, .endStatement]
      [l.text, op, r.text, ";"] := by
    rcases hop with rfl | rfl
    · exact word hl (by decide) (by decide) (piece ["+"] (fun _ => rfl) hright)
    · exact word hl (by decide) (by decide) (piece ["-"] (fun _ => rfl) hright)
  exact (hsum.assignSign.word ho (by decide) (by decide)).indented level

theorem drop (level : Nat) : Spells [.indent level, .dropPacket] Statement.drop.tokens :=
  (piece ["LynetteDrop", ";"] (fun _ => rfl) nil).indented level

theorem empty (level : Nat) : Spells [.indent level, .endStatement] Statement.empty.tokens :=
  endStatement.indented level

theorem compare (level : Nat) (c : Comparison) (ho : IsWord o.text) (ho' : IsWord o'.text) :
    Spells [.indent level, .ifOpen, .operand o, .compareSign c, .operand o', .ifClose]
      ("if" :: "(" :: (Guard.compare o.text c o'.text).tokens ++ [")"]) := by
  have hclose : Spells [.ifClose] [")"] := piece [")"] (fun _ => rfl) nil
  have hright : Spells [.operand o', .ifClose] [o'.text, ")"] :=
    hclose.word ho' (by decide) (by decide)
  have hguard : Spells [.operand o, .compareSign c, .operand o', .ifClose]
      [o.text, c.sign, o'.text, ")"] := by
    cases c <;> exact word ho (by decide) (by decide) (piece [_] (fun _ => rfl) hright)
  exact hguard.ifOpen.indented level

theorem valid (ho : IsWord o.text) :
    Spells [.ifOpen, .operand o, .validClose]
    ("if" :: "(" :: (Guard.valid o.text).tokens ++ [")"]) := by
  -- the operand and the first part of what follows are one word
  have hword : IsWord (o.text ++ validEnding) := ho.append (by decide)
  have htest : Spells [.operand o, .validClose] [o.text ++ validEnding, "(", ")", ")"] := by
    intro rest
    have htail := tokensOf_word_append hword "())\n" (by decide) (by decide) rest
    rw [String.toList_append, append_assoc] at htail
    rw [Piece.chars_cons, Piece.chars_cons, append_assoc, append_assoc]
    exact htail
  exact htest.ifOpen

theorem blockOpen (level : Nat) : Spells [.indent level, .blockOpen] ["\x7b"] :=
  (piece ["\x7b"] (fun _ => rfl) nil).indented level

theorem blockClose (level : Nat) : Spells [.indent level, .blockClose] ["\x7d"] :=
  (piece ["\x7d"] (fun _ => rfl) nil).indented level

theorem elseOpen (level : Nat) :
    Spells [.indent level, .elseLine, .indent level, .blockOpen] ["else", "\x7b"] := by
  have helse : Spells (.elseLine :: [.indent level, .blockOpen]) ["else", "\x7b"] :=
    piece ["else"] (fun _ => rfl) (blockOpen level)
  exact helse.indented level

end Spells

end Pathwise
