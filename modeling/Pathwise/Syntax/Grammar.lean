import Pathwise.Syntax.Token

/-!
# Grammars

A grammar is written as a list of named rules in extended Backus-Naur form (`Ebnf`) and brought into
plain alternatives by `Grammar.ofRules`.  The order of the alternatives of one rule is part of the
language's definition, since it decides between several derivations of one text: an alternative
written first comes first, and an optional part that is present comes before one that is absent.

A repetition becomes a helper rule of its own, which has no name and leaves no node in the tree: its
children belong to the rule that it stands in.
-/

namespace Pathwise

inductive Ebnf where
  | empty
  | token (t : Token)
  | rule (name : String)
  | seq (first second : Ebnf)
  | alt (first second : Ebnf)
  /-- one or more times -/
  | many1 (body : Ebnf)
deriving Repr, DecidableEq, Inhabited

namespace Ebnf

def lit (text : String) : Ebnf := token (.literal text)

def lbrace : Ebnf := lit "\x7b"

def rbrace : Ebnf := lit "\x7d"

def all : List Ebnf → Ebnf
  | [] => empty
  | [e] => e
  | e :: es => seq e (all es)

/-- One of several alternatives, in order of preference. -/
def oneOf : List Ebnf → Ebnf
  | [] => empty
  | [e] => e
  | e :: es => alt e (oneOf es)

def opt (e : Ebnf) : Ebnf := alt e empty

def many (e : Ebnf) : Ebnf := opt (many1 e)

/-- `e` one or more times with `sep` between neighbours. -/
def sepBy1 (e sep : Ebnf) : Ebnf := seq e (many (seq sep e))

end Ebnf

/-- What an alternative is made of: a token, or a rule given by its number. -/
inductive Sym where
  | token (t : Token)
  | rule (id : Nat)
deriving Repr, DecidableEq, Inhabited

namespace Sym

def isToken : Sym → Bool
  | token _ => true
  | rule _ => false

end Sym

/-- A rule with its alternatives in order of preference; a helper rule has no name. -/
structure Rule where
  name : Option String
  alternatives : List (List Sym)
deriving Repr, DecidableEq, Inhabited

/-- A grammar in plain alternatives.  The first rule derives whole texts. -/
structure Grammar where
  rules : Array Rule
  /-- for each rule, whether it derives the empty text -/
  nullable : Array Bool
deriving Repr, Inhabited

namespace Grammar

/-- The rule that a whole text has to derive from. -/
def startRule : Nat := 0

/-- The alternatives of rule `id`; a number without a rule has none. -/
def alternativesOf (g : Grammar) (id : Nat) : List (List Sym) :=
  match g.rules[id]? with
  | some r => r.alternatives
  | none => []

def nameOf (g : Grammar) (id : Nat) : Option String :=
  g.rules[id]?.bind (·.name)

def isNullable (g : Grammar) (id : Nat) : Bool :=
  g.nullable[id]?.getD false

/-- What is collected while right sides are brought into alternatives. -/
structure Expansion where
  /-- the helper rules made so far; the first of them has the number `base` -/
  helpers : List (Ebnf × Rule)
  base : Nat
deriving Inhabited

namespace Expansion

/-- The number of the helper rule for a repetition, if there is one already. -/
def find? (st : Expansion) (e : Ebnf) : Option Nat :=
  (st.helpers.findIdx? (·.1 = e)).map (st.base + ·)

end Expansion

/--
The alternatives that a right side stands for, in order of preference.  A repetition is replaced by
a helper rule, which derives the body once, or itself and then the body.
-/
def alternatives (ruleNames : List String) : Ebnf → StateM Expansion (List (List Sym))
  | .empty => pure [[]]
  | .token t => pure [[.token t]]
  | .rule n => pure [[.rule (ruleNames.idxOf n)]]
  | .seq a b => do
    let xs ← alternatives ruleNames a
    let ys ← alternatives ruleNames b
    pure (xs.flatMap fun x => ys.map fun y => x ++ y)
  | .alt a b => do
    let xs ← alternatives ruleNames a
    let ys ← alternatives ruleNames b
    pure (xs ++ ys)
  | .many1 e => do
    let bodies ← alternatives ruleNames e
    let st ← get
    match st.find? e with
    | some id => pure [[.rule id]]
    | none =>
      let id := st.base + st.helpers.length
      let helper : Rule := ⟨none, bodies ++ bodies.map (Sym.rule id :: ·)⟩
      set { st with helpers := st.helpers ++ [(e, helper)] }
      pure [[.rule id]]

/-- One round of marking rules as nullable: those with an alternative of nullable rules only. -/
def markNullable (rules : List Rule) (marks : Array Bool) : Array Bool :=
  (rules.map fun r => r.alternatives.any fun alt => alt.all fun
    | .token _ => false
    | .rule id => marks[id]?.getD false).toArray

/-- Rounds of marking, one for each rule, after which no mark is missing. -/
def nullableRules (rules : List Rule) : Array Bool :=
  rules.foldl (fun marks _ => markNullable rules marks) #[]

def ofRules (defs : List (String × Ebnf)) : Grammar :=
  let ruleNames := defs.map (·.1)
  let expand (r : String × Ebnf) : StateM Expansion Rule := do
    pure ⟨some r.1, (← alternatives ruleNames r.2).eraseDups⟩
  let (named, st) := (defs.mapM expand).run ⟨[], defs.length⟩
  let rules := named ++ st.helpers.map (·.2)
  ⟨rules.toArray, nullableRules rules⟩

end Grammar

end Pathwise
