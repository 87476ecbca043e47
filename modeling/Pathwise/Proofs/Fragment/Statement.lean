import Pathwise.Proofs.Fragment.Meaning

/-!
# Generated statements

The statements that control code and actions consist of, with their meaning, and a reader that gets
them back from their text.  Reading goes in two steps.  `tokensOf` cuts a text into words (letters,
digits, underscores and points), runs of operator signs and single marks.  `readStatements` reads
statements off the tokens; the body of an if stands in braces.

* `readText_of_spells`: statements whose targets are no keywords are read back from any text that
  spells their tokens.
* `Spells`: a piece of text spells its tokens whatever follows it, so that spellings can be put
  together.
-/

namespace Pathwise

open List Option

variable {rest : List Char} {ps : List Piece} {ts : List String}

/-! ### Statements -/

/-- What an if tests. -/
inductive Guard where
  | compare (left : String) (c : Comparison) (right : String)
  | valid (header : String)

/-- A statement.  Operands are the words they are written as. -/
inductive Statement where
  | assign (target source : String)
  | arith (target left op right : String)
  | drop
  | compress (operand : String)
  | empty
  | ifThen (guard : Guard) (body : List Statement)
  | ifElse (guard : Guard) (body other : List Statement)

section Run

variable {V : Type} (μ : Meaning V) (params : String → Option V)

def Store.readWith (σ : Store V) (word : String) : V :=
  (params word).getD (σ.read μ word)

def Guard.holds (σ : Store V) : Guard → Bool
  | compare l c r => μ.compare c (σ.readWith μ params l) (σ.readWith μ params r)
  | valid header => σ.valid header

mutual

def Statement.run : Statement → Store V → Store V
  | .assign t s, σ => σ.set t (σ.readWith μ params s)
  | .arith t l op r, σ => σ.set t (μ.combine op (σ.readWith μ params l) (σ.readWith μ params r))
  | .drop, σ => σ.mark .dropped
  | .compress o, σ => σ.mark (.compressed o)
  | .empty, σ => σ
  | .ifThen g body, σ => if g.holds μ params σ then Statement.runAll body σ else σ
  | .ifElse g body other, σ =>
    if g.holds μ params σ then Statement.runAll body σ else Statement.runAll other σ

def Statement.runAll : List Statement → Store V → Store V
  | [], σ => σ
  | s :: ss, σ => Statement.runAll ss (Statement.run s σ)

end

theorem Statement.runAll_append (ss ts : List Statement) (σ : Store V) :
    Statement.runAll μ params (ss ++ ts) σ = Statement.runAll μ params ts
      (Statement.runAll μ params ss σ) := by
  induction ss generalizing σ with
  | nil => rfl
  | cons s ss ih => exact ih _

end Run

/-- Outside of an action no word is a parameter. -/
def noParams {V : Type} : String → Option V := fun _ => none

/-! ### Cutting a text into tokens -/

/-- How a character joins with its neighbours: words and signs run on, a mark stands alone. -/
inductive CharKind where
  | word
  | sign
  | mark
deriving DecidableEq

/-- The kind of a character; blanks have none. -/
def charKind (c : Char) : Option CharKind :=
  if isGap c then none
  else if isLetter c || isDigit c || c == '_' || c == '.' then some .word
  else if c == '=' || c == '!' || c == '<' || c == '>' || c == '+' || c == '-' then some .sign
  else some .mark

/-- Adds a character to the first token. -/
def extendFirst (c : Char) : List (List Char) → List (List Char)
  | [] => [[c]]
  | t :: ts => (c :: t) :: ts

/-- Cuts characters into tokens. -/
def scan : List Char → List (List Char)
  | [] => []
  | c :: cs => match charKind c with
    | none => scan cs
    | some .mark => [c] :: scan cs
    | some k => if cs.head?.bind charKind = some k then extendFirst c (scan cs) else [c] :: scan cs

/-- The tokens of some characters. -/
def tokensOf (cs : List Char) : List String :=
  (scan cs).map String.ofList

theorem scan_run {k : CharKind} (hk : k ≠ .mark) (hrest : rest.head?.bind charKind ≠ some k) :
    ∀ cs : List Char, cs ≠ [] → (∀ c ∈ cs, charKind c = some k) →
      scan (cs ++ rest) = cs :: scan rest := by
  intro cs
  induction cs with
  | nil => exact fun h => absurd rfl h
  | cons c cs ih =>
    intro _ hall
    have hc : charKind c = some k := hall c mem_cons_self
    have hstep : scan (c :: (cs ++ rest)) = if (cs ++ rest).head?.bind charKind = some k
        then extendFirst c (scan (cs ++ rest)) else [c] :: scan (cs ++ rest) := by
      rw [scan, hc]
      cases k with
      | mark => exact absurd rfl hk
      | word => rfl
      | sign => rfl
    rw [cons_append, hstep]
    cases cs with
    | nil => rw [nil_append, if_neg hrest]
    | cons c' cs =>
      have hc' : charKind c' = some k := hall c' (by simp)
      rw [if_pos (by simpa using hc'), ih (by simp) fun x hx => hall x (mem_cons_of_mem c hx)]
      rfl

theorem scan_blanks (n : Nat) (rest : List Char) :
    scan (List.replicate n ' ' ++ rest) = scan rest := by
  induction n with
  | zero => rfl
  | succ n ih =>
    rw [replicate_succ, cons_append]
    exact ih

/-- A text that is one word: letters, digits, underscores and points. -/
def IsWord (w : String) : Prop :=
  w.toList ≠ [] ∧ ∀ c ∈ w.toList, charKind c = some .word

instance (w : String) : Decidable (IsWord w) :=
  decidable_of_iff (w.toList ≠ [] ∧ w.toList.all (charKind · = some .word) = true)
    (by simp [IsWord])

theorem tokensOf_word {w : String} (hw : IsWord w)
    (hrest : rest.head?.bind charKind ≠ some .word) :
    tokensOf (w.toList ++ rest) = w :: tokensOf rest := by
  rw [tokensOf, scan_run (by decide) hrest _ hw.1 hw.2, map_cons, String.ofList_toList]
  rfl

/-! ### Spelling -/

/-- The characters of some pieces. -/
def Piece.chars (ps : List Piece) : List Char :=
  (Piece.render ps).toList

theorem Piece.chars_cons (p : Piece) (ps : List Piece) :
    Piece.chars (p :: ps) = p.text.toList ++ Piece.chars ps := by
  simp [Piece.chars, Piece.render, String.join_cons]

theorem Piece.chars_append (ps qs : List Piece) :
    Piece.chars (ps ++ qs) = Piece.chars ps ++ Piece.chars qs := by
  induction ps with
  | nil => rfl
  | cons p ps ih => rw [cons_append, chars_cons, chars_cons, ih, append_assoc]

/-- Pieces spell tokens if their text gives these tokens whatever follows. -/
def Spells (ps : List Piece) (ts : List String) : Prop :=
  ∀ rest : List Char, tokensOf (Piece.chars ps ++ rest) = ts ++ tokensOf rest

theorem Spells.nil : Spells [] [] := fun _ => rfl

theorem Spells.append {qs : List Piece} {us : List String} (hp : Spells ps ts) (hq : Spells qs us) :
    Spells (ps ++ qs) (ts ++ us) := by
  intro rest
  rw [Piece.chars_append, append_assoc, hp, hq, append_assoc]

theorem Spells.tokensOf_eq (h : Spells ps ts) :
    tokensOf (Piece.chars ps) = ts := by
  have := h []
  rw [append_nil] at this
  rw [this]
  exact append_nil ts

/-! ### The tokens of statements -/

def Comparison.sign : Comparison → String
  | equal => "=="
  | different => "!="
  | greater => ">"
  | greaterOrEqual => ">="
  | less => "<"
  | lessOrEqual => "<="

def Comparison.ofSign? (sign : String) : Option Comparison :=
  [equal, different, greater, greaterOrEqual, less, lessOrEqual].find? fun c => c.sign = sign

theorem Comparison.ofSign?_sign (c : Comparison) : ofSign? c.sign = some c := by
  cases c <;> decide

def validEnding : String := ".isValid"

def Guard.tokens : Guard → List String
  | compare l c r => [l, c.sign, r]
  | valid header => [header ++ validEnding, "(", ")"]

mutual

def Statement.tokens : Statement → List String
  | .assign t s => [t, "=", s, ";"]
  | .arith t l op r => [t, "=", l, op, r, ";"]
  | .drop => ["LynetteDrop", ";"]
  | .compress o => ["LynetteHeaderCompress", "(", o, ")", ";"]
  | .empty => [";"]
  | .ifThen g body =>
    "if" :: "(" :: g.tokens ++ ")" :: "\x7b" :: Statement.tokensAll body ++ ["\x7d"]
  | .ifElse g body other => "if" :: "(" :: g.tokens ++ ")" :: "\x7b" :: Statement.tokensAll body ++
      "\x7d" :: "else" :: "\x7b" :: Statement.tokensAll other ++ ["\x7d"]

def Statement.tokensAll : List Statement → List String
  | [] => []
  | s :: ss => s.tokens ++ Statement.tokensAll ss

end

/-! ### Reading -/

/-- The tokens after one that must come first. -/
def expect (w : String) : List String → Option (List String)
  | [] => none
  | t :: ts => if t = w then some ts else none

@[simp] theorem expect_cons_self (w : String) (ts : List String) : expect w (w :: ts) = some ts :=
  if_pos rfl

def validHeader? (w : String) : Option String :=
  let n := w.toList.length - validEnding.toList.length
  if w.toList.drop n = validEnding.toList then some (String.ofList (w.toList.take n)) else none

theorem validHeader?_append (header : String) :
    validHeader? (header ++ validEnding) = some header := by
  have hlen : (header ++ validEnding).toList.length - validEnding.toList.length =
      header.toList.length := by
    rw [String.toList_append, length_append]
    omega
  rw [validHeader?, hlen, String.toList_append, drop_left, take_left]
  simp

def readGuard : List String → Option (Guard × List String)
  | l :: x :: y :: ts =>
    if x = "(" then do
      let header ← validHeader? l
      let _ ← expect ")" [y]
      some (.valid header, ts)
    else (Comparison.ofSign? x).map fun c => (.compare l c y, ts)
  | _ => none

def readAssign (target : String) (ts : List String) : Option (Statement × List String) := do
  match ← expect "=" ts with
  | l :: x :: ts =>
    if x = ";" then some (.assign target l, ts)
    else match ts with
      | r :: ts => do some (.arith target l x r, ← expect ";" ts)
      | [] => none
  | _ => none

def readCompress (ts : List String) : Option (Statement × List String) := do
  match ← expect "(" ts with
  | o :: ts => do some (.compress o, ← expect ";" (← expect ")" ts))
  | [] => none

mutual

/-- Reads one statement off the front; the number bounds how many tokens may be looked at. -/
def readStatement : Nat → List String → Option (Statement × List String)
  | 0, _ => none
  | _, [] => none
  | n + 1, t :: ts =>
    if t = "if" then do
      let (g, ts) ← readGuard (← expect "(" ts)
      let (body, ts) ← readStatements n (← expect "\x7b" (← expect ")" ts))
      let ts ← expect "\x7d" ts
      match expect "else" ts with
      | none => some (.ifThen g body, ts)
      | some ts => do
        let (other, ts) ← readStatements n (← expect "\x7b" ts)
        some (.ifElse g body other, ← expect "\x7d" ts)
    else if t = ";" then some (.empty, ts)
    else if t = "LynetteDrop" then do some (.drop, ← expect ";" ts)
    else if t = "LynetteHeaderCompress" then readCompress ts
    else readAssign t ts

def readStatements : Nat → List String → Option (List Statement × List String)
  | 0, _ => none
  | _ + 1, [] => some ([], [])
  | n + 1, t :: ts =>
    if t = "\x7d" then some ([], t :: ts)
    else do
      let (s, ts) ← readStatement n (t :: ts)
      let (ss, ts) ← readStatements n ts
      some (s :: ss, ts)

end

def readText (text : String) : Option (List Statement) :=
  let ts := tokensOf text.toList
  match readStatements (ts.length + 1) ts with
  | some (ss, []) => some ss
  | _ => none

/-! ### Reading back -/

/-- The words that begin a statement of their own kind. -/
def keywords : List String :=
    ["if", "else", "LynetteDrop", "LynetteHeaderCompress", ";", "\x7b", "\x7d"]

mutual

/-- A statement whose targets are no keywords and whose operators are no marks. -/
def Statement.IsPlain : Statement → Prop
  | .assign t _ => t ∉ keywords
  | .arith t _ op _ => t ∉ keywords ∧ op ≠ ";"
  | .ifThen _ body => Statement.AllPlain body
  | .ifElse _ body other => Statement.AllPlain body ∧ Statement.AllPlain other
  | _ => True

def Statement.AllPlain : List Statement → Prop
  | [] => True
  | s :: ss => s.IsPlain ∧ Statement.AllPlain ss

end

theorem readGuard_tokens (g : Guard) (rest : List String) :
    readGuard (g.tokens ++ rest) = some (g, rest) := by
  cases g with
  | compare l c r =>
    have hx : c.sign ≠ "(" := by cases c <;> decide
    simp only [Guard.tokens, cons_append, nil_append, readGuard, if_neg hx, Comparison.ofSign?_sign,
      map_some]
  | valid header =>
    simp only [Guard.tokens, cons_append, nil_append, readGuard, if_true, validHeader?_append]
    rfl

theorem Statement.tokens_eq_cons {s : Statement} (hs : s.IsPlain) :
    ∃ t ts, s.tokens = t :: ts ∧ t ≠ "else" ∧ t ≠ "\x7d" := by
  cases s with
  | assign t x =>
    refine ⟨t, _, rfl, fun h => hs ?_, fun h => hs ?_⟩ <;> rw [h] <;> decide
  | arith t l op r =>
    refine ⟨t, _, rfl, fun h => hs.1 ?_, fun h => hs.1 ?_⟩ <;> rw [h] <;> decide
  | drop => exact ⟨_, _, rfl, by decide, by decide⟩
  | compress o => exact ⟨_, _, rfl, by decide, by decide⟩
  | empty => exact ⟨_, _, rfl, by decide, by decide⟩
  | ifThen g body => exact ⟨_, _, rfl, by decide, by decide⟩
  | ifElse g body other => exact ⟨_, _, rfl, by decide, by decide⟩

theorem readStatement_of_not_keyword {t : String} (ht : t ∉ keywords) (n : Nat) (ts : List String) :
    readStatement (n + 1) (t :: ts) = readAssign t ts := by
  have hne : ∀ w ∈ keywords, t ≠ w := fun w hw h => ht (h ▸ hw)
  rw [readStatement, if_neg (hne _ (by decide)), if_neg (hne _ (by decide)),
    if_neg (hne _ (by decide)), if_neg (hne _ (by decide))]

theorem expect_else_of_head (h : ts.head? ≠ some "else") : expect "else" ts = none := by
  cases ts with
  | nil => rfl
  | cons t ts => exact if_neg fun ht => h (by rw [ht]; rfl)

mutual

theorem readStatement_tokens (s : Statement) (n : Nat) (rest : List String) (hs : s.IsPlain)
    (hn : s.tokens.length ≤ n) (hrest : rest.head? ≠ some "else") :
    readStatement n (s.tokens ++ rest) = some (s, rest) := by
  match s, n, hn with
  | .assign t x, n + 1, _ =>
    rw [Statement.tokens, cons_append, readStatement_of_not_keyword hs]
    rfl
  | .arith t l op r, n + 1, _ =>
    rw [Statement.tokens, cons_append, readStatement_of_not_keyword hs.1]
    simp [readAssign, hs.2]
  | .drop, n + 1, _ => rfl
  | .compress o, n + 1, _ => rfl
  | .empty, n + 1, _ => rfl
  | .ifThen g body, n + 1, hn =>
    have hlen : (Statement.tokensAll body).length < n := by
      simp only [Statement.tokens, length_append, length_cons, length_nil] at hn
      omega
    have hbody := readStatements_tokens body n ("\x7d" :: rest) hs hlen (Or.inr rfl)
    simp only [Statement.tokens, cons_append, append_assoc, nil_append, readStatement, if_true,
      expect_cons_self, readGuard_tokens, hbody, bind_eq_bind, bind_some, expect_else_of_head hrest]
  | .ifElse g body other, n + 1, hn =>
    have hlen : (Statement.tokensAll body).length < n ∧ (Statement.tokensAll other).length < n := by
      simp only [Statement.tokens, length_append, length_cons, length_nil] at hn
      omega
    have hbody := readStatements_tokens body n
      ("\x7d" :: "else" :: "\x7b" :: (Statement.tokensAll other ++ "\x7d" :: rest)) hs.1
        hlen.1 (Or.inr rfl)
    have hother := readStatements_tokens other n ("\x7d" :: rest) hs.2 hlen.2 (Or.inr rfl)
    simp only [Statement.tokens, cons_append, append_assoc, nil_append, readStatement, if_true,
      expect_cons_self, readGuard_tokens, hbody, hother, bind_eq_bind, bind_some]

theorem readStatements_tokens (ss : List Statement) (n : Nat) (rest : List String)
    (hss : Statement.AllPlain ss) (hn : (Statement.tokensAll ss).length < n)
    (hrest : rest = [] ∨ rest.head? = some "\x7d") :
    readStatements n (Statement.tokensAll ss ++ rest) = some (ss, rest) := by
  match ss, n, hn with
  | [], n + 1, _ =>
    cases rest with
    | nil => rfl
    | cons t ts =>
      have ht : t = "\x7d" := by simpa using hrest
      rw [Statement.tokensAll, nil_append, readStatements, if_pos ht]
  | s :: ss, n + 1, hn =>
    obtain ⟨hs, hss⟩ := hss
    obtain ⟨t, ts, htokens, _, hbrace⟩ := Statement.tokens_eq_cons hs
    rw [Statement.tokensAll, length_append] at hn
    have hpos : 0 < s.tokens.length := by rw [htokens]; exact Nat.succ_pos _
    have hnext : (Statement.tokensAll ss ++ rest).head? ≠ some "else" := by
      cases ss with
      | nil =>
        rcases hrest with rfl | hrest
        · simp [Statement.tokensAll]
        · rw [Statement.tokensAll, nil_append, hrest]
          decide
      | cons s' ss =>
        obtain ⟨t', ts', htokens', helse, _⟩ := Statement.tokens_eq_cons hss.1
        rw [Statement.tokensAll, htokens']
        simpa using helse
    have hfirst := readStatement_tokens s n (Statement.tokensAll ss ++ rest) hs (by omega) hnext
    have hothers := readStatements_tokens ss n rest hss (by omega) hrest
    rw [htokens, cons_append] at hfirst
    rw [Statement.tokensAll, htokens, append_assoc, cons_append, readStatements,
      if_neg hbrace, hfirst]
    simp only [bind_eq_bind, bind_some, hothers]

end

theorem readText_of_spells {ss : List Statement} (hplain : Statement.AllPlain ss)
    (hps : Spells ps (Statement.tokensAll ss)) : readText (Piece.render ps) = some ss := by
  have htokens : tokensOf (Piece.render ps).toList = Statement.tokensAll ss := hps.tokensOf_eq
  have hread := readStatements_tokens ss _ [] hplain (Nat.lt_succ_self _) (Or.inl rfl)
  rw [append_nil] at hread
  rw [readText, htokens, hread]

end Pathwise
