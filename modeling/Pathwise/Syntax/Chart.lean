import Pathwise.Syntax.Grammar
import Pathwise.Syntax.Tree

/-!
# Charts

A chart records, for every offset of a text, which rules can be in progress there: an `Item` says
that an alternative was begun at one offset and that a front part of it, up to the dot, derives the
text read since.  The column of an offset is the closure of the items that arrive there under two
moves: a rule that is expected next may begin, and a rule that has ended moves on the items that
waited for it (`Chart.moves`).  A token that is expected at an offset carries its item to the offset
behind the token and the gap after it.

The text derives from the start rule exactly when the last column holds a finished start item.  Of
several derivations of one stretch by one rule, `Chart.derive` takes an alternative that ends in a
token before one that ends in a rule, and the earlier alternative otherwise.
-/

namespace Pathwise

/-- An alternative of a rule, read up to the dot, begun at offset `start`. -/
structure Item where
  rule : Nat
  alternative : Nat
  dot : Nat
  start : Nat
deriving Repr, DecidableEq, Inhabited

namespace Item

def body (g : Grammar) (x : Item) : List Sym :=
  ((g.alternativesOf x.rule)[x.alternative]?).getD []

/-- The symbol behind the dot; a finished item has none. -/
def next? (g : Grammar) (x : Item) : Option Sym :=
  (x.body g)[x.dot]?

/-- The item with its dot moved over one symbol. -/
def advance (x : Item) : Item :=
  { x with dot := x.dot + 1 }

def begins (g : Grammar) (id i : Nat) : List Item :=
  (List.range (g.alternativesOf id).length).map fun a => ⟨id, a, 0, i⟩

end Item

/-- The items at one offset, in the order found, and in groups for look-up. -/
structure Column where
  groups : Array (List Item)
  items : List Item
deriving Inhabited

namespace Column

/-- How many groups there are. -/
def groupCount : Nat := 64

def groupOf (x : Item) : Nat :=
  x.rule % groupCount

def empty : Column := ⟨Array.replicate groupCount [], []⟩

def contains (c : Column) (x : Item) : Bool :=
  (c.groups[groupOf x]?.getD []).contains x

def insert (c : Column) (x : Item) : Column :=
  ⟨c.groups.modify (groupOf x) (x :: ·), x :: c.items⟩

end Column

/-- One column for every offset of the text, the end included. -/
structure Chart where
  columns : Array Column
deriving Inhabited

namespace Chart

def column (ch : Chart) (i : Nat) : Column :=
  ch.columns[i]?.getD Column.empty

def contains (ch : Chart) (i : Nat) (x : Item) : Bool :=
  (ch.column i).contains x

/--
What an item brings into its own column `i`: the beginnings of an expected rule (and the step over
it, if it derives the empty text), or the items that waited for a finished rule.  A rule that ends
where it began is covered by the step over nullable rules.
-/
def moves (g : Grammar) (ch : Chart) (i : Nat) (x : Item) : List Item :=
  match x.next? g with
  | some (.token _) => []
  | some (.rule id) =>
    if g.isNullable id then x.advance :: Item.begins g id i else Item.begins g id i
  | none =>
    if x.start < i then
      ((ch.column x.start).items.filter fun y => y.next? g == some (.rule x.rule)).map Item.advance
    else []

/--
The closure of the items `todo` under `moves`.  Every item is expanded once; `fuel` bounds the items
looked at.
-/
def saturate (g : Grammar) (ch : Chart) (i : Nat) : Nat → List Item → Column → Column
  | 0, _, c => c
  | _ + 1, [], c => c
  | fuel + 1, x :: todo, c =>
    if c.contains x then saturate g ch i fuel todo c
    else saturate g ch i fuel (moves g ch i x ++ todo) (c.insert x)

/-- An upper bound for the number of items that can be in column `i`. -/
def capacity (g : Grammar) (i : Nat) : Nat :=
  (i + 1) * (g.rules.toList.flatMap fun r => r.alternatives.map fun a => a.length + 1).foldr
    (· + ·) 0

/-- Offsets between the front of a text and its next token. -/
def gapLength (cs : List Char) : Nat :=
  Token.spanLength isGap cs

/-- The offset behind a token that stands at offset `i`, where the text `cs` remains, and its
gap. -/
def tokenEnd? (t : Token) (i : Nat) (cs : List Char) : Option Nat := do
  let n ← t.munch? cs
  pure (i + n + gapLength (cs.drop n))

/-- The items that a column sends to later offsets by reading a token. -/
def arrivals (g : Grammar) (i : Nat) (cs : List Char) (c : Column) : List (Nat × Item) :=
  c.items.filterMap fun x =>
    match x.next? g with
    | some (.token t) => (tokenEnd? t i cs).map fun j => (j, x.advance)
    | _ => none

/-- The state of filling a chart from left to right: items waiting at offsets not yet reached. -/
structure Filling where
  chart : Chart
  pending : Array (List Item)
deriving Inhabited

/-- Fills the column at offset `i`, where the text `cs` remains. -/
def fillColumn (g : Grammar) (st : Filling) (i : Nat) (cs : List Char) : Filling :=
  match st.pending[i]?.getD [] with
  | [] => { st with chart := ⟨st.chart.columns.push Column.empty⟩ }
  | seeds =>
    let room := capacity g i
    let c := saturate g st.chart i (seeds.length + (room + 1) * (room + 1)) seeds Column.empty
    { chart := ⟨st.chart.columns.push c⟩
      pending := (arrivals g i cs c).foldl (fun p (j, x) => p.modify j (x :: ·)) st.pending }

def fillFrom (g : Grammar) : Filling → Nat → List Char → Filling
  | st, i, [] => fillColumn g st i []
  | st, i, c :: cs => fillFrom g (fillColumn g st i (c :: cs)) (i + 1) cs

def fill (g : Grammar) (text : List Char) : Filling :=
  let pending := (Array.replicate (text.length + 1) []).modify (gapLength text) fun _ =>
    Item.begins g Grammar.startRule (gapLength text)
  fillFrom g ⟨⟨#[]⟩, pending⟩ 0 text

/-- The last offset that some token, with the gap after it, reaches. -/
def reach (ch : Chart) : Nat :=
  (ch.columns.toList.zipIdx.filterMap fun (c, i) => if c.items.isEmpty then none
    else some i).getLast?.getD 0

/-- Whether rule `id` derives the text from offset `i` to offset `j` by its alternative number
`a`. -/
def derives (g : Grammar) (ch : Chart) (id i j a : Nat) : Bool :=
  let x : Item := ⟨id, a, 0, i⟩
  ch.contains j { x with dot := (x.body g).length }

/--
The alternative by which rule `id` derives the text from `i` to `j`: the first one that ends in a
token, else the first one.
-/
def preferred? (g : Grammar) (ch : Chart) (id i j : Nat) : Option Nat :=
  let fits := (List.range (g.alternativesOf id).length).filter (derives g ch id i j)
  let endsInToken (a : Nat) : Bool :=
    ((Item.body g ⟨id, a, 0, i⟩).getLast?.map Sym.isToken).getD false
  (fits.find? endsInToken).orElse fun _ => fits.head?

/-- The largest offset below `k` at which the item stands and token `t` ends at `j`. -/
def tokenStart? (ch : Chart) (tails : Array (List Char)) (x : Item) (t : Token) (j : Nat) :
    Nat → Option Nat
  | 0 => none
  | k + 1 =>
    if ch.contains k x && (tokenEnd? t k (tails[k]?.getD []) == some j) then some k
    else tokenStart? ch tails x t j k

/-- An offset at which the item stands and rule `id` derives the text from there to `j`. -/
def ruleStart? (g : Grammar) (ch : Chart) (x : Item) (id j : Nat) : Option Nat :=
  ((ch.column j).items.find? fun y =>
    y.rule == id && (y.next? g).isNone && ch.contains y.start x).map (·.start)

/--
Where the symbols of an item begin, when the item stands at offset `j`: read from the dot backwards.
The result lists the symbols in front of the dot with the stretches they derive.
-/
def stretches (g : Grammar) (ch : Chart) (tails : Array (List Char)) (x : Item) :
    Nat → Nat → List (Sym × Nat × Nat) → Option (List (Sym × Nat × Nat))
  | 0, _, acc => some acc
  | dot + 1, j, acc => do
    let s ← (x.body g)[dot]?
    let before := { x with dot := dot }
    let k ← match s with
      | .token t => tokenStart? ch tails before t j j
      | .rule id => ruleStart? g ch before id j
    stretches g ch tails x dot k ((s, k, j) :: acc)

/--
The tree that rule `id` derives from offset `i` to offset `j`.  A helper rule gives the trees of its
children instead of a node, hence the list.
-/
def derive (g : Grammar) (ch : Chart) (tails : Array (List Char)) :
    Nat → Nat → Nat → Nat → Option (List Tree)
  | 0, _, _, _ => none
  | fuel + 1, id, i, j => do
    let a ← preferred? g ch id i j
    let x : Item := ⟨id, a, 0, i⟩
    let parts ← stretches g ch tails x (x.body g).length j []
    let children ← parts.mapM fun (s, k, l) =>
      match s with
      | .token t =>
        if t.isKept then do
          let cs := tails[k]?.getD []
          let n ← t.munch? cs
          pure [Tree.leaf (String.ofList (cs.take n))]
        else some []
      | .rule id' => derive g ch tails fuel id' k l
    match g.nameOf id with
    | some name => pure [.node name children.flatten]
    | none => pure children.flatten

end Chart

end Pathwise
