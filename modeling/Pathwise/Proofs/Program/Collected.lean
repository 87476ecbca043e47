import Pathwise.Proofs.OrderedMap
import Pathwise.Proofs.Program.Rebuilt

/-!
# What collecting keeps of modules and applications

A collected module holds what its text says, up to the losses that are listed here.

* Every instruction of the control part gives one instruction, in order, other than definitions,
  annotations and empty statements.  The same holds of applications and of the blocks inside
  (`Collect.block_rebuilt`).
* A test `isValid(a, b)` keeps its first operand only (`Tree.kept`).
* Of two functions, maps or sets of one name the last counts.  **A function with parameters keeps
  none of its instructions** (`Tree.instructions`), since the list of parameters is taken for its
  body.
* An operand of a table entry keeps its first word only: `hdr.ip.ttl` becomes `hdr` (`Tree.rows`).
-/

namespace Pathwise

open Steps Pathwise.Language List

namespace Tree

def isNode (r : String) : Tree → Bool
  | leaf _ => false
  | node r' _ => r' = r

def parts : Tree → List Tree
  | leaf _ => []
  | node _ cs => cs

/-- The nodes that are reached by going down along the rules of a path. -/
def under : List String → Tree → List Tree
  | [], t => [t]
  | r :: path, t => (t.parts.filter (isNode r)).flatMap (under path)

mutual

/-- The texts of the leaves, from left to right. -/
def words : Tree → List String
  | leaf s => [s]
  | node _ cs => wordsAll cs

def wordsAll : List Tree → List String
  | [] => []
  | t :: ts => t.words ++ wordsAll ts

end

/-- Whether an instruction is none of those that are not collected as such: definitions,
annotations, empty statements. -/
def isStatement (t : Tree) : Bool :=
  t.parts.all fun i => !(i.isNode "define" || i.isNode "annotation" || i.isNode "ins_null")

/-- Whether a definition has the name: the first word of the nodes along the path. -/
def isNamed (path : List String) (n : String) (d : Tree) : Bool :=
  ((d.under path).flatMap words).head? = some n

/-- The last definition of a kind and name among a list of instructions. -/
def lastDefined (kind : String) (path : List String) (n : String) (is : List Tree) : Option Tree :=
  ((is.flatMap (under ["define", kind])).filter (isNamed path n)).getLast?

/-- The instructions that are kept of a function: none if it has parameters. -/
def instructions (d : Tree) : List Tree :=
  if (d.under ["func_params"]).isEmpty then d.under ["code_body", "instruction"] else []

/-- What is kept of the entries of a table: the first word of every operand. -/
def rows (d : Tree) : List (List (List String)) :=
  (d.under ["entry", "single_entry"]).map fun r => r.parts.map fun operand => operand.words.take 1

end Tree

/-- The rows of a table with the words of every operand. -/
def Lookup.rows (l : Lookup) : List (List (List String)) :=
  l.entries.map fun r => r.map fun word => [word]

/-- What a module holds of the tree that it was collected from. -/
structure Module.Rebuilds (m : Module) (t : Tree) : Prop where
  body : Ins.nodes m.body =
    ((t.under ["control", "code_body", "instruction"]).filter Tree.isStatement).map Tree.kept
  funcs (f : String) : (m.funcs.find? f).map Ins.nodes =
    (Tree.lastDefined "func" [] f (t.under ["control", "code_body", "instruction"])).map
      fun d => d.instructions.map Tree.kept
  maps (n : String) : (m.maps.find? n).map Lookup.rows =
    (Tree.lastDefined "map" ["map_name"] n (t.under ["control", "code_body", "instruction"])).map
      Tree.rows
  sets (n : String) : (m.sets.find? n).map Lookup.rows =
    (Tree.lastDefined "set" ["set_name"] n (t.under ["control", "code_body", "instruction"])).map
      Tree.rows

/-- What a list of instructions holds of their trees besides what another one holds. -/
structure Ins.Added (ts : List Tree) (b b' : List Ins) : Prop where
  nodes : Ins.nodes b' = Ins.nodes b ++ (ts.filter Tree.isStatement).map Tree.kept
  wellFormed : (∀ i ∈ b, i.WellFormed) → ∀ i ∈ b', i.WellFormed

/-- All functions of the module have well-formed instructions. -/
def Module.WellFormedFuncs (m : Module) : Prop :=
  ∀ e ∈ m.funcs.entries, ∀ i ∈ e.2, i.WellFormed

/-- What a module holds of a list of instructions besides what another one holds. -/
structure Module.Adds (is : List Tree) (m m' : Module) : Prop where
  body : Ins.Added is m.body m'.body
  wellFormedFuncs : m.WellFormedFuncs → m'.WellFormedFuncs
  funcs (f : String) : (m'.funcs.find? f).map Ins.nodes =
    ((Tree.lastDefined "func" [] f is).map fun d => d.instructions.map Tree.kept).or
      ((m.funcs.find? f).map Ins.nodes)
  maps (n : String) : (m'.maps.find? n).map Lookup.rows =
    ((Tree.lastDefined "map" ["map_name"] n is).map Tree.rows).or ((m.maps.find? n).map Lookup.rows)
  sets (n : String) : (m'.sets.find? n).map Lookup.rows =
    ((Tree.lastDefined "set" ["set_name"] n is).map Tree.rows).or ((m.sets.find? n).map Lookup.rows)

namespace Tree

variable {kind n : String} {path : List String}

@[simp] theorem lastDefined_nil : lastDefined kind path n [] = none := rfl

theorem lastDefined_append (xs ys : List Tree) :
    lastDefined kind path n (xs ++ ys) = (lastDefined kind path n ys).or
      (lastDefined kind path n xs) := by
  rw [lastDefined, flatMap_append, filter_append, getLast?_append]
  rfl

theorem lastDefined_of_ne {k : String} (hk : k ≠ "define") (cs : List Tree) :
    lastDefined kind path n [.node "instruction" [.node k cs]] = none := by
  simp [lastDefined, under, parts, isNode, hk]

theorem lastDefined_define (k : String) (cs : List Tree) :
    lastDefined kind path n [.node "instruction" [.node "define" [.node k cs]]] =
      if k = kind ∧ isNamed path n (.node k cs) then some (.node k cs) else none := by
  by_cases hk : k = kind
  · subst hk
    by_cases hn : isNamed path n (.node k cs) = true
    · simp [lastDefined, under, parts, isNode, hn]
    · simp [lastDefined, under, parts, isNode, hn]
  · simp [lastDefined, under, parts, isNode, hk]

end Tree

namespace Ins.Added

variable {ts us : List Tree} {b b' b'' : List Ins} {k : String} {cs : List Tree}

theorem refl (b : List Ins) : Added [] b b :=
  ⟨by simp, id⟩

theorem trans (h : Added ts b b') (h' : Added us b' b'') : Added (ts ++ us) b b'' where
  nodes := by rw [h'.nodes, h.nodes, filter_append, map_append, append_assoc]
  wellFormed := h'.wellFormed ∘ h.wellFormed

theorem statement {i : Ins} (hk : k ≠ "define" ∧ k ≠ "annotation" ∧ k ≠ "ins_null")
    (hi : i.Rebuilds (.node k cs)) :
    Added [.node "instruction" [.node k cs]] b (b ++ [i]) where
  nodes := by
    have hs : Tree.isStatement (.node "instruction" [.node k cs]) = true := by
      simp [Tree.isStatement, Tree.parts, Tree.isNode, hk]
    rw [nodes_append, filter_cons_of_pos hs, filter_nil, map_singleton, Tree.kept_node (by decide),
      map_singleton, ← hi.node]
    rfl
  wellFormed h j hj := (mem_append.mp hj).elim (h j) fun hj => mem_singleton.mp hj ▸ hi.wellFormed

theorem skipped (hk : k = "define" ∨ k = "annotation" ∨ k = "ins_null") :
    Added [.node "instruction" [.node k cs]] b b where
  nodes := by
    have hs : Tree.isStatement (.node "instruction" [.node k cs]) = false := by
      rcases hk with rfl | rfl | rfl <;> simp [Tree.isStatement, Tree.parts, Tree.isNode]
    rw [filter_cons_of_neg (by simp [hs]), filter_nil, map_nil, append_nil]
  wellFormed := id

end Ins.Added

namespace Module.Adds

variable {is js : List Tree} {m m' m'' : Module}

variable {k : String} {cs : List Tree}

theorem refl (m : Module) : Adds [] m m :=
  ⟨.refl _, id, by simp, by simp, by simp⟩

theorem trans (h : Adds is m m') (h' : Adds js m' m'') : Adds (is ++ js) m m'' where
  body := h.body.trans h'.body
  wellFormedFuncs := h'.wellFormedFuncs ∘ h.wellFormedFuncs
  funcs f := by rw [h'.funcs, h.funcs, Tree.lastDefined_append, Option.map_or, Option.or_assoc]
  maps n := by rw [h'.maps, h.maps, Tree.lastDefined_append, Option.map_or, Option.or_assoc]
  sets n := by rw [h'.sets, h.sets, Tree.lastDefined_append, Option.map_or, Option.or_assoc]

theorem of_body {b : List Ins} (hk : k ≠ "define")
    (h : Ins.Added [.node "instruction" [.node k cs]] m.body b) :
    Adds [.node "instruction" [.node k cs]] m { m with body := b } where
  body := h
  wellFormedFuncs := id
  funcs f := by rw [Tree.lastDefined_of_ne hk]; rfl
  maps n := by rw [Tree.lastDefined_of_ne hk]; rfl
  sets n := by rw [Tree.lastDefined_of_ne hk]; rfl

theorem definition (hbody : m'.body = m.body) (hwell : m.WellFormedFuncs → m'.WellFormedFuncs)
    (hfuncs : ∀ f, (m'.funcs.find? f).map Ins.nodes = if k = "func" ∧
      Tree.isNamed [] f (.node k cs) then
      some ((Tree.node k cs).instructions.map Tree.kept) else (m.funcs.find? f).map Ins.nodes)
    (hmaps : ∀ n, (m'.maps.find? n).map Lookup.rows = if k = "map" ∧
      Tree.isNamed ["map_name"] n (.node k cs) then
      some (Tree.node k cs).rows else (m.maps.find? n).map Lookup.rows)
    (hsets : ∀ n, (m'.sets.find? n).map Lookup.rows = if k = "set" ∧
      Tree.isNamed ["set_name"] n (.node k cs) then
      some (Tree.node k cs).rows else (m.sets.find? n).map Lookup.rows) :
    Adds [.node "instruction" [.node "define" [.node k cs]]] m m' where
  body := hbody ▸ .skipped (.inl rfl)
  wellFormedFuncs := hwell
  funcs f := by
    rw [hfuncs, Tree.lastDefined_define]
    split <;> rfl
  maps n := by
    rw [hmaps, Tree.lastDefined_define]
    split <;> rfl
  sets n := by
    rw [hsets, Tree.lastDefined_define]
    split <;> rfl

theorem other (hk : k ≠ "func" ∧ k ≠ "map" ∧ k ≠ "set")
    (h : m'.body = m.body ∧ m'.funcs = m.funcs ∧ m'.maps = m.maps ∧ m'.sets = m.sets) :
    Adds [.node "instruction" [.node "define" [.node k cs]]] m m' :=
  definition h.1 (by simp [WellFormedFuncs, h.2.1]) (by simp [hk.1, h.2.1])
    (by simp [hk.2.1, h.2.2.1]) (by simp [hk.2.2, h.2.2.2])

end Module.Adds

namespace Collect

variable {t : Tree} {out out' : String}

variable {n k r : String} {d c : Tree} {rs cs : List Tree} {l : Lookup} {x : Report Ins}

/-! ### Functions -/

theorem statements_of_others :
    ∀ {ts : List Tree}, (∀ t ∈ ts, ∃ r cs, t = .node r cs ∧ r ≠ "instruction") →
    statements ts = pure [] := by
  intro ts
  induction ts with
  | nil =>
    intro _
    rw [statements]
  | cons t ts ih =>
    intro h
    obtain ⟨r, cs, rfl, hr⟩ := h t (by simp)
    rw [statements.eq_def]
    simp only [if_neg hr, ih fun t' h' => h t' (mem_cons_of_mem _ h')]

theorem filter_isNode_of_derives {ts : List Tree} (h : ∀ t ∈ ts, Derives n t) :
    ts.filter (Tree.isNode n) = ts := by
  refine filter_eq_self.mpr fun t ht => ?_
  obtain ⟨-, cs, -, -, rfl⟩ := Ebnf.derives_iff.mp (h t ht)
  simp [Tree.isNode]

theorem func_rebuilt (ht : Derives "func" t) : ∃ name cs, t = .node "func" (.leaf name :: cs) ∧
    ∀ {body b out out'}, t.child? 1 = .ok body → block body out = .ok b out' →
      Ins.nodes b = t.instructions.map Tree.kept ∧ ∀ i ∈ b, i.WellFormed := by
  obtain ⟨name, code, hcode, rfl | ⟨ps, rfl, hps⟩⟩ := shape_func ht
  · refine ⟨name, [code], rfl, fun {body b out out'} hbody h => ?_⟩
    obtain rfl := Except.ok.inj hbody
    obtain ⟨hnode, hwell⟩ := block_rebuilt hcode h
    obtain ⟨is, rfl, his⟩ := shape_code_body hcode
    rw [Tree.kept_node (by decide)] at hnode
    refine ⟨?_, hwell⟩
    rw [(Tree.node.inj hnode).2]
    simp [Tree.instructions, Tree.under, Tree.parts, Tree.isNode, filter_isNode_of_derives his]
  · refine ⟨name, _, rfl, fun {body b out out'} hbody h => ?_⟩
    obtain rfl := Except.ok.inj hbody
    have hnone : statements ps = pure [] := by
      refine statements_of_others fun p hp => ?_
      obtain ⟨-, cs, -, -, rfl⟩ := Ebnf.derives_iff.mp (hps p hp)
      exact ⟨_, cs, rfl, by decide⟩
    rw [block, hnone] at h
    obtain ⟨rfl, -⟩ := pure_eq_ok.mp h
    simp [Tree.instructions, Tree.under, Tree.parts, Tree.isNode, Ins.nodes]

/-! ### Tables -/

theorem words_of_textAt? {w : String} (h : d.textAt? [0, 0] = .ok w) : d.words.take 1 = [w] := by
  obtain ⟨c, hc, hw⟩ := except_bind_eq_ok.mp h
  match d, hc with
  | .node _ (.node _ (.leaf s :: _) :: _), hc =>
    obtain rfl := Except.ok.inj hc
    obtain rfl := Except.ok.inj hw
    simp [Tree.words, Tree.wordsAll]
  | .node _ (.node _ (.node _ _ :: _) :: _), hc =>
    obtain rfl := Except.ok.inj hc
    cases hw

theorem entryRows_rebuilt {rows : List (List String)}
    (h : entryRows (.node "entry" rs) out = .ok rows out') :
    rows.map (fun r => r.map fun word => [word]) = rs.map fun r => r.parts.map fun d =>
      d.words.take 1 := by
  obtain ⟨rs', hrs', h⟩ := bind_shape_eq_ok.mp h
  obtain rfl := Except.ok.inj hrs'
  refine map_eq_of_mapM (fun r s words s' hr => ?_) _ h
  obtain ⟨ds, hds', hr⟩ := bind_shape_eq_ok.mp hr
  cases r with
  | leaf => cases hds'
  | node r cs =>
    obtain rfl := Except.ok.inj hds'
    refine map_eq_of_mapM (fun d s w s' hw => ?_) _ hr
    exact (words_of_textAt? (lift_shape_eq_ok.mp hw).1).symm

variable {l l' : Lookup} {kind : String} {cs : List Tree}

/-- What the parts of a table's definition add to it: one of them gives the name, one the entries,
the others neither. -/
structure ReadsTable (part : Lookup → Tree → Report Lookup) (nameRule : String) : Prop where
  other {l l' : Lookup} {kind : String} {cs : List Tree} {out out' : String} : kind ≠ nameRule →
    kind ≠ "entry" →
    part l (.node kind cs) out = .ok l' out' → l'.name = l.name ∧ l'.entries = l.entries
  name {l l' : Lookup} {n out out' : String} :
    part l (.node nameRule [.leaf n]) out = .ok l' out' → l'.name = n ∧ l'.entries = l.entries
  entry {l l' : Lookup} {rs : List Tree} {out out' : String} : l.entries = [] →
    part l (.node "entry" rs) out = .ok l' out' →
      l'.name = l.name ∧ l'.rows = rs.map fun r => r.parts.map fun d => d.words.take 1

theorem overwrite_rebuilt {l' : Lookup} (hl : l.entries = [])
    (h : (entryRows (.node "entry" rs) >>= fun rows =>
      pure { l with entries := setPart.overwrite l.entries rows }) out =
      .ok l' out') : l'.name = l.name ∧
        l'.rows = rs.map fun r => r.parts.map fun d => d.words.take 1 := by
  obtain ⟨rows, hrows, rfl⟩ := bind_pure_eq_ok.mp h
  refine ⟨rfl, ?_⟩
  rw [← entryRows_rebuilt hrows, Lookup.rows, setPart.overwrite, hl]
  simp

theorem readsTable_setPart : ReadsTable setPart "set_name" where
  other hname hentry h := by
    obtain ⟨k, hrule', h⟩ := bind_shape_eq_ok.mp h
    obtain rfl := Except.ok.inj hrule'
    rw [if_neg hname] at h
    split at h
    · obtain ⟨key, -, rfl⟩ := bind_pure_eq_ok.mp h
      exact ⟨rfl, rfl⟩
    · cases h
  name h := by
    cases h
    exact ⟨rfl, rfl⟩
  entry hl h := overwrite_rebuilt hl h

theorem readsTable_mapPart : ReadsTable mapPart "map_name" where
  other hname hentry h := by
    obtain ⟨k, hrule', h⟩ := bind_shape_eq_ok.mp h
    obtain rfl := Except.ok.inj hrule'
    rw [if_neg hname] at h
    split at h
    · obtain ⟨key, -, rfl⟩ := bind_pure_eq_ok.mp h
      exact ⟨rfl, rfl⟩
    split at h
    · obtain ⟨value, -, rfl⟩ := bind_pure_eq_ok.mp h
      exact ⟨rfl, rfl⟩
    split at h
    · obtain ⟨text, s2, -, h⟩ := bind_eq_ok.mp h
      obtain ⟨size, -, rfl⟩ := bind_pure_eq_ok.mp h
      exact ⟨rfl, rfl⟩
    · cases h
  name h := by
    cases h
    exact ⟨rfl, rfl⟩
  entry hl h := overwrite_rebuilt hl h

/-- The table has the name and the rows of the definition. -/
def TableOf (path : List String) (t : Tree) (l : Lookup) : Prop :=
  l.rows = t.rows ∧ ∀ n, t.isNamed path n = decide (l.name = n)

theorem find?_insert_table {path : List String} (h : TableOf path t l)
    {ls : OrderedMap String Lookup} (n : String) : ((ls.insert l.name l).find? n).map Lookup.rows =
      if t.isNamed path n then some t.rows else (ls.find? n).map Lookup.rows := by
  obtain ⟨hrows, hname⟩ := h
  rw [hname]
  by_cases hn : l.name = n
  · subst hn
    simp [hrows]
  · simp [hn, OrderedMap.find?_insert_of_ne _ (Ne.symm hn)]

variable {part : Lookup → Tree → Report Lookup} {nameRule name kind : String}
  {front entry : List Tree} {l l₀ : Lookup}

/-- A part of a table's definition that gives neither its name nor its entries. -/
def IsColumns (nameRule : String) (p : Tree) : Prop :=
  ∃ kind cs, p = .node kind cs ∧ kind ≠ nameRule ∧ kind ≠ "entry"

theorem isColumns_of_derives {p : Tree} (h : Derives kind p) (hname : kind ≠ nameRule)
    (hentry : kind ≠ "entry") :
    IsColumns nameRule p := by
  obtain ⟨-, cs, -, -, rfl⟩ := Ebnf.derives_iff.mp h
  exact ⟨kind, cs, rfl, hname, hentry⟩

theorem columns_keep (hpart : ReadsTable part nameRule) :
    ∀ {front : List Tree}, (∀ p ∈ front, IsColumns nameRule p) →
    ∀ {l₀ : Lookup} {out : String}, front.foldlM part l₀ out = .ok l out' →
      l.entries = l₀.entries := by
  intro front
  induction front with
  | nil =>
    intro _ l₀ out h
    obtain ⟨rfl, -⟩ := pure_eq_ok.mp h
    rfl
  | cons p front ih =>
    intro hfront l₀ out h
    rw [foldlM_cons, bind_eq_ok] at h
    obtain ⟨l1, s1, h1, h⟩ := h
    obtain ⟨kind, cs, rfl, hname, hentry⟩ := hfront p (by simp)
    rw [ih (fun p' h' => hfront p' (mem_cons_of_mem _ h')) h, (hpart.other hname hentry h1).2]

theorem filter_isNode_columns (hfront : ∀ p ∈ front, IsColumns nameRule p) :
    front.filter (Tree.isNode nameRule) = [] ∧ front.filter (Tree.isNode "entry") = [] := by
  refine ⟨filter_eq_nil_iff.mpr fun p hp => ?_, filter_eq_nil_iff.mpr fun p hp => ?_⟩
  all_goals
    obtain ⟨k, cs, rfl, hname, hentry⟩ := hfront p hp
    simp [Tree.isNode, hname, hentry]

/-- **The table that is collected has the name and the rows of its definition.** -/
theorem table_rebuilt (hpart : ReadsTable part nameRule) (hne : nameRule ≠ "entry")
    (hfront : ∀ p ∈ front, IsColumns nameRule p)
    (hentry : entry = [] ∨ ∃ e, entry = [e] ∧ Derives "entry" e) (hl0 : l₀.entries = [])
    (h : (front ++ .node nameRule [.leaf name] :: entry).foldlM part l₀ out = .ok l out') :
    TableOf [nameRule] (.node kind (front ++ .node nameRule [.leaf name] :: entry)) l := by
  obtain ⟨hnames, hentries⟩ := filter_isNode_columns hfront
  rw [foldlM_append, bind_eq_ok] at h
  obtain ⟨l1, s1, h1, h⟩ := h
  rw [foldlM_cons, bind_eq_ok] at h
  obtain ⟨l2, s2, h2, h⟩ := h
  obtain ⟨hname2, hentries2⟩ := hpart.name h2
  rw [columns_keep hpart hfront h1, hl0] at hentries2
  rcases hentry with rfl | ⟨e, rfl, he⟩
  · obtain ⟨rfl, -⟩ := pure_eq_ok.mp h
    simp [TableOf, Lookup.rows, hentries2, hname2, Tree.rows, Tree.isNamed, Tree.under, Tree.parts,
      hnames, hentries, Tree.isNode, hne, Tree.words, Tree.wordsAll]
  · obtain ⟨rs, rfl, hrs⟩ := shape_entry he
    rw [foldlM_cons, bind_eq_ok] at h
    obtain ⟨l3, s3, h3, h⟩ := h
    obtain ⟨rfl, -⟩ := pure_eq_ok.mp h
    obtain ⟨hname3, hrows⟩ := hpart.entry hentries2 h3
    simp [TableOf, hrows, hname3, hname2, Tree.rows, Tree.isNamed, Tree.under, Tree.parts,
      hnames, hentries, Tree.isNode, hne, Ne.symm hne, Tree.words, Tree.wordsAll,
      filter_isNode_of_derives hrs]

theorem set_rebuilt (ht : Derives "set" t) : ∃ parts, t = .node "set" parts ∧
    ∀ {l out out'}, parts.foldlM setPart ⟨defaultName, [], [], defaultSize, []⟩ out = .ok l out' →
      TableOf ["set_name"] t l := by
  obtain ⟨key, name, entry, rfl, hkey, hentry⟩ := shape_set ht
  have hfront : ∀ p ∈ [key], IsColumns "set_name" p := by
    simpa using isColumns_of_derives hkey (by decide) (by decide)
  refine ⟨_, rfl, fun {l out out'} h => ?_⟩
  change ([key] ++ .node "set_name" [.leaf name] :: entry).foldlM setPart _ out = _ at h
  have htable : TableOf _ (.node "set" _) l :=
    table_rebuilt readsTable_setPart (by decide) hfront hentry rfl h
  exact htable

theorem map_rebuilt (ht : Derives "map" t) : ∃ parts, t = .node "map" parts ∧
    ∀ {l out out'}, parts.foldlM mapPart ⟨defaultName, [], [], defaultSize, []⟩ out = .ok l out' →
      TableOf ["map_name"] t l := by
  obtain ⟨key, value, size, name, entry, rfl, hkey, hvalue, hsize, hentry⟩ := shape_map ht
  have hfront : ∀ p ∈ key :: value :: size, IsColumns "map_name" p := by
    have hsizes : ∀ p ∈ size, IsColumns "map_name" p := by
      rcases hsize with rfl | ⟨len, rfl, hlen⟩
      · simp
      · simpa using isColumns_of_derives hlen (by decide) (by decide)
    simpa using ⟨isColumns_of_derives hkey (by decide) (by decide),
      isColumns_of_derives hvalue (by decide) (by decide), hsizes⟩
  refine ⟨_, rfl, fun {l out out'} h => ?_⟩
  change (key :: value :: size ++ .node "map_name" [.leaf name] :: entry).foldlM mapPart _ out =
    _ at h
  have htable : TableOf _ (.node "map" _) l :=
    table_rebuilt readsTable_mapPart (by decide) hfront hentry rfl h
  exact htable

/-! ### Statements of modules and applications -/

theorem isNamed_func {name f : String} :
    Tree.isNamed [] f (.node "func" (.leaf name :: cs)) = decide (name = f) := by
  simp [Tree.isNamed, Tree.under, Tree.words, Tree.wordsAll]

variable {m m' : Module}

theorem moduleDefinition_adds (hd : Derives k d)
    (hk : k ∈ ["tuple", "set", "map", "ins_define_var", "func", "reg"])
    (h : moduleDefinition m d out = .ok m' out') :
    Module.Adds [.node "instruction" [.node "define" [d]]] m m' := by
  obtain ⟨-, cs, -, -, rfl⟩ := Ebnf.derives_iff.mp hd
  obtain ⟨_, hrule', h⟩ := bind_shape_eq_ok.mp h
  obtain rfl := Except.ok.inj hrule'
  simp only [mem_cons, not_mem_nil, or_false] at hk
  rcases hk with rfl | rfl | rfl | rfl | rfl | rfl
  · simp only [↓reduceIte, bind_eq_ok, pure_eq_ok] at h
    obtain ⟨name, _, -, items, _, -, ds, _, -, rfl, -⟩ := h
    exact .other (by decide) ⟨rfl, rfl, rfl, rfl⟩
  · obtain ⟨parts, hparts, htable⟩ := set_rebuilt hd
    obtain ⟨-, rfl⟩ := Tree.node.inj hparts
    simp only [String.reduceEq, ↓reduceIte, bind_eq_ok, pure_eq_ok, lift_shape_eq_ok] at h
    obtain ⟨ds, _, ⟨hds, rfl⟩, l, _, hl, rfl, -⟩ := h
    obtain rfl := Except.ok.inj hds
    exact .definition rfl id (by simp) (by simp) fun n => by
      simpa using find?_insert_table (htable hl) n
  · obtain ⟨parts, hparts, htable⟩ := map_rebuilt hd
    obtain ⟨-, rfl⟩ := Tree.node.inj hparts
    simp only [String.reduceEq, ↓reduceIte, bind_eq_ok, pure_eq_ok, lift_shape_eq_ok] at h
    obtain ⟨ds, _, ⟨hds, rfl⟩, l, _, hl, rfl, -⟩ := h
    obtain rfl := Except.ok.inj hds
    exact .definition rfl id (by simp) (fun n => by simpa using find?_insert_table (htable hl) n)
      (by simp)
  · simp only [String.reduceEq, ↓reduceIte, bind_eq_ok, pure_eq_ok] at h
    obtain ⟨vars, _, -, rfl, -⟩ := h
    exact .other (by decide) ⟨rfl, rfl, rfl, rfl⟩
  · obtain ⟨name, cs', hcs, hbody⟩ := func_rebuilt hd
    obtain ⟨-, rfl⟩ := Tree.node.inj hcs
    simp only [String.reduceEq, ↓reduceIte, bind_eq_ok, pure_eq_ok, lift_shape_eq_ok] at h
    obtain ⟨body, _, ⟨hb, rfl⟩, b, _, hblock, name', _, ⟨hname', rfl⟩, rfl, -⟩ := h
    obtain rfl := Except.ok.inj hname'
    obtain ⟨hnodes, hwell⟩ := hbody hb hblock
    refine .definition rfl (fun h e he => ?_) (fun f => ?_) (by simp) (by simp)
    · rcases OrderedMap.mem_entries_insert he with he | he
      · exact he ▸ hwell
      · exact h e he
    rw [isNamed_func]
    by_cases hf : name = f
    · subst hf
      simp [hnodes]
    · simp [hf, OrderedMap.find?_insert_of_ne _ (Ne.symm hf)]
  · simp only [String.reduceEq, ↓reduceIte, bind_eq_ok, pure_eq_ok] at h
    obtain ⟨r, _, -, rfl, -⟩ := h
    exact .other (by decide) ⟨rfl, rfl, rfl, rfl⟩

theorem adds_of_step (hk : k ≠ "define" ∧ k ≠ "annotation" ∧ k ≠ "ins_null")
    (hx : ∀ {i s'}, x out = .ok i s' → i.Rebuilds (.node k cs))
    (h : (x >>= fun i => pure { m with body := m.body ++ [i] }) out = .ok m' out') :
    Module.Adds [.node "instruction" [.node k cs]] m m' := by
  obtain ⟨i, hi, rfl⟩ := bind_pure_eq_ok.mp h
  exact .of_body hk.1 (.statement hk (hx hi))

theorem moduleStatement_adds (ht : Derives "instruction" t)
    (h : moduleStatement m t out = .ok m' out') :
    Module.Adds [t] m m' := by
  obtain ⟨k, x, rfl, hx, hk⟩ := shape_instruction ht
  obtain ⟨-, cs, -, -, rfl⟩ := Ebnf.derives_iff.mp hx
  simp only [mem_cons, not_mem_nil, or_false] at hk
  rcases hk with rfl | rfl | rfl | rfl | rfl | rfl | rfl | rfl | rfl | rfl | rfl | rfl
  · exact adds_of_step (x := assign (.node _ cs)) (by decide) (assign_rebuilt hx) h
  · change (call true (.node _ cs) >>= fun c => pure { m with body := m.body ++ [Ins.call c] })
      out = _ at h
    obtain ⟨c, s1, hc, h⟩ := bind_eq_ok.mp h
    obtain ⟨rfl, -⟩ := pure_eq_ok.mp h
    exact .of_body (by decide) (.statement (by decide)
      (apply_rebuilt hx (bind_eq_ok.mpr ⟨c, s1, hc, rfl⟩)))
  · exact adds_of_step (x := branch (.node _ cs)) (by decide) (branch_rebuilt hx) h
  · exact adds_of_step (x := assert (.node _ cs)) (by decide) (assert_rebuilt hx) h
  · obtain ⟨k, d, hd, hk, hmem⟩ := shape_define hx
    obtain ⟨-, rfl⟩ := Tree.node.inj hd
    exact moduleDefinition_adds hk hmem h
  · exact adds_of_step (x := switch (.node _ cs)) (by decide) (switch_rebuilt hx) h
  · exact adds_of_step (x := primitive (.node _ cs)) (by decide) (primitive_rebuilt hx) h
  · exact adds_of_step (x := arith (.node _ cs)) (by decide) (arith_rebuilt hx) h
  · cases h
    exact .of_body (by decide) (.skipped (by decide))
  · cases h
    exact .of_body (by decide) (.skipped (by decide))
  · cases h
  · cases h

theorem statements_add {is : List Tree} (his : ∀ t ∈ is, Derives "instruction" t)
    (h : is.foldlM moduleStatement m out = .ok m' out') : Module.Adds is m m' :=
  foldlM_adds (R := Module.Adds) .refl .trans
    (fun t ht _ _ _ _ h => moduleStatement_adds (his t ht) h) h

theorem moduleParam_adds (h : moduleParam m t out = .ok m' out') : Module.Adds [] m m' := by
  simp only [moduleParam, bind_eq_ok, pure_eq_ok] at h
  obtain ⟨direction, _, -, type, _, -, name, _, -, rfl, -⟩ := h
  exact ⟨.refl _, id, by simp, by simp, by simp⟩

def controlled (parts : List Tree) : List Tree :=
  (parts.filter (Tree.isNode "control")).flatMap (Tree.under ["code_body", "instruction"])

theorem controlled_of_ne (hk : k ≠ "control") (cs : List Tree) : controlled [.node k cs] = [] := by
  simp [controlled, Tree.isNode, hk]

theorem modulePart_adds
    (ht : (∃ s, t = .leaf s) ∨ ∃ k ∈ ["module_name", "module_pars", "module_parser", "parser",
      "control"], Derives k t)
    (h : modulePart m t out = .ok m' out') : Module.Adds (controlled [t]) m m' := by
  rcases ht with ⟨s, rfl⟩ | ⟨k, hk, ht⟩
  · cases h
  obtain ⟨-, cs, -, -, rfl⟩ := Ebnf.derives_iff.mp ht
  simp only [mem_cons, not_mem_nil, or_false] at hk
  rcases hk with rfl | rfl | rfl | rfl | rfl
  · cases h
    exact .refl m
  · change cs.foldlM moduleParam m out = _ at h
    rw [controlled_of_ne (by decide)]
    refine foldlM_keeps (Module.Adds [] m) (fun m1 p s1 m2 s2 h1 h2 => ?_) cs (.refl m) h
    exact h1.trans (moduleParam_adds h2)
  · cases h
    exact .refl m
  · cases h
    exact .refl m
  · obtain ⟨body, hcs, hbody⟩ := shape_control ht
    obtain ⟨-, rfl⟩ := Tree.node.inj hcs
    obtain ⟨is, rfl, his⟩ := shape_code_body hbody
    have his' : controlled [.node "control" [.node "code_body" is]] = is := by
      simp [controlled, Tree.isNode, Tree.under, Tree.parts, filter_isNode_of_derives his]
    rw [his']
    exact statements_add his h

theorem parts_add {parts : List Tree} (hparts : ∀ t ∈ parts, (∃ s, t = .leaf s) ∨
    ∃ k ∈ ["module_name", "module_pars", "module_parser", "parser", "control"], Derives k t)
    (h : parts.foldlM modulePart m out = .ok m' out') : Module.Adds (controlled parts) m m' := by
  refine foldlM_adds (R := fun parts => Module.Adds (controlled parts)) .refl
    (fun {t parts _ _ _} h h' => ?_)
    (fun t ht _ _ _ _ h => modulePart_adds (hparts t ht) h) h
  have happend : controlled (t :: parts) = controlled [t] ++ controlled parts := by
    rw [controlled, controlled, controlled, ← flatMap_append, ← filter_append, singleton_append]
  exact happend ▸ h.trans h'

theorem module_adds (ht : Derives "module" t) (h : module t out = .ok m out') :
    ∃ name, Module.Adds (t.under ["control", "code_body", "instruction"]) (.named name) m := by
  obtain ⟨parts, rfl, hparts⟩ := shape_module ht
  obtain ⟨name, s1, -, h⟩ := bind_eq_ok.mp h
  obtain ⟨cs, hcs', h⟩ := bind_shape_eq_ok.mp h
  obtain rfl := Except.ok.inj hcs'
  exact ⟨name, parts_add hparts h⟩

theorem module_rebuilds (ht : Derives "module" t) (h : module t out = .ok m out') :
    m.Rebuilds t := by
  obtain ⟨name, hadds⟩ := module_adds ht h
  refine ⟨hadds.body.nodes, fun f => ?_, fun n => ?_, fun n => ?_⟩
  · exact (hadds.funcs f).trans Option.or_none
  · exact (hadds.maps n).trans Option.or_none
  · exact (hadds.sets n).trans Option.or_none

/-! ### Applications -/

variable {a a' : Application}

theorem application_adds_of_step (hk : k ≠ "define" ∧ k ≠ "annotation" ∧ k ≠ "ins_null")
    (hx : ∀ {i s'}, x out = .ok i s' → i.Rebuilds (.node k cs))
    (h : (x >>= fun i => pure { a with body := a.body ++ [i] }) out = .ok a' out') :
    Ins.Added [.node "instruction" [.node k cs]] a.body a'.body := by
  obtain ⟨i, hi, rfl⟩ := bind_pure_eq_ok.mp h
  exact .statement hk (hx hi)

theorem applicationStatement_adds (ht : Derives "instruction" t)
    (h : applicationStatement a t out = .ok a' out') :
    Ins.Added [t] a.body a'.body := by
  obtain ⟨k, x, rfl, hx, hk⟩ := shape_instruction ht
  obtain ⟨-, cs, -, -, rfl⟩ := Ebnf.derives_iff.mp hx
  simp only [mem_cons, not_mem_nil, or_false] at hk
  rcases hk with rfl | rfl | rfl | rfl | rfl | rfl | rfl | rfl | rfl | rfl | rfl | rfl
  · exact application_adds_of_step (x := assign (.node _ cs)) (by decide) (assign_rebuilt hx) h
  · change (call true (.node _ cs) >>= fun c => pure { a with body := a.body ++ [Ins.call c] })
      out = _ at h
    obtain ⟨c, s1, hc, h⟩ := bind_eq_ok.mp h
    obtain ⟨rfl, -⟩ := pure_eq_ok.mp h
    exact .statement (by decide) (apply_rebuilt hx (bind_eq_ok.mpr ⟨c, s1, hc, rfl⟩))
  · exact application_adds_of_step (x := branch (.node _ cs)) (by decide) (branch_rebuilt hx) h
  · cases h
  · obtain ⟨k, d, hd, hk, -⟩ := shape_define hx
    obtain ⟨-, ds, -, -, rfl⟩ := Ebnf.derives_iff.mp hk
    obtain ⟨-, rfl⟩ := Tree.node.inj hd
    change (if k = "ins_define_var" then declaration a.vars (.node k ds) >>= fun vars =>
      pure { a with vars := vars }
      else refuse (.applicationDefinition k) : Report Application) out = _ at h
    split at h
    · obtain ⟨vars, -, rfl⟩ := bind_pure_eq_ok.mp h
      exact .skipped (.inl rfl)
    · cases h
  · cases h
  · exact application_adds_of_step (x := primitive (.node _ cs)) (by decide)
      (primitive_rebuilt hx) h
  all_goals cases h

theorem application_adds (ht : Derives "application" t) (h : application t out = .ok a out') :
    Ins.Added (t.under ["code_body", "instruction"]) [] a.body := by
  obtain ⟨name, body, hbody, ht⟩ := shape_application ht
  obtain ⟨is, rfl, his⟩ := shape_code_body hbody
  have hunder : t.under ["code_body", "instruction"] = is := by
    rcases ht with rfl | ⟨p, rfl⟩
    all_goals simp [Tree.under, Tree.parts, Tree.isNode, filter_isNode_of_derives his]
  have hfold : is.foldlM applicationStatement ⟨name, {}, []⟩ out = .ok a out' := by
    rcases ht with rfl | ⟨p, rfl⟩
    all_goals exact h
  rw [hunder]
  exact foldlM_adds (R := fun is a a' => Ins.Added is a.body a'.body) (fun _ => .refl _) .trans
    (fun t ht _ _ _ _ h => applicationStatement_adds (his t ht) h) hfold

theorem application_rebuilds (ht : Derives "application" t) (h : application t out = .ok a out') :
    Ins.nodes a.body = ((t.under ["code_body", "instruction"]).filter Tree.isStatement).map
      Tree.kept :=
  (application_adds ht h).nodes

/-! ### Parsed files -/

theorem derives_of_mem_parts (ht : Derives n t) (hc : c ∈ t.parts.filter (Tree.isNode r)) :
    Derives r c := by
  obtain ⟨hc, hr⟩ := mem_filter.mp hc
  obtain ⟨e, cs, -, hcs, rfl⟩ := Ebnf.derives_iff.mp ht
  rcases hcs.leaf_or_derives c hc with ⟨s, rfl⟩ | ⟨k, -, hk⟩
  · cases hr
  · obtain ⟨-, ds, -, -, rfl⟩ := Ebnf.derives_iff.mp hk
    obtain rfl : k = r := of_decide_eq_true hr
    exact hk

theorem derives_of_mem_code {text : String} {file : Tree} (h : program.parse text = .ok file)
    (hc : c ∈ file.under ["code", r]) : Derives r c := by
  obtain ⟨code, hcode, hc⟩ := mem_flatMap.mp hc
  obtain ⟨c', hc', hmem⟩ := mem_flatMap.mp hc
  obtain rfl := mem_singleton.mp hmem
  exact derives_of_mem_parts (derives_of_mem_parts (derives_of_parse h) hcode) hc'

/-- **What collecting keeps.**  The modules and applications of a parsed file derive from their
rules.  For all that derive from them, the instructions of a module's control part and of an
application come back from what is collected of them, one for each node, in the same order and
nesting and with their operands; so do the functions and the entries of the tables of a module, with
the losses that `Tree.kept`, `Tree.instructions` and `Tree.rows` describe. -/
theorem instructions_and_operands_kept (t : Tree) (out out' : String) :
    (∀ text file, program.parse text = .ok file →
      (t ∈ file.under ["code", "module"] → Derives "module" t) ∧
      (t ∈ file.under ["code", "application"] → Derives "application" t)) ∧
    (∀ m, Derives "module" t → module t out = .ok m out' → m.Rebuilds t) ∧
    ∀ a, Derives "application" t → application t out = .ok a out' →
      Ins.nodes a.body = ((t.under ["code_body", "instruction"]).filter Tree.isStatement).map
        Tree.kept :=
  ⟨fun _ _ h => ⟨derives_of_mem_code h, derives_of_mem_code h⟩, fun _ => module_rebuilds,
    fun _ => application_rebuilds⟩

/-- `module M() { control { map<bit<8>, bit<8>> t { (hdr.a.b, 1); };
func f(bit<8> x) { drop(); } if (isValid(a, b)) { nop(); } else { f = t; } } }` -/
def lossyModule : Tree :=
  let data (kind : String) (words : List String) : Tree :=
    .node "data" [.node kind (words.map .leaf)]
  let body (i : Tree) : Tree := .node "code_body" [.node "instruction" [i]]
  let source : Tree := .node "expression" [.node "term" [.node "factor" [data "name" ["t"]]]]
  .node "module" [.node "module_name" [.leaf "M"], .node "control" [.node "code_body"
    [ .node "instruction" [.node "define"
      [.node "map" [.node "map_key" [.leaf "bit<8>"], .node "map_value" [.leaf "bit<8>"],
      .node "map_name" [.leaf "t"],
      .node "entry" [.node "single_entry" [data "name_field" ["hdr", "a", "b"],
        data "int" ["1"]]]]]],
    .node "instruction" [.node "define" [.node "func" [.leaf "f",
      .node "func_params" [.node "func_param" [.leaf "bit<8>", .leaf "x"]],
      body (.node "primitive" [.node "drop" []])]]],
    .node "instruction" [.node "if" [
      .node "if_block" [.node "condition" [.node "isvalid" [data "name" ["a"], data "name" ["b"]]],
        body (.node "primitive" [.node "nop" []])],
      .node "else_block" [.node "else"
        [body (.node "ins_assign" [.node "ins_assign_left" [data "name" ["f"]],
        .node "ins_assign_right" [source]])]]]]]]]

theorem derives_lossyModule : Derives "module" lossyModule :=
  Ebnf.derives_of_rests 200 (by decide +kernel)

theorem lossyModule_passes : passes (fun m _ => (m.funcs.find? "f").map List.length = some 0 ∧
    (m.maps.find? "t").map Lookup.entries = some [["hdr", "1"]] ∧
    (m.body.flatMap Ins.conditions).map (·.left.length) = [1]) (module lossyModule "") = true := by
  decide +kernel

/-- The function loses its instruction, the entry two words of its first operand, and the test its
second operand. -/
theorem instructions_and_operands_kept_lossy : Derives "module" lossyModule ∧ ∃ m out,
    module lossyModule "" = .ok m out ∧ m.Rebuilds lossyModule ∧
      (m.funcs.find? "f").map List.length = some 0 ∧
      (m.maps.find? "t").map Lookup.entries = some [["hdr", "1"]] ∧
      (m.body.flatMap Ins.conditions).map (·.left.length) = [1] := by
  obtain ⟨m, out, h, hlosses⟩ := exists_ok_of_passes lossyModule_passes
  exact ⟨derives_lossyModule, m, out, h,
    (instructions_and_operands_kept _ _ _).2.1 m derives_lossyModule h, of_decide_eq_true hlosses⟩

end Collect

/-! ### Well-formed programs -/

/-- All instructions are well-formed: those of applications, of modules and of the functions of
modules. -/
structure Program.WellFormed (p : Program) : Prop where
  applications : ∀ e ∈ p.applications.entries, ∀ i ∈ e.2.body, i.WellFormed
  modules : ∀ e ∈ p.modules.entries, (∀ i ∈ e.2.body, i.WellFormed) ∧ e.2.WellFormedFuncs

namespace Program

open Collect

variable {p p' : Program} {t c : Tree} {n out out' : String}

theorem addComponent_wellFormed (ht : Derives n t) (hc : c ∈ t.parts) (hp : p.WellFormed)
    (h : addComponent p c out = .ok p' out') : p'.WellFormed := by
  obtain ⟨kind, hkind, h⟩ := bind_shape_eq_ok.mp h
  have hderives : Derives kind c := by
    refine derives_of_mem_parts ht (mem_filter.mpr ⟨hc, ?_⟩)
    cases c with
    | leaf => cases hkind
    | node => exact decide_eq_true (Except.ok.inj hkind)
  split at h
  · obtain ⟨s, -, rfl⟩ := bind_pure_eq_ok.mp h
    exact ⟨hp.applications, hp.modules⟩
  split at h
  · next heq =>
    obtain ⟨a, ha, rfl⟩ := bind_pure_eq_ok.mp h
    refine ⟨fun e he => ?_, hp.modules⟩
    rcases OrderedMap.mem_entries_insertNew he with he | he
    · exact he ▸ (application_adds (heq ▸ hderives) ha).wellFormed (forall_mem_nil _)
    · exact hp.applications e he
  split at h
  · next heq =>
    obtain ⟨m, hm, rfl⟩ := bind_pure_eq_ok.mp h
    obtain ⟨name, hadds⟩ := module_adds (heq ▸ hderives) hm
    refine ⟨hp.applications, fun e he => ?_⟩
    rcases OrderedMap.mem_entries_insertNew he with he | he
    · exact he ▸ ⟨hadds.body.wellFormed (forall_mem_nil _),
        hadds.wellFormedFuncs (forall_mem_nil _)⟩
    · exact hp.modules e he
  · cases h

theorem addFile_wellFormed (ht : Derives n t) (hp : p.WellFormed)
    (h : addFile p t out = .ok p' out') : p'.WellFormed := by
  obtain ⟨e, cs, -, -, rfl⟩ := Ebnf.derives_iff.mp ht
  refine foldlM_keeps_of_mem WellFormed cs (fun p c hc s p' s' hp h => ?_) hp h
  obtain ⟨kind, hkind, h⟩ := bind_shape_eq_ok.mp h
  split at h
  · obtain ⟨ds, hds, h⟩ := bind_shape_eq_ok.mp h
    cases c with
    | leaf => cases hkind
    | node r cs' =>
      obtain rfl := Except.ok.inj hds
      have hc : Derives r (.node r cs') :=
        derives_of_mem_parts ht (mem_filter.mpr ⟨hc, decide_eq_true rfl⟩)
      exact foldlM_keeps_of_mem WellFormed cs'
        (fun _ _ hd _ _ _ => addComponent_wellFormed hc hd) hp h
  · exact (pure_eq_ok.mp h).1 ▸ hp

/-- **What is collected is well-formed.**  A parsed file derives from the first rule.  From files
that do, only instructions are collected that are well-formed at every depth. -/
theorem collected_wellFormed (files : List Tree) (out out' : String) :
    (∀ text file, program.parse text = .ok file → Derives "start" file) ∧
      ∀ p, (∀ file ∈ files, Derives "start" file) → collect files out = .ok p out' →
        p.WellFormed := by
  refine ⟨fun _ _ => derives_of_parse, fun p hfiles h => ?_⟩
  obtain ⟨_, s1, -, h⟩ := bind_eq_ok.mp h
  refine foldlM_keeps_of_mem WellFormed files
    (fun _ t ht _ _ _ => addFile_wellFormed (hfiles t ht)) ?_ h
  exact ⟨forall_mem_nil _, forall_mem_nil _⟩

theorem lossyFile_passes :
    passes (fun p _ => p.modules.keys = ["M"])
    (collect [.node "start" [.node "code" [lossyModule]]] "") = true := by
  decide +kernel

/-- The if of this module has an `else`, and one of its blocks an assignment. -/
theorem collected_wellFormed_lossy :
    ∃ p out, Derives "start" (.node "start" [.node "code" [lossyModule]]) ∧
    collect [.node "start" [.node "code" [lossyModule]]] "" = .ok p out ∧ p.modules.keys = ["M"] ∧
      p.WellFormed := by
  obtain ⟨p, out, h, hkeys⟩ := exists_ok_of_passes lossyFile_passes
  have hderives : Derives "start" (.node "start" [.node "code" [lossyModule]]) :=
    Ebnf.derives_of_rests 200 (by decide +kernel)
  exact ⟨p, out, hderives, h, of_decide_eq_true hkeys,
    (collected_wellFormed _ _ _).2 p (forall_mem_singleton.mpr hderives) h⟩

end Program

end Pathwise
