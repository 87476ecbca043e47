import Pathwise.Proofs.Alike
import Pathwise.Proofs.OrderedMap
import Pathwise.Proofs.Program.Shapes
import Pathwise.Proofs.Project.Grown

/-!
# What a forest holds

A forest begins with the tree of the main file.  The include lines of the main file add more trees:
a line with a file of the user adds the tree of that file, and a line with a domain adds the trees
of the files that the domain lists.  The include lines of files that were added are not followed.

* `Tree.Includes t rule cs`: the file has such an include line, and `Tree.IncludesFile t names` is
  the case of a file of the user.
* `Forest.Source`: where a tree of a forest comes from.
* `Forest.Reaches`: the files of the user that a file includes, directly or through other files.
* `Forest.grow_holds_direct_includes`: **of all files that the main file reaches, the forest holds
  those that the main file includes itself.**
-/

namespace Pathwise

open Steps OrderedMap

variable {ε σ α β : Type} in
/-- **What every pass of a loop keeps and brings about**, the loop keeps and has brought about for
every item. -/
theorem Steps.foldlM_covers {f : β → α → EStateM ε σ β} (P : β → σ → Prop) (Q : α → β → Prop) :
    ∀ (xs : List α) {b b' : β} {s s' : σ},
    (∀ a ∈ xs, ∀ b s b' s', P b s → f b a s = .ok b' s' → P b' s' ∧ Q a b' ∧ ∀ a', Q a' b →
      Q a' b') → P b s →
      xs.foldlM f b s = .ok b' s' → P b' s' ∧ (∀ a ∈ xs, Q a b') ∧ ∀ a, Q a b → Q a b' := by
  intro xs
  induction xs with
  | nil =>
    intro b b' s s' _ hb h
    obtain ⟨rfl, rfl⟩ := pure_eq_ok.mp h
    exact ⟨hb, List.forall_mem_nil _, fun _ ha => ha⟩
  | cons x xs ih =>
    intro b b' s s' hf hb h
    obtain ⟨hx, hxs⟩ := List.forall_mem_cons.mp hf
    rw [List.foldlM_cons, bind_eq_ok] at h
    obtain ⟨b1, s1, h1, h2⟩ := h
    obtain ⟨hb1, hq1, hkeep1⟩ := hx b s b1 s1 hb h1
    obtain ⟨hb', hq, hkeep⟩ := ih hxs hb1 h2
    exact ⟨hb', List.forall_mem_cons.mpr ⟨hkeep x hq1, hq⟩, fun a ha => hkeep a (hkeep1 a ha)⟩

/-! ### Names of files -/

namespace Token

theorem isNameChar_of_mem_nameTail (cs : List Char) {c : Char} (h : c ∈ cs.take (nameTail cs)) :
    isLetter c = true ∨ isDigit c = true ∨ c = '_' := by
  fun_induction nameTail cs with
  | case1 => simp at h
  | case2 d cs hd ih =>
    rw [List.take_succ_cons, List.mem_cons] at h
    rcases h with rfl | h
    · simpa [or_assoc] using Or.inl hd
    · exact ih h
  | case3 => simp at h
  | case4 d ds hd _ ih =>
    rw [List.take_succ_cons, List.take_succ_cons, List.mem_cons, List.mem_cons] at h
    rcases h with rfl | rfl | h
    · exact .inr (.inr rfl)
    · simpa [or_assoc] using Or.inl hd
    · exact ih h
  | case5 => simp at h
  | case6 => simp at h

theorem not_slash_of_reads {s : String} (h : name.Reads s) : '/' ∉ s.toList := by
  obtain ⟨cs, n, hn, rfl⟩ := h
  rw [String.toList_ofList]
  cases cs with
  | nil => cases hn
  | cons c cs =>
    rw [munch?, name?] at hn
    split at hn
    · next hc =>
      cases hn
      rw [List.take_succ_cons]
      intro hmem
      rcases List.mem_cons.mp hmem with rfl | hmem
      · exact absurd hc (by decide)
      · exact absurd (isNameChar_of_mem_nameTail cs hmem) (by decide)
    · cases hn

end Token

namespace Language

open Ebnf

theorem derives_of_mem {n m : String} {cs ds : List Tree} (h : Derives n (.node n cs))
    (hmem : .node m ds ∈ cs) :
    Derives m (.node m ds) := by
  obtain ⟨e, cs', -, hcs, heq⟩ := derives_iff.mp h
  cases heq
  obtain ⟨s, hs⟩ | ⟨k, -, hk⟩ := hcs.leaf_or_derives _ hmem
  · cases hs
  · obtain ⟨_, _, -, -, heq⟩ := derives_iff.mp hk
    cases heq
    exact hk

theorem shape_filePath {ts : List Tree} (h : Ebnf.Yields programRules filePath ts) :
    ts ≠ [] ∧ ∀ n, .leaf n ∈ ts → '/' ∉ n.toList := by
  rw [filePath, yields_token_seq rfl] at h
  obtain ⟨first, rest, rfl, hrest, hfirst⟩ := h
  have hnames : ∀ t ∈ rest, ∃ s, Token.name.Reads s ∧ t = .leaf s := by
    refine hrest.forall_many fun r hr => ?_
    rw [yields_lit_seq, yields_token rfl] at hr
    obtain ⟨s, hs, rfl⟩ := hr
    exact ⟨.leaf s, ⟨s, hs, rfl⟩, rfl⟩
  refine ⟨List.cons_ne_nil _ _, fun n hn => ?_⟩
  rcases List.mem_cons.mp hn with heq | hn
  · cases heq
    exact Token.not_slash_of_reads hfirst
  · obtain ⟨s, hs, heq⟩ := hnames _ hn
    cases heq
    exact Token.not_slash_of_reads hs

/-- The rules of include lines that name a file with a program. -/
def fileRules : List String := ["include_user_file", "include_sys_file"]

theorem shape_include_file {rule : String} {cs : List Tree} (hrule : rule ∈ fileRules)
    (h : Derives rule (.node rule cs)) :
    cs ≠ [] ∧ ∀ n, .leaf n ∈ cs → '/' ∉ n.toList := by
  have hlookup : ∃ before after, programRules.lookup rule =
      some (all [lit "#include", lit before, filePath, lit ".pne", lit after]) := by
    rcases List.mem_pair.mp hrule with rfl | rfl
    · exact ⟨">-<", ">-<", rfl⟩
    · exact ⟨"<", ">", rfl⟩
  obtain ⟨before, after, hlookup⟩ := hlookup
  obtain ⟨cs', hcs, heq⟩ := children_of_derives h hlookup
  cases heq
  simp only [all, yields_lit_seq, yields_seq (a := filePath), yields_lit] at hcs
  obtain ⟨ts, hts, _, rfl, rfl⟩ := hcs
  rw [List.append_nil]
  exact shape_filePath hts

end Language

/-! ### Include lines -/

/-- The file has an include line that follows the rule and has these parts. -/
def Tree.Includes (t : Tree) (rule : String) (cs : List Tree) : Prop :=
  ∃ r parts lines, t = .node r parts ∧ .node "include" lines ∈ parts ∧ .node rule cs ∈ lines

/-- The file includes a file of the user. -/
def Tree.IncludesFile (t : Tree) (names : List String) : Prop :=
  t.Includes "include_user_file" (names.map .leaf)

theorem Tree.eq_node_of_rule? {t : Tree} {rule : String} (h : t.rule? = .ok rule) :
    ∃ cs, t = .node rule cs := by
  cases t with
  | leaf => cases h
  | node r cs =>
    cases h
    exact ⟨cs, rfl⟩

theorem Tree.eq_node_of_children? {t : Tree} {cs : List Tree} (h : t.children? = .ok cs) :
    ∃ rule, t = .node rule cs := by
  cases t with
  | leaf => cases h
  | node r cs' =>
    cases h
    exact ⟨r, rfl⟩

namespace Forest

theorem parseFile_eq_ok {path : String} {t : Tree} {s s' : Session} :
    parseFile path s = .ok t s' ↔ ∃ text, Run.read path s = .ok text s ∧
      Language.program.parse text = .ok t ∧ s = s' := by
  rw [parseFile, bind_eq_ok]
  constructor
  · rintro ⟨text, s1, hread, h⟩
    obtain rfl := Run.read_stays hread
    cases hparse : Language.program.parse text with
    | ok t' =>
      rw [hparse] at h
      obtain ⟨rfl, rfl⟩ := pure_eq_ok.mp h
      exact ⟨text, hread, hparse, rfl⟩
    | error e =>
      rw [hparse] at h
      exact absurd h throw_ne_ok
  · rintro ⟨text, hread, hparse, rfl⟩
    exact ⟨text, s, hread, by rw [hparse]; rfl⟩

theorem names_eq_ok {t : Tree} {ns : List String} (h : names t = .ok ns) :
    ∃ rule, t = .node rule (ns.map .leaf) := by
  obtain ⟨cs, hcs, hns⟩ := except_bind_eq_ok.mp h
  obtain ⟨rule, rfl⟩ := Tree.eq_node_of_children? hcs
  refine ⟨rule, congrArg (Tree.node rule) ?_⟩
  clear h hcs
  induction cs generalizing ns with
  | nil =>
    cases hns
    rfl
  | cons c cs ih =>
    rw [List.mapM_cons] at hns
    obtain ⟨n, hn, hns⟩ := except_bind_eq_ok.mp hns
    obtain ⟨rest, hrest, hns⟩ := except_bind_eq_ok.mp hns
    cases hns
    cases c with
    | leaf text =>
      cases hn
      rw [List.map_cons, ← ih hrest]
    | node => cases hn

/-- **Names without slashes can be told from the names put behind each other.** -/
theorem joined_inj {ns ms : List String} (hns : ∀ n ∈ ns, '/' ∉ n.toList)
    (hms : ∀ m ∈ ms, '/' ∉ m.toList) (h : joined ns = joined ms) : ns = ms := by
  have hcons : ∀ (n : String) (ns : List String), (joined (n :: ns)).toList = '/' :: '/' ::
      (n.toList ++ (joined ns).toList) := by
    intro n ns
    simp [joined, String.join_cons, String.toList_append]
  -- what stands behind a name is empty or begins with a slash
  have hfirst : ∀ (n : String) (ns : List String), '/' ∉ n.toList →
      (n.toList ++ (joined ns).toList).takeWhile (· != '/') = n.toList := by
    intro n ns hn
    rw [List.takeWhile_append_of_pos fun c hc => by simpa using fun heq : c = '/' => hn (heq ▸ hc)]
    cases ns with
    | nil => simp [joined]
    | cons m ns => simp [hcons]
  induction ns generalizing ms with
  | nil =>
    cases ms with
    | nil => rfl
    | cons m ms => exact absurd (congrArg String.toList h) (by rw [hcons]; simp [joined])
  | cons n ns ih =>
    cases ms with
    | nil => exact absurd (congrArg String.toList h) (by rw [hcons]; simp [joined])
    | cons m ms =>
      obtain ⟨hn, hns'⟩ := List.forall_mem_cons.mp hns
      obtain ⟨hm, hms'⟩ := List.forall_mem_cons.mp hms
      have hlist := congrArg String.toList h
      rw [hcons, hcons, List.cons.injEq, List.cons.injEq] at hlist
      have hnames := congrArg (List.takeWhile (· != '/')) hlist.2.2
      rw [hfirst n ns hn, hfirst m ms hm] at hnames
      obtain rfl := String.toList_injective hnames
      have htail : joined ns = joined ms :=
        String.toList_injective (List.append_cancel_left hlist.2.2)
      rw [ih hns' hms' htail]

theorem slash_mem_joined {ns : List String} (h : ns ≠ []) : '/' ∈ (joined ns).toList := by
  obtain ⟨n, ns, rfl⟩ := List.exists_cons_of_ne_nil h
  simp [joined, String.join_cons, String.toList_append]

/-! ### What an include line adds -/

/-- A domain lists the name of a file. -/
def Lists (domain : Tree) (name : String) : Prop :=
  ∃ rule ∈ Language.fileRules, ∃ r kind lines rest cs,
    domain = .node r (.node kind lines :: rest) ∧ .node rule (.leaf name :: cs) ∈ lines

/-- The main file includes a domain that lists the name of a file. -/
def Listed (main : Tree) (name : String) : Prop :=
  ∃ rule ∈ ["include_user_domain", "include_sys_domain"], ∃ cs path domain s s',
    main.Includes rule cs ∧ parseDomain path s = .ok domain s' ∧ Lists domain name

/-- Where a tree of the forest comes from. -/
inductive Source (w : Workspace) (s : Session) (main : Tree) : String → Tree → Prop
  | main : Source w s main "main" main
  | included {names : List String} {t : Tree} : main.IncludesFile names →
    parseFile (w.project ++ joined names ++ ".pne") s = .ok t s → Source w s main (joined names) t
  | listed {name : String} {t : Tree} : Listed main name → Source w s main name t

variable {w : Workspace} {s s₀ s' : Session} {main : Tree} {forest forest' : Forest}

theorem addListed_eq_ok {rule dir : String} {domain : Tree} (hrule : rule ∈ Language.fileRules)
    (h : addListed rule dir forest domain s = .ok forest' s') :
    (∀ key t, forest'.find? key = some t → forest.find? key = some t ∨ Lists domain key) ∧
      ∀ key ∈ forest.keys, key ∈ forest'.keys := by
  obtain ⟨first, hfirst, h⟩ := bind_shape_eq_ok.mp h
  obtain ⟨lines, hlines, h⟩ := bind_shape_eq_ok.mp h
  obtain ⟨kind, rfl⟩ := Tree.eq_node_of_children? hlines
  obtain ⟨r, rest, rfl⟩ : ∃ r rest, domain = .node r (.node kind lines :: rest) := by
    cases domain with
    | leaf => cases hfirst
    | node r cs =>
      cases cs with
      | nil => cases hfirst
      | cons c cs =>
        cases hfirst
        exact ⟨r, cs, rfl⟩
  refine foldlM_covers (fun f _ => (∀ key t, f.find? key = some t → forest.find? key = some t ∨
    Lists _ key) ∧
    ∀ key ∈ forest.keys, key ∈ f.keys) (fun _ _ => True) lines ?_ ⟨fun key t ht => .inl ht,
    fun key hkey => hkey⟩ h |>.1
  intro line hline f s1 f' s2 hf hpass
  refine ⟨?_, trivial, fun _ _ => trivial⟩
  obtain ⟨rule', hrule', hbody⟩ := bind_shape_eq_ok.mp hpass
  split at hbody
  · next heq =>
    subst heq
    obtain ⟨name, hname, hadd⟩ := bind_shape_eq_ok.mp hbody
    split at hadd
    · obtain ⟨rfl, rfl⟩ := pure_eq_ok.mp hadd
      exact hf
    · obtain ⟨t, -, rfl⟩ := bind_pure_eq_ok.mp hadd
      obtain ⟨cs, rfl⟩ := Tree.eq_node_of_rule? hrule'
      have hlists : Lists (.node r (.node kind lines :: rest)) name := by
        cases cs with
        | nil => cases hname
        | cons c cs =>
          cases c with
          | node => cases hname
          | leaf text =>
            cases hname
            exact ⟨_, hrule, r, kind, lines, rest, cs, rfl, hline⟩
      refine ⟨fun key t' ht' => ?_,
        fun key hkey => (mem_keys_insert f name key t).mpr (.inl (hf.2 key hkey))⟩
      rw [find?_insert] at ht'
      split at ht'
      · next hkey => exact .inr (hkey ▸ hlists)
      · exact hf.1 key t' ht'
  · obtain ⟨rfl, rfl⟩ := pure_eq_ok.mp hbody
    exact hf

theorem parseFile_of_keeps (hkeeps : KeepsFiles (EndsWith · ".pne") s₀ s)
    {front : String} {t : Tree} (h : parseFile (front ++ ".pne") s = .ok t s') :
    parseFile (front ++ ".pne") s₀ = .ok t s₀ := by
  obtain ⟨text, hread, hparse, -⟩ := parseFile_eq_ok.mp h
  exact parseFile_eq_ok.mpr ⟨text,
    (hkeeps.read_eq_ok fun q hq => endsWith_of_locate (by decide) hq).mp hread, hparse, rfl⟩

/-- How far a forest has grown: the tree of the main file is there, and all trees have a source. -/
structure Growing (w : Workspace) (s₀ : Session) (main : Tree) (forest : Forest)
    (s : Session) : Prop where
  kept : KeepsFiles (EndsWith · ".pne") s₀ s
  first : "main" ∈ forest.keys
  sources : ∀ key t, forest.find? key = some t → Source w s₀ main key t

theorem Growing.addListed {rule kind dir path : String} {cs : List Tree} {domain : Tree}
    {s1 s2 : Session} (hg : Growing w s₀ main forest s)
    (hkept : KeepsFiles (EndsWith · ".pne") s₀ s') (hrule : rule ∈ Language.fileRules)
    (hkind : kind ∈ ["include_user_domain", "include_sys_domain"]) (hline : main.Includes kind cs)
    (hdomain : parseDomain path s1 = .ok domain s2)
    (h : Forest.addListed rule dir forest domain s2 = .ok forest' s') :
    Growing w s₀ main forest' s' ∧ ∀ key ∈ forest.keys, key ∈ forest'.keys := by
  obtain ⟨hfound, hkeys⟩ := addListed_eq_ok hrule h
  refine ⟨⟨hkept, hkeys _ hg.first, fun key t ht => ?_⟩, hkeys⟩
  rcases hfound key t ht with ht | hlists
  · exact hg.sources key t ht
  · exact .listed ⟨kind, hkind, cs, path, domain, s1, s2, hline, hdomain, hlists⟩

/-- The file of an include line is in the forest, if the line names a file of the user. -/
def Added (line : Tree) (forest : Forest) : Prop :=
  ∀ names : List String, line = .node "include_user_file" (names.map .leaf) →
    joined names ∈ forest.keys

theorem Growing.addInclude {t : Tree} (hg : Growing w s₀ main forest s)
    (hline : ∀ rule cs, t = .node rule cs → main.Includes rule cs)
    (h : Forest.addInclude w forest t s = .ok forest' s') :
    Growing w s₀ main forest' s' ∧ Added t forest' ∧ ∀ key ∈ forest.keys, key ∈ forest'.keys := by
  have hkept : KeepsFiles (EndsWith · ".pne") s₀ s' :=
    hg.kept.trans (Runner.addInclude_leaves (by decide) w s forest t s forest' s' rfl rfl h)
  obtain ⟨rule, hrule, hadd⟩ := bind_shape_eq_ok.mp h
  obtain ⟨cs, rfl⟩ := Tree.eq_node_of_rule? hrule
  split at hadd
  · next hfile =>
    subst hfile
    obtain ⟨ns, hnames, hinsert⟩ := bind_shape_eq_ok.mp hadd
    obtain ⟨_, heq⟩ := names_eq_ok hnames
    cases heq
    obtain ⟨tree, hparse, rfl⟩ := bind_pure_eq_ok.mp hinsert
    have hkeys := mem_keys_insert forest (joined ns)
    refine ⟨⟨hkept, (hkeys _ _).mpr (.inl hg.first), fun key t ht => ?_⟩, fun names heq => ?_,
      fun key hkey => (hkeys key tree).mpr (.inl hkey)⟩
    · rw [find?_insert] at ht
      split at ht
      · next hkey =>
        cases ht
        exact hkey ▸ .included (hline _ _ rfl) (parseFile_of_keeps hg.kept hparse)
      · exact hg.sources key t ht
    · injection heq with _ hcs
      obtain rfl : ns = names := List.map_injective_iff.mpr (fun _ _ => Tree.leaf.inj) hcs
      exact (hkeys _ _).mpr (.inr rfl)
  · next hfile =>
    have hnone : Added (.node rule cs) forest' :=
      fun names heq => absurd (Tree.node.inj heq).1 hfile
    split at hadd
    · next huser =>
      obtain ⟨parts, -, hdomain⟩ := bind_shape_eq_ok.mp hadd
      obtain ⟨domain, s3, hparse, hlist⟩ := bind_eq_ok.mp hdomain
      obtain ⟨hg', hkeys⟩ := hg.addListed hkept (by decide) (by simp [huser])
        (hline rule cs rfl) hparse hlist
      exact ⟨hg', hnone, hkeys⟩
    · split at hadd
      · next hsys =>
        obtain ⟨parts, -, hdomain⟩ := bind_shape_eq_ok.mp hadd
        obtain ⟨domain, s3, hparse, hlist⟩ := bind_eq_ok.mp hdomain
        obtain ⟨hg', hkeys⟩ := hg.addListed hkept (by decide) (by simp [hsys])
          (hline rule cs rfl) hparse hlist
        exact ⟨hg', hnone, hkeys⟩
      · obtain ⟨rfl, rfl⟩ := pure_eq_ok.mp hadd
        exact ⟨⟨hkept, hg.first, hg.sources⟩, hnone, fun key hkey => hkey⟩

theorem Growing.addLines {lines : List Tree} (hg : Growing w s₀ main forest s)
    (hlines : ∀ rule cs, .node rule cs ∈ lines → main.Includes rule cs)
    (h : lines.foldlM (Forest.addInclude w) forest s = .ok forest' s') :
    Growing w s₀ main forest' s' ∧ (∀ t ∈ lines, Added t forest') ∧
      ∀ key ∈ forest.keys, key ∈ forest'.keys := by
  have hpass : ∀ t ∈ lines, ∀ f s1 f' s2, (Growing w s₀ main f s1 ∧
      ∀ key ∈ forest.keys, key ∈ f.keys) →
      Forest.addInclude w f t s1 = .ok f' s2 →
        (Growing w s₀ main f' s2 ∧ ∀ key ∈ forest.keys, key ∈ f'.keys) ∧ Added t f' ∧
        ∀ t', Added t' f → Added t' f' := by
    intro t ht f s1 f' s2 hf hadd
    obtain ⟨hf', hadded, hkeys⟩ :=
      hf.1.addInclude (fun rule cs heq => hlines rule cs (heq ▸ ht)) hadd
    exact ⟨⟨hf', fun key hkey => hkeys key (hf.2 key hkey)⟩, hadded,
      fun _ hq names heq => hkeys _ (hq names heq)⟩
  obtain ⟨⟨hg', hkeys⟩, hadded, -⟩ := foldlM_covers _ Added lines hpass ⟨hg, fun _ hkey => hkey⟩ h
  exact ⟨hg', hadded, hkeys⟩

def addPart (w : Workspace) (forest : Forest) (part : Tree) : Run Forest := do
  if (← part.rule?) = "include" then (← part.children?).foldlM (Forest.addInclude w) forest else
    pure forest

theorem grow_eq (w : Workspace) (mainFile : String) : grow w mainFile = (do
    Report.say "parser_tree..."
    log w "parser_tree...\n"
    let main ← parseFile (w.componentFile ("main//" ++ mainFile))
    (← main.children?).foldlM (addPart w) (OrderedMap.empty.insert "main" main)) :=
  rfl

/-- The files of the include lines in a part of the main file are in the forest. -/
def PartAdded (part : Tree) (forest : Forest) : Prop :=
  ∀ lines, part = .node "include" lines → ∀ t ∈ lines, Added t forest

theorem Growing.addPart {r : String} {parts : List Tree} {part : Tree} (hpart : part ∈ parts)
    (hg : Growing w s₀ (.node r parts) forest s)
    (h : Forest.addPart w forest part s = .ok forest' s') :
    Growing w s₀ (.node r parts) forest' s' ∧ PartAdded part forest' ∧
      ∀ part', PartAdded part' forest → PartAdded part' forest' := by
  obtain ⟨kind, hkind, hbody⟩ := bind_shape_eq_ok.mp h
  obtain ⟨lines, rfl⟩ := Tree.eq_node_of_rule? hkind
  split at hbody
  · next hinclude =>
    subst hinclude
    obtain ⟨lines', heq, hlines⟩ := bind_shape_eq_ok.mp hbody
    cases heq
    obtain ⟨hg', hadded, hkeys⟩ :=
      hg.addLines (fun rule cs hmem => ⟨r, parts, lines, rfl, hpart, hmem⟩) hlines
    refine ⟨hg', fun lines' heq => ?_,
      fun _ hdone lines' heq t ht names hnames => hkeys _ (hdone lines' heq t ht names hnames)⟩
    cases heq
    exact hadded
  · next hother =>
    obtain ⟨rfl, rfl⟩ := pure_eq_ok.mp hbody
    exact ⟨hg, fun lines' heq => absurd (Tree.node.inj heq).1 hother, fun _ hdone => hdone⟩

/-- **What a forest has grown to**: the tree of the main file is there, and the trees of the files
that it includes. -/
theorem exists_growing_of_grow {mainFile : String} (h : grow w mainFile s = .ok forest s') :
    ∃ s1 main, KeepsFiles (fun q => s.disk.locate s.home w.logFile ≠ .ok q) s s1 ∧
      parseFile (w.componentFile ("main//" ++ mainFile)) s1 = .ok main s1 ∧
        Growing w s main forest s' ∧
        ∀ names, main.IncludesFile names → joined names ∈ forest.keys := by
  rw [grow_eq] at h
  obtain ⟨_, s1, hsay, h1⟩ := bind_eq_ok.mp h
  obtain ⟨c, -, rfl⟩ := Run.report_eq_ok.mp hsay
  obtain ⟨_, s2, hlog, h2⟩ := bind_eq_ok.mp h1
  obtain ⟨main, s3, hparse, h3⟩ := bind_eq_ok.mp h2
  obtain ⟨-, -, -, rfl⟩ := parseFile_eq_ok.mp hparse
  obtain ⟨parts, hparts, hloop⟩ := bind_shape_eq_ok.mp h3
  obtain ⟨r, rfl⟩ := Tree.eq_node_of_children? hparts
  have hlogged : KeepsFiles (fun q => s.disk.locate s.home w.logFile ≠ .ok q)
      { s with console := c } s2 :=
    Run.Leaves.append (fun p hp hne => hne hp) _ _ _ _ rfl rfl hlog
  have hprograms : KeepsFiles (EndsWith · ".pne") { s with console := c } s2 :=
    Runner.log_leaves (by decide) w _ _ _ _ _ rfl rfl hlog
  have hbegin : Growing w s (.node r parts)
      (OrderedMap.empty.insert "main" (.node r parts)) s2 := by
    refine ⟨⟨hprograms.home, hprograms.directories, hprograms.files⟩,
      (mem_keys_insert _ _ _ _).mpr (.inr rfl), ?_⟩
    intro key t ht
    rw [find?_insert] at ht
    split at ht
    · next hkey =>
      cases ht
      exact hkey ▸ .main
    · cases ht
  obtain ⟨hg, hdone, -⟩ := foldlM_covers _ PartAdded parts
    (fun part hpart _ _ _ _ hf hadd => hf.addPart hpart hadd) hbegin hloop
  refine ⟨s2, .node r parts, ⟨hlogged.home, hlogged.directories, hlogged.files⟩, hparse, hg,
    fun names hnames => ?_⟩
  obtain ⟨_, _, lines, heq, hlines, hline⟩ := hnames
  cases heq
  exact hdone _ hlines lines rfl _ hline names rfl

/-! ### Files that are reached -/

theorem shape_includesFile {path : String} {t : Tree} {names : List String}
    (ht : parseFile path s = .ok t s') (h : t.IncludesFile names) :
    names ≠ [] ∧ ∀ n ∈ names, '/' ∉ n.toList := by
  obtain ⟨text, -, hparse, -⟩ := parseFile_eq_ok.mp ht
  obtain ⟨r, parts, lines, rfl, hlines, hline⟩ := h
  have hstart := Language.derives_of_parse hparse
  obtain ⟨_, -, heq⟩ := Language.children_of_derives hstart rfl
  cases heq
  obtain ⟨hne, hnames⟩ := Language.shape_include_file (by decide)
    (Language.derives_of_mem (Language.derives_of_mem hstart hlines) hline)
  exact ⟨fun h => hne (by rw [h]; rfl), fun n hn => hnames n (List.mem_map_of_mem hn)⟩

theorem Listed.not_slash {name : String} (h : Listed main name) : '/' ∉ name.toList := by
  obtain ⟨_, _, _, path, domain, s, s', _, hdomain, rule, hrule, r, kind, lines, rest, cs,
    rfl, hline⟩ := h
  obtain ⟨_, s1, -, hdomain⟩ := bind_eq_ok.mp hdomain
  obtain ⟨t, s2, hparse, hdomain⟩ := bind_eq_ok.mp hdomain
  obtain ⟨_, -, rfl⟩ := bind_pure_eq_ok.mp hdomain
  obtain ⟨text, -, hparse, -⟩ := parseFile_eq_ok.mp hparse
  have hstart := Language.derives_of_parse hparse
  obtain ⟨_, -, heq⟩ := Language.children_of_derives hstart rfl
  cases heq
  exact (Language.shape_include_file hrule
    (Language.derives_of_mem (Language.derives_of_mem hstart List.mem_cons_self) hline)).2
    name List.mem_cons_self

theorem Source.of_joined {names : List String} {t : Tree} (hne : names ≠ [])
    (hslash : ∀ n ∈ names, '/' ∉ n.toList) {path : String} {s1 : Session}
    (hmain : parseFile path s1 = .ok main s1) (h : Source w s main (joined names) t) :
    main.IncludesFile names ∧ parseFile (w.project ++ joined names ++ ".pne") s = .ok t s := by
  generalize hkey : joined names = key at h
  cases h with
  | main => exact absurd (slash_mem_joined hne) (by rw [hkey]; decide)
  | listed hlisted => exact absurd (hkey ▸ slash_mem_joined hne) hlisted.not_slash
  | @included names' _ hincludes hparse =>
    obtain rfl := joined_inj hslash (shape_includesFile hmain hincludes).2 hkey
    exact ⟨hincludes, hparse⟩

/-- The file includes another one of the user, directly or through files that it includes. -/
inductive Reaches (w : Workspace) (s : Session) : Tree → List String → Prop
  | direct {t : Tree} {names : List String} : t.IncludesFile names → Reaches w s t names
  | through {t t' : Tree} {names names' : List String} : t.IncludesFile names →
    parseFile (w.project ++ joined names ++ ".pne") s = .ok t' s → Reaches w s t' names' →
      Reaches w s t names'

theorem Reaches.shape {t : Tree} {names : List String} (h : Reaches w s t names) :
    ∀ {path : String} {s1 s2 : Session},
    parseFile path s1 = .ok t s2 → names ≠ [] ∧ ∀ n ∈ names, '/' ∉ n.toList := by
  induction h with
  | direct h => exact fun ht => shape_includesFile ht h
  | through _ ht' _ ih => exact fun _ => ih ht'

/--
**A forest holds the files that the main file includes itself.**  The tree of the main file is there
(unless a domain lists a file of the name `main`), and so is the tree of every file of the user that
the main file includes.  A file that is only reached through other files is not there, and besides
there are only files that domains list.
-/
theorem grow_holds_direct_includes {mainFile : String} (h : grow w mainFile s = .ok forest s') :
    ∃ s₁ main, KeepsFiles (fun q => s.disk.locate s.home w.logFile ≠ .ok q) s s₁ ∧
      parseFile (w.componentFile ("main//" ++ mainFile)) s₁ = .ok main s₁ ∧
      (forest.find? "main" = some main ∨ Listed main "main") ∧
      (∀ names, main.IncludesFile names →
        ∃ t, parseFile (w.project ++ joined names ++ ".pne") s = .ok t s ∧
          forest.find? (joined names) = some t) ∧
      (∀ names, Reaches w s main names → (joined names ∈ forest.keys ↔ main.IncludesFile names)) ∧
      ∀ key ∈ forest.keys, key = "main" ∨ (∃ names, main.IncludesFile names ∧ key = joined names) ∨
        Listed main key := by
  obtain ⟨s₁, main, hlogged, hmain, hg, hincluded⟩ := exists_growing_of_grow h
  refine ⟨s₁, main, hlogged, hmain, ?_, fun names hnames => ?_,
    fun names hreach => ⟨fun hkey => ?_, hincluded names⟩, fun key hkey => ?_⟩
  · obtain ⟨t, ht⟩ := (mem_keys_iff forest "main").mp hg.first
    generalize hname : "main" = name at ht ⊢
    cases hg.sources name t ht with
    | main => exact .inl ht
    | listed hlisted => exact .inr hlisted
    | @included names _ hnames _ =>
      exact absurd (slash_mem_joined (shape_includesFile hmain hnames).1) (by rw [← hname]; decide)
  · obtain ⟨t, ht⟩ := (mem_keys_iff forest _).mp (hincluded names hnames)
    obtain ⟨hne, hslash⟩ := shape_includesFile hmain hnames
    exact ⟨t, ((hg.sources _ t ht).of_joined hne hslash hmain).2, ht⟩
  · obtain ⟨t, ht⟩ := (mem_keys_iff forest _).mp hkey
    obtain ⟨hne, hslash⟩ := hreach.shape hmain
    exact ((hg.sources _ t ht).of_joined hne hslash hmain).1
  · obtain ⟨t, ht⟩ := (mem_keys_iff forest key).mp hkey
    cases hg.sources key t ht with
    | main => exact .inl rfl
    | included hnames _ => exact .inr (.inl ⟨_, hnames, rfl⟩)
    | listed hlisted => exact .inr (.inr hlisted)

def includesFile (t : Tree) (names : List String) : Bool :=
  match t with
  | .leaf _ => false
  | .node _ parts => parts.any fun
    | .leaf _ => false
    | .node kind lines => kind = "include" && lines.any fun line =>
      line.rule?.toOption = some "include_user_file" && (Forest.names line).toOption = some names

theorem includesFile_of_eq_true {t : Tree} {names : List String} (h : includesFile t names = true) :
    t.IncludesFile names := by
  cases t with
  | leaf => cases h
  | node r parts =>
    obtain ⟨part, hpart, h⟩ := List.any_eq_true.mp h
    cases part with
    | leaf => cases h
    | node kind lines =>
      obtain ⟨rfl, h⟩ : kind = "include" ∧ _ := by
        simpa only [Bool.and_eq_true, decide_eq_true_eq] using h
      obtain ⟨line, hline, h⟩ := List.any_eq_true.mp h
      simp only [Bool.and_eq_true, decide_eq_true_eq] at h
      obtain ⟨cs, rfl⟩ := Tree.eq_node_of_rule? (eq_ok_of_toOption h.1)
      obtain ⟨_, heq⟩ := names_eq_ok (eq_ok_of_toOption h.2)
      cases heq
      exact ⟨r, parts, lines, rfl, hpart, hline⟩

/-- A project with two main files: one includes a file that includes another one, the other one
includes a broken domain. -/
def chainSession : Session :=
  .start ⟨[(["c", "component", "main", "m.pne"], "#include>-<a.pne>-<"),
    (["c", "component", "main", "n.pne"], "#include<d.domain>"),
      (["p", "a.pne"], "#include>-<b.pne>-<"), (["p", "b.pne"], ""),
      (["p", "include", "d.domain"], "\"\"")],
    [["p"], ["p", "include"], ["p", "log_out"], ["c"], ["c", "component"],
      ["c", "component", "main"]]⟩ ["p"]

def chainWorkspace : Workspace := ⟨"/p", "/c", "service.json", false, true⟩

theorem chainSession_grown :
    passes (fun forest _ => forest.keys = ["main", "//a"] && (forest.find? "//a").any
      (includesFile · ["b"]))
      (grow chainWorkspace "m.pne" chainSession) = true ∧
    (final (grow chainWorkspace "n.pne" chainSession)).disk.file? ["p", "include", "d.domain"] =
      some ">-<>-<" := by
  decide +kernel

/-- A file that is reached through another one is not in the forest. -/
theorem grow_holds_direct_includes_chain :
    ∃ forest s₁ s' main, grow chainWorkspace "m.pne" chainSession = .ok forest s' ∧
    parseFile (chainWorkspace.componentFile "main//m.pne") s₁ = .ok main s₁ ∧
      main.IncludesFile ["a"] ∧
    joined ["a"] ∈ forest.keys ∧ Reaches chainWorkspace chainSession main ["b"] ∧
      joined ["b"] ∉ forest.keys := by
  obtain ⟨forest, s', hgrow, htest⟩ := exists_ok_of_passes chainSession_grown.1
  simp only [Bool.and_eq_true, decide_eq_true_eq] at htest
  obtain ⟨hkeys, hb⟩ := htest
  obtain ⟨s₁, main, -, hparse, -, hincluded, -, hsources⟩ := grow_holds_direct_includes hgrow
  have ha : main.IncludesFile ["a"] := by
    rcases hsources "//a" (by rw [hkeys]; decide) with h | ⟨names, hnames, h⟩ | h
    · exact absurd h (by decide)
    · rwa [joined_inj (by decide) (shape_includesFile hparse hnames).2
        (show joined ["a"] = joined names from h)]
    · exact absurd h.not_slash (by decide)
  obtain ⟨t, ht, hfound⟩ := hincluded ["a"] ha
  have hb' : t.IncludesFile ["b"] := by
    rw [show "//a" = joined ["a"] from rfl, hfound] at hb
    exact includesFile_of_eq_true hb
  refine ⟨forest, s₁, s', main, hgrow, hparse, ha, ?_, .through ha ht (.direct hb'), ?_⟩
  · rw [hkeys]
    decide
  · rw [hkeys]
    decide

end Forest

end Pathwise
