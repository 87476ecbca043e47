import Pathwise.Proofs.Fragment.Origins
import Pathwise.Proofs.Fragment.Traversal

/-!
# Generation that keeps to its names

All names that belong to an application begin with its stem: the names of its fragments, of its
tables, and of the naming scopes of the modules that it calls.  A step that works for the
application reads and changes only what is filed under names that the stem `Owns`.  So it does the
same in every state that agrees on these (`Agree`), and it leaves everything else alone (`Spares`);
both together are `Confined`.

* `Apart.not_owns`: stems of which neither owns the other one have no name in common.
* `isolating`: all steps of generation are confined.
* `Gen.application_confined`: so is the generation of an application.
-/

namespace Pathwise

open Steps Placement List OrderedMap

/-! ### Names -/

/-- The name is the stem, or goes on behind the stem with an underscore. -/
def Owns (stem name : String) : Prop :=
  name = stem ∨ ∃ rest, name = stem ++ "_" ++ rest

namespace Owns

variable {stem name : String}

theorem self (stem : String) : Owns stem stem :=
  .inl rfl

theorem append (h : Owns stem name) (rest : String) : Owns stem (name ++ "_" ++ rest) := by
  rcases h with rfl | ⟨front, rfl⟩
  · exact .inr ⟨rest, rfl⟩
  · exact .inr ⟨front ++ "_" ++ rest, by simp only [String.append_assoc]⟩

theorem underscore_mem (h : Owns stem name) (hstem : '_' ∈ stem.toList) : '_' ∈ name.toList := by
  rcases h with rfl | ⟨rest, rfl⟩
  · exact hstem
  · rw [String.toList_append, String.toList_append]
    exact mem_append_left _ (mem_append_left _ hstem)

theorem ne_loose (h : Owns stem name) (hstem : '_' ∈ stem.toList) : name ≠ Gen.looseFragment := by
  rintro rfl
  exact absurd (h.underscore_mem hstem) (by decide)

end Owns

theorem owns_iff {stem name : String} : Owns stem name ↔
    stem.toList ++ ['_'] <+: name.toList ++ ['_'] := by
  constructor
  · rintro (rfl | ⟨rest, rfl⟩)
    · exact prefix_rfl
    · have hlist : (stem ++ "_" ++ rest).toList = stem.toList ++ ['_'] ++ rest.toList := by
        rw [String.toList_append, String.toList_append]
        rfl
      rw [hlist, append_assoc _ rest.toList]
      exact prefix_append _ _
  · rintro ⟨tail, htail⟩
    rcases eq_nil_or_concat tail with rfl | ⟨rest, last, rfl⟩
    · rw [append_nil] at htail
      exact .inl (String.toList_injective (append_inj_left' htail rfl)).symm
    · rw [concat_eq_append, ← append_assoc] at htail
      have hname := append_inj_left' htail rfl
      refine .inr ⟨String.ofList rest, String.toList_injective ?_⟩
      have hrest : (stem ++ "_" ++ String.ofList rest).toList = stem.toList ++ ['_'] ++ rest := by
        simp only [String.toList_append, String.toList_ofList]
        rfl
      rw [hrest, hname]

/-- Neither of the stems owns the other one. -/
def Apart (stem stem' : String) : Prop :=
  ¬ Owns stem stem' ∧ ¬ Owns stem' stem

theorem Apart.not_owns {stem stem' name : String} (h : Apart stem stem') (hname : Owns stem name) :
    ¬ Owns stem' name := by
  intro hname'
  rw [owns_iff] at hname hname'
  rcases prefix_or_prefix_of_prefix hname hname' with hfront | hfront
  · exact h.1 (owns_iff.mpr hfront)
  · exact h.2 (owns_iff.mpr hfront)

/-! ### States that agree, states that are spared -/

/-- The states have the same under all names of `own`, as far as generation can tell. -/
structure Agree (own : String → Prop) (g h : Generation) : Prop where
  definitions : h.definitions = g.definitions
  folders : h.folders = g.folders
  loose : h.relation.find? Gen.looseFragment = none
  scopes : ∀ n, own n → (n ∈ h.scopes ↔ n ∈ g.scopes)
  relation : ∀ n, own n → h.relation.find? n = g.relation.find? n
  tableNames : ∀ n, own n → h.tableNames.find? n = g.tableNames.find? n
  actionNames : ∀ n, own n → h.actionNames.find? n = g.actionNames.find? n
  pieces : ∀ k, own k.owner → h.pieces? k = g.pieces? k
  /-- what belongs to no fragment is begun in `h` only if it is begun in `g` -/
  begun : ∀ k, k.owner = Gen.looseFragment → (h.pieces? k).isSome = true →
    (g.pieces? k).isSome = true

/-- Nothing has changed but under names of `own`, and in what belongs to no fragment. -/
structure Spares (own : String → Prop) (g g' : Generation) : Prop where
  definitions : g'.definitions = g.definitions
  folders : g'.folders = g.folders
  scopes : ∀ n, ¬ own n → (n ∈ g'.scopes ↔ n ∈ g.scopes)
  relation : ∀ n, ¬ own n → g'.relation.find? n = g.relation.find? n
  tableNames : ∀ n, ¬ own n → g'.tableNames.find? n = g.tableNames.find? n
  actionNames : ∀ n, ¬ own n → g'.actionNames.find? n = g.actionNames.find? n
  pieces : ∀ k, ¬ own k.owner → k.owner ≠ Gen.looseFragment → g'.pieces? k = g.pieces? k
  /-- texts stay begun -/
  begun : ∀ k, (g.pieces? k).isSome = true → (g'.pieces? k).isSome = true
  /-- no text is begun twice -/
  keys : (g.texts.map (·.1)).Nodup → (g'.texts.map (·.1)).Nodup

namespace Spares

variable {own : String → Prop} {g g' g'' : Generation}

theorem refl (own : String → Prop) (g : Generation) : Spares own g g :=
  ⟨rfl, rfl, fun _ _ => Iff.rfl, fun _ _ => rfl, fun _ _ => rfl, fun _ _ => rfl, fun _ _ _ => rfl,
    fun _ => id, id⟩

theorem trans (h : Spares own g g') (h' : Spares own g' g'') : Spares own g g'' where
  definitions := h'.definitions.trans h.definitions
  folders := h'.folders.trans h.folders
  scopes n hn := (h'.scopes n hn).trans (h.scopes n hn)
  relation n hn := (h'.relation n hn).trans (h.relation n hn)
  tableNames n hn := (h'.tableNames n hn).trans (h.tableNames n hn)
  actionNames n hn := (h'.actionNames n hn).trans (h.actionNames n hn)
  pieces k hk hloose := (h'.pieces k hk hloose).trans (h.pieces k hk hloose)
  begun k hk := h'.begun k (h.begun k hk)
  keys hg := h'.keys (h.keys hg)

theorem mono {own' : String → Prop} (h : Spares own g g') (hown : ∀ n, own n → own' n) :
    Spares own' g g' where
  definitions := h.definitions
  folders := h.folders
  scopes n hn := h.scopes n (mt (hown n) hn)
  relation n hn := h.relation n (mt (hown n) hn)
  tableNames n hn := h.tableNames n (mt (hown n) hn)
  actionNames n hn := h.actionNames n (mt (hown n) hn)
  pieces k hk := h.pieces k (mt (hown _) hk)
  begun := h.begun
  keys := h.keys

end Spares

namespace Agree

variable {own other : String → Prop} {g g' h : Generation}

/-- **Steps for other names make no difference.** -/
theorem of_spares (hagree : Agree own g h) (hspares : Spares other g g')
    (hother : ∀ n, own n → ¬ other n) (hloose : ∀ n, own n → n ≠ Gen.looseFragment) :
    Agree own g' h where
  definitions := hagree.definitions.trans hspares.definitions.symm
  folders := hagree.folders.trans hspares.folders.symm
  loose := hagree.loose
  scopes n hn := (hagree.scopes n hn).trans (hspares.scopes n (hother n hn)).symm
  relation n hn := (hagree.relation n hn).trans (hspares.relation n (hother n hn)).symm
  tableNames n hn := (hagree.tableNames n hn).trans (hspares.tableNames n (hother n hn)).symm
  actionNames n hn := (hagree.actionNames n hn).trans (hspares.actionNames n (hother n hn)).symm
  pieces k hk := (hagree.pieces k hk).trans (hspares.pieces k (hother _ hk) (hloose _ hk)).symm
  begun k hk hbegun := hspares.begun k (hagree.begun k hk hbegun)

end Agree

/-! ### Confined steps -/

/-- The step changes nothing but under names of `own`, and does the same wherever the states agree
on these names. -/
def Confined (own : String → Prop) {α : Type} (x : Gen α) (Q : α → Prop) : Prop :=
  ∀ g a g', g.relation.find? Gen.looseFragment = none → x g = .ok a g' → Q a ∧ Spares own g g' ∧
    ∀ h, Agree own g h → ∃ h', x h = .ok a h' ∧ Agree own g' h'

/-- The texts can be begun, or were. -/
def Generation.Writable (g : Generation) (k : TextKey) : Prop :=
  (g.pieces? k).isSome = true ∨ ∃ p, (⟨[], g.folders⟩ : Disk).locate [] ("./" ++ k.fileName) = .ok p

theorem Generation.any_texts (g : Generation) (k : TextKey) :
    g.texts.any (·.1 = k) = (g.pieces? k).isSome := by
  rw [pieces?, Option.isSome_map, Bool.eq_iff_iff, any_eq_true, find?_isSome]

theorem Generation.pieces?_addPieces (g : Generation) (k k' : TextKey) (ps : List Piece) :
    ({ g with texts := addPieces k ps g.texts } : Generation).pieces? k' =
      if k' = k then some ((g.pieces? k).getD [] ++ ps) else g.pieces? k' := by
  obtain ⟨_, _, _, _, _, _, _, texts⟩ := g
  simp only [pieces?]
  induction texts with
  | nil =>
    by_cases hk : k' = k
    · simp [addPieces, hk]
    · simp [addPieces, hk, Ne.symm hk]
  | cons t ts ih =>
    obtain ⟨k1, qs⟩ := t
    rw [addPieces]
    by_cases hfirst : k1 = k
    · rw [if_pos hfirst]
      subst hfirst
      by_cases hk : k' = k1
      · simp [hk]
      · simp [hk, Ne.symm hk]
    · rw [if_neg hfirst]
      by_cases hk : k1 = k'
      · subst hk
        simp [hfirst]
      · simp [hfirst, hk, ih]

theorem Generation.nodup_addPieces (k : TextKey) (ps : List Piece)
    {texts : List (TextKey × Array Piece)} (h : (texts.map (·.1)).Nodup) :
    ((addPieces k ps texts).map (·.1)).Nodup := by
  have hmem : ∀ texts k', k' ∈ (addPieces k ps texts).map (·.1) → k' = k ∨
      k' ∈ texts.map (·.1) := by
    intro texts
    induction texts with
    | nil => simp [addPieces]
    | cons t ts ih =>
      obtain ⟨k1, qs⟩ := t
      rw [addPieces]
      split
      · exact fun k' hk' => .inr hk'
      · grind
  induction texts with
  | nil => simp [addPieces]
  | cons t ts ih =>
    obtain ⟨k1, qs⟩ := t
    rw [map_cons, nodup_cons] at h
    rw [addPieces]
    split
    · simpa using h
    · next hne =>
      rw [map_cons, nodup_cons]
      refine ⟨fun hk1 => ?_, ih h.2⟩
      exact (hmem ts _ hk1).elim hne h.1

theorem Gen.emit_eq_ok_iff {g g' : Generation} {k : TextKey} {ps : List Piece} {u : Unit} :
    Gen.emit k ps g = .ok u g' ↔ g.Writable k ∧
      g' = { g with texts := Generation.addPieces k ps g.texts } := by
  have hcheck : ∀ {u : Unit} {g' : Generation}, Gen.checkName k g = .ok u g' ↔
      g.Writable k ∧ g' = g := by
    intro u g'
    simp only [Gen.checkName, bind_eq_ok, get_eq_ok, Generation.any_texts, Generation.Writable]
    constructor
    · rintro ⟨_, _, ⟨rfl, rfl⟩, h⟩
      split at h
      · cases hplace : (⟨[], g.folders⟩ : Disk).locate [] ("./" ++ k.fileName) with
        | error e =>
          rw [hplace] at h
          exact absurd h throw_ne_ok
        | ok p =>
          rw [hplace] at h
          exact ⟨.inr ⟨p, rfl⟩, (pure_eq_ok.mp h).2.symm⟩
      · next hbegun =>
          exact ⟨.inl (by simpa [Option.isSome_iff_ne_none] using hbegun), (pure_eq_ok.mp h).2.symm⟩
    · rintro ⟨hwritable, rfl⟩
      refine ⟨g', g', ⟨rfl, rfl⟩, ?_⟩
      split
      · next hbegun =>
        obtain ⟨p, hplace⟩ := hwritable.resolve_left (by simpa using hbegun)
        rw [hplace]
        rfl
      · rfl
  simp only [Gen.emit, bind_eq_ok, hcheck, modify_eq_ok]
  constructor
  · rintro ⟨_, _, ⟨hwritable, rfl⟩, rfl⟩
    exact ⟨hwritable, rfl⟩
  · rintro ⟨hwritable, rfl⟩
    exact ⟨(), g, ⟨hwritable, rfl⟩, rfl⟩

theorem Gen.record_of_eq {name : String} {change : Relation → Relation} {g : Generation}
    {r : Relation} (h : g.relation.find? name = some (.fragment r)) :
    Gen.record name change g = .ok ()
    { g with relation := g.relation.insert name (.fragment (change r)) } := by
  refine bind_eq_ok.mpr ⟨r, g, bind_eq_ok.mpr ⟨g, g, rfl, ?_⟩, rfl⟩
  rw [h]
  rfl

theorem Generation.writable_loose (g : Generation) (kind : TextKind) :
    g.Writable ⟨Gen.looseFragment, kind⟩ := by
  let name : String := (⟨Gen.looseFragment, kind⟩ : TextKey).fileName
  have hpath : ("./" ++ name).isEmpty = false ∧ ("./" ++ name).toList.contains '\x00' = false ∧
      ¬ Disk.maxPath ≤ ("./" ++ name).utf8ByteSize ∧ ("./" ++ name).startsWith "/" = false ∧
      Disk.names ("./" ++ name) = [".", name] := by
    cases kind <;> decide +kernel
  have hname : ¬ Disk.maxName < name.utf8ByteSize := by
    cases kind <;> decide +kernel
  have hdot : ¬ Disk.maxName < ".".utf8ByteSize := by decide +kernel
  have hroot : (⟨[], g.folders⟩ : Disk).isDirectory (Disk.step [] ".") = true := rfl
  obtain ⟨hempty, hnull, hlong, hstart, hnames⟩ := hpath
  refine .inr ⟨Disk.step [] name, ?_⟩
  rw [Disk.locate, hempty, hnull, if_neg hlong, hstart, hnames]
  simp only [Bool.false_eq_true, if_false, Disk.follow, if_neg hdot, if_pos hroot, if_neg hname]
  rfl

theorem Gen.drawName_congr {names names' : OrderedMap String Nat} {name : String}
    (h : names'.find? name = names.find? name) :
    (Gen.drawName names' name).1 = (Gen.drawName names name).1 := by
  unfold Gen.drawName
  rw [h]
  cases names.find? name <;> rfl

namespace Confined

variable {own : String → Prop} {α β : Type}

theorem imp {x : Gen α} {Q Q' : α → Prop} (hx : Confined own x Q) (hQ : ∀ a, Q a → Q' a) :
    Confined own x Q' := by
  intro g a g' hg h
  obtain ⟨ha, hrest⟩ := hx g a g' hg h
  exact ⟨hQ a ha, hrest⟩

theorem pure {a : α} {Q : α → Prop} (ha : Q a) : Confined own (pure a) Q := by
  intro g b g' hg h
  obtain ⟨rfl, rfl⟩ := pure_eq_ok.mp h
  exact ⟨ha, .refl own g, fun h hagree => ⟨h, rfl, hagree⟩⟩

theorem bind (hloose : ¬ own Gen.looseFragment) {x : Gen α} {k : α → Gen β} {Q : α → Prop}
    {R : β → Prop} (hx : Confined own x Q) (hk : ∀ a, Q a → Confined own (k a) R) :
    Confined own (x >>= k) R := by
  intro g b g' hg h
  obtain ⟨a, g1, h1, h2⟩ := bind_eq_ok.mp h
  obtain ⟨ha, hspares1, hsame1⟩ := hx g a g1 hg h1
  have hg1 : g1.relation.find? Gen.looseFragment = none := by rw [hspares1.relation _ hloose, hg]
  obtain ⟨hb, hspares2, hsame2⟩ := hk a ha g1 b g' hg1 h2
  refine ⟨hb, hspares1.trans hspares2, fun h hagree => ?_⟩
  obtain ⟨h1', hx', hagree1⟩ := hsame1 h hagree
  obtain ⟨h2', hk', hagree2⟩ := hsame2 h1' hagree1
  exact ⟨h2', bind_eq_ok.mpr ⟨a, h1', hx', hk'⟩, hagree2⟩

theorem refused {x : Gen α} {Q : α → Prop} (hx : ∀ g a g', x g ≠ .ok a g') : Confined own x Q :=
  fun g a g' _ h => absurd h (hx g a g')

theorem onlyReports {x : Gen α} (hx : Gen.OnlyReports x) : Confined own x fun _ => True := by
  intro g a g' hg h
  obtain ⟨said, rfl, hx⟩ := hx.eq_ok h
  exact ⟨trivial, { Spares.refl own g with }, fun h hagree => ⟨_, hx h, { hagree with }⟩⟩

theorem typeOf (type : String) : Confined own (Gen.typeOf type) fun _ => True := by
  intro g a g' hg h
  simp only [Gen.typeOf, bind_eq_ok, get_eq_ok, pure_eq_ok] at h
  obtain ⟨_, _, ⟨rfl, rfl⟩, rfl, rfl⟩ := h
  refine ⟨trivial, .refl own g, fun h hagree => ⟨h, ?_, hagree⟩⟩
  simp only [Gen.typeOf, bind_eq_ok, get_eq_ok, pure_eq_ok]
  exact ⟨h, h, ⟨rfl, rfl⟩, by rw [hagree.definitions], rfl⟩

theorem drawTable (happend : ∀ {n} rest, own n → own (n ++ "_" ++ rest)) {name : String}
    (hname : own name) :
    Confined own (Gen.drawTable name) own := by
  intro g table g' hg h
  obtain ⟨rfl, rfl⟩ := Gen.eq_of_drawTable h
  have hother : ∀ n, ¬ own n → n ≠ name := by
    rintro n hn rfl
    exact hn hname
  refine ⟨?_, { Spares.refl own g with tableNames := fun n hn => ?_ },
    fun h hagree => ?_⟩
  · unfold Gen.drawName
    split
    · exact hname
    · exact happend _ hname
  · rw [Gen.find?_drawName, if_neg (hother n hn)]
  · refine ⟨{ h with tableNames := (Gen.drawName h.tableNames name).2 }, ?_,
      { hagree with tableNames := fun n hn => ?_ }⟩
    · rw [← Gen.drawName_congr (hagree.tableNames name hname)]
      rfl
    · rw [Gen.find?_drawName, Gen.find?_drawName, hagree.tableNames name hname,
        hagree.tableNames n hn]

theorem drawAction (happend : ∀ {n} rest, own n → own (n ++ "_" ++ rest)) {table : String}
    (htable : own table) :
    Confined own (Gen.drawAction table) fun _ => True := by
  intro g action g' hg h
  obtain ⟨rfl, rfl⟩ := Gen.eq_of_drawAction h
  have hkey : own (table ++ "_action") := by
    have hkey := happend "action" htable
    rwa [String.append_assoc] at hkey
  have hother : ∀ n, ¬ own n → n ≠ table ++ "_action" := by
    rintro n hn rfl
    exact hn hkey
  refine ⟨trivial, { Spares.refl own g with actionNames := fun n hn => ?_ },
    fun h hagree => ?_⟩
  · rw [Gen.find?_drawName, if_neg (hother n hn)]
  · refine ⟨{ h with actionNames := (Gen.drawName h.actionNames (table ++ "_action")).2 }, ?_,
      { hagree with actionNames := fun n hn => ?_ }⟩
    · rw [← Gen.drawName_congr (hagree.actionNames _ hkey)]
      rfl
    · rw [Gen.find?_drawName, Gen.find?_drawName, hagree.actionNames _ hkey,
        hagree.actionNames n hn]

theorem record (hloose : ¬ own Gen.looseFragment) {f : String} (hf : own f ∨ f = Gen.looseFragment)
    {change : Relation → Relation} : Confined own (Gen.record f change) fun _ => True := by
  intro g u g' hg h
  obtain ⟨r, hr, rfl⟩ := Gen.record_eq_ok h
  have hf : own f := by
    refine hf.resolve_right ?_
    rintro rfl
    rw [hg] at hr
    cases hr
  have hother : ∀ n, ¬ own n → n ≠ f := by
    rintro n hn rfl
    exact hn hf
  refine ⟨trivial, { Spares.refl own g with relation := fun n hn => ?_ },
    fun h hagree => ⟨_, Gen.record_of_eq ((hagree.relation f hf).trans hr), { hagree with
      loose := ?_
      relation := fun n hn => ?_ }⟩⟩
  · exact find?_insert_of_ne _ (hother n hn) _
  · rw [find?_insert_of_ne _ (hother _ hloose), hagree.loose]
  · rw [find?_insert, find?_insert, hagree.relation n hn]

theorem emit {k : TextKey} (hk : own k.owner ∨ k.owner = Gen.looseFragment)
    {ps : List Piece} : Confined own (Gen.emit k ps) fun _ => True := by
  intro g u g' hg h
  obtain ⟨hwritable, rfl⟩ := Gen.emit_eq_ok_iff.mp h
  refine ⟨trivial, { Spares.refl own g with
      pieces := fun k' hk' hl => ?_
      begun := fun k' hk' => ?_
      keys := Generation.nodup_addPieces _ _ },
    fun h hagree => ⟨_, Gen.emit_eq_ok_iff.mpr ⟨?_, rfl⟩, { hagree with
      pieces := fun k' hk' => ?_
      begun := fun k' hk' => ?_ }⟩⟩
  · rw [Generation.pieces?_addPieces, if_neg]
    rintro rfl
    exact hk.elim hk' hl
  · rw [Generation.pieces?_addPieces]
    split
    · rfl
    · exact hk'
  · rcases hk with hk | hk
    · unfold Generation.Writable
      rw [hagree.pieces k hk, hagree.folders]
      exact hwritable
    · obtain ⟨owner, kind⟩ := k
      subst hk
      exact Generation.writable_loose _ kind
  · rw [Generation.pieces?_addPieces, Generation.pieces?_addPieces, hagree.pieces k' hk']
    split
    · next hkk =>
      subst hkk
      rw [hagree.pieces k' hk']
    · rfl
  · rw [Generation.pieces?_addPieces, Generation.pieces?_addPieces]
    split
    · exact id
    · exact hagree.begun k' hk'

theorem change {change : Generation → Generation} (hspares : ∀ g, Spares own g (change g))
    (hagree : ∀ g h, Agree own g h → Agree own (change g) (change h)) :
    Confined own (modify change : Gen Unit) fun _ => True := by
  intro g u g' hg h
  obtain rfl := modify_eq_ok.mp h
  exact ⟨trivial, hspares g, fun h hgh => ⟨change h, rfl, hagree g h hgh⟩⟩

theorem choose {test : Generation → Bool} (htest : ∀ g h, Agree own g h → test h = test g)
    {x y : Gen α} {Q : α → Prop} (hx : Confined own x Q) (hy : Confined own y Q) :
    Confined own (do if test (← get) then x else y) Q := by
  have hget : ∀ g, (do if test (← get) then x else y : Gen α) g = if test g then x g else y g := by
    intro g
    show (if test g then x else y) g = _
    split <;> rfl
  intro g a g' hg h
  rw [hget] at h
  split at h
  · next hyes =>
    obtain ⟨ha, hspares, hsame⟩ := hx g a g' hg h
    refine ⟨ha, hspares, fun h hagree => ?_⟩
    rw [hget, if_pos ((htest g h hagree).trans hyes)]
    exact hsame h hagree
  · next hno =>
    obtain ⟨ha, hspares, hsame⟩ := hy g a g' hg h
    refine ⟨ha, hspares, fun h hagree => ?_⟩
    rw [hget, if_neg ((htest g h hagree).symm ▸ hno)]
    exact hsame h hagree

theorem declareVars (hloose : ¬ own Gen.looseFragment) {stem : String} (hstem : own stem)
    (vars bound : OrderedMap String String) :
    Confined own (Emit.declareVars vars bound stem) fun _ => True := by
  have hother : ∀ n, ¬ own n → n ≠ stem := by
    rintro n hn rfl
    exact hn hstem
  have hopen : Confined own (modify fun s => { s with scopes := s.scopes ++ [stem] } : Gen Unit)
      fun _ => True := by
    refine change (fun g => { Spares.refl own g with scopes := fun n hn => ?_ })
      fun g h hagree => { hagree with scopes := fun n hn => ?_ }
    · simp [hother n hn]
    · simp [hagree.scopes n hn]
  have htypes : Confined own (Emit.resolveTypes vars) fun _ => True := by
    intro g a g' hg h
    simp only [Emit.resolveTypes, bind_eq_ok, get_eq_ok, pure_eq_ok] at h
    obtain ⟨_, _, ⟨rfl, rfl⟩, rfl, rfl⟩ := h
    refine ⟨trivial, .refl own g, fun h hagree => ⟨h, ?_, hagree⟩⟩
    simp only [Emit.resolveTypes, bind_eq_ok, get_eq_ok, pure_eq_ok]
    exact ⟨h, h, ⟨rfl, rfl⟩, by rw [hagree.definitions], rfl⟩
  refine choose (fun g h hagree => ?_) (.pure trivial) ?_
  · rw [Bool.eq_iff_iff, contains_iff_mem, contains_iff_mem]
    exact hagree.scopes stem hstem
  · refine bind hloose hopen fun _ _ => bind hloose htypes fun _ _ => ?_
    exact bind hloose (emit (.inl hstem)) fun _ _ => .pure trivial

end Confined

/-! ### Applications are confined -/

section

variable {stem : String} (hstem : '_' ∈ stem.toList)

/-- **Steps keep to the names of a stem**, if they work for a fragment of the stem, or for none. -/
def isolating (modules : OrderedMap String Module) {f : String}
    (hf : Owns stem f ∨ f = Gen.looseFragment) :
    Judgement modules f :=
  have hloose : ¬ Owns stem Gen.looseFragment := fun h => h.ne_loose hstem rfl
  have happend : ∀ {n : String} (rest : String), Owns stem n → Owns stem (n ++ "_" ++ rest) :=
    fun rest h => h.append rest
  { holds := fun H x Q => H → Confined (Owns stem) x Q
    isScope := Owns stem
    allowed := Owns stem
    used := fun _ => True
    isScope_append := fun _ => happend _
    allowed_append := happend
    used_of_not_isStored := fun _ => trivial
    imp := fun hx hH hQ hH' => (hx (hH hH')).imp fun a => hQ a hH'
    pure := fun ha hH => .pure (ha hH)
    bind := fun hx hk hH => .bind hloose (hx hH) fun a ha => hk a ⟨hH, ha⟩
    stopped := fun hx _ => .refused hx.ne_ok
    onlyReports := fun hx _ => .onlyReports hx
    typeOf := fun type _ => .typeOf type
    drawTable := fun hname _ => .drawTable happend hname
    drawAction := fun htable hH => .drawAction happend (htable hH)
    recordInput := fun _ _ => .record hloose hf
    recordOutput := fun _ _ => .record hloose hf
    recordTable := fun _ => .record hloose hf
    recordModule := fun _ _ => .record hloose hf
    recordScope := fun _ _ => .record hloose hf
    emitBefore := fun _ hrest _ hH => .bind hloose (.emit hf) fun _ _ => hrest hH
    emitEntries := fun _ _ _ => .emit hf
    emitVars := fun hscope _ => .emit (.inl hscope)
    declareVars := fun hscope _ => .declareVars hloose hscope _ _
    compress := fun _ _ => by
      have hwrite : ∀ {kind : TextKind} {ps : List Piece}, Confined (Owns stem)
          (Gen.emit ⟨f, kind⟩ ps) fun _ => True :=
        Confined.emit hf
      refine .bind hloose hwrite fun _ _ =>
        .bind hloose (.onlyReports (.report (firstOf_blind _))) fun _ _ => ?_
      refine .bind (Q := fun _ => True) hloose ?_ fun _ _ => hwrite
      exact .bind hloose (.onlyReports (.report (Scope.resolve_blind _ _))) fun _ _ =>
        .bind hloose hwrite fun _ _ => .pure trivial
    copy := fun _ _ _ => .emit hf }

include hstem

theorem Emit.beginFragment_confined (n : Nat) :
    Confined (Owns stem) (beginFragment stem n) fun f => f = fragmentName stem n := by
  have hloose : ¬ Owns stem Gen.looseFragment := fun h => h.ne_loose hstem rfl
  have hfragment : Owns stem (fragmentName stem n) := (Owns.self stem).append _
  have hother : ∀ k, ¬ Owns stem k → k ≠ stem ∧ k ≠ fragmentName stem n := by
    intro k hk
    exact ⟨fun h => hk (h ▸ .self stem), fun h => hk (h ▸ hfragment)⟩
  have hentries : ∀ r, Confined (Owns stem) (modify fun s => { s with
      relation := (s.relation.insert stem (.last n)).insert (fragmentName stem n) (.fragment r) } :
        Gen Unit) fun _ => True := by
    refine fun r => .change (fun g => { Spares.refl _ g with relation := fun k hk => ?_ })
      fun g h hagree => { hagree with loose := ?_, relation := fun k hk => ?_ }
    · rw [find?_insert_of_ne _ (hother k hk).2, find?_insert_of_ne _ (hother k hk).1]
    · rw [find?_insert_of_ne _ (hother _ hloose).2, find?_insert_of_ne _ (hother _ hloose).1,
        hagree.loose]
    · simp only [find?_insert, hagree.relation k hk]
  have hopen : ∀ kinds : List TextKind, Confined (Owns stem)
      (forIn kinds PUnit.unit (fun kind _ => do
      Gen.emit ⟨fragmentName stem n, kind⟩ []
      pure (.yield PUnit.unit)) : Gen PUnit) fun _ => ∀ _ ∈ kinds, True := fun kinds =>
    (isolating hstem {} (.inr rfl)).forIn kinds (H := True) (fun _ _ _ _ _ =>
      .bind hloose (.emit (.inl hfragment)) fun _ _ => .pure ⟨rfl, trivial⟩) trivial
  exact .bind hloose (hentries _) fun _ _ => .bind hloose (hopen _) fun _ _ => .pure rfl

theorem Emit.block_confined (depth : Nat) {sc : Scope} (hsc : sc.stem = stem) {level : Nat}
    {inAction : Bool} (is : List Ins) (n a : Nat) :
    Confined (Owns stem) (block (Gen.runJob depth) sc ⟨Gen.looseFragment, level, inAction⟩
      ⟨true, n, a⟩ is) fun _ => True := by
  have hstemOwned : Owns stem sc.stem := hsc ▸ .self stem
  -- an assertion is written beside the fragments
  let L : Judgement sc.modules Gen.looseFragment := isolating hstem sc.modules (.inr rfl)
  refine L.topBlock depth ⟨rfl, hstemOwned⟩ level inAction (Owns stem) (fun n H _ => ?_)
    (fun f a i H hf hH => ?_) is n a True trivial
  · rw [hsc]
    exact (beginFragment_confined hstem n).imp fun f hf => hf ▸ (Owns.self stem).append _
  · exact (isolating hstem sc.modules (.inl (hf hH))).instructionAt depth ⟨rfl, hstemOwned⟩ _ _ i hH

theorem Gen.application_confined (modules : OrderedMap String Module) (a : Application) :
    Confined (Owns stem) (Gen.application modules stem a) fun _ => True := by
  have hloose : ¬ Owns stem Gen.looseFragment := fun h => h.ne_loose hstem rfl
  refine .bind hloose (.declareVars hloose (.self stem) _ _) fun vars _ => ?_
  exact Emit.block_confined hstem _ rfl a.body 0 0

end

end Pathwise
