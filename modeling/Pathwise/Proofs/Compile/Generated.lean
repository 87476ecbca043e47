import Pathwise.Compile.Runner
import Pathwise.Proofs.Fragment.Visits
import Pathwise.Proofs.Project.Grown

/-!
# Generated texts on the disk

The programs of all users are generated one after another, and the texts of each generation are
added to the files of intermediate results (`Runner.draft_eq_ok_iff`, `Run.appendAll_eq_ok`).
Between two generations only other files are written, so a compilation of users is a chain of
generations (`Runner.Compiled`, `Runner.compileUsers_compiled`).  As long as no name has a slash,
every text has a file of its own, which holds what the generations wrote to it, in order
(`Runner.Compiled.file`).  What holds of single steps and of steps one after another is
`Runner.Closed`.
-/

namespace Pathwise

open Steps List OrderedMap

variable {s : Session} {path ending text : String} {q : Place} {k : TextKey} {w : Workspace}
  {g g' : Generation}
  {u : Unit} {stage : Stage}

/-! ### Adding to files -/

/-- The file that comes from adding texts one after another. -/
def extended (old : Option String) (texts : List String) : Option String :=
  texts.foldl (fun o t => some (o.getD "" ++ t)) old

def Session.place? (s : Session) (path : String) : Option Place :=
  (s.disk.locate s.home path).toOption

theorem Session.place?_eq_some :
    s.place? path = some q ↔ s.disk.locate s.home path = .ok q := by
  refine ⟨eq_ok_of_toOption, fun h => ?_⟩
  rw [place?, h]
  rfl

/-- The path leads to a place where a file can be. -/
def Session.Writable (s : Session) (path : String) : Prop :=
  ∃ p, s.disk.locate s.home path = .ok p ∧ s.disk.isDirectory p = false

namespace Run

variable {s s' : Session}

def textsAt (s : Session) (path : String → String) (files : List (String × String)) (q : Place) :
    List String :=
  (files.filter fun f => s.place? (path f.1) = some q).map (·.2)

/-- **Texts are added to the files at their places**, and nothing else is changed. -/
theorem appendAll_eq_ok {path : String → String} (files : List (String × String)) :
    ∀ {s s' : Session} {u : PUnit},
    files.forM (fun f => append (path f.1) f.2) s = .ok u s' →
      (∀ f ∈ files, s.Writable (path f.1)) ∧ s'.home = s.home ∧
        s'.disk.directories = s.disk.directories ∧
      ∀ q, s'.disk.file? q = extended (s.disk.file? q) (textsAt s path files q) := by
  induction files with
  | nil =>
    intro s s' u h
    obtain rfl := forM_nil_eq_ok.mp h
    exact ⟨forall_mem_nil _, rfl, rfl, fun _ => rfl⟩
  | cons f files ih =>
    intro s s' u h
    obtain ⟨s1, h1, h2⟩ := forM_cons_eq_ok.mp h
    obtain ⟨p, hplace, hfile, rfl⟩ := append_eq_ok_iff.mp h1
    obtain ⟨hwritable, hhome, hdirs, hfiles⟩ := ih h2
    have hdirectories : (s.disk.extend p f.2).directories = s.disk.directories := by
      rw [Disk.extend_eq_put]
      rfl
    have hlocate : ∀ path' q, (s.disk.extend p f.2).locate s.home path' = .ok q ↔
        s.disk.locate s.home path' = .ok q :=
      fun path' q => ⟨Disk.locate_congr hdirectories.symm, Disk.locate_congr hdirectories⟩
    refine ⟨forall_mem_cons.mpr ⟨⟨p, hplace, hfile⟩, fun f' hf' => ?_⟩, hhome,
      hdirs.trans hdirectories, fun q => ?_⟩
    · obtain ⟨p', hplace', hfile'⟩ := hwritable f' hf'
      refine ⟨p', (hlocate _ _).mp hplace', ?_⟩
      rw [Disk.isDirectory] at hfile' ⊢
      rwa [← hdirectories]
    · have htexts : ∀ fs, textsAt { s with disk := s.disk.extend p f.2 } path fs q =
          textsAt s path fs q := by
        intro fs
        refine congrArg (List.map _) (filter_congr fun f' _ => decide_eq_decide.mpr ?_)
        rw [Session.place?_eq_some, Session.place?_eq_some]
        exact hlocate _ _
      rw [hfiles q, htexts, Disk.extend_eq_put, Disk.file?_put, textsAt, textsAt]
      have hfirst := Session.place?_eq_some.mpr hplace
      by_cases hq : q = p
      · subst hq
        rw [if_pos rfl, filter_cons_of_pos (by simp [hfirst])]
        rfl
      · rw [if_neg hq, filter_cons_of_neg (by simp [hfirst, Ne.symm hq])]

theorem exists_appendAll (path : String → String) (files : List (String × String)) :
    ∀ {s : Session},
    (∀ f ∈ files, s.Writable (path f.1)) →
      ∃ s', files.forM (fun f => append (path f.1) f.2) s = .ok ⟨⟩ s' := by
  induction files with
  | nil => exact fun {s} _ => ⟨s, rfl⟩
  | cons f files ih =>
    intro s h
    obtain ⟨⟨p, hplace, hfile⟩, hrest⟩ := forall_mem_cons.mp h
    have hdirectories : (s.disk.extend p f.2).directories = s.disk.directories := by
      rw [Disk.extend_eq_put]
      rfl
    obtain ⟨s', hs'⟩ := ih (s := { s with disk := s.disk.extend p f.2 }) fun f' hf' => by
      obtain ⟨p', hplace', hfile'⟩ := hrest f' hf'
      refine ⟨p', Disk.locate_congr hdirectories hplace', ?_⟩
      rw [Disk.isDirectory] at hfile' ⊢
      rwa [hdirectories]
    exact ⟨s', forM_cons_eq_ok.mpr ⟨_, append_eq_ok_iff.mpr ⟨p, hplace, hfile, rfl⟩, hs'⟩⟩

end Run

theorem EndsWith.of_append {front : String} (h : EndsWith q (front ++ ending)) :
    EndsWith q ending := by
  obtain ⟨way, last, rfl⟩ := h
  exact ⟨way, last ++ front.toList, by rw [String.toList_append, append_assoc]⟩

theorem EndsWith.of_define (h : EndsWith q "define.pne") : EndsWith q ".pne" := by
  have hending : "define.pne" = "define" ++ ".pne" := rfl
  rw [hending] at h
  exact h.of_append

/-! ### Names of texts -/

namespace TextKey

theorem differ_of_ne {kind kind' : TextKind} (h : kind ≠ kind') :
    Differ kind.ending kind'.ending := by
  revert h
  cases kind <;> cases kind' <;> decide

theorem fileName_injective : Function.Injective fileName := by
  rintro ⟨owner, kind⟩ ⟨owner', kind'⟩ h
  have hlist := congrArg String.toList h
  simp only [fileName, String.toList_append] at hlist
  obtain rfl : kind = kind' := by
    by_contra hne
    have hdiffer := differ_of_ne hne
    rcases suffix_or_suffix_of_suffix (suffix_append owner.toList kind.ending.toList)
      (hlist ▸ suffix_append owner'.toList kind'.ending.toList) with hend | hend
    · exact hdiffer.1 hend
    · exact hdiffer.2 hend
  rw [append_cancel_right_eq] at hlist
  rw [String.toList_injective hlist]

/-- The name of the text can be the name of a file. -/
def IsPlain (k : TextKey) : Prop :=
  '/' ∉ k.owner.toList

theorem IsPlain.fileName (h : k.IsPlain) : '/' ∉ k.fileName.toList ∧
    2 < k.fileName.toList.length := by
  have hending : '/' ∉ k.kind.ending.toList ∧ 2 < k.kind.ending.toList.length := by
    cases k.kind <;> decide
  rw [TextKey.fileName, String.toList_append, mem_append, not_or, length_append]
  exact ⟨⟨h, hending.1⟩, by omega⟩

end TextKey

theorem Workspace.component_ne_empty (w : Workspace) : w.component ≠ "" := by
  intro h
  have hlist := congrArg String.toList h
  rw [component, String.toList_append] at hlist
  simp at hlist

/-- **Texts have different files.** -/
theorem TextKey.eq_of_place {k' : TextKey} (hk : k.IsPlain) (hk' : k'.IsPlain)
    (h : s.place? (w.componentFile k.fileName) = some q)
    (h' : s.place? (w.componentFile k'.fileName) = some q) : k = k' := by
  obtain ⟨p, _, hq⟩ := Disk.locate_inside w.component_ne_empty hk.fileName.1 hk.fileName.2
    (Session.place?_eq_some.mp h)
  obtain ⟨p', _, hq'⟩ := Disk.locate_inside w.component_ne_empty hk'.fileName.1 hk'.fileName.2
    (Session.place?_eq_some.mp h')
  have hname := congrArg List.getLast? (hq.symm.trans hq')
  rw [getLast?_concat, getLast?_concat, Option.some.injEq] at hname
  exact fileName_injective hname

/-- No name of a text has a slash. -/
def Generation.Plain (g : Generation) : Prop :=
  ∀ k, (g.pieces? k).isSome = true → k.IsPlain

theorem Generation.plain_of_texts
    (h : (g.texts.all fun t => !t.1.owner.toList.contains '/') = true) : g.Plain := by
  intro k hk
  rw [pieces?, Option.isSome_map, find?_isSome] at hk
  obtain ⟨t, ht, htk⟩ := hk
  have howner := all_eq_true.mp h t ht
  rw [of_decide_eq_true htk] at howner
  show '/' ∉ k.owner.toList
  simpa using howner

def Generation.addTo (g : Generation) (k : TextKey) (old : Option String) : Option String :=
  match g.pieces? k with
  | none => old
  | some ps => some (old.getD "" ++ Piece.render ps)

theorem Generation.extended_textsAt (hplain : g.Plain) (hkeys : (g.texts.map (·.1)).Nodup)
    (hk : k.IsPlain) (hq : s.place? (w.componentFile k.fileName) = some q)
    (old : Option String) : extended old (Run.textsAt s w.componentFile g.files q) =
      g.addTo k old := by
  have hfilter : ∀ texts : List (TextKey × Array Piece), (texts.map (·.1)).Nodup →
      (∀ t ∈ texts, t.1.IsPlain) →
      ((texts.map fun t => (t.1.fileName, Piece.render t.2.toList)).filter fun f =>
        s.place? (w.componentFile f.1) = some q).map (·.2) =
      ((texts.find? (·.1 = k)).map fun t => Piece.render t.2.toList).toList := by
    intro texts
    induction texts with
    | nil => exact fun _ _ => rfl
    | cons t ts ih =>
      intro hnodup hall
      obtain ⟨ht, hts⟩ := forall_mem_cons.mp hall
      rw [map_cons, nodup_cons] at hnodup
      rw [map_cons]
      by_cases htk : t.1 = k
      · rw [filter_cons_of_pos (by simp [htk, hq]), map_cons, ih hnodup.2 hts,
          find?_cons_of_pos (by simp [htk]), find?_eq_none.mpr]
        · rfl
        · intro t' ht' htk'
          exact hnodup.1 (mem_map.mpr ⟨t', ht', (of_decide_eq_true htk').trans htk.symm⟩)
      · have hplace : ¬ s.place? (w.componentFile t.1.fileName) = some q :=
          fun h => htk (TextKey.eq_of_place ht hk h hq)
        rw [filter_cons_of_neg (by simpa using hplace), ih hnodup.2 hts,
          find?_cons_of_neg (by simp [htk])]
  have hall : ∀ t ∈ g.texts, t.1.IsPlain := by
    intro t ht
    refine hplain t.1 ?_
    rw [pieces?, Option.isSome_map, find?_isSome]
    exact ⟨t, ht, by simp⟩
  rw [Run.textsAt, files, hfilter g.texts hkeys hall, addTo, pieces?]
  cases g.texts.find? (·.1 = k) <;> rfl

/-! ### One generation -/

namespace Runner

variable {α : Type} {r r' : Runner}

theorem lift_eq_ok {x : Run α} {a : α} :
    (liftM x : Compiling α) r = .ok a r' ↔ ∃ s, x r.session = .ok a s ∧
      r' = { r with session := s } := by
  simp only [liftM, monadLift, MonadLift.monadLift]
  cases x r.session with
  | error e s =>
    constructor
    · intro h
      cases h
    · rintro ⟨_, h, _⟩
      cases h
  | ok b s =>
    constructor
    · intro h
      injection h with hb hr
      exact ⟨s, by rw [hb], hr.symm⟩
    · rintro ⟨s', h, rfl⟩
      cases h
      rfl

/-- The directories in which generated texts can be put. -/
def folders (r : Runner) : List Place :=
  let place := absolute r.session.home r.workspace.component
  (r.session.disk.directories.filter place.isPrefixOf).map (·.drop place.length)

def beginning (r : Runner) : Generation :=
  { Generation.empty with console := r.session.console, folders := r.folders }

/-- The generation of a program from the text of its definitions. -/
def generation (text : String) (p : Program) : Gen (OrderedMap String Service) := do
  Gen.readDefinitions text
  Gen.services p

/-- Generates the services of a user, and gives back all that was generated. -/
def draft (p : Program) : Compiling (OrderedMap String Service × Generation) := do
  Report.say "generate..."
  Forest.log (← get).workspace "generate...\n"
  let text ← Run.read "include//define.pne"
  generating (generation text p)

theorem generate_eq (p : Program) : generate p = (do
    let (services, g) ← draft p
    pure (services, g.relation)) := by
  simp only [generate, draft, bind_assoc]
  rfl

/-- Adds the texts of a generation to their files. -/
def flush (w : Workspace) (g : Generation) : Run Unit := do
  modify fun s => { s with console := g.console }
  g.files.forM fun f => Run.append (w.componentFile f.1) f.2

theorem flush_eq_ok_iff {s' : Session} : flush w g s = .ok u s' ↔
    g.files.forM (fun f => Run.append (w.componentFile f.1) f.2)
    { s with console := g.console } = .ok ⟨⟩ s' := by
  rw [flush, bind_eq_ok]
  constructor
  · rintro ⟨_, s1, h1, h2⟩
    obtain rfl := modify_eq_ok.mp h1
    exact h2
  · exact fun h => ⟨⟨⟩, _, rfl, h⟩

theorem generating_eq_ok_iff {x : Gen α} {a : α} : generating x r = .ok (a, g) r' ↔
    x r.beginning = .ok a g ∧ ∃ s, flush r.workspace g r.session = .ok () s ∧
      r' = { r with session := s } := by
  cases hx : x r.beginning with
  | error e g' =>
    constructor
    · intro h
      rw [generating, get_bind, get_bind] at h
      rw [beginning, folders] at hx
      rw [hx] at h
      obtain ⟨_, _, _, h⟩ := bind_eq_ok.mp h
      exact absurd h throw_ne_ok
    · rintro ⟨h, _⟩
      cases h
  | ok b g' =>
    have hrun : generating x r = (liftM (flush r.workspace g') >>= fun _ => pure (b, g') : Compiling
        (α × Generation)) r := by
      rw [beginning, folders] at hx
      rw [generating, get_bind, get_bind, hx]
      rfl
    rw [hrun]
    simp only [bind_eq_ok, lift_eq_ok, pure_eq_ok]
    constructor
    · rintro ⟨_, _, ⟨s, h, rfl⟩, hresult, rfl⟩
      cases hresult
      exact ⟨rfl, s, h, rfl⟩
    · rintro ⟨hresult, s, h, rfl⟩
      cases hresult
      exact ⟨(), _, ⟨s, h, rfl⟩, rfl, rfl⟩

/-- The project's definitions have the text. -/
def Defines (r : Runner) (text : String) : Prop :=
  Run.read "include//define.pne" r.session = .ok text r.session

/-- A compilation that goes on in the same directories, with the same configuration, and has the
files of `keep`. -/
structure Steady (keep : Place → Prop) (r r' : Runner) : Prop where
  workspace : r'.workspace = r.workspace
  services : r'.services = r.services
  files : KeepsFiles keep r.session r'.session

namespace Steady

variable {keep keep' : Place → Prop} {r'' : Runner}

theorem refl (keep : Place → Prop) (r : Runner) : Steady keep r r :=
  ⟨rfl, rfl, .refl keep _⟩

theorem trans (h : Steady keep r r') (h' : Steady keep r' r'') : Steady keep r r'' :=
  ⟨h'.workspace.trans h.workspace, h'.services.trans h.services, h.files.trans h'.files⟩

theorem mono (h : Steady keep r r') (hkeep : ∀ q, keep' q → keep q) : Steady keep' r r' :=
  ⟨h.workspace, h.services, h.files.mono hkeep⟩

theorem symm (h : Steady keep r r') : Steady keep r' r :=
  ⟨h.workspace.symm, h.services.symm, h.files.home.symm, h.files.directories.symm,
    fun q hq => (h.files.files q hq).symm⟩

theorem place? (h : Steady keep r r') (path : String) :
    r'.session.place? path = r.session.place? path := by
  refine Option.ext fun q => ?_
  rw [Session.place?_eq_some, Session.place?_eq_some, h.files.locate]

theorem writable (h : Steady keep r r') : r'.session.Writable path ↔ r.session.Writable path := by
  refine exists_congr fun p => and_congr (h.files.locate path p) ?_
  rw [Disk.isDirectory, Disk.isDirectory, h.files.directories]

theorem folders (h : Steady keep r r') : r'.folders = r.folders := by
  rw [Runner.folders, Runner.folders, h.files.home, h.workspace, h.files.directories]

theorem defines (h : Steady keep r r') (hkeep : ∀ q, EndsWith q "define.pne" → keep q)
    (hr : r.Defines text) :
    r'.Defines text := by
  exact (h.files.read_eq_ok fun q hq =>
    hkeep q (endsWith_of_locate (a := "include//") (by decide) hq)).mpr hr

end Steady

variable {ending : String} {p : Program} {services : OrderedMap String Service} {g : Generation}

/-- Announces a generation. -/
def opening : Compiling Unit := do
  Report.say "generate..."
  Forest.log (← get).workspace "generate...\n"

theorem draft_eq (p : Program) : draft p = (do
    opening
    let text ← Run.read "include//define.pne"
    generating (generation text p)) := by
  simp only [draft, opening, bind_assoc]

theorem opening_eq_ok (hending : Untouched ending) (h : opening r = .ok u r') :
    Steady (EndsWith · ending) r r' ∧ r.session.Writable r.workspace.logFile := by
  obtain ⟨_, r1, h1, h⟩ := bind_eq_ok.mp h
  obtain ⟨s1, hsay, rfl⟩ := lift_eq_ok.mp h1
  obtain ⟨_, r2, hget, h2⟩ := bind_eq_ok.mp h
  obtain ⟨rfl, rfl⟩ := get_eq_ok.mp hget
  obtain ⟨s2, hlog, rfl⟩ := lift_eq_ok.mp h2
  have hfirst : Steady (EndsWith · ending) r { r with session := s1 } :=
    ⟨rfl, rfl, Run.Leaves.report _ _ _ _ rfl rfl hsay⟩
  refine ⟨hfirst.trans ⟨rfl, rfl, log_leaves hending r.workspace s1 _ _ _ _ rfl rfl hlog⟩,
    hfirst.writable.mp ?_⟩
  obtain ⟨q, hq, hfile, _⟩ := Run.append_eq_ok_iff.mp hlog
  exact ⟨q, hq, hfile⟩

theorem exists_opening (h : r.session.Writable r.workspace.logFile) :
    ∃ r', opening r = .ok () r' := by
  obtain ⟨q, hq, hfile⟩ := h
  obtain ⟨c, hsay⟩ : ∃ c, (liftM (Report.say "generate...") : Compiling Unit) r =
      .ok () { r with session := { r.session with console := c } } := ⟨_, rfl⟩
  obtain ⟨s, hlog⟩ : ∃ s, Forest.log r.workspace "generate...\n"
    { r.session with console := c } = .ok () s :=
    ⟨_, Run.append_eq_ok_iff.mpr ⟨q, hq, hfile, rfl⟩⟩
  exact ⟨_, bind_eq_ok.mpr ⟨(), _, hsay, bind_eq_ok.mpr ⟨_, _, rfl, lift_eq_ok.mpr ⟨_, hlog, rfl⟩⟩⟩⟩

theorem draft_steps (h : draft p r = .ok (services, g) r') :
    ∃ r1 text s, opening r = .ok () r1 ∧
      Run.read "include//define.pne" r1.session = .ok text r1.session ∧
      generation text p r1.beginning = .ok services g ∧ flush r1.workspace g r1.session = .ok () s ∧
      r' = { r1 with session := s } := by
  rw [draft_eq] at h
  obtain ⟨_, r1, hopen, h⟩ := bind_eq_ok.mp h
  obtain ⟨text, r2, hlift, h⟩ := bind_eq_ok.mp h
  obtain ⟨s2, hread, rfl⟩ := lift_eq_ok.mp hlift
  obtain rfl := Run.read_stays hread
  obtain ⟨hrun, s, hflush, rfl⟩ := generating_eq_ok_iff.mp h
  exact ⟨r1, text, s, hopen, hread, hrun, hflush, rfl⟩

theorem draft_steady (hending : Untouched ending)
    (hkinds : ∀ kind : TextKind, Differ kind.ending ending) (h : draft p r = .ok (services, g) r') :
    Steady (EndsWith · ending) r r' := by
  obtain ⟨r1, text, s, hopen, _, _, hflush, rfl⟩ := draft_steps h
  obtain ⟨hsteady, _⟩ := opening_eq_ok hending hopen
  obtain ⟨_, hhome, hdirs, hfiles⟩ := Run.appendAll_eq_ok _ (flush_eq_ok_iff.mp hflush)
  refine hsteady.trans ⟨rfl, rfl, hhome, hdirs, fun q hq => ?_⟩
  have htexts : Run.textsAt { r1.session with console := g.console } r1.workspace.componentFile
      g.files q = [] := by
    refine map_eq_nil_iff.mpr (filter_eq_nil_iff.mpr fun f hf hfq => ?_)
    obtain ⟨t, _, rfl⟩ := mem_map.mp hf
    exact (endsWith_of_text (Session.place?_eq_some.mp (of_decide_eq_true hfq))).not_of_differ
      (hkinds t.1.kind) hq
  rw [hfiles q, htexts]
  rfl

/-- What a generation finds and leaves behind. -/
structure Drafted (p : Program) (r : Runner) (services : OrderedMap String Service) (g : Generation)
    (r' : Runner) : Prop where
  log : r.session.Writable r.workspace.logFile
  run : ∃ text console, r.Defines text ∧
    generation text p { r.beginning with console := console } = .ok services g
  writable : ∀ f ∈ g.files, r.session.Writable (r.workspace.componentFile f.1)
  steady : Steady (EndsWith · "define.pne") r r'
  /-- every text is added to its file -/
  file : g.Plain → (g.texts.map (·.1)).Nodup → ∀ k : TextKey, k.IsPlain → ∀ q,
    r.session.place? (r.workspace.componentFile k.fileName) = some q →
    r'.session.disk.file? q = g.addTo k (r.session.disk.file? q)

theorem exists_ending (kind : TextKind) : ∃ front, kind.ending = front ++ ".pne" := by
  cases kind
  exacts [⟨"_control", rfl⟩, ⟨"_action", rfl⟩, ⟨"_table", rfl⟩, ⟨"_entry", rfl⟩, ⟨"_tem", rfl⟩,
    ⟨"_reg", rfl⟩, ⟨"_var", rfl⟩]

theorem endsWith_of_place (h : s.place? (w.componentFile k.fileName) = some q) :
    EndsWith q ".pne" := by
  obtain ⟨front, hfront⟩ := exists_ending k.kind
  have hending := endsWith_of_text (Session.place?_eq_some.mp h)
  rw [hfront] at hending
  exact hending.of_append

/-- **A generation adds its texts to their files.** -/
theorem draft_eq_ok (h : draft p r = .ok (services, g) r') : Drafted p r services g r' := by
  have hdefine : Steady (EndsWith · "define.pne") r r' := by
    refine draft_steady (by decide) (fun kind => ?_) h
    cases kind <;> decide
  obtain ⟨r1, text, s, hopen, hread, hrun, hflush, rfl⟩ := draft_steps h
  obtain ⟨hsteady, hlog⟩ := opening_eq_ok (show Untouched ".pne" by decide) hopen
  obtain ⟨hwritable, _, _, hfiles⟩ := Run.appendAll_eq_ok _ (flush_eq_ok_iff.mp hflush)
  have hplace : ∀ path, Session.place? { r1.session with console := g.console } path =
      r.session.place? path :=
    hsteady.place?
  refine ⟨hlog, ⟨text, r1.session.console, hsteady.symm.defines (fun _ => EndsWith.of_define) hread,
    ?_⟩, fun f hf => hsteady.workspace ▸ hsteady.writable.mp (hwritable f hf), hdefine,
      fun hplain hkeys k hk q hq => ?_⟩
  · rw [← hrun, beginning, beginning, hsteady.folders]
  · rw [hfiles q, ← hsteady.files.files q (endsWith_of_place hq)]
    refine Generation.extended_textsAt hplain hkeys hk ?_ _
    rw [hplace, hsteady.workspace]
    exact hq

theorem exists_draft (hlog : r.session.Writable r.workspace.logFile) (htext : r.Defines text)
    (hrun : ∀ console, ∃ services g, generation text p { r.beginning with console := console } =
      .ok services g ∧ ∀ f ∈ g.files, r.session.Writable (r.workspace.componentFile f.1)) :
    ∃ services g r', draft p r = .ok (services, g) r' := by
  obtain ⟨r1, hopen⟩ := exists_opening hlog
  obtain ⟨hsteady, _⟩ := opening_eq_ok (show Untouched ".pne" by decide) hopen
  obtain ⟨services, g, hgeneration, hwritable⟩ := hrun r1.session.console
  have hbegin : r1.beginning = { r.beginning with console := r1.session.console } := by
    rw [beginning, beginning, hsteady.folders]
  have hread := hsteady.defines (fun _ => EndsWith.of_define) htext
  obtain ⟨s, hflush⟩ := Run.exists_appendAll r1.workspace.componentFile g.files
    (s := { r1.session with console := g.console }) fun f hf =>
      hsteady.workspace ▸ hsteady.writable.mpr (hwritable f hf)
  refine ⟨services, g, { r1 with session := s }, ?_⟩
  rw [draft_eq]
  refine bind_eq_ok.mpr ⟨(), r1, hopen,
    bind_eq_ok.mpr ⟨text, r1, lift_eq_ok.mpr ⟨r1.session, hread, rfl⟩, ?_⟩⟩
  exact generating_eq_ok_iff.mpr ⟨hbegin ▸ hgeneration, s, flush_eq_ok_iff.mpr hflush, rfl⟩

end Runner

/-! ### What is generated -/

theorem Gen.define_eq_ok {t : Tree} (h : define t g = .ok u g') :
    ∃ d, g' = { g with definitions := d } ∧ ∀ g1 : Generation, g1.definitions = g.definitions →
      define t g1 = .ok u { g1 with definitions := d } := by
  simp only [define, bind_eq_ok, modify_eq_ok, get_eq_ok, lift_shape_eq_ok] at h
  obtain ⟨_, _, rfl, _, _, ⟨rfl, rfl⟩, ts, _, ⟨hts, rfl⟩, ⟨d, bad⟩, _, ⟨hd, rfl⟩, _, _, rfl, h⟩ := h
  cases bad with
  | some b =>
    obtain ⟨_, _, _, h⟩ := bind_eq_ok.mp h
    exact absurd h Gen.lift_halt_ne_ok
  | none =>
    obtain ⟨_, rfl⟩ := pure_eq_ok.mp h
    refine ⟨d, rfl, fun g1 hg1 => ?_⟩
    simp only [define, bind_eq_ok, modify_eq_ok, get_eq_ok, lift_shape_eq_ok, hg1]
    exact ⟨(), _, rfl, _, _, ⟨rfl, rfl⟩, ts, _, ⟨hts, rfl⟩, ⟨d, none⟩, _, ⟨hd, rfl⟩,
      (), _, rfl, rfl⟩

theorem Gen.readDefinitions_eq_ok (h : readDefinitions text g = .ok u g') :
    ∃ d, g' = { g with definitions := d } ∧ ∀ g1 : Generation, g1.definitions = g.definitions →
      readDefinitions text g1 = .ok u { g1 with definitions := d } := by
  unfold readDefinitions at h ⊢
  generalize Language.definitions.parse text = parsed at h ⊢
  obtain ⟨_, _, hmodify, h⟩ := bind_eq_ok.mp h
  obtain rfl := modify_eq_ok.mp hmodify
  cases parsed with
  | error e => exact absurd h throw_ne_ok
  | ok t =>
    obtain ⟨d, rfl, hsame⟩ := define_eq_ok h
    refine ⟨d, rfl, fun g1 hg1 => bind_eq_ok.mpr ⟨(),
      { g1 with definitions := { g1.definitions with types := {} } }, rfl, ?_⟩⟩
    exact hsame _ (by rw [hg1])

theorem Runner.generation_eq_ok {p : Program} {services : OrderedMap String Service}
    (h : generation text p g = .ok services g') :
    ∃ d, p.visits.forM (Gen.visit p) { g with definitions := d } = .ok () g' ∧
      ∀ (p' : Program) (h h' : Generation), h.definitions = g.definitions →
        p'.visits.forM (Gen.visit p') { h with definitions := d } = .ok () h' →
          ∃ services', generation text p' h = .ok services' h' := by
  obtain ⟨_, g1, hread, hservices⟩ := bind_eq_ok.mp h
  obtain ⟨d, rfl, hsame⟩ := Gen.readDefinitions_eq_ok hread
  refine ⟨d, Gen.services_eq_ok_iff.mp ⟨services, hservices⟩,
    fun p' h h' hdefinitions hvisits => ?_⟩
  obtain ⟨services', hservices'⟩ := Gen.services_eq_ok_iff.mpr hvisits
  exact ⟨services', bind_eq_ok.mpr ⟨(), _, hsame h hdefinitions, hservices'⟩⟩

/-- Nothing was generated yet. -/
structure Generation.Fresh (g : Generation) : Prop where
  relation : g.relation = {}
  texts : g.texts = []

namespace Runner

variable {r r' : Runner} {text : String} {p : Program} {g g' : Generation}
  {services : OrderedMap String Service}

theorem fresh_beginning (r : Runner) (console : String) :
    Generation.Fresh { r.beginning with console := console } :=
  ⟨rfl, rfl⟩

/-- **A generation makes entries and texts only under the names of the applications that it
visits**, and each text once. -/
theorem generation_spares (hg : g.Fresh) (h : generation text p g = .ok services g') :
    (∀ n, (∀ v ∈ p.visits, ¬ Owns (Gen.stemOf v) n) → g'.relation.find? n = none) ∧
    (∀ k : TextKey, (∀ v ∈ p.visits, ¬ Owns (Gen.stemOf v) k.owner) → k.owner ≠ Gen.looseFragment →
      g'.pieces? k = none) ∧
    (g'.texts.map (·.1)).Nodup := by
  obtain ⟨d, hvisits, _⟩ := generation_eq_ok h
  have hloose : g.relation.find? Gen.looseFragment = none := by rw [hg.relation]; rfl
  have hspares := Gen.visits_spare p.visits (g := { g with definitions := d }) hloose hvisits
  have hno : ∀ {n}, (∀ v ∈ p.visits, ¬ Owns (Gen.stemOf v) n) →
      ¬ ∃ v ∈ p.visits, Owns (Gen.stemOf v) n :=
    fun hn ⟨v, hv, howns⟩ => hn v hv howns
  refine ⟨fun n hn => ?_, fun k hk hl => ?_, hspares.keys ?_⟩
  · rw [hspares.relation n (hno hn)]
    show g.relation.find? n = none
    rw [hg.relation]
    rfl
  · rw [hspares.pieces k (hno hk) hl]
    show (g.texts.find? _).map _ = none
    rw [hg.texts]
    rfl
  · show (g.texts.map (·.1)).Nodup
    rw [hg.texts]
    exact nodup_nil

/-- **An application comes out as if it were generated alone**, if the others have other names. -/
theorem generation_alone {v : String × String} {h0 : Generation}
    (hg : g.relation.find? Gen.looseFragment = none)
    (hapart : ∀ v' ∈ p.visits, v' ≠ v → Apart (Gen.stemOf v) (Gen.stemOf v'))
    (h : generation text p g = .ok services g') (hagree : Agree (Owns (Gen.stemOf v)) g h0) :
    ∃ services' h', generation text (p.only v.1 v.2) h0 = .ok services' h' ∧
      Agree (Owns (Gen.stemOf v)) g' h' := by
  obtain ⟨d, hvisits, hsame⟩ := generation_eq_ok h
  have hbegin : Agree (Owns (Gen.stemOf v)) { g with definitions := d }
      { h0 with definitions := d } :=
    { hagree with definitions := rfl }
  obtain ⟨h', halone, hagree'⟩ :=
    Gen.visits_alone p.visits (g := { g with definitions := d }) hapart hg hvisits hbegin
  rw [← Program.visits_only p v.1 v.2] at halone
  obtain ⟨services', hgeneration⟩ := hsame (p.only v.1 v.2) h0 h' hagree.definitions halone
  exact ⟨services', h', hgeneration, hagree'⟩

/-! ### Chains of generations -/

/-- The generation of the program of one user. -/
structure Stage where
  program : Program
  services : OrderedMap String Service
  generation : Generation

/-- Programs are generated one after another, and between them nothing is done to the files of
programs. -/
inductive Compiled : Runner → List Stage → Runner → Prop
  | nil (r : Runner) : Compiled r [] r
  | cons {r r₁ r₂ r' : Runner} {stage : Stage} {stages : List Stage}
      (gap : Steady (EndsWith · ".pne") r r₁)
      (run : draft stage.program r₁ = .ok (stage.services, stage.generation) r₂)
      (rest : Compiled r₂ stages r') :
      Compiled r (stage :: stages) r'

namespace Compiled

variable {stages : List Stage}

theorem steady (h : Compiled r stages r') : Steady (EndsWith · "define.pne") r r' := by
  induction h with
  | nil r => exact .refl _ r
  | cons gap run _ ih =>
    exact ((gap.mono fun _ => EndsWith.of_define).trans (draft_eq_ok run).steady).trans ih

theorem drafted (h : Compiled r stages r') (hstage : stage ∈ stages) :
    ∃ r1 r2, Steady (EndsWith · "define.pne") r r1 ∧
      Drafted stage.program r1 stage.services stage.generation r2 := by
  induction h with
  | nil r => cases hstage
  | @cons r r1 r2 r' first stages gap run rest ih =>
    have hgap := gap.mono fun _ => EndsWith.of_define
    rcases mem_cons.mp hstage with rfl | hstage
    · exact ⟨r1, r2, hgap, draft_eq_ok run⟩
    · obtain ⟨r3, r4, hsteady, hdrafted⟩ := ih hstage
      exact ⟨r3, r4, (hgap.trans (draft_eq_ok run).steady).trans hsteady, hdrafted⟩

theorem run (h : Compiled r stages r') (hstage : stage ∈ stages) :
    ∃ text console, r.Defines text ∧
      Runner.generation text stage.program { r.beginning with console := console } =
        .ok stage.services stage.generation := by
  obtain ⟨r1, r2, hsteady, hdrafted⟩ := h.drafted hstage
  obtain ⟨text, console, htext, hrun⟩ := hdrafted.run
  refine ⟨text, console, hsteady.symm.defines (fun _ => id) htext, ?_⟩
  rw [← hrun, beginning, beginning, hsteady.folders]

theorem file (h : Compiled r stages r') (hplain : ∀ stage ∈ stages, stage.generation.Plain)
    (hk : k.IsPlain) (hq : r.session.place? (r.workspace.componentFile k.fileName) = some q) :
    r'.session.disk.file? q = stages.foldl (fun old stage => stage.generation.addTo k old)
    (r.session.disk.file? q) := by
  induction h with
  | nil r => rfl
  | @cons r r1 r2 r' stage stages gap run rest ih =>
    obtain ⟨hfirst, hrest⟩ := forall_mem_cons.mp hplain
    have hdrafted := draft_eq_ok run
    obtain ⟨_, _, _, hrun⟩ := hdrafted.run
    have hnodup := (generation_spares (fresh_beginning r1 _) hrun).2.2
    have hq1 : r1.session.place? (r1.workspace.componentFile k.fileName) = some q := by
      rw [gap.place?, gap.workspace, hq]
    have hq2 : r2.session.place? (r2.workspace.componentFile k.fileName) = some q := by
      rw [hdrafted.steady.place?, hdrafted.steady.workspace, hq1]
    rw [ih hrest hq2, hdrafted.file hfirst hnodup k hk q hq1,
      gap.files.files q (endsWith_of_place hq), foldl_cons]

end Compiled

/-! ### Between generations -/

theorem program_leaves (hending : Untouched ending) (w : Workspace) (s0 : Session) (f : Forest) :
    Run.Leaves (EndsWith · ending) s0 (f.program w) :=
  .bind (.report _) fun _ => .bind (log_leaves hending w s0 _) fun _ =>
    .bind (.report _) fun _ => .pure _

/-- The step does nothing to the files that end so. -/
def Spares (ending : String) {α : Type} (x : Compiling α) : Prop :=
  ∀ r a r', x r = .ok a r' → Steady (EndsWith · ending) r r'

/-- What holds of looking at the state, and of steps one after another. -/
structure Closed (K : ∀ {α : Type}, Compiling α → Prop) : Prop extends Sequential K where
  get : K (get : Compiling Runner)

namespace Closed

variable {K : ∀ {α : Type}, Compiling α → Prop}

theorem of_trans {R : Runner → Runner → Prop} (hrefl : ∀ r, R r r)
    (htrans : ∀ {r r1 r2}, R r r1 → R r1 r2 → R r r2) :
    Closed fun {α} (x : Compiling α) => ∀ r a r', x r = .ok a r' → R r r' where
  pure a r _ r' h := (pure_eq_ok.mp h).2 ▸ hrefl r
  throw e r _ r' h := absurd h throw_ne_ok
  get r _ r' h := (get_eq_ok.mp h).2 ▸ hrefl r
  use hx hf r b r' h := by
    obtain ⟨a, r1, h1, h2⟩ := bind_eq_ok.mp h
    exact htrans (hx r a r1 h1) (hf r a r1 h1 r1 b r' h2)

variable (h : Closed K)

include h

theorem readServices (hread : ∀ path, K (liftM (Run.read path) : Compiling String))
    (hjson : ∀ path, K (liftM (Run.readJson path) : Compiling Json))
    (hset : ∀ j, K (modify fun r => { r with services := j } : Compiling PUnit))
    (hmain : ∀ (w : Workspace) (user text : String),
      K (liftM (Run.create (w.componentFile ("main//" ++ user ++ mainEnding)) text) :
        Compiling Unit)) : K readServices := by
  have hplace : ∀ user file, K (placeMain user file) := fun _ _ =>
    h.bind (hread _) fun _ => h.bind (h.fault _) fun _ => h.bind h.get fun _ => hmain _ _ _
  have hnamed : ∀ user file, K (placeNamedMain user file) := by
    intro user file
    unfold placeNamedMain
    split
    · refine h.bind (hread _) fun text => h.bind (h.fault _) fun hidden => ?_
      split
      · exact h.throw _
      · exact h.bind h.get fun _ => h.bind (h.mismatch _) fun _ => hmain _ _ _
    · exact h.throw _
  refine h.bind h.get fun r => h.bind (h.mismatch _) fun count => ?_
  split
  on_goal 1 => refine h.bind h.get fun _ => h.bind (hjson _) fun j => h.bind (hset j) fun _ => ?_
  all_goals
    refine h.bind h.get fun r => h.bind (h.mismatch _) fun users => ?_
    refine h.bind (h.filterM (fun u => h.bind (h.mismatch _) fun _ => h.pure _) _) fun own => ?_
    refine h.bind (h.forM _ fun u _ => h.bind (h.mismatch _) fun name => hplace _ _) fun _ => ?_
    refine h.bind (h.filterM (fun u => h.bind (h.mismatch _) fun has => ?_) _) fun _ => h.pure _
    split
    · exact h.bind (h.mismatch _) fun file => h.bind (hnamed _ _) fun _ => h.pure _
    · exact h.pure _

end Closed

namespace Spares

variable {ending : String} {α : Type}

theorem closed (ending : String) : Closed (Spares ending) := .of_trans (.refl _) .trans

theorem lift {x : Run α} (hx : ∀ s0, Run.Leaves (EndsWith · ending) s0 x) :
    Spares ending (liftM x : Compiling α) := by
  intro r a r' h
  obtain ⟨s, hrun, rfl⟩ := lift_eq_ok.mp h
  exact ⟨rfl, rfl, hx r.session _ _ _ rfl rfl hrun⟩

theorem announce (hending : Untouched ending) (user : String) (isFirst : Bool) :
    Spares ending (announce user isFirst) := by
  have c := closed ending
  refine c.bind (lift fun s0 => .print _) fun _ => c.bind c.get fun r => ?_
  split
  · exact lift fun s0 => .create (fun _ => not_endsWith_of_log hending.2) _
  · exact lift fun s0 => .append (fun _ => not_endsWith_of_log hending.2) _

end Spares

/-- Reads the program of a user, with the services that the configuration gives it and what is wrong
with them. -/
def userProgram (user : Json) : Compiling (Program × Option Fault) := do
  let name ← Configuration.userName user
  announce name true
  let f ← forest (name ++ mainEnding)
  announce name false
  let p ← collect f
  let entries ← ServiceEntries.ofUser (← get).services user
  announce name false
  let (services, fault) := ServiceEntries.services p entries.entries []
  pure ({ p with services := .ofList (services.map fun s => (s.name, s)) }, fault)

theorem compileUser_eq (acc : OrderedMap String Service × OrderedMap String RelationEntry)
    (user : Json) :
    compileUser acc user = (do
      let (p, fault) ← userProgram user
      let (services, relation) ← generate p
      match fault with
      | none => pure (addNew acc.1 services, addNew acc.2 relation)
      | some e => throw e) := by
  conv_rhs => simp only [userProgram, bind_assoc, pure_bind]
  rfl

section

variable {K : ∀ {α : Type}, Compiling α → Prop} (h : Closed K)

include h

theorem Closed.userProgram (hannounce : ∀ name isFirst, K (announce name isFirst))
    (hforest : ∀ file, K (forest file)) (hcollect : ∀ f, K (collect f)) (user : Json) :
    K (userProgram user) :=
  h.bind (h.mismatch _) fun _ => h.bind (hannounce _ _) fun _ => h.bind (hforest _) fun f =>
    h.bind (hannounce _ _) fun _ =>
    h.bind (hcollect f) fun _ => h.bind h.get fun _ => h.bind (h.mismatch _) fun _ =>
      h.bind (hannounce _ _) fun _ => h.pure _

theorem Closed.compileUser (hprogram : ∀ user, K (Runner.userProgram user))
    (hgenerate : ∀ p, K (generate p))
    (acc : OrderedMap String Service × OrderedMap String RelationEntry) (user : Json) :
    K (compileUser acc user) := by
  rw [compileUser_eq]
  refine h.bind (hprogram user) fun ⟨p, fault⟩ => h.bind (hgenerate p) fun ⟨services,
    relation⟩ => ?_
  cases fault with
  | none => exact h.pure _
  | some e => exact h.throw e

end

/-- The services of all stages; of two with one name, the first one counts. -/
def allServices (stages : List Stage) : OrderedMap String Service :=
  stages.foldl (fun m stage => addNew m stage.services) {}

/-- The entries of all stages; of two with one name, the first one counts. -/
def allRelation (stages : List Stage) : OrderedMap String RelationEntry :=
  stages.foldl (fun m stage => addNew m stage.generation.relation) {}

theorem find?_addNew {β : Type} (m n : OrderedMap String β) (k : String) :
    (addNew m n).find? k = (m.find? k).or (n.find? k) := by
  have hnew : ∀ (m : OrderedMap String β) (k' : String) (v : β), (m.insertNew k' v).find? k =
      (m.find? k).or (if k = k' then some v else none) := by
    intro m k' v
    rw [OrderedMap.insertNew, contains_eq_isSome]
    split
    · next hold =>
      by_cases hk : k = k'
      · subst hk
        obtain ⟨old, hold⟩ := Option.isSome_iff_exists.mp hold
        rw [hold]
        rfl
      · rw [if_neg hk, Option.or_none]
    · next hnone =>
      rw [find?_insert]
      by_cases hk : k = k'
      · subst hk
        rw [if_pos rfl, if_pos rfl, Option.not_isSome_iff_eq_none.mp hnone, Option.none_or]
      · rw [if_neg hk, if_neg hk, Option.or_none]
  obtain ⟨es⟩ := n
  unfold addNew
  induction es generalizing m with
  | nil => rw [OrderedMap.find?_nil, Option.or_none]; rfl
  | cons e es ih =>
    obtain ⟨k', v⟩ := e
    rw [foldl_cons, ih, hnew, Option.or_assoc]
    congr 1
    by_cases hk : k' = k
    · rw [find?_cons_pos (by simpa using hk), if_pos hk.symm, Option.some_or]
    · rw [find?_cons_neg (by simpa using hk), if_neg (Ne.symm hk), Option.none_or]

/-- The program of a stage is the one of a user, with the services that the configuration gives the
user. -/
def Stage.IsOf (stage : Stage) (configuration user : Json) : Prop :=
  ∃ (p : Program) (entries : ServiceEntries), ServiceEntries.ofUser configuration user =
    .ok entries ∧
    stage.program =
      { p with services := .ofList ((ServiceEntries.services p entries.entries []).1.map fun s =>
      (s.name, s)) }

section

variable {ending : String} (hending : Untouched ending)

include hending

theorem forest_spares (file : String) : Spares ending (forest file) :=
  (Spares.closed ending).bind (Spares.closed ending).get fun r => .lift fun s0 =>
    grow_leaves hending r.workspace s0 file

theorem collect_spares (f : Forest) : Spares ending (collect f) :=
  (Spares.closed ending).bind (Spares.closed ending).get fun r => .lift fun s0 =>
    program_leaves hending r.workspace s0 f

theorem userProgram_spares (user : Json) : Spares ending (userProgram user) :=
  (Spares.closed ending).userProgram (.announce hending) (forest_spares hending)
    (collect_spares hending) user

end

variable {r r' : Runner} {p : Program} {services : OrderedMap String Service}
  {relation : OrderedMap String RelationEntry}

theorem userProgram_eq_ok {user : Json} {fault : Option Fault}
    (h : userProgram user r = .ok (p, fault) r') :
      ∃ (p0 : Program) (entries : ServiceEntries), ServiceEntries.ofUser r.services user =
        .ok entries ∧
        p = { p0 with
          services := .ofList ((ServiceEntries.services p0 entries.entries []).1.map fun s =>
          (s.name, s)) } := by
  obtain ⟨name, r1, h1, h⟩ := bind_eq_ok.mp h
  obtain ⟨_, r2, h2, h⟩ := bind_eq_ok.mp h
  obtain ⟨f, r3, h3, h⟩ := bind_eq_ok.mp h
  obtain ⟨_, r4, h4, h⟩ := bind_eq_ok.mp h
  obtain ⟨p0, r5, h5, h⟩ := bind_eq_ok.mp h
  rw [get_bind] at h
  obtain ⟨entries, r7, h7, h⟩ := bind_eq_ok.mp h
  obtain ⟨_, h8, hresult⟩ := bind_pure_eq_ok.mp h
  obtain ⟨hentries, rfl⟩ := lift_mismatch_eq_ok.mp h7
  have hending : Untouched ".pne" := by decide
  have hsteady : Steady (EndsWith · ".pne") r r5 :=
    (((((Spares.closed _).mismatch _ r name r1 h1).trans
      (Spares.announce hending name true r1 _ r2 h2)).trans
      (forest_spares hending _ r2 f r3 h3)).trans
        (Spares.announce hending name false r3 _ r4 h4)).trans
      (collect_spares hending f r4 p0 r5 h5)
  exact ⟨p0, entries, hsteady.services ▸ hentries, (congrArg Prod.fst hresult).symm⟩

theorem generate_eq_ok (h : generate p r = .ok (services, relation) r') :
    ∃ g, draft p r = .ok (services, g) r' ∧ relation = g.relation := by
  rw [generate_eq] at h
  obtain ⟨⟨services', g⟩, r1, hdraft, h⟩ := bind_eq_ok.mp h
  obtain ⟨hresult, rfl⟩ := pure_eq_ok.mp h
  cases hresult
  exact ⟨g, hdraft, rfl⟩

/-- **To compile users is to generate their programs one after another.** -/
theorem compileUsers_compiled {users : List Json}
    (h : users.foldlM compileUser ({}, {}) r = .ok (services, relation) r') :
    ∃ stages, Compiled r stages r' ∧
      List.Forall₂ (fun user stage => stage.IsOf r.services user) users stages ∧
      services = allServices stages ∧ relation = allRelation stages := by
  have hfold : ∀ (users : List Json) {acc out : OrderedMap String Service ×
      OrderedMap String RelationEntry} {r r' : Runner},
      users.foldlM compileUser acc r = .ok out r' →
      ∃ stages, Compiled r stages r' ∧
        List.Forall₂ (fun user stage => stage.IsOf r.services user) users stages ∧
        out.1 = stages.foldl (fun m stage => addNew m stage.services) acc.1 ∧
        out.2 = stages.foldl (fun m stage => addNew m stage.generation.relation) acc.2 := by
    intro users
    induction users with
    | nil =>
      intro acc out r r' h
      obtain ⟨rfl, rfl⟩ := pure_eq_ok.mp h
      exact ⟨[], .nil r, .nil, rfl, rfl⟩
    | cons user users ih =>
      intro acc out r r' h
      rw [foldlM_cons] at h
      obtain ⟨acc1, r3, hfirst, hrest⟩ := bind_eq_ok.mp h
      rw [compileUser_eq] at hfirst
      obtain ⟨⟨p, fault⟩, r1, hprogram, hfirst⟩ := bind_eq_ok.mp hfirst
      obtain ⟨⟨services, relation⟩, r2, hgenerate, hfirst⟩ := bind_eq_ok.mp hfirst
      obtain ⟨g, hdraft, rfl⟩ := generate_eq_ok hgenerate
      have hof := userProgram_eq_ok hprogram
      have hsteady := userProgram_spares (show Untouched ".pne" by decide) user r _ r1 hprogram
      cases fault with
      | some e => exact absurd hfirst throw_ne_ok
      | none =>
        obtain ⟨rfl, rfl⟩ := pure_eq_ok.mp hfirst
        obtain ⟨stages, hcompiled, hall, hservices, hrelation⟩ := ih hrest
        refine ⟨⟨p, services, g⟩ :: stages, .cons hsteady hdraft hcompiled, .cons hof ?_,
          hservices, hrelation⟩
        rwa [(draft_eq_ok hdraft).steady.services, hsteady.services] at hall
  exact hfold users h

end Runner

end Pathwise
