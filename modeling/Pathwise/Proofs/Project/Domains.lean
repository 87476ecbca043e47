import Pathwise.Proofs.Project.Included
import Pathwise.Proofs.Text

/-!
# Domain files while they are parsed

A domain file is parsed in place: its quotation marks are replaced by marks that the grammar knows,
the file is parsed, and the quotation marks are brought back.

* `Text.cut_intercalate`: parts in which a word does not occur come back when they are joined by the
  word and cut again.
* `Quotation.Restorable.hide`: so a text comes back if it has no marks of its own.
* `Forest.Kept`: a step ends with all domain files as they were, or it is stopped by a domain file
  that is no program, and this file is left with its marks.

The file that stops a run is not brought back, since nothing is done between the error and the end
of the run.
-/

namespace Pathwise

open Steps List

/-! ### Cutting a text at a word -/

namespace Text

variable {word : List Char}

theorem cutFrom_word (hne : word ≠ []) (current rest : List Char) :
    cutFrom word current 0 (word ++ rest) = String.ofList current.reverse :: cutFrom word
      [] 0 rest := by
  have hskip : ∀ tail : List Char, cutFrom word [] tail.length (tail ++ rest) = cutFrom word
      [] 0 rest := by
    intro tail
    induction tail with
    | nil => rfl
    | cons c tail ih => rw [length_cons, cons_append, cutFrom, ih]
  obtain ⟨c, tail, rfl⟩ := exists_cons_of_ne_nil hne
  have hfound : (c :: tail).isPrefixOf (c :: (tail ++ rest)) = true :=
    isPrefixOf_iff_prefix.mpr (prefix_append (c :: tail) rest)
  rw [cons_append, cutFrom, if_pos hfound, length_cons, Nat.add_sub_cancel, hskip]

theorem cutFrom_append (rest : List Char) : ∀ {part : List Char} (current : List Char),
    (∀ a b, part ++ rest = a ++ word ++ b → part.length ≤ a.length) →
    cutFrom word current 0 (part ++ rest) = cutFrom word (part.reverse ++ current) 0 rest := by
  intro part
  induction part with
  | nil => exact fun current _ => rfl
  | cons c part ih =>
    intro current hpart
    obtain ⟨hnone, htail⟩ := not_isPrefixOf_of_first hpart
    rw [cons_append, cutFrom, if_neg hnone, ih _ htail]
    simp

theorem cutFrom_last {cs : List Char} (h : ¬ word <:+: cs) (current : List Char) :
    cutFrom word current 0 cs = [String.ofList (current.reverse ++ cs)] := by
  have hpart : ∀ a b, cs ++ [] = a ++ word ++ b → cs.length ≤ a.length := by
    intro a b hab
    exact absurd ⟨a, b, by rw [← hab, append_nil]⟩ h
  have hcut := cutFrom_append [] current hpart
  rw [append_nil] at hcut
  rw [hcut, cutFrom]
  simp

/-- **Texts by their first words**: the word does not occur, or there is a first place where it
does. -/
theorem exists_first (hne : word ≠ []) (cs : List Char) : ¬ word <:+: cs ∨
    ∃ part rest, cs = part ++ (word ++ rest) ∧ ∀ a b, cs = a ++ word ++ b →
      part.length ≤ a.length := by
  induction cs with
  | nil => exact .inl fun h => hne (infix_nil.mp h)
  | cons c cs ih =>
    by_cases hfront : word <+: c :: cs
    · obtain ⟨rest, hrest⟩ := hfront
      exact .inr ⟨[], rest, hrest.symm, fun a b _ => Nat.zero_le _⟩
    · have htail : ∀ a b, c :: cs = a ++ word ++ b → ∃ a', a = c :: a' ∧ cs = a' ++ word ++ b := by
        intro a b hab
        cases a with
        | nil => exact absurd ⟨b, hab.symm⟩ hfront
        | cons c' a' =>
          obtain ⟨rfl, hcs⟩ := cons_eq_cons.mp hab
          exact ⟨a', rfl, hcs⟩
      rcases ih with hnone | ⟨part, rest, rfl, hfirst⟩
      · refine .inl fun h => ?_
        obtain ⟨a, b, hab⟩ := h
        obtain ⟨a', _, hcs⟩ := htail a b hab.symm
        exact hnone ⟨a', b, hcs.symm⟩
      · refine .inr ⟨c :: part, rest, rfl, fun a b hab => ?_⟩
        obtain ⟨a', rfl, hcs⟩ := htail a b hab
        exact Nat.succ_le_succ (hfirst a' b hcs)

theorem cutFrom_ne_nil (current : List Char) :
    ∀ (cs : List Char) (skip : Nat), cutFrom word current skip cs ≠ [] := by
  intro cs
  induction cs generalizing current with
  | nil => exact fun skip => cons_ne_nil _ _
  | cons c cs ih =>
    intro skip
    cases skip with
    | succ n => exact ih current n
    | zero =>
      rw [cutFrom]
      split
      · exact cons_ne_nil _ _
      · exact ih _ 0

/-- **The parts of a text, joined again, are the text.** -/
theorem intercalate_cut {word : String} (hne : word.toList ≠ []) (s : String) :
    word.intercalate (cut word s) = s := by
  have hjoin : ∀ (n : Nat) (cs : List Char), cs.length = n → ∀ current : List Char,
      word.intercalate (cutFrom word.toList current 0 cs) = String.ofList
        (current.reverse ++ cs) := by
    intro n
    induction n using Nat.strong_induction_on with
    | _ n ih =>
      intro cs hlength current
      rcases exists_first hne cs with hnone | ⟨part, rest, rfl, hfirst⟩
      · rw [cutFrom_last hnone, String.intercalate_singleton]
      · have hshort : rest.length < n := by
          have hword := length_pos_iff.mpr hne
          simp only [length_append] at hlength
          omega
        rw [cutFrom_append _ _ hfirst, cutFrom_word hne,
          String.intercalate_cons_of_ne_nil (cutFrom_ne_nil _ _ _), ih _ hshort rest rfl]
        apply String.toList_injective
        simp
  exact (hjoin _ s.toList rfl []).trans (String.ofList_toList ..)

/-- **Parts that are joined by a word come back**, if the word occurs nowhere but between them. -/
theorem cut_intercalate {word : String} (hne : word.toList ≠ []) :
    ∀ {parts : List String}, parts ≠ [] → (∀ p ∈ parts, ¬ word.toList <:+: p.toList ∧
      ∀ rest a b, p.toList ++ (word.toList ++ rest) = a ++ word.toList ++ b →
        p.toList.length ≤ a.length) →
    cut word (word.intercalate parts) = parts := by
  intro parts
  induction parts with
  | nil => exact fun h => absurd rfl h
  | cons p parts ih =>
    intro _ hparts
    obtain ⟨⟨hp, hbetween⟩, hrest⟩ := forall_mem_cons.mp hparts
    cases parts with
    | nil => rw [String.intercalate_singleton, cut, cutFrom_last hp, reverse_nil, nil_append,
      String.ofList_toList]
    | cons p' parts =>
      have htail := ih (cons_ne_nil _ _) hrest
      rw [cut] at htail ⊢
      rw [String.intercalate_cons_cons, String.toList_append, String.toList_append, append_assoc,
        cutFrom_append _ _ (hbetween _), cutFrom_word hne, htail, append_nil, reverse_reverse,
        String.ofList_toList]

theorem infix_of_mem_cut {word s p : String} (hne : word.toList ≠ []) (h : p ∈ cut word s) :
    p.toList <:+: s.toList := by
  rw [← intercalate_cut hne s, String.toList_intercalate]
  obtain ⟨i, hi⟩ := mem_iff_getElem?.mp (mem_map_of_mem h)
  have hplace : (((cut word s).map String.toList).intersperse word.toList)[2 * i]? =
      some p.toList :=
    getElem?_intersperse_two_mul.trans hi
  exact infix_of_mem_flatten (mem_of_getElem? hplace)

theorem length_cutFrom_char (c : Char) (cs current : List Char) :
    (cutFrom [c] current 0 cs).length = cs.count c + 1 := by
  induction cs generalizing current with
  | nil => rfl
  | cons d cs ih =>
    rw [cutFrom, count_cons]
    by_cases hd : d = c
    · subst hd
      simp [ih]
    · simp [hd, Ne.symm hd, ih]

end Text

/-! ### Quotation marks -/

namespace Quotation

theorem length_le_of_mark {part : List Char} (hpart : ¬ mark.toList <:+: part)
    {rest a b : List Char} (h : part ++ (mark.toList ++ rest) = a ++ mark.toList ++ b) :
    part.length ≤ a.length := by
  rw [append_assoc] at h
  rcases append_eq_append_iff.mp h with ⟨_, rfl, _⟩ | ⟨tail, rfl, htail⟩
  · simp
  · match tail with
    | [] => simp
    | [_] => simp [mark] at htail
    | [_, _] => simp [mark] at htail
    | x :: y :: z :: tail =>
      have hfront : mark.toList = [x, y, z] := by
        simp only [mark] at htail ⊢
        grind
      exact absurd ⟨a, tail, by simp [hfront]⟩ hpart

/-- Quotation marks come in pairs, and there are neither marks nor carriage returns. -/
structure Restorable (text : String) : Prop where
  paired : text.toList.count '"' % 2 = 0
  unmarked : ¬ mark.toList <:+: text.toList
  feeds : '\r' ∉ text.toList

theorem mem_of_mem_intercalate {word : String} {c : Char} :
    ∀ {parts : List String}, c ∈ (word.intercalate parts).toList →
    c ∈ word.toList ∨ ∃ p ∈ parts, c ∈ p.toList := by
  intro parts
  induction parts with
  | nil => exact fun h => absurd h (by simp)
  | cons p parts ih =>
    intro h
    cases parts with
    | nil =>
      rw [String.intercalate_singleton] at h
      exact .inr ⟨p, mem_singleton_self p, h⟩
    | cons p' parts =>
      rw [String.intercalate_cons_cons, String.toList_append, String.toList_append, mem_append,
        mem_append] at h
      rcases h with (h | h) | h
      · exact .inr ⟨p, mem_cons_self, h⟩
      · exact .inl h
      · exact (ih h).imp_right fun ⟨q, hq, hc⟩ => ⟨q, mem_cons_of_mem _ hq, hc⟩

/-- **A text without marks comes back** when its quotation marks are replaced and brought back. -/
theorem Restorable.exists_hidden {text : String} (h : Restorable text) :
    ∃ hidden, hide text = .ok hidden ∧ restore hidden = .ok text ∧ '\r' ∉ hidden.toList := by
  have hquote : "\"".toList ≠ [] := by decide
  have hmark : mark.toList ≠ [] := by decide
  have hlength : (Text.cut "\"" text).length % 2 = 1 := by
    have hcount := Text.length_cutFrom_char '"' text.toList []
    have hpaired := h.paired
    rw [Text.cut, show "\"".toList = ['"'] from rfl]
    omega
  have hne : Text.cut "\"" text ≠ [] := Text.cutFrom_ne_nil _ _ _
  have hback : Text.cut mark (mark.intercalate (Text.cut "\"" text)) = Text.cut "\"" text := by
    refine Text.cut_intercalate hmark hne fun p hp => ?_
    have hnone : ¬ mark.toList <:+: p.toList :=
      fun hin => h.unmarked (hin.trans (Text.infix_of_mem_cut hquote hp))
    exact ⟨hnone, fun _ _ _ => length_le_of_mark hnone⟩
  refine ⟨mark.intercalate (Text.cut "\"" text), ?_, ?_, ?_⟩
  · simp only [hide, pairedParts, hlength]
    rfl
  · simp only [restore, pairedParts, hback, hlength]
    exact congrArg Except.ok (Text.intercalate_cut hquote text)
  · intro hr
    rcases mem_of_mem_intercalate hr with hr | ⟨p, hp, hr⟩
    · exact absurd hr (by decide)
    · exact h.feeds ((Text.infix_of_mem_cut hquote hp).subset hr)

end Quotation

/-! ### Steps that leave domain files as they are -/

namespace Run

theorem read_eq (path : String) (s : Session) :
    Run.read path s = match s.disk.locate s.home path with
    | .error e => .error (.disk e path) s
    | .ok p => match s.disk.file? p with
      | some text => .ok (Text.unifyLineEnds text) s
      | none =>
        .error (.disk (if s.disk.isDirectory p then .isDirectory else .noSuchFile) path) s := by
  simp only [Run.read, readRaw, locate, bind, EStateM.bind, ↓get_bind, Functor.map, EStateM.map]
  cases s.disk.locate s.home path with
  | error e => rfl
  | ok p =>
    dsimp only [pure, EStateM.pure]
    cases s.disk.file? p with
    | none => rfl
    | some text => rfl

/-- **Reading changes nothing**, whether or not it succeeds. -/
theorem final_read (path : String) (s : Session) : final (Run.read path s) = s := by
  rw [read_eq]
  split
  · rfl
  · split <;> rfl

theorem read_of_file {path text : String} {s : Session} {q : Place}
    (hplace : s.disk.locate s.home path = .ok q) (htext : s.disk.file? q = some text)
    (hfeeds : '\r' ∉ text.toList) : Run.read path s = .ok text s := by
  rw [read_eq, hplace]
  simp only [htext]
  rw [Text.unifyLineEnds, if_neg (by simpa using hfeeds)]

theorem write_eq (path : String) (change : Place → Disk → Disk) (s : Session) :
    (do
      let p ← locateForWriting path
      modify fun s => { s with disk := change p s.disk } : Run Unit) s =
      match s.disk.locate s.home path with
      | .error e => .error (.disk e path) s
      | .ok p =>
        if s.disk.isDirectory p then .error (.disk .isDirectory path) s else
          .ok () { s with disk := change p s.disk } := by
  simp only [locateForWriting, locate, bind, EStateM.bind, ↓get_bind]
  cases s.disk.locate s.home path with
  | error e => rfl
  | ok p =>
    dsimp only [pure, EStateM.pure]
    cases s.disk.isDirectory p with
    | true => rfl
    | false => rfl

end Run

namespace Forest

/-- All domain files can be brought back. -/
def DomainsRestorable (s : Session) : Prop :=
  ∀ q text, EndsWith q ".domain" → s.disk.file? q = some text → Quotation.Restorable text

/-- A domain file is no program.  It is left with its marks, and the other domain files are as they
were. -/
def LeavesMarks (s : Session) (e : SyntaxError) (s' : Session) : Prop :=
  ∃ q text hidden, EndsWith q ".domain" ∧ s.disk.file? q = some text ∧
    Quotation.hide text = .ok hidden ∧
    Language.program.parse hidden = .error e ∧ s'.disk.file? q = some hidden ∧
    KeepsFiles (fun p => EndsWith p ".domain" ∧ p ≠ q) s s'

/-- How a step ends that began in `s`: with all domain files as they were, or stopped by one of
them. -/
inductive Kept (s : Session) {α : Type} : EStateM.Result Fault Session α → Prop
  | ok {a : α} {s' : Session} : KeepsFiles (EndsWith · ".domain") s s' → Kept s (.ok a s')
  | error {e : Fault} {s' : Session} : KeepsFiles (EndsWith · ".domain") s s' → Kept s (.error e s')
  | stopped {e : SyntaxError} {s' : Session} : LeavesMarks s e s' →
      Kept s (.error (.refusedText e) s')

/-- Where all domain files can be brought back, the step leaves them as they are or is stopped by
one of them. -/
def Keeps {α : Type} (x : Run α) : Prop :=
  ∀ s, DomainsRestorable s → Kept s (x s)

variable {α β : Type} {s s' : Session}

theorem DomainsRestorable.of_keepsFiles (h : DomainsRestorable s)
    (hkeeps : KeepsFiles (EndsWith · ".domain") s s') :
    DomainsRestorable s' := by
  intro q text hq htext
  rw [hkeeps.files q hq] at htext
  exact h q text hq htext

namespace Keeps

theorem of_disk_eq {x : Run α}
    (hx : ∀ s, (final (x s)).home = s.home ∧ (final (x s)).disk = s.disk) : Keeps x := by
  intro s _
  obtain ⟨hhome, hdisk⟩ := hx s
  have hkeeps : KeepsFiles (EndsWith · ".domain") s (final (x s)) :=
    ⟨hhome, by rw [hdisk], fun q _ => by rw [hdisk]⟩
  generalize x s = r at hkeeps
  cases r with
  | ok a s' => exact .ok hkeeps
  | error e s' => exact .error hkeeps

theorem report (x : Report α) : Keeps (liftM x : Run α) := by
  refine of_disk_eq fun s => ?_
  have hlift : (liftM x : Run α) s = mapState (fun c => { s with console := c }) (x s.console) :=
    rfl
  rw [hlift]
  cases x s.console with
  | ok a c => exact ⟨rfl, rfl⟩
  | error e c => exact ⟨rfl, rfl⟩

theorem read (path : String) : Keeps (Run.read path) :=
  of_disk_eq fun s => by rw [Run.final_read]; exact ⟨rfl, rfl⟩

theorem use {x : Run α} {f : α → Run β} (hx : Keeps x)
    (hf : ∀ s a s', x s = .ok a s' → Keeps (f a)) : Keeps (x >>= f) := by
  intro s hs
  show Kept s (EStateM.bind x f s)
  unfold EStateM.bind
  have hfirst := hx s hs
  generalize hr : x s = r at hfirst
  cases hfirst with
  | @ok a s' hkeeps =>
    -- what the second step is said to do is said of the state between the two
    have hsecond := hf s a s' hr s' (hs.of_keepsFiles hkeeps)
    show Kept s (f a s')
    generalize f a s' = r at hsecond
    cases hsecond with
    | ok hkeeps' => exact .ok (hkeeps.trans hkeeps')
    | error hkeeps' => exact .error (hkeeps.trans hkeeps')
    | stopped hleft =>
      obtain ⟨q, text, hidden, hq, htext, hhide, hparse, hmarked, hothers⟩ := hleft
      refine .stopped ⟨q, text, hidden, hq, ?_, hhide, hparse, hmarked,
        (hkeeps.mono fun _ => And.left).trans hothers⟩
      rw [← hkeeps.files q hq, htext]
  | error hkeeps => exact .error hkeeps
  | stopped hleft => exact .stopped hleft

theorem append {path : String}
    (hpath : ∀ (s : Session) (p : Place), s.disk.locate s.home path = .ok p →
    ¬ EndsWith p ".domain") (text : String) :
    Keeps (Run.append path text) := by
  intro s _
  rw [show Run.append path text s = _ from Run.write_eq path (fun p d => d.extend p text) s]
  split
  · exact .error (.refl _ s)
  · next p hp =>
    split
    · exact .error (.refl _ s)
    · rw [Disk.extend_eq_put]
      refine .ok ⟨rfl, rfl, fun q hq => ?_⟩
      rw [Disk.file?_put, if_neg]
      rintro rfl
      exact hpath s q hp hq

end Keeps

theorem log_keeps (w : Workspace) (text : String) : Keeps (log w text) :=
  .append (fun _ _ => Runner.not_endsWith_of_log (by decide)) text

theorem keeps_closed : Closed Keeps :=
  ⟨⟨fun _ => .of_disk_eq fun _ => ⟨rfl, rfl⟩, fun _ => .of_disk_eq fun _ => ⟨rfl, rfl⟩, .use⟩,
    .report, .read⟩

theorem transform_eq {path : String} {f : String → Except Fault String} {q : Place}
    {text new : String} (hread : Run.read path s = .ok text s)
    (hplace : s.disk.locate s.home path = .ok q) (hnew : f text = .ok new) :
    transform path f s =
      if s.disk.isDirectory q then .error (.disk .isDirectory path) s else
        .ok () { s with disk := s.disk.put q new } := by
  have hcreate := Run.write_eq path (fun p d => d.put p new) s
  rw [hplace] at hcreate
  refine (bind_of_ok hread).trans ?_
  rw [hnew]
  exact hcreate

/-- **A domain file is brought back after it was parsed**; a syntax error comes before that. -/
theorem parseDomain_keeps (front : String) : Keeps (parseDomain (front ++ ".domain")) := by
  intro s hs
  cases hread : Run.read (front ++ ".domain") s with
  | error e s' =>
    obtain rfl : s' = s := by
      have hfinal := Run.final_read (front ++ ".domain") s
      rwa [hread] at hfinal
    rw [show parseDomain (front ++ ".domain") s' = .error e s' from bind_of_error
      (bind_of_error hread)]
    exact .error (.refl _ s')
  | ok shown s' =>
    obtain ⟨text, hraw, _⟩ := Run.read_eq_ok.mp hread
    obtain ⟨q, hplace, htext, rfl⟩ := Run.readRaw_eq_ok.mp hraw
    have hq : EndsWith q ".domain" := endsWith_of_locate (by decide) hplace
    obtain ⟨hidden, hhide, hrestore, hfeeds⟩ := (hs q text hq htext).exists_hidden
    have hfirst :=
      transform_eq (Run.read_of_file hplace htext (hs q text hq htext).feeds) hplace hhide
    split at hfirst
    · rw [show parseDomain (front ++ ".domain") s = .error _ s from bind_of_error hfirst]
      exact .error (.refl _ s)
    · next hfile =>
      -- the session between the two changes, in which the file has its marks
      generalize hmarked : { s with disk := s.disk.put q hidden } = s1 at hfirst
      have hdisk1 : s1.disk = s.disk.put q hidden := by rw [← hmarked]
      have hhome1 : s1.home = s.home := by rw [← hmarked]
      have hplace1 : s1.disk.locate s1.home (front ++ ".domain") = .ok q := by
        rw [hdisk1, hhome1]
        exact Disk.locate_congr (show (s.disk.put q hidden).directories =
          s.disk.directories from rfl) hplace
      have htext1 : s1.disk.file? q = some hidden := by
        rw [hdisk1, Disk.file?_put, if_pos rfl]
      have hread1 := Run.read_of_file hplace1 htext1 hfeeds
      have hothers : ∀ p, p ≠ q → s1.disk.file? p = s.disk.file? p := fun p hp => by
        rw [hdisk1, Disk.file?_put, if_neg hp]
      cases hparse : Language.program.parse hidden with
      | error e =>
        have hstop : parseFile (front ++ ".domain") s1 = .error (.refusedText e) s1 := by
          refine (bind_of_ok hread1).trans ?_
          rw [hparse]
          rfl
        rw [show parseDomain (front ++ ".domain") s = .error (.refusedText e) s1 from
          (bind_of_ok hfirst).trans (bind_of_error hstop)]
        exact .stopped ⟨q, text, hidden, hq, htext, hhide, hparse, htext1,
          hhome1, by rw [hdisk1]; rfl, fun p hp => hothers p hp.2⟩
      | ok t =>
        have hgo : parseFile (front ++ ".domain") s1 = .ok t s1 := by
          refine (bind_of_ok hread1).trans ?_
          rw [hparse]
          rfl
        have hback := transform_eq hread1 hplace1 hrestore
        rw [if_neg (by rw [hdisk1]; exact hfile)] at hback
        rw [show parseDomain (front ++ ".domain") s = .ok t _ from
          (bind_of_ok hfirst).trans ((bind_of_ok hgo).trans (bind_of_ok hback))]
        refine .ok ⟨hhome1, by rw [hdisk1]; rfl, fun p _ => ?_⟩
        rw [Disk.file?_put]
        split
        · next hp => rw [hp, htext]
        · next hp => exact hothers p hp

/-- **Growing a forest leaves domain files as they are**, unless one of them is no program. -/
theorem grow_keeps (w : Workspace) (mainFile : String) : Keeps (grow w mainFile) :=
  keeps_closed.grow parseDomain_keeps w (log_keeps w) mainFile

/--
**Domain files after a forest was grown**, with success or not.  If quotation marks come in pairs in
all domain files, and there are neither marks nor carriage returns, then all domain files have the
text that they had, or the run was stopped by one of them that is no program, which has its marks
instead of quotation marks, and all others have the text that they had.
-/
theorem domains_unaltered_or_marked (w : Workspace) (mainFile : String) (s : Session)
    (hdomains : ∀ q text, EndsWith q ".domain" → s.disk.file? q = some text →
      Quotation.Restorable text) :
    (∀ q, EndsWith q ".domain" → (final (grow w mainFile s)).disk.file? q = s.disk.file? q) ∨
      ∃ e s' q text hidden, grow w mainFile s = .error (.refusedText e) s' ∧ EndsWith q ".domain" ∧
        s.disk.file? q = some text ∧ Quotation.hide text = .ok hidden ∧
          Language.program.parse hidden = .error e ∧
        s'.disk.file? q = some hidden ∧ ∀ p, EndsWith p ".domain" → p ≠ q →
          s'.disk.file? p = s.disk.file? p := by
  have hkept := grow_keeps w mainFile s hdomains
  generalize grow w mainFile s = r at hkept
  cases hkept with
  | ok hkeeps => exact .inl hkeeps.files
  | error hkeeps => exact .inl hkeeps.files
  | @stopped e s' hleft =>
    obtain ⟨q, text, hidden, hq, htext, hhide, hparse, hmarked, hothers⟩ := hleft
    exact .inr ⟨e, s', q, text, hidden, rfl, hq, htext, hhide, hparse, hmarked,
      fun p hp hne => hothers.files p ⟨hp, hne⟩⟩

/-- A domain with two quotation marks is no program: the run stops and leaves the domain with marks
in their place. -/
theorem domains_unaltered_or_marked_broken : DomainsRestorable chainSession ∧
    chainSession.disk.file? ["p", "include", "d.domain"] = some "\"\"" ∧
    ∃ e s', grow chainWorkspace "n.pne" chainSession = .error (.refusedText e) s' ∧
      s'.disk.file? ["p", "include", "d.domain"] = some ">-<>-<" := by
  have hfiles : ∀ f ∈ chainSession.disk.files, EndsWith f.1 ".pne" ∨ Quotation.Restorable f.2 := by
    simp only [chainSession, Session.start, forall_mem_cons]
    refine ⟨.inl ⟨["c", "component", "main"], ['m'], rfl⟩,
      .inl ⟨["c", "component", "main"], ['n'], rfl⟩,
      .inl ⟨["p"], ['a'], rfl⟩, .inl ⟨["p"], ['b'], rfl⟩, .inr ⟨?_, ?_, ?_⟩, forall_mem_nil _⟩
    all_goals decide
  have hdomains : DomainsRestorable chainSession := by
    intro q text hq htext
    obtain ⟨f, hf, rfl⟩ := Option.map_eq_some_iff.mp htext
    have hplace : f.1 = q := by simpa using find?_some hf
    rcases hfiles f (mem_of_find?_eq_some hf) with hpne | hrestorable
    · exact absurd (hplace ▸ hpne) (hq.not_of_differ (by decide))
    · exact hrestorable
  have hmarked := chainSession_grown.2
  refine ⟨hdomains, by decide, ?_⟩
  rcases domains_unaltered_or_marked chainWorkspace "n.pne" chainSession hdomains with hsame |
    ⟨e, s', _, _, _, hgrow, -⟩
  · rw [hsame ["p", "include", "d.domain"] ⟨["p", "include"], ['d'], rfl⟩] at hmarked
    exact absurd hmarked (by decide)
  · rw [hgrow] at hmarked
    exact ⟨e, s', hgrow, hmarked⟩

end Forest

end Pathwise
