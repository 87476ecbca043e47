import Pathwise.Proofs.Target.EntryFiles

/-!
# Where the files of nodes lie

The name of a file is put behind the name of the output directory as it was given.

* `Disk.locate_beside`: so a file lies in the directory if a slash ends the directory's name, and
  beside the directory otherwise.
* `Target.IsOn`: which target a node of the topology is.
* `Target.node_eq_ok`: a node has a program and entries, with the ending of its target.
* `Target.write_files`: **when all nodes are written, the directory was emptied, the files of the
  nodes are there, and everything else is as it was.**
-/

namespace Pathwise

open Steps List

variable {front path a last : String}

namespace Disk

variable {d : Disk} {home p q start : Place}

theorem names_slash (dir : String) {name : String} (hname : '/' ∉ name.toList) :
    names (dir ++ "/" ++ name) = names dir ++ [name] := by
  have hlist : (dir ++ "/" ++ name).toList = dir.toList ++ '/' :: name.toList := by
    rw [String.toList_append, String.toList_append, append_assoc]
    rfl
  rw [names, Text.parts, hlist, Text.partsFrom_separator, Text.partsFrom_of_not_mem hname]
  simp [names, Text.parts]

theorem names_append (hfront : front = "" ∨ ∃ dir, front = dir ++ "/") :
    ∃ before, ∀ name : String, '/' ∉ name.toList → names (front ++ name) = before ++ [name] := by
  obtain rfl | ⟨dir, rfl⟩ := hfront
  · refine ⟨[], fun name hname => ?_⟩
    rw [String.empty_append, names, Text.parts, Text.partsFrom_of_not_mem hname]
    simp
  · exact ⟨names dir, fun name hname => names_slash dir hname⟩

theorem locate_eq_ok_iff : d.locate home path = .ok q ↔ path ≠ "" ∧ '\x00' ∉ path.toList ∧
    path.utf8ByteSize < maxPath ∧ d.follow (if path.startsWith "/" then [] else home)
    (names path) = .ok q := by
  rw [locate]
  split
  next hempty => exact ⟨fun h => (by cases h), fun h => absurd (String.isEmpty_iff.mp hempty) h.1⟩
  next hempty =>
  split
  next hnull => exact ⟨fun h => (by cases h), fun h => absurd (contains_iff_mem.mp hnull) h.2.1⟩
  next hnull =>
  split
  next hlong => exact ⟨fun h => (by cases h), fun h => absurd h.2.2.1 (Nat.not_lt.mpr hlong)⟩
  next hshort =>
  refine ⟨fun h => ⟨fun hpath => hempty (String.isEmpty_iff.mpr hpath),
    fun hmem => hnull (contains_iff_mem.mpr hmem), ?_, h⟩, fun h => h.2.2.2⟩
  exact Nat.lt_of_not_le hshort

theorem startsWith_append (ha : a ≠ "") (b : String) :
    (a ++ b).startsWith "/" = a.startsWith "/" := by
  have hlist : a.toList ≠ [] :=
    fun h => ha (String.toList_injective (h.trans String.toList_empty.symm))
  obtain ⟨c, cs, hcs⟩ := exists_cons_of_ne_nil hlist
  rw [Bool.eq_iff_iff, String.startsWith_string_iff, String.startsWith_string_iff,
    String.toList_append, hcs]
  show ['/'] <+: _ ↔ ['/'] <+: _
  simp

theorem follow_beside {before : List String} (ha : d.follow start (before ++ [a]) = .ok p) :
    ∃ place, p = step place a ∧ ∀ b q, d.follow start (before ++ [b]) = .ok q →
      q = step place b := by
  by_cases hbefore : before = []
  · have hlast : ∀ {name : String} {p : Place}, d.follow start ([] ++ [name]) = .ok p →
        p = step start name := by
      intro name p h
      rw [nil_append, follow] at h
      split at h
      · cases h
      · cases h
        rfl
    rw [hbefore] at ha ⊢
    exact ⟨start, hlast ha, fun _ _ hb => hlast hb⟩
  · obtain ⟨place, hplace, hp⟩ := follow_concat_eq_ok hbefore ha
    refine ⟨place, hp, fun b q hb => ?_⟩
    obtain ⟨place', hplace', hq⟩ := follow_concat_eq_ok hbefore hb
    obtain rfl : place = place' := Except.ok.inj (hplace.symm.trans hplace')
    exact hq

/--
**What is written behind the name of a directory.**  `last` is the directory's last name, which is
empty if a slash ends the path.
-/
theorem locate_beside (hfront : front = "" ∨ ∃ dir, front = dir ++ "/") (hlast : '/' ∉ last.toList)
    (hp : d.locate home (front ++ last) = .ok p) : ∃ place, p = step place last ∧
      ∀ name q, IsEnding name → d.locate home (front ++ last ++ name) = .ok q →
        q = place ++ [last ++ name] := by
  obtain ⟨before, hnames⟩ := names_append hfront
  obtain ⟨hne, -, -, hp⟩ := locate_eq_ok_iff.mp hp
  rw [hnames _ hlast] at hp
  obtain ⟨place, hp, hothers⟩ := follow_beside hp
  refine ⟨place, hp, fun name q hname hq => ?_⟩
  have hboth : '/' ∉ (last ++ name).toList := by
    rw [String.toList_append, mem_append, not_or]
    exact ⟨hlast, hname.1⟩
  obtain ⟨-, -, -, hq⟩ := locate_eq_ok_iff.mp hq
  rw [startsWith_append hne, String.append_assoc, hnames _ hboth] at hq
  rw [hothers _ _ hq, step_of_long]
  rw [String.toList_append, length_append]
  exact Nat.lt_add_left _ hname.2

end Disk

namespace Target

open Run

variable {w : Workspace} {headerType output n : String} {topology : Json} {s s' : Session}

variable {t : Target} {u : Unit} {paths paths' : String → Prop}

/-- The node of the topology is one with that target. -/
def IsOn (topology : Json) (n : String) (t : Target) : Prop :=
  ∃ info, topology.part (.str n) = .ok info ∧ info.get "resource" = .ok (.str t.resource)

theorem IsOn.unique {t' : Target} (h : IsOn topology n t) (h' : IsOn topology n t') : t = t' := by
  obtain ⟨info, hinfo, hresource⟩ := h
  obtain ⟨info', hinfo', hresource'⟩ := h'
  cases hinfo.symm.trans hinfo'
  exact eq_of_resource (Json.str.inj (Except.ok.inj (hresource.symm.trans hresource')))

/-- The endings of the files of a node. -/
def fileEndings (t : Target) : List String := [".p4", t.entryEnding]

theorem isEnding_of_mem : ∀ b ∈ t.fileEndings, IsEnding b := by
  cases t <;> decide

/-- A file that was written is there, and all other files are as they were. -/
def Puts (path : String) (s s' : Session) : Prop :=
  ∃ q, s.disk.locate s.home path = .ok q ∧ KeepsFiles (· ≠ q) s s' ∧ (s'.disk.file? q).isSome = true

theorem entryFile_puts {stem : String} (h : entryFile w t n stem s = .ok u s') :
    Puts (stem ++ t.entryEnding) s s' := by
  have hall := h
  obtain ⟨j, s1, hread, h⟩ := bind_eq_ok.mp h
  obtain rfl := readJson_stays hread
  obtain ⟨_, s2, hcreate, h⟩ := bind_eq_ok.mp h
  obtain ⟨q, hq, -, -⟩ := create_eq_ok hcreate
  have hkeeps : KeepsFiles (· ≠ q) s s' :=
    entryFile_leaves w t n stem (fun p hp hne => hne (Except.ok.inj (hp.symm.trans hq))) s u
      s' rfl rfl hall
  -- the last thing that is done is to add to the file
  obtain ⟨text, s3, happend⟩ : ∃ text s3, append (stem ++ t.entryEnding) text s3 = .ok () s' := by
    cases t with
    | software => exact ⟨_, s2, h⟩
    | hardware =>
      obtain ⟨_, s3, _, h⟩ := bind_eq_ok.mp h
      obtain ⟨_, s4, _, h⟩ := bind_eq_ok.mp h
      cases hdraft : Script.entries n j ⟨_, ""⟩ with
      | ok a d =>
        rw [hdraft] at h
        obtain ⟨_, s5, _, h⟩ := bind_eq_ok.mp h
        obtain ⟨_, s6, happend, h⟩ := bind_eq_ok.mp h
        obtain ⟨-, rfl⟩ := pure_eq_ok.mp h
        exact ⟨_, s5, happend⟩
      | error e d =>
        rw [hdraft] at h
        obtain ⟨_, s5, _, h⟩ := bind_eq_ok.mp h
        obtain ⟨_, s6, _, h⟩ := bind_eq_ok.mp h
        exact absurd h throw_ne_ok
  obtain ⟨q', hq', hsame, hfile⟩ := append_eq_ok happend
  obtain rfl : q = q' := Except.ok.inj
    (hq.symm.trans ((hkeeps.locate _ _).mp (hsame.locate.mpr hq')))
  exact ⟨q, hq, hkeeps, by rw [hfile, Option.isSome_some]⟩

/-- The files of the nodes with the names have these paths. -/
def IsFileOf (topology : Json) (output : String) (names : List Json) (path : String) : Prop :=
  ∃ n t, .str n ∈ names ∧ IsOn topology n t ∧ ∃ b ∈ t.fileEndings, path = output ++ n ++ b

/-- The files at the paths are there, and everything else is as it was. -/
structure PutsAll (paths : String → Prop) (s s' : Session) : Prop where
  keeps : KeepsFiles (fun q => ∀ path, paths path → s.disk.locate s.home path ≠ .ok q) s s'
  there : ∀ path, paths path → ∃ q, s.disk.locate s.home path = .ok q ∧
    (s'.disk.file? q).isSome = true

theorem Puts.all (h : Puts path s s') : PutsAll (· = path) s s' := by
  obtain ⟨q, hq, hkeeps, hthere⟩ := h
  refine ⟨hkeeps.mono ?_, ?_⟩
  · rintro _ hne rfl
    exact hne path rfl hq
  · rintro _ rfl
    exact ⟨q, hq, hthere⟩

theorem PutsAll.trans {s'' : Session} (h : PutsAll paths s s') (h' : PutsAll paths' s' s'') :
    PutsAll (fun path => paths path ∨ paths' path) s s'' := by
  have hlocate : ∀ path q, s'.disk.locate s'.home path = .ok q ↔
      s.disk.locate s.home path = .ok q := h.keeps.locate
  refine ⟨(h.keeps.mono fun q hq path hpath => hq path (.inl hpath)).trans
    (h'.keeps.mono fun q hq path hpath => ?_), ?_⟩
  · rw [ne_eq, hlocate]
    exact hq path (.inr hpath)
  · rintro path (hpath | hpath)
    · obtain ⟨q, hq, hthere⟩ := h.there path hpath
      refine ⟨q, hq, ?_⟩
      -- the file may have been written again
      by_cases hagain : ∃ path', paths' path' ∧ s'.disk.locate s'.home path' = .ok q
      · obtain ⟨path', hpath', hq'⟩ := hagain
        obtain ⟨q', hq'', hthere'⟩ := h'.there path' hpath'
        cases hq'.symm.trans hq''
        exact hthere'
      · rw [h'.keeps.files q fun path' hpath' hq' => hagain ⟨path', hpath', hq'⟩]
        exact hthere
    · obtain ⟨q, hq, hthere⟩ := h'.there path hpath
      exact ⟨q, (hlocate path q).mp hq, hthere⟩

theorem PutsAll.congr (h : PutsAll paths s s') (hpaths : ∀ path, paths path ↔ paths' path) :
    PutsAll paths' s s' := by
  obtain rfl : paths = paths' := funext fun path => propext (hpaths path)
  exact h

/-- **A node has a program and entries**, with the ending of its target. -/
theorem node_puts {name : Json} (h : node w headerType output topology name s = .ok u s') :
    ∃ n t, name = .str n ∧ IsOn topology n t ∧
      PutsAll (fun path => ∃ b ∈ t.fileEndings, path = output ++ n ++ b) s s' := by
  cases name with
  | str n =>
    obtain ⟨t, s1, hprogram, hentries⟩ := bind_eq_ok.mp h
    obtain ⟨hinfo, hputs⟩ := program_eq_ok hprogram
    refine ⟨n, t, rfl, hinfo, ((Puts.all hputs).trans (entryFile_puts hentries).all).congr
      fun path => ?_⟩
    simp [fileEndings]
  | _ => exact absurd h throw_ne_ok

/-- **The files of all nodes are written.** -/
theorem nodes_put :
    ∀ (names : List Json) {s s' : Session}
    {u : PUnit}, names.forM (node w headerType output topology) s = .ok u s' →
    (∀ name ∈ names, ∃ n t, name = .str n ∧ IsOn topology n t) ∧
      PutsAll (IsFileOf topology output names) s s' := by
  intro names
  induction names with
  | nil =>
    intro s s' u h
    obtain rfl := forM_nil_eq_ok.mp h
    refine ⟨forall_mem_nil _, .refl _ s, fun path hpath => ?_⟩
    obtain ⟨_, _, hmem, _⟩ := hpath
    cases hmem
  | cons name names ih =>
    intro s s' u h
    obtain ⟨s1, hfirst, hrest⟩ := forM_cons_eq_ok.mp h
    obtain ⟨n, t, rfl, hn, hputs⟩ := node_puts hfirst
    obtain ⟨hnames, hputs'⟩ := ih hrest
    refine ⟨forall_mem_cons.mpr ⟨⟨n, t, rfl, hn⟩, hnames⟩,
      (hputs.trans hputs').congr fun path => ?_⟩
    constructor
    · rintro (⟨b, hb, rfl⟩ | ⟨n', t', hmem, hpath⟩)
      · exact ⟨n, t, mem_cons_self, hn, b, hb, rfl⟩
      · exact ⟨n', t', mem_cons_of_mem _ hmem, hpath⟩
    · rintro ⟨n', t', hmem, hon, b, hb, rfl⟩
      rcases mem_cons.mp hmem with heq | hmem
      · cases heq
        cases hn.unique hon
        exact .inl ⟨b, hb, rfl⟩
      · exact .inr ⟨n', t', hmem, hon, b, hb, rfl⟩

/--
**What writing leaves.**  The output directory is emptied, the files of all nodes are there, and
everything else is as it was.
-/
theorem write_files {directory : String} (h : write w headerType directory topology s = .ok u s') :
    ∃ p names, topology.items = .ok names ∧ s.disk.locate s.home directory = .ok p ∧
      s.disk.isDirectory p = true ∧
      (∀ name ∈ names, ∃ n t, name = .str n ∧ IsOn topology n t) ∧
        KeepsFiles (fun _ => False) s s' ∧
      (∀ path, IsFileOf topology directory names path →
        ∃ q, s.disk.locate s.home path = .ok q ∧ (s'.disk.file? q).isSome = true) ∧
      ∀ q, (∀ path, IsFileOf topology directory names path → s.disk.locate s.home path ≠ .ok q) →
        s'.disk.file? q = if q.dropLast = p ∧ q ≠ [] then none else s.disk.file? q := by
  obtain ⟨_, s1, hremove, h⟩ := bind_eq_ok.mp h
  obtain ⟨names, hnames, h⟩ := bind_mismatch_eq_ok.mp h
  obtain ⟨p, hp, hdir, hhome, hdirs, hfiles⟩ := removeFilesIn_eq_ok hremove
  obtain ⟨hall, hkeeps, hthere⟩ := nodes_put names h
  have hremoved : KeepsFiles (fun _ => False) s s1 := ⟨hhome, hdirs, fun _ hq => hq.elim⟩
  refine ⟨p, names, hnames, hp, hdir, hall, hremoved.trans (hkeeps.mono fun _ hq => hq.elim),
    fun path hpath => ?_, fun q hq => ?_⟩
  · obtain ⟨q, hq, hfile⟩ := hthere path hpath
    exact ⟨q, (hremoved.locate _ _).mp hq, hfile⟩
  · rw [hkeeps.files q fun path hpath hlocate => hq path hpath ((hremoved.locate _ _).mp hlocate),
      hfiles q]

/-- The place is that of a file of a node: in `place`, and with a name that begins with `last`. -/
def IsPlaceOf (topology : Json) (names : List Json) (place : Place) (last : String)
    (q : Place) : Prop :=
  ∃ n t, .str n ∈ names ∧ IsOn topology n t ∧ ∃ b ∈ t.fileEndings, q = place ++ [last ++ n ++ b]

/--
**Where the files of nodes lie**, for names without slashes.  `last` is the last name of the output
directory and `place` where it lies; if a slash ends the path, `last` is empty and `place` is the
directory itself.
-/
theorem write_placed (hfront : front = "" ∨ ∃ dir, front = dir ++ "/") (hlast : '/' ∉ last.toList)
    (h : write w headerType (front ++ last) topology s = .ok u s') :
    ∃ p place names, topology.items = .ok names ∧ s.disk.locate s.home (front ++ last) = .ok p ∧
      s.disk.isDirectory p = true ∧
      p = Disk.step place last ∧ (∀ name ∈ names, ∃ n t, name = .str n ∧ IsOn topology n t) ∧
        KeepsFiles (fun _ => False) s s' ∧
      ((∀ n, .str n ∈ names → '/' ∉ n.toList) →
        (∀ n t b, .str n ∈ names → IsOn topology n t → b ∈ t.fileEndings →
          s.disk.locate s.home (front ++ last ++ n ++ b) = .ok (place ++ [last ++ n ++ b])) ∧
        (∀ q, IsPlaceOf topology names place last q → (s'.disk.file? q).isSome = true) ∧
        ∀ q, ¬ IsPlaceOf topology names place last q →
          s'.disk.file? q = if q.dropLast = p ∧ q ≠ [] then none else s.disk.file? q) := by
  obtain ⟨p, names, hnames, hp, hdir, hall, hkeeps, hthere, hothers⟩ := write_files h
  obtain ⟨place, hplace, hbeside⟩ := Disk.locate_beside hfront hlast hp
  refine ⟨p, place, names, hnames, hp, hdir, hplace, hall, hkeeps, fun hslash => ?_⟩
  have hfile : ∀ {n t b q}, .str n ∈ names → b ∈ fileEndings t →
      s.disk.locate s.home (front ++ last ++ n ++ b) = .ok q →
      q = place ++ [last ++ n ++ b] := by
    intro n t b q hn hb hq
    rw [String.append_assoc] at hq
    rw [hbeside _ _ (.append (hslash n hn) (isEnding_of_mem b hb)) hq, String.append_assoc]
  have hlocate : ∀ {n t b}, .str n ∈ names → IsOn topology n t → b ∈ t.fileEndings →
      s.disk.locate s.home (front ++ last ++ n ++ b) = .ok (place ++ [last ++ n ++ b]) ∧
        (s'.disk.file? (place ++ [last ++ n ++ b])).isSome = true := by
    intro n t b hn ht hb
    obtain ⟨q, hq, hfound⟩ := hthere _ ⟨n, t, hn, ht, b, hb, rfl⟩
    rw [← hfile hn hb hq]
    exact ⟨hq, hfound⟩
  refine ⟨fun n t b hn ht hb => (hlocate hn ht hb).1, ?_, fun q hq => hothers q ?_⟩
  · rintro q ⟨n, t, hn, ht, b, hb, rfl⟩
    exact (hlocate hn ht hb).2
  · rintro _ ⟨n, t, hn, ht, b, hb, rfl⟩ hlocated
    exact hq ⟨n, t, hn, ht, b, hb, hfile hn hb hlocated⟩

end Target

end Pathwise
