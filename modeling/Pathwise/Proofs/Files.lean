import Pathwise.Draft
import Pathwise.Proofs.Session
import Pathwise.Workspace

/-!
# Files that are left alone

Most steps of a run write files of a few kinds, which are told apart by how their names end, and
leave all others alone.

* `Disk.locate_inside`: a path into a directory leads to a file of that name in the directory.
* `EndsWith.not_of_differ`: no name ends in two ways that differ.
* `KeepsFiles keep s s'`: the sessions have the same files at the places of `keep`.
* `Run.Leaves keep s₀ x`: in the directories of `s₀`, the step `x` leaves the files at the places of
  `keep` alone.
-/

namespace Pathwise

open Steps List

variable {name b' path : String} {s s' : Session}

/-! ### Names in a directory -/

theorem Text.partsFrom_separator (separator : Char) (xs ys current : List Char) :
    partsFrom separator current (xs ++ separator :: ys) = partsFrom separator current xs ++
      partsFrom separator [] ys := by
  induction xs generalizing current with
  | nil => simp [partsFrom]
  | cons c xs ih =>
    rw [cons_append, partsFrom, partsFrom]
    split
    · rw [ih, cons_append]
    · exact ih (c :: current)

theorem Text.partsFrom_ne_nil (separator : Char) (current xs : List Char) :
    partsFrom separator current xs ≠ [] := by
  induction xs generalizing current with
  | nil => exact cons_ne_nil _ _
  | cons c xs ih =>
    rw [partsFrom]
    split
    · exact cons_ne_nil _ _
    · exact ih (c :: current)

namespace Disk

variable {d : Disk} {home p q : Place}

theorem follow_concat_eq_ok {names : List String} (hnames : names ≠ [])
    (h : d.follow p (names ++ [name]) = .ok q) : ∃ p', d.follow p names = .ok p' ∧
      q = step p' name := by
  induction names generalizing p with
  | nil => exact absurd rfl hnames
  | cons first rest ih =>
    cases rest with
    | nil =>
      rw [cons_append, nil_append, follow_cons_cons] at h
      split at h
      · cases h
      · next hlong =>
        split at h
        · rw [follow] at h
          split at h
          · cases h
          · cases h
            refine ⟨step p first, ?_, rfl⟩
            rw [follow, if_neg hlong]
        · split at h <;> cases h
    | cons second tail =>
      rw [cons_append, cons_append, follow_cons_cons, ← cons_append] at h
      rw [follow_cons_cons]
      split at h
      · cases h
      · next hlong =>
        rw [if_neg hlong]
        split at h
        · next hstep =>
          rw [if_pos hstep]
          exact ih (cons_ne_nil _ _) h
        · split at h <;> cases h

/-- **A path into a directory leads to a place in the directory.** -/
theorem locate_inside {dir : String} (hdir : dir ≠ "") (hslash : '/' ∉ name.toList)
    (hlong : 2 < name.toList.length) (h : d.locate home (dir ++ "//" ++ name) = .ok q) :
    ∃ p, d.locate home dir = .ok p ∧ q = p ++ [name] := by
  have hlist : (dir ++ "//" ++ name).toList = dir.toList ++ '/' :: ([] ++ '/' :: name.toList) := by
    rw [String.toList_append, String.toList_append, append_assoc]
    rfl
  have hdirList : dir.toList ≠ [] :=
    fun h => hdir (String.toList_injective (h.trans String.toList_empty.symm))
  have hnames : names (dir ++ "//" ++ name) = names dir ++ [""] ++ [name] := by
    rw [names, names, Text.parts, Text.parts, hlist, Text.partsFrom_separator,
      Text.partsFrom_separator, Text.partsFrom_of_not_mem hslash]
    simp [Text.partsFrom]
  have hstart : (dir ++ "//" ++ name).startsWith "/" = dir.startsWith "/" := by
    obtain ⟨c, cs, hcs⟩ := exists_cons_of_ne_nil hdirList
    rw [Bool.eq_iff_iff, String.startsWith_string_iff, String.startsWith_string_iff, hlist, hcs]
    show ['/'] <+: _ ↔ ['/'] <+: _
    simp
  unfold locate at h
  split at h
  · cases h
  split at h
  · cases h
  next hnull =>
  split at h
  · cases h
  next hshort =>
  rw [hnames, hstart] at h
  obtain ⟨p1, h1, rfl⟩ := follow_concat_eq_ok (by simp) h
  obtain ⟨p, h2, hp1⟩ := follow_concat_eq_ok (Text.partsFrom_ne_nil _ _ _) h1
  refine ⟨p, ?_, ?_⟩
  · have hempty : ¬ dir.isEmpty = true := by simpa [String.isEmpty_iff] using hdir
    have hnull' : ¬ dir.toList.contains '\x00' = true := by
      intro hmem
      refine hnull ?_
      rw [hlist]
      simp only [contains_eq_mem, decide_eq_true_eq] at hmem ⊢
      exact mem_append_left _ hmem
    have hshort' : ¬ maxPath ≤ dir.utf8ByteSize := by
      rw [String.utf8ByteSize_append, String.utf8ByteSize_append] at hshort
      omega
    rw [locate, if_neg hempty, if_neg hnull', if_neg hshort']
    exact h2
  · rw [hp1, step_of_long hlong]
    rfl

theorem file?_removeFile (d : Disk) (p q : Place) : (d.removeFile p).file? q = if q = p then none
    else d.file? q := by
  rw [file?, removeFile, find?_filter]
  split
  · next hq =>
    rw [Option.map_eq_none_iff, find?_eq_none]
    rintro ⟨r, t⟩ _
    simp [hq]
  · next hq =>
    rw [file?]
    congr 2
    funext f
    by_cases hf : f.1 = q
    · simp [hf, hq]
    · simp [hf]

theorem foldl_removeFile (ps : List Place) (d : Disk) :
    (ps.foldl removeFile d).directories = d.directories ∧
    ∀ q, (ps.foldl removeFile d).file? q = if q ∈ ps then none else d.file? q := by
  induction ps generalizing d with
  | nil => exact ⟨rfl, fun q => by rw [if_neg not_mem_nil]; rfl⟩
  | cons p ps ih =>
    refine ⟨(ih (d.removeFile p)).1, fun q => ?_⟩
    rw [foldl_cons, (ih (d.removeFile p)).2 q, file?_removeFile]
    by_cases hp : q = p
    · simp [hp]
    · simp [hp]

end Disk

variable {a b node part : String} {q : Place} {s : Session} {w : Workspace}

/-! ### Endings of names -/

/-- The name at the place ends so. -/
def EndsWith (q : Place) (ending : String) : Prop :=
  ∃ front last, q = front ++ [String.ofList (last ++ ending.toList)]

/-- Neither of the endings is the end of the other one. -/
abbrev Differ (b b' : String) : Prop :=
  ¬ b.toList <:+ b'.toList ∧ ¬ b'.toList <:+ b.toList

/-- An ending that is part of a name. -/
abbrev IsEnding (b : String) : Prop :=
  '/' ∉ b.toList ∧ 2 < b.toList.length

theorem IsEnding.append (ha : '/' ∉ a.toList) (hb : IsEnding b) : IsEnding (a ++ b) := by
  rw [IsEnding, String.toList_append, mem_append, length_append, not_or]
  exact ⟨⟨ha, hb.1⟩, Nat.lt_add_left _ hb.2⟩

theorem endsWith_of_locate {d : Disk} {home : Place} (hb : IsEnding b)
    (h : d.locate home (a ++ b) = .ok q) : EndsWith q b :=
  Disk.locate_append hb.1 hb.2 h

/-- **No name ends in two ways that differ.** -/
theorem EndsWith.not_of_differ (h : EndsWith q b) (hdiffer : Differ b b') : ¬ EndsWith q b' := by
  rintro ⟨front', last', heq⟩
  obtain ⟨front, last, rfl⟩ := h
  have hname := congrArg List.getLast? heq
  rw [getLast?_concat, getLast?_concat, Option.some.injEq, String.ofList_inj] at hname
  rcases suffix_or_suffix_of_suffix (suffix_append last b.toList)
    (hname ▸ suffix_append last' b'.toList) with h | h
  · exact hdiffer.1 h
  · exact hdiffer.2 h

theorem endsWith_of_text {k : TextKey}
    (h : s.disk.locate s.home (w.componentFile k.fileName) = .ok q) : EndsWith q k.kind.ending := by
  rw [Workspace.componentFile, TextKey.fileName, ← String.append_assoc] at h
  refine endsWith_of_locate ?_ h
  cases k.kind <;> decide

theorem endsWith_of_code {ending : String} (hpart : "_" ++ part = ending)
    (hending : IsEnding ending) (h : s.disk.locate s.home (w.codeFile node part) = .ok q) :
    EndsWith q ending := by
  rw [Workspace.codeFile, String.append_assoc, hpart] at h
  exact endsWith_of_locate hending h

theorem eq_of_code {node' : String} (hnode : '/' ∉ node.toList)
    (hnode' : '/' ∉ node'.toList) (hpart : IsEnding part)
    (h : s.disk.locate s.home (w.codeFile node part) = .ok q)
    (h' : s.disk.locate s.home (w.codeFile node' part) = .ok q) : node = node' := by
  have hname : ∀ {node : String}, '/' ∉ node.toList → IsEnding (node ++ ("_" ++ part)) :=
    fun hnode => .append hnode (.append (by decide) hpart)
  rw [Workspace.codeFile, String.append_assoc, String.append_assoc] at h h'
  have hlist := congrArg String.toList (Disk.eq_of_locate (hname hnode) (hname hnode') h h')
  rw [String.toList_append (s := node), String.toList_append (s := node'),
    append_cancel_right_eq] at hlist
  exact String.toList_injective hlist

/-! ### Sessions with the same files -/

/-- The sessions have the same directories, and the same files at the places of `keep`. -/
structure KeepsFiles (keep : Place → Prop) (s s' : Session) : Prop where
  home : s'.home = s.home
  directories : s'.disk.directories = s.disk.directories
  files : ∀ q, keep q → s'.disk.file? q = s.disk.file? q

namespace KeepsFiles

variable {keep keep' : Place → Prop} {s s' s'' : Session}

theorem refl (keep : Place → Prop) (s : Session) : KeepsFiles keep s s :=
  ⟨rfl, rfl, fun _ _ => rfl⟩

theorem trans (h : KeepsFiles keep s s') (h' : KeepsFiles keep s' s'') : KeepsFiles keep s s'' :=
  ⟨h'.home.trans h.home, h'.directories.trans h.directories,
    fun q hq => (h'.files q hq).trans (h.files q hq)⟩

theorem mono (h : KeepsFiles keep s s') (hkeep : ∀ q, keep' q → keep q) : KeepsFiles keep' s s' :=
  ⟨h.home, h.directories, fun q hq => h.files q (hkeep q hq)⟩

theorem locate (h : KeepsFiles keep s s') (path : String) (q : Place) :
    s'.disk.locate s'.home path = .ok q ↔ s.disk.locate s.home path = .ok q := by
  rw [h.home]
  exact ⟨Disk.locate_congr h.directories.symm, Disk.locate_congr h.directories⟩

theorem read_eq_ok (h : KeepsFiles keep s s') {text : String}
    (hpath : ∀ q, s.disk.locate s.home path = .ok q → keep q) :
    Run.read path s' = .ok text s' ↔ Run.read path s = .ok text s := by
  simp only [Run.read_eq_ok, Run.readRaw_eq_ok, h.locate, and_true]
  refine exists_congr fun raw => and_congr_left fun _ => exists_congr fun q =>
    and_congr_right fun hq => ?_
  rw [h.files q (hpath q hq)]

theorem readJson_eq_ok (h : KeepsFiles keep s s') {j : Json}
    (hpath : ∀ q, s.disk.locate s.home path = .ok q → keep q) :
    Run.readJson path s' = .ok j s' ↔ Run.readJson path s = .ok j s := by
  rw [Run.readJson_eq_ok, Run.readJson_eq_ok]
  exact exists_congr fun text => and_congr_left fun _ => h.read_eq_ok hpath

theorem of_sameBut {q : Place} (h : SameBut q s s') : KeepsFiles (· ≠ q) s s' :=
  ⟨h.home, h.directories, h.files⟩

end KeepsFiles

namespace Run

variable {keep : Place → Prop} {s₀ : Session} {α β : Type}

/-- In the directories of `s₀`, the step leaves the files at the places of `keep` alone. -/
def Leaves (keep : Place → Prop) (s₀ : Session) (x : Run α) : Prop :=
  ∀ s a s', s.home = s₀.home → s.disk.directories = s₀.disk.directories → x s = .ok a s' →
    KeepsFiles keep s s'

namespace Leaves

theorem of_disk_eq {x : Run α}
    (hx : ∀ s a s', x s = .ok a s' → s'.home = s.home ∧ s'.disk = s.disk) : Leaves keep s₀ x := by
  intro s a s' _ _ h
  obtain ⟨hhome, hdisk⟩ := hx s a s' h
  exact ⟨hhome, by rw [hdisk], fun q _ => by rw [hdisk]⟩

theorem sequential : Sequential (Leaves keep s₀) where
  pure a := of_disk_eq fun _ _ _ h => by
    obtain ⟨_, rfl⟩ := pure_eq_ok.mp h
    exact ⟨rfl, rfl⟩
  throw e _ _ _ _ _ h := absurd h throw_ne_ok
  use hx hf s b s' hhome hdirs h := by
    obtain ⟨a, s1, h1, h2⟩ := bind_eq_ok.mp h
    have hkeeps := hx s a s1 hhome hdirs h1
    exact hkeeps.trans (hf s a s1 h1 s1 b s' (hkeeps.home.trans hhome)
      (hkeeps.directories.trans hdirs) h2)

theorem pure (a : α) : Leaves keep s₀ (pure a) :=
  sequential.pure a

theorem bind {x : Run α} {f : α → Run β} (hx : Leaves keep s₀ x) (hf : ∀ a, Leaves keep s₀ (f a)) :
    Leaves keep s₀ (x >>= f) :=
  sequential.bind hx hf

theorem get : Leaves keep s₀ (get : Run Session) :=
  of_disk_eq fun _ _ _ h => by
    obtain ⟨_, rfl⟩ := get_eq_ok.mp h
    exact ⟨rfl, rfl⟩

theorem report (x : Report α) : Leaves keep s₀ (liftM x : Run α) :=
  of_disk_eq fun _ _ _ h => by
    obtain ⟨_, _, rfl⟩ := report_eq_ok.mp h
    exact ⟨rfl, rfl⟩

theorem print (text : String) : Leaves keep s₀ (print text) :=
  of_disk_eq fun _ _ _ h => by
    obtain rfl := modify_eq_ok.mp h
    exact ⟨rfl, rfl⟩

theorem update {f : Session → Session} (hf : ∀ s, (f s).home = s.home ∧ (f s).disk = s.disk) :
    Leaves keep s₀ (modify f : Run PUnit) :=
  of_disk_eq fun s _ _ h => by
    obtain rfl := modify_eq_ok.mp h
    exact hf s

theorem read (path : String) : Leaves keep s₀ (read path) :=
  of_disk_eq fun _ _ _ h => by
    obtain rfl := read_stays h
    exact ⟨rfl, rfl⟩

theorem readJson (path : String) : Leaves keep s₀ (readJson path) :=
  of_disk_eq fun _ _ _ h => by
    obtain rfl := readJson_stays h
    exact ⟨rfl, rfl⟩

theorem write (change : Place → Disk → Disk)
    (hchange : ∀ p d, (change p d).directories = d.directories ∧ ∀ q, q ≠ p →
      (change p d).file? q = d.file? q)
    (hpath : ∀ p, s₀.disk.locate s₀.home path = .ok p → ¬ keep p) :
    Leaves keep s₀ (do let p ← locateForWriting path; modify fun s => { s with
      disk := change p s.disk }) := by
  intro s a s' hhome hdirs h
  obtain ⟨p, s1, hwrite, h⟩ := bind_eq_ok.mp h
  obtain ⟨hplace, rfl⟩ := locateForWriting_eq_ok hwrite
  obtain rfl := modify_eq_ok.mp h
  refine ⟨rfl, (hchange p _).1, fun q hq => (hchange p _).2 q ?_⟩
  rintro rfl
  rw [hhome] at hplace
  exact hpath q (Disk.locate_congr hdirs.symm hplace) hq

theorem create (hpath : ∀ p, s₀.disk.locate s₀.home path = .ok p → ¬ keep p) (text : String) :
    Leaves keep s₀ (create path text) := by
  refine write (fun p d => d.put p text) (fun p d => ⟨rfl, fun q hq => ?_⟩) hpath
  rw [Disk.file?_put, if_neg hq]

theorem append (hpath : ∀ p, s₀.disk.locate s₀.home path = .ok p → ¬ keep p) (text : String) :
    Leaves keep s₀ (append path text) := by
  refine write (fun p d => d.extend p text) (fun p d => ⟨?_, fun q hq => ?_⟩) hpath
  · rw [Disk.extend_eq_put]
    rfl
  · rw [Disk.extend_eq_put, Disk.file?_put, if_neg hq]

theorem draft (hpath : ∀ p, s₀.disk.locate s₀.home path = .ok p → ¬ keep p) (x : Drafting α) :
    Leaves keep s₀ (draft path x) := by
  refine bind (append hpath "") fun _ => bind get fun s => ?_
  split
  · exact bind (update fun _ => ⟨rfl, rfl⟩) fun _ => bind (append hpath _) fun _ => pure _
  · exact bind (update fun _ => ⟨rfl, rfl⟩) fun _ => bind (append hpath _) fun _ =>
      sequential.throw _

end Leaves

theorem directory_eq_ok {p : Place} :
    directory path s = .ok p s' ↔ s.disk.locate s.home path = .ok p ∧
      s.disk.isDirectory p = true ∧ s = s' := by
  constructor
  · intro h
    obtain ⟨p', s2, hlocate, h⟩ := bind_eq_ok.mp h
    obtain ⟨hplace, rfl⟩ := locate_eq_ok.mp hlocate
    rw [get_bind] at h
    split at h
    next hdirectory =>
      obtain ⟨rfl, rfl⟩ := pure_eq_ok.mp h
      exact ⟨hplace, hdirectory, rfl⟩
    next => exact absurd h throw_ne_ok
  · rintro ⟨hplace, hdirectory, rfl⟩
    rw [directory, bind_of_ok (locate_eq_ok.mpr ⟨hplace, rfl⟩),
      bind_of_ok (get_eq_ok.mpr ⟨rfl, rfl⟩), if_pos hdirectory]
    rfl

theorem removeFilesIn_eq_ok {u : Unit} (h : removeFilesIn path s = .ok u s') :
    ∃ p, s.disk.locate s.home path = .ok p ∧ s.disk.isDirectory p = true ∧ s'.home = s.home ∧
      s'.disk.directories = s.disk.directories ∧
      ∀ q, s'.disk.file? q = if q.dropLast = p ∧ q ≠ [] then none else s.disk.file? q := by
  obtain ⟨p, s1, hdir, h⟩ := bind_eq_ok.mp h
  obtain rfl := modify_eq_ok.mp h
  obtain ⟨hplace, hdirectory, rfl⟩ := directory_eq_ok.mp hdir
  refine ⟨p, hplace, hdirectory, rfl, (Disk.foldl_removeFile _ _).1, fun q => ?_⟩
  rw [(Disk.foldl_removeFile _ _).2 q]
  by_cases hq : q.dropLast = p ∧ q ≠ []
  · rw [if_pos hq]
    split
    · rfl
    · next hmem =>
      rw [Disk.file?, Option.map_eq_none_iff, find?_eq_none]
      rintro ⟨r, t⟩ hr hrq
      refine hmem (mem_map.mpr ⟨(r, t), mem_filter.mpr ⟨hr, ?_⟩, of_decide_eq_true hrq⟩)
      simp only [decide_eq_true_eq] at hrq
      simpa [hrq] using hq
  · rw [if_neg hq, if_neg]
    intro hmem
    obtain ⟨f, hf, rfl⟩ := mem_map.mp hmem
    refine hq ?_
    simpa using (mem_filter.mp hf).2

theorem not_endsWith {a b : String} (hb : IsEnding b) (hdiffer : Differ b b') (p : Place)
    (h : s₀.disk.locate s₀.home (a ++ b) = .ok p) : ¬ EndsWith p b' :=
  (endsWith_of_locate hb h).not_of_differ hdiffer

end Run

end Pathwise
