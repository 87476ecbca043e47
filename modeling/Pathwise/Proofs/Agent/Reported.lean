import Pathwise.Proofs.Agent.Tasks
import Pathwise.Proofs.Compile.Deployed

/-!
# What the agent reports

A completed task comes with a list of what lies in the output directory.

* `Serving.mem_products`: the list holds the names in the directory that end as programs or as
  entries of software switches do.
* `Serving.completed_of_perform`: a task is completed only by a compilation that succeeded.
* `Serving.mem_completed`: **the list holds the files of nodes that lie in the directory**, and
  subdirectories that are named like such files.

The files of nodes lie in the output directory if a slash ends its name.  Then programs are listed,
and so are entries of software switches, but those of hardware switches never are.  Without the
slash all files lie beside the directory, and none is listed.
-/

namespace Pathwise

open Steps List

theorem String.endsWith_iff (s ending : String) : s.endsWith ending = true ↔
    ending.toList <:+ s.toList := by
  rw [String.endsWith_eq_endsWith_toSlice, String.Slice.endsWith_string_iff]
  simp

theorem Disk.exists_split (path : String) :
    ∃ front last, path = front ++ last ∧ (front = "" ∨ ∃ dir, front = dir ++ "/") ∧
      '/' ∉ last.toList := by
  by_cases hslash : '/' ∈ path.toList
  · obtain ⟨after, before, heq, hafter⟩ := eq_append_cons_of_mem (mem_reverse.mpr hslash)
    have hpath : path.toList = before.reverse ++ ['/'] ++ after.reverse := by
      rw [← reverse_reverse path.toList, heq]
      simp
    refine ⟨String.ofList before.reverse ++ "/", String.ofList after.reverse,
      String.toList_injective ?_, .inr ⟨_, rfl⟩, ?_⟩
    · rw [String.toList_append, String.toList_append, String.toList_ofList,
        String.toList_ofList (l := after.reverse), hpath]
      rfl
    · rw [String.toList_ofList, mem_reverse]
      exact hafter
  · exact ⟨"", path, String.empty_append.symm, .inl rfl, hslash⟩

namespace Disk

variable {d : Disk} {p : Place}

theorem mem_filesIn {q : Place} : q ∈ d.filesIn p ↔ q.dropLast = p ∧ q ≠ [] ∧
    (d.file? q).isSome = true := by
  simp only [filesIn, file?, mem_map, mem_filter, Option.isSome_map, find?_isSome]
  constructor
  · rintro ⟨f, ⟨hf, hp⟩, rfl⟩
    simp only [Bool.and_eq_true, decide_eq_true_eq, Bool.not_eq_true', isEmpty_eq_false_iff] at hp
    exact ⟨hp.1, hp.2, f, hf, by simp⟩
  · rintro ⟨hp, hne, f, hf, hq⟩
    obtain rfl : f.1 = q := by simpa using hq
    exact ⟨f, ⟨hf, by simpa using ⟨hp, hne⟩⟩, rfl⟩

theorem mem_directoriesIn {q : Place} : q ∈ d.directoriesIn p ↔ q.dropLast = p ∧ q ≠ [] ∧
    d.isDirectory q = true := by
  simp only [directoriesIn, isDirectory, List.mem_filter, Bool.and_eq_true, decide_eq_true_eq,
    Bool.not_eq_true', Bool.or_eq_true, List.contains_iff_mem, List.isEmpty_iff,
    List.isEmpty_eq_false_iff]
  constructor
  · rintro ⟨hq, hp, hne⟩
    exact ⟨hp, hne, .inr hq⟩
  · rintro ⟨hp, hne, hq⟩
    exact ⟨hq.resolve_left hne, hp, hne⟩

theorem eq_concat_iff {q : Place} {x : String} : q.dropLast = p ∧ q.getLast? = some x ↔
    q = p ++ [x] := by
  constructor
  · rintro ⟨rfl, hx⟩
    exact (dropLast_append_getLast? x hx).symm
  · rintro rfl
    simp

end Disk

namespace Agent.Serving

variable {d d' : Desk} {id : String} {t : Task} {o : Outcome} {s s' : Session} {p : Place}

variable {a b directory : String} {topology : Json} {names : List Json} {runner : Runner}

theorem isProduct_iff {name : String} :
    isProduct name = true ↔ ".p4".toList <:+ name.toList ∨
      "_entry.json".toList <:+ name.toList := by
  rw [isProduct, Bool.or_eq_true, String.endsWith_iff, String.endsWith_iff]

theorem not_isProduct (hp4 : Differ b ".p4") (hentry : Differ b "_entry.json") :
    isProduct (a ++ b) = false := by
  have hb : b.toList <:+ (a ++ b).toList := by
    rw [String.toList_append]
    exact suffix_append _ _
  rw [← Bool.not_eq_true, isProduct_iff]
  rintro (h | h)
  · exact (suffix_or_suffix_of_suffix hb h).elim hp4.1 hp4.2
  · exact (suffix_or_suffix_of_suffix hb h).elim hentry.1 hentry.2

theorem isProduct_append (hb : b = ".p4" ∨ b = "_entry.json") : isProduct (a ++ b) = true := by
  rw [isProduct_iff, String.toList_append]
  rcases hb with rfl | rfl
  · exact .inl (suffix_append _ _)
  · exact .inr (suffix_append _ _)

theorem exists?_eq (path : String) (s : Session) : ∃ there, Run.exists? path s = .ok there s ∧
    ∀ p, s.disk.locate s.home path = .ok p → s.disk.isDirectory p = true → there = true := by
  obtain ⟨file, hfile⟩ : ∃ file, Run.isFile path s = .ok file s := by
    rw [Run.isFile, bind_of_ok (get_eq_ok.mpr ⟨rfl, rfl⟩)]
    cases s.disk.locate s.home path <;> exact ⟨_, rfl⟩
  rw [Run.exists?, bind_of_ok hfile, bind_of_ok (Deploy.isDirectory_eq path s)]
  refine ⟨_, rfl, fun p hp hdir => ?_⟩
  rw [hp]
  exact Bool.or_eq_true_iff.mpr (.inr hdir)

theorem products_eq (hp : s.disk.locate s.home directory = .ok p)
    (hdir : s.disk.isDirectory p = true) :
    ∃ log, products directory s = .ok ⟨directory,
      (((s.disk.filesIn p ++ s.disk.directoriesIn p).filterMap List.getLast?).filter
      isProduct).mergeSort fun a b => decide (a ≤ b), log⟩ s := by
  obtain ⟨there, hthere, hdirectory⟩ := exists?_eq directory s
  obtain rfl := hdirectory p hp hdir
  obtain ⟨log, hlog, -⟩ := exists?_eq (fileIn directory "log.txt") s
  have hnames : namesIn directory s =
      .ok ((s.disk.filesIn p ++ s.disk.directoriesIn p).filterMap List.getLast?) s := by
    rw [namesIn, bind_of_ok hthere, if_pos rfl,
      bind_of_ok (Run.directory_eq_ok.mpr ⟨hp, hdir, rfl⟩)]
    exact bind_of_ok (get_eq_ok.mpr ⟨rfl, rfl⟩)
  rw [products, bind_of_ok hnames]
  exact ⟨_, bind_of_ok hlog⟩

theorem mem_products (h : products directory s = .ok o s')
    (hp : s.disk.locate s.home directory = .ok p) (hdir : s.disk.isDirectory p = true)
    (x : String) :
    x ∈ o.files ↔ isProduct x = true ∧
      ((s.disk.file? (p ++ [x])).isSome = true ∨ s.disk.isDirectory (p ++ [x]) = true) := by
  obtain ⟨log, hproducts⟩ := products_eq hp hdir
  cases hproducts.symm.trans h
  rw [mem_mergeSort, mem_filter, and_comm, mem_filterMap]
  refine and_congr_right fun _ => ?_
  simp only [mem_append, Disk.mem_filesIn, Disk.mem_directoriesIn]
  constructor
  · rintro ⟨q, ⟨hq, -, hfile⟩ | ⟨hq, -, hdirectory⟩, hx⟩
    · exact .inl (Disk.eq_concat_iff.mp ⟨hq, hx⟩ ▸ hfile)
    · exact .inr (Disk.eq_concat_iff.mp ⟨hq, hx⟩ ▸ hdirectory)
  · obtain ⟨hq, hx⟩ := Disk.eq_concat_iff.mpr (rfl : p ++ [x] = p ++ [x])
    rintro (hfile | hdirectory)
    · exact ⟨p ++ [x], .inl ⟨hq, by simp, hfile⟩, hx⟩
    · exact ⟨p ++ [x], .inr ⟨hq, by simp, hdirectory⟩, hx⟩

theorem completed_of_perform (hfound : d.tasks.find? id = some t)
    (hperform : perform id d = .ok () d') (hdone : d'.tasks.find? id = some ⟨t.job, .completed o⟩) :
    ∃ runner r path, runnerOf d t.job = .ok runner ∧
      Runner.run t.job.onlyProgram false false runner = .ok () r ∧
      pathOf t.job.outputDir = .ok path ∧ products path r.session = .ok o r.session ∧
        d'.session = r.session := by
  rw [perform_eq hfound] at hperform
  have hends := compile_ends d id t.job
  have hfailed : ∀ {e : Refusal} {s : Session} {stage : Stage},
      (if e.isExit then EStateM.Result.error e (d.noted s id stage)
      else .ok () ((d.noted s id stage).noted (d.noted s id stage).session id
        (.failed e.message))) ≠ .ok () d' := by
    intro e s stage heq
    split at heq
    · cases heq
    · cases heq
      rw [Desk.noted_noted, Desk.find?_noted hfound] at hdone
      cases hdone
  generalize compile id t.job d = result at hends hperform
  cases hends with
  | refused hrunner => exact absurd hperform hfailed
  | failed hrunner hrun => exact absurd hperform hfailed
  | lost hrunner hrun hexit hlost => exact absurd hperform hfailed
  | @done runner r o' path hrunner hrun hpath hproducts =>
    cases hperform
    rw [Desk.noted_noted, Desk.find?_noted hfound] at hdone
    cases hdone
    exact ⟨runner, r, path, hrunner, hrun, hpath, hproducts, rfl⟩

theorem not_endsWith_log {x : String} (hx : isProduct x = true) :
    ¬ EndsWith (p ++ [x]) "log.txt" := by
  rintro ⟨front, last, heq⟩
  have hlast : x = String.ofList last ++ "log.txt" := by
    rw [(List.cons.inj (append_inj' heq rfl).2).1, String.ofList_append, String.ofList_toList]
  rw [hlast, not_isProduct (by decide) (by decide)] at hx
  cases hx

/--
**What is listed after nodes were written.**  The output directory is `p`, and the files that are
listed are files of nodes that lie in it.
-/
theorem mem_written {place : Place} {last : String} {s0 : Session}
    (hothers : ∀ q, ¬ Target.IsPlaceOf topology names place last q →
      s.disk.file? q = if q.dropLast = p ∧ q ≠ [] then none else s0.disk.file? q)
    (hthere : ∀ q, Target.IsPlaceOf topology names place last q → (s.disk.file? q).isSome = true)
    (hlog : KeepsFiles (fun q => ¬ EndsWith q "log.txt") s s')
    (h : products directory s' = .ok o s') (hp : s'.disk.locate s'.home directory = .ok p)
    (hdir : s'.disk.isDirectory p = true) (x : String) :
    x ∈ o.files ↔ isProduct x = true ∧
      (Target.IsPlaceOf topology names place last (p ++ [x]) ∨
        s'.disk.isDirectory (p ++ [x]) = true) := by
  rw [mem_products h hp hdir]
  refine and_congr_right fun hproduct => or_congr_left' fun _ => ?_
  rw [hlog.files _ (not_endsWith_log hproduct)]
  refine ⟨fun hfile => ?_, hthere _⟩
  by_contra hplace
  rw [hothers _ hplace, if_pos (by simp)] at hfile
  cases hfile

theorem mem_of_slash {n : String} {target : Target}
    (hfiles : ∀ x, x ∈ o.files ↔ isProduct x = true ∧
      (Target.IsPlaceOf topology names p "" (p ++ [x]) ∨ s.disk.isDirectory (p ++ [x]) = true))
    (hn : .str n ∈ names) (ht : Target.IsOn topology n target) :
    n ++ ".p4" ∈ o.files ∧ (n ++ target.entryEnding ∈ o.files ↔ target = .software) := by
  have hlisted : ∀ b ∈ target.fileEndings, (n ++ b ∈ o.files ↔ isProduct (n ++ b) = true) := by
    intro b hb
    rw [hfiles, and_iff_left (.inl ⟨n, target, hn, ht, b, hb, by rw [String.empty_append]⟩)]
  constructor
  · exact (hlisted _ mem_cons_self).mpr (isProduct_append (.inl rfl))
  · rw [hlisted _ (mem_cons_of_mem _ (mem_singleton_self _))]
    cases target with
    | software => exact iff_of_true (isProduct_append (.inr rfl)) rfl
    | hardware =>
      have hnot : isProduct (n ++ Target.hardware.entryEnding) = false :=
        not_isProduct (by decide) (by decide)
      rw [hnot]
      decide

theorem directory_of_run {r : Runner} {onlyProgram : Bool}
    (hrun : Runner.run onlyProgram false false runner = .ok () r) :
    ∃ directory p, runner.output = .str directory ∧
      r.session.disk.locate r.session.home directory = .ok p ∧
      r.session.disk.isDirectory p = true := by
  obtain ⟨headerType, directory, topology, s0, s, s', hdirectory, -, -, hwrite, hlog⟩ :=
    Runner.run_writes hrun
  obtain ⟨p, names, -, hp, hdir, -, hkeeps, -⟩ := Target.write_files hwrite
  have hsame : KeepsFiles (fun _ => False) s r.session := hkeeps.trans (hlog.mono fun _ h => h.elim)
  refine ⟨directory, p, hdirectory, (hsame.locate _ _).mpr hp, ?_⟩
  rw [Disk.isDirectory, hsame.directories]
  exact hdir

theorem output_of_runnerOf (h : runnerOf d t.job = .ok runner) :
    runner.output = t.job.outputDir := by
  obtain ⟨_, _, _, rfl⟩ := runnerOf_eq_ok h
  rfl

theorem completed_of_returns (hfound : d.tasks.find? id = some t) (h : Returns d t.job) :
    ∃ o d', perform id d = .ok () d' ∧ d'.tasks.find? id = some ⟨t.job, .completed o⟩ := by
  obtain ⟨runner, r, hrunner, hrun⟩ := h
  obtain ⟨directory, p, houtput, hp, hdir⟩ := directory_of_run hrun
  obtain ⟨log, hproducts⟩ := products_eq hp hdir
  rw [perform_eq hfound]
  have hends := compile_ends d id t.job
  generalize compile id t.job d = result at hends
  cases hends with
  | refused hrunner' => cases hrunner.symm.trans hrunner'
  | failed hrunner' hrun' =>
    cases hrunner.symm.trans hrunner'
    cases hrun.symm.trans hrun'
  | lost hrunner' hrun' _ hlost =>
    cases hrunner.symm.trans hrunner'
    cases hrun.symm.trans hrun'
    refine absurd hproducts (hlost directory _ ?_)
    rw [← output_of_runnerOf hrunner, houtput]
    rfl
  | @done _ _ o =>
    refine ⟨o, _, rfl, ?_⟩
    rw [Desk.noted_noted, Desk.find?_noted hfound]

/--
**Files of nodes are reported if a slash ends the output directory.**  A task is completed exactly
if its compilation succeeds.  Its output directory is `front ++ last`, where `last` is what stands
behind the last slash.  If the nodes have names without slashes, the directory was emptied, exactly
the files of the nodes were written then, and the files in it that end as programs or as entries of
software switches do are listed.

If a slash ends the directory, the files lie in it; programs are listed, and entries are listed for
software switches and never for hardware switches.  If a name ends the directory, all files lie
beside it, and only subdirectories can be listed.
-/
theorem files_reported_if_slash (hfound : d.tasks.find? id = some t) :
    ((∃ o d', perform id d = .ok () d' ∧ d'.tasks.find? id = some ⟨t.job, .completed o⟩) ↔
      Returns d t.job) ∧
    ∀ o d', perform id d = .ok () d' → d'.tasks.find? id = some ⟨t.job, .completed o⟩ →
    ∃ runner headerType front last topology names place s₀ s s',
      runnerOf d t.job = .ok runner ∧ t.job.outputDir = .str (front ++ last) ∧
      (front = "" ∨ ∃ dir, front = dir ++ "/") ∧ '/' ∉ last.toList ∧
      Target.topology runner.workspace s₀ = .ok topology s ∧
      topology.items = .ok names ∧ (∀ name ∈ names, ∃ n target, name = .str n ∧
        Target.IsOn topology n target) ∧
      Target.write runner.workspace headerType (front ++ last) topology s = .ok () s' ∧
      KeepsFiles (fun q => ¬ EndsWith q "log.txt") s' d'.session ∧
      s.disk.locate s.home (front ++ last) = .ok (Disk.step place last) ∧
      ((∀ n, .str n ∈ names → '/' ∉ n.toList) →
        (∀ q, Target.IsPlaceOf topology names place last q → (s'.disk.file? q).isSome = true) ∧
        (∀ q, ¬ Target.IsPlaceOf topology names place last q →
          s'.disk.file? q = if q.dropLast = Disk.step place last ∧ q ≠ [] then none
            else s.disk.file? q) ∧
        (∀ x, x ∈ o.files ↔ isProduct x = true ∧
          (Target.IsPlaceOf topology names place last (Disk.step place last ++ [x]) ∨
          d'.session.disk.isDirectory (Disk.step place last ++ [x]) = true)) ∧
        (last = "" → (∀ q, Target.IsPlaceOf topology names place last q →
          q.dropLast = Disk.step place last) ∧
          ∀ n target, .str n ∈ names → Target.IsOn topology n target →
            n ++ ".p4" ∈ o.files ∧ (n ++ target.entryEnding ∈ o.files ↔ target = .software)) ∧
        (last ∉ ["", ".", ".."] →
          (∀ q, Target.IsPlaceOf topology names place last q →
            q.dropLast = (Disk.step place last).dropLast ∧ q.dropLast ≠ Disk.step place last) ∧
          ∀ x ∈ o.files, d'.session.disk.isDirectory (Disk.step place last ++ [x]) = true)) := by
  refine ⟨⟨fun ⟨o, d', hperform, hdone⟩ => ?_, completed_of_returns hfound⟩,
    fun o d' hperform hdone => ?_⟩
  · obtain ⟨runner, r, _, hrunner, hrun, -⟩ := completed_of_perform hfound hperform hdone
    exact ⟨runner, r, hrunner, hrun⟩
  obtain ⟨runner, r, path, hrunner, hrun, hpath, hproducts, hsession⟩ :=
    completed_of_perform hfound hperform hdone
  obtain ⟨headerType, directory, topology, s₀, s, s', hdirectory, -, htopology, hwrite, hlog⟩ :=
    Runner.run_writes hrun
  have houtput : t.job.outputDir = .str directory :=
    (output_of_runnerOf hrunner).symm.trans hdirectory
  obtain rfl : directory = path := by
    rw [houtput] at hpath
    exact Except.ok.inj hpath
  obtain ⟨front, last, rfl, hfront, hlast⟩ := Disk.exists_split directory
  obtain ⟨_, place, names, hnames, hp, hdir, rfl, hall, hkeeps, hplaced⟩ :=
    Target.write_placed hfront hlast hwrite
  rw [← hsession] at hlog hproducts
  refine ⟨runner, headerType, front, last, topology, names, place, s₀, s, s', hrunner, houtput,
    hfront, hlast, htopology, hnames, hall, hwrite, hlog, hp, fun hslash => ?_⟩
  obtain ⟨-, hthere, hothers⟩ := hplaced hslash
  have hsame : KeepsFiles (fun _ => False) s d'.session :=
    hkeeps.trans (hlog.mono fun _ h => h.elim)
  have hdir' : d'.session.disk.isDirectory (Disk.step place last) = true := by
    rw [Disk.isDirectory, hsame.directories]
    exact hdir
  have hfiles := mem_written hothers hthere hlog hproducts ((hsame.locate _ _).mpr hp) hdir'
  have hinside : ∀ q, Target.IsPlaceOf topology names place last q → q.dropLast = place := by
    rintro _ ⟨n, target, hn, ht, b, hb, rfl⟩
    exact dropLast_concat
  refine ⟨hthere, hothers, hfiles, ?_, fun hname => ?_⟩
  · rintro rfl
    exact ⟨hinside, fun n target hn ht => mem_of_slash hfiles hn ht⟩
  · have hstep : Disk.step place last = place ++ [last] := by
      simp only [mem_cons, not_or] at hname
      rw [Disk.step, if_neg (by simp [hname]), if_neg hname.2.2.1]
    have hplace : place ≠ place ++ [last] := by simp
    rw [hstep]
    refine ⟨fun q hq => ?_, fun x hx => ?_⟩
    · rw [hinside q hq, dropLast_concat]
      exact ⟨rfl, hplace⟩
    · rw [hfiles, hstep] at hx
      exact hx.2.resolve_left fun hq => hplace ((hinside _ hq).symm.trans dropLast_concat)

/-- A request to compile no services for a software switch and a hardware switch. -/
def mixedJob : Job := ⟨.str "service", .null, .str "service.json", .str "pne_out/",
    .str "v1model", false⟩

/-- An agent with that task. -/
def mixedDesk : Desk :=
  { Desk.start Deploy.mixedStart.session "/c" true true with
    tasks := OrderedMap.insert {} "task-1" ⟨mixedJob, .pending⟩ }

/-- The task is completed, and its files are listed as far as they are files of a software switch or
programs. -/
theorem files_reported_if_slash_mixed : mixedDesk.tasks.find? "task-1" = some ⟨mixedJob, .pending⟩ ∧
    ∃ o d', perform "task-1" mixedDesk = .ok () d' ∧
      d'.tasks.find? "task-1" = some ⟨mixedJob, .completed o⟩ ∧
      ∃ topology names, topology.items = .ok names ∧ ((∀ n, .str n ∈ names → '/' ∉ n.toList) →
        ∀ n target, .str n ∈ names → Target.IsOn topology n target →
          n ++ ".p4" ∈ o.files ∧ (n ++ target.entryEnding ∈ o.files ↔ target = .software)) := by
  have hfound : mixedDesk.tasks.find? "task-1" = some ⟨mixedJob, .pending⟩ := rfl
  obtain ⟨hcompleted, hfiles⟩ := files_reported_if_slash hfound
  obtain ⟨_, r, hrun, -⟩ := exists_ok_of_passes Deploy.mixedStart_passes
  obtain ⟨o, d', hperform, hdone⟩ := hcompleted.mpr ⟨Deploy.mixedStart, r, rfl, hrun⟩
  refine ⟨hfound, o, d', hperform, hdone, ?_⟩
  obtain ⟨_, _, front, last, topology, names, _, _, _, _, _, houtput, _, hlast, _, hnames, _, _, _,
    _, hlisted⟩ :=
    hfiles o d' hperform hdone
  refine ⟨topology, names, hnames, fun hslash => ((hlisted hslash).2.2.2.1 ?_).2⟩
  -- a slash ends the directory, so nothing stands behind it
  have hpath : "pne_out".toList ++ ['/'] = front.toList ++ last.toList :=
    (congrArg String.toList (Json.str.inj houtput)).trans String.toList_append
  rcases eq_nil_or_concat last.toList with hnil | ⟨init, c, hconcat⟩
  · exact String.toList_injective (hnil.trans String.toList_empty.symm)
  · rw [concat_eq_append] at hconcat
    rw [hconcat, ← append_assoc] at hpath
    obtain rfl : '/' = c := (List.cons.inj (append_inj' hpath rfl).2).1
    exact absurd (hconcat ▸ mem_append_right _ (mem_singleton_self _)) hlast

end Agent.Serving

end Pathwise
