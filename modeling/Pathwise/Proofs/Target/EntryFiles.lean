import Pathwise.Proofs.Files
import Pathwise.Target.Output

/-!
# Entry files of targets

Beside the program of a node stands a file with its entries.  That of a software switch holds what
was put together for the node, whatever the other nodes are (`write_eq_ok`).
-/

namespace Pathwise.Target

open Steps Run String

/-! ### Programs -/

section

variable {keep : Place → Prop} {s₀ : Session} {file : String}
  (hfile : ∀ p, s₀.disk.locate s₀.home file = .ok p → ¬ keep p)

include hfile

theorem program_leaves (w : Workspace) (headerType node : String) (info : Except Mismatch Json) :
    Leaves keep s₀ (program w headerType node (liftM info) file) := by
  have happend : ∀ text, Leaves keep s₀ (append file text) := .append hfile
  have hpart : ∀ kind, Leaves keep s₀ (part w node kind) := fun kind => .read _
  have hmismatch : ∀ {α : Type} (x : Except Mismatch α), Leaves keep s₀ (liftM x) :=
    Leaves.sequential.mismatch
  refine .bind (.create hfile _) fun _ => .bind (hmismatch _) fun j =>
    .bind (hmismatch _) fun resource => .bind (.report _) fun t => ?_
  refine .bind (happend _) fun _ => .bind (hpart _) fun header => .bind (happend _) fun _ =>
    .bind (happend _) fun _ => ?_
  refine .bind (hpart _) fun states => .bind (happend _) fun _ => .bind (happend _) fun _ =>
    .bind (hpart _) fun control => ?_
  refine .bind (happend _) fun _ => .bind (happend _) fun _ => .bind (happend _) fun _ =>
    .bind (hpart _) fun deparser => ?_
  exact .bind (happend _) fun _ => .bind (.read _) fun rest => .bind (happend _) fun _ => .pure _

end

variable {s s' : Session}

/-- The name of a target in a topology. -/
def resource : Target → String
  | software => "CPU"
  | hardware => "ASIC"

theorem eq_of_resource {t t' : Target} (h : t.resource = t'.resource) : t = t' := by
  cases t <;> cases t' <;> first | rfl | exact absurd h (by decide)

theorem ofResource_eq_ok {resource : Json} {t : Target} {c c' : String}
    (h : ofResource resource c = .ok t c') :
    resource = .str t.resource := by
  unfold ofResource at h
  split at h
  · cases h
    rfl
  · cases h
    rfl
  · exact absurd h halt_ne_ok

theorem program_eq_ok {w : Workspace} {headerType node file : String}
    {info : Except Mismatch Json} {t : Target}
    (h : program w headerType node (liftM info) file s = .ok t s') :
    (∃ j, info = .ok j ∧ j.get "resource" = .ok (.str t.resource)) ∧
      ∃ q, s.disk.locate s.home file = .ok q ∧ KeepsFiles (· ≠ q) s s' ∧
        (s'.disk.file? q).isSome = true := by
  have hskip : ∀ {α : Type} {x : Run α} {f : α → Run Target} {t : Target},
      (∀ a s t' s', f a s = .ok t' s' → t' = t ∧ ∃ text s1, append file text s1 = .ok () s') →
      ∀ s t' s', (x >>= f) s = .ok t' s' → t' = t ∧ ∃ text s1, append file text s1 = .ok () s' := by
    intro α x f t hf s t' s' h
    obtain ⟨a, s1, _, h⟩ := bind_eq_ok.mp h
    exact hf a s1 t' s' h
  have hall := h
  obtain ⟨_, s1, hcreate, h⟩ := bind_eq_ok.mp h
  obtain ⟨q, hq, -, -⟩ := create_eq_ok hcreate
  obtain ⟨j, hj, h⟩ := bind_mismatch_eq_ok.mp h
  obtain ⟨resource, hresource, h⟩ := bind_mismatch_eq_ok.mp h
  obtain ⟨t', s4, hlift, hrest⟩ := bind_eq_ok.mp h
  obtain ⟨c, ht, rfl⟩ := report_eq_ok.mp hlift
  obtain rfl := ofResource_eq_ok ht
  -- from here on parts are added, and the target is given back
  have hparts : t = t' ∧ ∃ text s1, append file text s1 = .ok () s' := by
    revert hrest
    refine hskip (fun _ => hskip fun _ => hskip fun _ => hskip fun _ => hskip fun _ =>
      hskip fun _ => hskip fun _ =>
      hskip fun _ => hskip fun _ => hskip fun _ => hskip fun _ => hskip fun _ => hskip fun _ =>
        hskip fun _ => ?_) _ _ _
    intro s t s' h
    obtain ⟨_, happend, rfl⟩ := bind_pure_eq_ok.mp h
    exact ⟨rfl, _, s, happend⟩
  obtain ⟨rfl, text, s5, happend⟩ := hparts
  have hkeeps : KeepsFiles (· ≠ q) s s' :=
    program_leaves (fun p hp hne => hne (Except.ok.inj (hp.symm.trans hq))) w headerType node info s
      t s' rfl rfl hall
  obtain ⟨q', hq', hsame, hfile⟩ := append_eq_ok happend
  obtain rfl : q = q' := Except.ok.inj
    (hq.symm.trans ((hkeeps.locate _ _).mp (hsame.locate.mpr hq')))
  exact ⟨⟨j, hj, hresource⟩, q, hq, hkeeps, by rw [hfile, Option.isSome_some]⟩

/-! ### Entries -/

theorem entryFile_leaves {keep : Place → Prop} {s₀ : Session} (w : Workspace) (t : Target)
    (node stem : String) (hfile : ∀ p, s₀.disk.locate s₀.home (stem ++ t.entryEnding) = .ok p →
      ¬ keep p) : Leaves keep s₀ (entryFile w t node stem) := by
  refine .bind (.readJson _) fun j => .bind (.create hfile _) fun _ => ?_
  cases t with
  | software => exact .append hfile _
  | hardware => exact .draft hfile _

theorem entryFile_eq_ok {w : Workspace} {node stem : String} {u : Unit}
    (h : entryFile w software node stem s = .ok u s') :
    ∃ q j, s.disk.locate s.home (stem ++ "_entry.json") = .ok q ∧
      Run.readJson (w.codeFile node "entry") s = .ok j s ∧
      s'.disk.file? q = some (j.pretty true 2 0) := by
  obtain ⟨j, s1, hread, h⟩ := bind_eq_ok.mp h
  obtain rfl := readJson_stays hread
  obtain ⟨_, s2, hcreate, happend⟩ := bind_eq_ok.mp h
  obtain ⟨q, hq, hsame, hempty⟩ := create_eq_ok hcreate
  obtain ⟨q', hq', _, hfile⟩ := append_eq_ok happend
  obtain rfl : q = q' := Except.ok.inj (hq.symm.trans (hsame.locate.mp hq'))
  refine ⟨q, j, hq, hread, ?_⟩
  rw [hfile, hempty, Option.getD_some, empty_append]

/-! ### One node -/

/-- The endings of the files that are written for a node. -/
def endings : List String := [".p4", "_entry.json", "_entry.py"]

theorem node_leaves {keep : Place → Prop} {s₀ : Session} (w : Workspace)
    (headerType output n : String) (topology : Json)
    (hkeep : ∀ b ∈ endings, ∀ p, s₀.disk.locate s₀.home (output ++ n ++ b) = .ok p → ¬ keep p) :
    Leaves keep s₀ (node w headerType output topology (.str n)) := by
  refine .bind (program_leaves (hkeep ".p4" (by decide)) w headerType n _) fun t =>
    entryFile_leaves w t n _ ?_
  cases t with
  | software => exact hkeep "_entry.json" (by decide)
  | hardware => exact hkeep "_entry.py" (by decide)

/-- The node is a software switch. -/
def IsSoftware (topology : Json) (n : String) : Prop :=
  ∃ info, topology.part (.str n) = .ok info ∧ info.get "resource" = .ok (.str "CPU")

/-- The entry file of a node gets the entries that were put together for the node. -/
def Copies (w : Workspace) (output n : String) (s s' : Session) : Prop :=
  ∃ q j, s.disk.locate s.home (output ++ n ++ "_entry.json") = .ok q ∧
    Run.readJson (w.codeFile n "entry") s = .ok j s ∧
    s'.disk.file? q = some (j.pretty true 2 0)

theorem node_copies {w : Workspace} {headerType output n : String} {topology : Json} {u : Unit}
    (hn : IsSoftware topology n) (h : node w headerType output topology (.str n) s = .ok u s') :
    Copies w output n s s' := by
  obtain ⟨info, hinfo, hcpu⟩ := hn
  obtain ⟨t, s1, hprogram, hentries⟩ := bind_eq_ok.mp h
  obtain ⟨⟨info', hinfo', hresource⟩, -⟩ := program_eq_ok hprogram
  cases hinfo.symm.trans hinfo'
  obtain rfl : t = software := eq_of_resource
    (Json.str.inj (Except.ok.inj (hresource.symm.trans hcpu)))
  have hkeeps : KeepsFiles (EndsWith · "_entry") s s1 :=
    program_leaves (not_endsWith (by decide) (by decide)) w headerType n _ s _ s1 rfl rfl hprogram
  obtain ⟨q, j, hq, hread, hfile⟩ := entryFile_eq_ok hentries
  refine ⟨q, j, (hkeeps.locate _ _).mp hq, ?_, hfile⟩
  exact (hkeeps.readJson_eq_ok fun p hp => endsWith_of_code (by decide) (by decide) hp).mp hread

/-! ### All nodes -/

/-- The file is one of those that are written for nodes. -/
def IsWritten (q : Place) : Prop :=
  ∃ b ∈ endings, EndsWith q b

theorem node_keeps {w : Workspace} {headerType output n : String} {topology : Json} {u : Unit}
    (h : node w headerType output topology (.str n) s = .ok u s') :
    KeepsFiles (fun q => ¬ IsWritten q) s s' := by
  refine node_leaves w headerType output n topology
    (fun b hb p hp hno => hno ⟨b, hb, ?_⟩) s u s' rfl rfl h
  have hendings : ∀ b ∈ endings, IsEnding b := by decide
  exact endsWith_of_locate (hendings b hb) hp

theorem node_spares {w : Workspace} {headerType output n n' : String} {topology : Json}
    {u : Unit} {q : Place} (hn : '/' ∉ n.toList) (hn' : '/' ∉ n'.toList) (hne : n' ≠ n)
    (h : node w headerType output topology (.str n) s = .ok u s')
    (hq : s.disk.locate s.home (output ++ n' ++ "_entry.json") = .ok q) :
    s'.disk.file? q = s.disk.file? q := by
  have hname : ∀ {n : String}, '/' ∉ n.toList → IsEnding (n ++ "_entry.json") :=
    fun hn => .append hn (by decide)
  have hplace : ∀ b ∈ endings, ∀ p, s.disk.locate s.home (output ++ n ++ b) = .ok p → p ≠ q := by
    rintro b hb p hp rfl
    by_cases hb' : b = "_entry.json"
    · rw [hb', append_assoc] at hp
      rw [append_assoc] at hq
      have hlist := congrArg String.toList (Disk.eq_of_locate (hname hn') (hname hn) hq hp)
      rw [toList_append, toList_append, List.append_cancel_right_eq] at hlist
      exact hne (toList_injective hlist)
    · have hendings : ∀ b ∈ endings, b ≠ "_entry.json" → IsEnding b ∧
          Differ b "_entry.json" := by decide
      obtain ⟨hending, hdiffer⟩ := hendings b hb hb'
      exact not_endsWith hending hdiffer p hp (endsWith_of_locate (by decide) hq)
  exact (node_leaves w headerType output n topology hplace s u s' rfl rfl h).files q rfl

/-- **The files of all nodes are written**, and the entry files of software switches hold the nodes'
entries. -/
theorem nodes_eq_ok {w : Workspace} {headerType output : String} {topology : Json}
    (names : List Json) :
    ∀ {s s' : Session} {u : PUnit}, (∀ n, .str n ∈ names → '/' ∉ n.toList) →
    names.forM (node w headerType output topology) s = .ok u s' →
    KeepsFiles (fun q => ¬ IsWritten q) s s' ∧
    (∀ n q, '/' ∉ n.toList → .str n ∉ names →
      s.disk.locate s.home (output ++ n ++ "_entry.json") = .ok q →
      s'.disk.file? q = s.disk.file? q) ∧
    ∀ n, .str n ∈ names → IsSoftware topology n → Copies w output n s s' := by
  induction names with
  | nil =>
    intro s s' u _ h
    obtain rfl := forM_nil_eq_ok.mp h
    exact ⟨.refl _ s, fun _ _ _ _ _ => rfl, fun _ hmem => by cases hmem⟩
  | cons name names ih =>
    intro s s' u hslash h
    obtain ⟨s1, hfirst, hrest⟩ := forM_cons_eq_ok.mp h
    cases name with
    | str first =>
      have hfirstSlash := hslash first List.mem_cons_self
      have hslash : ∀ n, .str n ∈ names → '/' ∉ n.toList :=
        fun n hn => hslash n (List.mem_cons_of_mem _ hn)
      have hkeeps := node_keeps hfirst
      obtain ⟨hkeeps', hothers, hcopies⟩ := ih hslash hrest
      refine ⟨hkeeps.trans hkeeps', fun n q hn hmem hq => ?_, fun n hmem hsoftware => ?_⟩
      · obtain ⟨hne, hmem⟩ := not_or.mp (mt List.mem_cons.mpr hmem)
        have hne : n ≠ first := fun heq => hne (congrArg Json.str heq)
        rw [hothers n q hn hmem ((hkeeps.locate _ _).mpr hq),
          node_spares hfirstSlash hn hne hfirst hq]
      · -- a name that comes again is written again
        by_cases hagain : .str n ∈ names
        · obtain ⟨q, j, hq, hread, hfile⟩ := hcopies n hagain hsoftware
          refine ⟨q, j, (hkeeps.locate _ _).mp hq,
            (hkeeps.readJson_eq_ok fun p hp => ?_).mp hread, hfile⟩
          rintro ⟨b, hb, hend⟩
          have hendings : ∀ b ∈ endings, Differ "_entry" b := by decide
          exact (endsWith_of_code (by decide) (by decide) hp : EndsWith p "_entry").not_of_differ
            (hendings b hb) hend
        · obtain rfl : n = first := Json.str.inj ((List.mem_cons.mp hmem).resolve_right hagain)
          obtain ⟨q, j, hq, hread, hfile⟩ := node_copies hsoftware hfirst
          refine ⟨q, j, hq, hread, ?_⟩
          rw [hothers n q hfirstSlash hagain ((hkeeps.locate _ _).mpr hq), hfile]
    | _ => exact absurd hfirst throw_ne_ok

/--
**The entry files of software switches.**  The output directory is emptied first; what is read
afterwards was there before.
-/
theorem write_eq_ok {w : Workspace} {headerType directory : String} {topology : Json} {u : Unit}
    (hslash : ∀ names n, topology.items = .ok names → .str n ∈ names → '/' ∉ n.toList)
    (h : write w headerType directory topology s = .ok u s') :
    KeepsFiles (fun _ => False) s s' ∧
    ∃ names, topology.items = .ok names ∧ ∀ n, .str n ∈ names → IsSoftware topology n →
      Copies w directory n s s' := by
  obtain ⟨_, s1, hremove, h⟩ := bind_eq_ok.mp h
  obtain ⟨names, hnames, h⟩ := bind_mismatch_eq_ok.mp h
  obtain ⟨p, -, -, hhome, hdirs, hfiles⟩ := removeFilesIn_eq_ok hremove
  obtain ⟨hkeeps, _, hcopies⟩ := nodes_eq_ok names (fun n hn => hslash names n hnames hn) h
  refine ⟨⟨hkeeps.home.trans hhome, hkeeps.directories.trans hdirs, fun _ hq => hq.elim⟩, names,
    hnames, fun n hn hsoftware => ?_⟩
  obtain ⟨q, j, hq, hread, hfile⟩ := hcopies n hn hsoftware
  have hlocate : ∀ path q, s1.disk.locate s1.home path = .ok q →
      s.disk.locate s.home path = .ok q := by
    intro path q hq
    rw [hhome] at hq
    exact Disk.locate_congr hdirs.symm hq
  refine ⟨q, j, hlocate _ _ hq, ?_, hfile⟩
  obtain ⟨text, htext, hparse⟩ := readJson_eq_ok.mp hread
  obtain ⟨raw, hraw, hunify⟩ := read_eq_ok.mp htext
  obtain ⟨p', hp', hraw, _⟩ := readRaw_eq_ok.mp hraw
  rw [hfiles p'] at hraw
  split at hraw
  · cases hraw
  · exact readJson_eq_ok.mpr ⟨text,
      read_eq_ok.mpr ⟨raw, readRaw_eq_ok.mpr ⟨p', hlocate _ _ hp', hraw, rfl⟩, hunify⟩, hparse⟩

end Pathwise.Target
