import Pathwise.Project.Forest
import Pathwise.Proofs.Files

/-!
# Growing a forest step by step

What holds of the single steps and of everything that is made of such steps (`Forest.Closed`) holds
of growing a forest, if it holds of the log and of parsing domain files (`Forest.Closed.grow`).  So
only the log and domain files are written (`Runner.grow_leaves`).
-/

namespace Pathwise

open Steps

namespace Forest

/-- What holds of the steps that all files have in common, and of steps one after another. -/
structure Closed (K : ∀ {α : Type}, Run α → Prop) : Prop extends Sequential K where
  report : ∀ {α : Type} (x : Report α), K (liftM x : Run α)
  read : ∀ path : String, K (Run.read path)

namespace Closed

variable {K : ∀ {α : Type}, Run α → Prop} (h : Closed K)

include h

theorem parseFile (path : String) : K (parseFile path) := by
  refine h.bind (h.read path) fun text => ?_
  split
  · exact h.pure _
  · exact h.throw _

theorem addListed (rule dir : String) (forest : Forest) (domain : Tree) :
    K (addListed rule dir forest domain) := by
  refine h.bind (h.shape _) fun first => h.bind (h.shape _) fun includes =>
    h.foldlM _ (fun forest t _ => ?_) _
  refine h.bind (h.shape _) fun kind => ?_
  split
  · refine h.bind (h.shape _) fun name => ?_
    split
    · exact h.pure _
    · exact h.bind (h.parseFile _) fun _ => h.pure _
  · exact h.pure _

variable (hdomain : ∀ front : String, K (parseDomain (front ++ ".domain"))) (w : Workspace)

include hdomain

theorem addInclude (forest : Forest) (t : Tree) : K (addInclude w forest t) := by
  refine h.bind (h.shape _) fun rule => ?_
  split
  · exact h.bind (h.shape _) fun names => h.bind (h.parseFile _) fun _ => h.pure _
  · split
    · exact h.bind (h.shape _) fun parts => h.bind (hdomain _) fun _ => h.addListed _ _ _ _
    · split
      · exact h.bind (h.shape _) fun names => h.bind (hdomain _) fun _ => h.addListed _ _ _ _
      · exact h.pure _

theorem grow (hlog : ∀ text : String, K (log w text)) (mainFile : String) :
    K (grow w mainFile) := by
  refine h.bind (h.report _) fun _ => h.bind (hlog _) fun _ => h.bind (h.parseFile _) fun main => ?_
  refine h.bind (h.shape _) fun parts =>
    h.foldlM _ (fun forest part _ => h.bind (h.shape _) fun kind => ?_) _
  split
  · exact h.bind (h.shape _) fun includes =>
      h.foldlM _ (fun forest t _ => h.addInclude hdomain w forest t) _
  · exact h.pure _

end Closed

end Forest

namespace Runner

open Run

/-- No file that ends so is written when programs are read. -/
abbrev Untouched (ending : String) : Prop :=
  Differ ".domain" ending ∧ Differ "log.txt" ending

variable {ending : String} (hending : Untouched ending) (w : Workspace) (s₀ : Session)

theorem leaves_closed (keep : Place → Prop) (s₀ : Session) : Forest.Closed (Leaves keep s₀) :=
  ⟨Leaves.sequential, .report, .read⟩

theorem not_endsWith_of_log (hlog : Differ "log.txt" ending) {w : Workspace}
    {s : Session} {p : Place} (hp : s.disk.locate s.home w.logFile = .ok p) :
    ¬ EndsWith p ending := by
  have hfile : w.logFile = w.project ++ "//log_out//" ++ "log.txt" := by
    rw [String.append_assoc]
    rfl
  rw [hfile] at hp
  exact Run.not_endsWith (by decide) hlog p hp

include hending

theorem log_leaves (text : String) : Leaves (EndsWith · ending) s₀ (Forest.log w text) :=
  .append (fun _ => not_endsWith_of_log hending.2) text

theorem parseDomain_leaves (front : String) :
    Leaves (EndsWith · ending) s₀ (Forest.parseDomain (front ++ ".domain")) := by
  have htransform : ∀ f, Leaves (EndsWith · ending) s₀ (Forest.transform (front ++ ".domain") f) :=
    fun f =>
    .bind (.read _) fun text => .bind (Leaves.sequential.fault _) fun _ =>
      .create (not_endsWith (by decide) hending.1) _
  exact .bind (htransform _) fun _ => .bind ((leaves_closed _ s₀).parseFile _) fun _ =>
    .bind (htransform _) fun _ => .pure _

theorem addInclude_leaves (forest : Forest) (t : Tree) :
    Leaves (EndsWith · ending) s₀ (Forest.addInclude w forest t) :=
  (leaves_closed _ s₀).addInclude (parseDomain_leaves hending s₀) w forest t

theorem grow_leaves (mainFile : String) : Leaves (EndsWith · ending) s₀ (Forest.grow w mainFile) :=
  (leaves_closed _ s₀).grow (parseDomain_leaves hending s₀) w (log_leaves hending w s₀) mainFile

end Runner

end Pathwise
