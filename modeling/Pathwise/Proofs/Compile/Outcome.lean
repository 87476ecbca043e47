import Pathwise.Compile.Deploy
import Pathwise.Proofs.Compile.Entries
import Pathwise.Proofs.Target.Written

/-!
# What a compilation leaves

* `Runner.KeepsSetting`: the steps of a compilation do not change where it works and where its
  output goes.
* `Runner.run_writes`: **a compilation that succeeds has written the nodes of its topology to its
  output directory**; after that only the log is written.
-/

namespace Pathwise.Runner

open Steps

variable {α β : Type} {r r' : Runner}

/-- Where a compilation works and where its output goes. -/
def setting (r : Runner) : Workspace × Json := (r.workspace, r.output)

/-- The step does not change where the compilation works and where the output goes. -/
def KeepsSetting (x : Compiling α) : Prop :=
  ∀ r a r', x r = .ok a r' → r'.setting = r.setting

namespace KeepsSetting

theorem closed : Closed KeepsSetting := .of_trans (fun _ => rfl) fun h h' => h'.trans h

theorem setServices (services : Json) :
    KeepsSetting (modify fun r => { r with services := services } : Compiling PUnit) := by
  intro r a r' h
  obtain rfl := modify_eq_ok.mp h
  rfl

theorem run (x : Run α) : KeepsSetting (liftM x : Compiling α) := by
  intro r a r' h
  obtain ⟨s, _, rfl⟩ := lift_eq_ok.mp h
  rfl

theorem reads (f : Runner → Run α) : KeepsSetting (get >>= fun r => liftM (f r) : Compiling α) :=
  closed.bind closed.get fun r => run (f r)

end KeepsSetting

open KeepsSetting

theorem clean_keepsSetting : KeepsSetting clean :=
  closed.bind closed.get fun _ => closed.forM _ fun _ _ => .run _

theorem debugMain_keepsSetting : KeepsSetting debugMain := by
  refine closed.bind closed.get fun r => ?_
  split
  · exact closed.pure _
  · exact closed.throw _

theorem prepareMain_keepsSetting : KeepsSetting prepareMain :=
  closed.bind debugMain_keepsSetting fun _ => closed.bind (.run _) fun _ =>
    closed.bind (closed.fault _) fun _ => .reads _

theorem makeServices_keepsSetting (user : String) : KeepsSetting (makeServices user) := by
  refine closed.bind (.setServices _) fun _ => closed.bind debugMain_keepsSetting fun _ =>
    closed.bind (.reads _) fun _ => ?_
  refine closed.bind (.run _) fun _ => closed.bind (.reads _) fun _ =>
    closed.bind (.setServices _) fun _ => ?_
  refine closed.bind closed.get fun _ => closed.bind (.run _) fun _ => closed.bind (.run _) fun _ =>
    closed.bind closed.get fun _ => ?_
  refine closed.bind (.run _) fun _ => ?_
  split
  · exact closed.bind (.run _) fun _ => .run _
  · exact closed.bind (.run _) fun _ => closed.bind (.run _) fun _ => .run _

theorem readServices_keepsSetting : KeepsSetting readServices :=
  closed.readServices (fun _ => .run _) (fun _ => .run _) .setServices fun _ _ _ => .run _

theorem announce_keepsSetting (user : String) (isFirst : Bool) :
    KeepsSetting (announce user isFirst) := by
  refine closed.bind (.run _) fun _ => closed.bind closed.get fun _ => ?_
  split
  · exact .run _
  · exact .run _

theorem generate_keepsSetting (p : Program) : KeepsSetting (generate p) := by
  refine closed.bind (.run _) fun _ => closed.bind closed.get fun _ => closed.bind (.run _) fun _ =>
    closed.bind (.run _) fun text => ?_
  refine closed.bind (fun r a r' h => ?_) fun _ => closed.pure _
  obtain ⟨_, s, _, rfl⟩ := generating_eq_ok_iff.mp h
  rfl

theorem compileUser_keepsSetting : ∀ acc user, KeepsSetting (compileUser acc user) :=
  closed.compileUser (closed.userProgram announce_keepsSetting (fun _ => .reads _) fun _ =>
    .reads _) generate_keepsSetting

theorem run_eq_ok {onlyProgram : Bool} (h : run onlyProgram false false r = .ok () r') :
    ∃ r0, r0.setting = r.setting ∧ compileServices r0 = .ok () r' := by
  obtain ⟨_, r1, hclean, h⟩ := bind_eq_ok.mp h
  have hsetting := clean_keepsSetting r _ r1 hclean
  rw [get_bind] at h
  have hlast : ∀ {r0 : Runner}, (compileServices >>= fun _ => (pure () : Compiling Unit)) r0 =
      .ok () r' → compileServices r0 = .ok () r' := by
    intro r0 h
    obtain ⟨_, r2, hcompile, h⟩ := bind_eq_ok.mp h
    obtain ⟨-, rfl⟩ := pure_eq_ok.mp h
    exact hcompile
  cases hmain : r1.mainFile with
  | none =>
    rw [hmain] at h
    exact ⟨r1, hsetting, hlast h⟩
  | some file =>
    rw [hmain] at h
    obtain ⟨_, r2, hprepare, h⟩ := bind_eq_ok.mp h
    have hprepared := prepareMain_keepsSetting _ _ _ hprepare
    cases onlyProgram with
    | true =>
      obtain ⟨_, r3, _, h⟩ := bind_eq_ok.mp h
      exact absurd h throw_ne_ok
    | false =>
      obtain ⟨_, r3, hmake, h⟩ := bind_eq_ok.mp h
      exact ⟨r3, (makeServices_keepsSetting _ _ _ _ hmake).trans (hprepared.trans hsetting),
        hlast h⟩

/--
**A compilation that succeeds has written the nodes of its topology to its output directory.**
After that only the log was written.
-/
theorem run_writes {onlyProgram : Bool} (h : run onlyProgram false false r = .ok () r') :
    ∃ headerType directory topology s0 s s', r.output = .str directory ∧
      r'.topology = some topology ∧
      Target.topology r.workspace s0 = .ok topology s ∧
        Target.write r.workspace headerType directory topology s = .ok () s' ∧
      KeepsFiles (fun q => ¬ EndsWith q "log.txt") s' r'.session := by
  obtain ⟨r0, hsetting, h⟩ := run_eq_ok h
  obtain ⟨users, r1, hread, h⟩ := bind_eq_ok.mp h
  obtain ⟨⟨services, relation⟩, r2, husers, h⟩ := bind_eq_ok.mp h
  obtain ⟨headerType, r3, hassemble, h⟩ := bind_eq_ok.mp h
  rw [get_bind] at h
  obtain ⟨_, r4, hlog, h⟩ := bind_eq_ok.mp h
  obtain ⟨_, r5, hwrite, hend⟩ := bind_eq_ok.mp h
  obtain ⟨s, hlast, rfl⟩ := lift_eq_ok.mp hend
  have hbefore : r4.setting = r.setting := by
    rw [KeepsSetting.run _ _ _ _ hlog, closed.bind (.run _) (fun _ => .reads _) _ _ _ hassemble,
      closed.foldlM _ (fun acc user _ => compileUser_keepsSetting acc user) _ _ _ _ husers,
      readServices_keepsSetting _ _ _ hread, hsetting]
  obtain ⟨directory, topology, s1, hdirectory, -, hwritten, htopology, s0, hread⟩ :=
    writeOutput_eq_ok hwrite
  obtain ⟨hworkspace, houtput⟩ := Prod.mk.inj hbefore
  rw [hworkspace] at hwritten hread
  refine ⟨headerType, directory, topology, s0, s1, _, houtput.symm.trans hdirectory, htopology,
    hread, hwritten, ?_⟩
  refine Run.Leaves.append (fun p hp hkeep => hkeep ?_) _ r5.session _ s rfl rfl hlast
  have hfile : ∀ w : Workspace, w.logFile = w.project ++ "//log_out//" ++ "log.txt" := fun w => by
    rw [String.append_assoc]
    rfl
  rw [hfile] at hp
  exact endsWith_of_locate (by decide) hp

end Pathwise.Runner
