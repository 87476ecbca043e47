import Pathwise.Fragment.Emit
import Pathwise.Proofs.Steps

/-!
# What the operations of generation do

All effects of generation go through a few operations.  The lemmas here say what the state is behind
an operation that has succeeded: a text is longer (`Gen.emit_eq_ok`), something is recorded about a
fragment (`Gen.record_eq_ok`), a name is drawn.

Resolving an operand is quiet (`resolve_quiet`), so that the operand is a function of the scope and
the tree alone (`operand?`).
-/

namespace Pathwise

open Steps List

/-- The pieces of a text, none if it was not begun. -/
def Generation.written (g : Generation) (k : TextKey) : List Piece :=
  (g.pieces? k).getD []

def only (k : TextKey) (ps : List Piece) : TextKey → List Piece :=
  fun k' => if k' = k then ps else []

@[simp] theorem only_self (k : TextKey) (ps : List Piece) : only k ps k = ps :=
  if_pos rfl

theorem only_of_ne {k k' : TextKey} (h : k' ≠ k) (ps : List Piece) : only k ps k' = [] :=
  if_neg h

/-! ### The operations -/

theorem written_addPieces (g : Generation) (k k' : TextKey) (ps : List Piece) :
    ({ g with texts := Generation.addPieces k ps g.texts } : Generation).written k' =
      g.written k' ++ only k ps k' := by
  obtain ⟨_, _, _, _, _, _, _, texts⟩ := g
  simp only [Generation.written, Generation.pieces?]
  induction texts with
  | nil =>
    by_cases h : k' = k
    · subst h
      simp [Generation.addPieces]
    · have hk : k ≠ k' := fun hk => h hk.symm
      simp [Generation.addPieces, only_of_ne h, hk]
  | cons t ts ih =>
    obtain ⟨k1, qs⟩ := t
    by_cases h1 : k1 = k
    · subst h1
      rw [Generation.addPieces, if_pos rfl]
      by_cases h : k' = k1
      · subst h
        simp
      · have hk : k1 ≠ k' := fun hk => h hk.symm
        simp [only_of_ne h, hk]
    · rw [Generation.addPieces, if_neg h1]
      by_cases h : k1 = k'
      · subst h
        simp [only_of_ne h1]
      · simpa [h] using ih

namespace Gen

variable {g g' : Generation}

variable {k : TextKey} {u : Unit} {name : String} {α β : Type}

theorem checkName_eq_ok (h : checkName k g = .ok u g') : g = g' := by
  obtain ⟨s, g1, hget, hcheck⟩ := bind_eq_ok.mp h
  obtain ⟨rfl, rfl⟩ := get_eq_ok.mp hget
  split at hcheck
  · cases hl : (⟨[], g.folders⟩ : Disk).locate [] ("./" ++ k.fileName) with
    | ok p =>
      rw [hl] at hcheck
      exact (pure_eq_ok.mp hcheck).2
    | error e =>
      rw [hl] at hcheck
      exact absurd hcheck throw_ne_ok
  · exact (pure_eq_ok.mp hcheck).2

theorem emit_eq_ok {ps : List Piece} (h : emit k ps g = .ok u g') :
    g' = { g with texts := Generation.addPieces k ps g.texts } := by
  obtain ⟨_, g1, hcheck, hmodify⟩ := bind_eq_ok.mp h
  obtain rfl := checkName_eq_ok hcheck
  exact (modify_eq_ok.mp hmodify).symm

theorem typeOf_eq_ok {type type' : String} (h : typeOf type g = .ok type' g') : g = g' := by
  obtain ⟨s, g1, hget, hpure⟩ := bind_eq_ok.mp h
  obtain ⟨rfl, rfl⟩ := get_eq_ok.mp hget
  exact (pure_eq_ok.mp hpure).2

theorem fragment_eq_ok {r : Relation} (h : fragment name g = .ok r g') :
    g.relation.find? name = some (.fragment r) ∧ g = g' := by
  obtain ⟨s, g1, hget, hfind⟩ := bind_eq_ok.mp h
  obtain ⟨rfl, rfl⟩ := get_eq_ok.mp hget
  cases hr : g.relation.find? name with
  | none =>
    rw [hr] at hfind
    exact absurd hfind throw_ne_ok
  | some entry =>
    rw [hr] at hfind
    cases entry with
    | last n => exact absurd hfind throw_ne_ok
    | fragment r =>
      obtain ⟨rfl, rfl⟩ := pure_eq_ok.mp hfind
      exact ⟨rfl, rfl⟩

theorem record_eq_ok {f : Relation → Relation} (h : record name f g = .ok u g') :
    ∃ r, g.relation.find? name = some (.fragment r) ∧
      g' = { g with relation := g.relation.insert name (.fragment (f r)) } := by
  obtain ⟨r, g1, hfragment, hmodify⟩ := bind_eq_ok.mp h
  obtain ⟨hr, rfl⟩ := fragment_eq_ok hfragment
  exact ⟨r, hr, (modify_eq_ok.mp hmodify).symm⟩

theorem eq_of_drawTable {table : String} (h : drawTable name g = .ok table g') :
    table = (drawName g.tableNames name).1 ∧
      g' = { g with tableNames := (drawName g.tableNames name).2 } := by
  have heq : drawTable name g = .ok (drawName g.tableNames name).1
      { g with tableNames := (drawName g.tableNames name).2 } := rfl
  rw [heq] at h
  injection h with htable hg
  exact ⟨htable.symm, hg.symm⟩

theorem eq_of_drawAction {table action : String} (h : drawAction table g = .ok action g') :
    action = (drawName g.actionNames (table ++ "_action")).1 ∧
      g' = { g with actionNames := (drawName g.actionNames (table ++ "_action")).2 } := by
  have heq : drawAction table g = .ok (drawName g.actionNames (table ++ "_action")).1
      { g with actionNames := (drawName g.actionNames (table ++ "_action")).2 } := rfl
  rw [heq] at h
  injection h with haction hg
  exact ⟨haction.symm, hg.symm⟩

theorem report_eq_ok {x : Report α} {a : α} :
    (liftM x : Gen α) g = .ok a g' ↔ ∃ c, x g.console = .ok a c ∧ g' = { g with console := c } := by
  have hlift : (liftM x : Gen α) g = mapState (fun c => { g with console := c }) (x g.console) :=
    rfl
  rw [hlift]
  cases x g.console with
  | ok b c =>
    constructor
    · intro h; cases h; exact ⟨c, rfl, rfl⟩
    · rintro ⟨c', h, rfl⟩; cases h; rfl
  | error e c =>
    constructor
    · intro h; cases h
    · rintro ⟨c', h, _⟩; cases h

theorem lift_halt_ne_ok {line : String} {a : α} :
    (liftM (Report.halt line : Report α) : Gen α) g ≠ .ok a g' := by
  intro h
  obtain ⟨_, h, _⟩ := report_eq_ok.mp h
  exact halt_ne_ok h

theorem quiet_eq_ok {x : Report α} (hx : Quiet x) {a : α} (h : (liftM x : Gen α) g = .ok a g') :
    result? x = some a := by
  obtain ⟨c, h, _⟩ := report_eq_ok.mp h
  exact (hx.eq_ok h).1

/-! ### Steps that only report -/

/-- A step that ends in the same way wherever generation stands, and leaves nothing but the same
lines on the console. -/
def OnlyReports (x : Gen α) : Prop :=
  ∃ r said, ∀ g, x g = ended r { g with console := g.console ++ said }

namespace OnlyReports

theorem report {x : Report α} (hx : Blind x) : OnlyReports (liftM x : Gen α) := by
  obtain ⟨r, said, hr⟩ := hx
  refine ⟨r, said, fun g => ?_⟩
  have hlift : (liftM x : Gen α) g = mapState (fun c => { g with console := c }) (x g.console) :=
    rfl
  rw [hlift, hr]
  cases r <;> rfl

theorem pure (a : α) : OnlyReports (pure a : Gen α) :=
  report (.pure a)

theorem throw (e : Fault) : OnlyReports (throw e : Gen α) :=
  report (.throw e)

theorem halt (line : String) : OnlyReports (Report.halt line : Gen α) :=
  report (.halt line)

theorem use {x : Gen α} {f : α → Gen β} (hx : OnlyReports x)
    (hf : ∀ g a g', x g = .ok a g' → OnlyReports (f a)) :
    OnlyReports (x >>= f) := by
  obtain ⟨r, said, hr⟩ := hx
  cases r with
  | error e => exact ⟨.error e, said, fun g => bind_of_error (hr g)⟩
  | ok a =>
    obtain ⟨r, more, hmore⟩ := hf .empty a _ (hr .empty)
    refine ⟨r, said ++ more, fun g => ?_⟩
    rw [bind_of_ok (hr g), hmore, String.append_assoc]

theorem sequential : Sequential fun {α : Type} (x : Gen α) => OnlyReports x :=
  ⟨pure, throw, use⟩

theorem bind {x : Gen α} {f : α → Gen β} (hx : OnlyReports x) (hf : ∀ a, OnlyReports (f a)) :
    OnlyReports (x >>= f) :=
  sequential.bind hx hf

theorem shape (x : Except ShapeError α) : OnlyReports (liftM x : Gen α) :=
  sequential.shape x

theorem foldlM {f : β → α → Gen β} (hf : ∀ b a, OnlyReports (f b a)) (xs : List α) (b : β) :
    OnlyReports (xs.foldlM f b) :=
  sequential.foldlM xs (fun b a _ => hf b a) b

theorem eq_ok {x : Gen α} (hx : OnlyReports x) {a : α} (h : x g = .ok a g') :
    ∃ said, g' = { g with console := g.console ++ said } ∧
      ∀ g, x g = .ok a { g with console := g.console ++ said } := by
  obtain ⟨r, said, hr⟩ := hx
  cases r with
  | ok b =>
    cases (hr g).symm.trans h
    exact ⟨said, rfl, hr⟩
  | error e => cases (hr g).symm.trans h

theorem eq_true_of_passes {x : Gen Bool} (hx : OnlyReports x)
    (h : passes (fun b g' => b && g'.console == g.console) (x g) = true) : x g = .ok true g := by
  obtain ⟨b, g', hok, hb⟩ := exists_ok_of_passes h
  obtain ⟨said, rfl, _⟩ := hx.eq_ok hok
  obtain ⟨rfl, hconsole⟩ := Bool.and_eq_true_iff.mp hb
  have hconsole : g.console ++ said = g.console := beq_iff_eq.mp hconsole
  rw [hok, hconsole]

end OnlyReports

end Gen

/-! ### Operands -/

namespace Operand

theorem octet_quiet (parts : List String) (i : Nat) : Quiet (octet parts i) := by
  rw [octet]
  split
  · exact Quiet.throw _
  · split
    · exact Quiet.pure _
    · exact Quiet.throw _

theorem addressNumber_quiet (parts : List String) : Quiet (addressNumber parts) :=
  (octet_quiet parts 0).bind fun _ => (octet_quiet parts 1).bind fun _ =>
    (octet_quiet parts 2).bind fun _ => (octet_quiet parts 3).bind fun _ => Quiet.pure _

theorem resolveField_quiet (parts : List String) : Quiet (resolveField parts) := by
  rw [resolveField.eq_def]
  split
  · exact Quiet.throw _
  · exact Quiet.pure _
  · exact Quiet.pure _
  · exact Quiet.pure _
  · exact Quiet.halt _
  · exact Quiet.pure _
  · exact Quiet.halt _
  · exact Quiet.halt _
  · exact Quiet.say_halt _ _

theorem resolve_quiet (vars : OrderedMap String String) (t : Tree) : Quiet (resolve vars t) := by
  refine (Quiet.lift _).bind fun d => (Quiet.lift _).bind fun kind => ?_
  split
  · refine (Quiet.lift _).bind fun name => ?_
    split
    · exact Quiet.pure _
    · exact Quiet.say_halt _ _
  · split
    · exact (Quiet.lift _).bind fun cs => (Quiet.mapM (fun _ => Quiet.lift _) cs).bind fun parts =>
        resolveField_quiet parts
    · split
      · refine (Quiet.lift _).bind fun name => ?_
        split
        · exact Quiet.pure _
        · exact Quiet.halt _
      · split
        · exact (Quiet.lift _).bind fun _ => Quiet.pure _
        · split
          · refine (Quiet.lift _).bind fun text => (addressNumber_quiet _).bind fun n => ?_
            split
            · exact Quiet.pure _
            · exact Quiet.throw _
          · exact Quiet.say_halt _ _

end Operand

namespace Scope

def operand? (sc : Scope) (t : Tree) : Option Operand :=
  result? (sc.resolve t)

theorem resolve_quiet (sc : Scope) (t : Tree) : Quiet (sc.resolve t) :=
  Operand.resolve_quiet sc.vars t

theorem resolve_blind (sc : Scope) (t : Tree) : Blind (sc.resolve t) :=
  (sc.resolve_quiet t).blind

end Scope

theorem firstOf_quiet {α : Type} (xs : List α) : Quiet (firstOf xs) := by
  cases xs with
  | nil => exact Quiet.throw _
  | cons x xs => exact Quiet.pure x

theorem firstOf_blind {α : Type} (xs : List α) : Blind (firstOf xs) :=
  (firstOf_quiet xs).blind

end Pathwise
