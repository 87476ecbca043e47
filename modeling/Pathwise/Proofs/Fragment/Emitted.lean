import Pathwise.Proofs.Fragment.Effect
import Pathwise.Proofs.Fragment.Fits

/-!
# What the emitters write

One lemma for every emitter of statements and conditions: if it succeeds, its operands were
resolved, and the pieces it wrote are known.  Whoever reads the text, as control code or as the body
of an action, starts from these lemmas and does not look into the emitters again.

An operand is a variable that the scope knows, or it does not depend on the scope
(`Operand.resolve_eq_ok`).  So what is written for statements and for conditions without a table is
plain (`forall_isPlain`): it begins and applies nothing, and every variable in it is known.
-/

namespace Pathwise

open Steps List

/-! ### Operands -/

section Operands

variable {sc : Scope} {o : Operand} {c c' : String} {t : Tree}

/-- A source name stands for the variable. -/
def Scope.Binds (sc : Scope) (v : String) : Prop :=
  ∃ name, sc.vars.find? name = some v

theorem Operand.resolveField_kind {parts : List String}
    (h : resolveField parts c = .ok o c') : o.kind ≠ .var := by
  rw [resolveField.eq_def] at h
  split at h
  · exact absurd h throw_ne_ok
  · cases h; simp
  · cases h; simp
  · cases h; simp
  · exact absurd h halt_ne_ok
  · cases h; simp
  · exact absurd h halt_ne_ok
  · exact absurd h halt_ne_ok
  · obtain ⟨_, _, _, h⟩ := bind_eq_ok.mp h
    exact absurd h halt_ne_ok

/-- **An operand is a variable that the scope knows, or it does not depend on the scope.** -/
theorem Operand.resolve_eq_ok {vars : OrderedMap String String}
    (h : resolve vars t c = .ok o c') :
    (o.kind = .var ∧ ∃ name, vars.find? name = some o.text) ∨
      (o.kind ≠ .var ∧ ∀ vars', resolve vars' t c = .ok o c') := by
  unfold resolve at h ⊢
  obtain ⟨d, c1, hd, h⟩ := bind_eq_ok.mp h
  obtain ⟨kind, c2, hkind, h⟩ := bind_eq_ok.mp h
  by_cases hname : kind = "name"
  · rw [if_pos hname] at h
    obtain ⟨name, c3, _, h⟩ := bind_eq_ok.mp h
    cases hfind : vars.find? name with
    | none =>
      rw [hfind] at h
      obtain ⟨_, _, _, h⟩ := bind_eq_ok.mp h
      exact absurd h halt_ne_ok
    | some generated =>
      rw [hfind] at h
      obtain ⟨rfl, _⟩ := pure_eq_ok.mp h
      exact .inl ⟨rfl, name, hfind⟩
  · rw [if_neg hname] at h
    refine .inr ⟨?_, fun vars' => ?_⟩
    · split at h
      · obtain ⟨cs, _, _, h⟩ := bind_eq_ok.mp h
        obtain ⟨parts, _, _, h⟩ := bind_eq_ok.mp h
        exact resolveField_kind h
      · split at h
        · obtain ⟨name, _, _, h⟩ := bind_eq_ok.mp h
          cases hsystem : systemText? name with
          | none =>
            rw [hsystem] at h
            exact absurd h halt_ne_ok
          | some text =>
            rw [hsystem] at h
            obtain ⟨rfl, _⟩ := pure_eq_ok.mp h
            simp
        · split at h
          · obtain ⟨text, _, rfl⟩ := bind_pure_eq_ok.mp h
            simp
          · split at h
            · obtain ⟨text, _, _, h⟩ := bind_eq_ok.mp h
              obtain ⟨n, _, _, h⟩ := bind_eq_ok.mp h
              cases hdecimal : Text.decimal n with
              | ok text =>
                rw [hdecimal] at h
                obtain ⟨rfl, _⟩ := pure_eq_ok.mp h
                simp
              | error e =>
                rw [hdecimal] at h
                exact absurd h throw_ne_ok
            · obtain ⟨_, _, _, h⟩ := bind_eq_ok.mp h
              exact absurd h halt_ne_ok
    · refine bind_eq_ok.mpr ⟨d, c1, hd, bind_eq_ok.mpr ⟨kind, c2, hkind, ?_⟩⟩
      rw [if_neg hname]
      exact h

/-- If the operand is a variable, the scope knows it. -/
def Scope.Known (sc : Scope) (o : Operand) : Prop :=
  o.kind = .var → sc.Binds o.text

theorem Scope.known_of_resolve (h : sc.resolve t c = .ok o c') :
    sc.Known o := by
  rcases Operand.resolve_eq_ok h with ⟨_, name, hname⟩ | ⟨hkind, _⟩
  · exact fun _ => ⟨name, hname⟩
  · exact fun hvar => absurd hvar hkind

theorem Scope.known_of_operand? (h : sc.operand? t = some o) : sc.Known o := by
  obtain ⟨c, hc⟩ := result?_eq_some h
  exact known_of_resolve hc

end Operands

/-! ### Plain pieces -/

namespace Piece

variable {sc : Scope} {o : Operand} {ps : List Piece}

def applied? : Piece → Option String
  | apply t => some t
  | _ => none

def actionHead? : Piece → Option String
  | actionHead a => some a
  | _ => none

def mentions : Piece → List String
  | operand o => if o.kind = .var then [o.text] else []
  | ifFlag flag => [flag]
  | setFlag flag _ => [flag]
  | _ => []

/-- A piece that begins and applies nothing, and whose variables are known in the scope. -/
structure IsPlain (sc : Scope) (p : Piece) : Prop where
  applied : p.applied? = none
  head : p.actionHead? = none
  binds : ∀ v ∈ p.mentions, sc.Binds v

/-- A piece that begins, applies and mentions nothing. -/
def isInert (p : Piece) : Bool :=
  p.applied?.isNone && p.actionHead?.isNone && p.mentions.isEmpty

theorem isPlain_of_inert {p : Piece} (h : p.isInert = true) : p.IsPlain sc := by
  simp only [isInert, Bool.and_eq_true, Option.isNone_iff_eq_none, List.isEmpty_iff] at h
  obtain ⟨⟨happlied, hhead⟩, hmentions⟩ := h
  refine ⟨happlied, hhead, ?_⟩
  rw [hmentions]
  exact List.forall_mem_nil _

theorem isPlain_operand (h : sc.Known o) : (operand o).IsPlain sc := by
  refine ⟨rfl, rfl, ?_⟩
  intro v hv
  simp only [mentions] at hv
  split at hv
  · next hkind =>
    rw [mem_singleton.mp hv]
    exact h hkind
  · cases hv

def isSimple : Piece → Bool
  | operand _ => true
  | p => p.isInert

theorem forall_isPlain (hps : ps.all isSimple = true) (hknown : ∀ o, operand o ∈ ps → sc.Known o) :
    ∀ p ∈ ps, p.IsPlain sc := by
  intro p hp
  have hsimple := all_eq_true.mp hps p hp
  cases p with
  | operand o => exact isPlain_operand (hknown o hp)
  | _ => exact isPlain_of_inert hsimple

end Piece

namespace Emit

variable {g g' : Generation} {sc : Scope} {site : Site}

variable {targets : List Tree} {u : Unit} {c : Condition}

theorem firstOf_eq_ok {α : Type} {xs : List α} {x : α}
    (h : (liftM (firstOf xs) : Gen α) g = .ok x g') : ∃ ys, xs = x :: ys := by
  have hx := Gen.quiet_eq_ok (firstOf_quiet xs) h
  cases xs with
  | nil => cases hx
  | cons y ys =>
    obtain rfl : y = x := Option.some.inj hx
    exact ⟨ys, rfl⟩

theorem text_ne_vars (site : Site) : site.text.kind ≠ .vars := by
  show (if site.inAction then TextKind.action else .control) ≠ .vars
  cases site.inAction <;> decide

theorem emitText_eq_ok {ps : List Piece} (h : Gen.emit site.text ps g = .ok u g') :
    Performs site.fragment g (.write site.text.kind ps) g' :=
  .emit h (text_ne_vars site)

theorem operand_eq_ok {f : String} {kind : TextKind} {t : Tree} {o : Operand}
    (h : operand .write sc ⟨f, kind⟩ t g = .ok o g') (hkind : kind ≠ .vars := by decide) :
    sc.operand? t = some o ∧ Performs f g (.write kind [.operand o]) g' := by
  simp only [operand, Mode.when, Mode.writes, if_true, bind_eq_ok, pure_eq_ok] at h
  obtain ⟨o', g1, hresolve, _, g2, hemit, rfl, rfl⟩ := h
  refine ⟨Gen.quiet_eq_ok (sc.resolve_quiet t) hresolve, ?_⟩
  exact ((Performs.report hresolve).trans (.emit hemit hkind)).congr (Effect.empty_append _)

theorem operandText_eq_ok {t : Tree} {o : Operand}
    (h : operand .write sc site.text t g = .ok o g') :
    sc.operand? t = some o ∧ Performs site.fragment g (.write site.text.kind [.operand o]) g' :=
  operand_eq_ok h (text_ne_vars site)

theorem recordStored_eq_ok {f : String} {o : Operand} {recorder : String → Gen Unit}
    (hr : ∀ x u, recorder x g = .ok u g' → Performs f g .empty g')
    (h : recordStored o recorder g = .ok u g') : Performs f g .empty g' := by
  rw [recordStored] at h
  split at h
  · exact hr _ _ h
  · obtain ⟨_, rfl⟩ := pure_eq_ok.mp h
    exact .refl f g

/-! ### Statements -/

theorem fromOperand_eq_ok {source : Tree} (h : fromOperand sc site targets source g = .ok u g') :
    ∃ t ts o o', targets = t :: ts ∧ sc.operand? t = some o ∧ sc.operand? source = some o' ∧
      Performs site.fragment g
        (.write site.text.kind [.operand o, .assignSign, .operand o', .endStatement]) g' := by
  simp only [fromOperand, bind_eq_ok] at h
  obtain ⟨t, g1, h1, o, g2, h2, _, g3, h3, _, g4, h4, o', g5, h5, _, g6, h6, h7⟩ := h
  obtain ⟨ts, rfl⟩ := firstOf_eq_ok h1
  obtain ⟨ho, p2⟩ := operandText_eq_ok h2
  obtain ⟨ho', p5⟩ := operandText_eq_ok h5
  have p4 := ((Performs.report h1).trans p2).silent
    (recordStored_eq_ok (fun _ _ => .recordOutput) h3)
  refine ⟨t, ts, o, o', rfl, ho, ho', ?_⟩
  exact ((((p4.congr (Effect.empty_append _)).append (emitText_eq_ok h4)).append p5).silent
    (recordStored_eq_ok (fun _ _ => .recordInput) h6)).append (emitText_eq_ok h7)

theorem fromMap_cases {source : Tree} (h : fromMap sc site targets source g = .ok u g') :
    ∃ g1, Performs site.fragment g .empty g1 ∧
      (site.inAction = true → fromParams sc site targets g1 = .ok () g') ∧
      (site.inAction = false → ∃ name map, sc.maps.find? name = some map ∧
        lookup sc site targets source name map g1 = .ok () g') := by
  obtain ⟨name, g1, h1, h⟩ := bind_eq_ok.mp h
  refine ⟨g1, .report h1, fun hsite => ?_, fun hsite => ?_⟩
  · rwa [hsite, if_pos rfl] at h
  · simp only [hsite, Bool.false_eq_true, if_false] at h
    cases hmap : sc.maps.find? name with
    | none =>
      rw [hmap] at h
      exact absurd h throw_ne_ok
    | some map =>
      rw [hmap] at h
      exact ⟨name, map, hmap, h⟩

/-- **An assignment is a statement, or it asks a map.** -/
theorem assign_cases {source : Tree} {kind : AssignKind}
    (h : assign .write sc site targets source g = .ok kind g') :
    (source.isIndexed = false ∧ ∃ t ts o o', targets = t :: ts ∧ sc.operand? t = some o ∧
      sc.operand? source = some o' ∧ Performs site.fragment g (.write site.text.kind
        [.indent site.level, .operand o, .assignSign, .operand o', .endStatement]) g') ∨
    source.isIndexed = true ∧ ∃ g1 t ts, targets = t :: ts ∧
      Performs site.fragment g (.write site.text.kind [.indent site.level]) g1 ∧
      (site.inAction = true → fromParams sc site targets g1 = .ok () g') ∧
      (site.inAction = false → ∃ name map, sc.maps.find? name = some map ∧
        lookup sc site targets source name map g1 = .ok () g') := by
  simp only [assign, Mode.when, Mode.writes, if_true, bind_eq_ok] at h
  obtain ⟨_, g1, h1, isLookup, g2, h2, h⟩ := h
  have p2 := (emitText_eq_ok h1).silent (.report h2)
  obtain ⟨_, h2, _⟩ := Gen.report_eq_ok.mp h2
  obtain rfl := isLookup_eq_ok h2
  cases hs : source.isIndexed with
  | false =>
    simp only [hs, Bool.false_eq_true, if_false, bind_pure_eq_ok] at h
    obtain ⟨_, h, _⟩ := h
    obtain ⟨t, ts, o, o', ht, ho, ho', p⟩ := fromOperand_eq_ok h
    exact .inl ⟨rfl, t, ts, o, o', ht, ho, ho', p2.append p⟩
  | true =>
    obtain ⟨t, ts, ht⟩ := isLookup_targets h2
    simp only [hs, if_true, bind_pure_eq_ok] at h
    obtain ⟨_, h, _⟩ := h
    obtain ⟨g3, p3, hcases⟩ := fromMap_cases h
    exact .inr ⟨rfl, g3, t, ts, ht, p2.silent p3, hcases⟩

theorem arith_eq_ok {left right : Tree} {op : String}
    (h : arith sc site targets left op right g = .ok u g') :
    ∃ t ts o l r, targets = t :: ts ∧ sc.operand? t = some o ∧ sc.operand? left = some l ∧
      sc.operand? right = some r ∧
      Performs site.fragment g (.write site.text.kind
        [.indent site.level, .operand o, .assignSign, .operand l, .operator op,
        .operand r, .endStatement]) g' := by
  simp only [arith, bind_eq_ok] at h
  obtain ⟨_, g1, h1, t, g2, h2, o, g3, h3, _, g4, h4, _, g5, h5, l, g6, h6, _, g7, h7, _, g8, h8, r,
    g9, h9, _, g10, h10, h11⟩ := h
  obtain ⟨ts, rfl⟩ := firstOf_eq_ok h2
  obtain ⟨ho, p3⟩ := operandText_eq_ok h3
  obtain ⟨hl, p6⟩ := operandText_eq_ok h6
  have p7 := recordStored_eq_ok (fun _ _ => .recordInput) h7
  obtain ⟨hr, p9⟩ := operandText_eq_ok h9
  have p10 := recordStored_eq_ok (fun _ _ => .recordInput) h10
  refine ⟨t, ts, o, l, r, rfl, ho, hl, hr, ?_⟩
  exact ((((((((emitText_eq_ok h1).silent (.report h2)).append p3).silent (.recordOutput h4)).append
    (emitText_eq_ok h5)).append
    p6).silent p7).append (emitText_eq_ok h8)).append p9 |>.silent p10 |>.append
      (emitText_eq_ok h11)

/-- What a primitive writes. -/
inductive PrimitivePieces (sc : Scope) (kind : String) (args : List Tree) : List Piece → Prop
  | drop (hk : kind = "drop") : PrimitivePieces sc kind args [.dropPacket]
  | compress {arg : Tree} {rest : List Tree} {o : Operand} (hk : kind = "headercompress")
      (ha : args = arg :: rest) (ho : sc.operand? arg = some o) :
      PrimitivePieces sc kind args [.compressOpen, .operand o, .compressClose]
  | nop (hk : kind = "nop") : PrimitivePieces sc kind args [.endStatement]

theorem PrimitivePieces.isPlain {kind : String} {args : List Tree} {ps : List Piece}
    (h : PrimitivePieces sc kind args ps) (level : Nat) :
    ∀ p ∈ .indent level :: ps, p.IsPlain sc := by
  cases h with
  | drop => exact Piece.forall_isPlain rfl (by simp)
  | compress _ _ ho => exact Piece.forall_isPlain rfl (by simpa using Scope.known_of_operand? ho)
  | nop => exact Piece.forall_isPlain rfl (by simp)

theorem primitive_eq_ok {kind : String} {args : List Tree}
    (h : primitive sc site kind args g = .ok u g') :
    ∃ ps, PrimitivePieces sc kind args ps ∧
      Performs site.fragment g (.write site.text.kind (.indent site.level :: ps)) g' := by
  simp only [primitive, bind_eq_ok] at h
  obtain ⟨_, g1, h1, h⟩ := h
  have p1 := emitText_eq_ok h1
  split at h
  · next hk => exact ⟨_, .drop hk, p1.append (emitText_eq_ok h)⟩
  · split at h
    · next hk =>
      simp only [bind_eq_ok] at h
      obtain ⟨_, g2, h2, arg, g3, h3, o, g4, h4, h5⟩ := h
      obtain ⟨rest, ha⟩ := firstOf_eq_ok h3
      obtain ⟨ho, p4⟩ := operandText_eq_ok h4
      exact ⟨_, .compress hk ha ho,
        (((p1.append (emitText_eq_ok h2)).silent (.report h3)).append p4).append
        (emitText_eq_ok h5)⟩
    · split at h
      · next hk => exact ⟨_, .nop hk, p1.append (emitText_eq_ok h)⟩
      · exact absurd h Gen.lift_halt_ne_ok

/-! ### Conditions -/

theorem recordCompared_eq_ok {f : String} {o : Operand} (h : recordCompared f o g = .ok u g') :
    Performs f g .empty g' := by
  rw [recordCompared] at h
  split at h
  · exact .recordInput h
  · obtain ⟨_, rfl⟩ := pure_eq_ok.mp h
    exact .refl f g

theorem comparison_eq_ok {cmp : Comparison} (h : comparison sc site cmp c g = .ok u g') :
    ∃ l ls r rs o o', c.left = l :: ls ∧ c.right = r :: rs ∧ sc.operand? l = some o ∧
      sc.operand? r = some o' ∧
      Performs site.fragment g (.write .control
        [.indent site.level, .ifOpen, .operand o, .compareSign cmp, .operand o',
        .ifClose]) g' := by
  simp only [comparison, bind_eq_ok] at h
  obtain ⟨_, g1, h1, l, g2, h2, o, g3, h3, _, g4, h4, _, g5, h5, r, g6, h6, o', g7, h7, _,
    g8, h8, h9⟩ := h
  obtain ⟨ls, hl⟩ := firstOf_eq_ok h2
  obtain ⟨ho, p3⟩ := operand_eq_ok h3
  obtain ⟨rs, hr⟩ := firstOf_eq_ok h6
  obtain ⟨ho', p7⟩ := operand_eq_ok h7
  refine ⟨l, ls, r, rs, o, o', hl, hr, ho, ho', ?_⟩
  exact ((((((((Performs.emit h1).silent (.report h2)).append p3).silent
    (recordCompared_eq_ok h4)).append (.emit h5)).silent
    (.report h6)).append p7).silent (recordCompared_eq_ok h8)).append (.emit h9)

theorem validity_eq_ok (h : validity site c g = .ok u g') :
    ∃ t ts owner name, c.left = t :: ts ∧ t.textAt? [0, 0] = .ok owner ∧
      t.textAt? [0, 1] = .ok name ∧
      Performs site.fragment g (.write .control
        [.ifOpen, .operand ⟨owner ++ "." ++ name, .header⟩, .validClose]) g' := by
  simp only [validity, bind_eq_ok] at h
  obtain ⟨_, g1, h1, t, g2, h2, owner, g3, h3, name, g4, h4, _, g5, h5, h6⟩ := h
  obtain ⟨ts, ht⟩ := firstOf_eq_ok h2
  have p := (((((Performs.emit h1).silent (.report h2)).silent (.report h3)).silent
    (.report h4)).silent (.recordInput h5)).append
    (.emit h6)
  obtain ⟨_, howner, _⟩ := Gen.report_eq_ok.mp h3
  obtain ⟨_, hname, _⟩ := Gen.report_eq_ok.mp h4
  exact ⟨t, ts, owner, name, ht, (lift_shape_eq_ok.mp howner).1, (lift_shape_eq_ok.mp hname).1, p⟩

/-! ### Blocks -/

theorem openBlock_eq_ok (h : openBlock site g = .ok u g') :
    Performs site.fragment g (.write .control [.indent site.level, .blockOpen]) g' :=
  .emit h

theorem closeBlock_eq_ok (h : closeBlock site g = .ok u g') :
    Performs site.fragment g (.write .control [.indent site.level, .blockClose]) g' :=
  .emit h

theorem openElse_eq_ok (h : openElse site g = .ok u g') :
    Performs site.fragment g (.write .control
      [.indent site.level, .elseLine, .indent site.level, .blockOpen]) g' :=
  .emit h

section Block

variable (run : Job → Gen Unit) (sc : Scope) (site : Site) (n a : Nat) (is : List Ins)

theorem block_assign (targets : List Tree) (source : Tree) :
    block run sc site ⟨false, n, a⟩ (.assign targets source :: is) = (do
      let _ ← assign .write sc ⟨site.fragment, site.level + a, site.inAction⟩ targets source
      block run sc site ⟨false, n + 1, a⟩ is) := rfl

theorem block_arith (targets : List Tree) (left : Tree) (op : String) (right : Tree) :
    block run sc site ⟨false, n, a⟩ (.arith targets left op right :: is) = (do
      arith sc ⟨site.fragment, site.level + a, site.inAction⟩ targets left op right
      block run sc site ⟨false, n + 1, a⟩ is) := rfl

theorem block_primitive (kind : String) (args : List Tree) :
    block run sc site ⟨false, n, a⟩ (.primitive kind args :: is) = (do
      primitive sc ⟨site.fragment, site.level + a, site.inAction⟩ kind args
      block run sc site ⟨false, n + 1, a⟩ is) := rfl

theorem block_assert (c : Condition) (cs : List Condition) :
    block run sc site ⟨false, n, a⟩ (.assert (c :: cs) :: is) = (do
      condition sc { site with level := site.level + a } c
      openBlock { site with level := site.level + a }
      block run sc site ⟨false, n + 1, a + 1⟩ is) := rfl

theorem block_branch (cs : List Condition) (bs : List (List Ins)) (e : Option Ins)
    (d : Option (List Ins)) :
    block run sc site ⟨false, n, a⟩ (.branch cs bs e d :: is) = (do
      let fits ← Fit.branch sc (site.level + a) (.branch cs bs e d)
      if fits then table run sc ⟨site.fragment, site.level + a, site.inAction⟩ (.branch cs bs e d)
      else nested run sc ⟨site.fragment, site.level + a, site.inAction⟩ (.branch cs bs e d)
      block run sc site ⟨false, n + 1, a⟩ is) := by
  refine congrArg (Fit.branch sc (site.level + a) (.branch cs bs e d) >>= ·) (funext fun fits => ?_)
  cases fits with
  | false => rfl
  | true =>
    simp only [table, bind_assoc]
    rfl

/-- The `else` of an if. -/
def elsePart : Option (List Ins) → Gen Unit
  | none => pure ()
  | some d => do
    openElse site
    block run sc ⟨site.fragment, site.level + 1, false⟩ ⟨false, 0, 0⟩ d
    closeBlock site

/-- What is written after the first block of an if. -/
def elseParts (e : Option Ins) (d : Option (List Ins)) : Gen Unit :=
  match e with
  | none => elsePart run sc site d
  | some e => do
    openElse site
    nested run sc ⟨site.fragment, site.level + 1, false⟩ e
    closeBlock site
    elsePart run sc site d

/-- The block of an if. -/
def firstBlock (site : Site) : List (List Ins) → Gen Unit
  | [] => throw .outOfRange
  | b :: _ => block run sc site ⟨false, 0, 0⟩ b

theorem nested_eq (cs : List Condition) (bs : List (List Ins)) (e : Option Ins)
    (d : Option (List Ins)) :
    nested run sc site (.branch cs bs e d) = (do
      let c ← (firstOf cs : Report Condition)
      condition sc site c
      openBlock site
      firstBlock run sc ⟨site.fragment, site.level + 1, false⟩ bs
      closeBlock site
      elseParts run sc site e d) := by
  cases bs <;> cases e <;> cases d <;> rfl

theorem nested_branch (c : Condition) (cs : List Condition) (b : List Ins) (bs : List (List Ins))
    (e : Option Ins) (d : Option (List Ins)) :
    nested run sc site (.branch (c :: cs) (b :: bs) e d) = (do
      condition sc site c
      openBlock site
      block run sc ⟨site.fragment, site.level + 1, false⟩ ⟨false, 0, 0⟩ b
      closeBlock site
      elseParts run sc site e d) := by
  cases e <;> cases d <;> rfl

end Block

end Emit

end Pathwise
