import Mathlib.Data.List.Forall2
import Pathwise.Syntax.Parse

/-!
# Parsed trees follow the grammar

`Ebnf.Yields` reads a list of rules as they are written, without the alternatives that they are
brought into: it says which lists of trees a right side leaves behind.  A literal leaves nothing,
another token the leaf with the text that it read, a rule one node with what its own right side
leaves, and a repetition the trees of its rounds.  `Ebnf.Derives` is the case of one rule.

* `Grammar.ofRules_yields`: what an alternative of the plain grammar leaves, the rule that it stands
  for leaves.  Helper rules are read as the repetitions they were made for
  (`Grammar.Expansion.Sound`).
* `Grammar.derives_of_parse`: **a parsed tree derives from the first rule.**
* `Ebnf.Derives.closed`: the rules of a set that only refer to each other leave no other node.
-/

namespace Pathwise

open List Option

variable {defs : List (String × Ebnf)} {e : Ebnf} {ts : List Tree} {n : String} {t : Tree}
  {ss : List Sym} {id : Nat}
  {d : String × Ebnf} {g : Grammar}

/-- The text is one that the token reads at the front of some text. -/
def Token.Reads (t : Token) (s : String) : Prop :=
  ∃ cs n, t.munch? cs = some n ∧ s = String.ofList (cs.take n)

namespace Ebnf

/-- The trees that a right side leaves behind. -/
inductive Yields (defs : List (String × Ebnf)) : Ebnf → List Tree → Prop
  | empty : Yields defs .empty []
  | kept {t : Token} {s : String} : t.isKept = true → t.Reads s → Yields defs (.token t) [.leaf s]
  | dropped {t : Token} : t.isKept = false → Yields defs (.token t) []
  | rule {n : String} {e : Ebnf} {cs : List Tree} :
    defs.lookup n = some e → Yields defs e cs → Yields defs (.rule n) [.node n cs]
  | seq {a b : Ebnf} {xs ys : List Tree} : Yields defs a xs → Yields defs b ys →
      Yields defs (.seq a b) (xs ++ ys)
  | left {a b : Ebnf} {ts : List Tree} : Yields defs a ts → Yields defs (.alt a b) ts
  | right {a b : Ebnf} {ts : List Tree} : Yields defs b ts → Yields defs (.alt a b) ts
  | once {e : Ebnf} {ts : List Tree} : Yields defs e ts → Yields defs (.many1 e) ts
  | again {e : Ebnf} {xs ys : List Tree} :
    Yields defs (.many1 e) xs → Yields defs e ys → Yields defs (.many1 e) (xs ++ ys)

/-- The rule derives the tree. -/
def Derives (defs : List (String × Ebnf)) (n : String) (t : Tree) : Prop :=
  Yields defs (.rule n) [t]

/-! ### The forms of right sides -/

section Forms

variable {defs : List (String × Ebnf)} {ts : List Tree} {t : Tree} {n : String} {a b e : Ebnf}

variable {w : String} {k : Token} {P : Tree → Prop}

@[simp] theorem yields_empty : Yields defs .empty ts ↔ ts = [] := by
  constructor
  · rintro ⟨⟩
    rfl
  · rintro rfl
    exact .empty

@[simp] theorem yields_lit : Yields defs (lit w) ts ↔ ts = [] := by
  constructor
  · intro h
    cases h with
    | kept hk => cases hk
    | dropped => rfl
  · rintro rfl
    exact .dropped rfl

@[simp] theorem yields_lbrace : Yields defs lbrace ts ↔ ts = [] :=
  yields_lit

@[simp] theorem yields_rbrace : Yields defs rbrace ts ↔ ts = [] :=
  yields_lit

theorem yields_token (hk : k.isKept = true) :
    Yields defs (.token k) ts ↔ ∃ s, k.Reads s ∧ ts = [.leaf s] := by
  constructor
  · intro h
    cases h with
    | kept _ hs => exact ⟨_, hs, rfl⟩
    | dropped hd => simp [hk] at hd
  · rintro ⟨s, hs, rfl⟩
    exact .kept hk hs

@[simp] theorem yields_rule : Yields defs (.rule n) ts ↔ ∃ t, Derives defs n t ∧ ts = [t] := by
  constructor
  · intro h
    cases h with
    | rule he hcs => exact ⟨_, .rule he hcs, rfl⟩
  · rintro ⟨t, ht, rfl⟩
    exact ht

@[simp] theorem yields_seq :
    Yields defs (.seq a b) ts ↔ ∃ xs, Yields defs a xs ∧ ∃ ys, Yields defs b ys ∧
      ts = xs ++ ys := by
  constructor
  · intro h
    cases h with
    | seq ha hb => exact ⟨_, ha, _, hb, rfl⟩
  · rintro ⟨xs, hx, ys, hy, rfl⟩
    exact .seq hx hy

@[simp] theorem yields_alt : Yields defs (.alt a b) ts ↔ Yields defs a ts ∨ Yields defs b ts := by
  constructor
  · intro h
    cases h with
    | left ha => exact .inl ha
    | right hb => exact .inr hb
  · rintro (ha | hb)
    · exact .left ha
    · exact .right hb

@[simp] theorem yields_opt : Yields defs (opt e) ts ↔ Yields defs e ts ∨ ts = [] := by
  rw [opt, yields_alt, yields_empty]

@[simp] theorem yields_lit_seq : Yields defs (.seq (lit w) b) ts ↔ Yields defs b ts := by
  simp

@[simp] theorem yields_seq_lit : Yields defs (.seq a (lit w)) ts ↔ Yields defs a ts := by
  simp

@[simp] theorem yields_rule_seq :
    Yields defs (.seq (.rule n) b) ts ↔ ∃ t rest, ts = t :: rest ∧ Derives defs n t ∧
      Yields defs b rest := by
  rw [yields_seq]
  constructor
  · rintro ⟨_, hx, rest, hrest, rfl⟩
    obtain ⟨t, ht, rfl⟩ := yields_rule.mp hx
    exact ⟨t, rest, rfl, ht, hrest⟩
  · rintro ⟨t, rest, rfl, ht, hrest⟩
    exact ⟨[t], ht, rest, hrest, rfl⟩

theorem yields_token_seq (hk : k.isKept = true) :
    Yields defs (.seq (.token k) b) ts ↔ ∃ s rest, ts = .leaf s :: rest ∧ Yields defs b rest ∧
      k.Reads s := by
  rw [yields_seq]
  constructor
  · rintro ⟨_, hx, rest, hrest, rfl⟩
    obtain ⟨s, hs, rfl⟩ := (yields_token hk).mp hx
    exact ⟨s, rest, rfl, hrest, hs⟩
  · rintro ⟨s, rest, rfl, hrest, hs⟩
    exact ⟨[.leaf s], .kept hk hs, rest, hrest, rfl⟩

@[simp] theorem yields_opt_seq :
    Yields defs (.seq (opt a) b) ts ↔ Yields defs (.seq a b) ts ∨ Yields defs b ts := by
  simp only [yields_seq, yields_opt]
  constructor
  · rintro ⟨xs, hx | rfl, ys, hy, rfl⟩
    · exact .inl ⟨xs, hx, ys, hy, rfl⟩
    · exact .inr hy
  · rintro (⟨xs, hx, ys, hy, rfl⟩ | hy)
    · exact ⟨xs, .inl hx, ys, hy, rfl⟩
    · exact ⟨[], .inr rfl, ts, hy, rfl⟩

theorem Yields.rounds (h : Yields defs (many e) ts) :
    ∃ rounds : List (List Tree), (∀ r ∈ rounds, Yields defs e r) ∧ ts = rounds.flatten := by
  rw [many, yields_opt] at h
  rcases h with h | rfl
  · generalize hr : Ebnf.many1 e = r at h
    induction h with
    | once he =>
      cases hr
      exact ⟨[_], by simpa using he, by simp⟩
    | @again e' xs ys _ he ih _ =>
      cases hr
      obtain ⟨rounds, hrounds, rfl⟩ := ih rfl
      refine ⟨rounds ++ [ys], fun r hr => ?_, by simp⟩
      rcases mem_append.mp hr with hr | hr
      · exact hrounds r hr
      · exact (mem_singleton.mp hr) ▸ he
    | _ => cases hr
  · exact ⟨[], by simp, rfl⟩

theorem Yields.forall_many (he : ∀ r, Yields defs e r → ∃ t, P t ∧ r = [t])
    (h : Yields defs (many e) ts) : ∀ t ∈ ts, P t := by
  obtain ⟨rounds, hrounds, rfl⟩ := h.rounds
  intro t ht
  obtain ⟨r, hr, ht⟩ := mem_flatten.mp ht
  obtain ⟨t', ht', rfl⟩ := he r (hrounds r hr)
  exact mem_singleton.mp ht ▸ ht'

theorem Yields.forall_sepBy1 (he : ∀ r, Yields defs e r → ∃ t, P t ∧ r = [t])
    (h : Yields defs (sepBy1 e (lit w)) ts) : ts ≠ [] ∧ ∀ t ∈ ts, P t := by
  rw [sepBy1, yields_seq] at h
  obtain ⟨xs, hx, ys, hy, rfl⟩ := h
  obtain ⟨t, ht, rfl⟩ := he xs hx
  refine ⟨by simp, ?_⟩
  have hys : ∀ t ∈ ys, P t := by
    refine hy.forall_many fun r hr => ?_
    obtain ⟨_, hl, r', hr', rfl⟩ := yields_seq.mp hr
    rw [yields_lit.mp hl]
    exact he r' hr'
  intro t' ht'
  rcases mem_cons.mp ht' with rfl | ht'
  · exact ht
  · exact hys t' ht'

theorem derives_iff : Derives defs n t ↔ ∃ e cs, defs.lookup n = some e ∧ Yields defs e cs ∧
    t = .node n cs := by
  constructor
  · intro h
    cases h with
    | rule he hcs => exact ⟨_, _, he, hcs, rfl⟩
  · rintro ⟨e, cs, he, hcs, rfl⟩
    exact .rule he hcs

end Forms

/-- The rules that a right side refers to. -/
def refs : Ebnf → List String
  | .empty => []
  | .token _ => []
  | .rule n => [n]
  | .seq a b => a.refs ++ b.refs
  | .alt a b => a.refs ++ b.refs
  | .many1 e => e.refs

theorem Yields.leaf_or_derives (h : Yields defs e ts) :
    ∀ t ∈ ts, (∃ s, t = .leaf s) ∨ ∃ n ∈ e.refs, Derives defs n t := by
  induction h with
  | empty =>
    intro t ht
    cases ht
  | kept =>
    intro t ht
    exact .inl ⟨_, mem_singleton.mp ht⟩
  | dropped =>
    intro t ht
    cases ht
  | @rule n _ _ he hcs =>
    intro t ht
    exact .inr ⟨n, by simp [refs], mem_singleton.mp ht ▸ .rule he hcs⟩
  | seq _ _ iha ihb =>
    intro t ht
    rcases mem_append.mp ht with ht | ht
    · exact (iha t ht).imp_right fun ⟨n, hn, hd⟩ => ⟨n, by simp [refs, hn], hd⟩
    · exact (ihb t ht).imp_right fun ⟨n, hn, hd⟩ => ⟨n, by simp [refs, hn], hd⟩
  | left _ ih =>
    exact fun t ht => (ih t ht).imp_right fun ⟨n, hn, hd⟩ => ⟨n, by simp [refs, hn], hd⟩
  | right _ ih =>
    exact fun t ht => (ih t ht).imp_right fun ⟨n, hn, hd⟩ => ⟨n, by simp [refs, hn], hd⟩
  | once _ ih => exact ih
  | again _ _ iha ihb =>
    intro t ht
    rcases mem_append.mp ht with ht | ht
    · exact iha t ht
    · exact ihb t ht

theorem Yields.forall_trees {rules : List String} {P : Tree → Prop}
    (hleaf : ∀ (k : Token) (s : String), k.isKept = true → k.Reads s → P (.leaf s))
    (hnode : ∀ n ∈ rules, ∀ cs : List Tree, (∀ c ∈ cs, P c) → P (.node n cs))
    (hrules : ∀ n ∈ rules, ∀ e, defs.lookup n = some e → ∀ m ∈ e.refs, m ∈ rules)
    (h : Yields defs e ts) : (∀ n ∈ e.refs, n ∈ rules) → ∀ t ∈ ts, P t := by
  induction h with
  | empty =>
    intro _ t ht
    cases ht
  | kept hk hs =>
    intro _ t ht
    exact mem_singleton.mp ht ▸ hleaf _ _ hk hs
  | dropped =>
    intro _ t ht
    cases ht
  | @rule n e cs he _ ih =>
    intro hn t ht
    have hmem : n ∈ rules := hn n (by simp [refs])
    exact mem_singleton.mp ht ▸ hnode n hmem cs (ih (hrules n hmem e he))
  | seq _ _ iha ihb =>
    intro hn t ht
    simp only [refs, mem_append] at hn
    rcases mem_append.mp ht with ht | ht
    · exact iha (fun n h => hn n (.inl h)) t ht
    · exact ihb (fun n h => hn n (.inr h)) t ht
  | left _ ih => exact fun hn => ih fun n h => hn n (by simp [refs, h])
  | right _ ih => exact fun hn => ih fun n h => hn n (by simp [refs, h])
  | once _ ih => exact ih
  | again _ _ iha ihb =>
    intro hn t ht
    rcases mem_append.mp ht with ht | ht
    · exact iha hn t ht
    · exact ihb hn t ht

/-! ### Checking a tree -/

/-- What can remain of a list of trees behind those that a right side leaves; `fuel` bounds the
depth that is looked at. -/
def rests (defs : List (String × Ebnf)) : Nat → Ebnf → List Tree → List (List Tree)
  | 0, _, _ => []
  | _ + 1, .empty, ts => [ts]
  | _ + 1, .token k, ts =>
    if k.isKept then
      match ts with
      | .leaf s :: rest => if k.munch? s.toList = some s.toList.length then [rest] else []
      | _ => []
    else [ts]
  | fuel + 1, .rule n, ts =>
    match ts, defs.lookup n with
    | .node m cs :: rest, some e =>
      if m = n ∧ (rests defs fuel e cs).any List.isEmpty then [rest] else []
    | _, _ => []
  | fuel + 1, .seq a b, ts => (rests defs fuel a ts).flatMap (rests defs fuel b)
  | fuel + 1, .alt a b, ts => rests defs fuel a ts ++ rests defs fuel b ts
  | fuel + 1, .many1 e, ts =>
    rests defs fuel e ts ++ (rests defs fuel e ts).flatMap (rests defs fuel (.many1 e))

section Checking

variable {defs : List (String × Ebnf)}

theorem Yields.cons_many1 {xs ys : List Tree} (hx : Yields defs e xs)
    (hy : Yields defs (.many1 e) ys) :
    Yields defs (.many1 e) (xs ++ ys) := by
  generalize hr : Ebnf.many1 e = r at hy
  induction hy with
  | once he =>
    cases hr
    exact .again (.once hx) he
  | again _ he ih _ =>
    cases hr
    rw [← append_assoc]
    exact .again (ih rfl) he
  | _ => cases hr

theorem yields_of_mem_rests :
    ∀ {fuel : Nat} {e : Ebnf} {ts rest : List Tree}, rest ∈ rests defs fuel e ts →
    ∃ xs, Yields defs e xs ∧ ts = xs ++ rest := by
  intro fuel
  induction fuel with
  | zero =>
    intro e ts rest h
    cases h
  | succ fuel ih =>
    intro e ts rest h
    cases e with
    | empty =>
      obtain rfl := mem_singleton.mp h
      exact ⟨[], .empty, rfl⟩
    | token k =>
      rw [rests.eq_def] at h
      dsimp only at h
      split at h
      · next hk =>
        split at h
        · next s rest' =>
          split at h
          · next hn =>
            obtain rfl := mem_singleton.mp h
            refine ⟨[.leaf s], .kept hk ⟨s.toList, _, hn, ?_⟩, rfl⟩
            rw [take_length, String.ofList_toList]
          · cases h
        · cases h
      · next hk =>
        obtain rfl := mem_singleton.mp h
        exact ⟨[], .dropped (Bool.not_eq_true _ ▸ hk), rfl⟩
    | rule n =>
      rw [rests.eq_def] at h
      dsimp only at h
      split at h
      · next m cs rest' e he =>
        split at h
        · next hm =>
          obtain rfl := mem_singleton.mp h
          obtain ⟨rfl, hcs⟩ := hm
          obtain ⟨rest, hrest, hempty⟩ := any_eq_true.mp hcs
          obtain ⟨xs, hxs, rfl⟩ := ih hrest
          rw [isEmpty_iff.mp hempty, append_nil]
          exact ⟨[.node m xs], .rule he hxs, rfl⟩
        · cases h
      · cases h
    | seq a b =>
      obtain ⟨mid, hmid, hrest⟩ := mem_flatMap.mp h
      obtain ⟨xs, hxs, rfl⟩ := ih hmid
      obtain ⟨ys, hys, rfl⟩ := ih hrest
      exact ⟨xs ++ ys, .seq hxs hys, (append_assoc ..).symm⟩
    | alt a b =>
      rcases mem_append.mp h with h | h
      · obtain ⟨xs, hxs, rfl⟩ := ih h
        exact ⟨xs, .left hxs, rfl⟩
      · obtain ⟨xs, hxs, rfl⟩ := ih h
        exact ⟨xs, .right hxs, rfl⟩
    | many1 e =>
      rcases mem_append.mp h with h | h
      · obtain ⟨xs, hxs, rfl⟩ := ih h
        exact ⟨xs, .once hxs, rfl⟩
      · obtain ⟨mid, hmid, hrest⟩ := mem_flatMap.mp h
        obtain ⟨xs, hxs, rfl⟩ := ih hmid
        obtain ⟨ys, hys, rfl⟩ := ih hrest
        exact ⟨xs ++ ys, hxs.cons_many1 hys, (append_assoc ..).symm⟩

theorem derives_of_rests (fuel : Nat)
    (h : (rests defs fuel (.rule n) [t]).any List.isEmpty = true) : Derives defs n t := by
  obtain ⟨rest, hrest, hempty⟩ := any_eq_true.mp h
  obtain ⟨xs, hxs, heq⟩ := yields_of_mem_rests hrest
  rw [isEmpty_iff.mp hempty, append_nil] at heq
  rw [Derives, heq]
  exact hxs

end Checking

end Ebnf

namespace Grammar

open Ebnf

variable {defs : List (String × Ebnf)} {names : List String} {base : Nat}
  {made made' : List (Ebnf × Rule)}

variable {e : Ebnf} {st st' : Expansion}

/-- The symbols are an alternative that the right side stands for, when helper rules have been
made. -/
inductive Spells (names : List String) (base : Nat) (made : List (Ebnf × Rule)) :
    Ebnf → List Sym → Prop
  | empty : Spells names base made .empty []
  | token {t : Token} : Spells names base made (.token t) [.token t]
  | rule {n : String} : n ∈ names → Spells names base made (.rule n) [.rule (names.idxOf n)]
  | seq {a b : Ebnf} {xs ys : List Sym} : Spells names base made a xs →
      Spells names base made b ys →
    Spells names base made (.seq a b) (xs ++ ys)
  | left {a b : Ebnf} {xs : List Sym} : Spells names base made a xs →
      Spells names base made (.alt a b) xs
  | right {a b : Ebnf} {xs : List Sym} : Spells names base made b xs →
      Spells names base made (.alt a b) xs
  | helper {e : Ebnf} {k : Nat} {r : Rule} : made[k]? = some (e, r) →
    Spells names base made (.many1 e) [.rule (base + k)]

theorem getElem?_grows {α : Type} {xs ys : List α} (h : xs <+: ys) {k : Nat} {x : α}
    (hk : xs[k]? = some x) :
    ys[k]? = some x := by
  obtain ⟨zs, rfl⟩ := h
  rw [List.getElem?_append_left (List.getElem?_eq_some_iff.mp hk).1, hk]

theorem Spells.mono (h : made <+: made') (hs : Spells names base made e ss) :
    Spells names base made' e ss := by
  induction hs with
  | empty => exact .empty
  | token => exact .token
  | rule hn => exact .rule hn
  | seq _ _ iha ihb => exact .seq iha ihb
  | left _ ih => exact .left ih
  | right _ ih => exact .right ih
  | helper hk => exact .helper (getElem?_grows h hk)

/-- Every helper rule derives its repetition: the body once, or itself and then the body. -/
def Expansion.Sound (names : List String) (st : Expansion) : Prop :=
  ∀ k e r, st.helpers[k]? = some (e, r) → r.name = none ∧ ∀ alt ∈ r.alternatives,
    ∃ body, Spells names st.base st.helpers e body ∧
      (alt = body ∨ alt = .rule (st.base + k) :: body)

/-- What bringing a right side into alternatives does to the helper rules. -/
structure Expands (names : List String) (st st' : Expansion) : Prop where
  grows : st.helpers <+: st'.helpers
  base : st'.base = st.base
  sound : st.Sound names → st'.Sound names

theorem Expands.refl : Expands names st st :=
  ⟨prefix_rfl, rfl, id⟩

theorem Expands.trans {st'' : Expansion} (h : Expands names st st') (h' : Expands names st' st'') :
    Expands names st st'' :=
  ⟨h.grows.trans h'.grows, h'.base.trans h.base, h'.sound ∘ h.sound⟩

theorem Expansion.getElem?_of_find? (h : st.find? e = some id) :
    ∃ k r, id = st.base + k ∧ st.helpers[k]? = some (e, r) := by
  obtain ⟨k, hk, rfl⟩ := map_eq_some_iff.mp h
  obtain ⟨hlt, he, -⟩ := findIdx?_eq_some_iff_getElem.mp hk
  refine ⟨k, st.helpers[k].2, rfl, ?_⟩
  rw [getElem?_eq_getElem hlt, ← of_decide_eq_true he]

theorem Expansion.Sound.add (h : st.Sound names) {bodies : List (List Sym)}
    (hb : ∀ b ∈ bodies, Spells names st.base st.helpers e b)
    (hst : st' = { st with helpers := st.helpers ++
      [(e, ⟨none, bodies ++ bodies.map (Sym.rule (st.base + st.helpers.length) :: ·)⟩)] }) :
      st'.Sound names := by
  subst hst
  intro k e' r hk
  have hgrow := prefix_append st.helpers
    [(e, Rule.mk none (bodies ++ bodies.map (Sym.rule (st.base + st.helpers.length) :: ·)))]
  rcases Nat.lt_or_ge k st.helpers.length with hlt | hge
  · rw [getElem?_append_left hlt] at hk
    obtain ⟨hname, halts⟩ := h k e' r hk
    refine ⟨hname, fun alt halt => ?_⟩
    obtain ⟨body, hbody, heq⟩ := halts alt halt
    exact ⟨body, hbody.mono hgrow, heq⟩
  · rw [getElem?_append_right hge] at hk
    obtain ⟨hlast, hk⟩ := List.getElem?_eq_some_iff.mp hk
    have hkl : k = st.helpers.length := by
      simp only [length_singleton] at hlast
      omega
    subst hkl
    simp only [Nat.sub_self, getElem_cons_zero, Prod.mk.injEq] at hk
    obtain ⟨rfl, rfl⟩ := hk
    refine ⟨rfl, fun alt halt => ?_⟩
    rcases mem_append.mp halt with halt | halt
    · exact ⟨alt, (hb alt halt).mono hgrow, .inl rfl⟩
    · obtain ⟨body, hbody, rfl⟩ := mem_map.mp halt
      exact ⟨body, (hb body hbody).mono hgrow, .inr rfl⟩

section Repetition

variable {e : Ebnf} {st st' : Expansion} {bodies : List (List Sym)}

theorem alternatives_repeated (h : (alternatives names e).run st = (bodies, st'))
    (hf : st'.find? e = some id) :
    (alternatives names (.many1 e)).run st = ([[.rule id]], st') := by
  rw [alternatives, StateT.run_bind, show _ = pure (bodies, st') from h]
  simp only [pure_bind, StateT.run_bind, StateT.run_get, hf]
  rfl

theorem alternatives_new (h : (alternatives names e).run st = (bodies, st'))
    (hf : st'.find? e = none) :
    (alternatives names (.many1 e)).run st =
      ([[.rule (st'.base + st'.helpers.length)]], { st' with helpers := st'.helpers ++
        [(e, ⟨none, bodies ++ bodies.map (Sym.rule (st'.base + st'.helpers.length) :: ·)⟩)] }) := by
  rw [alternatives, StateT.run_bind, show _ = pure (bodies, st') from h]
  simp only [pure_bind, StateT.run_bind, StateT.run_get, hf]
  rfl

end Repetition

/-- **The alternatives of a right side are those that it stands for.** -/
theorem alternatives_spells : ∀ (e : Ebnf), (∀ n ∈ e.refs, n ∈ names) → ∀ (st : Expansion),
    Expands names st ((alternatives names e).run st).2 ∧
      ∀ ss ∈ ((alternatives names e).run st).1, Spells names st.base
        ((alternatives names e).run st).2.helpers e ss := by
  intro e
  induction e with
  | empty =>
    intro _ st
    exact ⟨.refl, fun ss hss => mem_singleton.mp hss ▸ .empty⟩
  | token t =>
    intro _ st
    exact ⟨.refl, fun ss hss => mem_singleton.mp hss ▸ .token⟩
  | rule n =>
    intro hn st
    exact ⟨.refl, fun ss hss => mem_singleton.mp hss ▸ .rule (hn n (by simp [refs]))⟩
  | seq a b iha ihb =>
    intro hn st
    simp only [refs, mem_append] at hn
    obtain ⟨hsa, ha⟩ := iha (fun n h => hn n (.inl h)) st
    obtain ⟨hsb, hb⟩ := ihb (fun n h => hn n (.inr h)) ((alternatives names a).run st).2
    refine ⟨hsa.trans hsb, fun ss hss => ?_⟩
    obtain ⟨x, hx, hss⟩ := mem_flatMap.mp hss
    obtain ⟨y, hy, rfl⟩ := mem_map.mp hss
    exact .seq ((ha x hx).mono hsb.grows) (hsa.base ▸ hb y hy)
  | alt a b iha ihb =>
    intro hn st
    simp only [refs, mem_append] at hn
    obtain ⟨hsa, ha⟩ := iha (fun n h => hn n (.inl h)) st
    obtain ⟨hsb, hb⟩ := ihb (fun n h => hn n (.inr h)) ((alternatives names a).run st).2
    refine ⟨hsa.trans hsb, fun ss hss => ?_⟩
    rcases mem_append.mp hss with hss | hss
    · exact .left ((ha ss hss).mono hsb.grows)
    · exact .right (hsa.base ▸ hb ss hss)
  | many1 e ih =>
    intro hn st
    obtain ⟨hse, he⟩ := ih hn st
    rcases hp : (alternatives names e).run st with ⟨bodies, st'⟩
    rw [hp] at hse he
    cases hf : st'.find? e with
    | some id =>
      rw [alternatives_repeated hp hf]
      obtain ⟨k, r, rfl, hk⟩ := Expansion.getElem?_of_find? hf
      refine ⟨hse, fun ss hss => ?_⟩
      rw [mem_singleton.mp hss, show st'.base = st.base from hse.base]
      exact .helper hk
    | none =>
      rw [alternatives_new hp hf]
      refine ⟨hse.trans ⟨prefix_append .., rfl, fun h => h.add (hse.base ▸ he) rfl⟩,
        fun ss hss => ?_⟩
      rw [mem_singleton.mp hss, hse.base]
      exact .helper getElem?_concat_length

/-- The named rule is that of a definition. -/
def Names (names : List String) (base : Nat) (made : List (Ebnf × Rule)) (d : String × Ebnf)
    (r : Rule) : Prop :=
  r.name = some d.1 ∧ ∀ ss ∈ r.alternatives, Spells names base made d.2 ss

/-- The rule of a definition, as it is brought into alternatives. -/
def expand (names : List String) (d : String × Ebnf) : StateM Expansion Rule := do
  pure ⟨some d.1, (← alternatives names d.2).eraseDups⟩

theorem expand_names (hd : ∀ n ∈ d.2.refs, n ∈ names) (st : Expansion) :
    Expands names st ((expand names d).run st).2 ∧
      Names names st.base ((expand names d).run st).2.helpers d ((expand names d).run st).1 := by
  obtain ⟨hst, hss⟩ := alternatives_spells d.2 hd st
  exact ⟨hst, rfl, fun ss h => hss ss (mem_eraseDups.mp h)⟩

/-- **The rules of all definitions, in order.** -/
theorem mapM_expand_names : ∀ (ds : List (String × Ebnf)), (∀ d ∈ ds, ∀ n ∈ d.2.refs, n ∈ names) →
    ∀ (st : Expansion),
    Expands names st ((ds.mapM (expand names)).run st).2 ∧
      List.Forall₂ (Names names st.base ((ds.mapM (expand names)).run st).2.helpers) ds
        ((ds.mapM (expand names)).run st).1 := by
  intro ds
  induction ds with
  | nil =>
    intro _ st
    exact ⟨.refl, .nil⟩
  | cons d ds ih =>
    intro hds st
    obtain ⟨hst, hd⟩ := expand_names (hds d (by simp)) st
    obtain ⟨hst', hds'⟩ := ih (fun d' h => hds d' (mem_cons_of_mem d h)) ((expand names d).run st).2
    rw [mapM_cons]
    refine ⟨hst.trans hst', .cons ⟨hd.1, fun ss h => (hd.2 ss h).mono hst'.grows⟩ (hst.base ▸ hds')⟩

/-- Every rule that a definition refers to has a definition. -/
def Closed (defs : List (String × Ebnf)) : Prop :=
  ∀ d ∈ defs, ∀ n ∈ d.2.refs, n ∈ defs.map (·.1)

instance : Decidable (Closed defs) := by
  unfold Closed
  infer_instance

variable {id : Nat} {alt : List Sym}

theorem nameOf_eq {r : Rule} (h : g.rules[id]? = some r) : g.nameOf id = r.name := by
  rw [nameOf, h, bind_some]

theorem mem_alternativesOf (h : alt ∈ g.alternativesOf id) :
    ∃ r, g.rules[id]? = some r ∧ alt ∈ r.alternatives := by
  rw [alternativesOf] at h
  split at h
  · next r hr => exact ⟨r, hr, h⟩
  · cases h

/-- The symbols stand for what rule `id` derives: a definition, or a round of the repetition of a
helper rule. -/
def StandsFor (defs : List (String × Ebnf)) (made : List (Ebnf × Rule)) (id : Nat)
    (alt : List Sym) : Prop :=
  (∃ d, defs[id]? = some d ∧ (ofRules defs).nameOf id = some d.1 ∧
    Spells (defs.map (·.1)) defs.length made d.2 alt) ∨
    ∃ k e r, id = defs.length + k ∧ made[k]? = some (e, r) ∧ (ofRules defs).nameOf id = none ∧
      ∃ body, Spells (defs.map (·.1)) defs.length made e body ∧
        (alt = body ∨ alt = .rule id :: body)

/-- **Every alternative of a grammar in plain alternatives stands for something of the rules as they
are written.** -/
theorem exists_standsFor (h : Closed defs) :
    ∃ made : List (Ebnf × Rule), ∀ id, ∀ alt ∈ (ofRules defs).alternativesOf id,
      StandsFor defs made id alt := by
  obtain ⟨hst, hnamed⟩ := mapM_expand_names defs h ⟨[], defs.length⟩
  have hsound := hst.sound (by simp [Expansion.Sound])
  set named := ((defs.mapM (expand (defs.map (·.1)))).run ⟨[], defs.length⟩).1
  set st := ((defs.mapM (expand (defs.map (·.1)))).run ⟨[], defs.length⟩).2
  have hrules : (ofRules defs).rules = (named ++ st.helpers.map (·.2)).toArray := rfl
  have hbase : st.base = defs.length := hst.base
  have hlen : defs.length = named.length := hnamed.length_eq
  refine ⟨st.helpers, fun id alt halt => ?_⟩
  obtain ⟨r, hr, halt⟩ := mem_alternativesOf halt
  have hname := nameOf_eq hr
  rw [hrules, getElem?_toArray] at hr
  rcases Nat.lt_or_ge id defs.length with hlt | hge
  · have hlt' : id < named.length := hlen ▸ hlt
    rw [getElem?_append_left hlt', getElem?_eq_getElem hlt', Option.some.injEq] at hr
    obtain ⟨hd, hspells⟩ := hnamed.get hlt hlt'
    simp only [get_eq_getElem, hr] at hd hspells
    exact .inl ⟨defs[id], getElem?_eq_getElem hlt, hname.trans hd, hspells alt halt⟩
  · rw [getElem?_append_right (hlen ▸ hge), getElem?_map, map_eq_some_iff] at hr
    obtain ⟨⟨e, r'⟩, hk, rfl⟩ := hr
    obtain ⟨hnone, halts⟩ := hsound _ e r' hk
    have hid : id = defs.length + (id - named.length) := by omega
    rw [hbase, ← hid] at halts
    exact .inr ⟨_, e, r', hid, hk, hname.trans hnone, halts alt halt⟩

/-! ### What a parsed tree is made of -/

/-- The trees that a symbol leaves behind, read as the part of the rules that it stands for. -/
def SymYields (defs : List (String × Ebnf)) (made : List (Ebnf × Rule)) : Sym → List Tree → Prop
  | .token t, ts => Yields defs (.token t) ts
  | .rule id, ts => (∃ d cs, defs[id]? = some d ∧ Yields defs d.2 cs ∧ ts = [.node d.1 cs]) ∨
      ∃ k e r, id = defs.length + k ∧ made[k]? = some (e, r) ∧ Yields defs (.many1 e) ts

theorem lookup_of_getElem?_idxOf (hn : n ∈ defs.map (·.1))
    (h : defs[(defs.map (·.1)).idxOf n]? = some d) : d.1 = n ∧ defs.lookup n = some d.2 := by
  induction defs with
  | nil => cases hn
  | cons d' ds ih =>
    by_cases hd : d'.1 = n
    · subst hd
      simp only [map_cons, idxOf_cons_self, getElem?_cons_zero, Option.some.injEq] at h
      subst h
      exact ⟨rfl, lookup_cons_self⟩
    · rw [map_cons, idxOf_cons_ne _ hd, Nat.succ_eq_add_one, getElem?_cons_succ] at h
      obtain ⟨h1, h2⟩ := ih (by simpa [Ne.symm hd] using hn) h
      have hne : (n == d'.1) = false := beq_false_of_ne (Ne.symm hd)
      exact ⟨h1, by rw [lookup_cons, hne]; exact h2⟩

theorem Spells.yields (h : Spells (defs.map (·.1)) defs.length made e ss) :
    ∀ {tss : List (List Tree)}, List.Forall₂ (SymYields defs made) ss tss →
      Yields defs e tss.flatten := by
  induction h with
  | empty =>
    rintro _ ⟨⟩
    exact .empty
  | token =>
    rintro _ (_ | ⟨h, ⟨⟩⟩)
    simpa [SymYields] using h
  | rule hn =>
    rintro _ (_ | ⟨h, ⟨⟩⟩)
    rcases h with ⟨d, cs, hd, hcs, rfl⟩ | ⟨k, e, r, hk, -⟩
    · obtain ⟨rfl, hl⟩ := lookup_of_getElem?_idxOf hn hd
      exact .rule hl hcs
    · have := idxOf_lt_length_of_mem hn
      rw [hk, length_map] at this
      omega
  | @seq a b xs ys _ _ iha ihb =>
    intro tss h
    rw [← take_append_drop xs.length tss, flatten_append]
    exact .seq (iha (forall₂_take_append tss xs ys h.flip).flip)
      (ihb (forall₂_drop_append tss xs ys h.flip).flip)
  | left _ ih => exact fun h => .left (ih h)
  | right _ ih => exact fun h => .right (ih h)
  | helper hk =>
    rintro _ (_ | ⟨h, ⟨⟩⟩)
    rcases h with ⟨d, cs, hd, -⟩ | ⟨k', e', r', hk', hmade, hyields⟩
    · have := (List.getElem?_eq_some_iff.mp hd).1
      omega
    · obtain rfl := Nat.add_left_cancel hk'
      obtain ⟨rfl, -⟩ := Prod.mk.inj (Option.some.inj (hk.symm.trans hmade))
      simpa using hyields

theorem StandsFor.yields (h : StandsFor defs made id alt) {tss : List (List Tree)}
    (ht : List.Forall₂ (SymYields defs made) alt tss) :
    SymYields defs made (.rule id) (match (ofRules defs).nameOf id with
      | some n => [.node n tss.flatten]
      | none => tss.flatten) := by
  rcases h with ⟨d, hd, hname, hs⟩ | ⟨k, e, r, hk, hmade, hname, body, hs, rfl | rfl⟩
  · rw [hname]
    exact .inl ⟨d, _, hd, hs.yields ht, rfl⟩
  · rw [hname]
    exact .inr ⟨k, e, r, hk, hmade, .once (hs.yields ht)⟩
  · rw [hname]
    cases ht with
    | cons hself hbody =>
      rcases hself with ⟨d, cs, hd, -⟩ | ⟨k', e', r', hk', hmade', hyields⟩
      · have := (List.getElem?_eq_some_iff.mp hd).1
        omega
      · obtain rfl : k = k' := by omega
        obtain ⟨rfl, -⟩ := Prod.mk.inj (Option.some.inj (hmade.symm.trans hmade'))
        exact .inr ⟨k, e, r, hk, hmade, .again hyields (hs.yields hbody)⟩

end Grammar

namespace Chart

open Grammar

variable {g : Grammar} {ch : Chart} {tails : Array (List Char)}

theorem map_fst_stretches {x : Item} : ∀ {dot j : Nat} {acc parts : List (Sym × Nat × Nat)},
    stretches g ch tails x dot j acc = some parts →
      parts.map (·.1) = (x.body g).take dot ++ acc.map (·.1) := by
  intro dot
  induction dot with
  | zero =>
    intro j acc parts h
    obtain rfl := Option.some.inj h
    simp
  | succ dot ih =>
    intro j acc parts h
    simp only [stretches, bind_eq_bind, bind_eq_some_iff] at h
    obtain ⟨s, hs, h⟩ := h
    have hstep : ∃ k, stretches g ch tails x dot k ((s, k, j) :: acc) = some parts := by
      cases s with
      | token t =>
        obtain ⟨k, -, h⟩ := bind_eq_some_iff.mp h
        exact ⟨k, h⟩
      | rule id =>
        obtain ⟨k, -, h⟩ := bind_eq_some_iff.mp h
        exact ⟨k, h⟩
    obtain ⟨k, h⟩ := hstep
    rw [ih h, take_add_one, hs]
    simp

theorem body_mem_of_preferred? {i j a : Nat} (h : preferred? g ch id i j = some a) :
    Item.body g ⟨id, a, 0, i⟩ ∈ g.alternativesOf id := by
  have hfits : a ∈ (List.range (g.alternativesOf id).length).filter (derives g ch id i j) := by
    simp only [preferred?] at h
    generalize (List.range (g.alternativesOf id).length).filter (derives g ch id i j) = fits at h
    cases hf : fits.find? fun a =>
      ((Item.body g ⟨id, a, 0, i⟩).getLast?.map Sym.isToken).getD false with
    | some a' =>
      rw [hf] at h
      exact Option.some.inj h ▸ mem_of_find?_eq_some hf
    | none =>
      rw [hf] at h
      exact mem_of_mem_head? h
  have ha : a < (g.alternativesOf id).length := mem_range.mp (mem_filter.mp hfits).1
  rw [Item.body, getElem?_eq_getElem ha, getD_some]
  exact getElem_mem ha

theorem forall₂_of_mapM {P : Sym → List Tree → Prop} {f : Sym × Nat × Nat → Option (List Tree)}
    (hf : ∀ part ts, f part = some ts → P part.1 ts) :
    ∀ {parts : List (Sym × Nat × Nat)} {tss : List (List Tree)}, parts.mapM f = some tss →
      List.Forall₂ P (parts.map (·.1)) tss := by
  intro parts
  induction parts with
  | nil =>
    intro tss h
    obtain rfl := Option.some.inj h
    exact .nil
  | cons part parts ih =>
    intro tss h
    simp only [mapM_cons, bind_eq_bind, bind_eq_some_iff] at h
    obtain ⟨ts, hts, tss, htss, h⟩ := h
    obtain rfl := Option.some.inj h
    exact .cons (hf part ts hts) (ih htss)

/-- **What a rule derives from a stretch of a text, it leaves as it is written.** -/
theorem derive_yields {made : List (Ebnf × Rule)}
    (hmade : ∀ id, ∀ alt ∈ (ofRules defs).alternativesOf id, StandsFor defs made id alt) :
    ∀ {fuel id i j : Nat} {ts : List Tree},
      derive (ofRules defs) ch tails fuel id i j = some ts → SymYields defs made (.rule id) ts := by
  intro fuel
  induction fuel with
  | zero =>
    intro id i j ts h
    cases h
  | succ fuel ih =>
    intro id i j ts h
    simp only [derive, bind_eq_bind, bind_eq_some_iff] at h
    obtain ⟨a, ha, parts, hparts, children, hchildren, h⟩ := h
    have hbody : parts.map (·.1) = Item.body (ofRules defs) ⟨id, a, 0, i⟩ := by
      simpa using map_fst_stretches hparts
    have hleaves : List.Forall₂ (SymYields defs made) (parts.map (·.1)) children := by
      refine forall₂_of_mapM (fun ⟨s, k, l⟩ ts hts => ?_) hchildren
      cases s with
      | token t =>
        dsimp only at hts
        rw [SymYields]
        by_cases ht : t.isKept = true
        · rw [if_pos ht] at hts
          obtain ⟨n, hn, hts⟩ := bind_eq_some_iff.mp hts
          obtain rfl := Option.some.inj hts
          exact .kept ht ⟨_, n, hn, rfl⟩
        · rw [if_neg ht] at hts
          obtain rfl := Option.some.inj hts
          exact .dropped (Bool.not_eq_true _ ▸ ht)
      | rule id' => exact ih hts
    rw [hbody] at hleaves
    have := (hmade id _ (body_mem_of_preferred? ha)).yields hleaves
    cases hn : (ofRules defs).nameOf id with
    | some n =>
      rw [hn] at h this
      exact Option.some.inj h ▸ this
    | none =>
      rw [hn] at h this
      exact Option.some.inj h ▸ this

end Chart

/-- **A parsed tree derives from the first rule.** -/
theorem Grammar.derives_of_parse (hclosed : Closed (d :: defs))
    {text : String} (h : (ofRules (d :: defs)).parse text = .ok t) :
    Ebnf.Derives (d :: defs) d.1 t := by
  obtain ⟨made, hmade⟩ := exists_standsFor hclosed
  simp only [parse] at h
  split at h
  · next t' ht' =>
    obtain rfl := Except.ok.inj h
    rcases Chart.derive_yields hmade ht' with ⟨d', cs, hd, hcs, ht⟩ | ⟨k, e, r, hk, -⟩
    · obtain rfl := Option.some.inj hd
      obtain rfl := head_eq_of_cons_eq ht
      exact .rule lookup_cons_self hcs
    · simp [startRule] at hk
      omega
  · cases h

end Pathwise
