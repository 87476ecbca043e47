import Pathwise.Proofs.PacketParser.Machine

/-!
# When the parser of a node agrees with the definition

The parser of a node should visit the states that the definition visits and extract the same
headers, up to the first state that was pruned, and accept there.  It does not always: two entries
of a select with one target are filed as one; a value that leads to a pruned state falls through to
the entries that are left, and with them to a default entry that leads elsewhere or to none; and of
several extractions in a state one is left.

* `agreesWith_iff` turns the comparison of two runs into a comparison of single steps.
* `State.Files.written_thinned` says what is left of a described state in the text of a node, so
  that the steps can be compared on the definition alone (`Stage.pruned`).
* `node_parser_agrees_iff` puts them together: the exact condition, and a condition on the entries
  of a select that can be read off a definition and suffices.
-/

namespace Pathwise.PacketParser

open List OrderedMap

/-! ### Cutting a run -/

/-- Whether a place is no pruned state. -/
def Place.isKept (kept : String → Bool) : Place → Bool
  | visiting n => kept n
  | _ => true

/-- Instead of going on to a pruned state the packet is accepted. -/
def Place.cut (kept : String → Bool) : Place → Place
  | visiting n => if kept n then visiting n else accepted
  | p => p

/-- A run, cut just before the first pruned state. -/
def cutRun (kept : String → Bool) (run : Nat → Place) (k : Nat) : Place :=
  if ∀ j ≤ k, (run j).isKept kept = true then run k else .accepted

theorem Place.cut_of_isKept {kept : String → Bool} {p : Place} (h : p.isKept kept = true) :
    p.cut kept = p := by
  cases p with
  | visiting n => exact if_pos h
  | accepted => rfl
  | rejected => rfl

theorem Place.cut_of_not_isKept {kept : String → Bool} {p : Place} (h : p.isKept kept = false) :
    p.cut kept = .accepted := by
  cases p with
  | visiting n => exact if_neg (by simpa [Place.isKept] using h)
  | accepted => cases h
  | rejected => cases h

theorem cutRun_of_kept {kept : String → Bool} {run : Nat → Place} {k : Nat}
    (h : ∀ j ≤ k, (run j).isKept kept = true) : cutRun kept run k = run k :=
  if_pos h

theorem cutRun_succ_of_kept {kept : String → Bool} {run : Nat → Place} {k : Nat}
    (h : ∀ j ≤ k, (run j).isKept kept = true) :
    cutRun kept run (k + 1) = (run (k + 1)).cut kept := by
  cases hk : (run (k + 1)).isKept kept with
  | true =>
    rw [Place.cut_of_isKept hk]
    refine cutRun_of_kept fun j hj => ?_
    rcases Nat.lt_or_ge k j with hlt | hle
    · rwa [show j = k + 1 by omega]
    · exact h j hle
  | false =>
    rw [Place.cut_of_not_isKept hk]
    refine if_neg fun hall => ?_
    rw [hall (k + 1) (Nat.le_refl _)] at hk
    cases hk

theorem cutRun_succ_of_not_kept {kept : String → Bool} {run : Nat → Place} {k : Nat}
    (h : ¬ ∀ j ≤ k, (run j).isKept kept = true) : cutRun kept run (k + 1) = .accepted :=
  if_neg fun hall => h fun j hj => hall j (Nat.le_succ_of_le hj)

/-! ### From runs to steps -/

section Runs

variable {V : Type} [DecidableEq V] (denote : String → V)

/-- One machine visits the states of another one and extracts the same headers, up to the first
pruned state. -/
def Machine.AgreesWith (e m : Machine) (kept : String → Bool) (val : Nat → Tree → V) : Prop :=
  ∀ k, e.place denote val k = cutRun kept (m.place denote val) k ∧
    e.headersAt (e.place denote val k) = m.headersAt (e.place denote val k)

/-- **Two runs agree if and only if the steps from the visited states do.** -/
theorem agreesWith_iff {e m : Machine} {kept : String → Bool} (hstart : kept startName = true)
    (val : Nat → Tree → V) :
    e.AgreesWith denote m kept val ↔
      ∀ k n, m.place denote val k = .visiting n →
        (∀ j ≤ k, (m.place denote val j).isKept kept = true) →
        e.headersAt (.visiting n) = m.headersAt (.visiting n) ∧
        e.step denote (val k) (.visiting n) = (m.step denote (val k) (.visiting n)).cut kept := by
  constructor
  · intro h k n hn hkept
    have hplace : e.place denote val k = .visiting n := by
      rw [(h k).1, cutRun_of_kept hkept, hn]
    refine ⟨?_, ?_⟩
    · have := (h k).2
      rwa [hplace] at this
    · have hnext := (h (k + 1)).1
      rwa [cutRun_succ_of_kept hkept, Machine.place, Machine.place, hplace, hn] at hnext
  · intro h
    -- the induction is on the number of steps: as long as no state was pruned, both stand at the
    -- same place
    have hplace : ∀ k, e.place denote val k = cutRun kept (m.place denote val) k := by
      intro k
      induction k with
      | zero =>
        have hzero : cutRun kept (m.place denote val) 0 = m.place denote val 0 := by
          refine cutRun_of_kept fun j hj => ?_
          rw [Nat.le_zero.mp hj]
          exact hstart
        rw [hzero]
        rfl
      | succ k ih =>
        rw [Machine.place, ih]
        by_cases hkept : ∀ j ≤ k, (m.place denote val j).isKept kept = true
        · rw [cutRun_of_kept hkept, cutRun_succ_of_kept hkept, Machine.place]
          cases hn : m.place denote val k with
          | visiting n => exact (h k n hn hkept).2
          | accepted => rfl
          | rejected => rfl
        · rw [cutRun_succ_of_not_kept hkept, cutRun, if_neg hkept]
          rfl
    intro k
    refine ⟨hplace k, ?_⟩
    rw [hplace k]
    by_cases hkept : ∀ j ≤ k, (m.place denote val j).isKept kept = true
    · rw [cutRun_of_kept hkept]
      cases hn : m.place denote val k with
      | visiting n => exact (h k n hn hkept).1
      | accepted => rfl
      | rejected => rfl
    · rw [cutRun, if_neg hkept]
      rfl

end Runs

/-! ### What is left of a state -/

/-- What the text of a node says of a transition if only the targets with `keep` are left. -/
def Transition.pruned (constants : OrderedMap String String) (keep : String → Bool) :
    Transition → Transition
  | goto target => goto (if keep target then target else acceptName)
  | select e entries =>
    let rest := (OrderedMap.ofList (entries.map fun x => (x.2, x.1))).entries.filter fun x =>
      keep x.1
    select e (if rest.isEmpty then [(defaultWord, acceptName)]
      else rest.map fun x => (constantValue constants x.2, x.1))

/-- What the text of a node says of a state. -/
def Stage.pruned (constants : OrderedMap String String) (keep : String → Bool)
    (g : Stage) : Stage :=
  ⟨g.headers.getLast?.toList, g.transition.pruned constants keep⟩

theorem State.Files.written_thinned {s : State} {g : Stage} (h : s.Files g)
    (constants : OrderedMap String String) (keep : String → Bool) :
    ({ s with next := ⟨s.next.entries.filter fun x => keep x.1⟩ } : State).written constants
      = g.pruned constants keep := by
  obtain ⟨headers, tr⟩ := g
  obtain ⟨hextracted, hselect, hnext⟩ := h
  simp only [State.written, Stage.pruned, hextracted, State.writtenTransition, hselect, hnext]
  cases tr with
  | goto target =>
    simp only [Transition.value?, Transition.pruned, Transition.next, OrderedMap.ofList,
      OrderedMap.insert, OrderedMap.insertEntry, OrderedMap.empty, foldl_cons, foldl_nil]
    cases hk : keep target with
    | true => simp [hk, OrderedMap.isEmpty, OrderedMap.keys, String.join]
    | false => simp [hk, OrderedMap.isEmpty]
  | select e entries => rfl

/-! ### A condition that suffices -/

section Safe

variable {V : Type} [DecidableEq V] (denote : String → V)

/--
A select from which nothing is lost.  Its targets are pairwise different and its values stand for
themselves; and no target is pruned, or every target is, or a value that leads to a pruned state
falls through to a default entry that accepts.
-/
def Transition.IsSafe (constants : OrderedMap String String) (keep : String → Bool) :
    Transition → Prop
  | goto _ => True
  | select _ es => (es.map (·.2)).Nodup ∧ (∀ x ∈ es, constantValue constants x.1 = x.1) ∧
    (es ≠ [] ∧ (∀ x ∈ es, keep x.2 = true) ∨
      (∀ x ∈ es, keep x.2 = false) ∧ (∃ x ∈ es, x.1 = defaultWord) ∨
      (es.find? fun x => x.1 = defaultWord) = some (defaultWord, acceptName) ∧
        ∀ x ∈ es, ∀ y ∈ es, x.1 ≠ defaultWord → y.1 ≠ defaultWord → denote x.1 = denote y.1 → x = y)

theorem mem_of_choose {es : List (String × String)} {v : V} {target : String}
    (h : choose denote es v = some target) : ∃ x ∈ es, x.2 = target := by
  rw [choose] at h
  split at h
  · next x hx =>
    exact ⟨x, mem_of_find?_eq_some hx, Option.some.inj h⟩
  · obtain ⟨x, hx, rfl⟩ := Option.map_eq_some_iff.mp h
    exact ⟨x, mem_of_find?_eq_some hx, rfl⟩

theorem choose_of_default {es : List (String × String)} (v : V) (h : ∃ x ∈ es, x.1 = defaultWord) :
    ∃ target, choose denote es v = some target := by
  rw [choose]
  split
  · next x _ => exact ⟨x.2, rfl⟩
  · obtain ⟨x, hx, hd⟩ := h
    cases hf : es.find? fun x => x.1 = defaultWord with
    | some y => exact ⟨y.2, rfl⟩
    | none => exact absurd (find?_eq_none.mp hf x hx) (by simpa using hd)

theorem find?_filter_of_find? {α : Type} {xs : List α} {p q : α → Bool} {x : α}
    (h : xs.find? q = some x) (hp : p x = true) : (xs.filter p).find? q = some x := by
  rw [find?_filter]
  rw [find?_eq_some_iff_append] at h ⊢
  obtain ⟨hq, as, bs, rfl, has⟩ := h
  refine ⟨by simp [hp, hq], as, bs, rfl, fun a ha => ?_⟩
  have := has a ha
  simp only [Bool.not_eq_true'] at this ⊢
  simp [this]

theorem choose_filter {es : List (String × String)} {keep : String → Bool}
    (hacc : keep acceptName = true)
    (hd : (es.find? fun x => x.1 = defaultWord) = some (defaultWord, acceptName))
    (hinj : ∀ x ∈ es, ∀ y ∈ es, x.1 ≠ defaultWord → y.1 ≠ defaultWord → denote x.1 = denote y.1 →
      x = y) (v : V) :
    choose denote (es.filter fun x => keep x.2) v
      = (choose denote es v).map fun target => if keep target then target else acceptName := by
  have hd' := find?_filter_of_find? (p := fun x => keep x.2) hd hacc
  rw [choose, choose, hd, hd']
  cases hq : es.find? fun x => x.1 ≠ defaultWord && denote x.1 = v with
  | none =>
    have hnone : ((es.filter fun x => keep x.2).find? fun x => x.1 ≠ defaultWord && denote x.1 =
        v) = none := by
      rw [find?_eq_none] at hq ⊢
      exact fun x hx => hq x (mem_of_mem_filter hx)
    rw [hnone]
    simp [hacc]
  | some x =>
    cases hk : keep x.2 with
    | true =>
      rw [find?_filter_of_find? hq hk]
      simp [hk]
    | false =>
      -- no other entry stands for the value, so that the default entry is taken
      have hnone : ((es.filter fun x => keep x.2).find? fun x => x.1 ≠ defaultWord && denote x.1 =
          v) = none := by
        refine find?_eq_none.mpr fun y hy hqy => ?_
        rw [mem_filter] at hy
        have hx := find?_some hq
        simp only [Bool.and_eq_true, decide_eq_true_eq] at hx hqy
        have hxy := hinj x (mem_of_find?_eq_some hq) y hy.1 hx.1 hqy.1 (hx.2.trans hqy.2.symm)
        rw [hxy, hy.2] at hk
        cases hk
      rw [hnone]
      simp [hk]

theorem Place.cut_ofTarget {kept keep : String → Bool}
    (hkeep : ∀ n, keep n = (n == acceptName || kept n)) (target : String) :
    (Place.ofTarget target).cut kept = .ofTarget (if keep target then target else acceptName) := by
  by_cases h : target = acceptName
  · subst h
    simp [Place.ofTarget, Place.cut]
  · have hk : keep target = kept target := by simp [hkeep, h]
    rw [Place.ofTarget, if_neg h, hk, Place.cut]
    split
    · rw [Place.ofTarget, if_neg h]
    · rw [Place.ofTarget, if_pos rfl]

theorem Place.cut_ofChoice {kept keep : String → Bool}
    (hkeep : ∀ n, keep n = (n == acceptName || kept n)) :
    ∀ o : Option String, (Place.ofChoice o).cut kept
      = .ofChoice (o.map fun target => if keep target then target else acceptName)
  | none => rfl
  | some target => Place.cut_ofTarget hkeep target

/-- **A safe transition of a node leads where the described one leads, or accepts.** -/
theorem Transition.IsSafe.follow_pruned {constants : OrderedMap String String}
    {kept keep : String → Bool} (hkeep : ∀ n, keep n = (n == acceptName || kept n))
    {tr : Transition} (h : tr.IsSafe denote constants keep) (val : Tree → V) :
    (tr.pruned constants keep).follow denote val = (tr.follow denote val).cut kept := by
  have hacc : keep acceptName = true := by simp [hkeep]
  cases tr with
  | goto target => exact (Place.cut_ofTarget hkeep target).symm
  | select e es =>
    obtain ⟨hnd, hconst, hcases⟩ := h
    have hrest : ((OrderedMap.ofList (es.map fun x => (x.2, x.1))).entries.filter fun x => keep x.1)
        = (es.filter fun x => keep x.2).map fun x => (x.2, x.1) := by
      rw [entries_ofList_of_nodup (by simpa [map_map, Function.comp_def] using hnd), filter_map]
      rfl
    have hback : ((es.filter fun x => keep x.2).map fun x => (x.2, x.1)).map
        (fun x => (constantValue constants x.2, x.1)) = es.filter fun x => keep x.2 := by
      rw [map_map]
      refine (map_congr_left fun x hx => ?_).trans (map_id _)
      simp only [Function.comp_apply, hconst x (mem_of_mem_filter hx)]
      rfl
    simp only [Transition.pruned, hrest, hback, isEmpty_map, Transition.follow]
    rw [Place.cut_ofChoice hkeep]
    rcases hcases with ⟨hne, hall⟩ | ⟨hnone, hd⟩ | ⟨hd, hinj⟩
    · have hfilter : (es.filter fun x => keep x.2) = es := filter_eq_self.mpr hall
      rw [hfilter, if_neg (by simpa using hne)]
      cases hc : choose denote es (val e) with
      | none => rfl
      | some target =>
        obtain ⟨x, hx, rfl⟩ := mem_of_choose denote hc
        simp [hall x hx]
    · have hfilter : (es.filter fun x => keep x.2) = [] := by
        rw [filter_eq_nil_iff]
        exact fun x hx => by simp [hnone x hx]
      obtain ⟨target, hc⟩ := choose_of_default denote (val e) hd
      obtain ⟨x, hx, rfl⟩ := mem_of_choose denote hc
      have hleft : choose denote [(defaultWord, acceptName)] (val e) = some acceptName := by
        simp [choose]
      rw [hfilter, if_pos isEmpty_nil, hleft, hc, Option.map_some, hnone x hx]
      rfl
    · have hmem : (defaultWord, acceptName) ∈ es.filter fun x => keep x.2 :=
        mem_filter.mpr ⟨mem_of_find?_eq_some hd, hacc⟩
      rw [if_neg (by simpa using ne_nil_of_mem hmem), choose_filter denote hacc hd hinj]

end Safe

/-! ### The parser of a node -/

/-- Whether a target is left in the parser of a node. -/
def keepsTarget (p : Table) (target : String) : Bool :=
  target == acceptName || p.contains target

theorem Collected.isKept_eq {t : Table} (ht : Collected t) (used : List String) (target : String) :
    isKept used t target = keepsTarget (kept used t) target := by
  rw [Bool.eq_iff_iff, keepsTarget, Bool.or_eq_true, beq_iff_eq, OrderedMap.contains_iff]
  constructor
  · exact ht.mem_keys_of_isKept
  · rintro (rfl | hmem)
    · simp [isKept]
    · obtain ⟨s, hs⟩ := (OrderedMap.mem_keys_iff _ _).mp hmem
      obtain ⟨s0, h0, hneeded, _⟩ := ht.find?_kept.mp hs
      simp [isKept, h0, hneeded]

/-- **What a node says of a state it keeps.** -/
theorem Collected.find?_written_kept {t : Table} (ht : Collected t) {m : Machine} (hm : Files t m)
    (constants : OrderedMap String String) (used : List String) {n : String}
    (hn : (kept used t).contains n = true) :
    ∃ g, m.find? n = some g ∧
      (written constants (kept used t)).find? n =
        some (g.pruned constants (keepsTarget (kept used t))) := by
  obtain ⟨s, hs⟩ := (mem_keys_iff _ n).mp ((contains_iff _ n).mp hn)
  obtain ⟨s0, h0, _, rfl⟩ := ht.find?_kept.mp hs
  obtain ⟨g, hg, hfiles⟩ := hm.state n s0 h0
  refine ⟨g, hg, ?_⟩
  rw [written, OrderedMap.find?_map, hs, Option.map_some, funext (ht.isKept_eq used),
    hfiles.written_thinned]

theorem toList_getLast?_eq_self_iff {α : Type} (xs : List α) : xs.getLast?.toList = xs ↔
    xs.length ≤ 1 := by
  constructor
  · intro h
    rw [← h]
    cases xs.getLast? <;> simp
  · intro h
    match xs, h with
    | [], _ => rfl
    | [x], _ => rfl

theorem kept_of_visiting {kept : String → Bool} {run : Nat → Place} {k : Nat} {n : String}
    (hn : run k = .visiting n) (hkept : ∀ j ≤ k, (run j).isKept kept = true) : kept n = true := by
  have hk := hkept k (Nat.le_refl k)
  rwa [hn] at hk

/-- **The steps of a node's parser, compared on the definition alone.** -/
theorem Collected.written_agreesWith_iff {t : Table} (ht : Collected t) {m : Machine}
    (hm : Files t m) (constants : OrderedMap String String) (used : List String) {V : Type}
    [DecidableEq V] (denote : String → V) (val : Nat → Tree → V) :
    (written constants (kept used t)).AgreesWith denote m (kept used t).contains val ↔
      ∀ k n g, m.place denote val k = .visiting n →
        (∀ j ≤ k, (m.place denote val j).isKept (kept used t).contains = true) →
          m.find? n = some g →
        g.headers.length ≤ 1 ∧
        (g.transition.pruned constants (keepsTarget (kept used t))).follow denote (val k)
          = (g.transition.follow denote (val k)).cut (kept used t).contains := by
  have hstart : (kept used t).contains startName = true :=
    (contains_iff _ _).mpr ((ht.mem_keys_kept startName).mpr (Or.inl rfl))
  rw [agreesWith_iff denote hstart val]
  refine forall_congr' fun k => forall_congr' fun n => ?_
  constructor
  · intro hlocal g hn hkept hg
    obtain ⟨g', hg', hw⟩ := ht.find?_written_kept hm constants used (kept_of_visiting hn hkept)
    obtain rfl := Option.some.inj (hg.symm.trans hg')
    have hstep := hlocal hn hkept
    simp only [Machine.headersAt, Machine.step, hw, hg, Stage.pruned,
      toList_getLast?_eq_self_iff] at hstep
    exact hstep
  · intro hlocal hn hkept
    obtain ⟨g, hg, hw⟩ := ht.find?_written_kept hm constants used (kept_of_visiting hn hkept)
    simp only [Machine.headersAt, Machine.step, hw, hg, Stage.pruned, toList_getLast?_eq_self_iff]
    exact hlocal g hn hkept hg

/--
**When the parser of a node agrees with the definition.**  The definition describes a machine, the
text of the node another one.  For every value that the selects may have at every step, the two
agree up to the first pruned state if and only if in every state that the definition visits before
it

* at most one header is extracted, and
* what is left of the transition leads where the described transition leads, or accepts if that
  state was pruned.

Both hold in every state with at most one extraction whose transition is safe.
-/
theorem node_parser_agrees_iff {constants : OrderedMap String String} {sig : Signature} {l : Layout}
    {tree : Tree} {c c' : String} {t : Table} (h : table constants sig l tree c = .ok t c')
    (hshape : ∀ nodes, nodeTrees tree = .ok nodes → ∀ n ∈ nodes, IsStateTree n)
    (used : List String) :
    ∃ m p, described constants tree = some m ∧ prune used t = .ok p ∧
      tableText constants sig p
        = (p.entries.forM fun e => (e.2.written constants).draft constants sig e.1 e.2.body) ∧
      ∀ (V : Type) [DecidableEq V] (denote : String → V) (val : Nat → Tree → V),
        ((written constants p).AgreesWith denote m p.contains val ↔
          ∀ k n g, m.place denote val k = .visiting n →
            (∀ j ≤ k, (m.place denote val j).isKept p.contains = true) → m.find? n = some g →
            g.headers.length ≤ 1 ∧
            (g.transition.pruned constants (keepsTarget p)).follow denote (val k)
              = (g.transition.follow denote (val k)).cut p.contains) ∧
        ((∀ n g, m.find? n = some g → p.contains n = true →
            g.headers.length ≤ 1 ∧ g.transition.IsSafe denote constants (keepsTarget p)) →
          (written constants p).AgreesWith denote m p.contains val) := by
  have ht := table_collected h
  obtain ⟨m, hm, hfiles⟩ := table_files h hshape
  refine ⟨m, kept used t, hm, ht.prune_eq_kept used, tableText_eq _ _ _, fun V _ denote val => ?_⟩
  have hiff := ht.written_agreesWith_iff hfiles constants used denote val
  refine ⟨hiff, fun hsafe => hiff.mpr fun k n g hn hkept hg => ?_⟩
  obtain ⟨hlen, hs⟩ := hsafe n g hg (kept_of_visiting hn hkept)
  exact ⟨hlen, hs.follow_pruned denote (fun _ => rfl) (val k)⟩

/-- The machine that the definition with the circle describes. -/
def taggedMachine : Machine := ⟨[
  ("start", ⟨[], .goto "tag"⟩),
  ("tag", ⟨["vlan"],
    .select (.node "data" [.node "name_field" [.leaf "hdr", .leaf "vlan", .leaf "kind"]])
    [("1", "tag"), ("2", "four"), ("default", "six")]⟩),
  ("four", ⟨["ipv4"], .goto "accept"⟩),
  ("six", ⟨["ipv6"], .goto "accept"⟩)]⟩

set_option maxRecDepth 4000 in
/--
On a node that does not use the header of the default entry, a packet with another value is rejected
and not accepted.
-/
theorem tagged_disagrees :
    table {} ⟨"headers", "hdr", "metas", "meta"⟩ taggedLayout tagged "" = .ok taggedTable "" ∧
    described {} tagged = some taggedMachine ∧ ∃ p, prune ["ipv4"] taggedTable = .ok p ∧
      ¬ (written {} p).AgreesWith id taggedMachine p.contains (fun _ _ => "3") := by
  have h : table {} ⟨"headers", "hdr", "metas", "meta"⟩ taggedLayout tagged "" =
      .ok taggedTable "" := rfl
  have hshape : ∀ nodes, nodeTrees tagged = .ok nodes → ∀ n ∈ nodes, IsStateTree n := by
    intro nodes hnodes
    obtain rfl := Except.ok.inj hnodes
    simp only [forall_mem_cons]
    refine ⟨⟨_, _, rfl, rfl, Or.inl rfl⟩, ⟨_, _, rfl, rfl, Or.inr ⟨rfl, _, rfl⟩⟩,
      ⟨_, _, rfl, rfl, Or.inl rfl⟩, ⟨_, _, rfl, rfl, Or.inl rfl⟩, fun n hn => by cases hn⟩
  obtain ⟨m, p, hm, hp, _, hall⟩ := node_parser_agrees_iff h hshape ["ipv4"]
  obtain rfl : taggedMachine = m := Option.some.inj hm
  refine ⟨h, hm, p, hp, fun hagrees => ?_⟩
  obtain rfl := Except.ok.inj hp
  have hlocal := ((hall String id fun _ _ => "3").1.mp hagrees 1 "tag" _ rfl (by decide) rfl).2
  exact absurd hlocal (by decide)

end Pathwise.PacketParser
