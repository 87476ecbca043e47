import Pathwise.PacketParser.Prune
import Pathwise.Proofs.PacketParser.Collected

/-!
# Pruning a parser is closed and loses no header that is used

`prune` splits the table into the needed states and the others, and then takes every state that is
not needed out of the needed states before it.  Here that loop is shown to succeed on every
collected table and to give `kept`, the table with both removals written down at once
(`prune_eq_kept`): the states before a state are exactly the ones that go on to it, so each removal
finds what it removes.

`prune_sound_and_complete` is what a node relies on.  A way from the first state to a state that
extracts a used header consists of needed states only, so it is there in the pruned table too
(`reaches_kept`).
-/

open Relation (ReflTransGen)

namespace Pathwise.PacketParser

open List OrderedMap

/-! ### Thinning out -/

/-- The table in which a state `n` goes on to `m` only if `keep n m`. -/
def thinned (keep : String → String → Bool) (t : Table) : Table :=
  ⟨t.entries.map fun e => (e.1,
    { e.2 with next := ⟨e.2.next.entries.filter fun x => keep e.1 x.1⟩ })⟩

@[simp] theorem keys_thinned (keep : String → String → Bool) (t : Table) :
    (thinned keep t).keys = t.keys := by
  simp [thinned, OrderedMap.keys, map_map, Function.comp_def]

theorem find?_thinned (keep : String → String → Bool) (t : Table) (n : String) :
    (thinned keep t).find? n
      = (t.find? n).map fun s => { s with
        next := ⟨s.next.entries.filter fun x => keep n x.1⟩ } := by
  obtain ⟨es⟩ := t
  simp only [thinned]
  induction es with
  | nil => rfl
  | cons e es ih =>
    rw [map_cons]
    cases h : e.1 == n with
    | true =>
      have he : e.1 = n := by simpa using h
      rw [find?_cons_pos h, find?_cons_pos h, Option.map_some, he]
    | false => rw [find?_cons_neg h, find?_cons_neg h, ih]

theorem thinned_congr {keep keep' : String → String → Bool} {t : Table} (ht : t.keys.Nodup)
    (h : ∀ n s, t.find? n = some s → ∀ m ∈ s.next.keys, keep n m = keep' n m) :
    thinned keep t = thinned keep' t := by
  refine ext_find? (by simp) (by simpa using ht) fun n => ?_
  rw [find?_thinned, find?_thinned]
  cases hn : t.find? n with
  | none => rfl
  | some s =>
    rw [Option.map_some, Option.map_some, filter_congr fun x hx => ?_]
    exact h n s hn x.1 (mem_map.mpr ⟨x, hx, rfl⟩)

theorem thinned_true (t : Table) : thinned (fun _ _ => true) t = t := by
  simp [thinned]

/-- **Taking out one target succeeds where the target is still there.** -/
theorem detach_thinned {keep : String → String → Bool} {t : Table} (ht : t.keys.Nodup)
    {n m : String} {s : State} (hs : t.find? n = some s) (hm : m ∈ s.next.keys)
    (hk : keep n m = true) :
    detach m (thinned keep t) n
      = .ok (thinned (fun n' m' => keep n' m' && !(n' == n && m' == m)) t) := by
  have hfind : (thinned keep t).find? n
      = some { s with next := ⟨s.next.entries.filter fun x => keep n x.1⟩ } := by
    rw [find?_thinned, hs, Option.map_some]
  have hcontains : (⟨s.next.entries.filter fun x => keep n x.1⟩ : OrderedMap String String).contains
      m = true := by
    rw [OrderedMap.contains_iff]
    obtain ⟨x, hx, rfl⟩ := mem_map.mp hm
    exact mem_map.mpr ⟨x, mem_filter.mpr ⟨hx, hk⟩, rfl⟩
  rw [detach, hfind]
  simp only [hcontains, if_true]
  congr 1
  have hmem : n ∈ (thinned keep t).keys := mem_keys_of_find? hfind
  refine ext_find? ?_ ?_ fun n' => ?_
  · rw [keys_insert_of_mem hmem]
    simp
  · rw [keys_insert_of_mem hmem]
    simpa using ht
  · rw [find?_insert, find?_thinned, find?_thinned]
    by_cases hn : n' = n
    · subst hn
      rw [if_pos rfl, hs, Option.map_some]
      simp only [OrderedMap.erase, filter_filter]
      congr 3
      refine filter_congr fun x _ => ?_
      simp [Bool.and_comm, bne]
    · have hbeq : (n' == n) = false := by simpa using hn
      simp only [if_neg hn, hbeq, Bool.false_and, Bool.not_false, Bool.and_true]

/-! ### The removals one after another -/

theorem foldlM_detach {t : Table} (ht : t.keys.Nodup) (m : String) (ps : List String)
    (hps : ps.Nodup) (hgo : ∀ n ∈ ps, ∀ s, t.find? n = some s → m ∈ s.next.keys) :
    ∀ keep : String → String → Bool, (∀ n ∈ ps, keep n m = true) → ps.foldlM (detach m)
    (thinned keep t)
      = .ok (thinned (fun n' m' => keep n' m' && !(ps.contains n' && m' == m)) t) := by
  induction ps with
  | nil =>
    intro keep _
    simp only [contains_nil, Bool.false_and, Bool.not_false, Bool.and_true]
    rfl
  | cons n ps ih =>
    intro keep hkeep
    rw [nodup_cons] at hps
    have ih' := ih hps.2 fun n' hn' => hgo n' (mem_cons_of_mem n hn')
    rw [foldlM_cons]
    cases hn : t.find? n with
    | none =>
      have hstep : detach m (thinned keep t) n = .ok (thinned keep t) := by
        rw [detach, find?_thinned, hn]
        rfl
      rw [hstep]
      refine (ih' keep fun n' hn' => hkeep n' (mem_cons_of_mem n hn')).trans ?_
      rw [thinned_congr ht fun n' s hs m' _ => ?_]
      have hne : n' ≠ n := fun h => by rw [h, hn] at hs; cases hs
      simp [hne]
    | some s =>
      rw [detach_thinned ht hn (hgo n mem_cons_self s hn) (hkeep n mem_cons_self)]
      refine (ih' _ fun n' hn' => ?_).trans ?_
      · have hne : n' ≠ n := fun h => hps.1 (h ▸ hn')
        simp [hkeep n' (mem_cons_of_mem n hn'), hne]
      · congr 2
        funext n' m'
        simp only [contains_cons]
        cases keep n' m' <;> cases n' == n <;> cases ps.contains n' <;> cases m' == m <;> rfl

theorem foldlM_detach_all {t : Table} (ht : t.keys.Nodup) (es : List (String × State))
    (hes : (es.map (·.1)).Nodup) (hnd : ∀ e ∈ es, e.2.before.Nodup)
    (hgo : ∀ e ∈ es, ∀ n ∈ e.2.before, ∀ s, t.find? n = some s → e.1 ∈ s.next.keys) :
    ∀ keep : String → String → Bool, (∀ e ∈ es, ∀ n, keep n e.1 = true) →
      es.foldlM (fun t e => e.2.before.foldlM (detach e.1) t) (thinned keep t)
        = .ok (thinned (fun n m =>
          keep n m && !(es.any fun e => e.2.before.contains n && m == e.1)) t) := by
  induction es with
  | nil =>
    intro keep _
    simp only [any_nil, Bool.not_false, Bool.and_true]
    rfl
  | cons e es ih =>
    intro keep hkeep
    rw [map_cons, nodup_cons] at hes
    rw [foldlM_cons, foldlM_detach ht e.1 e.2.before (hnd e mem_cons_self)
      (hgo e mem_cons_self) keep fun n _ => hkeep e mem_cons_self n]
    refine (ih hes.2 (fun e' he' => hnd e' (mem_cons_of_mem e he'))
      (fun e' he' => hgo e' (mem_cons_of_mem e he')) _ fun e' he' n => ?_).trans ?_
    · have hne : e'.1 ≠ e.1 := fun h => hes.1 (h ▸ mem_map.mpr ⟨e', he', rfl⟩)
      simp [hkeep e' (mem_cons_of_mem e he') n, hne]
    · congr 2
      funext n m
      simp only [any_cons, Bool.not_or, Bool.and_assoc]

/-! ### The pruned table -/

/-- Whether a target is left after pruning. -/
def isKept (used : List String) (t : Table) (m : String) : Bool :=
  m == acceptName || (t.find? m).any (isNeeded used m)

/-- The needed states with the needed targets. -/
def kept (used : List String) (t : Table) : Table :=
  thinned (fun _ m => isKept used t m) ⟨t.entries.filter fun e => isNeeded used e.1 e.2⟩

namespace Collected

variable {t : Table} {used : List String}

variable {n m h : String} {s : State}

theorem isNeeded_iff (ht : Collected t) (hs : t.find? n = some s) :
    isNeeded used n s = true ↔ n = startName ∨ ∃ h ∈ used, LiesDownstream t n h := by
  simp only [isNeeded, Bool.or_eq_true, decide_eq_true_eq, any_eq_true, contains_iff_mem,
    ht.protocols n s hs]

theorem find?_needed (ht : Collected t) (n : String) :
    (⟨t.entries.filter fun e => isNeeded used e.1 e.2⟩ : Table).find? n = (t.find? n).filter
      (isNeeded used n) :=
  find?_filter ht.nodup _ n

/-- **Every removal finds what it removes.** -/
theorem prune_eq_kept (ht : Collected t) (used : List String) :
    prune used t = .ok (kept used t) := by
  have hneeded : (⟨t.entries.filter fun e => isNeeded used e.1 e.2⟩ : Table).keys.Nodup :=
    List.Nodup.sublist (filter_sublist.map _) ht.nodup
  have hothers : ((t.entries.filter fun e => !isNeeded used e.1 e.2).map (·.1)).Nodup :=
    List.Nodup.sublist (filter_sublist.map _) ht.nodup
  have hstate : ∀ e ∈ t.entries.filter fun e => !isNeeded used e.1 e.2, t.find? e.1 = some e.2 :=
    fun e he => (mem_entries_iff ht.nodup e.1 e.2).mp (mem_of_mem_filter he)
  have hgo : ∀ e ∈ t.entries.filter fun e => !isNeeded used e.1 e.2, ∀ n ∈ e.2.before, ∀ s,
      (⟨t.entries.filter fun e => isNeeded used e.1 e.2⟩ : Table).find? n = some s →
        e.1 ∈ s.next.keys := by
    intro e he n hn s hs
    rw [ht.find?_needed, Option.filter_eq_some_iff] at hs
    obtain ⟨s', hs', hm⟩ := (ht.before e.1 e.2 (hstate e he) n).mp hn
    obtain rfl := Option.some.inj (hs.1.symm.trans hs')
    exact mem_of_mem_filter hm
  have hfold := foldlM_detach_all hneeded _ hothers
    (fun e he => ht.before_nodup e.1 e.2 (hstate e he)) hgo (fun _ _ => true) (fun _ _ _ => rfl)
  rw [thinned_true] at hfold
  refine hfold.trans (congrArg Except.ok (thinned_congr hneeded fun n s hs m hm => ?_))
  -- a target of a needed state was taken out if and only if it is a state that is not needed
  rw [ht.find?_needed, Option.filter_eq_some_iff] at hs
  rw [Bool.true_and, Bool.eq_iff_iff, Bool.not_eq_true', any_eq_false]
  simp only [isKept, Bool.or_eq_true, beq_iff_eq, Option.any_eq_true, Bool.and_eq_true,
    contains_iff_mem]
  constructor
  · intro h
    by_cases hacc : m = acceptName
    · exact Or.inl hacc
    have hfollows : Follows t n m := ⟨s, hs.1, mem_filter.mpr ⟨hm, by simpa using hacc⟩⟩
    obtain ⟨sm, hsm⟩ := (mem_keys_iff t m).mp (ht.closed n m hfollows)
    refine Or.inr ⟨sm, hsm, ?_⟩
    by_contra hneg
    refine h (m, sm) (mem_filter.mpr ⟨mem_entries_of_find? hsm, by simpa using hneg⟩) ⟨?_, rfl⟩
    exact (ht.before m sm hsm n).mpr hfollows
  · rintro h ⟨m', sm⟩ he ⟨hn, rfl⟩
    have hsm := hstate _ he
    rcases h with hacc | ⟨sm', hsm', hneed⟩
    · obtain ⟨_, _, hmem⟩ := (ht.before _ _ hsm n).mp hn
      exact absurd hacc (by simpa using (mem_filter.mp hmem).2)
    · obtain rfl := Option.some.inj (hsm'.symm.trans hsm)
      have := (mem_filter.mp he).2
      simp only at this hneed
      rw [hneed] at this
      cases this

theorem find?_kept (ht : Collected t) :
    (kept used t).find? n = some s ↔ ∃ s0, t.find? n = some s0 ∧ isNeeded used n s0 = true ∧
      s = { s0 with next := ⟨s0.next.entries.filter fun x => isKept used t x.1⟩ } := by
  rw [kept, find?_thinned, ht.find?_needed, Option.map_eq_some_iff]
  simp only [Option.filter_eq_some_iff]
  constructor
  · rintro ⟨s0, ⟨h0, hn⟩, rfl⟩
    exact ⟨s0, h0, hn, rfl⟩
  · rintro ⟨s0, h0, hn, rfl⟩
    exact ⟨s0, ⟨h0, hn⟩, rfl⟩

/-- **The kept states are the first one and those from which a used header can be reached.** -/
theorem mem_keys_kept (ht : Collected t) (n : String) :
    n ∈ (kept used t).keys ↔ n = startName ∨ ∃ h ∈ used, LiesDownstream t n h := by
  rw [mem_keys_iff]
  constructor
  · rintro ⟨s, hs⟩
    obtain ⟨s0, h0, hn, _⟩ := ht.find?_kept.mp hs
    exact (ht.isNeeded_iff h0).mp hn
  · intro h
    have hn : n ∈ t.keys := by
      rcases h with rfl | ⟨x, _, m, hnm, sm, hsm, _⟩
      · exact ht.start
      · rcases hnm.cases_head with rfl | ⟨m', ⟨s, hs, _⟩, _⟩
        · exact mem_keys_of_find? hsm
        · exact mem_keys_of_find? hs
    obtain ⟨s0, h0⟩ := (mem_keys_iff t n).mp hn
    exact ⟨_, ht.find?_kept.mpr ⟨s0, h0, (ht.isNeeded_iff h0).mpr h, rfl⟩⟩

theorem mem_keys_of_isKept (ht : Collected t) (h : isKept used t m = true) :
    m = acceptName ∨ m ∈ (kept used t).keys := by
  simp only [isKept, Bool.or_eq_true, beq_iff_eq, Option.any_eq_true] at h
  rcases h with h | ⟨s, hs, hn⟩
  · exact Or.inl h
  · exact Or.inr (mem_keys_of_find? (ht.find?_kept.mpr ⟨s, hs, hn, rfl⟩))

theorem extracts_kept (ht : Collected t) (hn : n ∈ (kept used t).keys) (hx : Extracts t n h) :
    Extracts (kept used t) n h := by
  obtain ⟨s, hs⟩ := (mem_keys_iff _ n).mp hn
  obtain ⟨s0, h0, _, rfl⟩ := ht.find?_kept.mp hs
  obtain ⟨s1, h1, he⟩ := hx
  obtain rfl := Option.some.inj (h0.symm.trans h1)
  exact ⟨_, hs, he⟩

theorem follows_kept (ht : Collected t) (hn : n ∈ (kept used t).keys)
    (hm : m ∈ (kept used t).keys) (h : Follows t n m) : Follows (kept used t) n m := by
  obtain ⟨s, hs⟩ := (mem_keys_iff _ n).mp hn
  obtain ⟨s0, h0, _, rfl⟩ := ht.find?_kept.mp hs
  obtain ⟨s1, h1, hmem⟩ := h
  obtain rfl := Option.some.inj (h0.symm.trans h1)
  obtain ⟨sm, hsm⟩ := (mem_keys_iff _ m).mp hm
  obtain ⟨sm0, hsm0, hneed, _⟩ := ht.find?_kept.mp hsm
  rw [State.targets, mem_filter] at hmem
  obtain ⟨x, hx, rfl⟩ := mem_map.mp hmem.1
  refine ⟨_, hs, mem_filter.mpr ⟨mem_map.mpr ⟨x, mem_filter.mpr ⟨hx, ?_⟩, rfl⟩, hmem.2⟩⟩
  simp [isKept, hsm0, hneed]

/-- **A way to a state that extracts a used header stays open.** -/
theorem reaches_kept (ht : Collected t) (hh : h ∈ used) (hx : Extracts t m h)
    (hnm : Reaches t n m) : Reaches (kept used t) n m := by
  have hkept : ∀ l, Reaches t l m → l ∈ (kept used t).keys :=
    fun l hl => (ht.mem_keys_kept l).mpr (Or.inr ⟨h, hh, m, hl, hx⟩)
  induction hnm using ReflTransGen.head_induction_on with
  | refl => exact ReflTransGen.refl
  | head hab hbm ih => exact ih.head (ht.follows_kept (hkept _ (hbm.head hab)) (hkept _ hbm) hab)

end Collected

/--
**Pruning is closed and loses no header that is used.**  For every table that is read off a
definition and every list of used headers:

* no removal fails;
* the kept states are the first one and those from which a state that extracts a used header can be
  reached;
* a kept state goes on to kept states only, or accepts;
* a used header that some reachable state extracts is still extracted by that state, which can still
  be reached.
-/
theorem prune_closed_and_lossless {constants : OrderedMap String String} {sig : Signature}
    {l : Layout} {tree : Tree} {c c' : String} {t : Table}
    (h : table constants sig l tree c = .ok t c') (used : List String) :
    ∃ p, prune used t = .ok p ∧
      (∀ n, n ∈ p.keys ↔ n = startName ∨ ∃ u ∈ used, ∃ m, Reaches t n m ∧ Extracts t m u) ∧
      (∀ n s, p.find? n = some s → ∀ m ∈ s.next.keys, m = acceptName ∨ m ∈ p.keys) ∧
      ∀ u ∈ used, ∀ m, Reaches t startName m → Extracts t m u → Reaches p startName m ∧
        Extracts p m u := by
  have ht := table_collected h
  refine ⟨kept used t, ht.prune_eq_kept used, ht.mem_keys_kept, ?_, ?_⟩
  · intro n s hs m hm
    obtain ⟨s₀, _, _, rfl⟩ := ht.find?_kept.mp hs
    obtain ⟨x, hx, rfl⟩ := mem_map.mp hm
    exact ht.mem_keys_of_isKept (mem_filter.mp hx).2
  · intro u hu m hm hx
    have hkept : m ∈ (kept used t).keys := (ht.mem_keys_kept m).mpr (Or.inr ⟨u, hu, m, .refl, hx⟩)
    exact ⟨ht.reaches_kept hu hx hm, ht.extracts_kept hkept hx⟩

/-- A definition with a circle: tags may follow each other, and then one of two headers comes. -/
def tagged : Tree :=
  .node "start" [.node "nodes" [
    .node "node" [.node "name" [.leaf "start"],
      .node "trans" [.node "transition" [.node "name" [.leaf "tag"]]]],
    .node "node" [.node "name" [.leaf "tag"],
      .node "exact" [.node "name_field" [.leaf "hdr", .leaf "vlan"]],
      .node "trans" [.node "transition_select" [
        .node "data" [.node "name_field" [.leaf "hdr", .leaf "vlan", .leaf "kind"]],
        .node "transition_entry" [.node "data" [.node "int" [.leaf "1"]],
          .node "name" [.leaf "tag"]],
        .node "transition_entry" [.node "data" [.node "int" [.leaf "2"]],
          .node "name" [.leaf "four"]],
        .node "transition_entry" [.node "data" [.node "name" [.leaf "default"]],
          .node "name" [.leaf "six"]]]]],
    .node "node" [.node "name" [.leaf "four"],
      .node "exact" [.node "name_field" [.leaf "hdr", .leaf "ipv4"]],
      .node "trans" [.node "transition" [.node "name" [.leaf "accept"]]]],
    .node "node" [.node "name" [.leaf "six"],
      .node "exact" [.node "name_field" [.leaf "hdr", .leaf "ipv6"]],
      .node "trans" [.node "transition" [.node "name" [.leaf "accept"]]]]]]

def taggedLayout : Layout :=
  ⟨{}, ⟨[("headers", ⟨[("vlan", "vlan_t"), ("ipv4", "ipv4_t"), ("ipv6", "ipv6_t")]⟩)]⟩⟩

/-- What is read off it. -/
def taggedTable : Table := ⟨[
  ("start", ⟨none, none, ["vlan", "ipv4", "ipv6"], [], ⟨[("tag", "default")]⟩, []⟩),
  ("tag", ⟨some "vlan",
    some (.node "data" [.node "name_field" [.leaf "hdr", .leaf "vlan", .leaf "kind"]]),
    ["vlan", "ipv4", "ipv6"], ["start", "tag"], ⟨[("tag", "1"), ("four", "2"), ("six", "default")]⟩,
      []⟩),
  ("four", ⟨some "ipv4", none, ["ipv4"], ["tag"], ⟨[("accept", "default")]⟩, []⟩),
  ("six", ⟨some "ipv6", none, ["ipv6"], ["tag"], ⟨[("accept", "default")]⟩, []⟩)]⟩

set_option maxRecDepth 4000 in
/-- A node that uses only one of the two headers keeps the circle and drops the other header. -/
theorem tagged_pruned :
    table {} ⟨"headers", "hdr", "metas", "meta"⟩ taggedLayout tagged "" = .ok taggedTable "" ∧
    ∃ p, prune ["ipv4"] taggedTable = .ok p ∧ ("tag" ∈ p.keys ∧ "six" ∉ p.keys) ∧
      Reaches p startName "four" ∧ Extracts p "four" "ipv4" := by
  have h : table {} ⟨"headers", "hdr", "metas", "meta"⟩ taggedLayout tagged "" =
      .ok taggedTable "" := rfl
  obtain ⟨p, hp, _, _, hways⟩ := prune_closed_and_lossless h ["ipv4"]
  refine ⟨h, p, hp, ?_, hways "ipv4" (by decide) "four" ?_ ⟨_, rfl, rfl⟩⟩
  · obtain rfl := Except.ok.inj hp
    decide
  · have hfirst : Follows taggedTable startName "tag" := ⟨_, rfl, by decide⟩
    have hsecond : Follows taggedTable "tag" "four" := ⟨_, rfl, by decide⟩
    exact (ReflTransGen.single hfirst).tail hsecond

end Pathwise.PacketParser
