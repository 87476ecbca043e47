import Pathwise.PacketParser.Collect
import Pathwise.Proofs.PacketParser.Downstream
import Pathwise.Proofs.Steps

/-!
# Tables of states that come from a parser definition

`Collected t` says what is known about a table that was read off a parser definition: its names are
pairwise different, it has a first state, every target is a state of the table or ends parsing, and
the two derived columns are right.  The headers downstream of a state are those of the states it
reaches, and the states before it are those that go on to it, each once.

`table_collected` says that every table that `table` returns is of this kind, and
`linked_lists_downstream` that the loop which fills in the headers ends, on every table without open
targets.
-/

namespace Pathwise.PacketParser

open Steps List OrderedMap

variable {constants : OrderedMap String String} {s : State} {t : Table} {c c' n : String}
  {sig : Signature} {l : Layout}
  {tree : Tree}

/-- **A table with everything filled in.** -/
structure Collected (t : Table) : Prop where
  nodup : t.keys.Nodup
  start : startName ∈ t.keys
  closed : ∀ n m, Follows t n m → m ∈ t.keys
  next_nodup : ∀ n s, t.find? n = some s → s.next.keys.Nodup
  protocols : ∀ n s, t.find? n = some s → ∀ h, h ∈ s.protocols ↔ LiesDownstream t n h
  before_nodup : ∀ n s, t.find? n = some s → s.before.Nodup
  before : ∀ n s, t.find? n = some s → ∀ p, p ∈ s.before ↔ Follows t p n

/-! ### Reading states -/

/-- A state as it is read, before the table is gone through. -/
def State.IsFresh (s : State) : Prop :=
  s.next.keys.Nodup ∧ s.before = []

theorem transition_fresh {s' : State} {t : Tree}
    (hs : s.IsFresh) (h : transition constants s t c = .ok s' c') : s'.IsFresh := by
  simp only [transition, bind_eq_ok] at h
  obtain ⟨t1, c1, _, r, c2, _, h⟩ := h
  split at h
  · simp only [bind_eq_ok, pure_eq_ok] at h
    obtain ⟨target, c3, _, rfl, _⟩ := h
    exact ⟨nodup_insert hs.1 _ _, hs.2⟩
  · split at h
    · simp only [bind_eq_ok] at h
      obtain ⟨chosen, c3, _, es, c4, _, h⟩ := h
      refine foldlM_keeps State.IsFresh ?_ es ?_ h
      · intro b e c b' c' hb he
        simp only [addEntry, bind_eq_ok, pure_eq_ok] at he
        obtain ⟨target, _, _, place, _, _, value, _, _, rfl, _⟩ := he
        exact ⟨nodup_insert hb.1 _ _, hb.2⟩
      · split
        · exact hs
        · exact hs
    · obtain ⟨rfl, _⟩ := pure_eq_ok.mp h
      exact hs

theorem state_fresh {t : Tree}
    {name : String} (h : state constants sig l t c = .ok (name, s) c') :
    s.IsFresh := by
  simp only [state, bind_eq_ok, pure_eq_ok] at h
  obtain ⟨n, _, _, es, _, _, hs, _, _, ts, _, _, s1, _, h1, is, _, _, he, _⟩ := h
  have hf : s1.IsFresh :=
    foldlM_keeps State.IsFresh (fun b a c b' c' hb hba => transition_fresh hb hba) ts
      (by exact ⟨nodup_nil, rfl⟩) h1
  obtain ⟨_, rfl⟩ := Prod.mk.inj he
  exact hf

theorem filed_fresh {nodes : List Tree} (h : filed constants sig l nodes c = .ok t c') :
    t.keys.Nodup ∧ ∀ n s, t.find? n = some s → s.IsFresh := by
  refine foldlM_keeps (fun t : Table => t.keys.Nodup ∧ ∀ n s, t.find? n = some s →
    s.IsFresh) ?_ nodes
    (by exact ⟨nodup_nil, fun n s hn => by cases hn⟩) h
  intro acc n c acc' c' ⟨hnd, hfr⟩ hstep
  simp only [file, bind_eq_ok, pure_eq_ok] at hstep
  obtain ⟨⟨name, s⟩, _, hs, rfl, _⟩ := hstep
  refine ⟨nodup_insert hnd _ _, fun m s' hm => ?_⟩
  rw [find?_insert] at hm
  split at hm
  · obtain rfl := Option.some.inj hm
    exact state_fresh hs
  · exact hfr m s' hm

/-- **How a table comes about**: the states are filed, no target is left open, and the two columns
are filled in. -/
theorem table_eq_ok (h : table constants sig l tree c = .ok t c') :
    ∃ nodes t0, nodeTrees tree = .ok nodes ∧ filed constants sig l nodes c = .ok t0 c' ∧
      startName ∈ t0.keys ∧ danglingTarget? t0 = none ∧ t = linkBack (downstream t0) := by
  simp only [table, bind_eq_ok, lift_shape_eq_ok] at h
  obtain ⟨nodes, _, ⟨hn, rfl⟩, t0, c1, hf, h⟩ := h
  rw [linked] at h
  split at h
  · next hstart =>
    cases hd : danglingTarget? t0 with
    | some target =>
      rw [hd] at h
      exact absurd h throw_ne_ok
    | none =>
      rw [hd] at h
      obtain ⟨rfl, rfl⟩ := pure_eq_ok.mp h
      exact ⟨nodes, t0, hn, hf, (contains_iff t0 _).mp hstart, hd, rfl⟩
  · exact absurd h halt_ne_ok

/-! ### The states before a state -/

def State.addBefore (name : String) (s : State) : State :=
  { s with before := s.before ++ [name] }

def goingTo (m : String) (es : List (String × State)) : List String :=
  (es.filter fun e => e.2.targets.contains m).map (·.1)

theorem find?_linkTargets (name m : String) (targets : List String) (hnd : targets.Nodup) :
    ∀ acc : Table, (targets.foldl
      (fun acc target => acc.modify target (State.addBefore name)) acc).find? m
      = if m ∈ targets then (acc.find? m).map (State.addBefore name) else acc.find? m := by
  induction targets with
  | nil => intro acc; simp
  | cons x xs ih =>
    intro acc
    rw [nodup_cons] at hnd
    rw [foldl_cons, ih hnd.2, find?_modify]
    by_cases hx : m = x
    · subst hx
      rw [if_neg hnd.1, if_pos rfl, if_pos mem_cons_self]
    · rw [if_neg hx]
      simp [hx]

theorem find?_linkAll (m : String) (es : List (String × State))
    (hes : ∀ e ∈ es, e.2.targets.Nodup) :
    ∀ acc : Table, (es.foldl (fun acc e => e.2.targets.foldl
        (fun acc target => acc.modify target (State.addBefore e.1)) acc) acc).find? m
      = (acc.find? m).map fun s => { s with before := s.before ++ goingTo m es } := by
  induction es with
  | nil =>
    intro acc
    simp [goingTo]
  | cons e es ih =>
    intro acc
    rw [foldl_cons, ih fun e' he' => hes e' (mem_cons_of_mem _ he'),
      find?_linkTargets e.1 m e.2.targets (hes e mem_cons_self)]
    by_cases hm : m ∈ e.2.targets
    · rw [if_pos hm, Option.map_map]
      congr 1
      funext s
      simp [State.addBefore, goingTo, hm]
    · rw [if_neg hm]
      simp [goingTo, hm]

theorem find?_linkBack (hes : ∀ e ∈ t.entries, e.2.targets.Nodup) (m : String) :
    (linkBack t).find? m
      = (t.find? m).map fun s => { s with before := s.before ++ goingTo m t.entries } :=
  find?_linkAll m t.entries hes t

theorem keys_linkTargets (name : String) (targets : List String) : ∀ acc : Table,
    (targets.foldl (fun acc target => acc.modify target (State.addBefore name)) acc).keys =
      acc.keys := by
  induction targets with
  | nil => intro acc; rfl
  | cons x xs ih => intro acc; rw [foldl_cons, ih, keys_modify]

theorem keys_linkBack (t : Table) : (linkBack t).keys = t.keys := by
  have key : ∀ (es : List (String × State)) (acc : Table), (es.foldl (fun acc e => e.2.targets.foldl
      (fun acc target => acc.modify target (State.addBefore e.1)) acc) acc).keys = acc.keys := by
    intro es
    induction es with
    | nil => intro acc; rfl
    | cons e es ih => intro acc; rw [foldl_cons, ih, keys_linkTargets]
  exact key t.entries t

theorem targets_nodup (h : s.next.keys.Nodup) : s.targets.Nodup :=
  h.filter _

theorem mem_goingTo (ht : t.keys.Nodup) (p m : String) :
    p ∈ goingTo m t.entries ↔ Follows t p m := by
  rw [goingTo, mem_map]
  constructor
  · rintro ⟨⟨q, s⟩, he, rfl⟩
    rw [mem_filter] at he
    exact ⟨s, (mem_entries_iff ht q s).mp he.1, by simpa using he.2⟩
  · rintro ⟨s, hs, hm⟩
    exact ⟨(p, s), mem_filter.mpr ⟨mem_entries_of_find? hs, by simpa using hm⟩, rfl⟩

theorem nodup_goingTo (ht : t.keys.Nodup) (m : String) : (goingTo m t.entries).Nodup :=
  List.Nodup.sublist (filter_sublist.map _) ht

/-! ### All together -/

theorem mem_keys_of_dangling (h : danglingTarget? t = none) {m : String} (hnm : Follows t n m) :
    m ∈ t.keys := by
  obtain ⟨s, hs, hm⟩ := hnm
  rw [danglingTarget?, find?_eq_none] at h
  have hmem : m ∈ t.values.flatMap State.targets :=
    mem_flatMap.mpr ⟨s, mem_map.mpr ⟨(n, s), OrderedMap.mem_entries_of_find? hs, rfl⟩, hm⟩
  have := h m hmem
  rw [← OrderedMap.contains_iff]
  simpa using this

theorem danglingTarget?_eq_none (ht : t.keys.Nodup) (h : ∀ n m, Follows t n m → m ∈ t.keys) :
    danglingTarget? t = none := by
  rw [danglingTarget?, find?_eq_none]
  intro m hm
  obtain ⟨s, hs, hm⟩ := mem_flatMap.mp hm
  obtain ⟨e, he, rfl⟩ := mem_map.mp hs
  have hkey := h e.1 m ⟨e.2, (mem_entries_iff ht e.1 e.2).mp he, hm⟩
  simpa using (contains_iff t m).mpr hkey

theorem find?_linkBack_downstream {t0 : Table} (hnd : t0.keys.Nodup)
    (hfr : ∀ n s, t0.find? n = some s → s.IsFresh)
    (h : (linkBack (downstream t0)).find? n = some s) :
    ∃ s0, t0.find? n = some s0 ∧
      s = { s0 with
        protocols := known (downstream t0) n, before := goingTo n (downstream t0).entries } := by
  obtain ⟨g, _⟩ := downstream_growing hnd
  have hnd' : (downstream t0).keys.Nodup := g.keys ▸ hnd
  have htargets : ∀ e ∈ (downstream t0).entries, e.2.targets.Nodup := by
    intro e he
    obtain ⟨s0, h0, heq⟩ := g.state e.1 e.2 ((mem_entries_iff hnd' e.1 e.2).mp he)
    rw [heq]
    exact targets_nodup (hfr e.1 s0 h0).1
  rw [find?_linkBack htargets, Option.map_eq_some_iff] at h
  obtain ⟨s1, h1, rfl⟩ := h
  obtain ⟨s0, h0, heq⟩ := g.state n s1 h1
  refine ⟨s0, h0, ?_⟩
  rw [known_of_find? h1, heq, (hfr n s0 h0).2, nil_append]

/-- **Every table that is read off a parser definition has everything filled in.** -/
theorem table_collected (h : table constants sig l tree c = .ok t c') : Collected t := by
  obtain ⟨nodes, t0, _, hfiled, hstart, hdangling, rfl⟩ := table_eq_ok h
  obtain ⟨hnd, hfr⟩ := filed_fresh hfiled
  obtain ⟨g, _⟩ := downstream_growing hnd
  have hkeys : (linkBack (downstream t0)).keys = t0.keys := (keys_linkBack _).trans g.keys
  have hfind : ∀ {n s}, (linkBack (downstream t0)).find? n = some s → ∃ s0, t0.find? n = some s0 ∧
      s = { s0 with
        protocols := known (downstream t0) n, before := goingTo n (downstream t0).entries } :=
    fun h => find?_linkBack_downstream hnd hfr h
  -- the filed table and the finished one have the same transitions and extractions
  have hback : ∀ {n s0}, t0.find? n = some s0 → ∃ s, (linkBack (downstream t0)).find? n = some s ∧
      s.targets = s0.targets ∧ s.extracted = s0.extracted := by
    intro n s0 h0
    have hn : n ∈ (linkBack (downstream t0)).keys := hkeys ▸ mem_keys_of_find? h0
    obtain ⟨s, hs⟩ := (mem_keys_iff _ n).mp hn
    obtain ⟨s1, h1, heq⟩ := hfind hs
    obtain rfl := Option.some.inj (h0.symm.trans h1)
    exact ⟨s, hs, by rw [heq]; rfl, by rw [heq]⟩
  have hfollows : ∀ n m, Follows (linkBack (downstream t0)) n m ↔ Follows t0 n m := by
    intro n m
    constructor
    · rintro ⟨s, hs, hm⟩
      obtain ⟨s0, h0, rfl⟩ := hfind hs
      exact ⟨s0, h0, hm⟩
    · rintro ⟨s0, h0, hm⟩
      obtain ⟨s, hs, ht, _⟩ := hback h0
      exact ⟨s, hs, ht ▸ hm⟩
  have hextracts : ∀ n x, Extracts (linkBack (downstream t0)) n x ↔ Extracts t0 n x := by
    intro n x
    constructor
    · rintro ⟨s, hs, hx⟩
      obtain ⟨s0, h0, rfl⟩ := hfind hs
      exact ⟨s0, h0, hx⟩
    · rintro ⟨s0, h0, hx⟩
      obtain ⟨s, hs, _, he⟩ := hback h0
      exact ⟨s, hs, he ▸ hx⟩
  have hrel : Follows (linkBack (downstream t0)) = Follows t0 :=
    funext fun n => funext fun m => propext (hfollows n m)
  refine ⟨hkeys ▸ hnd, hkeys ▸ hstart, ?_, ?_, ?_, ?_, ?_⟩
  · intro n m hnm
    rw [hkeys]
    exact mem_keys_of_dangling hdangling ((hfollows n m).mp hnm)
  · intro n s hs
    obtain ⟨s0, h0, rfl⟩ := hfind hs
    exact (hfr n s0 h0).1
  · intro n s hs x
    obtain ⟨s0, h0, rfl⟩ := hfind hs
    simp only [mem_known_downstream hnd, LiesDownstream, hextracts]
    rw [Reaches, Reaches, hrel]
  · intro n s hs
    obtain ⟨s0, h0, rfl⟩ := hfind hs
    exact nodup_goingTo (g.keys ▸ hnd) n
  · intro n s hs p
    obtain ⟨s0, h0, rfl⟩ := hfind hs
    rw [hfollows, ← g.follows_iff]
    exact mem_goingTo (g.keys ▸ hnd) p n

/--
**The loop over the states ends, and every state then lists exactly the headers that are extracted
in the states it reaches**, itself included, each once.  Circles among the states do not matter.  If
there is a first state, the table comes out with these lists.
-/
theorem linked_lists_downstream {t : Table} (hkeys : t.keys.Nodup)
    (hfresh : ∀ n s, t.find? n = some s → s.IsFresh) (hclosed : ∀ n m, Follows t n m → m ∈ t.keys)
    (c : String) :
    Settles (seed t) (downstream t) ∧ (downstream t).keys = t.keys ∧
      (∀ n s, (downstream t).find? n = some s → s.protocols.Nodup ∧ ∀ h, h ∈ s.protocols ↔
        LiesDownstream t n h) ∧
      (startName ∈ t.keys → ∃ t', linked t c = .ok t' c ∧ t'.keys = t.keys ∧
        ∀ n s, t'.find? n = some s → s.protocols = known (downstream t) n) := by
  obtain ⟨g, hsettles⟩ := downstream_growing hkeys
  refine ⟨hsettles, g.keys, fun n s hs => ⟨g.nodup n s hs, fun h => ?_⟩, fun hstart => ?_⟩
  · rw [← known_of_find? hs, mem_known_downstream hkeys]
  · refine ⟨linkBack (downstream t), ?_, (keys_linkBack _).trans g.keys, fun n s hs => ?_⟩
    · rw [linked, if_pos ((contains_iff t _).mpr hstart), danglingTarget?_eq_none hkeys hclosed]
      rfl
    · obtain ⟨s0, _, rfl⟩ := find?_linkBack_downstream hkeys hfresh hs
      rfl

/-- Two states that go on to each other, one of them also to itself. -/
def circle : Table := ⟨[
  ("start", ⟨some "eth", none, [], [], ⟨[("start", "1"), ("tag", "default")]⟩, []⟩),
  ("tag", ⟨some "vlan", none, [], [], ⟨[("start", "1"), ("accept", "default")]⟩, []⟩)]⟩

theorem linked_lists_downstream_circle : Settles (seed circle) (downstream circle) ∧
    known (downstream circle) "tag" = ["vlan", "eth"] ∧ LiesDownstream circle "tag" "eth" ∧
    ∃ t', linked circle "" = .ok t' "" := by
  have hfresh : ∀ n s, circle.find? n = some s → s.IsFresh := by
    intro n s h
    have hs := mem_entries_of_find? h
    simp only [circle, mem_cons, not_mem_nil, or_false, Prod.mk.injEq] at hs
    rcases hs with ⟨-, rfl⟩ | ⟨-, rfl⟩
    · exact ⟨by decide, rfl⟩
    · exact ⟨by decide, rfl⟩
  have hclosed : ∀ n m, Follows circle n m → m ∈ circle.keys := fun n m => mem_keys_of_dangling rfl
  obtain ⟨hends, _, hlists, hlinked⟩ :=
    linked_lists_downstream (t := circle) (by decide) hfresh hclosed ""
  obtain ⟨t', ht', _⟩ := hlinked (by decide)
  exact ⟨hends, rfl, ((hlists "tag" _ rfl).2 "eth").mp (by decide), t', ht'⟩

end Pathwise.PacketParser
