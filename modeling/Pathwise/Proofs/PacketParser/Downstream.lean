import Mathlib.Data.List.Perm.Subperm
import Mathlib.Logic.Relation
import Pathwise.PacketParser.Downstream
import Pathwise.Proofs.OrderedMap

/-!
# The passes over a parser's states find exactly what lies downstream

`downstream` goes through the table again and again until a pass changes nothing.  Here it is shown
to compute reachability, for every table, with or without circles:

    h ∈ known (downstream t) n ↔ some state that can be reached from n extracts h.

One direction is an invariant (`Growing`): a pass adds to a state only what a next state knows.  The
other one needs that the passes really end in a table that a further pass leaves alone
(`settles_passes`).  A pass that changes something adds a header to some state, so `knowledge`
grows, and it can never exceed the square of the number of states (`Growing.knowledge_le`), which is
the number of passes that are allowed.
-/

open Relation (ReflTransGen)

namespace Pathwise.PacketParser

open List OrderedMap

variable {t : Table} {n m : String} {s : State}

/-! ### Reachability -/

/-- One state can go on to another one. -/
def Follows (t : Table) (n m : String) : Prop :=
  ∃ s, t.find? n = some s ∧ m ∈ s.targets

/-- One state can be reached from another one. -/
abbrev Reaches (t : Table) : String → String → Prop :=
  ReflTransGen (Follows t)

/-- A state extracts a header. -/
def Extracts (t : Table) (n h : String) : Prop :=
  ∃ s, t.find? n = some s ∧ s.extracted = some h

/-- A header is extracted in a state that can be reached. -/
def LiesDownstream (t : Table) (n h : String) : Prop :=
  ∃ m, Reaches t n m ∧ Extracts t m h

theorem LiesDownstream.of_follows {h : String} (hnm : Follows t n m)
    (hm : LiesDownstream t m h) : LiesDownstream t n h := by
  obtain ⟨l, hl, hx⟩ := hm
  exact ⟨l, hl.head hnm, hx⟩

/-! ### Unions -/

theorem union_cons (known : List String) (p : String) (new : List String) :
    union known (p :: new) = union (if known.contains p then known else known ++ [p]) new := rfl

theorem mem_union (x : String) (new : List String) :
    ∀ known, x ∈ union known new ↔ x ∈ known ∨ x ∈ new := by
  induction new with
  | nil => intro known; simp [union]
  | cons p new ih =>
    intro known
    rw [union_cons, ih]
    by_cases hp : p ∈ known
    · rw [if_pos (by simpa using hp), mem_cons]
      constructor
      · rintro (h | h)
        · exact Or.inl h
        · exact Or.inr (Or.inr h)
      · rintro (h | rfl | h)
        · exact Or.inl h
        · exact Or.inl hp
        · exact Or.inr h
    · rw [if_neg (by simpa using hp), mem_append, mem_singleton, mem_cons, or_assoc]

theorem prefix_union (new : List String) : ∀ known, known <+: union known new := by
  induction new with
  | nil => intro known; exact prefix_rfl
  | cons p new ih =>
    intro known
    rw [union_cons]
    split
    · exact ih known
    · exact (prefix_append known [p]).trans (ih _)

theorem nodup_union (new : List String) : ∀ known, known.Nodup → (union known new).Nodup := by
  induction new with
  | nil => intro known h; exact h
  | cons p new ih =>
    intro known h
    rw [union_cons]
    split
    · exact ih known h
    · next hp =>
      refine ih _ (nodup_append.mpr ⟨h, nodup_singleton p, fun a ha b hb => ?_⟩)
      rw [mem_singleton] at hb
      subst hb
      exact fun he => hp (by simpa [he] using ha)

/-! ### What a state takes over -/

/-- What a state knows after it has taken over what its next states know. -/
def gathered (t : Table) (name : String) (targets : List String) (ps : List String) : List String :=
  targets.foldl (fun ps target => union ps (if target = name then ps else known t target)) ps

theorem absorb_of_find? (h : t.find? n = some s) :
    absorb t n = t.insert n { s with protocols := gathered t n s.targets s.protocols } := by
  rw [absorb, h]
  rfl

theorem absorb_of_not_mem (h : t.find? n = none) : absorb t n = t := by
  rw [absorb, h]

theorem mem_gathered (t : Table) (n x : String) (targets : List String) :
    ∀ ps, x ∈ gathered t n targets ps ↔
      x ∈ ps ∨ ∃ target ∈ targets, target ≠ n ∧ x ∈ known t target := by
  induction targets with
  | nil => intro ps; simp [gathered]
  | cons m ms ih =>
    intro ps
    have hstep : gathered t n (m :: ms) ps
        = gathered t n ms (union ps (if m = n then ps else known t m)) := rfl
    rw [hstep, ih, mem_union]
    by_cases h : m = n
    · simp [h]
    · simp only [if_neg h, mem_cons, exists_eq_or_imp]
      tauto

theorem prefix_gathered (t : Table) (n : String) (targets : List String) :
    ∀ ps, ps <+: gathered t n targets ps := by
  induction targets with
  | nil => intro ps; exact prefix_rfl
  | cons m ms ih => intro ps; exact (prefix_union _ ps).trans (ih _)

theorem nodup_gathered (t : Table) (n : String) (targets : List String) :
    ∀ ps, ps.Nodup → (gathered t n targets ps).Nodup := by
  induction targets with
  | nil => intro ps h; exact h
  | cons m ms ih => intro ps h; exact ih _ (nodup_union _ ps h)

theorem known_of_find? (h : t.find? n = some s) :
    known t n = s.protocols := by
  rw [known, h]

/-! ### Knowledge -/

theorem knowledge_cons (n : String) (s : State) (es : List (String × State)) :
    knowledge ⟨(n, s) :: es⟩ = s.protocols.length + knowledge ⟨es⟩ := rfl

theorem knowledge_insert (h : t.find? n = some s) (s' : State) :
    knowledge (t.insert n s') + s.protocols.length = knowledge t + s'.protocols.length := by
  obtain ⟨es⟩ := t
  simp only [OrderedMap.insert]
  induction es with
  | nil => simp at h
  | cons e es ih =>
    obtain ⟨n1, s1⟩ := e
    rw [OrderedMap.insertEntry]
    cases hn : n1 == n with
    | true =>
      rw [find?_cons_pos hn] at h
      obtain rfl := Option.some.inj h
      rw [if_pos rfl, knowledge_cons, knowledge_cons]
      omega
    | false =>
      rw [find?_cons_neg hn] at h
      rw [if_neg (by simp), knowledge_cons, knowledge_cons]
      have := ih h
      omega

/-- **Taking over either changes nothing or adds to what is known.** -/
theorem absorb_eq_or_lt (t : Table) (n : String) :
    absorb t n = t ∨ knowledge t < knowledge (absorb t n) := by
  cases h : t.find? n with
  | none => exact Or.inl (absorb_of_not_mem h)
  | some s =>
    rw [absorb_of_find? h]
    have hp := prefix_gathered t n s.targets s.protocols
    have hk := knowledge_insert h { s with protocols := gathered t n s.targets s.protocols }
    simp only at hk
    by_cases hl : (gathered t n s.targets s.protocols).length = s.protocols.length
    · rw [← hp.eq_of_length hl.symm]
      exact Or.inl (insert_find? h)
    · have := hp.length_le
      exact Or.inr (by omega)

theorem knowledge_absorb_le (t : Table) (n : String) : knowledge t ≤ knowledge (absorb t n) := by
  rcases absorb_eq_or_lt t n with h | h
  · exact Nat.le_of_eq (congrArg knowledge h.symm)
  · exact Nat.le_of_lt h

theorem knowledge_foldl_le (ns : List String) :
    ∀ t, knowledge t ≤ knowledge (ns.foldl absorb t) := by
  induction ns with
  | nil => intro t; exact Nat.le_refl _
  | cons n ns ih => intro t; exact Nat.le_trans (knowledge_absorb_le t n) (ih _)

theorem knowledge_pass_le (t : Table) : knowledge t ≤ knowledge (pass t) :=
  knowledge_foldl_le t.keys t

theorem absorb_eq_of_foldl (ns : List String) : ∀ t, knowledge (ns.foldl absorb t) = knowledge t →
    ∀ n ∈ ns, absorb t n = t := by
  induction ns with
  | nil => intro t _ n hn; simp at hn
  | cons m ns ih =>
    intro t h n hn
    rw [foldl_cons] at h
    have hle := knowledge_foldl_le ns (absorb t m)
    have hm : absorb t m = t := by
      rcases absorb_eq_or_lt t m with h' | h'
      · exact h'
      · omega
    rw [hm] at h
    rcases mem_cons.mp hn with rfl | hn
    · exact hm
    · exact ih t h n hn

theorem foldl_absorb_eq (t : Table) (ns : List String) (h : ∀ n ∈ ns, absorb t n = t) :
    ns.foldl absorb t = t := by
  induction ns with
  | nil => rfl
  | cons n ns ih =>
    rw [foldl_cons, h n (by simp)]
    exact ih fun m hm => h m (by simp [hm])

theorem pass_eq_of_knowledge (h : knowledge (pass t) = knowledge t) : pass t = t :=
  foldl_absorb_eq t t.keys (absorb_eq_of_foldl t.keys t h)

/-- **In a table that a pass leaves alone, a state knows what its next states know.** -/
theorem known_subset_of_pass (h : pass t = t) (hnm : Follows t n m) :
    known t m ⊆ known t n := by
  intro x hx
  obtain ⟨s, hs, hm⟩ := hnm
  by_cases he : m = n
  · rwa [he] at hx
  have ha : absorb t n = t :=
    absorb_eq_of_foldl t.keys t (congrArg knowledge h) n (mem_keys_of_find? hs)
  rw [absorb_of_find? hs] at ha
  have hg : t.find? n = some { s with protocols := gathered t n s.targets s.protocols } := by
    conv_lhs => rw [← ha]
    exact find?_insert_self t n _
  rw [known_of_find? hg]
  exact (mem_gathered t n x s.targets s.protocols).mpr (Or.inr ⟨m, hm, he, hx⟩)

/-! ### The invariant of the passes -/

/--
**What holds of a table while it is passed over.**  `b` is the table at the start: nothing changes
but the headers downstream, which are each listed once, include the header extracted in the state
itself, and can all be reached.
-/
structure Growing (b t : Table) : Prop where
  keys : t.keys = b.keys
  state : ∀ n s, t.find? n = some s → ∃ s₀, b.find? n = some s₀ ∧
    s = { s₀ with protocols := s.protocols }
  nodup : ∀ n s, t.find? n = some s → s.protocols.Nodup
  own : ∀ n s, t.find? n = some s → ∀ h, s.extracted = some h → h ∈ s.protocols
  sound : ∀ n h, h ∈ known t n → LiesDownstream b n h

namespace Growing

variable {b t : Table}

theorem find?_of_base (g : Growing b t) {s0 : State} (h0 : b.find? n = some s0) :
    ∃ ps, t.find? n = some { s0 with protocols := ps } := by
  have hn : n ∈ t.keys := g.keys ▸ mem_keys_of_find? h0
  obtain ⟨s, hs⟩ := (mem_keys_iff t n).mp hn
  obtain ⟨s1, h1, he⟩ := g.state n s hs
  obtain rfl := Option.some.inj (h0.symm.trans h1)
  exact ⟨s.protocols, he ▸ hs⟩

theorem follows_iff (g : Growing b t) (n m : String) : Follows t n m ↔ Follows b n m := by
  constructor
  · rintro ⟨s, hs, hm⟩
    obtain ⟨s0, h0, he⟩ := g.state n s hs
    rw [he] at hm
    exact ⟨s0, h0, hm⟩
  · rintro ⟨s0, h0, hm⟩
    obtain ⟨ps, hs⟩ := g.find?_of_base h0
    exact ⟨_, hs, hm⟩

theorem extracts_iff (g : Growing b t) (n h : String) : Extracts t n h ↔ Extracts b n h := by
  constructor
  · rintro ⟨s, hs, hx⟩
    obtain ⟨s0, h0, he⟩ := g.state n s hs
    rw [he] at hx
    exact ⟨s0, h0, hx⟩
  · rintro ⟨s0, h0, hx⟩
    obtain ⟨ps, hs⟩ := g.find?_of_base h0
    exact ⟨_, hs, hx⟩

theorem absorb (g : Growing b t) (n : String) : Growing b (absorb t n) := by
  cases h : t.find? n with
  | none => rwa [absorb_of_not_mem h]
  | some s =>
    rw [absorb_of_find? h]
    have hsound : ∀ x ∈ gathered t n s.targets s.protocols, LiesDownstream b n x := by
      intro x hx
      rcases (mem_gathered t n x s.targets s.protocols).mp hx with hx | ⟨m, hm, _, hx⟩
      · exact g.sound n x (by rwa [known_of_find? h])
      · exact (g.sound m x hx).of_follows ((g.follows_iff n m).mp ⟨s, h, hm⟩)
    refine ⟨?_, fun m s' hs' => ?_, fun m s' hs' => ?_, fun m s' hs' => ?_, fun m x hx => ?_⟩
    · rw [keys_insert_of_mem (mem_keys_of_find? h), g.keys]
    · rw [find?_insert] at hs'
      split at hs'
      · next hm =>
        obtain ⟨s0, h0, he⟩ := g.state n s h
        obtain rfl := Option.some.inj hs'
        refine ⟨s0, hm ▸ h0, ?_⟩
        rw [he]
      · exact g.state m s' hs'
    · rw [find?_insert] at hs'
      split at hs'
      · obtain rfl := Option.some.inj hs'
        exact nodup_gathered t n _ _ (g.nodup n s h)
      · exact g.nodup m s' hs'
    · rw [find?_insert] at hs'
      split at hs'
      · obtain rfl := Option.some.inj hs'
        exact fun x hx => (prefix_gathered t n s.targets s.protocols).subset (g.own n s h x hx)
      · exact g.own m s' hs'
    · rw [known, find?_insert] at hx
      by_cases hm : m = n
      · rw [if_pos hm] at hx
        exact hm ▸ hsound x hx
      · rw [if_neg hm] at hx
        exact g.sound m x hx

theorem foldl (ns : List String) : ∀ {t}, Growing b t →
    Growing b (ns.foldl PacketParser.absorb t) := by
  induction ns with
  | nil => intro t g; exact g
  | cons n ns ih => intro t g; exact ih (g.absorb n)

theorem pass (g : Growing b t) : Growing b (pass t) :=
  foldl t.keys g

theorem length_protocols_le (g : Growing b t) (h : t.find? n = some s) :
    s.protocols.length ≤ b.size := by
  have hsub : s.protocols ⊆ b.values.filterMap (·.extracted) := by
    intro x hx
    obtain ⟨m, _, s0, h0, he⟩ := g.sound n x (by rwa [known_of_find? h])
    refine mem_filterMap.mpr ⟨s0, ?_, he⟩
    exact mem_map.mpr ⟨(m, s0), mem_entries_of_find? h0, rfl⟩
  calc s.protocols.length
      ≤ (b.values.filterMap (·.extracted)).length := ((g.nodup n s h).subperm hsub).length_le
    _ ≤ b.values.length := length_filterMap_le _ _
    _ = b.size := by simp [OrderedMap.values, OrderedMap.size]

theorem knowledge_entries_le (k : Nat) : ∀ es : List (String × State),
    (∀ e ∈ es, e.2.protocols.length ≤ k) → knowledge ⟨es⟩ ≤ es.length * k := by
  intro es
  induction es with
  | nil => intro _; exact Nat.zero_le _
  | cons e es ih =>
    intro h
    obtain ⟨n, s⟩ := e
    rw [knowledge_cons, length_cons, Nat.succ_mul]
    have h1 := h (n, s) (by simp)
    have h2 := ih fun e he => h e (by simp [he])
    simp only at h1
    omega

theorem size_eq (g : Growing b t) : t.size = b.size := by
  have := congrArg List.length g.keys
  simpa [OrderedMap.keys, OrderedMap.size] using this

/-- **What all states know together is bounded by the square of their number.** -/
theorem knowledge_le (g : Growing b t) (hb : b.keys.Nodup) : knowledge t ≤ b.size * b.size := by
  have hn : t.keys.Nodup := g.keys ▸ hb
  have := knowledge_entries_le b.size t.entries fun e he =>
    g.length_protocols_le ((mem_entries_iff hn e.1 e.2).mp he)
  rw [← g.size_eq] at this ⊢
  exact this

end Growing

/-! ### The passes come to an end -/

/-- The loop over all states, which runs as long as a pass changes something, turns a table into
another one. -/
inductive Settles : Table → Table → Prop
  | done {t : Table} : pass t = t → Settles t t
  | again {t t' : Table} : pass t ≠ t → Settles (pass t) t' → Settles t t'

theorem Settles.pass_eq {t' : Table} (h : Settles t t') : pass t' = t' := by
  induction h with
  | done h => exact h
  | again _ _ ih => exact ih

theorem settles_passes {b : Table} (hb : b.keys.Nodup) : ∀ (k : Nat) {t : Table}, Growing b t →
    b.size * b.size ≤ knowledge t + k → Growing b (passes k t) ∧ Settles t (passes k t) := by
  intro k
  induction k with
  | zero =>
    intro t g hk
    have hle := g.pass.knowledge_le hb
    have hge := knowledge_pass_le t
    exact ⟨g, .done (pass_eq_of_knowledge (t := t) (by omega))⟩
  | succ k ih =>
    intro t g hk
    rw [passes]
    by_cases h : knowledge (pass t) = knowledge t
    · rw [if_pos h]
      have he := pass_eq_of_knowledge h
      rw [he]
      exact ⟨g, .done he⟩
    · rw [if_neg h]
      have := knowledge_pass_le t
      obtain ⟨g', hsettles⟩ := ih g.pass (by omega)
      exact ⟨g', .again (fun he => h (congrArg knowledge he)) hsettles⟩

theorem seed_growing (t : Table) : Growing t (seed t) := by
  have hfind : ∀ n s, (seed t).find? n = some s →
      ∃ s0, t.find? n = some s0 ∧ s = { s0 with protocols := s0.extracted.toList } := by
    intro n s h
    rw [seed, OrderedMap.find?_map, Option.map_eq_some_iff] at h
    obtain ⟨s0, h0, he⟩ := h
    exact ⟨s0, h0, he.symm⟩
  refine ⟨keys_map _ t, fun n s h => ?_, fun n s h => ?_, fun n s h => ?_, fun n x h => ?_⟩
  · obtain ⟨s0, h0, rfl⟩ := hfind n s h
    exact ⟨s0, h0, rfl⟩
  · obtain ⟨s0, _, rfl⟩ := hfind n s h
    cases s0.extracted <;> simp
  · obtain ⟨s0, _, rfl⟩ := hfind n s h
    intro x hx
    simp only at hx
    simp [hx]
  · cases hs : (seed t).find? n with
    | none => simp [known, hs] at h
    | some s =>
      rw [known_of_find? hs] at h
      obtain ⟨s0, h0, rfl⟩ := hfind n s hs
      exact ⟨n, ReflTransGen.refl, s0, h0, by simpa using h⟩

theorem downstream_growing (ht : t.keys.Nodup) :
    Growing t (downstream t) ∧ Settles (seed t) (downstream t) :=
  settles_passes ht (t.size * t.size) (seed_growing t) (Nat.le_add_left _ _)

/-- **A state knows exactly the headers that are extracted in the states it reaches.** -/
theorem mem_known_downstream (ht : t.keys.Nodup) (n h : String) :
    h ∈ known (downstream t) n ↔ LiesDownstream t n h := by
  obtain ⟨g, hsettles⟩ := downstream_growing ht
  refine ⟨g.sound n h, ?_⟩
  rintro ⟨m, hnm, hx⟩
  -- walk back from the extracting state: every state before it takes the header over
  induction hnm using ReflTransGen.head_induction_on with
  | refl =>
    obtain ⟨s, hs, he⟩ := (g.extracts_iff m h).mpr hx
    rw [known_of_find? hs]
    exact g.own m s hs h he
  | head hab _ ih => exact known_subset_of_pass hsettles.pass_eq ((g.follows_iff _ _).mpr hab) ih

end Pathwise.PacketParser
