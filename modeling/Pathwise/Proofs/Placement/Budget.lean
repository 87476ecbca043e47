import Pathwise.Proofs.OrderedMap
import Pathwise.Proofs.Placement.Journey
import Mathlib.Algebra.BigOperators.Group.List.Basic
import Mathlib.Algebra.Ring.Int.Defs

/-!
# Order and budget of placement

The room of a node is what its capacity leaves after all that was placed on it, whichever service it
was placed for (`Balanced`).  So a node takes a fragment in line only if its capacity covers
everything on it, and it leaves one in line only if its capacity does not.

* `fill_eq_ok`: what a node takes and what is left of its room.
* `placeAlong_eq_ok`: the placement of a service is a journey, and the accounts stay balanced.
* `placeService_in_order`: order, contiguity and budget of the placement of a service.
-/

namespace Pathwise.Placement

open List OrderedMap

variable {relation : OrderedMap String RelationEntry} {s : Service} {t : Topology}

/-! ### Room -/

namespace Room

@[simp] theorem less_zero (r : Room) : r.less 0 = r := by
  cases r <;> simp [less]

theorem less_less (r : Room) (m n : Int) : (r.less m).less n = r.less (m + n) := by
  cases r with
  | tables k => simp only [less, tables.injEq]; omega
  | unlimited => rfl
  | none => rfl

theorem holds_less (r : Room) (m n : Int) : (r.less m).holds n = r.holds (m + n) := by
  cases r with
  | tables k => simp only [less, holds, decide_eq_decide]; omega
  | unlimited => rfl
  | none => rfl

theorem ofJson_toJson (r : Room) : ofJson r.toJson = .ok r := by
  cases r <;> rfl

end Room

/-- The number of tables of a fragment, 0 if it is not known. -/
def weight (relation : OrderedMap String RelationEntry) (name : String) : Int :=
  match relation.find? name with
  | some (.fragment r) => r.tableCount
  | _ => 0

/-- The number of tables of fragments. -/
def total (relation : OrderedMap String RelationEntry) (names : List String) : Int :=
  (names.map (weight relation)).sum

@[simp] theorem total_nil : total relation [] = 0 := rfl

theorem total_append (xs ys : List String) :
    total relation (xs ++ ys) = total relation xs + total relation ys := by
  rw [total, map_append, sum_append]
  rfl

theorem total_share (v : Stop) (numbers : List Nat) : total relation (v.share numbers) =
    weight relation (fragmentName v.stem 0) + weight relation (fragmentName v.stem v.last) +
      (numbers.map fun (n : Nat) => weight relation (fragmentName v.stem n)).sum := by
  have hmap : ((numbers.map fun (n : Nat) => fragmentName v.stem n).map (weight relation)).sum =
      (numbers.map fun (n : Nat) => weight relation (fragmentName v.stem n)).sum := by
    rw [map_map]
    rfl
  simp only [total, Stop.share, cons_append, map_cons, map_append, map_nil, sum_cons,
    sum_append, sum_nil, hmap]
  omega

/-- The fragment is in the relation. -/
def Known (relation : OrderedMap String RelationEntry) (name : String) : Prop :=
  ∃ r, relation.find? name = some (.fragment r)

theorem cost_eq_ok {name : String} {c : Int} (h : cost relation name = .ok c) :
    weight relation name = c ∧ Known relation name := by
  obtain ⟨r, hr, hc⟩ := Steps.except_bind_eq_ok.mp h
  cases hc
  unfold fragment at hr
  split at hr <;> cases hr
  next hfind => exact ⟨by rw [weight, hfind], r, hfind⟩

/-! ### One node -/

/-- What a node with `room` takes of the fragments in line, where `w` are their costs: they are
`next` to `next'`, each of them fits, and the one that is left does not. -/
structure Filled (cost : Nat → Except Fault Int) (w : Nat → Int) (last : Int) (next : Nat)
    (room : Room) (next' : Nat) (left : Room) : Prop where
  le : next ≤ next'
  next_le : next' = next ∨ (next' : Int) ≤ last
  paid : ∀ n ∈ List.range' next (next' - next), cost n = .ok (w n)
  left_eq : left = room.less (((List.range' next (next' - next)).map w).sum)
  fits : ∀ ms m ms', List.range' next (next' - next) = ms ++ m :: ms' →
    room.holds (((ms ++ [m]).map w).sum) = true
  full : (next' : Int) < last →
    room.holds (((List.range' next (next' - next) ++ [next']).map w).sum) = false

section Fill

variable {cost : Nat → Except Fault Int} {w : Nat → Int} {last : Int} {next next' : Nat}
  {room left : Room}

theorem Filled.stop (h : (next : Int) < last → room.holds (w next) = false) :
    Filled cost w last next room next room where
  le := Nat.le_refl next
  next_le := .inl rfl
  paid := by intro n hn; simp at hn
  left_eq := by simp
  fits := by intro ms m ms' heq; simp at heq
  full := by simpa using h

theorem Filled.take (hlast : (next : Int) < last) (hcost : cost next = .ok (w next))
    (hfits : room.holds (w next) = true)
    (h : Filled cost w last (next + 1) (room.less (w next)) next' left) :
    Filled cost w last next room next' left := by
  have hle := h.le
  have hrange : List.range' next (next' - next) = next :: List.range' (next + 1)
      (next' - (next + 1)) := by
    rw [show next' - next = (next' - (next + 1)) + 1 by omega, range'_succ]
  have hsum : ∀ ns : List Nat, ((next :: ns).map w).sum = w next + (ns.map w).sum :=
    fun ns => sum_cons
  refine ⟨by omega, ?_, ?_, ?_, ?_, ?_⟩
  · rcases h.next_le with hnext | hnext
    · exact .inr (by omega)
    · exact .inr hnext
  · rw [hrange]
    exact forall_mem_cons.mpr ⟨hcost, h.paid⟩
  · rw [h.left_eq, Room.less_less, hrange, hsum]
  · intro ms m ms' heq
    rw [hrange] at heq
    cases ms with
    | nil =>
      injection heq with hm _
      subst hm
      simpa using hfits
    | cons n ms =>
      injection heq with hn heq
      subst hn
      rw [cons_append, hsum, ← Room.holds_less]
      exact h.fits ms m ms' heq
  · intro hlt
    rw [hrange, cons_append, hsum, ← Room.holds_less]
    exact h.full hlt

/-- **A node takes fragments in line as long as they fit.** -/
theorem fill_eq_ok (hw : ∀ n c, cost n = .ok c → w n = c)
    (h : fill cost last next room = .ok (next', left)) :
    Filled cost w last next room next' left := by
  fun_induction fill cost last next room with
  | case1 next room hlast ih =>
    obtain ⟨c, hc, h⟩ := Steps.except_bind_eq_ok.mp h
    obtain rfl := hw next c hc
    by_cases hfits : room.holds (w next) = true
    · rw [if_pos hfits] at h
      exact .take hlast hc hfits (ih _ h)
    · rw [if_neg hfits] at h
      cases h
      exact .stop fun _ => by simpa using hfits
  | case2 next room hlast =>
    cases h
    exact .stop fun h => absurd h hlast

end Fill

variable {p : Progress} {tables : Json} {share : Share} {a : Assignment} {v : Stop} {whole : Room}
  {paths : Paths}

/-- What a node takes at a stop: everything is in the relation, and the room that is left is
known. -/
structure Stop.Takes (relation : OrderedMap String RelationEntry) (v : Stop)
    (whole left : Room) : Prop where
  left_eq : left = whole.less (total relation v.fragments)
  known : ∀ f ∈ v.fragments, Known relation f
  fits : ∀ ms m ms', v.middle = ms ++ m :: ms' →
    whole.holds (total relation (v.share (ms ++ [m]))) = true
  full : (v.next : Int) < v.last →
    whole.holds (total relation (v.share (v.middle ++ [v.next]))) = false

theorem placeNode_eq_ok {p' : Progress} (node : String)
    (h : placeNode relation p tables = .ok (share, p')) :
    ∃ (v : Stop) (whole : Room), v.node = node ∧ v.Follows p ∧ v.toProgress = p' ∧
      v.fragments = share.fragments ∧
      Room.ofJson tables = .ok whole ∧ v.Takes relation whole share.room := by
  unfold placeNode at h
  simp only [Steps.except_bind_eq_ok] at h
  obtain ⟨headCost, hhead, whole, hwhole, tailCost, htail, ⟨next, left⟩, hfill, h⟩ := h
  cases h
  obtain ⟨hheadCost, hheadKnown⟩ := cost_eq_ok hhead
  obtain ⟨htailCost, htailKnown⟩ := cost_eq_ok htail
  have hfilled := fill_eq_ok (fun n c hc => (cost_eq_ok hc).1) hfill
  refine ⟨{ p with next := next, node := node, first := p.next }, whole, rfl, ?_, rfl,
    rfl, hwhole, ?_⟩
  · exact ⟨rfl, rfl, rfl, rfl, hfilled.le, hfilled.next_le⟩
  · refine ⟨?_, ?_, ?_, ?_⟩
    · rw [Stop.fragments, total_share, hheadCost, htailCost, ← Room.less_less, ← Room.less_less]
      exact hfilled.left_eq
    · intro f hf
      simp only [Stop.fragments, Stop.share, cons_append, mem_cons, mem_append, mem_map,
        not_mem_nil, or_false] at hf
      rcases hf with rfl | ⟨n, hn, rfl⟩ | rfl
      · exact hheadKnown
      · exact (cost_eq_ok (hfilled.paid n hn)).2
      · exact htailKnown
    · intro ms m ms' heq
      rw [total_share, hheadCost, htailCost, ← Room.holds_less, ← Room.less_less]
      exact hfilled.fits ms m ms' heq
    · intro hlt
      rw [total_share, hheadCost, htailCost, ← Room.holds_less, ← Room.less_less]
      exact hfilled.full hlt

/-! ### The accounts of all nodes -/

/-- The room of every node is what its capacity leaves after all that is placed on it. -/
structure Balanced (relation : OrderedMap String RelationEntry) (t : Topology)
    (a : Assignment) : Prop where
  keys : a.fragments.keys = a.room.keys
  known : ∀ node, ∀ f ∈ a.on node, Known relation f
  room : ∀ node tables whole, a.room.find? node = some tables → Room.ofJson tables = .ok whole →
    ∃ info capacity, t.find? node = some info ∧ Room.ofJson info.tables = .ok capacity ∧
      whole = capacity.less (total relation (a.on node))

theorem on_start (node : String) : (Assignment.start t).on node = [] := by
  rw [Assignment.on, Assignment.start, OrderedMap.find?_map]
  cases t.find? node <;> rfl

theorem balanced_start : Balanced relation t (.start t) := by
  refine ⟨?_, ?_, ?_⟩
  · simp only [Assignment.start, keys_map]
  · intro node f hf
    rw [on_start] at hf
    cases hf
  · intro node tables whole htables hwhole
    rw [Assignment.start, OrderedMap.find?_map, Option.map_eq_some_iff] at htables
    obtain ⟨info, hinfo, rfl⟩ := htables
    exact ⟨info, whole, hinfo, hwhole, by rw [on_start, total_nil, Room.less_zero]⟩

theorem Balanced.on_give (ha : Balanced relation t a) {node : String}
    (hnode : a.room.find? node = some tables) (service : String) (share : Share) (node' : String) :
    (a.give service node share).on node' = a.on node' ++ if node = node' then share.fragments
      else [] := by
  rw [Assignment.on, Assignment.give, find?_modify, Assignment.on]
  by_cases h : node' = node
  · subst h
    obtain ⟨old, hold⟩ := (mem_keys_iff _ _).mp
      (ha.keys ▸ mem_keys_of_find? hnode : node' ∈ a.fragments.keys)
    rw [if_pos rfl, if_pos rfl, hold]
    rfl
  · rw [if_neg h, if_neg (Ne.symm h), append_nil]

theorem Balanced.give (ha : Balanced relation t a) (hnode : a.room.find? v.node = some tables)
    (hwhole : Room.ofJson tables = .ok whole)
    (hshare : v.fragments = share.fragments) (hv : v.Takes relation whole share.room)
    (service : String) :
    Balanced relation t (a.give service v.node share) := by
  have hon := ha.on_give hnode service share
  refine ⟨?_, ?_, ?_⟩
  · rw [Assignment.give, keys_modify, keys_modify, ha.keys]
  · intro node f hf
    rw [hon, mem_append] at hf
    rcases hf with hf | hf
    · exact ha.known node f hf
    · split at hf
      · exact hv.known f (hshare ▸ hf)
      · cases hf
  · intro node tables' whole' htables' hwhole'
    rw [Assignment.give, find?_modify] at htables'
    by_cases h : node = v.node
    · subst h
      rw [if_pos rfl, hnode, Option.map_some] at htables'
      cases htables'
      rw [Room.ofJson_toJson] at hwhole'
      cases hwhole'
      obtain ⟨info, capacity, hinfo, hcapacity, hleft⟩ := ha.room _ _ _ hnode hwhole
      refine ⟨info, capacity, hinfo, hcapacity, ?_⟩
      rw [hv.left_eq, hleft, Room.less_less, hon, if_pos rfl, total_append, hshare]
    · rw [if_neg h] at htables'
      obtain ⟨info, capacity, hinfo, hcapacity, hleft⟩ := ha.room _ _ _ htables' hwhole'
      refine ⟨info, capacity, hinfo, hcapacity, ?_⟩
      rw [hleft, hon, if_neg (Ne.symm h), append_nil]

/-- The capacity of a node covers `before` and what it takes at a stop up to any of its fragments in
line, and it leaves a fragment in line only if the capacity does not cover that one too. -/
def Stop.Affordable (relation : OrderedMap String RelationEntry) (t : Topology) (v : Stop)
    (before : List String) : Prop :=
  ∃ info capacity, t.find? v.node = some info ∧ Room.ofJson info.tables = .ok capacity ∧
    (∀ ms m ms', v.middle = ms ++ m :: ms' →
      capacity.holds (total relation (before ++ v.share (ms ++ [m]))) = true) ∧
    ((v.next : Int) < v.last → capacity.holds
      (total relation (before ++ v.share (v.middle ++ [v.next]))) = false)

theorem Stop.Takes.affordable (ha : Balanced relation t a) {left : Room}
    (hnode : a.room.find? v.node = some tables) (hwhole : Room.ofJson tables = .ok whole)
    (hv : v.Takes relation whole left) : v.Affordable relation t (a.on v.node) := by
  obtain ⟨info, capacity, hinfo, hcapacity, hleft⟩ := ha.room _ _ _ hnode hwhole
  have hholds : ∀ names, capacity.holds (total relation (a.on v.node ++ names)) = whole.holds
      (total relation names) := by
    intro names
    rw [total_append, ← Room.holds_less, ← hleft]
  refine ⟨info, capacity, hinfo, hcapacity, ?_, ?_⟩
  · intro ms m ms' heq
    rw [hholds]
    exact hv.fits ms m ms' heq
  · intro hlt
    rw [hholds]
    exact hv.full hlt

/-- **The rest of a path is a journey**, every node of it can afford what it takes, and the accounts
stay balanced. -/
theorem placeAlong_eq_ok :
    ∀ (nodes : List String) {p : Progress} {a a' : Assignment}, Balanced relation t a →
      placeAlong relation s nodes p a = .ok a' →
    ∃ stops : List Stop, stops.map (·.node) = nodes ∧ Journey relation s p stops ∧
      Balanced relation t a' ∧ (∀ node, a'.on node = a.on node ++ takenAt node stops) ∧
      ∀ before v after, stops = before ++ v :: after →
        v.Affordable relation t (a.on v.node ++ takenAt v.node before) := by
  intro nodes
  induction nodes with
  | nil =>
    intro p a a' ha h
    cases h
    exact ⟨[], rfl, .done p, ha, fun node => by simp, fun before v after heq => by simp at heq⟩
  | cons node nodes ih =>
    intro p a a' ha h
    rw [placeAlong] at h
    cases hroom : a.room.find? node with
    | none =>
      rw [hroom] at h
      cases h
    | some tables =>
      rw [hroom] at h
      obtain ⟨⟨share, p1⟩, hplace, h⟩ := Steps.except_bind_eq_ok.mp h
      obtain ⟨p2, hadvance, hrest⟩ := Steps.except_bind_eq_ok.mp h
      obtain ⟨v, whole, rfl, hfollows, rfl, hshare, hwhole, htakes⟩ := placeNode_eq_ok node hplace
      have hgive := ha.on_give hroom s.name share
      obtain ⟨stops, hnodes, hjourney, hbalanced, hon, hafford⟩ :=
        ih (ha.give hroom hwhole hshare htakes s.name) hrest
      -- what a node has after the first stop and `before`
      have hsofar : ∀ node before, (a.give s.name v.node share).on node ++ takenAt node before =
          a.on node ++ takenAt node (v :: before) := by
        intro node before
        rw [hgive, takenAt_cons, append_assoc, hshare]
      refine ⟨v :: stops, by rw [map_cons, hnodes], .stop hfollows hadvance hjourney,
        hbalanced, ?_, ?_⟩
      · intro node
        rw [hon, hsofar]
      · intro before w after heq
        cases before with
        | nil =>
          injection heq with hw _
          subst hw
          rw [takenAt_nil, append_nil]
          exact htakes.affordable ha hroom hwhole
        | cons u before =>
          injection heq with hu heq
          subst hu
          rw [← hsofar]
          exact hafford before w after heq

theorem placeService_eq_ok {a' : Assignment} (ha : Balanced relation t a)
    (h : placeService relation paths a s = .ok a') :
    ∃ (p : Progress) (stops : List Stop), p.Valid relation s ∧ p.app = 0 ∧ p.next = 1 ∧
      paths.find? s.name = some (stops.map (·.node)) ∧ Journey relation s p stops ∧
        Balanced relation t a' ∧
      (∀ node, a'.on node = a.on node ++ takenAt node stops) ∧
      ∀ before v after, stops = before ++ v :: after →
        v.Affordable relation t (a.on v.node ++ takenAt v.node before) := by
  unfold placeService at h
  cases hpath : paths.find? s.name with
  | none =>
    rw [hpath] at h
    cases h
  | some nodes =>
    rw [hpath] at h
    cases happs : s.applications with
    | nil =>
      rw [happs] at h
      cases h
    | cons name apps =>
      rw [happs] at h
      obtain ⟨p, hbegin, h⟩ := Steps.except_bind_eq_ok.mp h
      obtain ⟨hvalid, happ, hone⟩ := begin_eq_ok (by rw [happs]; rfl) hbegin
      obtain ⟨stops, rfl, hjourney⟩ := placeAlong_eq_ok nodes ha h
      exact ⟨p, stops, hvalid, happ, hone, rfl, hjourney⟩

theorem balanced_of_foldlM (services : List Service) {a a' : Assignment}
    (ha : Balanced relation t a) (h : services.foldlM (placeService relation paths) a = .ok a') :
    Balanced relation t a' := by
  refine Steps.except_foldlM_keeps (Balanced relation t) (fun a s a' ha h => ?_) services ha h
  obtain ⟨_, _, _, _, _, _, _, ha1, _⟩ := placeService_eq_ok ha h
  exact ha1

theorem lineTo_begin (happ : p.app = 0) (hone : p.next = 1) : lineTo relation s p = [] := by
  simp [lineTo, happ, hone]

/-- **Order, contiguity and budget of placement.**  After any services, a service is placed at stops
along its path: each node takes the first fragment, a run of fragments in line and the last fragment
of one application; from stop to stop the service stays with its application or goes on to the next;
all together the stops take a beginning of the line of all its applications; and a node takes a
fragment in line exactly as long as its capacity covers the tables of everything on it. -/
theorem placeService_in_order {paths : Paths} {earlier : List Service} {a a' : Assignment}
    (hearlier : earlier.foldlM (placeService relation paths) (.start t) = .ok a)
    (h : placeService relation paths a s = .ok a') :
    ∃ stops : List Stop, paths.find? s.name = some (stops.map (·.node)) ∧
      (∀ node, a'.on node = a.on node ++ takenAt node stops) ∧
      (∀ node, ∀ f ∈ a'.on node, Known relation f) ∧
      (∀ v ∈ stops, ∃ name, s.applications[v.app]? = some name ∧ v.stem = stemOf s name ∧
        relation.find? v.stem = some (.last v.last)) ∧
      (∀ v, stops.head? = some v → v.app = 0) ∧
      (stops.IsChain fun v w => w.app = v.app ∨ w.app = v.app + 1) ∧
      stops.flatMap Stop.taken <+: line relation s ∧
      ∀ before v after, stops = before ++ v :: after →
        v.Affordable relation t (a.on v.node ++ takenAt v.node before) := by
  have ha := balanced_of_foldlM earlier balanced_start hearlier
  obtain ⟨p, stops, hp, happ, hone, hpath, hjourney, ha', hon, hafford⟩ := placeService_eq_ok ha h
  have hvalid := hjourney.valid hp
  obtain ⟨hhead, hchain⟩ := hjourney.apps hp
  have htaken := hjourney.taken_eq hp
  rw [lineTo_begin happ hone, nil_append] at htaken
  refine ⟨stops, hpath, hon, ha'.known, ?_, ?_, ?_, ?_, hafford⟩
  · intro v hv
    exact (hvalid v hv).1.belongs
  · intro v hv
    rw [hhead v hv, happ]
  · exact hchain.imp fun v w hvw => hvw.imp_right And.left
  · rw [htaken]
    cases hlast : stops.getLast? with
    | none => exact line_extends hp
    | some w => exact line_extends (hvalid w (mem_of_getLast? hlast)).1

/-- What is recorded about a fragment of which only the tables matter. -/
def withTables (n : Int) : RelationEntry :=
  .fragment { Relation.empty with tableCount := n }

/-- The applications `A` with three fragments and `B` with two, with one table each. -/
def twoApplications : OrderedMap String RelationEntry :=
  ⟨[("svc_A_0", withTables 1), ("svc_A_1", withTables 1), ("svc_A_2", withTables 1),
    ("svc_A", .last 2),
    ("svc_B_0", withTables 1), ("svc_B_1", withTables 1), ("svc_B", .last 1)]⟩

/-- Three nodes of which the first has no room for a fragment in line. -/
def threeNodes : Topology :=
  ⟨[("s1", { NodeInfo.unknown with tables := .int 2 }),
    ("s2", { NodeInfo.unknown with tables := .int 3 }),
    ("s3", { NodeInfo.unknown with tables := .int 3 })]⟩

theorem twoApplications_in_order : ∃ (a : Assignment) (stops : List Stop),
    placeService twoApplications ⟨[("svc", ["s1", "s2", "s3"])]⟩ (.start threeNodes)
      ⟨"svc", ["A", "B"]⟩ = .ok a ∧
      stops.map (·.node) = ["s1", "s2", "s3"] ∧ (∀ node, a.on node = takenAt node stops) ∧
      a.on "s1" = ["svc_A_0", "svc_A_2"] ∧ a.on "s2" = ["svc_A_0", "svc_A_1", "svc_A_2"] ∧
      a.on "s3" = ["svc_B_0", "svc_B_1"] ∧ stops.flatMap Stop.taken <+: [(0, 1)] := by
  have hrun : (placeService twoApplications ⟨[("svc", ["s1", "s2", "s3"])]⟩ (.start threeNodes)
      ⟨"svc", ["A", "B"]⟩).toOption.map (fun a => (a.on "s1", a.on "s2", a.on "s3")) =
      some (["svc_A_0", "svc_A_2"], ["svc_A_0", "svc_A_1", "svc_A_2"], ["svc_B_0", "svc_B_1"]) := by
        decide +kernel
  obtain ⟨a, ha, hon⟩ := Option.map_eq_some_iff.mp hrun
  have h := Steps.eq_ok_of_toOption ha
  have hnone : ([] : List Service).foldlM
      (placeService twoApplications ⟨[("svc", ["s1", "s2", "s3"])]⟩)
      (.start threeNodes) = .ok (.start threeNodes) := rfl
  obtain ⟨stops, hpath, hnodes, _, _, _, _, htaken, _⟩ := placeService_in_order hnone h
  simp only [Prod.mk.injEq] at hon
  refine ⟨a, stops, h, (Option.some.inj hpath).symm, ?_, hon.1, hon.2.1, hon.2.2, htaken⟩
  intro node
  rw [hnodes, on_start, nil_append]

end Pathwise.Placement
