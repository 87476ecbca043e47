import Pathwise.Proofs.Placement.Budget

/-!
# Which fragments are placed, and where twice

A placement that succeeds says nothing about what is left in line when a path ends, and it does not
ask whether the first fragment of an application is also its last.  So fragments can be left out and
fragments can be placed twice.

* `Journey.reached_iff`: which fragments of a service are placed is told by its last stop.
* `nodup_takenAt_iff`: a node has a fragment twice if an application has a single fragment or if two
  stops at the node have the same stem.
* `placeAll_reaches_exactly`: both for the placement of all services.
* `single_fragments_lost`: two applications of one fragment each, with room for both; the second is
  never placed, and the first is on every node twice.
-/

namespace Pathwise.Placement

open List

variable {relation : OrderedMap String RelationEntry} {s : Service} {t : Topology}
  {stops : List Stop}

/-! ### The fragments in line that were reached -/

theorem mem_lineTo {p : Progress} {j k : Nat} : (j, k) ∈ lineTo relation s p ↔
    (j < p.app ∧ ∃ name, s.applications[j]? = some name ∧ 1 ≤ k ∧
      k < (lastOf relation (stemOf s name)).toNat) ∨ (j = p.app ∧ 1 ≤ k ∧ k < p.next) := by
  have hinner : ∀ (name : String) (i : Nat), (j, k) ∈ inner relation s (name, i) ↔
      i = j ∧ 1 ≤ k ∧ k < (lastOf relation (stemOf s name)).toNat := by
    intro name i
    simp only [inner, mem_map, mem_range'_1, Prod.mk.injEq]
    constructor
    · rintro ⟨n, hn, rfl, rfl⟩
      exact ⟨rfl, by omega, by omega⟩
    · rintro ⟨rfl, h1, h2⟩
      exact ⟨k, by omega, rfl, rfl⟩
  rw [lineTo, mem_append, mem_flatMap]
  apply or_congr
  · constructor
    · rintro ⟨⟨name, i⟩, hmem, hin⟩
      obtain ⟨rfl, hk⟩ := (hinner name i).mp hin
      obtain ⟨n, hn, hget⟩ := mem_take_iff_getElem.mp hmem
      rw [getElem_zipIdx, Prod.mk.injEq, Nat.zero_add] at hget
      obtain ⟨hname, rfl⟩ := hget
      refine ⟨by omega, name, ?_, hk⟩
      rw [← hname]
      exact getElem?_eq_getElem _
    · rintro ⟨hj, name, hname, hk⟩
      refine ⟨(name, j), ?_, (hinner name j).mpr ⟨rfl, hk⟩⟩
      obtain ⟨hlength, hget⟩ := List.getElem?_eq_some_iff.mp hname
      refine mem_take_iff_getElem.mpr ⟨j, by simp; omega, ?_⟩
      rw [getElem_zipIdx, hget, Nat.zero_add]
  · simp only [mem_map, mem_range'_1, Prod.mk.injEq]
    constructor
    · rintro ⟨n, hn, rfl, rfl⟩
      exact ⟨rfl, by omega, by omega⟩
    · rintro ⟨rfl, h1, h2⟩
      exact ⟨k, by omega, rfl, rfl⟩

theorem Stop.mem_fragments (v : Stop) (stem : String) (k : Nat) :
    fragmentName stem k ∈ v.fragments ↔ stem = v.stem ∧
      (k = 0 ∨ k ∈ v.middle ∨ (k : Int) = v.last) := by
  simp only [Stop.fragments, Stop.share, cons_append, mem_cons, mem_append, mem_map,
    not_mem_nil, or_false, fragmentName_inj]
  constructor
  · rintro (⟨hstem, hk⟩ | ⟨n, hn, hstem, hk⟩ | ⟨hstem, hk⟩)
    · exact ⟨hstem, .inl (by omega)⟩
    · obtain rfl : n = k := by omega
      exact ⟨hstem.symm, .inr (.inl hn)⟩
    · exact ⟨hstem, .inr (.inr hk)⟩
  · rintro ⟨hstem, hk | hk | hk⟩
    · exact .inl ⟨hstem, by omega⟩
    · exact .inr (.inl ⟨k, hk, hstem.symm, rfl⟩)
    · exact .inr (.inr ⟨hstem, hk⟩)

theorem mem_flatMap_taken {j k : Nat} :
    (j, k) ∈ stops.flatMap Stop.taken ↔ ∃ v ∈ stops, v.app = j ∧ k ∈ v.middle := by
  simp only [mem_flatMap, Stop.taken, mem_map, Prod.mk.injEq]
  constructor
  · rintro ⟨v, hv, n, hn, rfl, rfl⟩
    exact ⟨v, hv, rfl, hn⟩
  · rintro ⟨v, hv, rfl, hk⟩
    exact ⟨v, hv, k, hk, rfl, rfl⟩

theorem exists_app_of_isChain : ∀ {v w : Stop} (stops : List Stop),
    ((v :: stops).IsChain fun v w => w.app = v.app ∨ w.app = v.app + 1) →
      (v :: stops).getLast? = some w →
    (∀ u ∈ v :: stops, u.app ≤ w.app) ∧ ∀ j, v.app ≤ j → j ≤ w.app →
      ∃ u ∈ v :: stops, u.app = j := by
  intro v w stops
  induction stops generalizing v with
  | nil =>
    intro _ hlast
    obtain rfl : v = w := by simpa using hlast
    refine ⟨by simp, fun j hle hge => ⟨v, by simp, by omega⟩⟩
  | cons u stops ih =>
    intro hchain hlast
    rw [isChain_cons_cons] at hchain
    obtain ⟨hstep, hchain⟩ := hchain
    rw [getLast?_cons_cons] at hlast
    obtain ⟨hle, hall⟩ := ih hchain hlast
    refine ⟨?_, ?_⟩
    · have hu := hle u mem_cons_self
      exact forall_mem_cons.mpr ⟨by omega, hle⟩
    · intro j hvj hjw
      by_cases hj : j = v.app
      · exact ⟨v, mem_cons_self, hj.symm⟩
      · obtain ⟨x, hx, hxj⟩ := hall j (by omega) hjw
        exact ⟨x, mem_cons_of_mem _ hx, hxj⟩

/-- The fragment with number `k` of the application at position `j` was reached before the stop `w`
was left. -/
def Stop.Reached (w : Stop) (j k : Nat) : Prop :=
  j < w.app ∨ j = w.app ∧ (k = 0 ∨ (k : Int) = w.last ∨ k < w.next)

/-- **The last stop of a service tells which of its fragments were placed**: all of the applications
before, and of the application at hand the first, the last and those before the progress. -/
theorem Journey.reached_iff {p : Progress} (h : Journey relation s p stops)
    (hp : p.Valid relation s) (happ : p.app = 0) (hone : p.next = 1) {w : Stop}
    (hw : stops.getLast? = some w) {j k : Nat} {name : String}
    (hname : s.applications[j]? = some name) (hk : (k : Int) ≤ lastOf relation (stemOf s name)) :
    (∃ v ∈ stops, v.app = j ∧ fragmentName (stemOf s name) k ∈ v.fragments) ↔ w.Reached j k := by
  have hvalid := h.valid hp
  obtain ⟨hhead, hchain⟩ := h.apps hp
  have htaken : stops.flatMap Stop.taken = lineTo relation s w.toProgress := by
    have := h.taken_eq hp
    rwa [lineTo_begin happ hone, nil_append, hw] at this
  obtain ⟨hbelow, hsome⟩ : (∀ v ∈ stops, v.app ≤ w.app) ∧ ∀ j, j ≤ w.app →
    ∃ v ∈ stops, v.app = j := by
    cases stops with
    | nil => cases hw
    | cons v stops =>
      obtain ⟨hle, hall⟩ := exists_app_of_isChain stops
        (hchain.imp fun _ _ hvw => hvw.imp_right And.left) hw
      refine ⟨hle, fun j hj => hall j ?_ hj⟩
      rw [hhead v rfl, happ]
      exact Nat.zero_le j
  have hmem : w ∈ stops := mem_of_getLast? hw
  -- the stops of one application agree on its stem and its last fragment
  have hstem : ∀ v ∈ stops, v.app = j → v.stem = stemOf s name ∧
      v.last = lastOf relation (stemOf s name) := by
    rintro v hv rfl
    obtain ⟨name', hname', hstem, hlast⟩ := (hvalid v hv).1.belongs
    obtain rfl : name' = name := Option.some.inj (hname'.symm.trans hname)
    exact ⟨hstem, by rw [← hstem, lastOf_eq hlast]⟩
  constructor
  · rintro ⟨v, hv, rfl, hfrag⟩
    rcases Nat.lt_or_eq_of_le (hbelow v hv) with hlt | heq
    · exact .inl hlt
    · refine .inr ⟨heq, ?_⟩
      rcases ((v.mem_fragments _ k).mp hfrag).2 with hk | hk | hk
      · exact .inl hk
      · have hline : (v.app, k) ∈ lineTo relation s w.toProgress := by
          rw [← htaken]
          exact mem_flatMap_taken.mpr ⟨v, hv, rfl, hk⟩
        rcases mem_lineTo.mp hline with ⟨hlt, _⟩ | ⟨_, _, hlt⟩
        · exact absurd hlt (by omega)
        · exact .inr (.inr hlt)
      · refine .inr (.inl ?_)
        rw [(hstem w hmem heq.symm).2, ← (hstem v hv rfl).2, hk]
  · -- a stop of the application has the first and the last fragment; the others were taken in line
    have hedge : j ≤ w.app → k = 0 ∨ (k : Int) = lastOf relation (stemOf s name) →
        ∃ v ∈ stops, v.app = j ∧ fragmentName (stemOf s name) k ∈ v.fragments := by
      intro hj hedge
      obtain ⟨v, hv, rfl⟩ := hsome j hj
      obtain ⟨hvstem, hvlast⟩ := hstem v hv rfl
      refine ⟨v, hv, rfl, (v.mem_fragments _ k).mpr ⟨hvstem.symm, ?_⟩⟩
      rcases hedge with hedge | hedge
      · exact .inl hedge
      · exact .inr (.inr (by rw [hvlast, hedge]))
    have hline : (j, k) ∈ lineTo relation s w.toProgress →
        ∃ v ∈ stops, v.app = j ∧ fragmentName (stemOf s name) k ∈ v.fragments := by
      intro hline
      rw [← htaken] at hline
      obtain ⟨v, hv, rfl, hk⟩ := mem_flatMap_taken.mp hline
      exact ⟨v, hv, rfl, (v.mem_fragments _ k).mpr ⟨(hstem v hv rfl).1.symm, .inr (.inl hk)⟩⟩
    by_cases hzero : k = 0
    · intro hreached
      refine hedge ?_ (.inl hzero)
      rcases hreached with hj | ⟨hj, _⟩ <;> omega
    · rintro (hj | ⟨hj, hk | hk | hk⟩)
      · by_cases hlast : (k : Int) = lastOf relation (stemOf s name)
        · exact hedge (by omega) (.inr hlast)
        · exact hline (mem_lineTo.mpr (.inl ⟨hj, name, hname, by omega, by omega⟩))
      · exact absurd hk hzero
      · exact hedge (by omega) (.inr (by rw [hk, (hstem w hmem hj.symm).2]))
      · exact hline (mem_lineTo.mpr (.inr ⟨hj, by omega, hk⟩))

/-! ### Fragments that a node has twice -/

theorem Stop.nodup_fragments_iff {v : Stop} (hv : v.Regular) :
    v.fragments.Nodup ↔ v.last ≠ 0 := by
  have hnumbers : v.fragments = (0 :: v.middle.map Int.ofNat ++ [v.last]).map
      (fragmentName v.stem) := by
    simp [Stop.fragments, Stop.share, Function.comp_def]
  have hinj : Function.Injective (fragmentName v.stem) := fun m n h => (fragmentName_inj.mp h).2
  -- the fragments in line lie strictly between the first and the last
  have hmiddle : ∀ n ∈ v.middle.map Int.ofNat, 0 < n ∧ n < v.last := by
    intro n hn
    obtain ⟨m, hm, rfl⟩ := mem_map.mp hn
    rw [Stop.middle, mem_range'_1] at hm
    have hfirst := hv.one_le
    rcases hv.next_le with hnext | hnext
    · omega
    · exact ⟨by simp; omega, by simp; omega⟩
  have hnodup : (v.middle.map Int.ofNat).Nodup :=
    List.Nodup.map (fun m n h => Int.ofNat.inj h) nodup_range'
  rw [hnumbers, nodup_map_iff hinj, cons_append, nodup_cons, nodup_append']
  constructor
  · rintro ⟨hzero, _⟩ hlast
    exact hzero (by simp [hlast])
  · intro hlast
    refine ⟨?_, hnodup, nodup_singleton _, ?_⟩
    · intro hmem
      rcases mem_append.mp hmem with hmem | hmem
      · exact absurd (hmiddle 0 hmem).1 (by omega)
      · exact hlast (mem_singleton.mp hmem).symm
    · intro n hn hn'
      obtain rfl : n = v.last := by simpa using hn'
      exact absurd (hmiddle _ hn).2 (by omega)

theorem Stop.disjoint_fragments_iff (v w : Stop) : v.fragments.Disjoint w.fragments ↔
    v.stem ≠ w.stem := by
  constructor
  · intro h heq
    have hv : fragmentName v.stem (0 : Nat) ∈ v.fragments :=
      (v.mem_fragments _ 0).mpr ⟨rfl, .inl rfl⟩
    have hw : fragmentName v.stem (0 : Nat) ∈ w.fragments :=
      (w.mem_fragments _ 0).mpr ⟨heq, .inl rfl⟩
    exact h hv hw
  · intro h f hv hw
    have hname : ∀ u : Stop, f ∈ u.fragments → ∃ n, f = fragmentName u.stem n := by
      intro u hu
      simp only [Stop.fragments, Stop.share, cons_append, mem_cons, mem_append, mem_map,
        not_mem_nil, or_false] at hu
      rcases hu with rfl | ⟨n, _, rfl⟩ | rfl
      · exact ⟨_, rfl⟩
      · exact ⟨_, rfl⟩
      · exact ⟨_, rfl⟩
    obtain ⟨m, rfl⟩ := hname v hv
    obtain ⟨n, hn⟩ := hname w hw
    exact h (fragmentName_inj.mp hn).1

theorem nodup_takenAt_iff (node : String) (hstops : ∀ v ∈ stops, v.Regular) :
    (takenAt node stops).Nodup ↔ (∀ v ∈ stops, v.node = node → v.last ≠ 0) ∧
      (stops.filter (·.node = node)).Pairwise fun v w => v.stem ≠ w.stem := by
  rw [takenAt, nodup_flatMap]
  apply and_congr
  · simp only [mem_filter, decide_eq_true_eq]
    constructor
    · intro h v hv hnode
      exact (Stop.nodup_fragments_iff (hstops v hv)).mp (h v ⟨hv, hnode⟩)
    · rintro h v ⟨hv, hnode⟩
      exact (Stop.nodup_fragments_iff (hstops v hv)).mpr (h v hv hnode)
  · have hon : Function.onFun List.Disjoint Stop.fragments = fun v w => v.stem ≠ w.stem := by
      funext v w
      exact propext (v.disjoint_fragments_iff w)
    rw [hon]

/-! ### All services -/

/-- The stops of all services, in the order in which they were made. -/
def allStops (journal : List (Service × List Stop)) : List Stop :=
  journal.flatMap (·.2)

/-- What a placement keeps a journal of: how each service was placed. -/
structure Placed (relation : OrderedMap String RelationEntry) (paths : Paths) (s : Service)
    (stops : List Stop) : Prop where
  path : paths.find? s.name = some (stops.map (·.node))
  journey : ∃ p : Progress, p.Valid relation s ∧ p.app = 0 ∧ p.next = 1 ∧ Journey relation s p stops

theorem exists_journal {paths : Paths} :
    ∀ (services : List Service) {a a' : Assignment}, Balanced relation t a →
    services.foldlM (placeService relation paths) a = .ok a' →
    ∃ journal : List (Service × List Stop), journal.map (·.1) = services ∧
      (∀ e ∈ journal, Placed relation paths e.1 e.2) ∧
      ∀ node, a'.on node = a.on node ++ takenAt node (allStops journal) := by
  intro services
  induction services with
  | nil =>
    intro a a' ha h
    cases h
    exact ⟨[], rfl, by simp, by simp [allStops]⟩
  | cons s services ih =>
    intro a a' ha h
    rw [foldlM_cons] at h
    obtain ⟨a1, h1, h2⟩ := Steps.except_bind_eq_ok.mp h
    obtain ⟨p, stops, hp, happ, hone, hpath, hjourney, ha1, hon, _⟩ := placeService_eq_ok ha h1
    obtain ⟨journal, hservices, hplaced, hon'⟩ := ih ha1 h2
    refine ⟨(s, stops) :: journal, by rw [map_cons, hservices], ?_, ?_⟩
    · exact forall_mem_cons.mpr ⟨⟨hpath, p, hp, happ, hone, hjourney⟩, hplaced⟩
    · intro node
      have hstops : allStops ((s, stops) :: journal) = stops ++ allStops journal := flatMap_cons
      rw [hon', hon, hstops, takenAt_append, append_assoc]

/-- **What a placement reaches and what it repeats.**  Every service has a journey along its path,
and a node has what the stops at it took, in order.  Of a service exactly those fragments are placed
that its last stop reached.  A node has no fragment twice exactly if no stop at it is of an
application with a single fragment and no two stops at it have the same stem. -/
theorem placeAll_reaches_exactly {paths : Paths} {services : OrderedMap String Service}
    {a : Assignment} (h : placeAll relation paths t services = .ok a) :
    ∃ journal : List (Service × List Stop), journal.map (·.1) = services.values ∧
      (∀ node, a.on node = takenAt node (allStops journal)) ∧
      (∀ s stops, (s, stops) ∈ journal →
        paths.find? s.name = some (stops.map (·.node)) ∧
        (∀ v ∈ stops, ∃ name, s.applications[v.app]? = some name ∧ v.stem = stemOf s name ∧
          relation.find? v.stem = some (.last v.last)) ∧
        ∀ w, stops.getLast? = some w → ∀ (j k : Nat)
        (name : String), s.applications[j]? = some name →
          (k : Int) ≤ lastOf relation (stemOf s name) →
          ((∃ v ∈ stops, v.app = j ∧ fragmentName (stemOf s name) k ∈ v.fragments) ↔
            w.Reached j k)) ∧
      ∀ node, (a.on node).Nodup ↔ (∀ v ∈ allStops journal, v.node = node → v.last ≠ 0) ∧
        ((allStops journal).filter (·.node = node)).Pairwise fun v w => v.stem ≠ w.stem := by
  obtain ⟨journal, hservices, hplaced, hon⟩ := exists_journal services.values balanced_start h
  have hon' : ∀ node, a.on node = takenAt node (allStops journal) := by
    intro node
    rw [hon, on_start, nil_append]
  refine ⟨journal, hservices, hon', ?_, ?_⟩
  · intro s stops hmem
    obtain ⟨hpath, p, hp, happ, hone, hjourney⟩ := hplaced _ hmem
    refine ⟨hpath, fun v hv => (hjourney.valid hp v hv).1.belongs, ?_⟩
    intro w hw j k name hname hk
    exact hjourney.reached_iff hp happ hone hw hname hk
  · intro node
    rw [hon']
    apply nodup_takenAt_iff
    intro v hv
    obtain ⟨e, he, hv⟩ := mem_flatMap.mp hv
    obtain ⟨_, p, hp, _, _, hjourney⟩ := hplaced e he
    exact (hjourney.valid hp v hv).2

/-- Two applications of one fragment each. -/
def singleFragments : OrderedMap String RelationEntry :=
  ⟨[("svc_A_0", withTables 0), ("svc_A", .last 0), ("svc_B_0", withTables 0), ("svc_B", .last 0)]⟩

/-- The placement succeeds, with room to spare; the second application is not placed anywhere, and
both nodes have the fragment of the first one twice. -/
theorem single_fragments_lost : ∃ (a : Assignment) (journal : List (Service × List Stop)),
    placeAll singleFragments ⟨[("svc", ["s1", "s2"])]⟩ threeNodes
      ⟨[("svc", ⟨"svc", ["A", "B"]⟩)]⟩ = .ok a ∧
      (∀ node, a.on node = takenAt node (allStops journal)) ∧
      a.on "s1" = ["svc_A_0", "svc_A_0"] ∧ a.on "s2" = ["svc_A_0", "svc_A_0"] ∧ a.on "s3" = [] ∧
      ¬ ((∀ v ∈ allStops journal, v.node = "s1" → v.last ≠ 0) ∧
        ((allStops journal).filter (·.node = "s1")).Pairwise fun v w => v.stem ≠ w.stem) := by
  have hrun : (placeAll singleFragments ⟨[("svc", ["s1", "s2"])]⟩ threeNodes
      ⟨[("svc", ⟨"svc", ["A", "B"]⟩)]⟩).toOption.map (fun a => (a.on "s1", a.on "s2", a.on "s3")) =
      some (["svc_A_0", "svc_A_0"], ["svc_A_0", "svc_A_0"], []) := by decide +kernel
  obtain ⟨a, ha, hon⟩ := Option.map_eq_some_iff.mp hrun
  have h := Steps.eq_ok_of_toOption ha
  obtain ⟨journal, _, hnodes, _, hnodup⟩ := placeAll_reaches_exactly h
  simp only [Prod.mk.injEq] at hon
  refine ⟨a, journal, h, hnodes, hon.1, hon.2.1, hon.2.2, ?_⟩
  rw [← hnodup, hon.1]
  decide

end Pathwise.Placement
