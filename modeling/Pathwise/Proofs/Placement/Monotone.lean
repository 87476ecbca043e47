import Pathwise.Proofs.Fragment.Origins
import Pathwise.Proofs.Placement.Budget
import Mathlib.Algebra.Order.BigOperators.Group.List

/-!
# More room, more progress

A service is placed twice along one path, the second time with at least as much room on every node.
The second placement is never behind the first one: where both are at the same application they take
the same first and last fragment, so the second one has room for whatever the first one takes
(`Stop.Takes.next_le`), and an application that only the second one has left behind makes up for any
number of fragments (`visit_mono`).
-/

namespace Pathwise.Placement

open List

variable {relation : OrderedMap String RelationEntry} {s : Service} {p p' q q' : Progress}
  {a a' : Assignment}

/-- No fragment has a negative number of tables. -/
def Counted (relation : OrderedMap String RelationEntry) : Prop :=
  ∀ name r, relation.find? name = some (.fragment r) → 0 ≤ r.tableCount

/-- **Generation counts tables**, from zero on for every fragment. -/
theorem counted_of_services {program : Program} {g g' : Generation}
    {svcs : OrderedMap String Service} (hrelation : g.relation = {})
    (h : Gen.services program g = .ok svcs g') : Counted g'.relation := by
  intro name r hr
  obtain ⟨_, _, _, _, e, _, _, _, htables, _⟩ := (Gen.services_runs h).exists_madeBy hrelation hr
  rw [htables]
  exact Int.natCast_nonneg _

/-- Whatever fits into the first room fits into the second one. -/
def Room.AtMost (r r' : Room) : Prop :=
  ∀ c, r.holds c = true → r'.holds c = true

/-- The first progress is at an earlier application, or at the same one and no further. -/
def Progress.Upto (p q : Progress) : Prop :=
  p.app < q.app ∨ p.app = q.app ∧ p.next ≤ q.next

/-- On the nodes, the second assignment leaves at least as much room as the first one. -/
def Assignment.Roomier (nodes : List String) (a a' : Assignment) : Prop :=
  ∀ node ∈ nodes, ∀ tables tables' r r', a.room.find? node = some tables →
    a'.room.find? node = some tables' →
    Room.ofJson tables = .ok r → Room.ofJson tables' = .ok r' → r.AtMost r'

/-- Places a service on the next node of its path and goes on. -/
def visit (relation : OrderedMap String RelationEntry) (s : Service) (x : Progress × Assignment)
    (node : String) :
    Except Fault (Progress × Assignment) :=
  match x.2.room.find? node with
  | none => throw (.missingKey node)
  | some tables => do
    let (share, p) ← placeNode relation x.1 tables
    pure (← advance relation s p, x.2.give s.name node share)

theorem placeAlong_eq_visits : ∀ (nodes : List String) (p : Progress) (a : Assignment),
    placeAlong relation s nodes p a = (nodes.foldlM (visit relation s) (p, a)).map Prod.snd := by
  intro nodes
  induction nodes with
  | nil => exact fun _ _ => rfl
  | cons node nodes ih =>
    intro p a
    rw [placeAlong, foldlM_cons, visit]
    cases a.room.find? node with
    | none => rfl
    | some tables =>
      cases hplace : placeNode relation p tables with
      | error e => simp [hplace, bind, Except.bind, Except.map]
      | ok x =>
        cases hadvance : advance relation s x.2 with
        | error e => simp [hplace, hadvance, bind, Except.bind, Except.map]
        | ok q => simp [hplace, hadvance, bind, Except.bind, pure, Except.pure, ih]

theorem visit_eq_ok {node : String} (h : visit relation s (p, a) node = .ok (q, a')) :
    ∃ tables share r, a.room.find? node = some tables ∧
      placeNode relation p tables = .ok (share, r) ∧
      advance relation s r = .ok q ∧ a' = a.give s.name node share := by
  unfold visit at h
  split at h
  · cases h
  · next tables htables =>
    obtain ⟨⟨share, r⟩, hplace, h⟩ := Steps.except_bind_eq_ok.mp h
    obtain ⟨q', hadvance, h⟩ := Steps.except_bind_eq_ok.mp h
    cases h
    exact ⟨tables, share, r, htables, hplace, hadvance, rfl⟩

/-! ### One node -/

theorem Room.holds_of_le {r : Room} {c c' : Int} (hle : c' ≤ c) (h : r.holds c = true) :
    r.holds c' = true := by
  cases r with
  | tables n =>
    simp only [holds, decide_eq_true_eq] at h ⊢
    omega
  | unlimited => rfl
  | none => cases h

theorem Counted.sum_nonneg (hcounted : Counted relation) (stem : String) (ns : List Nat) :
    0 ≤ (ns.map fun (n : Nat) => weight relation (fragmentName stem n)).sum := by
  refine List.sum_nonneg fun w hw => ?_
  obtain ⟨n, _, rfl⟩ := mem_map.mp hw
  unfold weight
  split
  · next r hr => exact hcounted _ r hr
  · exact Int.le_refl 0

/-- **At the same application, more room takes the service at least as far.** -/
theorem Stop.Takes.next_le {v v' : Stop} {whole whole' left left' : Room}
    (hcounted : Counted relation) (h : v.Takes relation whole left)
    (h' : v'.Takes relation whole' left') (hroom : whole.AtMost whole') (hstem : v.stem = v'.stem)
    (hlast : v.last = v'.last) (hv : v.next = v.first ∨ (v.next : Int) ≤ v.last)
    (hv' : v'.first ≤ v'.next) (hfirst : v.first ≤ v'.first) : v.next ≤ v'.next := by
  by_contra hlt
  have hlt : v'.next < v.next := Nat.lt_of_not_le hlt
  -- the first placement took the fragment at which the second one stopped, and everything before it
  have hmiddle : v.middle = (List.range' v.first (v'.first - v.first) ++ v'.middle) ++
      v'.next :: List.range' (v'.next + 1) (v.next - (v'.next + 1)) := by
    have htail : List.range' v'.next (v.next - v'.next) = v'.next :: List.range' (v'.next + 1)
        (v.next - (v'.next + 1)) := by
      rw [show v.next - v'.next = (v.next - (v'.next + 1)) + 1 by omega, range'_succ]
    rw [Stop.middle, Stop.middle, range'_glue hfirst hv', ← htail,
      range'_glue (hfirst.trans hv') hlt.le]
  have hfits := h.fits _ _ _ hmiddle
  have hfull := h'.full (by omega)
  have hle : total relation (v'.share (v'.middle ++ [v'.next])) ≤
      total relation (v.share ((List.range' v.first (v'.first - v.first) ++ v'.middle) ++
        [v'.next])) := by
    have hskipped := hcounted.sum_nonneg v.stem (List.range' v.first (v'.first - v.first))
    rw [hstem] at hskipped
    simp only [total_share, map_append, sum_append, hstem, hlast]
    omega
  rw [hroom _ (Room.holds_of_le hle hfits)] at hfull
  cases hfull

theorem advance_cases (h : advance relation s p = .ok q) :
    q = p ∧ ((p.next : Int) = p.last → s.applications.length ≤ p.app + 1) ∨
      (p.next : Int) = p.last ∧ p.app + 1 < s.applications.length ∧ q.app = p.app + 1 ∧
        q.next = 1 := by
  unfold advance at h
  split at h
  · next hused =>
    split at h
    · next name hname =>
      obtain ⟨_, happ, hone⟩ := begin_eq_ok hname h
      exact .inr ⟨hused, (List.getElem?_eq_some_iff.mp hname).1, happ, hone⟩
    · next hnone =>
      cases h
      exact .inl ⟨rfl, fun _ => getElem?_eq_none_iff.mp hnone⟩
  · next hused =>
    cases h
    exact .inl ⟨rfl, fun hlast => absurd hlast hused⟩

/-- **One node keeps the order of two placements.** -/
theorem visit_mono (hcounted : Counted relation) {node : String} {b b' : Assignment}
    (hroom : a.Roomier [node] a') (hp : p.Valid relation s) (hp' : p'.Valid relation s)
    (hle : p.Upto p') (h : visit relation s (p, a) node = .ok (q, b))
    (h' : visit relation s (p', a') node = .ok (q', b')) : q.Valid relation s ∧
      q'.Valid relation s ∧ q.Upto q' := by
  obtain ⟨tables, share, r, htables, hplace, hadvance, -⟩ := visit_eq_ok h
  obtain ⟨tables', share', r', htables', hplace', hadvance', -⟩ := visit_eq_ok h'
  obtain ⟨v, whole, -, hv, rfl, -, hwhole, htakes⟩ := placeNode_eq_ok node hplace
  obtain ⟨v', whole', -, hv', rfl, -, hwhole', htakes'⟩ := placeNode_eq_ok node hplace'
  have hvalid := hv.valid hp
  have hvalid' := hv'.valid hp'
  have hq := (advance_eq_ok hadvance hvalid).1
  have hq' := (advance_eq_ok hadvance' hvalid').1
  refine ⟨hq, hq', ?_⟩
  have hone := hq'.one_le
  have happ := hv.app
  have happ' := hv'.app
  rcases hle with hlt | ⟨heq, hnext⟩
  · -- the first placement gets to the start of the next application at most
    rcases advance_cases hadvance with ⟨rfl, -⟩ | ⟨-, -, hqapp, hqnext⟩ <;>
      rcases advance_cases hadvance' with ⟨rfl, -⟩ | ⟨-, -, hqapp', hqnext'⟩ <;>
        unfold Progress.Upto <;> omega
  · obtain ⟨name, hname, hstem, hlast⟩ := hvalid.belongs
    obtain ⟨name', hname', hstem', hlast'⟩ := hvalid'.belongs
    obtain rfl : name = name' := by
      rw [happ, heq, ← happ', hname'] at hname
      exact (Option.some.inj hname).symm
    have hstems : v.stem = v'.stem := hstem.trans hstem'.symm
    have hlasts : v.last = v'.last := by
      rw [hstems, hlast'] at hlast
      exact (RelationEntry.last.inj (Option.some.inj hlast)).symm
    have hnexts : v.next ≤ v'.next := htakes.next_le hcounted htakes'
      (hroom node mem_cons_self tables tables' whole whole' htables htables' hwhole hwhole') hstems
        hlasts hv.next_le
      hv'.first_le (by rw [hv.first, hv'.first]; exact hnext)
    have hone := hvalid.one_le
    have hbound := hvalid'.next_le
    rcases advance_cases hadvance with ⟨rfl, -⟩ | ⟨hused, hmore, hqapp, hqnext⟩ <;>
      rcases advance_cases hadvance' with ⟨rfl, hstay⟩ | ⟨-, -, hqapp', hqnext'⟩ <;>
        unfold Progress.Upto <;> omega

/-! ### Whole paths -/

theorem Assignment.Roomier.give {node : String} {nodes : List String}
    (h : a.Roomier (node :: nodes) a') (hnode : node ∉ nodes) (service : String)
    (share share' : Share) : (a.give service node share).Roomier nodes
      (a'.give service node share') := by
  have hroom : ∀ (a : Assignment) (share : Share), ∀ n ∈ nodes,
      (a.give service node share).room.find? n = a.room.find? n := by
    intro a share n hn
    rw [Assignment.give, OrderedMap.find?_modify, if_neg]
    rintro rfl
    exact hnode hn
  intro n hn tables tables' r r' htables htables'
  rw [hroom a share n hn] at htables
  rw [hroom a' share' n hn] at htables'
  exact h n (mem_cons_of_mem _ hn) tables tables' r r' htables htables'

theorem visits_mono (hcounted : Counted relation) :
    ∀ (nodes : List String) {p p' q q' : Progress} {a a' b b' : Assignment},
    nodes.Nodup → a.Roomier nodes a' → p.Valid relation s → p'.Valid relation s → p.Upto p' →
    nodes.foldlM (visit relation s) (p, a) = .ok (q, b) → nodes.foldlM (visit relation s)
    (p', a') = .ok (q', b') → q.Upto q' := by
  intro nodes
  induction nodes with
  | nil =>
    intro p p' q q' a a' b b' _ _ _ _ hle h h'
    cases h
    cases h'
    exact hle
  | cons node nodes ih =>
    intro p p' q q' a a' b b' hnodup hroom hp hp' hle h h'
    rw [foldlM_cons] at h h'
    obtain ⟨⟨p1, a1⟩, h1, h2⟩ := Steps.except_bind_eq_ok.mp h
    obtain ⟨⟨p1', a1'⟩, h1', h2'⟩ := Steps.except_bind_eq_ok.mp h'
    obtain ⟨hnode, hnodup⟩ := nodup_cons.mp hnodup
    have hhere : a.Roomier [node] a' := fun n hn => hroom n (mem_singleton.mp hn ▸ mem_cons_self)
    obtain ⟨hp1, hp1', hle1⟩ := visit_mono hcounted hhere hp hp' hle h1 h1'
    obtain ⟨_, share, _, _, _, _, rfl⟩ := visit_eq_ok h1
    obtain ⟨_, share', _, _, _, _, rfl⟩ := visit_eq_ok h1'
    exact ih hnodup (hroom.give hnode _ _ _) hp1 hp1' hle1 h2 h2'

/--
**Progress is monotone in the room of nodes.**  A service is placed by visiting the nodes of its
path, which are different.  If every node has at least as much room in the second assignment as in
the first one, then after any number of nodes the second placement is at the same application and at
least as far, or at a later one.
-/
theorem placeService_monotone {paths : Paths} {nodes : List String} {name : String}
    {rest : List String} (hcounted : Counted relation) (hpath : paths.find? s.name = some nodes)
    (hnodes : nodes.Nodup) (happs : s.applications = name :: rest) (hroom : a.Roomier nodes a')
    (hbegin : Progress.begin relation s.name 0 name = .ok p) :
    placeService relation paths a s = (nodes.foldlM (visit relation s) (p, a)).map Prod.snd ∧
    placeService relation paths a' s = (nodes.foldlM (visit relation s) (p, a')).map Prod.snd ∧
    ∀ k q q' b b', (nodes.take k).foldlM (visit relation s) (p, a) = .ok (q, b) →
      (nodes.take k).foldlM (visit relation s) (p, a') = .ok (q', b') → q.Upto q' := by
  have hplace : ∀ a, placeService relation paths a s =
      (nodes.foldlM (visit relation s) (p, a)).map Prod.snd := by
    intro a
    rw [← placeAlong_eq_visits]
    simp only [placeService, hpath, happs, hbegin]
    rfl
  refine ⟨hplace a, hplace a', fun k q q' b b' h h' => ?_⟩
  have hvalid := (begin_eq_ok (by rw [happs]; rfl) hbegin).1
  exact visits_mono hcounted _ (hnodes.sublist (take_sublist k nodes))
    (fun n hn => hroom n (mem_of_mem_take hn)) hvalid hvalid (.inr ⟨rfl, Nat.le_refl _⟩) h h'

theorem placeService_monotone_twoApplications : ∃ q q' b b',
    ["s1", "s2"].foldlM (visit twoApplications ⟨"svc", ["A", "B"]⟩)
    (⟨0, "svc_A", 2, 1⟩, ⟨{}, {}, ⟨[("s1", .int 2), ("s2", .int 2)]⟩⟩) =
      .ok (q, b) ∧
    ["s1", "s2"].foldlM (visit twoApplications ⟨"svc", ["A", "B"]⟩)
    (⟨0, "svc_A", 2, 1⟩, ⟨{}, {}, ⟨[("s1", .int 2), ("s2", .int 3)]⟩⟩) =
      .ok (q', b') ∧ (q.app, q.next) = (0, 1) ∧ (q'.app, q'.next) = (1, 1) ∧ q.Upto q' := by
  have hrun : ∀ n : Int, n = 2 ∨ n = 3 →
      (["s1", "s2"].foldlM (visit twoApplications ⟨"svc", ["A", "B"]⟩)
      (⟨0, "svc_A", 2, 1⟩, ⟨{}, {}, ⟨[("s1", .int 2), ("s2", .int n)]⟩⟩)).toOption.map
        (fun x => (x.1.app, x.1.next)) =
      some (if n = 2 then (0, 1) else (1, 1)) := by
    rintro n (rfl | rfl) <;> decide +kernel
  obtain ⟨⟨q, b⟩, h, hq⟩ := Option.map_eq_some_iff.mp (hrun 2 (.inl rfl))
  obtain ⟨⟨q', b'⟩, h', hq'⟩ := Option.map_eq_some_iff.mp (hrun 3 (.inr rfl))
  have hcounted : Counted twoApplications := by
    intro name r hr
    have hall : ∀ e ∈ twoApplications.entries, ∀ r, e.2 = .fragment r → 0 ≤ r.tableCount := by
      simp [twoApplications, withTables]
    exact hall _ (OrderedMap.mem_entries_of_find? hr) r rfl
  have hroom : Assignment.Roomier ["s1", "s2"] ⟨{}, {}, ⟨[("s1", .int 2), ("s2", .int 2)]⟩⟩
      ⟨{}, {}, ⟨[("s1", .int 2), ("s2", .int 3)]⟩⟩ := by
    intro node hnode tables tables' r r' htables htables' hr hr' c hc
    rcases mem_pair.mp hnode with rfl | rfl <;> cases htables <;> cases htables' <;> cases hr <;>
      cases hr' <;>
      simp only [Room.holds, decide_eq_true_eq] at hc ⊢ <;> omega
  have hpath : (⟨[("svc", ["s1", "s2"])]⟩ : Paths).find? "svc" = some ["s1", "s2"] := rfl
  have hmono := (placeService_monotone hcounted hpath (by decide) rfl hroom rfl).2.2 2 q q' b b'
    (Steps.eq_ok_of_toOption h)
    (Steps.eq_ok_of_toOption h')
  exact ⟨q, q', b, b', Steps.eq_ok_of_toOption h, Steps.eq_ok_of_toOption h', hq, hq', hmono⟩

end Pathwise.Placement
