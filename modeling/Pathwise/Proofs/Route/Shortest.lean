import Mathlib.Data.List.Perm.Subperm
import Pathwise.Proofs.Route.Network

/-!
# Shortest ways

However a network came about by adding links and looking things up (`Reached`), the search through
it comes to an end and finds a shortest way between two devices if there is one (`route_shortest`).

The queue of the search is a frontier (`Frontier`): its ways are shortest ones and stand in the
order of their lengths, and a device that was seen is in the queue or has no unseen neighbours.  So
a walk to a device that was not seen leads through the queue, and is longer than the first way in it
(`Frontier.exists_shorter`).
-/

namespace Pathwise.Network

open List OrderedMap

variable {δ π : Type} [DecidableEq δ] {n n' : Network δ π} {start goal here : δ} {way seen : List δ}
  {queue : List (δ × List δ)}

/-! ### Networks that come about -/

/-- Networks that come about by adding links and looking things up. -/
inductive Reached : Network δ π → Prop
  | empty : Reached .empty
  | addLink {n : Network δ π} (h : Reached n) (source target : δ) (port : π) :
      Reached (n.addLink source target port)
  | route {n : Network δ π} (h : Reached n) (start goal : δ) : Reached (n.route start goal).1
  | port {n : Network δ π} (h : Reached n) (source target : δ) : Reached (n.port source target).1

/-- The second network has the links and devices of the first one. -/
structure Same (n n' : Network δ π) : Prop where
  neighbours : ∀ d, n'.neighbours d = n.neighbours d
  devices : n'.devices = n.devices

theorem Same.refl (n : Network δ π) : n.Same n :=
  ⟨fun _ => rfl, rfl⟩

theorem Same.touch (h : n.Same n') (device : δ) : n.Same (n'.touch device) :=
  ⟨fun d => (neighbours_touch n' device d).trans (h.neighbours d), h.devices⟩

theorem Same.search :
    ∀ (steps : Nat) {queue : List (δ × List δ)} {seen : List δ} {n' : Network δ π}, n.Same n' →
      n.Same (search goal steps queue seen n').1
  | 0, _, _, _, h => h
  | _ + 1, [], _, _, h => h
  | steps + 1, (here, way) :: queue, seen, n', h => by
    rw [Network.search]
    split
    · exact h.touch here
    · exact (h.touch here).search steps

theorem Same.route (n : Network δ π) (start goal : δ) : n.Same (n.route start goal).1 := by
  unfold Network.route
  split
  · split
    · exact .refl n
    · exact (Same.refl n).search _
  · exact .refl n

/-- No neighbour is listed twice, and all neighbours are devices. -/
structure Tidy (n : Network δ π) : Prop where
  nodup : ∀ d, (n.neighbours d).Nodup
  devices : ∀ d, n.neighbours d ⊆ n.devices

theorem Tidy.same (h : n.Tidy) (hsame : n.Same n') : n'.Tidy :=
  ⟨fun d => hsame.neighbours d ▸ h.nodup d,
    fun d => hsame.neighbours d ▸ hsame.devices ▸ h.devices d⟩

theorem mem_addDevice (devices : List δ) (d d' : δ) : d' ∈ addDevice devices d ↔
    d' ∈ devices ∨ d' = d := by
  unfold addDevice
  split
  · next h => exact ⟨.inl, fun hd => hd.elim id fun heq => heq ▸ contains_iff_mem.mp h⟩
  · rw [mem_append, mem_singleton]

theorem Reached.tidy (h : n.Reached) : n.Tidy := by
  induction h with
  | empty => exact ⟨fun _ => nodup_nil, fun _ => nil_subset _⟩
  | @addLink n _ source target port ih =>
    have hdevices : ∀ d, d ∈ n.devices ∨ d = target → d ∈ (n.addLink source target port).devices :=
      fun d hd =>
      (mem_addDevice _ target d).mpr
        (hd.imp_left fun hd => (mem_addDevice _ source d).mpr (.inl hd))
    have hneighbours : ∀ d, (n.addLink source target port).neighbours d =
        if d = source then ((n.ports source).insert target port).keys else n.neighbours d := by
      intro d
      rw [neighbours, ports, Network.addLink, find?_insert]
      split <;> rfl
    refine ⟨fun d => ?_, fun d b hb => ?_⟩
    · rw [hneighbours]
      split
      · exact nodup_insert (ih.nodup source) target port
      · exact ih.nodup d
    · rw [hneighbours] at hb
      split at hb
      · exact hdevices b (((mem_keys_insert _ _ _ _).mp hb).imp_left fun hb => ih.devices source hb)
      · exact hdevices b (.inl (ih.devices d hb))
  | route _ start goal ih => exact ih.same (.route _ start goal)
  | port _ source _ ih => exact ih.same ((Same.refl _).touch source)

/-! ### Walks -/

/-- The way leads from one device to another one along links. -/
structure Walk (n : Network δ π) (a b : δ) (way : List δ) : Prop where
  begins : way.head? = some a
  ends : way.getLast? = some b
  linked : n.Linked way

theorem Walk.single (n : Network δ π) (a : δ) : n.Walk a a [a] :=
  ⟨rfl, rfl, isChain_singleton a⟩

theorem Walk.length_pos {a b : δ} (h : n.Walk a b way) : 0 < way.length := by
  refine length_pos_iff.mpr fun hnil => ?_
  have hbegins := h.begins
  rw [hnil] at hbegins
  cases hbegins

theorem Walk.extend {a b c : δ} (h : n.Walk a b way) (hc : c ∈ n.neighbours b) :
    n.Walk a c (way ++ [c]) := by
  refine ⟨by rw [head?_append, h.begins]; rfl, getLast?_concat,
    isChain_append.mpr ⟨h.linked, isChain_singleton c, fun x hx y hy => ?_⟩⟩
  obtain rfl := Option.some.inj (h.ends.symm.trans hx)
  obtain rfl := Option.some.inj hy
  exact hc

theorem Walk.back {a b c : δ} (h : n.Walk a b (way ++ [c])) :
    b = c ∧ (b = a ∨ ∃ d, n.Walk a d way ∧ b ∈ n.neighbours d) := by
  obtain rfl := Option.some.inj (h.ends.symm.trans getLast?_concat)
  refine ⟨rfl, ?_⟩
  obtain ⟨hway, _, hlast⟩ := isChain_append.mp h.linked
  cases way with
  | nil => exact .inl (Option.some.inj h.begins)
  | cons x way =>
    have hd := getLast?_eq_some_getLast (cons_ne_nil x way)
    exact .inr ⟨_, ⟨h.begins, hd, hway⟩, hlast _ hd b rfl⟩

/-! ### The frontier -/

/-- What is known of the queue of a search. -/
structure Frontier (n : Network δ π) (start goal : δ) (queue : List (δ × List δ))
    (seen : List δ) : Prop where
  ways : ∀ e ∈ queue, n.Walk start e.1 e.2
  shortest : ∀ e ∈ queue, ∀ way, n.Walk start e.1 way → e.2.length ≤ way.length
  ordered : queue.Pairwise fun e e' => e.2.length ≤ e'.2.length ∧ e'.2.length ≤ e.2.length + 1
  start : start ∈ seen
  goal : goal ∉ seen
  closed : ∀ d ∈ seen, (∃ way, (d, way) ∈ queue) ∨ n.neighbours d ⊆ seen

namespace Frontier

theorem exists_shorter (h : n.Frontier start goal queue seen) :
    ∀ {way : List δ} {b : δ}, n.Walk start b way → b ∉ seen →
      ∃ e ∈ queue, e.2.length < way.length := by
  intro way
  induction way using List.reverseRecOn with
  | nil => exact fun hwalk => absurd hwalk.length_pos (Nat.lt_irrefl 0)
  | append_singleton way c ih =>
    intro b hwalk hb
    obtain ⟨rfl, rfl | ⟨d, hd, hlink⟩⟩ := hwalk.back
    · exact absurd h.start hb
    · rw [length_append, length_singleton]
      by_cases hseen : d ∈ seen
      · rcases h.closed d hseen with ⟨way', hqueue⟩ | hall
        · exact ⟨_, hqueue, Nat.lt_succ_of_le (h.shortest _ hqueue way hd)⟩
        · exact absurd (hall hlink) hb
      · obtain ⟨e, he, hlt⟩ := ih hd hseen
        exact ⟨e, he, Nat.lt_succ_of_lt hlt⟩

theorem first_shorter (h : n.Frontier start goal ((here, way) :: queue) seen)
    {way' : List δ} {b : δ} (hwalk : n.Walk start b way') (hb : b ∉ seen) :
    (way ++ [b]).length ≤ way'.length := by
  obtain ⟨e, he, hlt⟩ := h.exists_shorter hwalk hb
  rw [length_append, length_singleton]
  rcases mem_cons.mp he with rfl | he
  · exact hlt
  · exact Nat.lt_of_le_of_lt ((pairwise_cons.mp h.ordered).1 e he).1 hlt

theorem mem_fresh {around : List δ} {d : δ} : d ∈ fresh seen around ↔ d ∈ around ∧ d ∉ seen := by
  simp [fresh]

/-- **Looking at the first device keeps the frontier**, if the goal is not among its neighbours. -/
theorem step (h : n.Frontier start goal ((here, way) :: queue) seen)
    (hgoal : goal ∉ n.neighbours here) :
    n.Frontier start goal (queue ++ (fresh seen (n.neighbours here)).map fun d => (d, way ++ [d]))
      (seen ++ fresh seen (n.neighbours here)) := by
  obtain ⟨hfirst, hordered⟩ := pairwise_cons.mp h.ordered
  have hnew : ∀ {P : δ × List δ → Prop}, (∀ e ∈ (here, way) :: queue, P e) →
      (∀ d ∈ n.neighbours here, d ∉ seen → P (d, way ++ [d])) →
      ∀ e ∈ queue ++ (fresh seen (n.neighbours here)).map fun d => (d, way ++ [d]), P e := by
    intro P hold hfresh e he
    rcases mem_append.mp he with he | he
    · exact hold e (mem_cons_of_mem _ he)
    · obtain ⟨d, hd, rfl⟩ := mem_map.mp he
      exact hfresh d (mem_fresh.mp hd).1 (mem_fresh.mp hd).2
  refine ⟨hnew h.ways fun d hd _ => (h.ways _ mem_cons_self).extend hd,
    hnew h.shortest fun d _ hseen way' hwalk => h.first_shorter hwalk hseen, ?_,
    mem_append_left _ h.start, fun hmem => ?_, fun d hd => ?_⟩
  · refine pairwise_append.mpr
      ⟨hordered, pairwise_map.mpr (pairwise_of_forall fun d d' => by simp), ?_⟩
    intro e he e' he'
    obtain ⟨d, _, rfl⟩ := mem_map.mp he'
    have := hfirst e he
    simp only [length_append, length_singleton] at this ⊢
    omega
  · exact (mem_append.mp hmem).elim h.goal fun hmem => hgoal (mem_fresh.mp hmem).1
  · rcases mem_append.mp hd with hd | hd
    · rcases h.closed d hd with ⟨way', hqueue⟩ | hall
      · rcases mem_cons.mp hqueue with hhere | hqueue
        · cases hhere
          refine .inr fun b hb => mem_append.mpr ?_
          exact (em (b ∈ seen)).imp_right fun hseen => mem_fresh.mpr ⟨hb, hseen⟩
        · exact .inl ⟨way', mem_append_left _ hqueue⟩
      · exact .inr fun b hb => mem_append_left _ (hall hb)
    · exact .inl ⟨way ++ [d], mem_append_right _ (mem_map_of_mem hd)⟩

end Frontier

/-! ### The search -/

/-- A search that goes on until the goal is found or the queue is empty has the result. -/
inductive Searches (goal : δ) : List (δ × List δ) → List δ → Network δ π →
    Network δ π × Option (List δ) → Prop
  | exhausted {seen : List δ} {n : Network δ π} : Searches goal [] seen n (n, none)
  | found {here last : δ} {way seen : List δ} {queue : List (δ × List δ)} {n : Network δ π}
      (h : ((n.touch here).neighbours here).find? (· == goal) = some last) :
      Searches goal ((here, way) :: queue) seen n (n.touch here, some (way ++ [last]))
  | further {here : δ} {way seen new : List δ} {queue : List (δ × List δ)} {n : Network δ π}
      {r : Network δ π × Option (List δ)}
      (h : ((n.touch here).neighbours here).find? (· == goal) = none)
      (hnew : new = fresh seen ((n.touch here).neighbours here))
      (rest : Searches goal (queue ++ new.map fun d => (d, way ++ [d])) (seen ++ new)
        (n.touch here) r) :
      Searches goal ((here, way) :: queue) seen n r

/-- A shortest walk, or none if there is no walk. -/
def Answers (n : Network δ π) (start goal : δ) : Option (List δ) → Prop
  | none => ∀ way, ¬ n.Walk start goal way
  | some way => n.Walk start goal way ∧ ∀ way', n.Walk start goal way' → way.length ≤ way'.length

theorem Frontier.answers_none (h : n.Frontier start goal [] seen) : n.Answers start goal none := by
  intro way hwalk
  obtain ⟨e, he, _⟩ := h.exists_shorter hwalk h.goal
  cases he

/-- **The search comes to an end with a shortest walk.**  Every device that is seen is looked at
once, so the steps suffice. -/
theorem search_answers (hn : n.Tidy) :
    ∀ (steps : Nat) {queue : List (δ × List δ)} {seen : List δ} {n' : Network δ π}, n.Same n' →
    n.Frontier start goal queue seen → seen.Nodup → seen ⊆ n.devices →
      steps + seen.length = n.devices.length + queue.length →
    Searches goal queue seen n' (search goal steps queue seen n') ∧
      n.Answers start goal (search goal steps queue seen n').2 := by
  intro steps
  induction steps with
  | zero =>
    intro queue seen n' _ hqueue hseen hknown hsteps
    have hle := (subperm_of_subset hseen hknown).length_le
    obtain rfl : queue = [] := eq_nil_of_length_eq_zero (by omega)
    exact ⟨.exhausted, hqueue.answers_none⟩
  | succ steps ih =>
    intro queue seen n' hsame hqueue hseen hknown hsteps
    cases queue with
    | nil => exact ⟨.exhausted, hqueue.answers_none⟩
    | cons e queue =>
      obtain ⟨here, way⟩ := e
      have haround := (hsame.touch here).neighbours here
      rw [search]
      dsimp only
      split
      · next last hlast =>
        obtain rfl : last = goal := by simpa using find?_some hlast
        refine ⟨.found hlast, (hqueue.ways _ mem_cons_self).extend ?_,
          fun way' hwalk => hqueue.first_shorter hwalk hqueue.goal⟩
        exact haround ▸ mem_of_find?_eq_some hlast
      · next hnone =>
        have hgoal : goal ∉ n.neighbours here := haround ▸ fun h => by
          simpa using find?_eq_none.mp hnone goal h
        have hrest := ih (hsame.touch here) (hqueue.step hgoal) ?_ ?_ ?_
        · rw [← haround] at hrest
          exact ⟨.further hnone rfl hrest.1, hrest.2⟩
        · refine nodup_append.mpr ⟨hseen, (hn.nodup here).filter _, ?_⟩
          rintro d hd d' hd' rfl
          exact (Frontier.mem_fresh.mp hd').2 hd
        · exact append_subset.mpr ⟨hknown, fun d hd => hn.devices here (Frontier.mem_fresh.mp hd).1⟩
        · simp only [length_append, length_map, length_cons] at hsteps ⊢
          omega

/--
**Looking for a way finds a shortest one.**  The search comes to an end.  It finds nothing exactly
if one of the two is no device or no walk leads from the first to the second.  What it finds is a
walk along links that meets no device twice, and no walk is shorter.
-/
theorem route_shortest (hn : n.Reached) (start goal : δ) :
    (start ∈ n.devices → goal ∈ n.devices → start ≠ goal →
      Searches goal [(start, [start])] [start] n (n.route start goal)) ∧
    ((n.route start goal).2 = none ↔ start ∉ n.devices ∨ goal ∉ n.devices ∨
      ∀ way, ¬ n.Walk start goal way) ∧
    ∀ way, (n.route start goal).2 = some way → n.Walk start goal way ∧ way.Nodup ∧
      ∀ way', n.Walk start goal way' → way.length ≤ way'.length := by
  have hapart : ∀ way, (n.route start goal).2 = some way → way.Nodup := fun way h =>
    (route_eq_some h).2.imp fun {a b} hab heq => by simpa using hab heq
  by_cases hboth : start ∈ n.devices ∧ goal ∈ n.devices
  · have hmain : (start ≠ goal → Searches goal [(start, [start])] [start] n (n.route start goal)) ∧
        n.Answers start goal (n.route start goal).2 := by
      rw [route, if_pos (by simpa using hboth)]
      by_cases heq : start = goal
      · rw [if_pos (by simpa using heq), heq]
        exact ⟨fun hne => absurd rfl hne, .single n goal, fun way' hwalk => hwalk.length_pos⟩
      · rw [if_neg (by simpa using heq)]
        have hfrontier : n.Frontier start goal [(start, [start])] [start] :=
          ⟨forall_mem_singleton.mpr (.single n start),
            forall_mem_singleton.mpr fun way hwalk => hwalk.length_pos, pairwise_singleton _ _,
            mem_singleton_self _, by simpa using Ne.symm heq, forall_mem_singleton.mpr (.inl ⟨_,
              mem_singleton_self _⟩)⟩
        have hsearch := search_answers hn.tidy n.devices.length (.refl n) hfrontier
          (nodup_singleton start)
          (forall_mem_singleton.mpr hboth.1) rfl
        exact ⟨fun _ => hsearch.1, hsearch.2⟩
    obtain ⟨hends, hanswer⟩ := hmain
    refine ⟨fun _ _ => hends, ?_⟩
    cases hroute : (n.route start goal).2 with
    | none =>
      rw [hroute] at hanswer
      exact ⟨⟨fun _ => .inr (.inr hanswer), fun _ => rfl⟩, by simp⟩
    | some way =>
      rw [hroute] at hanswer
      refine ⟨by simpa [hboth] using ⟨way, hanswer.1⟩, ?_⟩
      rintro _ ⟨⟩
      exact ⟨hanswer.1, hapart way hroute, hanswer.2⟩
  · have hnone : n.route start goal = (n, none) := by rw [route, if_neg (by simpa using hboth)]
    rw [hnone]
    exact ⟨fun hstart hgoal => absurd ⟨hstart, hgoal⟩ hboth, by simp; tauto, by simp⟩

/-- A ring with a link from a device to itself, a short cut, and a device that no link leads to. -/
def ring : Network String Unit :=
  let n := (((empty.addLink "a" "a" ()).addLink "a" "b" ()).port "z" "a").1
  let n := (((n.addLink "b" "c" ()).addLink "c" "d" ()).route "d" "a").1
  ((n.addLink "b" "d" ()).addLink "d" "a" ()).addLink "e" "a" ()

theorem route_shortest_ring : ring.Walk "a" "d" ["a", "b", "d"] ∧
    (∀ way, ring.Walk "a" "d" way → 3 ≤ way.length) ∧ ∀ way, ¬ ring.Walk "a" "e" way := by
  have hring : ring.Reached := .addLink
    (.addLink (.addLink (.route (.addLink (.addLink (.port (.addLink (.addLink .empty _ _ _)
    _ _ _) _ _) _ _ _) _ _ _) _ _) _ _ _) _ _ _) _ _ _
  obtain ⟨hwalk, _, hshortest⟩ := (route_shortest hring "a" "d").2.2 ["a", "b", "d"] (by decide)
  have hnone := (route_shortest hring "a" "e").2.1.mp (by decide)
  have hdevices : "a" ∈ ring.devices ∧ "e" ∈ ring.devices := by decide
  exact ⟨hwalk, hshortest, by simpa [hdevices] using hnone⟩

end Pathwise.Network
