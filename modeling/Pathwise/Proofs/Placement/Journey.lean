import Pathwise.Proofs.Numbered
import Pathwise.Proofs.Steps
import Mathlib.Data.List.Chain

/-!
# The way of a service along its path

A service is placed node by node.  What happens at a node is a `Stop`: it belongs to one
application, takes the first and the last fragment and, between them, a run of the fragments next in
line.  A `Journey` is the list of the stops; from one to the next the service may go on to its next
application.

* `Journey.taken_eq`: the fragments in line that the stops took are exactly those up to the progress
  at the end, in order, with no gap and no repetition.
* `Journey.apps`: from stop to stop the service stays with its application or goes on to the next
  one.
-/

namespace Pathwise.Placement

open List

variable {relation : OrderedMap String RelationEntry} {s : Service}

/-! ### Stops -/

/-- What happens at one node of a path, with the progress that is made when it is left. -/
structure Stop extends Progress where
  node : String
  /-- the number of the fragment next in line when the node is reached -/
  first : Nat

namespace Stop

/-- The numbers of the fragments in line that the node takes. -/
def middle (v : Stop) : List Nat :=
  List.range' v.first (v.next - v.first)

/-- What the node takes if `numbers` are its fragments in line. -/
def share (v : Stop) (numbers : List Nat) : List String :=
  fragmentName v.stem 0 :: (numbers.map fun (n : Nat) => fragmentName v.stem n) ++
    [fragmentName v.stem v.last]

/-- What the node takes. -/
def fragments (v : Stop) : List String :=
  v.share v.middle

/-- The fragments in line that the node takes, with the position of their application. -/
def taken (v : Stop) : List (Nat × Nat) :=
  v.middle.map (v.app, ·)

/-- The stop is made with the progress `p`. -/
structure Follows (v : Stop) (p : Progress) : Prop where
  app : v.app = p.app
  stem : v.stem = p.stem
  last : v.last = p.last
  first : v.first = p.next
  first_le : v.first ≤ v.next
  next_le : v.next = v.first ∨ (v.next : Int) ≤ v.last

/-- The fragments in line lie between the first and the last. -/
structure Regular (v : Stop) : Prop where
  one_le : 1 ≤ v.first
  next_le : v.next = v.first ∨ (v.next : Int) ≤ v.last

end Stop

variable {stem : String} {n : Int} {p : Progress} {v : Stop}

def takenAt (node : String) (stops : List Stop) : List String :=
  (stops.filter (·.node = node)).flatMap Stop.fragments

@[simp] theorem takenAt_nil (node : String) : takenAt node [] = [] := rfl

theorem takenAt_cons (node : String) (v : Stop) (stops : List Stop) :
    takenAt node (v :: stops) = (if v.node = node then v.fragments else []) ++
      takenAt node stops := by
  by_cases hv : v.node = node <;> simp [takenAt, hv]

theorem takenAt_append (node : String) (stops stops' : List Stop) :
    takenAt node (stops ++ stops') = takenAt node stops ++ takenAt node stops' := by
  rw [takenAt, filter_append, flatMap_append]
  rfl

/-- The stops of a service from a progress on. -/
inductive Journey (relation : OrderedMap String RelationEntry) (s : Service) :
    Progress → List Stop → Prop
  | done (p : Progress) : Journey relation s p []
  | stop {p p' : Progress} {v : Stop} {stops : List Stop} (here : v.Follows p)
      (onward : advance relation s v.toProgress = .ok p') (rest : Journey relation s p' stops) :
      Journey relation s p (v :: stops)

/-! ### The fragments in line -/

/-- The number of the last fragment of an application, or 0 if it is not known. -/
def lastOf (relation : OrderedMap String RelationEntry) (stem : String) : Int :=
  match relation.find? stem with
  | some (.last n) => n
  | _ => 0

/-- What the names of the fragments of an application begin with. -/
def stemOf (s : Service) (app : String) : String :=
  s.name ++ "_" ++ app

/-- The fragments between the first and the last of an application at a position. -/
def inner (relation : OrderedMap String RelationEntry) (s : Service) (app : String × Nat) :
    List (Nat × Nat) :=
  (List.range' 1 ((lastOf relation (stemOf s app.1)).toNat - 1)).map (app.2, ·)

/-- All the fragments in line of a service, application by application. -/
def line (relation : OrderedMap String RelationEntry) (s : Service) : List (Nat × Nat) :=
  s.applications.zipIdx.flatMap (inner relation s)

def lineTo (relation : OrderedMap String RelationEntry) (s : Service) (p : Progress) :
    List (Nat × Nat) :=
  (s.applications.zipIdx.take p.app).flatMap (inner relation s) ++
    (List.range' 1 (p.next - 1)).map (p.app, ·)

/-- The progress belongs to an application of the service. -/
structure Progress.Valid (relation : OrderedMap String RelationEntry) (s : Service)
    (p : Progress) : Prop where
  belongs : ∃ name, s.applications[p.app]? = some name ∧ p.stem = stemOf s name ∧
    relation.find? p.stem = some (.last p.last)
  one_le : 1 ≤ p.next
  next_le : p.next = 1 ∨ (p.next : Int) ≤ p.last

theorem lastNumber_eq_ok (h : lastNumber relation stem = .ok n) :
    relation.find? stem = some (.last n) := by
  unfold lastNumber at h
  split at h <;> cases h
  assumption

theorem lastOf_eq (h : relation.find? stem = some (.last n)) : lastOf relation stem = n := by
  rw [lastOf, h]

theorem begin_eq_ok {name : String} {app : Nat} (happ : s.applications[app]? = some name)
    (h : Progress.begin relation s.name app name = .ok p) :
    p.Valid relation s ∧ p.app = app ∧ p.next = 1 := by
  obtain ⟨last, hlast, hp⟩ := Steps.except_bind_eq_ok.mp h
  cases hp
  exact ⟨⟨⟨name, happ, rfl, lastNumber_eq_ok hlast⟩, Nat.le_refl 1, .inl rfl⟩, rfl, rfl⟩

theorem Stop.Follows.valid (h : v.Follows p) (hp : p.Valid relation s) :
    v.toProgress.Valid relation s := by
  obtain ⟨name, happ, hstem, hlast⟩ := hp.belongs
  refine ⟨⟨name, ?_, ?_, ?_⟩, ?_, ?_⟩
  · rw [h.app]; exact happ
  · rw [h.stem]; exact hstem
  · rw [h.stem, h.last]; exact hlast
  · have := hp.one_le
    have := h.first
    have := h.first_le
    omega
  · rcases h.next_le with hnext | hnext
    · rw [hnext, h.first, h.last]
      exact hp.next_le
    · exact .inr hnext

theorem range'_glue {a b c : Nat} (hab : a ≤ b) (hbc : b ≤ c) :
    List.range' a (b - a) ++ List.range' b (c - b) = List.range' a (c - a) := by
  have hglue := @List.range'_append a (b - a) (c - b) 1
  rwa [show a + 1 * (b - a) = b by omega, show b - a + (c - b) = c - a by omega] at hglue

theorem Stop.Follows.lineTo_eq (h : v.Follows p) (hp : p.Valid relation s) :
    lineTo relation s v.toProgress = lineTo relation s p ++ v.taken := by
  have hrange : List.range' 1 (v.next - 1) = List.range' 1 (p.next - 1) ++ v.middle := by
    rw [Stop.middle, h.first]
    exact (range'_glue hp.one_le (h.first ▸ h.first_le)).symm
  rw [lineTo, lineTo, hrange, map_append, Stop.taken, h.app, append_assoc]

theorem advance_eq_ok {p' : Progress} (h : advance relation s p = .ok p')
    (hp : p.Valid relation s) :
    p'.Valid relation s ∧ lineTo relation s p' = lineTo relation s p ∧
      (p' = p ∨ p'.app = p.app + 1 ∧ (p.next : Int) = p.last) := by
  unfold advance at h
  by_cases hused : (p.next : Int) = p.last
  · rw [if_pos hused] at h
    cases hnext : s.applications[p.app + 1]? with
    | none =>
      rw [hnext] at h
      cases h
      exact ⟨hp, rfl, .inl rfl⟩
    | some name =>
      rw [hnext] at h
      obtain ⟨hvalid, happ, hone⟩ := begin_eq_ok hnext h
      refine ⟨hvalid, ?_, .inr ⟨happ, hused⟩⟩
      obtain ⟨name, hname, hstem, hlast⟩ := hp.belongs
      have htake : s.applications.zipIdx.take (p.app + 1) = s.applications.zipIdx.take p.app ++
          [(name, p.app)] := by
        rw [take_add_one, getElem?_zipIdx, hname]
        simp
      have hinner : inner relation s (name, p.app) = (List.range' 1 (p.next - 1)).map
          (p.app, ·) := by
        rw [inner, ← hstem, lastOf_eq hlast, ← hused, Int.toNat_natCast]
      rw [lineTo, lineTo, happ, hone, htake, flatMap_append, flatMap_singleton, hinner]
      simp
  · rw [if_neg hused] at h
    cases h
    exact ⟨hp, rfl, .inl rfl⟩

theorem line_extends (hp : p.Valid relation s) : lineTo relation s p <+: line relation s := by
  obtain ⟨name, hname, hstem, hlast⟩ := hp.belongs
  have hsplit : s.applications.zipIdx =
      s.applications.zipIdx.take p.app ++ (name, p.app) :: s.applications.zipIdx.drop
        (p.app + 1) := by
    have hdrop : s.applications.zipIdx.drop p.app = (name, p.app) :: s.applications.zipIdx.drop
        (p.app + 1) := by
      rw [drop_eq_getElem?_toList_append, getElem?_zipIdx, hname]
      simp
    rw [← hdrop, take_append_drop]
  have hpart : (List.range' 1 (p.next - 1)).map (p.app, ·) <+: inner relation s (name, p.app) := by
    rw [inner, ← hstem, lastOf_eq hlast]
    apply List.IsPrefix.map
    rcases hp.next_le with hnext | hnext
    · rw [hnext]
      exact nil_prefix
    · exact ⟨_, range'_glue hp.one_le (by omega)⟩
  rw [line, hsplit, flatMap_append, flatMap_cons, lineTo]
  exact (prefix_append_right_inj _).mpr (hpart.trans (prefix_append _ _))

/-! ### Whole journeys -/

namespace Journey

variable {p : Progress} {stops : List Stop}

theorem valid (h : Journey relation s p stops) (hp : p.Valid relation s) :
    ∀ v ∈ stops, v.toProgress.Valid relation s ∧ v.Regular := by
  induction h with
  | done => intro v hv; cases hv
  | stop here onward rest ih =>
    have hv := here.valid hp
    have hregular : Stop.Regular _ := ⟨here.first ▸ hp.one_le, here.next_le⟩
    exact forall_mem_cons.mpr ⟨⟨hv, hregular⟩, ih (advance_eq_ok onward hv).1⟩

/-- **The stops take the fragments in line one after another**: all together they took what comes
before the progress at the end. -/
theorem taken_eq (h : Journey relation s p stops) (hp : p.Valid relation s) :
    lineTo relation s p ++ stops.flatMap Stop.taken =
      lineTo relation s ((stops.getLast?.map Stop.toProgress).getD p) := by
  induction h with
  | done => simp
  | @stop p p' v stops here onward rest ih =>
    have hv := here.valid hp
    obtain ⟨hp', hline, _⟩ := advance_eq_ok onward hv
    calc lineTo relation s p ++ (v :: stops).flatMap Stop.taken
        = lineTo relation s p' ++ stops.flatMap Stop.taken := by
          rw [flatMap_cons, ← append_assoc, ← here.lineTo_eq hp, hline]
      _ = lineTo relation s ((stops.getLast?.map Stop.toProgress).getD p') := ih hp'
      _ = lineTo relation s (((v :: stops).getLast?.map Stop.toProgress).getD p) := by
          cases stops with
          | nil => simpa using hline
          | cons w stops => simp [getLast?_cons]

/-- **From one stop to the next a service stays with its application or goes on to the next
one.** -/
theorem apps (h : Journey relation s p stops) (hp : p.Valid relation s) :
    (∀ v, stops.head? = some v → v.app = p.app) ∧
      stops.IsChain fun v w => w.app = v.app ∨ w.app = v.app + 1 ∧ (v.next : Int) = v.last := by
  induction h with
  | done => simp
  | @stop p p' v stops here onward rest ih =>
    obtain ⟨hp', _, hstep⟩ := advance_eq_ok onward (here.valid hp)
    obtain ⟨hhead, hchain⟩ := ih hp'
    refine ⟨?_, isChain_cons.mpr ⟨?_, hchain⟩⟩
    · rintro _ ⟨⟩
      exact here.app
    · intro w hw
      rw [hhead w hw]
      rcases hstep with rfl | hstep
      · exact .inl rfl
      · exact .inr hstep

end Journey

end Pathwise.Placement
