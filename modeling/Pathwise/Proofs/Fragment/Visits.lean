import Pathwise.Proofs.Fragment.Isolation

/-!
# One application among others

A visited application keeps to the names of its stem, so among visits whose stems are apart from it,
it comes out as if it had been visited alone (`Gen.visits_alone`), and where it is not visited,
nothing is found under its names (`Gen.visits_spare`).
-/

namespace Pathwise

open Steps List

/-! ### Visits -/

namespace Gen

theorem not_isHost_of_mem_visitedFrom {apps : List String} {i : Nat} {name : String}
    (h : name ∈ visitedFrom apps i) :
    isHost name = false := by
  cases hfirst : apps[i]? with
  | none =>
    rw [visitedFrom_none hfirst] at h
    cases h
  | some first =>
    have hlt : i < apps.length := (List.getElem?_eq_some_iff.mp hfirst).1
    rw [visitedFrom_some hfirst] at h
    split at h
    · have hle := length_erase_le (a := first) (l := apps)
      exact not_isHost_of_mem_visitedFrom h
    · next hhost =>
      rcases mem_cons.mp h with rfl | h
      · exact Bool.eq_false_iff.mpr hhost
      · exact not_isHost_of_mem_visitedFrom h
termination_by apps.length - i

theorem visitedFrom_of_forall {apps : List String}
    (happs : ∀ name ∈ apps, isHost name = false) (i : Nat) :
    visitedFrom apps i = apps.drop i := by
  cases hfirst : apps[i]? with
  | none => rw [visitedFrom_none hfirst, drop_eq_nil_of_le (getElem?_eq_none_iff.mp hfirst)]
  | some first =>
    obtain ⟨hlt, rfl⟩ := List.getElem?_eq_some_iff.mp hfirst
    rw [visitedFrom_some hfirst, if_neg (Bool.eq_false_iff.mp (happs _ (getElem_mem hlt))),
      visitedFrom_of_forall happs (i + 1), ← drop_eq_getElem_cons]
termination_by apps.length - i

end Gen

def Program.only (p : Program) (service name : String) : Program :=
  { p with services := ⟨(p.services.entries.filter (·.1 = service)).map fun (n, s) =>
      (n, { s with applications := (Gen.visitedFrom s.applications 0).filter (· = name) })⟩ }

theorem Program.visits_only (p : Program) (service name : String) :
    (p.only service name).visits = p.visits.filter (· = (service, name)) := by
  have hservice : ∀ (n : String) (s : Service),
      (Gen.visitedFrom ((Gen.visitedFrom s.applications 0).filter (· = name)) 0).map
      (n, ·) = ((Gen.visitedFrom s.applications 0).filter (· = name)).map (n, ·) := by
    intro n s
    rw [Gen.visitedFrom_of_forall
      (fun a ha => Gen.not_isHost_of_mem_visitedFrom (mem_of_mem_filter ha)), drop_zero]
  simp only [visits, only]
  induction p.services.entries with
  | nil => rfl
  | cons e es ih =>
    obtain ⟨n, s⟩ := e
    rw [flatMap_cons, filter_append, ← ih]
    by_cases hn : n = service
    · subst hn
      rw [filter_cons_of_pos (by simp), map_cons, flatMap_cons, hservice, filter_map]
      congr 2
      refine filter_congr fun a _ => ?_
      simp
    · have hnone : ((Gen.visitedFrom s.applications 0).map (n, ·)).filter
          (· = (service, name)) = [] := by
        refine filter_eq_nil_iff.mpr fun v hv => ?_
        obtain ⟨a, _, rfl⟩ := mem_map.mp hv
        simp [hn]
      rw [filter_cons_of_neg (by simpa using hn), hnone, nil_append]

namespace Gen

/-! ### One among many -/

/-- What the names of an application of a service begin with. -/
def stemOf (v : String × String) : String :=
  v.1 ++ "_" ++ v.2

theorem underscore_mem_stemOf (v : String × String) : '_' ∈ (stemOf v).toList := by
  rw [stemOf, String.toList_append, String.toList_append]
  simp

theorem visit_confined (p : Program) (v : String × String) : Confined (Owns (stemOf v))
    (visit p v) fun _ => True := by
  unfold visit
  split
  · exact .refused fun _ _ _ => throw_ne_ok
  · exact application_confined (underscore_mem_stemOf v) p.modules _

theorem not_owns_loose (v : String × String) : ¬ Owns (stemOf v) looseFragment :=
  fun h => h.ne_loose (underscore_mem_stemOf v) rfl

/-- **Visits change nothing but under the names of their stems.** -/
theorem visits_spare {p : Program} (vs : List (String × String)) : ∀ {g g' : Generation},
    g.relation.find? looseFragment = none → vs.forM (visit p) g = .ok () g' →
      Spares (fun n => ∃ v ∈ vs, Owns (stemOf v) n) g g' := by
  induction vs with
  | nil =>
    intro g g' _ h
    obtain rfl := forM_nil_eq_ok.mp h
    exact .refl _ g
  | cons v vs ih =>
    intro g g' hg h
    obtain ⟨g1, h1, h2⟩ := forM_cons_eq_ok.mp h
    obtain ⟨_, hspares, _⟩ := visit_confined p v g () g1 hg h1
    have hg1 : g1.relation.find? looseFragment = none := by
      rw [hspares.relation _ (not_owns_loose v), hg]
    have hfirst : Spares (fun n => ∃ v' ∈ v :: vs, Owns (stemOf v') n) g g1 :=
      hspares.mono fun n hn => ⟨v, mem_cons_self, hn⟩
    exact hfirst.trans ((ih hg1 h2).mono fun n ⟨v', hv', hn⟩ => ⟨v', mem_cons_of_mem _ hv', hn⟩)

/--
**Among visits whose stems are apart, an application comes out as if it were alone**: without the
others, the visits succeed as well, and the states agree on its names.
-/
theorem visits_alone {p : Program} {v : String × String} (vs : List (String × String)) :
    ∀ {g g' h : Generation},
    (∀ v' ∈ vs, v' ≠ v → Apart (stemOf v) (stemOf v')) → g.relation.find? looseFragment = none →
    vs.forM (visit p) g = .ok () g' → Agree (Owns (stemOf v)) g h →
    ∃ h', (vs.filter (· = v)).forM (visit p) h = .ok () h' ∧ Agree (Owns (stemOf v)) g' h' := by
  induction vs with
  | nil =>
    intro g g' h _ _ hrun hagree
    obtain rfl := forM_nil_eq_ok.mp hrun
    exact ⟨h, rfl, hagree⟩
  | cons v' vs ih =>
    intro g g' h hapart hg hrun hagree
    obtain ⟨hfirst, hrest⟩ := forall_mem_cons.mp hapart
    obtain ⟨g1, h1, h2⟩ := forM_cons_eq_ok.mp hrun
    obtain ⟨_, hspares, hsame⟩ := visit_confined p v' g () g1 hg h1
    have hg1 : g1.relation.find? looseFragment = none := by
      rw [hspares.relation _ (not_owns_loose v'), hg]
    by_cases hv : v' = v
    · subst hv
      obtain ⟨h', hvisit, hagree⟩ := hsame h hagree
      obtain ⟨h'', hvisits, hagree⟩ := ih hrest hg1 h2 hagree
      refine ⟨h'', ?_, hagree⟩
      rw [filter_cons_of_pos (by simp)]
      exact forM_cons_eq_ok.mpr ⟨h', hvisit, hvisits⟩
    · rw [filter_cons_of_neg (by simpa using hv)]
      refine ih hrest hg1 h2 (hagree.of_spares hspares
        (fun n hn => (hfirst hv).not_owns hn) fun n hn => ?_)
      exact hn.ne_loose (underscore_mem_stemOf v)

end Gen

end Pathwise
