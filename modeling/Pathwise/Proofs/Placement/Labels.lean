import Pathwise.Proofs.Placement.Budget

/-!
# The services of placed fragments

Every fragment that is placed on a node is filed under a service, and its name begins with the name
of that service (`labelled_of_placeAll`).  Where the names of two services give the same fragment,
it is filed under the one that was placed last.
-/

namespace Pathwise.Placement

open List

variable {relation : OrderedMap String RelationEntry}

variable {a : Assignment} {service : String} {share : Share} {s : Service} {paths : Paths}

/-- The fragment is named for an application of the service. -/
def BelongsTo (service fragment : String) : Prop :=
  ∃ (app : String) (number : Int), fragment = fragmentName (service ++ "_" ++ app) number

/-- Every placed fragment is filed under a service that it is named for. -/
def Labelled (a : Assignment) : Prop :=
  ∀ node, ∀ f ∈ a.on node, ∃ service, a.services.find? f = some service ∧ BelongsTo service f

theorem labelled_start (t : Topology) : Labelled (.start t) := by
  intro node f hf
  rw [on_start] at hf
  cases hf

theorem mem_on_give {node node' f : String}
    (h : f ∈ (a.give service node' share).on node) : f ∈ a.on node ∨ f ∈ share.fragments := by
  rw [Assignment.on, Assignment.give, OrderedMap.find?_modify] at h
  split at h
  · cases hnode : a.fragments.find? node with
    | none =>
      rw [hnode] at h
      cases h
    | some fragments =>
      rw [hnode] at h
      rw [Assignment.on, hnode]
      exact mem_append.mp h
  · exact .inl h

/-- **One share**: what is given is filed under the service, and all else stays where it was
filed. -/
theorem Labelled.give (ha : Labelled a) (node : String)
    (hshare : ∀ f ∈ share.fragments, BelongsTo service f) :
    Labelled (a.give service node share) := by
  have hservices : ∀ f, (a.give service node share).services.find? f =
      if f ∈ share.fragments then some service else a.services.find? f := by
    intro f
    rw [Assignment.give]
    generalize share.fragments = fs
    generalize a.services = m
    induction fs generalizing m with
    | nil => rfl
    | cons f' fs ih =>
      rw [foldl_cons, ih, OrderedMap.find?_insert]
      grind
  intro node' f hf
  rw [hservices]
  by_cases hmem : f ∈ share.fragments
  · exact ⟨service, if_pos hmem, hshare f hmem⟩
  · rw [if_neg hmem]
    exact ha node' f ((mem_on_give hf).resolve_right hmem)

theorem labelled_of_placeAlong :
    ∀ (nodes : List String) {p : Progress} {a a' : Assignment}, Labelled a →
    (∃ app, p.stem = s.name ++ "_" ++ app) → placeAlong relation s nodes p a = .ok a' →
      Labelled a' := by
  intro nodes
  induction nodes with
  | nil =>
    intro p a a' ha _ h
    cases h
    exact ha
  | cons node nodes ih =>
    intro p a a' ha hstem h
    obtain ⟨app, hstem⟩ := hstem
    rw [placeAlong] at h
    cases hroom : a.room.find? node with
    | none =>
      rw [hroom] at h
      cases h
    | some tables =>
      rw [hroom] at h
      obtain ⟨⟨share, p1⟩, hplace, h⟩ := Steps.except_bind_eq_ok.mp h
      obtain ⟨p2, hadvance, hrest⟩ := Steps.except_bind_eq_ok.mp h
      obtain ⟨v, _, _, hfollows, rfl, hfragments, _⟩ := placeNode_eq_ok node hplace
      have hv : v.stem = s.name ++ "_" ++ app := hfollows.stem.trans hstem
      refine ih (ha.give node fun f hf => ?_) ?_ hrest
      · rw [← hfragments, Stop.fragments, Stop.share, cons_append, mem_cons, mem_append, mem_map,
          mem_singleton, hv] at hf
        rcases hf with rfl | ⟨n, _, rfl⟩ | rfl
        · exact ⟨app, 0, rfl⟩
        · exact ⟨app, n, rfl⟩
        · exact ⟨app, v.last, rfl⟩
      · rw [advance] at hadvance
        split at hadvance
        · split at hadvance
          · next name _ =>
            obtain ⟨last, _, hbegin⟩ := Steps.except_bind_eq_ok.mp hadvance
            cases hbegin
            exact ⟨name, rfl⟩
          · cases hadvance
            exact ⟨app, hv⟩
        · cases hadvance
          exact ⟨app, hv⟩

theorem labelled_of_placeService {a' : Assignment} (ha : Labelled a)
    (h : placeService relation paths a s = .ok a') : Labelled a' := by
  rw [placeService] at h
  split at h
  · cases h
  · split at h
    · cases h
    · next name _ _ =>
      obtain ⟨p, hp, h⟩ := Steps.except_bind_eq_ok.mp h
      obtain ⟨last, _, hbegin⟩ := Steps.except_bind_eq_ok.mp hp
      cases hbegin
      exact labelled_of_placeAlong _ ha ⟨name, rfl⟩ h

/-- **Every placed fragment is filed under a service that it is named for.** -/
theorem labelled_of_placeAll {t : Topology} {services : OrderedMap String Service}
    (h : placeAll relation paths t services = .ok a) : Labelled a :=
  Steps.except_foldlM_keeps Labelled (fun _ _ _ ha h => labelled_of_placeService ha h) _
    (labelled_start t) h

end Pathwise.Placement
