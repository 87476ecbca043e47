import Pathwise.Proofs.Fragment.Origins

/-!
# Hosts in the lists of services

The list of a service is walked through by position while hosts are taken out of it.  A host that is
looked at loses its first place in the list, and the name behind it, whatever it is, is passed over
(`Gen.looked`).  So a list keeps the hosts that were passed over, and an application behind a host
gets no fragments (`Gen.services_passing_over`).
-/

namespace Pathwise

open Steps Placement List

/-- Generating the application of the service makes an entry with the name. -/
def Program.Makes (p : Program) (service name f : String) : Prop :=
  Gen.isHost name = false ∧ ∃ a, p.applications.find? name = some a ∧
    ∃ k : Nat, k < a.body.length ∧
      (f = service ++ "_" ++ name ∨ f = fragmentName (service ++ "_" ++ name) k)

namespace Gen

def looked : List String → List String
  | [] => []
  | [name] => [name]
  | name :: next :: names => name :: if isHost name then looked names else looked (next :: names)

theorem looked_cons (name : String) (names : List String) :
    looked (name :: names) = name :: looked (if isHost name then names.drop 1 else names) := by
  cases names with
  | nil => rw [looked, drop_nil, ite_self, looked]
  | cons next names => rw [looked, ← apply_ite looked]; rfl

/-- What is left of a list: the hosts that are looked at are taken out. -/
def leftOf (apps : List String) : List String :=
  apps.diff ((looked apps).filter isHost)

theorem looked_eq_self : ∀ {apps : List String}, (∀ name ∈ apps.dropLast, isHost name = false) →
    looked apps = apps
  | [], _ => rfl
  | [_], _ => rfl
  | name :: next :: names, h => by
    obtain ⟨hname, hnames⟩ := forall_mem_cons.mp h
    rw [looked, if_neg (by simp [hname]), looked_eq_self hnames]

theorem leftOf_eq_filter {apps : List String} (h : ∀ name ∈ apps.dropLast, isHost name = false) :
    leftOf apps = apps.filter (!isHost ·) := by
  rw [leftOf, looked_eq_self h]
  rcases eq_nil_or_concat apps with rfl | ⟨names, last, rfl⟩
  · rfl
  · rw [concat_eq_append] at h ⊢
    rw [dropLast_concat] at h
    have hnone : names.filter isHost = [] := filter_eq_nil_iff.mpr fun name hname => by
      simp [h name hname]
    have hall : names.filter (!isHost ·) = names := filter_eq_self.mpr fun name hname => by
      simp [h name hname]
    rw [filter_append, filter_append, hnone, hall, nil_append]
    by_cases hlast : isHost last = true
    · have hnot : last ∉ names := fun hmem => by simp [h last hmem] at hlast
      simp [hlast, erase_append_right _ hnot]
    · simp [hlast]

theorem drop_erase {name : String} : ∀ {names : List String} {i : Nat}, names[i]? = some name →
    (names.erase name).drop (i + 1) = (names.drop (i + 1)).drop 1
  | [], _, h => by cases h
  | first :: names, i, h => by
    rw [erase_cons]
    split
    · rw [drop_drop]
      rfl
    · next hfirst =>
      cases i with
      | zero => simp_all
      | succ i => exact drop_erase h

/-- **What is left of the list of a service, and the entries that are made for it.** -/
theorem serviceFrom_eq_ok {p : Program} {service : String} {apps apps' : List String} {i : Nat}
    {g g' : Generation} (h : serviceFrom p service apps i g = .ok apps' g') :
    apps' = apps.diff ((looked (apps.drop i)).filter isHost) ∧
      ∀ f, (g'.relation.find? f).isSome ↔
        (g.relation.find? f).isSome ∨ ∃ name ∈ looked (apps.drop i), p.Makes service name f := by
  cases hname : apps[i]? with
  | none =>
    rw [serviceFrom_none hname] at h
    obtain ⟨rfl, rfl⟩ := pure_eq_ok.mp h
    simp [drop_eq_nil_of_le (getElem?_eq_none_iff.mp hname), looked]
  | some name =>
    obtain ⟨hlt, hget⟩ := List.getElem?_eq_some_iff.mp hname
    rw [drop_eq_getElem_cons hlt, hget, looked_cons]
    by_cases hhost : isHost name = true
    · have hle := length_erase_le (a := name) (l := apps)
      rw [serviceFrom_some hname, if_pos hhost] at h
      obtain ⟨hleft, hentries⟩ := serviceFrom_eq_ok h
      rw [drop_erase hname] at hleft hentries
      rw [if_pos hhost, filter_cons_of_pos hhost, diff_cons]
      simpa [Program.Makes, hhost] using And.intro hleft hentries
    · rw [serviceFrom_visit hname hhost] at h
      rw [if_neg hhost, filter_cons_of_neg hhost]
      obtain ⟨_, g1, h1, h2⟩ := bind_eq_ok.mp h
      obtain ⟨a, ha, h1⟩ := visit_eq_ok h1
      obtain ⟨hleft, hentries⟩ := serviceFrom_eq_ok h2
      obtain ⟨sc, hstem, _, hcut⟩ := application_of_program ha h1
      have hmade : ∀ f, (∃ k, 0 ≤ k ∧ k < a.body.length ∧
          (f = sc.stem ∨ f = fragmentName sc.stem k)) ↔
          p.Makes service name f := by
        simp [Program.Makes, ha, hhost, hstem]
      refine ⟨hleft, fun f => ?_⟩
      rw [hentries, hcut.entries, hmade, exists_mem_cons_iff, or_assoc]
termination_by apps.length - i

/--
**Hosts are taken out of the lists of services, and the names behind them are passed over.**  A list
loses the hosts that are looked at, and entries are made for the applications that are looked at, no
others.  In a list that has no host before its last place, nothing is passed over: it loses its
hosts, and all other applications have their fragments.
-/
theorem services_passing_over {p : Program} {svcs : OrderedMap String Service} {g g' : Generation}
    (hkeys : p.services.keys.Nodup) (h : services p g = .ok svcs g') :
    svcs.entries = p.services.entries.map
      (fun e => (e.1, { e.2 with applications := leftOf e.2.applications })) ∧
    (∀ f, f ∈ g'.relation.keys ↔ f ∈ g.relation.keys ∨
      ∃ e ∈ p.services.entries, ∃ name ∈ looked e.2.applications, p.Makes e.1 name f) ∧
    ∀ e ∈ p.services.entries, (∀ name ∈ e.2.applications.dropLast, isHost name = false) →
      looked e.2.applications = e.2.applications ∧
        leftOf e.2.applications = e.2.applications.filter (!isHost ·) := by
  have hfold : ∀ (es : List (String × Service)) {done svcs :
      OrderedMap String Service} {g g' : Generation}, es.foldlM (fun done e => do
        let apps ← serviceFrom p e.1 e.2.applications 0
        pure (done.insert e.1 { e.2 with applications := apps }) :
          _ → _ → Gen (OrderedMap String Service)) done g =
        .ok svcs g' →
      svcs = (es.map fun e => (e.1, { e.2 with applications := leftOf e.2.applications })).foldl
        (fun m e => m.insert e.1 e.2) done ∧
      ∀ f, (g'.relation.find? f).isSome ↔
        (g.relation.find? f).isSome ∨
          ∃ e ∈ es, ∃ name ∈ looked e.2.applications, p.Makes e.1 name f := by
    intro es
    induction es with
    | nil =>
      intro done svcs g g' h
      obtain ⟨rfl, rfl⟩ := pure_eq_ok.mp h
      simp
    | cons e es ih =>
      intro done svcs g g' h
      rw [foldlM_cons] at h
      obtain ⟨next, g₁, h₁, h₂⟩ := bind_eq_ok.mp h
      obtain ⟨apps, g₂, h₃, h₄⟩ := bind_eq_ok.mp h₁
      obtain ⟨rfl, rfl⟩ := pure_eq_ok.mp h₄
      obtain ⟨rfl, hentries⟩ := serviceFrom_eq_ok h₃
      obtain ⟨hsvcs, hrest⟩ := ih h₂
      refine ⟨hsvcs, fun f => ?_⟩
      rw [hrest, hentries, exists_mem_cons_iff, or_assoc]
      rfl
  obtain ⟨hsvcs, hentries⟩ := hfold _ h
  have hmem : ∀ (m : OrderedMap String RelationEntry) f, f ∈ m.keys ↔ (m.find? f).isSome :=
    fun m f => by
    rw [← OrderedMap.contains_iff, OrderedMap.contains_eq_isSome]
  refine ⟨?_, fun f => by rw [hmem, hmem, hentries], fun e _ he =>
    ⟨looked_eq_self he, leftOf_eq_filter he⟩⟩
  rw [hsvcs, OrderedMap.entries_foldl_insert_of_nodup _ _ (by rw [map_map]; exact hkeys)]
  rfl

/-- Three hosts with two applications between and behind them. -/
def hostsProgram : Program :=
  let a (name : String) : Application :=
    ⟨name, ⟨[("v", "bit<8>")]⟩, [.assign [.ofVariable "v"] (.ofDigits "2")]⟩
  { services := ⟨[("s", ⟨"s", ["host1", "A", "host2", "host3", "B"]⟩),
    ("t", ⟨"t", ["A", "host1"]⟩)]⟩
    applications := ⟨[("A", a "A"), ("B", a "B")]⟩
    modules := {} }

/-- One of the hosts stays in the list, and the application behind the first one gets no
fragment. -/
theorem services_passing_over_hosts : ∃ svcs g', services hostsProgram .empty = .ok svcs g' ∧
    svcs.entries = [("s", ⟨"s", ["A", "host3", "B"]⟩), ("t", ⟨"t", ["A"]⟩)] ∧
    "s_B_0" ∈ g'.relation.keys ∧ "s_A_0" ∉ g'.relation.keys := by
  obtain ⟨svcs, g', h, htest⟩ :=
    exists_ok_of_succeededWith (P := fun g => "s_A_0" ∉ g.relation.keys)
    (r := services hostsProgram .empty) (by decide +kernel)
  obtain ⟨hsvcs, hentries, _⟩ := services_passing_over (by decide) h
  have hmade : "s_B_0" ∈ g'.relation.keys :=
    (hentries _).mpr (.inr ⟨_, mem_cons_self, "B", by decide +kernel,
    by decide +kernel, _, rfl, 0, by decide, .inr rfl⟩)
  exact ⟨svcs, g', h, hsvcs.trans (by decide +kernel), hmade, of_decide_eq_true htest⟩

end Gen

end Pathwise
