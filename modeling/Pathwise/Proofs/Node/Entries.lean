import Pathwise.Proofs.Files
import Pathwise.Proofs.Fragment.EntryTexts
import Pathwise.Proofs.Node.NextHop

/-!
# Entries of a node

The entries of a node are those of its fragments, with the port towards the next node in the place
of the operand for the next hop (`fragmentEntries_eq_ok`, `entries_eq_ok`).  `Leads` says which port
that is.
-/

namespace Pathwise

open Steps Run List

variable {j : Json} {ps : List (String × String)} {p : String × String} {β : Type} {e : Entry}

theorem Json.beq_str_iff {t : String} : (j == .str t) = true ↔ j = .str t := by
  show same j (.str t) = true ↔ _
  cases j <;> simp [same]

/-! ### Parameters by their names -/

theorem lookup_fieldsOf (hnames : (ps.map (·.1)).Nodup) (hp : p ∈ ps) :
    (fieldsOf ps).lookup p.1 = some (.arr [.str p.2]) := by
  induction ps with
  | nil => cases hp
  | cons q ps ih =>
    rw [map_cons, nodup_cons] at hnames
    rw [fieldsOf, map_cons, lookup_cons]
    rcases mem_cons.mp hp with rfl | hp
    · simp
    · have hne : (p.1 == q.1) = false := by
        rw [beq_eq_false_iff_ne]
        intro heq
        exact hnames.1 (heq ▸ mem_map_of_mem hp)
      rw [hne]
      exact ih hnames.2 hp

theorem OrderedMap.insertEntry_append {done : List (String × β)} {k : String}
    (hnew : k ∉ done.map (·.1)) (todo : List (String × β)) (v w : β) :
    insertEntry k v (done ++ (k, w) :: todo) = done ++ (k, v) :: todo := by
  induction done with
  | nil => simp [insertEntry]
  | cons d done ih =>
    rw [map_cons, mem_cons, not_or] at hnew
    obtain ⟨k', u⟩ := d
    rw [cons_append, insertEntry, if_neg (by simpa using Ne.symm hnew.1), ih hnew.2, cons_append]

def hopOr (port v : String) : String :=
  if v = NextHop.operand then port else v

/-- Named texts with a port in the place of the next hop. -/
def rerouted (port : String) (ps : List (String × String)) : List (String × String) :=
  ps.map fun p => (p.1, hopOr port p.2)

theorem map_fst_rerouted (port : String) (ps : List (String × String)) :
    (rerouted port ps).map (·.1) = ps.map (·.1) := by
  rw [rerouted, map_map]
  rfl

namespace Entry

def routed (port : String) (e : Entry) : Entry :=
  { e with params := e.params.map (hopOr port) }

theorem namedParams_routed (port : String) (e : Entry) :
    (e.routed port).namedParams = rerouted port e.namedParams := by
  rw [namedParams, routed, zipIdx_map, rerouted, namedParams, map_map, map_map]
  rfl

theorem exists_namedParam {v : String} (h : v ∈ e.params) : ∃ p ∈ e.namedParams, p.2 = v := by
  obtain ⟨i, hi, rfl⟩ := mem_iff_getElem.mp h
  refine ⟨(paramName i, e.params[i]), mem_map.mpr ⟨(e.params[i], i), ?_, rfl⟩, rfl⟩
  rw [mem_zipIdx_iff_getElem?, getElem?_eq_getElem hi]

end Entry

namespace Node

variable {P : Plan} {node f : String} {s s' : Session}

/-! ### One entry -/

/-- The port that is found for the next hop in the entries of a fragment. -/
def portOf (P : Plan) (node f : String) (s : Session) : String :=
  match nextPort P node f s with
  | .ok port _ => port
  | .error _ _ => ""

/-- One parameter of an entry is routed. -/
def routeParam (P : Plan) (node f : String) (params acc v : Json) : Run Json := do
  let values ← (← params.part v).items
  if values.any (· == .str NextHop.operand) then
    let port ← nextPort P node f
    pure (acc.set (← v.key).name (.strs [port]))
  else pure acc

theorem routeEntry_eq (P : Plan) (node f : String) (entry : Json) : routeEntry P node f entry = (do
    let params ← entry.get "action_params"
    let params' ← (← params.items).foldlM (routeParam P node f params) params
    pure (entry.set "action_params" params')) :=
  rfl

def entryIn (P : Plan) (node f line : String) : Run Json :=
  match Json.parse line with
  | .ok e => routeEntry P node f e
  | .error e => throw (.badJson e)

theorem fragmentEntries_eq (P : Plan) (node f : String) : fragmentEntries P node f = (do
    let text ← Run.read (P.workspace.componentFile (TextKey.fileName ⟨f, .entry⟩))
    ((Text.lines text).filter fun l => !isBlankEntry l).mapM (entryIn P node f)) := by
  rw [← fragmentText_eq]
  rfl

section

variable (hstay : ∀ port s₁, nextPort P node f s = .ok port s₁ → s = s₁)

include hstay

theorem routeParam_eq_ok (hnames : (ps.map (·.1)).Nodup) (hp : p ∈ ps)
    {acc : Json} (h : routeParam P node f (.obj (fieldsOf ps)) acc (.str p.1) s = .ok j s') :
    s = s' ∧ (p.2 = NextHop.operand → nextPort P node f s = .ok (portOf P node f s) s) ∧
      j = if p.2 = NextHop.operand then acc.set p.1 (.arr [.str (portOf P node f s)]) else acc := by
  obtain ⟨part, hpart, h⟩ := bind_mismatch_eq_ok.mp h
  obtain rfl : part = .arr [.str p.2] := by
    have hget : Json.part (.obj (fieldsOf ps)) (.str p.1) = .ok (.arr [.str p.2]) := by
      simp [Json.part, Json.get, lookup_fieldsOf hnames hp]
    exact (Except.ok.inj (hget.symm.trans hpart)).symm
  obtain ⟨values, hvalues, h⟩ := bind_mismatch_eq_ok.mp h
  obtain rfl : [.str p.2] = values := Except.ok.inj hvalues
  have hany : ([Json.str p.2].any (· == .str NextHop.operand)) =
      decide (p.2 = NextHop.operand) := by
    rw [Bool.eq_iff_iff, any_eq_true, decide_eq_true_eq]
    simp [Json.beq_str_iff]
  rw [hany] at h
  by_cases hop : p.2 = NextHop.operand
  · rw [if_pos (by simpa using hop)] at h
    obtain ⟨port, s₁, hport, h⟩ := bind_eq_ok.mp h
    obtain rfl := hstay port s₁ hport
    obtain ⟨key, hkey, h⟩ := bind_mismatch_eq_ok.mp h
    obtain rfl : Json.Key.str p.1 = key := Except.ok.inj hkey
    obtain ⟨rfl, rfl⟩ := pure_eq_ok.mp h
    have hfound : portOf P node f s = port := by rw [portOf, hport]
    refine ⟨rfl, fun _ => hfound ▸ hport, ?_⟩
    rw [if_pos hop, hfound]
    rfl
  · rw [if_neg (by simpa using hop)] at h
    obtain ⟨rfl, rfl⟩ := pure_eq_ok.mp h
    exact ⟨rfl, fun h => absurd h hop, by rw [if_neg hop]⟩

theorem routeParams_eq_ok (hnames : (ps.map (·.1)).Nodup) (todo : List (String × String)) :
    ∀ {done : List (String × String)} {j : Json}, ps = done ++ todo →
    (todo.map fun p => Json.str p.1).foldlM (routeParam P node f (.obj (fieldsOf ps)))
      (.obj (fieldsOf (rerouted (portOf P node f s) done ++ todo))) s = .ok j s' →
    s = s' ∧ (∀ p ∈ todo, p.2 = NextHop.operand → nextPort P node f s = .ok (portOf P node f s) s) ∧
      j = .obj (fieldsOf (rerouted (portOf P node f s) ps)) := by
  induction todo with
  | nil =>
    intro done j hps h
    obtain ⟨rfl, rfl⟩ := pure_eq_ok.mp h
    rw [append_nil] at hps
    exact ⟨rfl, forall_mem_nil _, by rw [hps, append_nil]⟩
  | cons p todo ih =>
    intro done j hps h
    rw [map_cons, foldlM_cons] at h
    obtain ⟨acc, s₁, hfirst, h⟩ := bind_eq_ok.mp h
    have hp : p ∈ ps := hps ▸ mem_append_right _ mem_cons_self
    obtain ⟨rfl, hport, hacc⟩ := routeParam_eq_ok hstay hnames hp hfirst
    have hnext : acc = .obj (fieldsOf (rerouted (portOf P node f s) (done ++ [p]) ++ todo)) := by
      have hsplit : fieldsOf (rerouted (portOf P node f s) (done ++ [p]) ++ todo) =
          fieldsOf (rerouted (portOf P node f s) done) ++ (p.1,
            .arr [.str (hopOr (portOf P node f s) p.2)]) :: fieldsOf todo := by
        simp [fieldsOf, rerouted]
      have hnew : p.1 ∉ (fieldsOf (rerouted (portOf P node f s) done)).map (·.1) := by
        have hkeys : (fieldsOf (rerouted (portOf P node f s) done)).map (·.1) = done.map (·.1) := by
          rw [fieldsOf, map_map, ← map_fst_rerouted (portOf P node f s) done]
          rfl
        rw [hps, map_append] at hnames
        rw [hkeys]
        exact fun hmem => disjoint_of_nodup_append hnames hmem (mem_cons_self)
      rw [hacc, hsplit, hopOr, fieldsOf, map_append, map_cons]
      split
      · exact congrArg Json.obj (OrderedMap.insertEntry_append hnew _ _ _)
      · rfl
    rw [hnext] at h
    obtain ⟨rfl, hports, rfl⟩ := ih (by rw [hps, append_assoc]; rfl) h
    exact ⟨rfl, forall_mem_cons.mpr ⟨hport, hports⟩, rfl⟩

/-- **An entry is routed**: the port stands in the place of the next hop, and nothing else is
changed. -/
theorem routeEntry_eq_ok (h : routeEntry P node f e.toJson s = .ok j s') :
    s = s' ∧ j = (e.routed (portOf P node f s)).toJson ∧
      (NextHop.operand ∈ e.params → nextPort P node f s = .ok (portOf P node f s) s) := by
  rw [routeEntry_eq, e.toJson_eq] at h
  obtain ⟨params, hparams, h⟩ := bind_mismatch_eq_ok.mp h
  obtain rfl : Json.obj (fieldsOf e.namedParams) = params := Except.ok.inj hparams
  obtain ⟨names, hitems, h⟩ := bind_mismatch_eq_ok.mp h
  obtain rfl : (e.namedParams.map fun p => Json.str p.1) = names := by
    have heq := Except.ok.inj hitems
    rwa [fieldsOf, map_map] at heq
  obtain ⟨j', s₁, hfold, h⟩ := bind_eq_ok.mp h
  obtain ⟨rfl, hports, rfl⟩ := routeParams_eq_ok hstay e.nodup_namedParams _
    (nil_append _).symm hfold
  obtain ⟨rfl, rfl⟩ := pure_eq_ok.mp h
  refine ⟨rfl, ?_, fun hop => ?_⟩
  · rw [Entry.toJson_eq, Entry.namedParams_routed]
    rfl
  · obtain ⟨p, hp, hpop⟩ := Entry.exists_namedParam hop
    exact hports p hp hpop

theorem fragmentEntries_eq_ok {es : List Entry} (hkeys : ∀ e ∈ es, e.keys.keys.Nodup)
    (htext : ∀ t, Run.read (P.workspace.componentFile (TextKey.fileName ⟨f, .entry⟩)) s = .ok t s →
      t = Piece.render (es.map .entry))
    {js : List Json} (h : fragmentEntries P node f s = .ok js s') :
    s = s' ∧ js = es.map (fun e => (e.routed (portOf P node f s)).toJson) ∧
      ∀ e ∈ es, NextHop.operand ∈ e.params → nextPort P node f s = .ok (portOf P node f s) s := by
  rw [fragmentEntries_eq] at h
  obtain ⟨t, s₁, hread, h⟩ := bind_eq_ok.mp h
  obtain rfl := read_stays hread
  obtain rfl := htext t hread
  have hlong : (es.map Entry.line).filter (fun l => !isBlankEntry l) = es.map Entry.line := by
    refine filter_eq_self.mpr fun l hl => ?_
    obtain ⟨e, _, rfl⟩ := mem_map.mp hl
    rw [e.long_line]
    rfl
  rw [(lines_entries hkeys).1, hlong, mapM_map] at h
  have hroute : ∀ e ∈ es, ∀ j s₁, (entryIn P node f ∘ Entry.line) e s = .ok j s₁ →
      s = s₁ ∧ j = (e.routed (portOf P node f s)).toJson ∧
        (NextHop.operand ∈ e.params → nextPort P node f s = .ok (portOf P node f s) s) := by
    intro e he j s₁ hj
    rw [Function.comp_apply, entryIn, Entry.parse_line (hkeys e he)] at hj
    exact routeEntry_eq_ok hstay hj
  obtain ⟨rfl, hjs, hall⟩ := mapM_stays
    (fun e he j s₁ hj => ⟨(hroute e he j s₁ hj).1, (hroute e he j s₁ hj).2.1⟩) h
  exact ⟨rfl, hjs, fun e he => (hroute e he _ _ (hall e he)).2.2⟩

end

variable {service : String} {found : Option String} {es : String → List Entry}

/-! ### Where the next hop leads -/

/-- What one entry of the service configuration says on a service: the last port of the last host,
if it has hosts. -/
inductive HostPort (service : String) (entry : Json) : Option String → Prop
  | noHosts (hosts : entry.member "service_hosts" = .ok false) : HostPort service entry none
  | other {name : Json} (named : entry.get "service_name" = .ok name) (ne : name ≠ .str service) :
      HostPort service entry none
  | noPorts {hosts : List Json} {host ports : Json}
      (named : entry.get "service_name" = .ok (.str service))
      (listed : entry.get "service_hosts" = .ok (.arr hosts)) (last : hosts.getLast? = some host)
      (ported : host.get "ports" = .ok ports) (empty : ports.items = .ok []) :
      HostPort service entry none
  | port {hosts names : List Json} {host ports name port : Json}
      (named : entry.get "service_name" = .ok (.str service))
      (listed : entry.get "service_hosts" = .ok (.arr hosts)) (last : hosts.getLast? = some host)
      (ported : host.get "ports" = .ok ports) (items : ports.items = .ok names)
      (lastName : names.getLast? = some name) (found : ports.part name = .ok port) :
      HostPort service entry (some port.text)

theorem foldlM_last {f : Json → Except Mismatch Json} (names : List Json) :
    ∀ {acc found : Option String},
    names.foldlM (fun _ name => do pure (some (← f name).text)) acc = Except.ok found →
      (names = [] ∧ found = acc) ∨ ∃ name port, names.getLast? = some name ∧ f name = .ok port ∧
        found = some port.text := by
  induction names with
  | nil =>
    intro acc found h
    cases h
    exact .inl ⟨rfl, rfl⟩
  | cons name names ih =>
    intro acc found h
    rw [foldlM_cons] at h
    obtain ⟨acc', hfirst, h⟩ := except_bind_eq_ok.mp h
    obtain ⟨port, hport, hacc⟩ := except_bind_eq_ok.mp hfirst
    cases hacc
    rcases ih h with ⟨rfl, rfl⟩ | ⟨last, port', hlast, hport', rfl⟩
    · exact .inr ⟨name, port, rfl, hport, rfl⟩
    · refine .inr ⟨last, port', ?_, hport', rfl⟩
      rw [getLast?_cons, hlast]
      rfl

theorem nth_last_eq_ok {hosts host ports : Json} (h : hosts.nth (-1) = .ok host)
    (hports : host.get "ports" = .ok ports) :
    ∃ xs, hosts = .arr xs ∧ xs.getLast? = some host := by
  cases hosts with
  | arr xs =>
    refine ⟨xs, rfl, ?_⟩
    have hplace : Json.position? xs.length (-1) = if xs.length = 0 then none
        else some (xs.length - 1) := by
      unfold Json.position?
      grind
    rw [Json.nth, hplace] at h
    rw [getLast?_eq_getElem?]
    split at h
    · next hfound =>
      cases h
      grind
    · cases h
  | str t =>
    rw [Json.nth] at h
    split at h
    · cases h
      cases hports
    · cases h
  | _ => cases h

theorem hostPortIn_eq_ok {entry : Json} (h : hostPortIn service entry = .ok found) :
    HostPort service entry found := by
  obtain ⟨has, hhas, h⟩ := except_bind_eq_ok.mp h
  cases has with
  | false =>
    cases h
    exact .noHosts hhas
  | true =>
    obtain ⟨name, hget, h⟩ := except_bind_eq_ok.mp h
    by_cases hservice : name = .str service
    · rw [if_pos (Json.beq_str_iff.mpr hservice)] at h
      subst hservice
      obtain ⟨hosts, hhosts, h⟩ := except_bind_eq_ok.mp h
      obtain ⟨host, hhost, h⟩ := except_bind_eq_ok.mp h
      obtain ⟨ports, hports, h⟩ := except_bind_eq_ok.mp h
      obtain ⟨names, hnames, hfold⟩ := except_bind_eq_ok.mp h
      obtain ⟨xs, rfl, hlast⟩ := nth_last_eq_ok hhost hports
      rcases foldlM_last names hfold with ⟨rfl, rfl⟩ | ⟨last, port, hname, hport, rfl⟩
      · exact .noPorts hget hhosts hlast hports hnames
      · exact .port hget hhosts hlast hports hnames hname hport
    · rw [if_neg (mt Json.beq_str_iff.mp hservice)] at h
      cases h
      exact .other hget hservice

theorem foldlM_or {α ε : Type} {f : α → Except ε (Option β)} (xs : List α) :
    ∀ {acc found : Option β},
    xs.foldlM (fun found x => do pure ((← f x).or found)) acc = Except.ok found →
      ∃ founds, List.Forall₂ (fun x y => f x = .ok y) xs founds ∧
        found = (founds.filterMap id).getLast?.or acc := by
  induction xs with
  | nil =>
    intro acc found h
    cases h
    exact ⟨[], .nil, rfl⟩
  | cons x xs ih =>
    intro acc found h
    rw [foldlM_cons] at h
    obtain ⟨acc', hfirst, h⟩ := except_bind_eq_ok.mp h
    obtain ⟨y, hy, hacc⟩ := except_bind_eq_ok.mp hfirst
    cases hacc
    obtain ⟨founds, hall, rfl⟩ := ih h
    refine ⟨y :: founds, .cons hy hall, ?_⟩
    cases y with
    | none => rfl
    | some b =>
      rw [filterMap_cons_some (f := id) rfl, getLast?_cons]
      cases (founds.filterMap id).getLast? <;> rfl

def servicesOf (config user : Json) : Except Mismatch (List Json) := do
  (← (← config.part user).get "services").items

/-- **The port of a host** is the one of the last entry, among those of all users, that has one. -/
theorem hostPort_eq_ok {config : Json} (h : hostPort service config = .ok found) :
    ∃ users entries founds, config.items = .ok users ∧
      users.mapM (servicesOf config) = .ok entries ∧
      List.Forall₂ (HostPort service) entries.flatten founds ∧
        found = (founds.filterMap id).getLast? := by
  have hfold : ∀ (users : List Json) {acc found : Option String}, users.foldlM (fun found user => do
        let entries ← servicesOf config user
        entries.foldlM (fun found s => do pure ((← hostPortIn service s).or found)) found) acc =
          Except.ok found →
      ∃ entries founds, users.mapM (servicesOf config) = Except.ok entries ∧
        List.Forall₂ (HostPort service) entries.flatten founds ∧
          found = (founds.filterMap id).getLast?.or acc := by
    intro users
    induction users with
    | nil =>
      intro acc found h
      cases h
      exact ⟨[], [], rfl, .nil, rfl⟩
    | cons user users ih =>
      intro acc found h
      rw [foldlM_cons] at h
      obtain ⟨acc', hfirst, h⟩ := except_bind_eq_ok.mp h
      obtain ⟨entries, hentries, hfirst⟩ := except_bind_eq_ok.mp hfirst
      obtain ⟨founds, hall, rfl⟩ := foldlM_or entries hfirst
      obtain ⟨entries', founds', hmap, hall', rfl⟩ := ih h
      refine ⟨entries :: entries', founds ++ founds', ?_, ?_, ?_⟩
      · rw [mapM_cons, hentries, hmap]
        rfl
      · exact rel_append (hall.imp fun _ _ => hostPortIn_eq_ok) hall'
      · rw [filterMap_append, getLast?_append, Option.or_assoc]
  obtain ⟨users, husers, h⟩ := except_bind_eq_ok.mp h
  have hsame : (users.foldlM (fun found user => do
      let entries ← servicesOf config user
      entries.foldlM (fun found s => do pure ((← hostPortIn service s).or found)) found) none :
        Except Mismatch _) = .ok found := by
    rw [← h]
    simp only [servicesOf, bind_assoc]
  obtain ⟨entries, founds, hmap, hall, rfl⟩ := hfold users hsame
  exact ⟨users, entries, founds, husers, hmap, hall, Option.or_none⟩

/--
The port that the next hop of a service stands for on a node: the one towards the next node on the
path of the service.  On the last node it is zero in a compilation without a service configuration,
and otherwise the port of the last host, if there is one.
-/
inductive Leads (P : Plan) (s : Session) (service node : String) : String → Prop
  | link {nodes : List String} {i : Nat} {next : String} {info : NodeInfo String} {port : Json}
      (path : P.paths.find? service = some nodes) (here : nodes.idxOf? node = some i)
      (after : nodes[i + 1]? = some next) (known : P.topology.find? node = some info)
      (linked : info.next.find? next = some port) : Leads P s service node port.text
  | zero (last : NextHop.EndsAt P service node) (debug : P.workspace.debug = true) :
      Leads P s service node "0"
  | host {config : Json} {users : List Json} {entries : List (List Json)}
      {founds : List (Option String)} (last : NextHop.EndsAt P service node)
      (debug : P.workspace.debug = false)
      (read : Run.readJson (P.workspace.projectFile P.workspace.config) s = .ok config s)
      (items : config.items = .ok users) (listed : users.mapM (servicesOf config) = .ok entries)
      (ports : List.Forall₂ (HostPort service) entries.flatten founds) :
      Leads P s service node ((founds.filterMap id).getLast?.getD "0")

/-- **The port that is found is the one that the next hop stands for.** -/
theorem nextPort_leads {port : String} (hservice : P.assignment.services.find? f = some service)
    (h : nextPort P node f s = .ok port s') : Leads P s service node port := by
  obtain ⟨rfl, ⟨hends, _⟩ | ⟨hends, _, hport⟩⟩ := nextPort_eq_ok hservice h
  · rw [nextPort, hservice, Option.getD_some] at h
    obtain ⟨nodes, hnodes, h⟩ := bind_fault_eq_ok.mp h
    obtain ⟨next, hnext, h⟩ := bind_fault_eq_ok.mp h
    obtain ⟨i, hi, rfl⟩ := NextHop.after_eq_ok hnext
    have hpath := NextHop.pathOf_eq_ok hnodes
    cases hafter : nodes[i + 1]? with
    | none => exact absurd ⟨nodes, i, hpath, hi, hafter⟩ hends
    | some next =>
      rw [hafter] at h
      dsimp only at h
      cases hfound : (P.topology.find? node).bind (·.next.find? next) with
      | none =>
        rw [hfound] at h
        exact absurd h throw_ne_ok
      | some found =>
        rw [hfound] at h
        obtain ⟨rfl, _⟩ := pure_eq_ok.mp h
        obtain ⟨info, hinfo, hlink⟩ := Option.bind_eq_some_iff.mp hfound
        exact .link hpath hi hafter hinfo hlink
  · split at hport
    · next hdebug => exact hport ▸ .zero hends hdebug
    · next hdebug =>
      obtain ⟨config, found, hread, hfound, rfl⟩ := hport
      obtain ⟨users, entries, founds, hitems, hlisted, hports, rfl⟩ := hostPort_eq_ok hfound
      exact .host hends (by simpa using hdebug) hread hitems hlisted hports

/-! ### The file of a node -/

/-- The entries of a node: those of its fragments, in the order in which the fragments are placed,
with their ports. -/
def entriesOn (P : Plan) (node : String) (es : String → List Entry) (port : String → String) :
    List Entry :=
  (P.assignment.on node).flatMap fun f => (es f).map (Entry.routed (port f))

/-- The file of a node's entries. -/
def entryDocument (node : String) (es : List Entry) : Json :=
  .obj [("target", .str node), ("entries", .arr (es.map Entry.toJson))]

theorem nodup_of_mem_entriesOn (hkeys : ∀ f, ∀ e ∈ es f, e.keys.keys.Nodup) (P : Plan)
    (node : String) (port : String → String) :
    ∀ e ∈ entriesOn P node es port, e.keys.keys.Nodup := by
  intro e he
  obtain ⟨f, _, he⟩ := mem_flatMap.mp he
  obtain ⟨e', he', rfl⟩ := mem_map.mp he
  exact hkeys f e' he'

/-- **The file of a node's entries is read back.** -/
theorem parse_entryDocument (node : String) {es : List Entry}
    (hkeys : ∀ e ∈ es, e.keys.keys.Nodup) :
    Json.parse (Text.unifyLineEnds ((entryDocument node es).pretty true 2 0)) =
      .ok (entryDocument node es) := by
  have hdocument : ∀ room, Json.Textual (room + 5) (entryDocument node es) := by
    intro room
    refine .obj (forall_mem_cons.mpr ⟨.str _ _, forall_mem_singleton.mpr (.arr fun j hj => ?_)⟩)
      (by simp)
    obtain ⟨e, he, rfl⟩ := mem_map.mp hj
    exact e.toJson_textual (hkeys e he) room
  have hunify : Text.unifyLineEnds ((entryDocument node es).pretty true 2 0) =
      (entryDocument node es).pretty true 2 0 := by
    rw [Text.unifyLineEnds, if_neg]
    intro hmem
    have hvisible := (Json.pretty_layout true 2).visible (hdocument 0) 0 '\r' (by simpa using hmem)
    exact absurd hvisible (by decide)
  have hparse := (Json.pretty_layout true 2).parse_text (hdocument 970) [] (forall_mem_nil _)
  rwa [append_nil, String.ofList_toList, ← hunify] at hparse

theorem entries_eq_ok (hkeys : ∀ f ∈ P.assignment.on node, ∀ e ∈ es f, e.keys.keys.Nodup)
    (hfiled : ∀ f ∈ P.assignment.on node, ∃ service, P.assignment.services.find? f = some service)
    (htext : ∀ f ∈ P.assignment.on node, ∀ t, Run.read
      (P.workspace.componentFile (TextKey.fileName ⟨f, .entry⟩)) s = .ok t s →
      t = Piece.render ((es f).map .entry)) {u : Unit} (h : entries P node s = .ok u s') :
    ∃ q s₁ port, s.disk.locate s.home (P.workspace.codeFile node "entry") = .ok q ∧ SameBut q s s₁ ∧
      SameBut q s s' ∧
      s'.disk.file? q = some ((s.disk.file? q).getD "" ++
        (entryDocument node (entriesOn P node es port)).pretty true 2 0) ∧
      ∀ f ∈ P.assignment.on node, ∀ e ∈ es f, NextHop.operand ∈ e.params → ∀ service,
        P.assignment.services.find? f = some service → Leads P s₁ service node (port f) := by
  obtain ⟨_, s₁, hbegin, h⟩ := bind_eq_ok.mp h
  obtain ⟨js, s2, hentries, hend⟩ := bind_eq_ok.mp h
  obtain ⟨q, hq, hsame, hfile⟩ := append_eq_ok hbegin
  rw [String.append_empty] at hfile
  have hstay : ∀ f ∈ P.assignment.on node, ∀ port s2, nextPort P node f s₁ = .ok port s2 →
      s₁ = s2 := by
    intro f hf port s2 hport
    obtain ⟨service, hservice⟩ := hfiled f hf
    exact (nextPort_eq_ok hservice hport).1
  -- the texts of the fragments lie elsewhere
  have htext1 : ∀ f ∈ P.assignment.on node, ∀ t,
      Run.read (P.workspace.componentFile (TextKey.fileName ⟨f, .entry⟩)) s₁ = .ok t s₁ →
        t = Piece.render ((es f).map .entry) := by
    intro f hf t ht
    refine htext f hf t (((KeepsFiles.of_sameBut hsame).read_eq_ok fun p hp => ?_).mp ht)
    rintro rfl
    exact (endsWith_of_text hp).not_of_differ
      (show Differ (TextKind.ending .entry) "_entry" by decide)
      (endsWith_of_code (by decide) (by decide) hq)
  obtain ⟨jss, hmap, rfl⟩ := flatMapM_eq_ok.mp hentries
  obtain ⟨rfl, rfl, hall⟩ := mapM_stays (fun f hf js s2 hjs => by
    obtain ⟨hs, hjs, _⟩ := fragmentEntries_eq_ok (hstay f hf) (hkeys f hf) (htext1 f hf) hjs
    exact ⟨hs, hjs⟩) hmap
  obtain ⟨q', hq', hsame', hfile'⟩ := append_eq_ok hend
  obtain rfl : q = q' := Except.ok.inj (hq.symm.trans (hsame.locate.mp hq'))
  refine ⟨q, s₁, fun f => portOf P node f s₁, hq, hsame, hsame.trans hsame', ?_,
    fun f hf e he hop service hservice => ?_⟩
  · have hjson :
        ((P.assignment.on node).map fun f => (es f).map fun e =>
        (e.routed (portOf P node f s₁)).toJson).flatten =
        (entriesOn P node es fun f => portOf P node f s₁).map Entry.toJson := by
      rw [entriesOn, map_flatMap, ← flatMap_def]
      simp only [map_map, Function.comp_def]
    rw [hfile', hfile, hjson]
    rfl
  · obtain ⟨_, _, hport⟩ := fragmentEntries_eq_ok (hstay f hf) (hkeys f hf)
      (htext1 f hf) (hall f hf)
    exact nextPort_leads hservice (hport e he hop)

end Node

end Pathwise
