import Mathlib.Algebra.Group.Nat.Defs
import Pathwise.Proofs.Json
import Pathwise.Proofs.Route.Network

/-!
# Generated paths

The settings along a path name the next node of every node but the last one, with the port of the
last link that leads there (`IsPort`).  What is generated for a service follows such a path, on
which no node occurs twice (`IsPath`).
-/

namespace Pathwise

open Steps List OrderedMap Option

/-! ### Port numbers -/

namespace Text

theorem lt_of_digitValue? {c : Char} {d : Nat} (h : digitValue? c = some d) : d < 10 := by
  obtain ⟨z, hz, rfl⟩ := map_eq_some_iff.mp h
  have hrange := find?_some hz
  simp only [Bool.and_eq_true, decide_eq_true_eq] at hrange
  omega

theorem valueOf_lt {digits : List Nat} (h : ∀ d ∈ digits, d < 10) :
    valueOf digits < 10 ^ digits.length := by
  have hfold : ∀ (digits : List Nat) (n : Nat), (∀ d ∈ digits, d < 10) →
      digits.foldl (fun n d => n * 10 + d) n < (n + 1) * 10 ^ digits.length := by
    intro digits
    induction digits with
    | nil => intro n _; simp
    | cons d digits ih =>
      intro n h
      obtain ⟨hd, h⟩ := forall_mem_cons.mp h
      calc (d :: digits).foldl (fun n d => n * 10 + d) n
          < (n * 10 + d + 1) * 10 ^ digits.length := ih (n * 10 + d) h
        _ ≤ ((n + 1) * 10) * 10 ^ digits.length := Nat.mul_le_mul_right _ (by omega)
        _ = (n + 1) * 10 ^ (digits.length + 1) := by rw [Nat.mul_assoc, Nat.pow_succ']
  simpa [valueOf] using hfold digits 0 h

/-- **A number that is read from a text can be written.** -/
theorem readable_of_integer {s : String} {n : Int} (h : integer s = .ok n) : Json.Readable n := by
  have hunsigned : ∀ {bad : IntegerError} {cs : List Char} {m : Nat}, unsigned bad cs = .ok m →
      (Nat.toDigits 10 m).length ≤ maxDigits := by
    intro bad cs m h
    rw [Nat.length_toDigits_le_iff (by decide) (by decide)]
    unfold unsigned at h
    dsimp only at h
    split at h
    · cases h
    split at h
    · cases h
    split at h
    · next _ hlength _ =>
      obtain rfl := Except.ok.inj h
      refine Nat.lt_of_lt_of_le (valueOf_lt fun d hd => ?_)
        (Nat.pow_le_pow_right (by decide) (Nat.not_lt.mp hlength))
      obtain ⟨c, _, hc⟩ := mem_filterMap.mp hd
      exact lt_of_digitValue? hc
    · cases h
  have hsigned : ∀ {f : Nat → Int} {x : Except IntegerError Nat} {n : Int}, f <$> x = .ok n →
      ∃ m, x = .ok m ∧ f m = n := by
    intro f x n h
    cases x with
    | ok m => exact ⟨m, rfl, Except.ok.inj h⟩
    | error e => cases h
  unfold integer at h
  dsimp only at h
  split at h
  · obtain ⟨m, hm, rfl⟩ := hsigned h
    simpa [Json.Readable] using hunsigned hm
  · obtain ⟨m, hm, rfl⟩ := hsigned h
    exact hunsigned hm
  · obtain ⟨m, hm, rfl⟩ := hsigned h
    exact hunsigned hm

theorem blank_of_trim {cs : List Char} (h : trim cs = []) : ∀ c ∈ cs, isBlank c = true := by
  rw [trim, reverse_eq_nil_iff, dropWhile_eq_nil_iff] at h
  refine dropWhile_eq_nil_iff.mp (eq_nil_iff_forall_not_mem.mpr fun c hc => ?_)
  -- the first character that is left would have to be blank
  have hfirst := head_dropWhile_not isBlank (ne_nil_of_mem hc)
  rw [h _ (mem_reverse.mpr (head_mem _))] at hfirst
  cases hfirst

end Text

namespace Device

theorem blank_of_portNumber {text : String} (h : portNumber text = "") :
    ∀ c ∈ text.toList, Text.isBlank c = true := by
  have hdigits : ∀ {cs digits : List Char}, firstParenthesised? cs = some digits → digits ≠ [] := by
    intro cs
    induction cs with
    | nil => intro digits h; cases h
    | cons c cs ih =>
      intro digits h
      rw [firstParenthesised?, or_eq_some_iff] at h
      rcases h with h | ⟨_, h⟩
      · unfold parenthesised? at h
        split at h
        · dsimp only at h
          split at h
          · cases h
          · next hsome =>
            split at h
            · obtain rfl := Option.some.inj h
              simpa using hsome
            · cases h
        · cases h
      · exact ih h
  unfold portNumber at h
  split at h
  · next digits hfound => exact absurd (String.ofList_eq_empty_iff.mp h) (hdigits hfound)
  · exact Text.blank_of_trim (String.ofList_eq_empty_iff.mp h)

theorem readable_tables {device descriptions : Json} {t : Nat}
    (h : tables device descriptions = .ok t) :
    Json.Readable t := by
  obtain ⟨known, _, h⟩ := except_bind_eq_ok.mp h
  obtain ⟨key, _, h⟩ := except_bind_eq_ok.mp h
  obtain ⟨model, _, h⟩ := except_bind_eq_ok.mp h
  obtain ⟨isA, _, h⟩ := except_bind_eq_ok.mp h
  split at h
  · obtain rfl := Except.ok.inj h
    show (Nat.toDigits 10 8).length ≤ _
    decide
  · obtain ⟨isB, _, h⟩ := except_bind_eq_ok.mp h
    split at h
    · obtain rfl := Except.ok.inj h
      show (Nat.toDigits 10 12).length ≤ _
      decide
    · obtain rfl := Except.ok.inj h
      show (Nat.toDigits 10 6).length ≤ _
      decide

end Device

namespace Route

/-- The port that leads from a device to another one: that of the last link, or one if nothing is
written for it. -/
def IsPort (links : List Json) (u v : String) (port : Int) : Prop :=
  ∃ text, LastLink links u v text ∧
    ((∀ c ∈ text.toList, Text.isBlank c = true) ∧ port = 1 ∨
      Text.integer (Device.portNumber text) = .ok port)

theorem IsPort.readable {links : List Json} {u v : String} {port : Int}
    (h : IsPort links u v port) :
    Json.Readable port := by
  obtain ⟨text, _, ⟨_, rfl⟩ | h⟩ := h
  · show (Nat.toDigits 10 1).length ≤ _
    decide
  · exact Text.readable_of_integer h

/-- What is said about the next node. -/
def NextIs (links : List Json) (u : String) : Option String → Json → Prop
  | none, next => next = .obj []
  | some v, next => ∃ port, IsPort links u v port ∧ next = .obj [(v, .int port)]

/-- What is written about a node on a path, behind which another one may come. -/
structure IsStop (links : List Json) (u : String) (after : Option String) (info : Json) : Prop where
  next : ∃ next, info.get "next" = .ok next ∧ NextIs links u after next
  tables : ∃ tables, info.get "tables" = .ok tables
  ip : ∃ ip, info.get "ip" = .ok ip
  resource : info.member "resource" = .ok false
  textual : ∀ room, Json.Textual (room + 2) info

/-- Every node leads to the next one. -/
def Follows (links : List Json) : List (String × Json) → Prop
  | [] => True
  | (u, info) :: es => IsStop links u (es.head?.map (·.1)) info ∧ Follows links es

/-- The settings of a path on which no node occurs twice. -/
structure IsPath (links : List Json) (c : PathConfig) : Prop where
  follows : Follows links c.entries
  nodup : c.keys.Nodup

/-! ### Generation -/

section

variable {links : List Json} {n : Network Json.Key String} {s : Surroundings} {c c' : String}

variable {u : String} {after : Option String} {next hosts : Json} {m : PathConfig}

theorem NextIs.textual (h : NextIs links u after next) (room : Nat) :
    Json.Textual (room + 1) next := by
  cases after with
  | none =>
    obtain rfl := h
    exact .obj (forall_mem_nil _) nodup_nil
  | some v =>
    obtain ⟨port, hport, rfl⟩ := h
    exact .obj (forall_mem_singleton.mpr (.int room hport.readable)) (nodup_singleton v)

theorem textual_stop {room : Nat} {fields : List (String × Json)} {tables : Nat}
    (htables : Json.Readable tables) (hnext : Json.Textual (room + 1) next)
    (hnames : (fields.map (·.1)).Nodup)
    (hfields : ∀ f ∈ fields, f.2 = .nat tables ∨ (∃ ip, f.2 = .str ip) ∨ f.2 = next) :
    Json.Textual (room + 2) (.obj fields) := by
  refine .obj (fun f hf => ?_) hnames
  rcases hfields f hf with hf | ⟨ip, hf⟩ | hf
  · exact hf ▸ .int _ htables
  · exact hf ▸ .str _ ip
  · exact hf ▸ hnext

theorem nextLink_eq_ok (hlinks : links.foldlM addLink Network.empty = .ok n)
    (hafter : ∀ v ∈ after, .str v ∈ n.neighbours (.str u))
    (h : nextLink n u after c = .ok next c') : NextIs links u after next := by
  cases after with
  | none =>
    obtain ⟨rfl, _⟩ := pure_eq_ok.mp h
    rfl
  | some v =>
    obtain ⟨p, hp⟩ := (mem_keys_iff_str _ v).mp (hafter v rfl)
    obtain ⟨text, hlast, rfl⟩ | ⟨_, hnone⟩ := lastLink_of_foldlM hlinks hp
    · have hport : (n.port (.str u) (.str v)).2 = some (Device.portNumber text) := by
        rw [Network.port, Network.ports_touch, hp]
      simp only [nextLink, hport, getD_some] at h
      split at h
      · next hempty =>
        obtain ⟨_, _, rfl⟩ := bind_pure_eq_ok.mp h
        exact ⟨1, ⟨text, hlast, .inl ⟨Device.blank_of_portNumber (String.isEmpty_iff.mp hempty),
          rfl⟩⟩, rfl⟩
      · cases hinteger : Text.integer (Device.portNumber text) with
        | ok port =>
          rw [hinteger] at h
          obtain ⟨rfl, _⟩ := pure_eq_ok.mp h
          exact ⟨port, ⟨text, hlast, .inr hinteger⟩, rfl⟩
        | error e =>
          rw [hinteger] at h
          exact absurd h throw_ne_ok
    · cases hnone

theorem alongWay_eq_ok (hlinks : links.foldlM addLink Network.empty = .ok s.network) :
    ∀ {names : List String} {m m' : PathConfig}
    {c c' : String}, s.network.Linked (names.map .str) → (m.keys ++ names).Nodup →
      alongWay s names m c = .ok m' c' →
    ∃ es, m'.entries = m.entries ++ es ∧ es.map (·.1) = names ∧ Follows links es := by
  intro names
  induction names with
  | nil =>
    intro m m' c c' _ _ h
    obtain ⟨rfl, _⟩ := pure_eq_ok.mp h
    exact ⟨[], by simp, rfl, trivial⟩
  | cons u names ih =>
    intro m m' c c' hlinked hnodup h
    obtain ⟨tables, c1, htables, h⟩ := bind_eq_ok.mp h
    obtain ⟨next, c2, hnext, h⟩ := bind_eq_ok.mp h
    have hstop : IsStop links u names.head?
        (.obj [("tables", .nat tables), ("ip", .str (Device.address u Device.defaultBase)),
          ("next", next)]) := by
      have hnext' := nextLink_eq_ok hlinks (fun v hv => ?_) hnext
      · refine ⟨⟨next, rfl, hnext'⟩, ⟨_, rfl⟩, ⟨_, rfl⟩, rfl, fun room => ?_⟩
        exact textual_stop (Device.readable_tables (lift_mismatch_eq_ok.mp htables).1)
          (hnext'.textual room) (by simp)
          (by simp)
      · have hlinked := (isChain_cons.mp hlinked).1
        exact hlinked (.str v) (by rw [head?_map, mem_def.mp hv]; rfl)
    have hnew : m.contains u = false := by
      rw [← Bool.not_eq_true, OrderedMap.contains_iff]
      exact fun hu => disjoint_of_nodup_append hnodup hu mem_cons_self
    have hentries := entries_insert_of_not_contains hnew
      (.obj [("tables", .nat tables), ("ip", .str (Device.address u Device.defaultBase)),
        ("next", next)])
    obtain ⟨es, hes, hnames, hfollows⟩ := ih (List.IsChain.tail hlinked) (by
      rw [keys_insert_of_not_contains hnew]
      simpa using hnodup) h
    refine ⟨_ :: es, by rw [hes, hentries, append_assoc]; rfl, by simp [hnames], ?_, hfollows⟩
    rw [← head?_map, hnames]
    exact hstop

theorem lonePath_eq_ok (h : lonePath s hosts = .ok m) : IsPath links m := by
  obtain ⟨host, _, h⟩ := except_bind_eq_ok.mp h
  obtain ⟨device, _, h⟩ := except_bind_eq_ok.mp h
  obtain ⟨tables, htables, h⟩ := except_bind_eq_ok.mp h
  obtain ⟨name, _, h⟩ := except_bind_eq_ok.mp h
  obtain rfl := Except.ok.inj h
  refine ⟨⟨⟨⟨.obj [], rfl, rfl⟩, ⟨_, rfl⟩, ⟨_, rfl⟩, rfl, fun room => ?_⟩, trivial⟩,
    nodup_singleton name⟩
  have hnext : Json.Textual (room + 1) (.obj []) := .obj (forall_mem_nil _) nodup_nil
  exact textual_stop (Device.readable_tables htables) hnext (by simp) (by simp)

theorem namesFrom_eq_ok :
    ∀ {ks : List Json.Key} {i : Nat} {names : List String}, namesFrom i ks = .ok names →
      ks = names.map .str := by
  intro ks
  induction ks with
  | nil =>
    intro i names h
    obtain rfl := Except.ok.inj h
    rfl
  | cons k ks ih =>
    intro i names h
    cases k with
    | str name =>
      obtain ⟨rest, hrest, h⟩ := except_bind_eq_ok.mp h
      obtain rfl := Except.ok.inj h
      rw [ih hrest]
      rfl
    | _ => cases h

theorem wayBetween_eq_ok {first last : Json} {way : List Json.Key}
    (h : wayBetween n first last = .ok (some way)) :
    n.Linked way ∧ Network.Apart way := by
  obtain ⟨start, _, h⟩ := except_bind_eq_ok.mp h
  split at h
  · obtain ⟨goal, _, h⟩ := except_bind_eq_ok.mp h
    exact Network.route_eq_some (Except.ok.inj h)
  · cases h

/-- **What is generated for a service follows a path**, if anything is generated. -/
theorem servicePath_eq_ok (hlinks : links.foldlM addLink Network.empty = .ok s.network)
    {name : Json} (h : servicePath s name hosts c = .ok m c') : IsPath links m := by
  obtain ⟨count, c1, _, h⟩ := bind_eq_ok.mp h
  split at h
  · obtain ⟨_, _, _, h⟩ := bind_eq_ok.mp h
    exact lonePath_eq_ok (lift_mismatch_eq_ok.mp h).1
  · obtain ⟨_, _, _, h⟩ := bind_eq_ok.mp h
    obtain ⟨first, _, _, h⟩ := bind_eq_ok.mp h
    obtain ⟨_, _, _, h⟩ := bind_eq_ok.mp h
    obtain ⟨last, _, _, h⟩ := bind_eq_ok.mp h
    obtain ⟨found, _, hfound, h⟩ := bind_eq_ok.mp h
    cases found with
    | none =>
      obtain ⟨_, _, rfl⟩ := bind_pure_eq_ok.mp h
      exact ⟨trivial, nodup_nil⟩
    | some way =>
      obtain ⟨names, _, hnames, h⟩ := bind_eq_ok.mp h
      obtain ⟨_, _, _, halong⟩ := bind_eq_ok.mp h
      obtain rfl := namesFrom_eq_ok (lift_mismatch_eq_ok.mp hnames).1
      obtain ⟨hlinked, hapart⟩ := wayBetween_eq_ok (lift_mismatch_eq_ok.mp hfound).1
      have hnodup : names.Nodup := by
        refine (pairwise_map.mp hapart).imp fun {u v} h heq => ?_
        have hself := h (congrArg _ heq)
        rw [(Json.Key.beq_str_iff _ v).mpr rfl] at hself
        cases hself
      obtain ⟨es, hes, hnames, hfollows⟩ := alongWay_eq_ok hlinks hlinked (m := {}) hnodup halong
      have hes : m.entries = es := hes
      exact ⟨hes ▸ hfollows, by rw [OrderedMap.keys, hes, hnames]; exact hnodup⟩

/-- **All that is generated follows paths.** -/
theorem userPaths_eq_ok (hlinks : links.foldlM addLink Network.empty = .ok s.network) {user : Json}
    {done done' : PathFile} (hdone : ∀ e ∈ done.entries, IsPath links e.2)
    (h : userPaths s user done c = .ok done' c') : ∀ e ∈ done'.entries, IsPath links e.2 := by
  obtain ⟨services, _, _, h⟩ := bind_eq_ok.mp h
  obtain ⟨items, _, _, h⟩ := bind_eq_ok.mp h
  refine foldlM_keeps (fun done : PathFile => ∀ e ∈ done.entries, IsPath links e.2)
    (fun done service c done' c' hdone h => ?_) _ hdone h
  obtain ⟨name, _, _, h⟩ := bind_eq_ok.mp h
  obtain ⟨hosts, _, _, h⟩ := bind_eq_ok.mp h
  split at h
  · obtain ⟨rfl, _⟩ := pure_eq_ok.mp h
    exact hdone
  · obtain ⟨_, _, _, h⟩ := bind_eq_ok.mp h
    obtain ⟨m, _, hm, h⟩ := bind_eq_ok.mp h
    split at h
    · obtain ⟨rfl, _⟩ := pure_eq_ok.mp h
      exact hdone
    · obtain ⟨key, _, rfl⟩ := bind_pure_eq_ok.mp h
      intro e he
      rcases mem_entries_insert he with hvalue | hold
      · exact hvalue ▸ servicePath_eq_ok hlinks hm
      · exact hdone e hold

end

end Route

end Pathwise
