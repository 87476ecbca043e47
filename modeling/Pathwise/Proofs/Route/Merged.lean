import Pathwise.Proofs.Files
import Pathwise.Proofs.Route.Generated
import Pathwise.Node.Entries

/-!
# Generated paths and the merged topology

The paths of all services are merged into one topology, in which a link that is known stays as it
is.  Whatever service a link comes from, its port is that of the last link of the topology file, so
the merged value is right for all services that share the node (`Survey.Sound`), and no link is lost
(`Survey.Knows`).
-/

namespace Pathwise

open Steps Route List OrderedMap

variable {ε α σ κ β γ : Type} {nodes : List String}

/-! ### Objects -/

namespace Json

theorem get_of_mem {fields : List (String × Json)} (hnames : (fields.map (·.1)).Nodup)
    {f : String × Json} (hf : f ∈ fields) :
    (obj fields).get f.1 = .ok f.2 := by
  have hlookup : fields.lookup f.1 = some f.2 := by
    induction fields with
    | nil => cases hf
    | cons e fields ih =>
      obtain ⟨hnew, hnames⟩ := nodup_cons.mp hnames
      rcases mem_cons.mp hf with rfl | hf
      · exact lookup_cons_self
      · have hne : f.1 ≠ e.1 := fun heq => hnew (mem_map.mpr ⟨f, hf, heq⟩)
        rw [lookup_cons, beq_eq_false_iff_ne.mpr hne]
        exact ih hnames hf
  rw [get, hlookup]

end Json

namespace Steps

theorem except_foldlM_congr {f g : σ → α → Except ε σ} :
    ∀ {xs : List α}, (∀ t, ∀ a ∈ xs, f t a = g t a) → ∀ t, xs.foldlM f t = xs.foldlM g t := by
  intro xs
  induction xs with
  | nil => exact fun _ _ => rfl
  | cons a xs ih =>
    intro h t
    rw [foldlM_cons, foldlM_cons, h t a mem_cons_self]
    congr 1
    funext t'
    exact ih (fun t a ha => h t a (mem_cons_of_mem _ ha)) t'

/--
A loop whose passes succeed and lead from one state to a related one succeeds, and what each pass
brings about is still there in the end.
-/
theorem exists_foldlM {R : σ → σ → Prop} (hrefl : ∀ t, R t t)
    (htrans : ∀ {t t' t''}, R t t' → R t' t'' → R t t'')
    {Q : α → σ → Prop} (hQ : ∀ {a t t'}, R t t' → Q a t → Q a t') {f : σ → α → Except ε σ} :
    ∀ {xs : List α},
    (∀ t, ∀ a ∈ xs, ∃ t', f t a = .ok t' ∧ R t t' ∧ Q a t') → ∀ t, ∃ t', xs.foldlM f t = .ok t' ∧
      R t t' ∧ ∀ a ∈ xs, Q a t' := by
  intro xs
  induction xs with
  | nil => exact fun _ t => ⟨t, rfl, hrefl t, forall_mem_nil _⟩
  | cons a xs ih =>
    intro hf t
    obtain ⟨t1, h1, hR1, hQ1⟩ := hf t a mem_cons_self
    obtain ⟨t2, h2, hR2, hQ2⟩ := ih (fun t a ha => hf t a (mem_cons_of_mem _ ha)) t1
    refine ⟨t2, ?_, htrans hR1 hR2, forall_mem_cons.mpr ⟨hQ hR2 hQ1, hQ2⟩⟩
    rw [foldlM_cons, h1]
    exact h2

end Steps

/-! ### Merging -/

namespace Survey

variable {links : List Json} {t t' t'' : Survey}

variable {u v : String} {port : Int} {info : NodeInfo Json.Key} {c : PathConfig}

/-- The links of a node, as far as they are known. -/
def linksOf (t : Survey) (u : String) : OrderedMap Json.Key Json :=
  ((t.find? u).map NodeInfo.next).getD {}

/-- All links have the port of the last link in the topology file. -/
def Sound (links : List Json) (t : Survey) : Prop :=
  ∀ u, (t.linksOf u).keys.Nodup ∧ ∀ e ∈ (t.linksOf u).entries, ∃ v port, e = (.str v, .int port) ∧
    IsPort links u v port

/-- There is a link from a node to another one. -/
def Knows (t : Survey) (u v : String) : Prop :=
  ∃ port, (t.linksOf u).find? (.str v) = some port

/-- Links were added only if they are sound, and none was lost. -/
structure Grows (links : List Json) (t t' : Survey) : Prop where
  sound : t.Sound links → t'.Sound links
  knows : ∀ u v, t.Knows u v → t'.Knows u v

theorem Grows.refl (t : Survey) : Grows links t t :=
  ⟨id, fun _ _ => id⟩

theorem Grows.trans (h : Grows links t t') (h' : Grows links t' t'') : Grows links t t'' :=
  ⟨h'.sound ∘ h.sound, fun u v => h'.knows u v ∘ h.knows u v⟩

theorem Grows.of_linksOf (h : ∀ u, t'.linksOf u = t.linksOf u) : Grows links t t' := by
  refine ⟨fun hsound u => ?_, fun u v hknows => ?_⟩
  · rw [h]
    exact hsound u
  · rw [Knows, h]
    exact hknows

theorem linksOf_modify (t : Survey) (u : String) {f : NodeInfo Json.Key → NodeInfo Json.Key}
    (hf : ∀ k, (f k).next = k.next) (x : String) :
    linksOf (t.modify u f) x = t.linksOf x := by
  rw [linksOf, linksOf, find?_modify]
  split
  · next hx => simp [hx, Function.comp_def, hf]
  · rfl

theorem linksOf_insertNew (t : Survey) (u x : String) :
    linksOf (t.insertNew u .unknown) x = t.linksOf x := by
  unfold OrderedMap.insertNew
  split
  · rfl
  · next hnew =>
    rw [linksOf, linksOf, find?_insert]
    split
    · next hx =>
      rw [hx, (find?_eq_none_iff t u).mpr (mt (contains_iff t u).mpr hnew)]
      rfl
    · rfl

def withLink (t : Survey) (u v : String) (port : Int) : Survey :=
  t.modify u fun k => { k with next := k.next.insert (.str v) (.int port) }

theorem linksOf_withLink (hinfo : t.find? u = some info) (x : String) :
    (t.withLink u v port).linksOf x = if x = u then (t.linksOf u).insert (.str v) (.int port)
      else t.linksOf x := by
  rw [linksOf, withLink, find?_modify]
  split
  · next hx =>
    rw [hx, linksOf, hinfo]
    rfl
  · rfl

theorem knows_withLink (port : Int) (hinfo : t.find? u = some info) :
    (t.withLink u v port).Knows u v :=
  ⟨.int port, by rw [linksOf_withLink hinfo, if_pos rfl, find?_insert_str, if_pos rfl]⟩

theorem grows_withLink (hinfo : t.find? u = some info)
    (hnew : (t.linksOf u).contains (.str v) = false) (hport : IsPort links u v port) :
    Grows links t (t.withLink u v port) := by
  refine ⟨fun hsound x => ?_, fun x w ⟨port', hport'⟩ => ?_⟩
  · rw [linksOf_withLink hinfo]
    split
    · next hx =>
      obtain ⟨hnodup, hlinks⟩ := hsound u
      have hkey : .str v ∉ (t.linksOf u).keys := fun hmem => by
        obtain ⟨p, hp⟩ := (mem_keys_iff_str _ v).mp hmem
        rw [contains_eq_isSome, hp] at hnew
        cases hnew
      refine ⟨?_, fun e he => ?_⟩
      · rw [keys_insert_of_not_contains hnew]
        exact nodup_append.mpr ⟨hnodup, nodup_singleton _,
          fun a ha b hb heq => hkey (mem_singleton.mp hb ▸ heq ▸ ha)⟩
      · rw [entries_insert_of_not_contains hnew, mem_append, mem_singleton] at he
        rcases he with he | rfl
        · exact hx ▸ hlinks e he
        · exact ⟨v, port, rfl, hx ▸ hport⟩
    · exact hsound x
  · rw [Knows, linksOf_withLink hinfo]
    split
    · next hx =>
      rw [find?_insert_str]
      split
      · exact ⟨_, rfl⟩
      · exact ⟨port', hx ▸ hport'⟩
    · exact ⟨port', hport'⟩

theorem addLinks_eq {info : Json} (hnext : info.get "next" = .ok (.obj [(v, .int port)]))
    {t1 : Survey} (ht1 : t.insertNew u .unknown = t1) {known : NodeInfo Json.Key}
    (hknown : t1.find? u = some known) :
    t.addLinks u info = .ok (if known.next.contains (.str v) then t1
      else t1.withLink u v port) := by
  have hpart : (Json.obj [(v, .int port)]).part (.str v) = .ok (.int port) := 
    Json.get_of_mem (f := (v, .int port)) (by simp) mem_cons_self
  simp only [addLinks, hnext, ht1, bind, Except.bind, Json.items, map_cons, map_nil,
    foldlM_cons, foldlM_nil, Json.key, hknown, hpart, pure, Except.pure]
  cases known.next.contains (.str v) with
  | true => rfl
  | false => rfl

/-- **The links of a node are added**, whatever is known already. -/
theorem addLinks_grows {after : Option String} {info : Json} (h : IsStop links u after info)
    (t : Survey) :
    ∃ t', t.addLinks u info = .ok t' ∧ Grows links t t' ∧ ∀ v ∈ after, t'.Knows u v := by
  obtain ⟨next, hnext, hafter⟩ := h.next
  have hgrows : Grows links t (t.insertNew u .unknown) := .of_linksOf (linksOf_insertNew t u)
  obtain ⟨known, hknown⟩ : ∃ known, (t.insertNew u .unknown).find? u = some known := by
    unfold OrderedMap.insertNew
    split
    · next hold => exact Option.isSome_iff_exists.mp (contains_eq_isSome t u ▸ hold)
    · exact ⟨_, find?_insert_self ..⟩
  generalize ht1 : t.insertNew u .unknown = t1 at hgrows hknown
  have hlinks : linksOf t1 u = known.next := by
    rw [linksOf, hknown]
    rfl
  cases after with
  | none =>
    obtain rfl := hafter
    refine ⟨t1, ?_, hgrows, fun v hv => by cases hv⟩
    rw [addLinks, hnext, ← ht1]
    rfl
  | some v =>
    obtain ⟨port, hport, rfl⟩ := hafter
    refine ⟨_, addLinks_eq hnext ht1 hknown, ?_⟩
    rw [← hlinks]
    split
    · next hold =>
      refine ⟨hgrows, fun w hw => ?_⟩
      obtain rfl := Option.some.inj hw
      exact Option.isSome_iff_exists.mp (contains_eq_isSome (linksOf t1 u) (.str v) ▸ hold)
    · next hnew =>
      refine ⟨hgrows.trans (grows_withLink hknown (by simpa using hnew) hport), fun w hw => ?_⟩
      obtain rfl := Option.some.inj hw
      exact knows_withLink port hknown

/-- The nodes stand next to each other in this order. -/
def Adjacent (nodes : List String) (u v : String) : Prop :=
  ∃ i, nodes[i]? = some u ∧ nodes[i + 1]? = some v

theorem adjacent_cons {node : String} (h : Adjacent (node :: nodes) u v) :
    u = node ∧ nodes.head? = some v ∨ Adjacent nodes u v := by
  obtain ⟨i, hu, hv⟩ := h
  cases i with
  | zero => exact .inl ⟨(Option.some.inj hu).symm, by simpa [head?_eq_getElem?] using hv⟩
  | succ i => exact .inr ⟨i, by simpa using hu, by simpa using hv⟩

theorem addAllLinks_grows : ∀ {es : List (String × Json)}, Follows links es → ∀ t : Survey,
    ∃ t', es.foldlM (fun t e => t.addLinks e.1 e.2) t = .ok t' ∧ Grows links t t' ∧
      ∀ u v, Adjacent (es.map (·.1)) u v → t'.Knows u v := by
  intro es
  induction es with
  | nil => exact fun _ t => ⟨t, rfl, .refl t, fun u v ⟨i, hu, _⟩ => by cases hu⟩
  | cons e es ih =>
    rintro ⟨hstop, hfollows⟩ t
    obtain ⟨t1, h1, hgrows1, hknows1⟩ := addLinks_grows hstop t
    obtain ⟨t2, h2, hgrows2, hknows2⟩ := ih hfollows t1
    refine ⟨t2, ?_, hgrows1.trans hgrows2, fun u v h => ?_⟩
    · rw [foldlM_cons, h1]
      exact h2
    · rcases adjacent_cons h with ⟨rfl, hv⟩ | h
      · exact hgrows2.knows _ v (hknows1 v (by rw [← head?_map]; exact hv))
      · exact hknows2 u v h

theorem foldlM_nodes (hnodup : c.keys.Nodup) (f : Survey → String → Json → Except Mismatch Survey)
    (t : Survey) :
    (c.entries.map fun e => Json.str e.1).foldlM
      (fun t n => do f t (← n.key).name (← (Json.obj c.entries).part n)) t =
      c.entries.foldlM (fun t e => f t e.1 e.2) t := by
  rw [foldlM_map]
  refine except_foldlM_congr (fun t e he => ?_) t
  have hpart : (Json.obj c.entries).part (.str e.1) = .ok e.2 := Json.get_of_mem hnodup he
  simp only [hpart, Json.key, bind, Except.bind, Json.Key.name]

theorem mem_stops : ∀ {es : List (String × Json)}, Follows links es →
    ∀ e ∈ es, ∃ after, IsStop links e.1 after e.2 := by
  intro es
  induction es with
  | nil => exact fun _ => forall_mem_nil _
  | cons e es ih => exact fun h => forall_mem_cons.mpr ⟨⟨_, h.1⟩, ih h.2⟩

theorem grows_setting {info : Json} {field : String} (hfield : ∃ v, info.get field = .ok v)
    (set : Json → NodeInfo Json.Key → NodeInfo Json.Key) (hset : ∀ v k, (set v k).next = k.next)
    (t : Survey) (node : String) :
    ∃ t', (do let v ← info.get field; pure (t.modify node (set v)) : Except Mismatch Survey) =
      .ok t' ∧ Grows links t t' := by
  obtain ⟨v, hv⟩ := hfield
  exact ⟨t.modify node (set v), by rw [hv]; rfl, .of_linksOf (linksOf_modify t node (hset v))⟩

theorem addPath_grows (h : IsPath links c) (t : Survey) :
    ∃ t', t.addPath (.obj c.entries) = .ok t' ∧ Grows links t t' ∧ ∀ u v, Adjacent c.keys u v →
      t'.Knows u v := by
  have hrest : ∀ (f : Survey → String → Json → Except Mismatch Survey),
      (∀ u after info, IsStop links u after info → ∀ t, ∃ t', f t u info = .ok t' ∧
        Grows links t t') → ∀ t, ∃ t', (c.entries.map fun e => Json.str e.1).foldlM
          (fun t n => do f t (← n.key).name (← (Json.obj c.entries).part n)) t = .ok t' ∧
          Grows links t t' := by
    intro f hf t
    rw [foldlM_nodes h.nodup]
    obtain ⟨t', ht', hgrows, _⟩ :=
      exists_foldlM Grows.refl Grows.trans (Q := fun _ _ => True) (fun _ _ => trivial)
      (fun t e he => by
      obtain ⟨after, hstop⟩ := mem_stops h.follows e he
      obtain ⟨t', ht', hgrows⟩ := hf e.1 after e.2 hstop t
      exact ⟨t', ht', hgrows, trivial⟩) t
    exact ⟨t', ht', hgrows⟩
  obtain ⟨t1, h1, hgrows1, hknows⟩ := addAllLinks_grows h.follows t
  obtain ⟨t2, h2, hgrows2⟩ := hrest (fun t node info => do
    let v ← info.get "tables"
    pure (t.modify node fun k => { k with tables := v }))
    (fun u _ _ hstop t => grows_setting hstop.tables (fun v k => { k with tables := v })
      (fun _ _ => rfl) t u) t1
  obtain ⟨t3, h3, hgrows3⟩ := hrest (fun t node info => do
    let v ← info.get "ip"
    pure (t.modify node fun k => { k with ip := v }))
    (fun u _ _ hstop t => grows_setting hstop.ip (fun v k => { k with ip := v })
      (fun _ _ => rfl) t u) t2
  obtain ⟨t4, h4, hgrows4⟩ := hrest (fun t node info => do
    if ← info.member "resource" then
      let v ← info.get "resource"
      pure (t.modify node fun k => { k with resource := v })
    else pure t) (fun _ _ _ hstop t => ⟨t, by rw [hstop.resource]; rfl, .refl t⟩) t3
  have hgrows := hgrows2.trans (hgrows3.trans hgrows4)
  refine ⟨t4, ?_, hgrows1.trans hgrows, fun u v huv => hgrows.knows u v (hknows u v huv)⟩
  refine except_bind_eq_ok.mpr ⟨_, rfl, ?_⟩
  exact except_bind_eq_ok.mpr ⟨t1, (foldlM_nodes h.nodup addLinks t).trans h1,
    except_bind_eq_ok.mpr ⟨t2, h2, except_bind_eq_ok.mpr ⟨t3, h3, h4⟩⟩⟩

theorem Knows.topology (h : t.Knows u v) (hsound : t.Sound links) :
    ∃ info port, t.topology.find? u = some info ∧ info.next.find? v = some (.int port) ∧
      IsPort links u v port := by
  obtain ⟨port, hport⟩ := h
  obtain ⟨hnodup, hlinks⟩ := hsound u
  rw [linksOf] at hport hnodup hlinks
  cases hinfo : t.find? u with
  | none =>
    rw [hinfo] at hport
    cases hport
  | some info =>
  rw [hinfo] at hport hnodup hlinks
  have hmem : (Json.Key.str v, port) ∈ info.next.entries := by
    obtain ⟨⟨k, p⟩, hfound, rfl⟩ := Option.map_eq_some_iff.mp hport
    have hk : k = .str v := (Json.Key.beq_str_iff k v).mp
      (find?_some (p := fun e : Json.Key × Json => e.1 == .str v) hfound)
    exact hk ▸ mem_of_find?_eq_some hfound
  obtain ⟨v', port', heq, hport'⟩ := hlinks _ hmem
  cases heq
  refine ⟨info.named, port', by rw [Survey.topology, OrderedMap.find?_map, hinfo]; rfl, ?_, hport'⟩
  have hnames : ((info.next.entries.map fun e => (e.1.name, e.2)).map (·.1)).Nodup := by
    rw [map_map]
    refine pairwise_map.mpr ((pairwise_map.mp hnodup).imp_of_mem fun {e f} he hf hne hname =>
      hne ?_)
    obtain ⟨_, _, rfl, _⟩ := hlinks e he
    obtain ⟨_, _, rfl, _⟩ := hlinks f hf
    exact congrArg Json.Key.str hname
  have hentries := entries_ofList_of_nodup hnames
  show (OrderedMap.ofList _).find? v = _
  refine (mem_entries_iff (nodup_ofList _) v _).mp ?_
  rw [hentries]
  exact mem_map.mpr ⟨_, hmem, rfl⟩

end Survey

namespace OrderedMap

theorem map_insert [BEq κ] (f : β → γ) (m : OrderedMap κ β) (k : κ) (v : β) :
    (m.insert k v).map f = (m.map f).insert k (f v) := by
  obtain ⟨es⟩ := m
  simp only [insert, map, mk.injEq]
  induction es with
  | nil => rfl
  | cons e es ih =>
    simp only [insertEntry, map_cons]
    split
    · rfl
    · rw [map_cons, ih]

theorem map_ofList [BEq κ] (f : β → γ) (es : List (κ × β)) :
    (ofList es).map f = ofList (es.map fun e => (e.1, f e.2)) := by
  rw [ofList, ofList, foldl_map]
  exact (foldl_hom (OrderedMap.map f) fun m e => (map_insert f m e.1 e.2).symm).symm

end OrderedMap

/-! ### Reading back -/

namespace Route

variable {links : List Json}

variable {paths : PathFile} {g : OrderedMap String PathConfig}

/-- The paths by the names that are written; of services whose names are written alike the last one
counts. -/
def named (paths : PathFile) : OrderedMap String PathConfig :=
  .ofList (paths.entries.map fun e => (e.1.name, e.2))

/-- The value of a path file. -/
def namedJson (g : OrderedMap String PathConfig) : Json :=
  .obj (g.entries.map fun e => (e.1, .obj e.2.entries))

theorem mem_named (hpaths : ∀ e ∈ paths.entries, IsPath links e.2) :
    ∀ e ∈ (named paths).entries, IsPath links e.2 := by
  refine foldlRecOn (motive := fun m : OrderedMap String PathConfig => ∀ e ∈ m.entries,
    IsPath links e.2) _ _ (forall_mem_nil _)
    fun m hm e he f hf => ?_
  obtain ⟨x, hx, rfl⟩ := mem_map.mp he
  rcases mem_entries_insert hf with hvalue | hold
  · exact hvalue ▸ hpaths x hx
  · exact hm f hold

/-- **Generated paths are read back.** -/
theorem parse_pathJson (hpaths : ∀ e ∈ paths.entries, IsPath links e.2) :
    Json.parse (Text.unifyLineEnds ((pathJson paths).pretty false 4 0)) =
      .ok (namedJson (named paths)) := by
  have hlayout := Json.pretty_layout false 4
  have htextual : ∀ f ∈ paths.entries.map fun e => (e.1.name, Json.obj e.2.entries),
      Json.Textual 974 f.2 := by
    intro f hf
    obtain ⟨e, he, rfl⟩ := mem_map.mp hf
    refine .obj (fun f hf => ?_) (hpaths e he).nodup
    obtain ⟨_, hstop⟩ := Survey.mem_stops (hpaths e he).follows f hf
    exact hstop.textual 971
  rw [show pathJson paths = .obj (paths.entries.map fun e => (e.1.name, .obj e.2.entries)) from rfl]
  have hunify : ∀ j : Json, (∀ x ∈ (j.pretty false 4 0).toList, (x = ' ' ∨ x = '\n') ∨
      0x20 ≤ x.toNat) →
      Text.unifyLineEnds (j.pretty false 4 0) = j.pretty false 4 0 := by
    intro j hvisible
    rw [Text.unifyLineEnds, if_neg]
    intro hmem
    exact absurd (hvisible '\r' (by simpa using hmem)) (by decide)
  have hparse := hlayout.parse_fields rfl htextual
  rw [String.ofList_toList] at hparse
  rw [hunify _ (hlayout.visible_obj fun f hf => hlayout.visible (htextual f hf) 1), hparse]
  have hnamed := map_ofList (fun c : PathConfig => Json.obj c.entries)
    (paths.entries.map fun e => (e.1.name, e.2))
  rw [map_map] at hnamed
  exact congrArg (fun m : OrderedMap String Json => Except.ok (Json.obj m.entries)) hnamed.symm

theorem items_namedJson (g : OrderedMap String PathConfig) :
    (namedJson g).items = .ok (g.entries.map fun e => .str e.1) := by
  simp [namedJson, Json.items, map_map, Function.comp_def]

theorem part_namedJson (hnodup : g.keys.Nodup) {e : String × PathConfig}
    (he : e ∈ g.entries) :
    (namedJson g).part (.str e.1) = .ok (.obj e.2.entries) :=
  Json.get_of_mem (f := (e.1, .obj e.2.entries))
    (by simpa [map_map, Function.comp_def, OrderedMap.keys] using hnodup)
    (mem_map_of_mem (f := fun e : String × PathConfig => (e.1, Json.obj e.2.entries)) he)

theorem paths_of_namedJson (hnodup : g.keys.Nodup) :
    Paths.ofJson (namedJson g) = .ok (g.map fun c => c.keys.map .str) := by
  have hfold : (g.entries.map fun e => Json.str e.1).foldlM
      (fun (ps : OrderedMap String (List Json)) s => do
      let name ← s.key
      pure (ps.insert name.name (← (← (namedJson g).part s).items)) :
        _ → _ → Except Mismatch _) {} =
      .ok ((g.entries.map fun e => (e.1, e.2.keys.map Json.str)).foldl
        (fun m e => m.insert e.1 e.2) {}) := by
    rw [foldlM_map, foldl_map, except_foldlM_congr
      (g := fun m e => .ok (m.insert e.1 (e.2.keys.map Json.str)))]
    · exact foldlM_pure
    · intro m e he
      simp [part_namedJson hnodup he, Json.key, Json.items, Json.Key.name, bind, Except.bind, pure,
        Except.pure, OrderedMap.keys, Function.comp_def]
  rw [Paths.ofJson, items_namedJson]
  refine hfold.trans (congrArg Except.ok ?_)
  have hnames : ((g.entries.map fun e => (e.1, e.2.keys.map Json.str)).map (·.1)).Nodup := by
    simpa [map_map, Function.comp_def, OrderedMap.keys] using hnodup
  have hentries := entries_ofList_of_nodup hnames
  exact congrArg OrderedMap.mk hentries

theorem ofLists_named (g : OrderedMap String PathConfig) :
    Paths.ofLists (g.map fun c => c.keys.map .str) = g.map OrderedMap.keys := by
  rw [Paths.ofLists, OrderedMap.map, OrderedMap.map, OrderedMap.map, map_map]
  congr 1
  refine map_congr_left fun e _ => ?_
  simp [filterMap_map, Function.comp_def, Json.str?]

/-- **All paths are merged**, and the links of all services are known then. -/
theorem survey_of_namedJson (hnodup : g.keys.Nodup)
    (hpaths : ∀ e ∈ g.entries, IsPath links e.2) :
    ∃ t, Survey.ofJson (namedJson g) = .ok t ∧ t.Sound links ∧
      ∀ e ∈ g.entries, ∀ u v, Survey.Adjacent e.2.keys u v → t.Knows u v := by
  obtain ⟨t, ht, hgrows, hknows⟩ := exists_foldlM Survey.Grows.refl Survey.Grows.trans
    (Q := fun (e : String × PathConfig) t => ∀ u v, Survey.Adjacent e.2.keys u v → t.Knows u v)
    (fun hgrows hknows u v h => hgrows.knows u v (hknows u v h))
      (f := fun t e => t.addPath (.obj e.2.entries))
    (fun t (e : String × PathConfig) (he : e ∈ g.entries) =>
      Survey.addPath_grows (hpaths e he) t) {}
  refine ⟨t, ?_, hgrows.sound fun u => ⟨nodup_nil, forall_mem_nil _⟩, hknows⟩
  rw [Survey.ofJson, items_namedJson]
  show (g.entries.map fun e => Json.str e.1).foldlM _ _ = _
  rw [foldlM_map, ← ht]
  refine except_foldlM_congr (fun t e he => ?_) _
  rw [part_namedJson hnodup he]
  rfl

theorem generate_eq_ok {serviceFile topologyFile output : String} {generated : PathFile}
    {s s' : Session} (h : generate serviceFile topologyFile output s = .ok generated s') :
    ∃ topology list links, Run.readJson topologyFile s = .ok topology s ∧
      Device.described topology "links" (.arr []) = .ok list ∧
      list.items = .ok links ∧ (∀ e ∈ generated.entries, IsPath links e.2) ∧
      Run.readJson output s' = .ok (namedJson (named generated)) s' := by
  obtain ⟨_, s1, hsay, h⟩ := bind_eq_ok.mp h
  obtain ⟨topology, s2, htopology, h⟩ := bind_eq_ok.mp h
  obtain ⟨around, s3, haround, h⟩ := bind_eq_ok.mp h
  obtain ⟨_, s4, _, h⟩ := bind_eq_ok.mp h
  obtain ⟨services, s5, _, h⟩ := bind_eq_ok.mp h
  obtain ⟨_, s6, _, h⟩ := bind_eq_ok.mp h
  obtain ⟨users, s7, _, h⟩ := bind_eq_ok.mp h
  obtain ⟨paths, s8, hpaths, h⟩ := bind_eq_ok.mp h
  obtain ⟨_, s9, _, h⟩ := bind_eq_ok.mp h
  obtain ⟨_, s10, hcreate, h⟩ := bind_eq_ok.mp h
  obtain ⟨_, hdone, rfl⟩ := bind_pure_eq_ok.mp h
  have hkeeps : KeepsFiles (fun _ => True) s s1 := Run.Leaves.report _ s _ s1 rfl rfl hsay
  obtain rfl := Run.readJson_stays htopology
  obtain ⟨haround, _⟩ := lift_mismatch_eq_ok.mp haround
  obtain ⟨list, hlist, haround⟩ := except_bind_eq_ok.mp haround
  obtain ⟨links, hlinks, haround⟩ := except_bind_eq_ok.mp haround
  obtain ⟨network, hnetwork, haround⟩ := except_bind_eq_ok.mp haround
  obtain ⟨descriptions, _, haround⟩ := except_bind_eq_ok.mp haround
  obtain rfl := Except.ok.inj haround
  have hgenerated : ∀ e ∈ paths.entries, IsPath links e.2 := by
    refine foldlM_keeps (fun done : PathFile => ∀ e ∈ done.entries, IsPath links e.2)
      (fun done user s done' s' hdone h => ?_) _
      (forall_mem_nil _) hpaths
    obtain ⟨c, hc, _⟩ := Run.report_eq_ok.mp h
    exact userPaths_eq_ok hnetwork hdone hc
  refine ⟨topology, list, links, (hkeeps.readJson_eq_ok fun _ _ => trivial).mp htopology, hlist,
    hlinks, hgenerated, ?_⟩
  -- the file is there, and nothing but the console changes behind
  obtain ⟨q, hplace, hsame, hfile⟩ := Run.create_eq_ok hcreate
  obtain ⟨c, _, rfl⟩ := Run.report_eq_ok.mp hdone
  exact Run.readJson_eq_ok.mpr ⟨_,
    Run.read_eq_ok.mpr ⟨_, Run.readRaw_eq_ok.mpr ⟨q, hsame.locate.mpr hplace, hfile, rfl⟩, rfl⟩,
    parse_pathJson hgenerated⟩

theorem after_of_adjacent (hnodup : nodes.Nodup) {u v : String} (h : Survey.Adjacent nodes u v) :
    NextHop.after nodes u = .ok (some v) := by
  obtain ⟨i, hu, hv⟩ := h
  obtain ⟨hi, hu⟩ := List.getElem?_eq_some_iff.mp hu
  have hindex : nodes.idxOf? u = some i := by
    refine findIdx?_eq_some_iff_getElem.mpr ⟨hi, by simpa using hu, fun j hj => ?_⟩
    rw [Bool.not_eq_true, beq_eq_false_iff_ne, ← hu]
    exact fun heq => absurd (hnodup.getElem_inj_iff.mp heq) (Nat.ne_of_lt hj)
  rw [NextHop.after, hindex]
  exact congrArg Except.ok hv

/--
**Generated paths and the merged topology agree.**  The path file that is written is read back, and
for the paths and the topology that follow from it:

* the paths are those that were generated; of services whose names are written alike the last one
  counts;
* no node occurs twice on a path;
* for two nodes that follow each other on the path of a service, the topology has a link from the
  first one to the second one, whose port is that of the last link between them in the topology
  file, or one if nothing is written for it;
* so the next hop is found in program texts and in table entries on every node of a path but the
  last one.
-/
theorem generated_paths_agree_with_topology {serviceFile topologyFile output : String}
    {generated : PathFile} {s s' : Session}
    (h : generate serviceFile topologyFile output s = .ok generated s') :
    ∃ topology list links file lists survey, Run.readJson topologyFile s = .ok topology s ∧
      Device.described topology "links" (.arr []) = .ok list ∧ list.items = .ok links ∧
      Run.readJson output s' = .ok file s' ∧ Paths.ofJson file = .ok lists ∧
        Survey.ofJson file = .ok survey ∧
      Paths.ofLists lists = (named generated).map OrderedMap.keys ∧
      ∀ service path, (Paths.ofLists lists).find? service = some path → path.Nodup ∧
        ∀ u v, Survey.Adjacent path u v → ∃ info port, survey.topology.find? u = some info ∧
          info.next.find? v = some (.int port) ∧ IsPort links u v port ∧
          ∀ P : Node.Plan, P.paths = Paths.ofLists lists →
            P.topology = survey.topology → ∀ fragment,
            (NextHop.serviceOf fragment = service →
              NextHop.inText P.paths info fragment u = .ok (toString port)) ∧
            (P.assignment.services.find? fragment = some service →
              ∀ t, Node.nextPort P u fragment t = .ok (toString port) t) := by
  obtain ⟨topology, list, links, htopology, hlist, hlinks, hpaths, hfile⟩ := generate_eq_ok h
  have hnodup : (named generated).keys.Nodup := nodup_ofList _
  have hnamed := mem_named hpaths
  obtain ⟨survey, hsurvey, hsound, hknows⟩ := survey_of_namedJson hnodup hnamed
  refine ⟨topology, list, links, _, _, survey, htopology, hlist, hlinks, hfile,
    paths_of_namedJson hnodup, hsurvey, ofLists_named _, fun service path hpath => ?_⟩
  rw [ofLists_named, OrderedMap.find?_map] at hpath
  obtain ⟨c, hc, rfl⟩ := Option.map_eq_some_iff.mp hpath
  have hmem := mem_entries_of_find? hc
  have hpath' := (hnamed _ hmem).nodup
  refine ⟨hpath', fun u v huv => ?_⟩
  obtain ⟨info, port, hinfo, hport, hisPort⟩ := (hknows _ hmem u v huv).topology hsound
  refine ⟨info, port, hinfo, hport, hisPort, fun P hP hT fragment => ?_⟩
  have hfound : NextHop.pathOf P.paths service = .ok c.keys := by
    rw [NextHop.pathOf, hP, ofLists_named, OrderedMap.find?_map, hc]
    rfl
  have hafter := after_of_adjacent hpath' huv
  refine ⟨?_, fun hservice t => ?_⟩
  · rintro rfl
    simp only [NextHop.inText, hfound, hafter, bind, Except.bind, hport]
    rfl
  · rw [Node.nextPort, hservice]
    refine bind_eq_ok.mpr ⟨_, t, lift_fault_eq_ok.mpr ⟨hfound, rfl⟩,
      bind_eq_ok.mpr ⟨_, t, lift_fault_eq_ok.mpr ⟨hafter, rfl⟩, ?_⟩⟩
    simp only [hT, hinfo, Option.bind_some, hport]
    rfl

/-- Three devices in a row, with two links between the first two, and two services. -/
def rowDisk : Disk where
  files := [(["topology.json"], "\x7b\"links\":[" ++
      "\x7b\"src\":\x7b\"device\":\"s1\",\"port\":\"3\"\x7d," ++
      "\"dst\":\x7b\"device\":\"s2\"\x7d\x7d," ++
      "\x7b\"src\":\x7b\"device\":\"s2\",\"port\":\" \"\x7d," ++
      "\"dst\":\x7b\"device\":\"s3\"\x7d\x7d," ++
      "\x7b\"src\":\x7b\"device\":\"s1\",\"port\":\"[e](7)\"\x7d," ++
      "\"dst\":\x7b\"device\":\"s2\"\x7d\x7d]\x7d"),
    (["service.json"], "\x7b\"u\":\x7b\"services\":[" ++
      "\x7b\"service_name\":\"a\",\"service_hosts\":[" ++
      "\x7b\"device_uuid\":\"s1\"\x7d,\x7b\"device_uuid\":\"s3\"\x7d]\x7d," ++
      "\x7b\"service_name\":\"b\",\"service_hosts\":[" ++
      "\x7b\"device_uuid\":\"s2\"\x7d,\x7b\"device_uuid\":\"s3\"\x7d]\x7d]\x7d\x7d")]
  directories := []

/-- The port of a link, if the link leads from the first device to the second one. -/
def joining? (u v : String) (link : Json) : Option String :=
  match link.get "src", link.get "dst" with
  | .ok src, .ok dst =>
    match src.get "device", src.get "port", dst.get "device" with
    | .ok (.str u'), .ok (.str port), .ok (.str v') => if u' = u ∧ v' = v then some port else none
    | _, _, _ => none
  | _, _ => none

theorem joining?_eq_some {u v port : String} {link : Json} : joining? u v link = some port ↔
    Joins link u v port := by
  constructor
  · intro h
    rw [joining?] at h
    split at h
    · next src dst hsrc hdst =>
      split at h
      · next u' p v' hdevice hport htarget =>
        obtain ⟨⟨rfl, rfl⟩, hp⟩ := Option.ite_none_right_eq_some.mp h
        obtain rfl := Option.some.inj hp
        exact ⟨⟨src, hsrc, hdevice, hport⟩, dst, hdst, htarget⟩
      · cases h
    · cases h
  · rintro ⟨⟨src, hsrc, hdevice, hport⟩, dst, hdst, htarget⟩
    simp [joining?, hsrc, hdst, hdevice, hport, htarget]

theorem LastLink.getLast?_eq {links : List Json} {u v port : String} (h : LastLink links u v port) :
    (links.filterMap (joining? u v)).getLast? = some port := by
  obtain ⟨before, link, after, rfl, hjoins, hafter⟩ := h
  have hnone : after.filterMap (joining? u v) = [] :=
    filterMap_eq_nil_iff.mpr fun l hl => Option.eq_none_iff_forall_ne_some.mpr fun p hp =>
      hafter l hl p (joining?_eq_some.mp hp)
  rw [filterMap_append, filterMap_cons_some (joining?_eq_some.mpr hjoins), hnone, getLast?_concat]

theorem rowDisk_passes :
    passes (fun generated _ => ((named generated).map OrderedMap.keys).find? "a" =
      some ["s1", "s2", "s3"])
    (generate "service.json" "topology.json" "path.json" (.start rowDisk [])) = true := by
  decide +kernel

theorem rowDisk_links :
    onlyGives (fun topology => (Device.described topology "links" (.arr [])).toOption.all
      fun list =>
      list.items.toOption.all fun links => (links.filterMap (joining? "s1" "s2")).getLast? =
        some "[e](7)")
    (Run.readJson "topology.json" (.start rowDisk [])) = true := by
  decide +kernel

/-- The first service goes through all three devices, and its first link leaves by the port 7 of the
last link. -/
theorem generated_paths_agree_with_topology_row :
    ∃ generated s', generate "service.json" "topology.json" "path.json" (.start rowDisk []) =
      .ok generated s' ∧ ∃ topology list links file survey info,
        Run.readJson "topology.json" (.start rowDisk []) = .ok topology (.start rowDisk []) ∧
        Device.described topology "links" (.arr []) = .ok list ∧ list.items = .ok links ∧
        Run.readJson "path.json" s' = .ok file s' ∧ Survey.ofJson file = .ok survey ∧
        survey.topology.find? "s1" = some info ∧ info.next.find? "s2" = some (.int 7) ∧
          IsPort links "s1" "s2" 7 := by
  obtain ⟨generated, s', h, htest⟩ := exists_ok_of_passes rowDisk_passes
  obtain ⟨topology, list, links, file, _, survey, htopology, hlist, hitems, hfile, _, hsurvey,
    hpaths, hall⟩ :=
    generated_paths_agree_with_topology h
  obtain ⟨_, hlinks⟩ := hall "a" ["s1", "s2", "s3"] (by rw [hpaths]; exact of_decide_eq_true htest)
  obtain ⟨info, port, hinfo, hport, hisPort, _⟩ := hlinks "s1" "s2" ⟨0, rfl, rfl⟩
  have hlast : (links.filterMap (joining? "s1" "s2")).getLast? = some "[e](7)" := by
    have hgives := of_onlyGives rowDisk_links htopology
    rw [hlist, Except.toOption, Option.all_some, hitems, Except.toOption, Option.all_some] at hgives
    exact of_decide_eq_true hgives
  obtain rfl : port = 7 := by
    obtain ⟨text, htext, hnumber⟩ := hisPort
    obtain rfl := Option.some.inj (hlast.symm.trans htext.getLast?_eq)
    rcases hnumber with ⟨hblank, _⟩ | hnumber
    · have hbracket : Text.isBlank '[' = true := hblank '[' (by simp)
      exact absurd hbracket (by decide)
    · have hseven : (Text.integer (Device.portNumber "[e](7)")).toOption = some 7 := by
        decide +kernel
      rw [hnumber] at hseven
      exact Option.some.inj hseven
  exact ⟨generated, s', h, topology, list, links, file, survey, info, htopology, hlist, hitems,
    hfile, hsurvey, hinfo, hport, hisPort⟩

end Route

end Pathwise
