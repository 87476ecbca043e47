import Mathlib.Data.List.Chain
import Pathwise.Proofs.OrderedMap
import Pathwise.Proofs.Steps
import Pathwise.Route.Generate

/-!
# Ways through a network

Going through a network breadth first, every way in the queue follows links, and the device at its
end was not met on any way before.  So a way that is found follows links and meets no device twice
(`route_eq_some`).

The network of a topology file has, for two devices, the port of the last link from the first one to
the second one (`lastLink_of_foldlM`).
-/

namespace Pathwise

open Steps List OrderedMap

/-! ### Keys that are texts -/

namespace Json.Key

theorem beq_str_iff (k : Key) (s : String) : (k == .str s) = true ↔ k = .str s := by
  cases k <;> simp [BEq.beq, same, fraction?]

theorem str_beq_iff (k : Key) (s : String) : (.str s == k) = true ↔ k = .str s := by
  cases k <;> simp [BEq.beq, same, fraction?, eq_comm]

end Json.Key

theorem Json.eq_str_of_key {j : Json} {s : String} (h : j.key = .ok (.str s)) : j = .str s := by
  cases j <;> cases h
  rfl

theorem Device.searchable_eq_ok {j : Json} {s : String} (h : Device.searchable j = .ok s) :
    j = .str s := by
  cases j <;> cases h
  rfl

namespace OrderedMap

variable {β : Type}

theorem find?_insert_str (m : OrderedMap Json.Key β) (k : Json.Key) (v : β) (s : String) :
    (m.insert k v).find? (.str s) = if k = .str s then some v else m.find? (.str s) := by
  obtain ⟨es⟩ := m
  simp only [insert]
  induction es with
  | nil =>
    by_cases hk : k = .str s
    · rw [if_pos hk, insertEntry, find?_cons_pos ((Json.Key.beq_str_iff k s).mpr hk)]
    · rw [if_neg hk, insertEntry,
        find?_cons_neg (by simpa using mt (Json.Key.beq_str_iff k s).mp hk)]
  | cons e es ih =>
    obtain ⟨k', v'⟩ := e
    rw [insertEntry]
    by_cases hk' : k' = .str s
    · subst hk'
      by_cases hk : k = .str s
      · rw [if_pos hk, if_pos ((Json.Key.str_beq_iff k s).mpr hk),
          find?_cons_pos ((Json.Key.beq_str_iff _ s).mpr rfl)]
      · have hne := mt (Json.Key.str_beq_iff k s).mp hk
        rw [if_neg hk, if_neg hne, find?_cons_pos ((Json.Key.beq_str_iff _ s).mpr rfl),
          find?_cons_pos ((Json.Key.beq_str_iff _ s).mpr rfl)]
    · have hne : (k' == .str s) = false := by simpa using mt (Json.Key.beq_str_iff k' s).mp hk'
      rw [find?_cons_neg hne]
      split
      · next hsame =>
        have hk : k ≠ .str s := by
          rintro rfl
          exact hk' ((Json.Key.beq_str_iff k' s).mp hsame)
        rw [find?_cons_neg hne, if_neg hk]
      · rw [find?_cons_neg hne, ih]

theorem mem_keys_iff_str (m : OrderedMap Json.Key β) (s : String) : .str s ∈ m.keys ↔
    ∃ v, m.find? (.str s) = some v := by
  rw [← Option.isSome_iff_exists, ← contains_eq_isSome, contains, any_eq_true, keys, mem_map]
  simp only [Json.Key.beq_str_iff]

end OrderedMap

namespace Network

variable {δ π : Type} [BEq δ] {n n' : Network δ π}

theorem ports_touch (n : Network δ π) (device other : δ) :
    (n.touch device).ports other = n.ports other := by
  rw [ports, ports, touch, OrderedMap.insertNew]
  dsimp only
  split
  · rfl
  · next hnew =>
    rw [Bool.not_eq_true] at hnew
    rw [OrderedMap.find?, entries_insert_of_not_contains hnew, find?_append, OrderedMap.find?]
    cases n.links.entries.find? (·.1 == other) with
    | some e => rfl
    | none =>
      rw [Option.none_or]
      by_cases hsame : (device == other) = true
      · simp [hsame]
      · simp [hsame]

theorem neighbours_touch (n : Network δ π) (device other : δ) :
    (n.touch device).neighbours other = n.neighbours other := by
  rw [neighbours, ports_touch, neighbours]

/-- The way follows links. -/
def Linked (n : Network δ π) (way : List δ) : Prop :=
  way.IsChain fun a b => b ∈ n.neighbours a

theorem linked_touch (n : Network δ π) (device : δ) (way : List δ) : (n.touch device).Linked way ↔
    n.Linked way := by
  simp only [Linked, neighbours_touch]

/-- The way meets no device twice, unless the device is not even the same as itself. -/
def Apart (way : List δ) : Prop :=
  way.Pairwise fun a b => a = b → (b == b) = false

/-- What is known of a way in the queue, which ends at a device. -/
structure IsWay (n : Network δ π) (seen : List δ) (here : δ) (way : List δ) : Prop where
  ends : way.getLast? = some here
  linked : n.Linked way
  apart : Apart way
  known : ∀ d ∈ way, d ∈ seen

theorem IsWay.touch {seen way : List δ} {here : δ} (h : IsWay n seen here way) (device : δ) :
    IsWay (n.touch device) seen here way :=
  { h with linked := (linked_touch n device way).mpr h.linked }

theorem IsWay.seeMore {seen way : List δ} {here : δ} (h : IsWay n seen here way) (more : List δ) :
    IsWay n (seen ++ more) here way :=
  { h with known := fun d hd => mem_append_left _ (h.known d hd) }

theorem IsWay.extend {seen way more : List δ} {here d : δ} (h : IsWay n seen here way)
    (hd : d ∈ n.neighbours here) (hnew : (seen.contains d) = false) (hmore : d ∈ more) :
    IsWay n (seen ++ more) d (way ++ [d]) := by
  refine ⟨by simp, ?_, ?_, ?_⟩
  · refine isChain_append.mpr ⟨h.linked, isChain_singleton d, fun a ha b hb => ?_⟩
    rw [h.ends] at ha
    obtain rfl := Option.some.inj ha
    obtain rfl := Option.some.inj hb
    exact hd
  · refine pairwise_append.mpr ⟨h.apart, pairwise_singleton _ d, fun a ha b hb heq => ?_⟩
    obtain rfl := mem_singleton.mp hb
    subst heq
    -- the device was seen, so it cannot be the same as itself
    rw [contains_eq_any_beq] at hnew
    simpa using any_eq_false.mp hnew a (h.known a ha)
  · intro a ha
    rcases mem_append.mp ha with ha | ha
    · exact mem_append_left _ (h.known a ha)
    · exact mem_append_right _ (mem_singleton.mp ha ▸ hmore)

/-- **A way that is found follows links and meets no device twice.** -/
theorem search_eq_some {goal : δ} :
    ∀ {steps : Nat} {queue : List (δ × List δ)} {seen : List δ} {n n' : Network δ π} {way : List δ},
    (∀ e ∈ queue, IsWay n seen e.1 e.2) → (∀ d ∈ seen, (d == goal) = false) →
      search goal steps queue seen n = (n', some way) →
    n.Linked way ∧ Apart way := by
  intro steps
  induction steps with
  | zero => exact fun _ _ h => by cases h
  | succ steps ih =>
    intro queue seen n n' way hqueue hseen h
    cases queue with
    | nil => cases h
    | cons e queue =>
      obtain ⟨here, way'⟩ := e
      obtain ⟨hway, hqueue⟩ := forall_mem_cons.mp hqueue
      rw [search] at h
      simp only [neighbours_touch] at h
      split at h
      · next last hlast =>
        cases h
        have hgoal : (last == goal) = true := find?_some (p := (· == goal)) hlast
        refine ⟨isChain_append.mpr ⟨hway.linked, isChain_singleton last, fun a ha b hb => ?_⟩,
          pairwise_append.mpr ⟨hway.apart, pairwise_singleton _ last, fun a ha b hb heq => ?_⟩⟩
        · rw [hway.ends] at ha
          obtain rfl := Option.some.inj ha
          obtain rfl := Option.some.inj hb
          exact mem_of_find?_eq_some hlast
        · obtain rfl := mem_singleton.mp hb
          subst heq
          rw [hseen a (hway.known a ha)] at hgoal
          cases hgoal
      · next hnone =>
        have hnew : ∀ d ∈ fresh seen (n.neighbours here), d ∈ n.neighbours here ∧
            seen.contains d = false := by
          intro d hd
          obtain ⟨hd, hfresh⟩ := mem_filter.mp hd
          exact ⟨hd, by simpa using hfresh⟩
        refine (ih (fun e he => ?_) (fun d hd => ?_) h).imp_left (linked_touch n here way).mp
        · rcases mem_append.mp he with he | he
          · exact ((hqueue e he).seeMore _).touch here
          · obtain ⟨d, hd, rfl⟩ := mem_map.mp he
            exact (hway.extend (hnew d hd).1 (hnew d hd).2 hd).touch here
        · rcases mem_append.mp hd with hd | hd
          · exact hseen d hd
          · simpa using find?_eq_none.mp hnone d (hnew d hd).1

theorem route_eq_some {start goal : δ} {way : List δ} (h : (n.route start goal).2 = some way) :
    n.Linked way ∧ Apart way := by
  unfold route at h
  split at h
  · split at h
    · obtain rfl := Option.some.inj h
      exact ⟨isChain_singleton _, pairwise_singleton _ _⟩
    · next hne =>
      refine search_eq_some ?_ ?_ (Prod.ext rfl h)
      · exact forall_mem_singleton.mpr ⟨rfl, isChain_singleton _, pairwise_singleton _ _,
          fun d hd => hd⟩
      · exact forall_mem_singleton.mpr (by simpa using hne)
  · cases h

end Network

/-! ### The links of a topology file -/

namespace Route

/-- The link leads from one device to another one, and leaves the first by a port. -/
structure Joins (link : Json) (u v port : String) : Prop where
  source : ∃ src, link.get "src" = .ok src ∧ src.get "device" = .ok (.str u) ∧
    src.get "port" = .ok (.str port)
  target : ∃ dst, link.get "dst" = .ok dst ∧ dst.get "device" = .ok (.str v)

/-- The last link from a device to another one leaves it by a port. -/
def LastLink (links : List Json) (u v port : String) : Prop :=
  ∃ before link after, links = before ++ link :: after ∧ Joins link u v port ∧
    ∀ l ∈ after, ∀ p, ¬ Joins l u v p

theorem addLink_eq_ok {n n' : Network Json.Key String} {link : Json} (h : addLink n link = .ok n') :
    ∃ k l port, n' = n.addLink k l (Device.portNumber port) ∧ ∀ u v p, Joins link u v p ↔
      k = .str u ∧ l = .str v ∧ p = port := by
  obtain ⟨src, hsrc, h⟩ := except_bind_eq_ok.mp h
  obtain ⟨source, hsource, h⟩ := except_bind_eq_ok.mp h
  obtain ⟨dst, hdst, h⟩ := except_bind_eq_ok.mp h
  obtain ⟨target, htarget, h⟩ := except_bind_eq_ok.mp h
  obtain ⟨src', hsrc', h⟩ := except_bind_eq_ok.mp h
  obtain ⟨port, hport, h⟩ := except_bind_eq_ok.mp h
  obtain ⟨text, htext, h⟩ := except_bind_eq_ok.mp h
  obtain ⟨k, hk, h⟩ := except_bind_eq_ok.mp h
  obtain ⟨l, hl, h⟩ := except_bind_eq_ok.mp h
  obtain rfl := Except.ok.inj h
  obtain rfl := Except.ok.inj (hsrc.symm.trans hsrc')
  obtain rfl := Device.searchable_eq_ok htext
  refine ⟨k, l, text, rfl, fun u v p => ⟨?_, ?_⟩⟩
  · rintro ⟨⟨src', hsrc', hu, hp⟩, dst', hdst', hv⟩
    obtain rfl := Except.ok.inj (hsrc.symm.trans hsrc')
    obtain rfl := Except.ok.inj (hdst.symm.trans hdst')
    obtain rfl := Except.ok.inj (hsource.symm.trans hu)
    obtain rfl := Except.ok.inj (htarget.symm.trans hv)
    exact ⟨(Except.ok.inj hk).symm, (Except.ok.inj hl).symm,
      Json.str.inj (Except.ok.inj (hp.symm.trans hport))⟩
  · rintro ⟨rfl, rfl, rfl⟩
    obtain rfl := Json.eq_str_of_key hk
    obtain rfl := Json.eq_str_of_key hl
    exact ⟨⟨src, hsrc, hsource, hport⟩, dst, hdst, htarget⟩

theorem ports_addLink (n : Network Json.Key String) (k l : Json.Key) (port u : String) :
    (n.addLink k l port).ports (.str u) = if k = .str u then (n.ports (.str u)).insert l port
      else n.ports (.str u) := by
  rw [Network.ports, Network.addLink, find?_insert_str]
  split
  · next hk =>
    rw [hk]
    rfl
  · rfl

theorem lastLink_of_foldlM {u v p : String} :
    ∀ {links : List Json} {n n' : Network Json.Key String}, links.foldlM addLink n = .ok n' →
    (n'.ports (.str u)).find? (.str v) = some p →
    (∃ port, LastLink links u v port ∧ p = Device.portNumber port) ∨
      (∀ l ∈ links, ∀ port, ¬ Joins l u v port) ∧ (n.ports (.str u)).find? (.str v) = some p := by
  intro links
  induction links with
  | nil =>
    intro n n' h hp
    obtain rfl := Except.ok.inj h
    exact .inr ⟨forall_mem_nil _, hp⟩
  | cons link links ih =>
    intro n n' h hp
    rw [foldlM_cons] at h
    obtain ⟨n1, hlink, h⟩ := except_bind_eq_ok.mp h
    obtain ⟨k, l, port, rfl, hjoins⟩ := addLink_eq_ok hlink
    rcases ih h hp with ⟨port', ⟨before, link', after, rfl, hlast⟩, rfl⟩ | ⟨hnone, hp⟩
    · exact .inl ⟨port', ⟨link :: before, link', after, rfl, hlast⟩, rfl⟩
    · by_cases hthis : k = .str u ∧ l = .str v
      · rw [ports_addLink, if_pos hthis.1, find?_insert_str, if_pos hthis.2] at hp
        obtain rfl := Option.some.inj hp
        exact .inl ⟨port, ⟨[], link, links, rfl,
          (hjoins u v port).mpr ⟨hthis.1, hthis.2, rfl⟩, hnone⟩, rfl⟩
      · refine .inr ⟨forall_mem_cons.mpr
          ⟨fun p h => hthis ((hjoins u v p).mp h |>.imp_right And.left), hnone⟩, ?_⟩
        rw [ports_addLink] at hp
        split at hp
        · next hk => rwa [find?_insert_str, if_neg fun hl => hthis ⟨hk, hl⟩] at hp
        · exact hp

end Route

end Pathwise
