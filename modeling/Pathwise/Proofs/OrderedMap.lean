import Mathlib.Data.List.Nodup
import Pathwise.OrderedMap

/-!
# What is found in an insertion-ordered map

`OrderedMap` is a list of pairs.  This file says what its operations do to three views of that list:
the keys, the value found under a key, and the pairs themselves.

* `find?_insert`, `keys_insert`: an insertion changes what is found under its own key only, and adds
  the key at the end if it is new.
* `nodup_insert`, `nodup_ofList`: keys that are pairwise different stay so.
* `mem_entries_iff`, `ext_find?`: where keys are pairwise different, the pairs are exactly what can
  be found, and a map is determined by its keys and what is found under them.
-/

namespace Pathwise.OrderedMap

open List

variable {κ : Type*} {β γ : Type*}

@[simp] theorem keys_map (f : β → γ) (m : OrderedMap κ β) : (m.map f).keys = m.keys := by
  simp [map, keys, map_map, Function.comp_def]

section

variable [BEq κ]

@[simp] theorem find?_nil (k : κ) : (⟨[]⟩ : OrderedMap κ β).find? k = none := rfl

theorem find?_cons_pos {k' k : κ} (h : (k' == k) = true) (v : β) (es : List (κ × β)) :
    (⟨(k', v) :: es⟩ : OrderedMap κ β).find? k = some v := by
  simp [find?, h]

theorem find?_cons_neg {k' k : κ} (h : (k' == k) = false) (v : β) (es : List (κ × β)) :
    (⟨(k', v) :: es⟩ : OrderedMap κ β).find? k = (⟨es⟩ : OrderedMap κ β).find? k := by
  simp [find?, h]

theorem contains_eq_isSome (m : OrderedMap κ β) (k : κ) : m.contains k = (m.find? k).isSome := by
  simp only [contains, find?, Option.isSome_map, isSome_find?]

@[simp] theorem keys_modify (m : OrderedMap κ β) (k : κ) (f : β → β) :
    (m.modify k f).keys = m.keys := by
  simp only [modify, keys, map_map]
  refine map_congr_left fun e _ => ?_
  simp only [Function.comp_apply]
  split <;> rfl

theorem find?_map (f : β → γ) (m : OrderedMap κ β) (k : κ) :
    (m.map f).find? k = (m.find? k).map f := by
  obtain ⟨es⟩ := m
  simp only [map]
  induction es with
  | nil => rfl
  | cons e es ih =>
    rw [map_cons]
    cases h : e.1 == k with
    | true => rw [find?_cons_pos h, find?_cons_pos h]; rfl
    | false => rw [find?_cons_neg h, find?_cons_neg h, ih]

theorem keys_insert_of_contains {m : OrderedMap κ β} {k : κ} (h : m.contains k = true) (v : β) :
    (m.insert k v).keys = m.keys := by
  obtain ⟨es⟩ := m
  simp only [insert, keys, contains] at h ⊢
  induction es with
  | nil => simp at h
  | cons e es ih =>
    obtain ⟨k1, v1⟩ := e
    rw [insertEntry]
    cases hk : k1 == k with
    | true => rfl
    | false =>
      simp only [any_cons, hk, Bool.false_or] at h
      rw [if_neg (by simp), map_cons, map_cons, ih h]

theorem entries_insert_of_not_contains {m : OrderedMap κ β} {k : κ}
    (h : m.contains k = false) (v : β) :
    (m.insert k v).entries = m.entries ++ [(k, v)] := by
  obtain ⟨es⟩ := m
  simp only [insert, contains] at h ⊢
  induction es with
  | nil => rfl
  | cons e es ih =>
    obtain ⟨k1, v1⟩ := e
    simp only [any_cons, Bool.or_eq_false_iff] at h
    rw [insertEntry, if_neg (by simp [h.1]), ih h.2, cons_append]

theorem keys_insert_of_not_contains {m : OrderedMap κ β} {k : κ}
    (h : m.contains k = false) (v : β) :
    (m.insert k v).keys = m.keys ++ [k] := by
  rw [keys, entries_insert_of_not_contains h, map_append]
  rfl

theorem mem_entries_insert {m : OrderedMap κ β} {k : κ} {v : β} {e : κ × β}
    (h : e ∈ (m.insert k v).entries) :
    e.2 = v ∨ e ∈ m.entries := by
  obtain ⟨es⟩ := m
  simp only [insert] at h ⊢
  induction es with
  | nil =>
    obtain rfl := mem_singleton.mp h
    exact .inl rfl
  | cons e' es ih =>
    rw [insertEntry] at h
    split at h
    · rcases mem_cons.mp h with rfl | h
      · exact .inl rfl
      · exact .inr (mem_cons_of_mem _ h)
    · rcases mem_cons.mp h with rfl | h
      · exact .inr mem_cons_self
      · exact (ih h).imp_right (mem_cons_of_mem _)

theorem mem_entries_insertNew {m : OrderedMap κ β} {k : κ} {v : β} {e : κ × β}
    (h : e ∈ (m.insertNew k v).entries) :
    e.2 = v ∨ e ∈ m.entries := by
  rw [insertNew] at h
  split at h
  · exact .inr h
  · exact mem_entries_insert h

theorem insert_find? {m : OrderedMap κ β} {k : κ} {v : β} (h : m.find? k = some v) :
    m.insert k v = m := by
  obtain ⟨es⟩ := m
  simp only [insert, mk.injEq]
  induction es with
  | nil => simp at h
  | cons e es ih =>
    obtain ⟨k1, v1⟩ := e
    rw [insertEntry]
    cases hk : k1 == k with
    | true =>
      rw [find?_cons_pos hk] at h
      rw [if_pos rfl, Option.some.inj h]
    | false =>
      rw [find?_cons_neg hk] at h
      rw [if_neg (by simp), ih h]

end

variable [BEq κ] [LawfulBEq κ]

/-! ### Keys and what is found under them -/

theorem contains_iff (m : OrderedMap κ β) (k : κ) : m.contains k = true ↔ k ∈ m.keys := by
  simp only [contains, keys, any_eq_true, mem_map, beq_iff_eq]

theorem mem_keys_iff (m : OrderedMap κ β) (k : κ) : k ∈ m.keys ↔ ∃ v, m.find? k = some v := by
  rw [← contains_iff, contains_eq_isSome, Option.isSome_iff_exists]

theorem find?_eq_none_iff (m : OrderedMap κ β) (k : κ) : m.find? k = none ↔ k ∉ m.keys := by
  rw [← contains_iff, contains_eq_isSome]
  simp

theorem mem_keys_of_find? {m : OrderedMap κ β} {k : κ} {v : β} (h : m.find? k = some v) :
    k ∈ m.keys :=
  (mem_keys_iff m k).mpr ⟨v, h⟩

theorem mem_entries_of_find? {m : OrderedMap κ β} {k : κ} {v : β} (h : m.find? k = some v) :
    (k, v) ∈ m.entries := by
  rw [find?, Option.map_eq_some_iff] at h
  obtain ⟨⟨k', v'⟩, he, rfl⟩ := h
  have hk : k' = k := by simpa using find?_some he
  subst hk
  exact mem_of_find?_eq_some he

/-- **Where keys are pairwise different, the pairs are what can be found.** -/
theorem mem_entries_iff {m : OrderedMap κ β} (hm : m.keys.Nodup) (k : κ) (v : β) :
    (k, v) ∈ m.entries ↔ m.find? k = some v := by
  refine ⟨fun h => ?_, mem_entries_of_find?⟩
  obtain ⟨v', hv⟩ := (mem_keys_iff m k).mp (mem_map.mpr ⟨(k, v), h, rfl⟩)
  have := inj_on_of_nodup_map hm h (mem_entries_of_find? hv) rfl
  rw [hv, (Prod.mk.inj this).2]

/-- **Where keys are pairwise different, a map is its keys and what is found under them.** -/
theorem ext_find? : ∀ {m m' : OrderedMap κ β}, m.keys = m'.keys → m.keys.Nodup →
    (∀ k, m.find? k = m'.find? k) → m = m' := by
  rintro ⟨es⟩ ⟨es'⟩ hk hnd hf
  rw [mk.injEq]
  simp only [keys] at hk hnd
  induction es generalizing es' with
  | nil => exact (map_eq_nil_iff.mp hk.symm).symm
  | cons e es ih =>
    obtain ⟨k, v⟩ := e
    cases es' with
    | nil => simp at hk
    | cons e' es' =>
      obtain ⟨k', v'⟩ := e'
      simp only [map_cons, List.cons.injEq] at hk
      obtain ⟨rfl, hk⟩ := hk
      rw [map_cons, nodup_cons] at hnd
      have hself : (k == k) = true := beq_self_eq_true k
      have hv := hf k
      rw [find?_cons_pos hself, find?_cons_pos hself] at hv
      obtain rfl := Option.some.inj hv
      rw [ih es' hk hnd.2]
      intro k'
      by_cases h : k = k'
      · subst h
        have hnot : k ∉ es'.map (·.1) := by
          rw [← hk]
          exact hnd.1
        rw [(find?_eq_none_iff ⟨es⟩ k).mpr hnd.1, (find?_eq_none_iff ⟨es'⟩ k).mpr hnot]
      · have hb : (k == k') = false := by simpa using h
        have := hf k'
        rwa [find?_cons_neg hb, find?_cons_neg hb] at this

/-! ### Insertion -/

@[simp] theorem find?_insert_self (m : OrderedMap κ β) (k : κ) (v : β) :
    (m.insert k v).find? k = some v := by
  obtain ⟨es⟩ := m
  simp only [insert]
  induction es with
  | nil => exact find?_cons_pos (beq_self_eq_true k) v []
  | cons e es ih =>
    obtain ⟨k1, v1⟩ := e
    rw [insertEntry]
    cases h : k1 == k with
    | true => rw [if_pos rfl, find?_cons_pos h]
    | false => rw [if_neg (by simp), find?_cons_neg h, ih]

theorem find?_insert_of_ne (m : OrderedMap κ β) {k k' : κ} (h : k' ≠ k) (v : β) :
    (m.insert k v).find? k' = m.find? k' := by
  obtain ⟨es⟩ := m
  have hb : (k == k') = false := by simpa using Ne.symm h
  simp only [insert]
  induction es with
  | nil => rw [insertEntry, find?_cons_neg hb]
  | cons e es ih =>
    obtain ⟨k1, v1⟩ := e
    rw [insertEntry]
    cases hk : k1 == k with
    | true =>
      have hk1 : (k1 == k') = false := by
        rw [show k1 = k by simpa using hk]
        exact hb
      rw [if_pos rfl, find?_cons_neg hk1, find?_cons_neg hk1]
    | false =>
      rw [if_neg (by simp)]
      cases h1 : k1 == k' with
      | true => rw [find?_cons_pos h1, find?_cons_pos h1]
      | false => rw [find?_cons_neg h1, find?_cons_neg h1, ih]

theorem find?_insert [DecidableEq κ] (m : OrderedMap κ β) (k k' : κ) (v : β) :
    (m.insert k v).find? k' = if k' = k then some v else m.find? k' := by
  split
  · next h => rw [h, find?_insert_self]
  · next h => exact find?_insert_of_ne m h v

theorem keys_insert_of_mem {m : OrderedMap κ β} {k : κ} (h : k ∈ m.keys) (v : β) :
    (m.insert k v).keys = m.keys :=
  keys_insert_of_contains ((contains_iff m k).mpr h) v

theorem nodup_insert {m : OrderedMap κ β} (hm : m.keys.Nodup) (k : κ) (v : β) :
    (m.insert k v).keys.Nodup := by
  cases h : m.contains k with
  | true => rwa [keys_insert_of_contains h]
  | false =>
    rw [keys_insert_of_not_contains h]
    have hk : k ∉ m.keys := fun hk => by simp [(contains_iff m k).mpr hk] at h
    exact nodup_append.mpr ⟨hm, nodup_singleton k, by
      intro a ha b hb
      rw [mem_singleton] at hb
      subst hb
      exact fun he => hk (he ▸ ha)⟩

theorem nodup_foldl_insert (es : List (κ × β)) :
    ∀ m : OrderedMap κ β, m.keys.Nodup → (es.foldl (fun m e => m.insert e.1 e.2) m).keys.Nodup := by
  induction es with
  | nil => intro m hm; exact hm
  | cons e es ih => intro m hm; exact ih _ (nodup_insert hm e.1 e.2)

theorem find?_foldl_insert [DecidableEq κ] {f : κ → β} {k : κ} {v : β} (ks : List κ) :
    ∀ {m : OrderedMap κ β},
    (ks.foldl (fun m k => m.insert k (f k)) m).find? k = some v → m.find? k = some v ∨ k ∈ ks ∧
      v = f k := by
  induction ks with
  | nil => exact .inl
  | cons k' ks ih =>
    intro m h
    rcases ih h with h | ⟨hk, hv⟩
    · rw [find?_insert] at h
      split at h
      · next hk =>
        cases h
        exact .inr ⟨hk ▸ mem_cons_self, by rw [hk]⟩
      · exact .inl h
    · exact .inr ⟨mem_cons_of_mem _ hk, hv⟩

theorem entries_foldl_insert_of_nodup :
    ∀ (es : List (κ × β)) (m : OrderedMap κ β), (m.keys ++ es.map (·.1)).Nodup →
    (es.foldl (fun m e => m.insert e.1 e.2) m).entries = m.entries ++ es := by
  intro es
  induction es with
  | nil => intro m _; simp
  | cons e es ih =>
    intro m h
    have hnot : m.contains e.1 = false := by
      rw [← Bool.not_eq_true, contains_iff]
      intro hmem
      exact (nodup_append.mp h).2.2 e.1 hmem e.1 (by simp) rfl
    rw [foldl_cons, ih _ ?_, entries_insert_of_not_contains hnot, append_assoc]
    · rfl
    · rw [keys_insert_of_not_contains hnot, append_assoc]
      exact h

theorem entries_ofList_of_nodup {es : List (κ × β)} (h : (es.map (·.1)).Nodup) :
    (ofList es).entries = es :=
  entries_foldl_insert_of_nodup es empty h

theorem mem_keys_insert (m : OrderedMap κ β) (k k' : κ) (v : β) : k' ∈ (m.insert k v).keys ↔
    k' ∈ m.keys ∨ k' = k := by
  cases h : m.contains k with
  | true =>
    rw [keys_insert_of_contains h]
    refine ⟨.inl, ?_⟩
    rintro (hk | rfl)
    · exact hk
    · exact (contains_iff m k').mp h
  | false => rw [keys_insert_of_not_contains h, mem_append, mem_singleton]

theorem mem_keys_ofList (es : List (κ × β)) (k : κ) : k ∈ (ofList es).keys ↔ k ∈ es.map (·.1) := by
  have hfold : ∀ (es : List (κ × β)) (m : OrderedMap κ β),
      k ∈ (es.foldl (fun m e => m.insert e.1 e.2) m).keys ↔ k ∈ m.keys ∨ k ∈ es.map (·.1) := by
    intro es
    induction es with
    | nil => simp
    | cons e es ih =>
      intro m
      rw [foldl_cons, ih, mem_keys_insert, map_cons, mem_cons, or_assoc]
  rw [ofList, hfold]
  simp [empty, keys]

theorem nodup_ofList (es : List (κ × β)) : (ofList es).keys.Nodup :=
  nodup_foldl_insert es _ nodup_nil

/-! ### The other operations -/

theorem find?_filter {m : OrderedMap κ β} (hm : m.keys.Nodup) (p : κ × β → Bool) (k : κ) :
    (⟨m.entries.filter p⟩ : OrderedMap κ β).find? k = (m.find? k).filter fun v => p (k, v) := by
  have hnd : (⟨m.entries.filter p⟩ : OrderedMap κ β).keys.Nodup :=
    List.Nodup.sublist (filter_sublist.map _) hm
  ext v
  rw [← mem_entries_iff hnd, mem_filter, mem_entries_iff hm, Option.filter_eq_some_iff]

theorem find?_modify [DecidableEq κ] (m : OrderedMap κ β) (k k' : κ) (f : β → β) :
    (m.modify k f).find? k' = if k' = k then (m.find? k').map f else m.find? k' := by
  obtain ⟨es⟩ := m
  simp only [modify]
  induction es with
  | nil => simp
  | cons e es ih =>
    obtain ⟨k1, v1⟩ := e
    rw [map_cons]
    cases h1 : k1 == k' with
    | true =>
      have hk : k1 = k' := by simpa using h1
      subst hk
      by_cases h : k1 = k
      · subst h
        rw [if_pos rfl, find?_cons_pos h1]
        simp only [beq_self_eq_true, if_true]
        rw [find?_cons_pos h1, Option.map_some]
      · have hb : (k1 == k) = false := by simpa using h
        rw [if_neg h, find?_cons_pos h1]
        simp only [hb, Bool.false_eq_true, if_false]
        rw [find?_cons_pos h1]
    | false =>
      rw [find?_cons_neg h1, ← ih]
      split
      · exact find?_cons_neg h1 _ _
      · exact find?_cons_neg h1 _ _

end Pathwise.OrderedMap
