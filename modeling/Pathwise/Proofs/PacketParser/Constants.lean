import Pathwise.PacketParser.Render
import Pathwise.Proofs.Alike
import Pathwise.Proofs.PacketParser.Prune
import Pathwise.Proofs.Tree

/-!
# The constants of a packet parser

Constants stand for values in the entries of selects and in instructions.  Which states there are
and how they are written depends only on constants that the definition mentions, and on those that
are named by the values of such constants.
-/

namespace Pathwise

open Steps

namespace PacketParser

variable {K K' : OrderedMap String String} {sig : Signature} {l : Layout} {t : Tree} {c : String}

variable {c c' n : String} {s : State} {x : Tree}

theorem within_of_underRule {rule : String} {t : Tree} {cs : List Tree}
    (h : underRule rule t = .ok cs) :
    ∀ c ∈ cs, c.Within t := by
  obtain ⟨all, hall, h⟩ := except_bind_eq_ok.mp h
  exact fun c hc => Tree.within_of_children? hall (mem_of_filterM h hc)

theorem within_of_nodeTrees {nodes : List Tree} (h : nodeTrees t = .ok nodes) :
    ∀ n ∈ nodes, n.Within t := by
  obtain ⟨blocks, hblocks, h⟩ := except_bind_eq_ok.mp h
  intro n hn
  split at h
  · next b hlast =>
    exact (Tree.within_of_children? h hn).trans
      (within_of_underRule hblocks b (List.mem_of_getLast? hlast))
  · obtain rfl := Except.ok.inj h
    cases hn

/-- **A table depends on the constants that the definition mentions.** -/
theorem table_congr (h : ∀ n, t.Mentions n → K'.find? n = K.find? n) :
    table K' sig l t = table K sig l t := by
  have hselector : ∀ d : Tree, d.Within t → ∀ c, selector K' d c = selector K d c := by
    intro d hd c
    refine bind_congr rfl fun value c1 hvalue => bind_congr rfl fun rule c2 hrule => ?_
    rw [h value (hd _ (Tree.mentions_of_textAt? (lift_shape_eq_ok.mp hvalue).1))]
  have hentry : ∀ (s : State) (e : Tree), e.Within t →
      ∀ c, addEntry K' s e c = addEntry K s e c := by
    intro s e he c
    refine bind_congr rfl fun target c1 _ => bind_congr rfl fun d c2 hd =>
      bind_congr (hselector d ?_ c2) fun _ _ _ => rfl
    exact (Tree.within_of_descend? (lift_shape_eq_ok.mp hd).1).trans he
  have htransition : ∀ (s : State) (x : Tree), x.Within t →
      ∀ c, transition K' s x c = transition K s x c := by
    intro s x hx c
    refine bind_congr rfl fun y c1 hy => bind_congr rfl fun rule c2 _ => ?_
    have hyt : y.Within t := (Tree.within_of_child? (lift_shape_eq_ok.mp hy).1).trans hx
    split
    · rfl
    split
    · refine bind_congr rfl fun chosen c3 _ => bind_congr rfl fun entries c4 hentries => ?_
      refine foldlM_congr (fun s e he c => hentry s e ?_ c) _ _
      exact (within_of_underRule (lift_shape_eq_ok.mp hentries).1 e he).trans hyt
    · rfl
  have hstate : ∀ x : Tree, x.Within t → ∀ c, state K' sig l x c = state K sig l x c := by
    intro x hx c
    refine bind_congr rfl fun name c1 _ => bind_congr rfl fun exacts c2 _ =>
      bind_congr rfl fun extracted c3 _ => ?_
    refine bind_congr rfl fun transitions c4 htransitions =>
      bind_congr (foldlM_congr (fun s y hy c => ?_) _ _) fun _ _ _ => rfl
    exact htransition s y
      ((within_of_underRule (lift_shape_eq_ok.mp htransitions).1 y hy).trans hx) c
  funext c
  refine bind_congr rfl fun nodes c1 hnodes =>
    bind_congr (foldlM_congr (fun acc n hn c => ?_) _ _) fun _ _ _ => rfl
  exact bind_congr (hstate n (within_of_nodeTrees (lift_shape_eq_ok.mp hnodes).1 n hn) c)
    fun _ _ _ => rfl

/-- A value that can lead to a next state: `default`, a text of the definition, or the value of a
constant that it mentions. -/
inductive Selects (K : OrderedMap String String) (t : Tree) : String → Prop
  | default : Selects K t "default"
  | text {v : String} : t.Mentions v → Selects K t v
  | constant {n v : String} : t.Mentions n → K.find? n = some v → Selects K t v

/-- What is kept of a state is taken from the definition. -/
structure State.TakenFrom (K : OrderedMap String String) (t : Tree) (s : State) : Prop where
  body : ∀ b ∈ s.body, b.Within t
  next : ∀ e ∈ s.next.entries, Selects K t e.2

theorem mem_insertEntry {κ β : Type} [BEq κ] {k : κ} {v : β} :
    ∀ {es : List (κ × β)} {e : κ × β}, e ∈ OrderedMap.insertEntry k v es →
    e ∈ es ∨ e.2 = v := by
  intro es
  induction es with
  | nil =>
    intro e he
    obtain rfl := List.mem_singleton.mp he
    exact .inr rfl
  | cons e' es ih =>
    intro e he
    unfold OrderedMap.insertEntry at he
    grind

theorem selector_selects {d : Tree} {v : String} (hd : d.Within t) (h : selector K d c = .ok v c') :
    Selects K t v := by
  simp only [selector, bind_eq_ok, lift_shape_eq_ok] at h
  obtain ⟨text, _, ⟨htext, _⟩, rule, _, _, h⟩ := h
  have hmentions : t.Mentions text := hd _ (Tree.mentions_of_textAt? htext)
  split at h
  · obtain ⟨rfl, _⟩ := pure_eq_ok.mp h
    exact .text hmentions
  · cases hv : K.find? text with
    | some v' =>
      rw [hv] at h
      obtain ⟨rfl, _⟩ := pure_eq_ok.mp h
      exact .constant hmentions hv
    | none =>
      rw [hv, bind_eq_ok] at h
      obtain ⟨_, _, _, h⟩ := h
      exact absurd h halt_ne_ok

theorem transition_takenFrom {s' : State} (hx : x.Within t) (hs : s.TakenFrom K t)
    (h : transition K s x c = .ok s' c') : s'.TakenFrom K t := by
  simp only [transition, bind_eq_ok, lift_shape_eq_ok] at h
  obtain ⟨y, _, ⟨hy, _⟩, rule, _, _, h⟩ := h
  have hyt : y.Within t := (Tree.within_of_child? hy).trans hx
  split at h
  · simp only [bind_eq_ok, pure_eq_ok] at h
    obtain ⟨target, _, _, rfl, _⟩ := h
    exact ⟨hs.body, fun e he => (mem_insertEntry he).elim (hs.next e) fun hv => hv ▸ .default⟩
  · split at h
    · simp only [bind_eq_ok, lift_shape_eq_ok] at h
      obtain ⟨chosen, _, _, entries, _, ⟨hentries, _⟩, h⟩ := h
      refine foldlM_keeps_of_mem (State.TakenFrom K t) entries (fun s e he c s' c' hs h => ?_) ?_ h
      · simp only [addEntry, bind_eq_ok, lift_shape_eq_ok, pure_eq_ok] at h
        obtain ⟨target, _, _, d, _, ⟨hd, _⟩, v, _, hv, rfl, _⟩ := h
        have hdt : d.Within t :=
          ((Tree.within_of_descend? hd).trans (within_of_underRule hentries e he)).trans hyt
        exact ⟨hs.body, fun e' he' => (mem_insertEntry he').elim (hs.next e') fun hv' =>
          hv' ▸ selector_selects hdt hv⟩
      · split
        · exact ⟨hs.body, hs.next⟩
        · exact hs
    · obtain ⟨rfl, _⟩ := pure_eq_ok.mp h
      exact hs

theorem state_takenFrom {name : String} (hx : x.Within t)
    (h : state K sig l x c = .ok (name, s) c') : s.TakenFrom K t := by
  simp only [state, bind_eq_ok, lift_shape_eq_ok, pure_eq_ok] at h
  obtain ⟨_, _, _, _, _, _, extracted, _, _, transitions, _, ⟨htransitions, _⟩, s1, _, hs1, body, _,
    ⟨hbody, _⟩, heq, _⟩ := h
  obtain ⟨_, rfl⟩ := Prod.mk.inj heq
  have htaken : s1.TakenFrom K t := by
    refine foldlM_keeps_of_mem (State.TakenFrom K t) transitions
      (fun s y hy c s' c' hs h => ?_) ?_ hs1
    · exact transition_takenFrom ((within_of_underRule htransitions y hy).trans hx) hs h
    · exact ⟨fun b hb => absurd hb List.not_mem_nil, fun e he => absurd he List.not_mem_nil⟩
  exact ⟨fun b hb => (within_of_underRule hbody b hb).trans hx, htaken.next⟩

theorem table_takenFrom {tbl : Table} (h : table K sig l t c = .ok tbl c')
    (hs : tbl.find? n = some s) : s.TakenFrom K t := by
  obtain ⟨nodes, t0, hnodes, hfiled, _, _, rfl⟩ := table_eq_ok h
  obtain ⟨hnd, hfresh⟩ := filed_fresh hfiled
  have htaken : ∀ n s, t0.find? n = some s → s.TakenFrom K t := by
    refine foldlM_keeps_of_mem (fun t0 : Table => ∀ n s, t0.find? n = some s →
      s.TakenFrom K t) nodes
      (fun acc x hx c acc' c' hacc h => ?_) (fun n s hn => by cases hn) hfiled
    simp only [file, bind_eq_ok, pure_eq_ok] at h
    obtain ⟨⟨name, s⟩, _, hs, rfl, _⟩ := h
    intro m s' hm
    rw [OrderedMap.find?_insert] at hm
    split at hm
    · obtain rfl := Option.some.inj hm
      exact state_takenFrom (within_of_nodeTrees hnodes x hx) hs
    · exact hacc m s' hm
  obtain ⟨s0, h0, rfl⟩ := find?_linkBack_downstream hnd hfresh hs
  exact ⟨(htaken n s0 h0).body, (htaken n s0 h0).next⟩

theorem constantValue_congr (h : K'.find? n = K.find? n) :
    constantValue K' n = constantValue K n := by
  rw [constantValue, constantValue, h]

theorem stateText_congr (hbody : ∀ b ∈ s.body, ∀ n, b.Mentions n → K'.find? n = K.find? n)
    (hnext : ∀ e ∈ s.next.entries, K'.find? e.2 = K.find? e.2) (name : String) (d : Draft) :
    stateText K' sig name s d = stateText K sig name s d := by
  have hside : ∀ (x : Tree) (owner : String) (kind : String → Report Unit), (∀ n, x.Mentions n →
      K'.find? n = K.find? n) → ∀ d, side K' sig x owner kind d = side K sig x owner kind d := by
    intro x owner kind hx d
    refine bind_congr rfl fun rule d1 _ => ?_
    split
    · rfl
    split
    · refine bind_congr rfl fun name d2 hname => ?_
      rw [constantValue_congr (hx name (Tree.mentions_of_textAt? (lift_shape_eq_ok.mp hname).1))]
    · rfl
  have hinstruction : ∀ b ∈ s.body, ∀ d, instruction K' sig b d = instruction K sig b d := by
    intro b hb d
    have hin : ∀ x : Tree, x.Within b → ∀ n, x.Mentions n → K'.find? n = K.find? n :=
      fun x hx n hn => hbody b hb n (hx n hn)
    refine bind_congr rfl fun ins d1 hins => bind_congr rfl fun rule d2 _ => ?_
    have hinsb : ins.Within b := Tree.within_of_child? (lift_shape_eq_ok.mp hins).1
    split
    · rfl
    split
    · rfl
    split
    · refine bind_congr rfl fun _ d3 _ => bind_congr rfl fun amount d4 hamount =>
        bind_congr rfl fun kind d5 _ => ?_
      have hamountb : amount.Within b :=
        (Tree.within_of_child? (lift_shape_eq_ok.mp hamount).1).trans hinsb
      split
      · refine bind_congr rfl fun n d6 hn => ?_
        rw [constantValue_congr (hin amount hamountb n
          (Tree.mentions_of_textAt? (lift_shape_eq_ok.mp hn).1))]
      split
      · refine bind_congr rfl fun n d6 hn => ?_
        rw [constantValue_congr (hin amount hamountb n
          (Tree.mentions_of_textAt? (lift_shape_eq_ok.mp hn).1))]
      · rfl
    split
    · refine bind_congr rfl fun _ d3 _ => bind_congr rfl fun left d4 hleft =>
        bind_congr rfl fun right d5 hright => ?_
      have hleftb : left.Within b :=
        (Tree.within_of_descend? (lift_shape_eq_ok.mp hleft).1).trans hinsb
      have hrightb : right.Within b :=
        (Tree.within_of_descend? (lift_shape_eq_ok.mp hright).1).trans hinsb
      refine bind_congr (hside left _ _ (hin left hleftb) _) fun _ d6 _ =>
        bind_congr rfl fun _ d7 _ => ?_
      exact bind_congr (hside right _ _ (hin right hrightb) _) fun _ _ _ => rfl
    · rfl
  have htransition : ∀ d, transitionText K' sig s d = transitionText K sig s d := by
    intro d
    unfold transitionText
    cases s.select with
    | none => rfl
    | some value =>
      refine bind_congr rfl fun _ d1 _ => bind_congr rfl fun _ d2 _ =>
        bind_congr rfl fun _ d3 _ => ?_
      split
      · rfl
      · refine bind_congr (forM_congr (fun e he d => ?_) _) fun _ _ _ => rfl
        dsimp only
        rw [constantValue_congr (hnext e he)]
  have hrest : ∀ d, (do
      s.body.forM (instruction K' sig)
      transitionText K' sig s
      Drafting.write "    \x7d\n" : Drafting Unit) d = (do
      s.body.forM (instruction K sig)
      transitionText K sig s
      Drafting.write "    \x7d\n" : Drafting Unit) d := by
    intro d
    exact bind_congr (forM_congr hinstruction d) fun _ d' _ =>
      bind_congr (htransition d') fun _ _ _ => rfl
  refine bind_congr rfl fun _ d1 _ => ?_
  cases s.extracted with
  | some header => exact bind_congr rfl fun _ d2 _ => hrest d2
  | none => exact hrest d1

end PacketParser

end Pathwise
