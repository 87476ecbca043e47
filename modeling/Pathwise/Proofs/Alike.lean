import Pathwise.Proofs.Files

/-!
# Two runs side by side

A step that is taken from two states that are related ends in the same way in both: with the same
result or with the same fault, and in states that are related again (`Respects`).  Two sessions are
`Alike` if they have the same files and the same was reported since they began; their constants may
differ.  Every operation of a session that does not look at the constants respects this, also in
runs that fail.
-/

namespace Pathwise

open List

namespace Steps

variable {ε σ α β : Type} {R R' : σ → σ → Prop}

/-! ### Steps that are the same -/

theorem bind_congr {x y : EStateM ε σ α} {f g : α → EStateM ε σ β} {s : σ} (hx : x s = y s)
    (hf : ∀ a s', x s = .ok a s' → f a s' = g a s') : (x >>= f) s = (y >>= g) s := by
  show EStateM.bind x f s = EStateM.bind y g s
  unfold EStateM.bind
  rw [← hx]
  cases h : x s with
  | ok a s' => exact hf a s' h
  | error e s' => rfl

theorem foldlM_congr {f g : β → α → EStateM ε σ β} :
    ∀ {xs : List α}, (∀ b, ∀ a ∈ xs, ∀ s, f b a s = g b a s) →
    ∀ (b : β) (s : σ), xs.foldlM f b s = xs.foldlM g b s := by
  intro xs
  induction xs with
  | nil => exact fun _ _ _ => rfl
  | cons a xs ih =>
    intro h b s
    rw [foldlM_cons, foldlM_cons]
    exact bind_congr (h b a mem_cons_self s) fun b' s' _ =>
      ih (fun b a ha => h b a (mem_cons_of_mem _ ha)) b' s'

theorem forM_congr {f g : α → EStateM ε σ PUnit} :
    ∀ {xs : List α}, (∀ a ∈ xs, ∀ s, f a s = g a s) → ∀ s : σ, xs.forM f s = xs.forM g s := by
  intro xs
  induction xs with
  | nil => exact fun _ _ => rfl
  | cons a xs ih =>
    intro h s
    exact bind_congr (h a mem_cons_self s) fun _ s' _ =>
      ih (fun a ha => h a (mem_cons_of_mem _ ha)) s'

theorem mapM_congr {f g : α → EStateM ε σ β} :
    ∀ {xs : List α}, (∀ a ∈ xs, ∀ s, f a s = g a s) → ∀ s : σ, xs.mapM f s = xs.mapM g s := by
  intro xs
  induction xs with
  | nil => exact fun _ _ => rfl
  | cons a xs ih =>
    intro h s
    rw [mapM_cons, mapM_cons]
    refine bind_congr (h a mem_cons_self s) fun b s' _ => ?_
    exact bind_congr (ih (fun a ha => h a (mem_cons_of_mem _ ha)) s') fun _ _ _ => rfl

/-! ### Loops -/

theorem mem_of_mapM {f : α → EStateM ε σ β} {xs : List α} {bs : List β} {s s' : σ}
    (h : xs.mapM f s = .ok bs s') :
    ∀ b ∈ bs, ∃ a ∈ xs, ∃ s1 s2, f a s1 = .ok b s2 := by
  induction h using mapM_induction with
  | nil => exact forall_mem_nil _
  | cons hb _ ih =>
    refine forall_mem_cons.mpr ⟨⟨_, mem_cons_self, _, _, hb⟩, fun b hb => ?_⟩
    obtain ⟨x, hx, hstep⟩ := ih b hb
    exact ⟨x, mem_cons_of_mem _ hx, hstep⟩

theorem mem_of_filterM {p : α → Except ε Bool} {xs ys : List α} (h : xs.filterM p = .ok ys) {y : α}
    (hy : y ∈ ys) :
    y ∈ xs := by
  have hloop : ∀ (xs acc : List α) {ys : List α}, xs.filterAuxM p acc = .ok ys → ∀ y ∈ ys, y ∈ xs ∨
      y ∈ acc := by
    intro xs
    induction xs with
    | nil =>
      intro acc ys h y hy
      obtain rfl := Except.ok.inj h
      exact .inr hy
    | cons x xs ih =>
      intro acc ys h y hy
      obtain ⟨b, _, h⟩ := except_bind_eq_ok.mp h
      cases b with
      | true => grind [ih _ h y hy]
      | false => grind [ih _ h y hy]
  obtain ⟨zs, hzs, h⟩ := except_bind_eq_ok.mp
    (show (xs.filterAuxM p [] >>= fun zs => pure zs.reverse) = .ok ys from h)
  obtain rfl := Except.ok.inj h
  simpa using hloop xs [] hzs y (by simpa using hy)

/-! ### Steps that end in the same way -/

/-- Both steps end with the same result or with the same fault, and in states that are related. -/
inductive Matched (R : σ → σ → Prop) : EStateM.Result ε σ α → EStateM.Result ε σ α → Prop
  | ok {a : α} {s t : σ} : R s t → Matched R (.ok a s) (.ok a t)
  | error {e : ε} {s t : σ} : R s t → Matched R (.error e s) (.error e t)

namespace Matched

theorem mono {r r' : EStateM.Result ε σ α} (h : Matched R r r') (hR : ∀ s t, R s t → R' s t) :
    Matched R' r r' := by
  cases h with
  | ok h => exact .ok (hR _ _ h)
  | error h => exact .error (hR _ _ h)

theorem bind {x y : EStateM ε σ α} {f g : α → EStateM ε σ β} {s t : σ} (h : Matched R (x s) (y t))
    (hR : ∀ s t, R s t → R' s t)
    (hf : ∀ a s' t', x s = .ok a s' → y t = .ok a t' → R s' t' → Matched R' (f a s') (g a t')) :
    Matched R' ((x >>= f) s) ((y >>= g) t) := by
  show Matched R' (EStateM.bind x f s) (EStateM.bind y g t)
  unfold EStateM.bind
  generalize hx : x s = r at h
  generalize hy : y t = r' at h
  cases h with
  | ok h => exact hf _ _ _ hx hy h
  | error h => exact .error (hR _ _ h)

theorem eq_ok {r r' : EStateM.Result ε σ α} {a : α} {s : σ} (h : Matched R r r')
    (hr : r = .ok a s) :
    ∃ t, r' = .ok a t ∧ R s t := by
  subst hr
  cases h with
  | ok h => exact ⟨_, rfl, h⟩

end Matched

/-- The state that a step ends in, with a result or with a fault. -/
def final : EStateM.Result ε σ α → σ
  | .ok _ s => s
  | .error _ s => s

theorem Matched.final {r r' : EStateM.Result ε σ α} (h : Matched R r r') :
    R (final r) (final r') := by
  cases h with
  | ok h => exact h
  | error h => exact h

theorem final_bind (Q : σ → Prop) {x : EStateM ε σ α} {f : α → EStateM ε σ β} {s : σ}
    (herror : ∀ e s', x s = .error e s' → Q s')
    (hok : ∀ a s', x s = .ok a s' → Q (final (f a s'))) : Q (final ((x >>= f) s)) := by
  show Q (final (EStateM.bind x f s))
  unfold EStateM.bind
  cases h : x s with
  | ok a s' => exact hok a s' h
  | error e s' => exact herror e s' h

/-- From states that are related, the step ends in the same way and in related states. -/
def Respects (R : σ → σ → Prop) (x : EStateM ε σ α) : Prop :=
  ∀ s t, R s t → Matched R (x s) (x t)

namespace Respects

theorem pure (a : α) : Respects R (pure a : EStateM ε σ α) :=
  fun _ _ h => .ok h

theorem throw (e : ε) : Respects R (throw e : EStateM ε σ α) :=
  fun _ _ h => .error h

theorem bind {x : EStateM ε σ α} {f : α → EStateM ε σ β} (hx : Respects R x)
    (hf : ∀ a, Respects R (f a)) :
    Respects R (x >>= f) :=
  fun s t h => (hx s t h).bind (fun _ _ => id) fun a s' t' _ _ h' => hf a s' t' h'

theorem use {x : EStateM ε σ α} {f : α → EStateM ε σ β} (hx : Respects R x)
    (hf : ∀ s t a s', R s t → x s = .ok a s' → Respects R (f a)) : Respects R (x >>= f) :=
  fun s t h => (hx s t h).bind (fun _ _ => id) fun a s' t' hs _ h' => hf s t a s' h hs s' t' h'

theorem get_bind {f : σ → EStateM ε σ α} (hsame : ∀ s t, R s t → f s = f t)
    (hf : ∀ s t, R s t → Respects R (f s)) :
    Respects R (get >>= f) := by
  intro s t h
  show Matched R (f s s) (f t t)
  rw [← hsame s t h]
  exact hf s t h s t h

theorem modify {f : σ → σ} (hf : ∀ s t, R s t → R (f s) (f t)) :
    Respects R (modify f : EStateM ε σ PUnit) :=
  fun s t h => .ok (hf s t h)

theorem sequential : Sequential fun {α : Type} (x : EStateM ε σ α) => Respects R x :=
  ⟨pure, throw, fun hx hf => use hx fun s _ a s' _ h => hf s a s' h⟩

theorem shape (x : Except ShapeError α) : Respects R (liftM x : EStateM Fault σ α) :=
  sequential.shape x

theorem mismatch (x : Except Mismatch α) : Respects R (liftM x : EStateM Fault σ α) :=
  sequential.mismatch x

theorem fault (x : Except Fault α) : Respects R (liftM x : EStateM Fault σ α) :=
  sequential.fault x

theorem forM {f : α → EStateM ε σ PUnit} (xs : List α) (hf : ∀ a ∈ xs, Respects R (f a)) :
    Respects R (xs.forM f) :=
  sequential.forM xs hf

theorem mapM {f : α → EStateM ε σ β} (xs : List α) (hf : ∀ a ∈ xs, Respects R (f a)) :
    Respects R (xs.mapM f) :=
  sequential.mapM xs hf

end Respects

end Steps

open Steps

/-! ### Sessions -/

variable {front path : String} {old : OrderedMap String String × OrderedMap String String}
  {α : Type}

/-- The files are the same, the constants are the two given ones, and the first console shows the
second one's text behind a front. -/
structure Alike (front : String) (old : OrderedMap String String × OrderedMap String String)
    (s t : Session) : Prop where
  home : t.home = s.home
  disk : t.disk = s.disk
  constants : (s.constants, t.constants) = old
  console : s.console = front ++ t.console

namespace Alike

theorem respects_report {x : Report α} (hx : Blind x) : Respects (Alike front old)
    (liftM x : Run α) := by
  intro s t h
  have hlift : ∀ s : Session, (liftM x : Run α) s = mapState (fun c => { s with console := c })
      (x s.console) := fun _ => rfl
  obtain ⟨r, said, hr⟩ := hx
  have hsaid : s.console ++ said = front ++ (t.console ++ said) := by
    rw [h.console, String.append_assoc]
  rw [hlift, hlift, hr, hr]
  cases r with
  | ok a => exact .ok { h with console := hsaid }
  | error e => exact .error { h with console := hsaid }

theorem respects_locate (path : String) : Respects (Alike front old) (Run.locate path) := by
  refine .get_bind (fun s t h => ?_) fun s t h => ?_
  · rw [h.disk, h.home]
  · split
    · exact .pure _
    · exact .throw _

theorem respects_read (path : String) : Respects (Alike front old) (Run.read path) := by
  have hraw : Respects (Alike front old) (Run.readRaw path) := by
    refine .bind (respects_locate path) fun p => .get_bind (fun s t h => ?_) fun s t h => ?_
    · rw [h.disk]
    · dsimp only
      split
      · exact .pure _
      · exact .throw _
  rw [Run.read, map_eq_pure_bind]
  exact .bind hraw fun _ => .pure _

theorem respects_readJson (path : String) : Respects (Alike front old) (Run.readJson path) := by
  refine .bind (respects_read path) fun text => ?_
  split
  · exact .pure _
  · exact .throw _

theorem respects_locateForWriting (path : String) : Respects (Alike front old)
    (Run.locateForWriting path) := by
  refine .bind (respects_locate path) fun p => .get_bind (fun s t h => ?_) fun s t h => ?_
  · rw [h.disk]
  · dsimp only
    split
    · exact .throw _
    · exact .pure _

theorem respects_create (path text : String) : Respects (Alike front old) (Run.create path text) :=
  .bind (respects_locateForWriting path) fun p => .modify fun _ _ h =>
    { h with disk := congrArg (Disk.put · p text) h.disk }

theorem respects_append (path text : String) : Respects (Alike front old) (Run.append path text) :=
  .bind (respects_locateForWriting path) fun p => .modify fun _ _ h =>
    { h with disk := congrArg (Disk.extend · p text) h.disk }

end Alike

/-! ### Drafts -/

/-- The texts are the same, and the first console shows the second one's text behind a front. -/
def Draft.Alike (front : String) (d e : Draft) : Prop :=
  e.text = d.text ∧ d.console = front ++ e.console

namespace Draft.Alike

theorem respects_write (text : String) : Respects (Draft.Alike front) (Drafting.write text) :=
  .modify fun _ _ h => ⟨congrArg (· ++ text) h.1, h.2⟩

theorem respects_report {x : Report α} (hx : Blind x) : Respects (Draft.Alike front)
    (liftM x : Drafting α) := by
  intro d e h
  have hlift : ∀ d : Draft, (liftM x : Drafting α) d = mapState (fun c => { d with console := c })
      (x d.console) := fun _ => rfl
  obtain ⟨r, said, hr⟩ := hx
  have hsaid : d.console ++ said = front ++ (e.console ++ said) := by rw [h.2, String.append_assoc]
  rw [hlift, hlift, hr, hr]
  cases r with
  | ok a => exact .ok ⟨h.1, hsaid⟩
  | error e => exact .error ⟨h.1, hsaid⟩

end Draft.Alike

theorem Alike.respects_draft (path : String) {x : Drafting α}
    (hx : Respects (Draft.Alike front) x) :
    Respects (Alike front old) (Run.draft path x) := by
  refine .bind (respects_append path "") fun _ => ?_
  intro s t h
  have hafter : ∀ (d e : Draft) (y : Run α), Respects (Alike front old) y → Draft.Alike front d e →
      Matched (Alike front old)
      ((do
        modify fun s => { s with console := d.console }
        Run.append path d.text
        y : Run α) s)
      ((do
        modify fun s => { s with console := e.console }
        Run.append path e.text
        y : Run α) t) := by
    intro d e y hy hde
    rw [hde.1]
    exact (Respects.bind (respects_append path d.text) fun _ => hy) _ _ { h with console := hde.2 }
  rw [get_bind, get_bind]
  have hdrafts := hx ⟨s.console, ""⟩ ⟨t.console, ""⟩ ⟨rfl, h.console⟩
  generalize x ⟨s.console, ""⟩ = r at hdrafts
  generalize x ⟨t.console, ""⟩ = r' at hdrafts
  cases hdrafts with
  | ok hd => exact hafter _ _ _ (.pure _) hd
  | error hd => exact hafter _ _ _ (.throw _) hd

end Pathwise
