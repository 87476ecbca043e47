import Pathwise.Fault

/-!
# Steps that succeed

Most of this library is written with steps that change a state and may stop with a fault
(`EStateM`).  The lemmas here take a step apart that is known to have succeeded: a sequence of steps
succeeds if each of them does, a step that was lifted from a smaller state leaves the rest alone,
and what every pass of a loop keeps is kept by the loop.  A report that is `Quiet` gives a result
that does not depend on what was reported before.
-/

namespace Pathwise.Steps

open List

variable {ε σ α β : Type} {s s' : σ}

variable {c c' : String} {u : PUnit} {γ : Type}

theorem bind_eq_ok {x : EStateM ε σ α} {f : α → EStateM ε σ β} {b : β} :
    (x >>= f) s = .ok b s' ↔ ∃ a s1, x s = .ok a s1 ∧ f a s1 = .ok b s' := by
  constructor
  · intro h
    simp only [bind, EStateM.bind] at h
    cases hx : x s with
    | ok a s1 => rw [hx] at h; exact ⟨a, s1, rfl, h⟩
    | error e s1 => rw [hx] at h; cases h
  · rintro ⟨a, s1, hx, hf⟩
    simp only [bind, EStateM.bind, hx]
    exact hf

theorem bind_of_ok {x : EStateM ε σ α} {f : α → EStateM ε σ β} {a : α} (h : x s = .ok a s') :
    (x >>= f) s = f a s' := by
  show EStateM.bind x f s = f a s'
  rw [EStateM.bind, h]

theorem bind_of_error {x : EStateM ε σ α} {f : α → EStateM ε σ β} {e : ε} (h : x s = .error e s') :
    (x >>= f) s = .error e s' := by
  show EStateM.bind x f s = _
  rw [EStateM.bind, h]

theorem pure_eq_ok {a b : α} : (pure a : EStateM ε σ α) s = .ok b s' ↔ a = b ∧ s = s' := by
  constructor
  · intro h; cases h; exact ⟨rfl, rfl⟩
  · rintro ⟨rfl, rfl⟩; rfl

theorem throw_ne_ok {e : ε} {b : α} : (throw e : EStateM ε σ α) s ≠ .ok b s' := by
  intro h; cases h

theorem halt_ne_ok {line : String} {b : α} : (Report.halt line : Report α) c ≠ .ok b c' := by
  intro h; cases h

/-- A step that was chosen succeeded, if it is not asked why it was chosen. -/
theorem ite_eq_ok {p : Prop} [Decidable p] {x y : EStateM ε σ α} {a : α}
    (h : (if p then x else y) s = .ok a s') :
    x s = .ok a s' ∨ y s = .ok a s' := by
  by_cases hp : p
  · exact .inl (by rwa [if_pos hp] at h)
  · exact .inr (by rwa [if_neg hp] at h)

theorem get_eq_ok {b : σ} : (get : EStateM ε σ σ) s = .ok b s' ↔ s = b ∧ s = s' := by
  constructor
  · intro h; cases h; exact ⟨rfl, rfl⟩
  · rintro ⟨rfl, rfl⟩; rfl

theorem modify_eq_ok {f : σ → σ} {b : PUnit} : (modify f : EStateM ε σ PUnit) s = .ok b s' ↔
    f s = s' := by
  constructor
  · intro h; cases h; rfl
  · rintro rfl; rfl

theorem lift_shape_eq_ok {x : Except ShapeError α} {a : α} :
    (liftM x : EStateM Fault σ α) s = .ok a s' ↔ x = .ok a ∧ s = s' := by
  cases x with
  | ok b =>
    constructor
    · intro h; cases h; exact ⟨rfl, rfl⟩
    · rintro ⟨h, rfl⟩; cases h; rfl
  | error e =>
    constructor
    · intro h; cases h
    · rintro ⟨h, _⟩; cases h

theorem lift_fault_eq_ok {x : Except Fault α} {a : α} :
    (liftM x : EStateM Fault σ α) s = .ok a s' ↔ x = .ok a ∧ s = s' := by
  cases x with
  | ok b =>
    constructor
    · intro h; cases h; exact ⟨rfl, rfl⟩
    · rintro ⟨h, rfl⟩; cases h; rfl
  | error e =>
    constructor
    · intro h; cases h
    · rintro ⟨h, _⟩; cases h

theorem lift_mismatch_eq_ok {x : Except Mismatch α} {a : α} :
    (liftM x : EStateM Fault σ α) s = .ok a s' ↔ x = .ok a ∧ s = s' := by
  cases x with
  | ok b =>
    constructor
    · intro h; cases h; exact ⟨rfl, rfl⟩
    · rintro ⟨h, rfl⟩; cases h; rfl
  | error e =>
    constructor
    · intro h; cases h
    · rintro ⟨h, _⟩; cases h

/-- The result of a report, in a state with the console. -/
def mapState (f : String → σ) : EStateM.Result Fault String α → EStateM.Result Fault σ α
  | .ok a s => .ok a (f s)
  | .error e s => .error e (f s)

theorem get_bind {f : σ → EStateM ε σ β} : (get >>= f) s = f s s := rfl

theorem bind_pure_eq_ok {x : EStateM ε σ α} {g : α → β} {b : β} :
    (x >>= fun a => pure (g a)) s = .ok b s' ↔ ∃ a, x s = .ok a s' ∧ g a = b := by
  simp only [bind_eq_ok, pure_eq_ok]
  exact ⟨fun ⟨a, _, hx, hb, hs⟩ => ⟨a, hs ▸ hx, hb⟩, fun ⟨a, hx, hb⟩ => ⟨a, s', hx, hb, rfl⟩⟩

theorem bind_still_eq_ok {x : EStateM ε σ α} {P : α → Prop}
    (hx : ∀ {a s1}, x s = .ok a s1 ↔ P a ∧ s = s1) {f : α → EStateM ε σ β} {b : β} :
    (x >>= f) s = .ok b s' ↔ ∃ a, P a ∧ f a s = .ok b s' := by
  simp only [bind_eq_ok, hx]
  exact ⟨fun ⟨a, _, ⟨ha, hs⟩, h⟩ => ⟨a, ha, hs ▸ h⟩, fun ⟨a, ha, h⟩ => ⟨a, s, ⟨ha, rfl⟩, h⟩⟩

theorem bind_shape_eq_ok {x : Except ShapeError α} {f : α → EStateM Fault σ β} {b : β} :
    ((liftM x : EStateM Fault σ α) >>= f) s = .ok b s' ↔ ∃ a, x = .ok a ∧ f a s = .ok b s' :=
  bind_still_eq_ok lift_shape_eq_ok

theorem bind_fault_eq_ok {x : Except Fault α} {f : α → EStateM Fault σ β} {b : β} :
    ((liftM x : EStateM Fault σ α) >>= f) s = .ok b s' ↔ ∃ a, x = .ok a ∧ f a s = .ok b s' :=
  bind_still_eq_ok lift_fault_eq_ok

theorem bind_mismatch_eq_ok {x : Except Mismatch α} {f : α → EStateM Fault σ β} {b : β} :
    ((liftM x : EStateM Fault σ α) >>= f) s = .ok b s' ↔ ∃ a, x = .ok a ∧ f a s = .ok b s' :=
  bind_still_eq_ok lift_mismatch_eq_ok

theorem except_bind_eq_ok {x : Except ε α} {f : α → Except ε β} {b : β} :
    (x >>= f) = .ok b ↔ ∃ a, x = .ok a ∧ f a = .ok b := by
  cases x with
  | ok a =>
    constructor
    · intro h; exact ⟨a, rfl, h⟩
    · rintro ⟨a', ha, h⟩; cases ha; exact h
  | error e =>
    constructor
    · intro h; cases h
    · rintro ⟨a, ha, _⟩; cases ha

theorem except_mapM_eq_ok {f : α → Except ε β} : ∀ (xs : List α) {ys : List β}, xs.mapM f = .ok ys →
    (∀ x ∈ xs, ∃ y ∈ ys, f x = .ok y) ∧ ∀ y ∈ ys, ∃ x ∈ xs, f x = .ok y := by
  intro xs
  induction xs with
  | nil =>
    intro ys h
    cases h
    exact ⟨forall_mem_nil _, forall_mem_nil _⟩
  | cons x xs ih =>
    intro ys h
    rw [mapM_cons] at h
    obtain ⟨y, hy, h⟩ := except_bind_eq_ok.mp h
    obtain ⟨ys', hys, h⟩ := except_bind_eq_ok.mp h
    cases h
    obtain ⟨hx, hy'⟩ := ih hys
    refine ⟨forall_mem_cons.mpr ⟨⟨y, mem_cons_self, hy⟩, fun x' hx' => ?_⟩,
      forall_mem_cons.mpr ⟨⟨x, mem_cons_self, hy⟩, fun y' hmem => ?_⟩⟩
    · obtain ⟨y', hmem, h⟩ := hx x' hx'
      exact ⟨y', mem_cons_of_mem _ hmem, h⟩
    · obtain ⟨x', hmem, h⟩ := hy' y' hmem
      exact ⟨x', mem_cons_of_mem _ hmem, h⟩

theorem except_foldlM_keeps {f : β → α → Except ε β} (P : β → Prop)
    (hf : ∀ b a b', P b → f b a = .ok b' → P b') :
    ∀ (xs : List α) {b b' : β}, P b → xs.foldlM f b = .ok b' → P b' := by
  intro xs
  induction xs with
  | nil =>
    intro b b' hb h
    cases h
    exact hb
  | cons x xs ih =>
    intro b b' hb h
    rw [foldlM_cons] at h
    obtain ⟨b1, h1, h2⟩ := except_bind_eq_ok.mp h
    exact ih (hf b x b1 hb h1) h2

theorem eq_ok_of_toOption {x : Except ε α} {a : α} (h : x.toOption = some a) : x = .ok a := by
  cases x with
  | ok b => cases h; rfl
  | error e => cases h

/-- Whether a step succeeded. -/
def succeeded : EStateM.Result ε σ α → Bool
  | .ok _ _ => true
  | .error _ _ => false

theorem exists_ok_of_succeeded {r : EStateM.Result ε σ α} (h : succeeded r = true) :
    ∃ a s, r = .ok a s := by
  cases r with
  | ok a s => exact ⟨a, s, rfl⟩
  | error e s => cases h

/-- Whether a step succeeded and the state after it passes the test. -/
def succeededWith (P : σ → Bool) : EStateM.Result ε σ α → Bool
  | .ok _ s => P s
  | .error _ _ => false

theorem exists_ok_of_succeededWith {P : σ → Bool} {r : EStateM.Result ε σ α}
    (h : succeededWith P r = true) :
    ∃ a s, r = .ok a s ∧ P s = true := by
  cases r with
  | ok a s => exact ⟨a, s, rfl, h⟩
  | error e s => cases h

/-- Whether the result of a step, if it succeeded, passes the test. -/
def onlyGives (P : α → Bool) : EStateM.Result ε σ α → Bool
  | .ok a _ => P a
  | .error _ _ => true

theorem of_onlyGives {P : α → Bool} {r : EStateM.Result ε σ α} {a : α} (h : onlyGives P r = true)
    (hr : r = .ok a s) :
    P a = true := by
  rw [hr] at h
  exact h

/-- Whether a step succeeded with a result and a state that pass the test. -/
def passes (P : α → σ → Bool) : EStateM.Result ε σ α → Bool
  | .ok a s => P a s
  | .error _ _ => false

theorem exists_ok_of_passes {P : α → σ → Bool} {r : EStateM.Result ε σ α} (h : passes P r = true) :
    ∃ a s, r = .ok a s ∧ P a s = true := by
  cases r with
  | ok a s => exact ⟨a, s, rfl, h⟩
  | error e s => cases h

/-! ### Loops -/

theorem forM_nil_eq_ok {f : α → EStateM ε σ PUnit} : ([] : List α).forM f s = .ok u s' ↔ s = s' :=
  ⟨fun h => (pure_eq_ok.mp h).2, fun h => pure_eq_ok.mpr ⟨rfl, h⟩⟩

theorem forM_cons_eq_ok {f : α → EStateM ε σ PUnit} {x : α} {xs : List α} :
    (x :: xs).forM f s = .ok u s' ↔ ∃ s1, f x s = .ok ⟨⟩ s1 ∧ xs.forM f s1 = .ok u s' := by
  have hcons : (x :: xs).forM f = (f x >>= fun _ => xs.forM f) := rfl
  rw [hcons, bind_eq_ok]
  exact ⟨fun ⟨_, s1, h⟩ => ⟨s1, h⟩, fun ⟨s1, h⟩ => ⟨⟨⟩, s1, h⟩⟩

theorem forM_append_eq_ok {f : α → EStateM ε σ PUnit} {xs ys : List α} :
    (xs ++ ys).forM f s = .ok u s' ↔ ∃ s1, xs.forM f s = .ok ⟨⟩ s1 ∧ ys.forM f s1 = .ok u s' := by
  induction xs generalizing s with
  | nil => exact ⟨fun h => ⟨s, rfl, h⟩, fun ⟨s1, h1, h2⟩ => forM_nil_eq_ok.mp h1 ▸ h2⟩
  | cons x xs ih =>
    simp only [cons_append, forM_cons_eq_ok, ih]
    exact ⟨fun ⟨s1, h1, s2, h2, h3⟩ => ⟨s2, ⟨s1, h1, h2⟩, h3⟩,
      fun ⟨s2, ⟨s1, h1, h2⟩, h3⟩ => ⟨s1, h1, s2, h2, h3⟩⟩

/-- A loop has no passes, or a first one and others. -/
theorem foldlM_induction {f : β → α → EStateM ε σ β}
    {motive : ∀ (xs : List α) (b : β) (s : σ) (b' : β) (s' : σ), xs.foldlM f b s = .ok b' s' → Prop}
    (nil : ∀ {b s h}, motive [] b s b s h)
    (cons : ∀ {a xs b s b1 s1 b2 s2 h}, f b a s = .ok b1 s1 → ∀ hxs : xs.foldlM f b1 s1 = .ok b2 s2,
      motive xs b1 s1 b2 s2 hxs → motive (a :: xs) b s b2 s2 h)
    {xs : List α} {b : β} {s : σ} {b' : β} {s' : σ} (h : xs.foldlM f b s = .ok b' s') :
    motive xs b s b' s' h := by
  induction xs generalizing b s with
  | nil =>
    obtain ⟨rfl, rfl⟩ := pure_eq_ok.mp h
    exact nil
  | cons a xs ih =>
    obtain ⟨b1, s1, h1, h2⟩ := bind_eq_ok.mp ((congrFun foldlM_cons s).symm.trans h)
    exact cons h1 h2 (ih h2)

theorem mapM_induction {f : α → EStateM ε σ β}
    {motive : ∀ (xs : List α) (s : σ) (bs : List β) (s' : σ), xs.mapM f s = .ok bs s' → Prop}
    (nil : ∀ {s h}, motive [] s [] s h)
    (cons : ∀ {a xs s b s1 bs s2 h}, f a s = .ok b s1 → ∀ hxs : xs.mapM f s1 = .ok bs s2,
      motive xs s1 bs s2 hxs → motive (a :: xs) s (b :: bs) s2 h)
    {xs : List α} {s : σ} {bs : List β} {s' : σ} (h : xs.mapM f s = .ok bs s') :
    motive xs s bs s' h := by
  induction xs generalizing s bs with
  | nil =>
    obtain ⟨rfl, rfl⟩ := pure_eq_ok.mp h
    exact nil
  | cons a xs ih =>
    obtain ⟨b, s1, hb, h'⟩ := bind_eq_ok.mp ((congrFun mapM_cons s).symm.trans h)
    obtain ⟨bs, hbs, rfl⟩ := bind_pure_eq_ok.mp h'
    exact cons hb hbs (ih hbs)

theorem foldlM_keeps_of_mem {f : β → α → EStateM ε σ β} (P : β → Prop) (xs : List α)
    (hf : ∀ b, ∀ a ∈ xs, ∀ s b' s', P b → f b a s = .ok b' s' → P b') {b b' : β}
    {s s' : σ} (hb : P b) (h : xs.foldlM f b s = .ok b' s') : P b' := by
  induction h using foldlM_induction with
  | nil => exact hb
  | cons h1 _ ih =>
    exact ih (fun b a ha => hf b a (mem_cons_of_mem _ ha)) (hf _ _ mem_cons_self _ _ _ hb h1)

/-- **What every pass of a loop keeps is kept by the loop.** -/
theorem foldlM_keeps {f : β → α → EStateM ε σ β} (P : β → Prop)
    (hf : ∀ b a s b' s', P b → f b a s = .ok b' s' → P b') (xs : List α) {b b' : β} {s s' : σ}
    (hb : P b) (h : xs.foldlM f b s = .ok b' s') : P b' :=
  foldlM_keeps_of_mem P xs (fun b a _ => hf b a) hb h

/-- **What the passes of a loop add, one after another, the loop adds.** -/
theorem foldlM_adds {f : β → α → EStateM ε σ β} {R : List α → β → β → Prop} (hnil : ∀ b, R [] b b)
    (happend : ∀ {a xs b b1 b2}, R [a] b b1 → R xs b1 b2 → R (a :: xs) b b2) {xs : List α}
    (hf : ∀ a ∈ xs, ∀ {b s b' s'}, f b a s = .ok b' s' → R [a] b b') {b b' : β} {s s' : σ}
    (h : xs.foldlM f b s = .ok b' s') :
    R xs b b' := by
  induction h using foldlM_induction with
  | nil => exact hnil _
  | cons h1 _ ih =>
    obtain ⟨ha, hxs⟩ := forall_mem_cons.mp hf
    exact happend (ha h1) (ih hxs)

theorem foldlM_all {f : Bool → α → EStateM ε σ Bool} (P : α → Prop)
    (hf : ∀ b a s s', f b a s = .ok true s' → b = true ∧ P a) (xs : List α) {b : Bool} {s s' : σ} :
    xs.foldlM f b s = .ok true s' → b = true ∧ ∀ x ∈ xs, P x := by
  suffices h : ∀ b', xs.foldlM f b s = .ok b' s' → b' = true → b = true ∧
      ∀ x ∈ xs, P x from fun hxs => h true hxs rfl
  intro b' h hb
  induction h using foldlM_induction with
  | nil => exact ⟨hb, forall_mem_nil _⟩
  | cons h1 _ ih =>
    obtain ⟨rfl, hall⟩ := ih hb
    obtain ⟨hb, hx⟩ := hf _ _ _ _ h1
    exact ⟨hb, forall_mem_cons.mpr ⟨hx, hall⟩⟩

theorem mapM_eq_some {f : α → EStateM ε σ β} {g : α → Option β}
    (hf : ∀ a s b s', f a s = .ok b s' → g a = some b) (xs : List α) {bs : List β} {s s' : σ}
    (h : xs.mapM f s = .ok bs s') :
    xs.mapM g = some bs := by
  induction h using mapM_induction with
  | nil => rfl
  | cons hb _ ih =>
    rw [mapM_cons, hf _ _ _ _ hb, ih]
    rfl

theorem map_eq_of_mapM {f : α → EStateM ε σ β} {g : α → γ} {k : β → γ}
    (hf : ∀ a s b s', f a s = .ok b s' → k b = g a) (xs : List α) {bs : List β} {s s' : σ}
    (h : xs.mapM f s = .ok bs s') :
    bs.map k = xs.map g := by
  induction h using mapM_induction with
  | nil => rfl
  | cons hb _ ih => rw [map_cons, map_cons, hf _ _ _ _ hb, ih]

theorem mapM_map_eq_some {f : α → Option β} (g : β → γ) : ∀ {xs : List α} {ys : List β},
    xs.mapM f = some ys → xs.mapM (fun x => (f x).map g) = some (ys.map g) := by
  intro xs
  induction xs with
  | nil =>
    intro ys h
    cases h
    rfl
  | cons x xs ih =>
    intro ys h
    rw [mapM_cons] at h
    simp only [Option.bind_eq_bind, Option.bind_eq_some_iff] at h
    obtain ⟨y, hy, ys', hys, h⟩ := h
    cases h
    rw [mapM_cons, hy, ih hys]
    rfl

theorem mapM_all {f : α → EStateM ε σ β} (P : β → Prop) (xs : List α) {bs : List β} {s s' : σ}
    (hf : ∀ a ∈ xs, ∀ s b s', f a s = .ok b s' → P b) (h : xs.mapM f s = .ok bs s') :
    bs.length = xs.length ∧ ∀ b ∈ bs, P b := by
  induction h using mapM_induction with
  | nil => exact ⟨rfl, forall_mem_nil _⟩
  | cons hb _ ih =>
    obtain ⟨hx, hxs⟩ := forall_mem_cons.mp hf
    obtain ⟨hlen, hall⟩ := ih hxs
    exact ⟨congrArg (· + 1) hlen, forall_mem_cons.mpr ⟨hx _ _ _ hb, hall⟩⟩

theorem mapM_stays {f : α → EStateM ε σ β} {g : α → β} {xs : List α} {bs : List β}
    (hf : ∀ a ∈ xs, ∀ b s', f a s = .ok b s' → s = s' ∧ b = g a) (h : xs.mapM f s = .ok bs s') :
    s = s' ∧ bs = xs.map g ∧ ∀ a ∈ xs, f a s = .ok (g a) s := by
  induction h using mapM_induction with
  | nil => exact ⟨rfl, rfl, forall_mem_nil _⟩
  | cons hb _ ih =>
    obtain ⟨hx, hxs⟩ := forall_mem_cons.mp hf
    obtain ⟨rfl, rfl⟩ := hx _ _ hb
    obtain ⟨rfl, rfl, hall⟩ := ih hxs
    exact ⟨rfl, rfl, forall_mem_cons.mpr ⟨hb, hall⟩⟩

theorem flatMapM_eq_ok {f : α → EStateM ε σ (List β)} {xs : List α} {bs : List β} :
    xs.flatMapM f s = .ok bs s' ↔ ∃ bss, xs.mapM f s = .ok bss s' ∧ bs = bss.flatten := by
  have hloop : ∀ (xs : List α) (done : List (List β)) (s : σ) (bs : List β),
      List.flatMapM.loop f xs done s = .ok bs s' ↔
        ∃ bss, xs.mapM f s = .ok bss s' ∧ bs = done.reverse.flatten ++ bss.flatten := by
    intro xs
    induction xs with
    | nil =>
      intro done s bs
      simp only [List.flatMapM.loop, mapM_nil, pure_eq_ok]
      constructor
      · rintro ⟨rfl, rfl⟩
        exact ⟨[], ⟨rfl, rfl⟩, by simp⟩
      · rintro ⟨_, ⟨rfl, rfl⟩, rfl⟩
        exact ⟨by simp, rfl⟩
    | cons x xs ih =>
      intro done s bs
      simp only [List.flatMapM.loop, mapM_cons, bind_eq_ok, pure_eq_ok, ih]
      constructor
      · rintro ⟨b, s1, hb, bss, hbss, rfl⟩
        exact ⟨b :: bss, ⟨b, s1, hb, bss, s', hbss, rfl, rfl⟩, by simp⟩
      · rintro ⟨_, ⟨b, s1, hb, bss, _, hbss, rfl, rfl⟩, rfl⟩
        exact ⟨b, s1, hb, bss, hbss, by simp⟩
  rw [List.flatMapM, hloop]
  simp

/-! ### Whatever is made of steps -/

/-- What holds of single steps, and of steps one after another. -/
structure Sequential (K : ∀ {α : Type}, EStateM ε σ α → Prop) : Prop where
  pure : ∀ {α : Type} (a : α), K (pure a : EStateM ε σ α)
  throw : ∀ {α : Type} (e : ε), K (throw e : EStateM ε σ α)
  use : ∀ {α β : Type} {x : EStateM ε σ α} {f : α → EStateM ε σ β}, K x →
    (∀ s a s', x s = .ok a s' → K (f a)) → K (x >>= f)

namespace Sequential

variable {K : ∀ {α : Type}, EStateM ε σ α → Prop} (h : Sequential K)

include h

theorem bind {x : EStateM ε σ α} {f : α → EStateM ε σ β} (hx : K x) (hf : ∀ a, K (f a)) :
    K (x >>= f) :=
  h.use hx fun _ a _ _ => hf a

theorem forM {f : α → EStateM ε σ PUnit} : ∀ xs : List α, (∀ a ∈ xs, K (f a)) → K (xs.forM f)
  | [], _ => h.pure _
  | a :: xs, hf =>
    h.bind (hf a mem_cons_self) fun _ => forM xs fun a ha => hf a (mem_cons_of_mem _ ha)

theorem foldlM {f : β → α → EStateM ε σ β} : ∀ xs : List α, (∀ b, ∀ a ∈ xs, K (f b a)) →
    ∀ b, K (xs.foldlM f b)
  | [], _, b => h.pure b
  | a :: xs, hf, b => by
    rw [foldlM_cons]
    exact h.bind (hf b a mem_cons_self) (foldlM xs fun b a ha => hf b a (mem_cons_of_mem _ ha))

theorem mapM {f : α → EStateM ε σ β} : ∀ xs : List α, (∀ a ∈ xs, K (f a)) → K (xs.mapM f)
  | [], _ => h.pure _
  | a :: xs, hf => by
    rw [mapM_cons]
    refine h.bind (hf a mem_cons_self) fun _ => h.bind (mapM xs fun a ha => ?_) fun _ => h.pure _
    exact hf a (mem_cons_of_mem _ ha)

theorem flatMapM {f : α → EStateM ε σ (List β)} (xs : List α) (hf : ∀ a ∈ xs, K (f a)) :
    K (xs.flatMapM f) := by
  have hloop : ∀ (xs : List α) (acc : List (List β)), (∀ a ∈ xs, K (f a)) →
      K (List.flatMapM.loop f xs acc) := by
    intro xs
    induction xs with
    | nil => exact fun acc _ => h.pure _
    | cons a xs ih =>
      intro acc hf
      obtain ⟨ha, hxs⟩ := forall_mem_cons.mp hf
      exact h.bind ha fun b => ih _ hxs
  exact hloop xs [] hf

theorem forIn {f : α → β → EStateM ε σ (ForInStep β)} (hf : ∀ a b, K (f a b))
    (xs : List α) (b : β) :
    K (forIn xs b f : EStateM ε σ β) := by
  induction xs generalizing b with
  | nil =>
    rw [forIn_nil]
    exact h.pure b
  | cons x xs ih =>
    rw [forIn_cons]
    refine h.bind (hf x b) fun r => ?_
    cases r with
    | done b => exact h.pure b
    | yield b => exact ih b

theorem filterM {f : α → EStateM ε σ Bool} (hf : ∀ a, K (f a)) (xs : List α) :
    K (xs.filterM f) := by
  have haux : ∀ xs kept : List α, K (List.filterAuxM f xs kept) := by
    intro xs
    induction xs with
    | nil => exact fun kept => h.pure _
    | cons a xs ih => exact fun kept => h.bind (hf a) fun b => ih _
  exact h.bind (haux xs []) fun _ => h.pure _

end Sequential

namespace Sequential

variable {K : ∀ {α : Type}, EStateM Fault σ α → Prop} (h : Sequential K)

include h

theorem shape (x : Except ShapeError α) : K (liftM x : EStateM Fault σ α) := by
  cases x with
  | ok a => exact h.pure a
  | error e => exact h.throw _

theorem mismatch (x : Except Mismatch α) : K (liftM x : EStateM Fault σ α) := by
  cases x with
  | ok a => exact h.pure a
  | error e => exact h.throw _

theorem fault (x : Except Fault α) : K (liftM x : EStateM Fault σ α) := by
  cases x with
  | ok a => exact h.pure a
  | error e => exact h.throw _

end Sequential

/-! ### Reports that do not look at the console -/

/-- The end of a step, with a result or with a fault. -/
def ended : Except ε α → σ → EStateM.Result ε σ α
  | .ok a, s => .ok a s
  | .error e, s => .error e s

/-- A report that ends in the same way whatever the console shows, and adds the same text to it. -/
def Blind (x : Report α) : Prop :=
  ∃ r said, ∀ c, x c = ended r (c ++ said)

namespace Blind

theorem eq_ok {x : Report α} (hx : Blind x) {a : α} (h : x c = .ok a c') (d : String) :
    ∃ d', x d = .ok a d' := by
  obtain ⟨r, said, hr⟩ := hx
  rw [hr c] at h
  cases r with
  | ok b =>
    cases h
    exact ⟨d ++ said, hr d⟩
  | error e => cases h

theorem pure (a : α) : Blind (pure a : Report α) :=
  ⟨.ok a, "", fun c => by rw [String.append_empty]; rfl⟩

theorem throw (e : Fault) : Blind (throw e : Report α) :=
  ⟨.error e, "", fun c => by rw [String.append_empty]; rfl⟩

theorem say (line : String) : Blind (Report.say line) :=
  ⟨.ok ⟨⟩, line ++ "\n", fun c => by rw [← String.append_assoc]; rfl⟩

theorem use {x : Report α} {f : α → Report β} (hx : Blind x)
    (hf : ∀ c a c', x c = .ok a c' → Blind (f a)) : Blind (x >>= f) := by
  obtain ⟨r, said, hr⟩ := hx
  cases r with
  | error e => exact ⟨.error e, said, fun c => bind_of_error (hr c)⟩
  | ok a =>
    obtain ⟨r, more, hmore⟩ := hf "" a _ (hr "")
    refine ⟨r, said ++ more, fun c => ?_⟩
    rw [bind_of_ok (hr c), hmore, String.append_assoc]

theorem sequential : Sequential fun {α : Type} (x : Report α) => Blind x :=
  ⟨pure, throw, use⟩

theorem bind {x : Report α} {f : α → Report β} (hx : Blind x) (hf : ∀ a, Blind (f a)) :
    Blind (x >>= f) :=
  sequential.bind hx hf

theorem lift (x : Except ShapeError α) : Blind (liftM x : Report α) :=
  sequential.shape x

theorem halt (line : String) : Blind (Report.halt line : Report α) :=
  (say line).bind fun _ => throw .halted

theorem foldlM {f : β → α → Report β} (hf : ∀ b a, Blind (f b a)) (xs : List α) (b : β) :
    Blind (xs.foldlM f b) :=
  sequential.foldlM xs (fun b a _ => hf b a) b

end Blind

/-! ### Reports that are silent unless they stop -/

/-- A report that does not look at the console, and leaves it as it is unless it stops. -/
def Quiet (x : Report α) : Prop :=
  Blind x ∧ ∀ c a c', x c = .ok a c' → c = c'

/-- What a report gives on an empty console. -/
def result? (x : Report α) : Option α :=
  match x "" with
  | .ok a _ => some a
  | .error _ _ => none

theorem result?_eq_some {x : Report α} {a : α} (h : result? x = some a) : ∃ c, x "" = .ok a c := by
  rw [result?] at h
  cases hx : x "" with
  | error e c =>
    rw [hx] at h
    cases h
  | ok b c =>
    rw [hx] at h
    cases h
    exact ⟨c, rfl⟩

namespace Quiet

theorem blind {x : Report α} (hx : Quiet x) : Blind x :=
  hx.1

theorem pure (a : α) : Quiet (pure a : Report α) :=
  ⟨.pure a, fun _ _ _ h => (pure_eq_ok.mp h).2⟩

theorem throw (e : Fault) : Quiet (throw e : Report α) :=
  ⟨.throw e, fun _ _ _ h => absurd h throw_ne_ok⟩

theorem halt (line : String) : Quiet (Report.halt line : Report α) :=
  ⟨.halt line, fun _ _ _ h => absurd h halt_ne_ok⟩

theorem lift (x : Except ShapeError α) : Quiet (liftM x : Report α) :=
  ⟨.lift x, fun _ _ _ h => (lift_shape_eq_ok.mp h).2⟩

theorem bind {x : Report α} {f : α → Report β} (hx : Quiet x) (hf : ∀ a, Quiet (f a)) :
    Quiet (x >>= f) := by
  refine ⟨hx.1.bind fun a => (hf a).1, fun c b c' h => ?_⟩
  obtain ⟨a, c1, h1, h2⟩ := bind_eq_ok.mp h
  exact (hx.2 _ _ _ h1).trans ((hf a).2 _ _ _ h2)

theorem say_halt (line line' : String) :
    Quiet (do Report.say line; Report.halt line' : Report α) := by
  refine ⟨.bind (.say line) fun _ => .halt line', fun c a c' h => ?_⟩
  obtain ⟨_, c1, _, h⟩ := bind_eq_ok.mp h
  exact absurd h halt_ne_ok

theorem mapM {f : α → Report β} (hf : ∀ a, Quiet (f a)) (xs : List α) : Quiet (xs.mapM f) := by
  induction xs with
  | nil =>
    rw [mapM_nil]
    exact pure _
  | cons x xs ih =>
    rw [mapM_cons]
    exact (hf x).bind fun b => ih.bind fun bs => pure _

theorem eq_ok {x : Report α} (hx : Quiet x) {a : α} (h : x c = .ok a c') :
    result? x = some a ∧ c = c' := by
  obtain ⟨d, hd⟩ := hx.blind.eq_ok h ""
  exact ⟨by rw [result?, hd], hx.2 _ _ _ h⟩

end Quiet

end Pathwise.Steps
