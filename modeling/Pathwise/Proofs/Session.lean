import Pathwise.Proofs.Steps
import Pathwise.Session

/-!
# Reading and writing files

A step that puts a file together reads other files and adds to the one at its place `q`.

* `locate_ne`: two paths lead to different places if their names end differently.
* `SameBut q s s'`: the sessions have the same files, but for the one at `q`.
* `Extends q s text s'`: moreover `text` was added to the file at `q`.
* `Outputs q s x a text`: wherever the files are those of `s`, but for the one at `q`, the step `x`
  gives `a` and adds `text` to the file at `q`, if it succeeds.
-/

namespace Pathwise

open Steps List

variable {name a b b' path : String}

/-! ### The last name of a path -/

theorem Text.partsFrom_of_not_mem {separator : Char} {ys : List Char} (hys : separator ∉ ys)
    (current : List Char) :
    partsFrom separator current ys = [String.ofList (current.reverse ++ ys)] := by
  induction ys generalizing current with
  | nil => simp [partsFrom]
  | cons c ys ih =>
    obtain ⟨hc, hys⟩ := not_or.mp (mt mem_cons.mpr hys)
    rw [partsFrom, if_neg (Ne.symm hc), ih hys]
    simp

theorem Text.partsFrom_append (separator : Char) (xs current : List Char) :
    ∃ front last, ∀ ys, separator ∉ ys →
    partsFrom separator current (xs ++ ys) = front ++ [String.ofList (last ++ ys)] := by
  induction xs generalizing current with
  | nil => exact ⟨[], current.reverse, fun ys hys => partsFrom_of_not_mem hys current⟩
  | cons c xs ih =>
    by_cases hc : c = separator
    · obtain ⟨front, last, h⟩ := ih []
      refine ⟨String.ofList current.reverse :: front, last, fun ys hys => ?_⟩
      rw [cons_append, partsFrom, if_pos hc, h ys hys, cons_append]
    · obtain ⟨front, last, h⟩ := ih (c :: current)
      refine ⟨front, last, fun ys hys => ?_⟩
      rw [cons_append, partsFrom, if_neg hc, h ys hys]

namespace Disk

variable {d d' : Disk} {home p p' : Place}

theorem follow_cons_cons (d : Disk) (p : Place) (first second : String) (rest : List String) :
    d.follow p (first :: second :: rest) =
      if maxName < first.utf8ByteSize then .error .tooLong
      else if d.isDirectory (step p first) then d.follow (step p first) (second :: rest)
      else if (d.file? (step p first)).isSome then .error .notDirectory
      else .error .noSuchFile :=
  rfl

theorem follow_concat (names : List String) (h : d.follow p (names ++ [name]) = .ok p') :
    ∃ q, p' = step q name := by
  induction names generalizing p with
  | nil =>
    rw [nil_append, follow] at h
    split at h
    · cases h
    · cases h
      exact ⟨p, rfl⟩
  | cons first rest ih =>
    obtain ⟨second, tail, htail⟩ := exists_cons_of_ne_nil (concat_ne_nil name rest)
    rw [cons_append, htail, follow_cons_cons, ← htail] at h
    split at h
    · cases h
    · split at h
      · exact ih h
      · split at h <;> cases h

theorem step_of_long (h : 2 < name.toList.length) (q : Place) : step q name = q ++ [name] := by
  have hne : ∀ short : String, short.toList.length ≤ 2 → name ≠ short := by
    rintro _ hshort rfl
    omega
  rw [step, if_neg (by simp [hne "" (by decide), hne "." (by decide)]),
    if_neg (hne ".." (by decide))]

theorem exists_last (a : String) : ∃ last, ∀ {d : Disk} {home p : Place}
    {b : String}, '/' ∉ b.toList → 2 < b.toList.length →
    d.locate home (a ++ b) = .ok p → ∃ q, p = q ++ [String.ofList (last ++ b.toList)] := by
  obtain ⟨front, last, hnames⟩ := Text.partsFrom_append '/' a.toList []
  refine ⟨last, fun {d home p b} hslash hlong h => ?_⟩
  unfold locate at h
  split at h
  · cases h
  split at h
  · cases h
  split at h
  · cases h
  rw [names, Text.parts, String.toList_append, hnames _ hslash] at h
  obtain ⟨q, rfl⟩ := follow_concat front h
  refine ⟨q, step_of_long ?_ q⟩
  rw [String.toList_ofList, length_append]
  omega

theorem locate_append (hslash : '/' ∉ b.toList) (hlong : 2 < b.toList.length)
    (h : d.locate home (a ++ b) = .ok p) :
    ∃ q last, p = q ++ [String.ofList (last ++ b.toList)] := by
  obtain ⟨last, hlast⟩ := exists_last a
  obtain ⟨q, hq⟩ := hlast hslash hlong h
  exact ⟨q, last, hq⟩

/-- **Names that are different lead to different places**, behind one and the same path. -/
theorem eq_of_locate (hb : '/' ∉ b.toList ∧ 2 < b.toList.length)
    (hb' : '/' ∉ b'.toList ∧ 2 < b'.toList.length)
    (h : d.locate home (a ++ b) = .ok p) (h' : d'.locate home (a ++ b') = .ok p) : b = b' := by
  obtain ⟨last, hlast⟩ := exists_last a
  obtain ⟨q, hq⟩ := hlast hb.1 hb.2 h
  obtain ⟨q', hq'⟩ := hlast hb'.1 hb'.2 h'
  have hname := congrArg List.getLast? (hq.symm.trans hq')
  rw [getLast?_concat, getLast?_concat, Option.some.injEq, String.ofList_inj,
    append_cancel_left_eq] at hname
  exact String.toList_injective hname

/-- **Two paths lead to different places if their names end differently.** -/
theorem locate_ne {a' : String} {x y : Char}
    (hb : '/' ∉ b.toList ∧ 2 < b.toList.length ∧ b.toList.getLast? = some x)
    (hb' : '/' ∉ b'.toList ∧ 2 < b'.toList.length ∧ b'.toList.getLast? = some y) (hne : x ≠ y)
    (h : d.locate home (a ++ b) = .ok p) (h' : d.locate home (a' ++ b') = .ok p') : p ≠ p' := by
  obtain ⟨q, last, rfl⟩ := locate_append hb.1 hb.2.1 h
  obtain ⟨q', last', rfl⟩ := locate_append hb'.1 hb'.2.1 h'
  intro heq
  have hname := congrArg List.getLast? heq
  rw [getLast?_concat, getLast?_concat, Option.some.injEq, String.ofList_inj] at hname
  have hchar := congrArg List.getLast? hname
  rw [getLast?_append, getLast?_append, hb.2.2, hb'.2.2, Option.some_or, Option.some_or,
    Option.some.injEq] at hchar
  exact hne hchar

theorem locate_congr (hd : d'.directories = d.directories) (h : d.locate home path = .ok p) :
    d'.locate home path = .ok p := by
  have hdirectory : ∀ q, d'.isDirectory q = d.isDirectory q := fun q => by
    rw [isDirectory, isDirectory, hd]
  have hfollow : ∀ (names : List String) (q : Place), d.follow q names = .ok p →
      d'.follow q names = .ok p := by
    intro names
    induction names with
    | nil => exact fun q h => h
    | cons name rest ih =>
      intro q h
      cases rest with
      | nil => exact h
      | cons second tail =>
        rw [follow_cons_cons] at h ⊢
        split at h
        · cases h
        · next hlong =>
          rw [if_neg hlong, hdirectory]
          split at h
          · next hstep =>
            rw [if_pos hstep]
            exact ih _ h
          · split at h <;> cases h
  unfold locate at h ⊢
  split at h
  · cases h
  · next hempty =>
    rw [if_neg hempty]
    split at h
    · cases h
    · next hnull =>
      rw [if_neg hnull]
      split at h
      · cases h
      · next hshort =>
        rw [if_neg hshort]
        exact hfollow _ _ h

theorem file?_put (d : Disk) (p q : Place) (text : String) :
    (d.put p text).file? q = if q = p then some text else d.file? q := by
  have hfiles : ∀ files : List (Place × String),
      ((putFile p text files).find? (·.1 = q)).map (·.2) = if q = p then some text
        else (files.find? (·.1 = q)).map (·.2) := by
    intro files
    induction files with
    | nil => grind [putFile]
    | cons x files ih =>
      obtain ⟨r, old⟩ := x
      rw [putFile]
      split
      · grind
      · grind
  exact hfiles d.files

theorem extend_eq_put (d : Disk) (p : Place) (text : String) :
    d.extend p text = d.put p ((d.file? p).getD "" ++ text) := by
  have hfiles : ∀ files : List (Place × String),
      extendFile p text files = putFile p
        (((files.find? (·.1 = p)).map (·.2)).getD "" ++ text) files := by
    intro files
    induction files with
    | nil => simp [extendFile, putFile]
    | cons x files ih =>
      obtain ⟨r, old⟩ := x
      by_cases hr : r = p
      · simp [extendFile, putFile, hr]
      · simp [extendFile, putFile, hr, ih]
  rw [extend, put, hfiles]
  rfl

end Disk

/-! ### Sessions -/

/-- The sessions have the same directories and the same files, but for the one at `q`. -/
structure SameBut (q : Place) (s s' : Session) : Prop where
  home : s'.home = s.home
  directories : s'.disk.directories = s.disk.directories
  files : ∀ p, p ≠ q → s'.disk.file? p = s.disk.file? p

/-- Text was added to the file at `q`, if there is one, and nothing else has changed on the disk. -/
structure Extends (q : Place) (s : Session) (text : String) (s' : Session) :
    Prop extends SameBut q s s' where
  file : ∀ old, s.disk.file? q = some old → s'.disk.file? q = some (old ++ text)

variable {q : Place} {s s' s'' : Session} {text text' : String}

theorem SameBut.trans (h : SameBut q s s') (h' : SameBut q s' s'') : SameBut q s s'' :=
  ⟨h'.home.trans h.home, h'.directories.trans h.directories,
    fun p hp => (h'.files p hp).trans (h.files p hp)⟩

theorem SameBut.locate (h : SameBut q s s') {p : Place} :
    s'.disk.locate s'.home path = .ok p ↔ s.disk.locate s.home path = .ok p := by
  rw [h.home]
  exact ⟨Disk.locate_congr h.directories.symm, Disk.locate_congr h.directories⟩

theorem Extends.trans (h : Extends q s text s') (h' : Extends q s' text' s'') :
    Extends q s (text ++ text') s'' := by
  refine ⟨h.toSameBut.trans h'.toSameBut, fun old hold => ?_⟩
  rw [h'.file _ (h.file old hold), String.append_assoc]

theorem Extends.of_disk_eq (hhome : s'.home = s.home) (hdisk : s'.disk = s.disk) :
    Extends q s "" s' := by
  refine ⟨⟨hhome, by rw [hdisk], fun p _ => by rw [hdisk]⟩, fun old hold => ?_⟩
  rw [hdisk, hold, String.append_empty]

namespace Run

variable {path text : String} {p : Place} {j : Json} {u : Unit}

theorem report_eq_ok {α : Type} {x : Report α} {a : α} :
    (liftM x : Run α) s = .ok a s' ↔ ∃ c, x s.console = .ok a c ∧ s' = { s with console := c } := by
  have hlift : (liftM x : Run α) s = mapState (fun c => { s with console := c }) (x s.console) :=
    rfl
  rw [hlift]
  cases x s.console with
  | ok b c =>
    constructor
    · intro h
      cases h
      exact ⟨c, rfl, rfl⟩
    · rintro ⟨c', h, rfl⟩
      cases h
      rfl
  | error e c =>
    constructor
    · intro h
      cases h
    · rintro ⟨c', h, _⟩
      cases h

theorem locate_eq_ok :
    locate path s = .ok p s' ↔ s.disk.locate s.home path = .ok p ∧ s = s' := by
  simp only [locate, bind_eq_ok, get_eq_ok]
  constructor
  · rintro ⟨_, s1, ⟨rfl, rfl⟩, h⟩
    cases hplace : s.disk.locate s.home path with
    | error e =>
      rw [hplace] at h
      exact absurd h throw_ne_ok
    | ok p' =>
      rw [hplace] at h
      obtain ⟨rfl, rfl⟩ := pure_eq_ok.mp h
      exact ⟨rfl, rfl⟩
  · rintro ⟨hplace, rfl⟩
    refine ⟨s, s, ⟨rfl, rfl⟩, ?_⟩
    rw [hplace]
    rfl

theorem readRaw_eq_ok :
    readRaw path s = .ok text s' ↔ ∃ p, s.disk.locate s.home path = .ok p ∧
      s.disk.file? p = some text ∧ s = s' := by
  simp only [readRaw, bind_eq_ok, locate_eq_ok, get_eq_ok]
  constructor
  · rintro ⟨p, _, ⟨hplace, rfl⟩, _, _, ⟨rfl, rfl⟩, h⟩
    cases hfile : s.disk.file? p with
    | none =>
      rw [hfile] at h
      exact absurd h throw_ne_ok
    | some raw =>
      rw [hfile] at h
      obtain ⟨rfl, rfl⟩ := pure_eq_ok.mp h
      exact ⟨p, hplace, hfile, rfl⟩
  · rintro ⟨p, hplace, hfile, rfl⟩
    refine ⟨p, s, ⟨hplace, rfl⟩, s, s, ⟨rfl, rfl⟩, ?_⟩
    rw [hfile]
    rfl

theorem read_eq_ok :
    read path s = .ok text s' ↔ ∃ raw, readRaw path s = .ok raw s' ∧
      Text.unifyLineEnds raw = text := by
  rw [read, map_eq_pure_bind, bind_eq_ok]
  simp only [pure_eq_ok]
  constructor
  · rintro ⟨raw, _, h, htext, rfl⟩
    exact ⟨raw, h, htext⟩
  · rintro ⟨raw, h, htext⟩
    exact ⟨raw, s', h, htext, rfl⟩

theorem readJson_eq_ok :
    readJson path s = .ok j s' ↔ ∃ text, read path s = .ok text s' ∧ Json.parse text = .ok j := by
  simp only [readJson, bind_eq_ok]
  constructor
  · rintro ⟨text, s1, hread, h⟩
    cases hparse : Json.parse text with
    | error e =>
      rw [hparse] at h
      exact absurd h throw_ne_ok
    | ok j' =>
      rw [hparse] at h
      obtain ⟨rfl, rfl⟩ := pure_eq_ok.mp h
      exact ⟨text, hread, hparse⟩
  · rintro ⟨text, hread, hparse⟩
    refine ⟨text, s', hread, ?_⟩
    rw [hparse]
    rfl

theorem read_stays (h : read path s = .ok text s') : s = s' := by
  obtain ⟨_, hraw, _⟩ := read_eq_ok.mp h
  obtain ⟨_, _, _, hsame⟩ := readRaw_eq_ok.mp hraw
  exact hsame

theorem readJson_stays (h : readJson path s = .ok j s') : s = s' := by
  obtain ⟨_, hread, _⟩ := readJson_eq_ok.mp h
  exact read_stays hread

theorem locateForWriting_eq_ok (h : locateForWriting path s = .ok p s') :
    s.disk.locate s.home path = .ok p ∧ s = s' := by
  simp only [locateForWriting, bind_eq_ok, locate_eq_ok, get_eq_ok] at h
  obtain ⟨p', _, ⟨hplace, rfl⟩, _, _, ⟨rfl, rfl⟩, h⟩ := h
  split at h
  · exact absurd h throw_ne_ok
  · obtain ⟨rfl, rfl⟩ := pure_eq_ok.mp h
    exact ⟨hplace, rfl⟩

theorem create_eq_ok (h : create path text s = .ok u s') :
    ∃ q, s.disk.locate s.home path = .ok q ∧ SameBut q s s' ∧ s'.disk.file? q = some text := by
  simp only [create, bind_eq_ok, modify_eq_ok] at h
  obtain ⟨q, _, hwrite, rfl⟩ := h
  obtain ⟨hplace, rfl⟩ := locateForWriting_eq_ok hwrite
  refine ⟨q, hplace, ⟨rfl, rfl, fun p hp => ?_⟩, ?_⟩
  · rw [Disk.file?_put, if_neg hp]
  · rw [Disk.file?_put, if_pos rfl]

theorem append_eq_ok_iff : append path text s = .ok u s' ↔
    ∃ p, s.disk.locate s.home path = .ok p ∧ s.disk.isDirectory p = false ∧
      s' = { s with disk := s.disk.extend p text } := by
  simp only [append, locateForWriting, bind_eq_ok, locate_eq_ok, get_eq_ok, modify_eq_ok]
  constructor
  · rintro ⟨p, _, ⟨_, _, ⟨hplace, rfl⟩, _, _, ⟨rfl, rfl⟩, h⟩, rfl⟩
    split at h
    · exact absurd h throw_ne_ok
    · next hfile =>
      obtain ⟨rfl, rfl⟩ := pure_eq_ok.mp h
      exact ⟨_, hplace, by simpa using hfile, rfl⟩
  · rintro ⟨p, hplace, hfile, rfl⟩
    refine ⟨p, s, ⟨p, s, ⟨hplace, rfl⟩, s, s, ⟨rfl, rfl⟩, ?_⟩, rfl⟩
    rw [hfile]
    rfl

theorem append_eq_ok (h : append path text s = .ok u s') :
    ∃ q, s.disk.locate s.home path = .ok q ∧ SameBut q s s' ∧
      s'.disk.file? q = some ((s.disk.file? q).getD "" ++ text) := by
  obtain ⟨q, hplace, _, rfl⟩ := append_eq_ok_iff.mp h
  rw [Disk.extend_eq_put]
  refine ⟨q, hplace, ⟨rfl, rfl, fun p hp => ?_⟩, ?_⟩
  · rw [Disk.file?_put, if_neg hp]
  · rw [Disk.file?_put, if_pos rfl]

/-! ### Steps that add to a file -/

variable {α β : Type}

/--
In a session with the files of `s`, but for the one at `q`, the step gives `a` and adds `text` to
the file at `q`, if it succeeds.
-/
def Outputs (q : Place) (s : Session) (x : Run α) (a : α) (text : String) : Prop :=
  ∀ s₁ b s₂, SameBut q s s₁ → x s₁ = .ok b s₂ → b = a ∧ Extends q s₁ text s₂

namespace Outputs

theorem pure (a : α) : Outputs q s (pure a) a "" := by
  intro s1 b s2 _ h
  obtain ⟨rfl, rfl⟩ := pure_eq_ok.mp h
  exact ⟨rfl, .of_disk_eq rfl rfl⟩

theorem throw (e : Fault) (a : α) : Outputs q s (throw e) a text :=
  fun _ _ _ _ h => absurd h throw_ne_ok

theorem bind {x : Run α} {f : α → Run β} {a : α} {b : β} (hx : Outputs q s x a text)
    (hf : Outputs q s (f a) b text') :
    Outputs q s (x >>= f) b (text ++ text') := by
  intro s1 c s2 hs h
  obtain ⟨a', s', h1, h2⟩ := bind_eq_ok.mp h
  obtain ⟨rfl, e1⟩ := hx _ _ _ hs h1
  obtain ⟨rfl, e2⟩ := hf _ _ _ (hs.trans e1.toSameBut) h2
  exact ⟨rfl, e1.trans e2⟩

theorem use {x : Run α} {f : α → Run β} {a : α} {b : β} (hx : Outputs q s x a "")
    (hf : Outputs q s (f a) b text) :
    Outputs q s (x >>= f) b text := by
  have hbind := hx.bind hf
  rwa [String.empty_append] at hbind

theorem forM {f : α → Run PUnit} {added : α → String} {xs : List α}
    (hf : ∀ x ∈ xs, Outputs q s (f x) ⟨⟩ (added x)) :
    Outputs q s (xs.forM f) ⟨⟩ (String.join (xs.map added)) := by
  induction xs with
  | nil => exact pure PUnit.unit
  | cons x xs ih =>
    obtain ⟨hx, hxs⟩ := forall_mem_cons.mp hf
    rw [map_cons, String.join_cons]
    exact bind hx (ih hxs)

theorem say (line : String) : Outputs q s (liftM (Report.say line) : Run Unit) () "" := by
  intro s1 b s2 _ h
  cases h
  exact ⟨rfl, .of_disk_eq rfl rfl⟩

theorem lift {x : Except Fault α} {a : α} (ha : ∀ b, x = .ok b → b = a) :
    Outputs q s (liftM x : Run α) a "" := by
  intro s1 b s2 _ h
  obtain ⟨hx, rfl⟩ := lift_fault_eq_ok.mp h
  exact ⟨ha b hx, .of_disk_eq rfl rfl⟩

theorem read (hplace : ∀ p, s.disk.locate s.home path = .ok p → p ≠ q)
    (htext : ∀ t, Run.read path s = .ok t s → t = text) : Outputs q s (Run.read path) text "" := by
  intro s1 t s2 hs h
  obtain ⟨raw, hraw, rfl⟩ := read_eq_ok.mp h
  obtain ⟨p, hp, hfile, rfl⟩ := readRaw_eq_ok.mp hraw
  have hp := hs.locate.mp hp
  rw [hs.files p (hplace p hp)] at hfile
  exact ⟨htext _ (read_eq_ok.mpr ⟨raw, readRaw_eq_ok.mpr ⟨p, hp, hfile, rfl⟩, rfl⟩),
    .of_disk_eq rfl rfl⟩

theorem append (hplace : s.disk.locate s.home path = .ok q) (text : String) :
    Outputs q s (Run.append path text) () text := by
  intro s1 u s2 hs h
  simp only [Run.append, bind_eq_ok, modify_eq_ok] at h
  obtain ⟨p, _, hwrite, rfl⟩ := h
  obtain ⟨hp, rfl⟩ := locateForWriting_eq_ok hwrite
  obtain rfl : q = p := Except.ok.inj (hplace.symm.trans (hs.locate.mp hp))
  refine ⟨rfl, ⟨rfl, by rw [Disk.extend_eq_put]; rfl, fun p hp => ?_⟩, fun old hold => ?_⟩
  · rw [Disk.extend_eq_put, Disk.file?_put, if_neg hp]
  · rw [Disk.extend_eq_put, Disk.file?_put, if_pos rfl, hold]
    rfl

end Outputs

/-- In a session with the files of `s`, but for the one at `q`, the step succeeds only if `C`
holds. -/
def Requires (q : Place) (s : Session) (x : Run α) (C : Prop) : Prop :=
  ∀ s₁ b s₂, SameBut q s s₁ → x s₁ = .ok b s₂ → C

namespace Requires

variable {C : Prop}

theorem first {x : Run α} (hx : Requires q s x C) (f : α → Run β) : Requires q s (x >>= f) C := by
  intro s1 b s2 hs h
  obtain ⟨a, s', h1, _⟩ := bind_eq_ok.mp h
  exact hx _ _ _ hs h1

theorem behind {x : Run α} {f : α → Run β} {a : α} (hx : Outputs q s x a text)
    (hf : Requires q s (f a) C) :
    Requires q s (x >>= f) C := by
  intro s1 b s2 hs h
  obtain ⟨a', s', h1, h2⟩ := bind_eq_ok.mp h
  obtain ⟨rfl, e1⟩ := hx _ _ _ hs h1
  exact hf _ _ _ (hs.trans e1.toSameBut) h2

theorem forM {f : α → Run PUnit} {added : α → String} {xs : List α} {x : α}
    (hf : ∀ x ∈ xs, Outputs q s (f x) ⟨⟩ (added x)) (hx : x ∈ xs) (hC : Requires q s (f x) C) :
    Requires q s (xs.forM f) C := by
  induction xs with
  | nil => cases hx
  | cons y xs ih =>
    obtain ⟨hy, hxs⟩ := forall_mem_cons.mp hf
    rcases mem_cons.mp hx with rfl | hx
    · exact first hC _
    · exact behind hy (ih hxs hx)

end Requires

end Run

end Pathwise
