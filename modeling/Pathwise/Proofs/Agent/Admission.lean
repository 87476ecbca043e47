import Pathwise.Agent.Api
import Pathwise.Proofs.Steps
import Pathwise.Proofs.Text

/-!
# Which headers show the key

A request shows its key behind a scheme.  The scheme is not cut off the front of the header: it is
taken out wherever it occurs.

* `Text.Strips word cs ds`: `ds` is what is left of `cs` when the word is taken out from left to
  right.
* `Text.strips_iff`: that is what a replacement by nothing leaves.
* `Agent.Api.authorize_text`: **a header is admitted if it begins with the scheme and the key is
  left of it; every other header is refused with status 401.**
* `Agent.Api.authorize_admits_iff`: so a header that has the scheme at its front only is admitted
  exactly if the key follows.  A header with more of them may be admitted although something else
  than the key follows, and the header in which a key with a scheme in it follows is refused.
-/

namespace Pathwise

open List

namespace Text

/-- What is left of a text when a word is taken out, from left to right and wherever it occurs. -/
inductive Strips (word : List Char) : List Char → List Char → Prop
  | nil : Strips word [] []
  | word {cs ds : List Char} : Strips word cs ds → Strips word (word ++ cs) ds
  | char {c : Char} {cs ds : List Char} : ¬ word <+: c :: cs → Strips word cs ds →
      Strips word (c :: cs) (c :: ds)

variable {word cs ds : List Char}

theorem replaceFrom_skip (word new : List Char) : ∀ (skip : Nat) (cs : List Char),
    replaceFrom word new skip cs = replaceFrom word new 0 (cs.drop skip) := by
  intro skip
  induction skip with
  | zero => intro cs; rw [drop_zero]
  | succ skip ih =>
    intro cs
    cases cs with
    | nil => rfl
    | cons c cs => rw [replaceFrom, ih, drop_succ_cons]

theorem replaceFrom_word (hne : word ≠ []) (new cs : List Char) :
    replaceFrom word new 0 (word ++ cs) = new ++ replaceFrom word new 0 cs := by
  obtain ⟨c, tail, rfl⟩ := exists_cons_of_ne_nil hne
  have hfront : (c :: tail).isPrefixOf (c :: (tail ++ cs)) = true :=
    isPrefixOf_iff_prefix.mpr (prefix_append (c :: tail) cs)
  rw [cons_append, replaceFrom, if_pos hfront, replaceFrom_skip, length_cons,
    Nat.add_sub_cancel, drop_left]

/-- **Replacing a word by nothing leaves what is left when it is taken out.** -/
theorem strips_iff (hne : word ≠ []) : Strips word cs ds ↔ replaceFrom word [] 0 cs = ds := by
  constructor
  · intro h
    induction h with
    | nil => rfl
    | word _ ih => rw [replaceFrom_word hne, nil_append, ih]
    | char hfront _ ih => rw [replaceFrom, if_neg (mt isPrefixOf_iff_prefix.mp hfront), ih]
  · rintro rfl
    -- the text gets shorter by a word or by one character
    induction hlength : cs.length using Nat.strong_induction_on generalizing cs with
    | _ n ih =>
      cases cs with
      | nil => exact .nil
      | cons c cs =>
        by_cases hfront : word <+: c :: cs
        · obtain ⟨rest, hrest⟩ := hfront
          have hpos := length_pos_of_ne_nil hne
          have hshort : rest.length < n := by
            rw [← hlength, ← hrest, length_append]
            omega
          rw [← hrest, replaceFrom_word hne, nil_append]
          exact .word (ih _ hshort rfl)
        · rw [replaceFrom, if_neg (mt isPrefixOf_iff_prefix.mp hfront)]
          exact .char hfront (ih cs.length (by rw [← hlength, length_cons]; omega) rfl)

namespace Strips

theorem length_le (h : Strips word cs ds) : ds.length ≤ cs.length := by
  induction h with
  | nil => exact le_rfl
  | word _ ih =>
    rw [length_append]
    omega
  | char _ _ ih => simpa using ih

theorem length_lt (hne : word ≠ []) (h : Strips word cs ds) (hin : word <:+: cs) :
    ds.length < cs.length := by
  induction h with
  | nil => exact absurd (infix_nil.mp hin) hne
  | word h _ =>
    have hle := h.length_le
    have hpos := length_pos_of_ne_nil hne
    rw [length_append]
    omega
  | char hfront _ ih =>
    have hlt := ih ((infix_cons_iff.mp hin).resolve_left hfront)
    simpa using hlt

theorem self_iff (hne : word ≠ []) : Strips word cs cs ↔ ¬ word <:+: cs :=
  ⟨fun h hin => lt_irrefl _ (h.length_lt hne hin), fun h => (strips_iff hne).mpr <|
    replaceFrom_of_not_infix [] h⟩

theorem eq_of_absent (hne : word ≠ []) (h : Strips word cs ds) (habsent : ¬ word <:+: cs) :
    ds = cs := by
  rw [← (strips_iff hne).mp h, replaceFrom_of_not_infix [] habsent]

theorem words (h : Strips word cs ds) :
    ∀ n, Strips word ((List.replicate n word).flatten ++ cs) ds := by
  intro n
  induction n with
  | zero => exact h
  | succ n ih =>
    rw [replicate_succ, flatten_cons, append_assoc]
    exact .word ih

end Strips

end Text

namespace Agent.Api

open Text (Strips)

variable {key header : String}

abbrev schemeWord : List Char := scheme.toList

theorem schemeWord_ne_nil : schemeWord ≠ [] := by
  decide

/-- The header shows the key. -/
def Shows (header key : String) : Prop :=
  ∃ rest, header.toList = schemeWord ++ rest ∧ Strips schemeWord rest key.toList

/-- **Of the texts, exactly the headers that show the key are admitted; the others are refused with
status 401.** -/
theorem authorize_text (key header : String) :
    (Shows header key ∧ authorize key (.str header) = .ok key) ∨
      ¬ Shows header key ∧ ∃ detail, authorize key (.str header) = .error (.status 401 detail) := by
  by_cases hfront : schemeWord <+: header.toList
  · obtain ⟨rest, hrest⟩ := hfront
    have hstarts : header.startsWith scheme = true := String.startsWith_string_iff.mpr ⟨rest, hrest⟩
    have hshows : Shows header key ↔ Text.replace scheme "" header = key := by
      rw [Text.replace, ← hrest, Text.replaceFrom_word schemeWord_ne_nil, ← String.toList_inj,
        String.toList_ofList]
      constructor
      · rintro ⟨rest', hrest', h⟩
        obtain rfl : rest = rest' := append_cancel_left (hrest.trans hrest')
        exact (Text.strips_iff schemeWord_ne_nil).mp h
      · exact fun h => ⟨rest, hrest.symm, (Text.strips_iff schemeWord_ne_nil).mpr h⟩
    by_cases hkey : Text.replace scheme "" header = key
    · exact .inl ⟨hshows.mpr hkey, by simp [authorize, hstarts, hkey]⟩
    · exact .inr ⟨mt hshows.mp hkey, _, by simp [authorize, hstarts, hkey]; rfl⟩
  · have hstarts : header.startsWith scheme = false := by
      rw [Bool.eq_false_iff]
      exact mt String.startsWith_string_iff.mp hfront
    refine .inr ⟨?_, _, by simp [authorize, hstarts]; rfl⟩
    rintro ⟨rest, hrest, _⟩
    exact hfront ⟨rest, hrest.symm⟩

theorem authorize_eq_ok_iff : authorize key (.str header) = .ok key ↔ Shows header key := by
  obtain ⟨hshows, h⟩ | ⟨hshows, detail, h⟩ := authorize_text key header <;> simp [h, hshows]

theorem shows_iff (rest key : String) : Shows (scheme ++ rest) key ↔
    Strips schemeWord rest.toList key.toList := by
  rw [Shows, String.toList_append]
  constructor
  · rintro ⟨rest', hrest', h⟩
    rwa [append_cancel_left hrest']
  · exact fun h => ⟨_, rfl, h⟩

theorem handle_eq (key : String) {route : Route} (hroute : route ≠ .root)
    (header body id : Json) (d : Desk) :
    handle key route header body id d =
      match authorize key header with
      | .ok _ => answer route body id d
      | .error e => .error e d := by
  unfold handle
  rw [if_pos hroute]
  cases h : authorize key header with
  | ok shown => exact Steps.bind_of_ok rfl
  | error e => exact Steps.bind_of_error rfl

/--
**Which headers are admitted.**  A text is admitted exactly if it shows the key; without a header,
and with every other text, the request is refused with status 401 and nothing is done for it, at
every route but the open one.  If the scheme does not occur again behind the front, then a header
shows the key exactly if it is the scheme and the key.  If it does occur again, the header is never
both admitted and the scheme and the key: a key without the scheme in it is also shown behind any
number of schemes, and a key with the scheme in it is not shown by the scheme and the key.
-/
theorem authorize_admits_iff (key header : String) :
    (authorize key (.str header) = .ok key ↔ Shows header key) ∧
      (∀ h : Json, h = .null ∨ h = .str header ∧ ¬ Shows header key →
        ∃ detail, authorize key h = .error (.status 401 detail) ∧
        ∀ route body id d, route ≠ .root →
          handle key route h body id d = .error (.status 401 detail) d) ∧
      (∀ rest, header = scheme ++ rest →
        (¬ schemeWord <:+: rest.toList → (Shows header key ↔ header = scheme ++ key)) ∧
        (schemeWord <:+: rest.toList → ¬ (Shows header key ∧ header = scheme ++ key))) ∧
      (¬ schemeWord <:+: key.toList →
        ∀ n, Shows
          (scheme ++ String.ofList ((List.replicate n schemeWord).flatten ++ key.toList)) key) ∧
      (schemeWord <:+: key.toList → ¬ Shows (scheme ++ key) key) := by
  have hne := schemeWord_ne_nil
  have hself : Shows (scheme ++ key) key ↔ ¬ schemeWord <:+: key.toList :=
    (shows_iff key key).trans (Strips.self_iff hne)
  refine ⟨authorize_eq_ok_iff, ?_, ?_, ?_, fun hin h => hself.mp h hin⟩
  · intro h hh
    obtain ⟨detail, hdetail⟩ : ∃ detail, authorize key h = .error (.status 401 detail) := by
      obtain rfl | ⟨rfl, hshows⟩ := hh
      · exact ⟨_, rfl⟩
      · exact ((authorize_text key header).resolve_left fun hin => hshows hin.1).2
    refine ⟨detail, hdetail, fun route body id d hroute => ?_⟩
    rw [handle_eq key hroute, hdetail]
  · rintro rest rfl
    refine ⟨fun habsent => ⟨fun h => ?_, ?_⟩, fun hin hboth => ?_⟩
    · rw [← String.toList_inj.mp (((shows_iff rest key).mp h).eq_of_absent hne habsent)]
    · intro heq
      obtain rfl : rest = key := String.append_right_inj scheme |>.mp heq
      exact hself.mpr habsent
    · obtain rfl : rest = key := String.append_right_inj scheme |>.mp hboth.2
      exact hself.mp hboth.1 hin
  · intro habsent n
    rw [shows_iff, String.toList_ofList]
    exact ((Strips.self_iff hne).mpr habsent).words n

/-- A scheme too many is admitted, and a key that begins with the scheme is refused. -/
theorem authorize_admits_two_schemes :
    authorize "k" (.str "Bearer Bearer k") = .ok "k" ∧ ¬ Shows "Bearer Bearer k" "Bearer k" := by
  obtain ⟨hadmits, -, -, hmany, -⟩ := authorize_admits_iff "k" "Bearer Bearer k"
  obtain ⟨-, -, -, -, hrefused⟩ := authorize_admits_iff "Bearer k" "Bearer Bearer k"
  exact ⟨hadmits.mpr (hmany (by decide) 1), hrefused (by decide)⟩

end Agent.Api

end Pathwise
