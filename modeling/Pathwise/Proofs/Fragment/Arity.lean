import Pathwise.Proofs.Fragment.Integrity

/-!
# Parameters of actions and entries

An action declares a parameter for every value of a map, and an entry passes what its row has behind
the keys.  Rows are compared with the action once, by the first row, so the entries of rows that are
not as wide as the first one do not fit their action (`Gen.services_entries_fit`).
-/

namespace Pathwise

open Steps List

/-- How many parameters an action text declares for the action. -/
def paramCount? (a : String) : List Piece → Option Nat
  | [] => none
  | .actionHead b :: ps =>
    if b = a then some (ps.takeWhile Piece.isActionParam).length else paramCount? a ps
  | _ :: ps => paramCount? a ps

/-- In a text that begins no action twice, the parameters are counted where the action is begun. -/
theorem BeginsAction.paramCount?_eq {ps : List Piece} {a : String} {n : Nat}
    (h : BeginsAction ps a n) (hps : (actionNames ps).Nodup) :
    paramCount? a ps = some n := by
  obtain ⟨l, _, rfl, params, r, rfl, rfl, hparams⟩ := h
  rw [actionNames_append] at hps
  have hnew : a ∉ actionNames l := fun ha => disjoint_of_nodup_append hps ha mem_cons_self
  clear hps
  induction l with
  | nil =>
    rw [nil_append, paramCount?, if_pos rfl, takeWhile_append_of_pos hparams]
    simp [Piece.isActionParam]
  | cons p l ih =>
    cases p with
    | actionHead b =>
      obtain ⟨hb, hl⟩ := not_or.mp (mem_cons.not.mp hnew)
      rw [cons_append, paramCount?, if_neg (Ne.symm hb), ih hl]
    | _ => exact ih hnew

/--
**Entries and the actions that they name.**  After services were generated, with nothing written
before, every entry of a fragment names an action that the fragment declares.  It passes as many
parameters as the action declares, or it stands for a row that is not as wide as the first row of
its map or set, and then it passes as many more or less.
-/
theorem Gen.services_entries_fit {p : Program} {g g' : Generation}
    {svcs : OrderedMap String Service} (htexts : ∀ k, g.written k = [])
    (h : Gen.services p g = .ok svcs g') {f : String} (hf : f ≠ Gen.looseFragment) {x : Entry}
    (hx : .entry x ∈ g'.written ⟨f, .entry⟩) :
    ∃ n, paramCount? x.action (g'.written ⟨f, .action⟩) = some n ∧ x.Fits p.modules n := by
  have hruns := Gen.services_runs h
  have hfitting : Fitting p.modules (g'.textsOf f) := by
    refine hruns.textsOf ⟨.of_entry_nil rfl, Fitting.append⟩ (fun {e e'} he hown => ?_)
      (fun he => he.fitting) htexts hf
    rw [Fitting, hown .entry (by decide), hown .action (by decide)]
    exact he
  obtain ⟨x', n, hx', hbegins, hfits⟩ := hfitting _ hx
  cases hx'
  refine ⟨n, hbegins.paramCount?_eq (nodup_iff_injective_getElem.mpr fun i j hij => Fin.ext ?_),
    hfits⟩
  refine ((hruns.apart (.of_written_nil htexts)).unique f f i j _ (getElem?_eq_getElem i.2) ?_).2
  exact (getElem?_eq_getElem j.2).trans (congrArg some hij.symm)

/-- A look-up in a map whose second row has two values. -/
def wideProgram : Program :=
  let p := switchProgram [.assign [.ofVariable "x"] (.ofDigits "2")]
  { p with modules := p.modules.map fun m =>
      { m with
        maps := ⟨[("m", ⟨"m", ["bit<8>"], ["bit<8>"], 50, [["1", "7"], ["2", "8", "9"]]⟩)]⟩ } }

/-- The entry of the second row passes two parameters to an action that has one. -/
theorem Gen.services_entries_fit_wide : ∃ svcs g' x, Gen.services wideProgram .empty = .ok svcs g' ∧
    .entry x ∈ g'.written ⟨"svc_A_0", .entry⟩ ∧ x.params = ["8", "9"] ∧
    paramCount? x.action (g'.written ⟨"svc_A_0", .action⟩) = some 1 ∧
      x.Fits wideProgram.modules 1 := by
  obtain ⟨svcs, g', h, htest⟩ := exists_ok_of_succeededWith (r := Gen.services wideProgram .empty)
    (P := fun g : Generation => ((g.written ⟨"svc_A_0", .entry⟩)[1]?.bind readEntry?).any fun x =>
      x.params = ["8", "9"] ∧ paramCount? x.action (g.written ⟨"svc_A_0", .action⟩) = some 1)
        (by decide +kernel)
  obtain ⟨x, hx, htest⟩ := (Option.any_eq_true _ _).mp htest
  obtain ⟨hparams, hcount⟩ := of_decide_eq_true htest
  obtain ⟨piece, hpiece, hread⟩ := Option.bind_eq_some_iff.mp hx
  cases piece <;> cases hread
  have hmem := mem_of_getElem? hpiece
  obtain ⟨n, hn, hfits⟩ := Gen.services_entries_fit (fun _ => rfl) h (by decide) hmem
  obtain rfl : 1 = n := Option.some.inj (hcount.symm.trans hn)
  exact ⟨svcs, g', x, h, hmem, hparams, hcount, hfits⟩

end Pathwise
