import ActionLog.Proofs.Accounting
import ActionLog.Proofs.Safety

/-!
# When passes fail

Three passes look for declarations, and do so before anything else.  They complain exactly if a line
declares nothing, about the first such line, and give back what they were given; what they rewrite
later is never complained about.  One of them may abort instead, on a text that is not valid.

* `Declaration.Rejected` — a declaration line without an equals sign, a name or a value;
* `Declaration.extract_eq_error_iff` — extraction fails by the first rejected line and no other;
* `Declaration.extract_of_accepted` — if none is rejected, all are found;
* `FailsByLine` — a pass that complains about the first rejected line and no other, and gives back
  what it was given;
* `Pipeline.runStages_failing` — a failing stage gives its text and its work back.

Principal results: `Pass.fails_iff_rejected` and `Pass.consolidate_aborts_accepted`.
-/

set_option autoImplicit false

namespace ActionLog

namespace Declaration

open Text (lines)

/-! ## Rejected lines -/

/-- A declaration line that cannot be split: it has no equals sign, no name or no value. -/
def Rejected (line : Text) : Prop :=
  isDeclaration line = true ∧ (Byte.equals ∉ line ∨ nameOf line = [] ∨ valueOf line = [])

instance (line : Text) : Decidable (Rejected line) := inferInstanceAs (Decidable (_ ∧ _))

theorem parse?_eq_none {line : Text} :
    parse? line = none ↔ Byte.equals ∉ line ∨ nameOf line = [] ∨ valueOf line = [] := by
  unfold parse?
  rw [ite_eq_right_iff]
  simp only [Bool.and_eq_true, List.contains_iff_mem, bne_iff_ne, reduceCtorEq, imp_false]
  tauto

theorem rejected_iff {line : Text} :
    Rejected line ↔ isDeclaration line = true ∧ parse? line = none := by
  rw [Rejected, parse?_eq_none]

theorem FirstMalformed.mem_lines {s : Text} {bad : BadLine} (h : FirstMalformed s bad) :
    bad.text ∈ lines s ∧ Rejected bad.text := by
  obtain ⟨i, _, hline⟩ := h.numbered
  exact ⟨List.mem_of_getElem? hline, rejected_iff.mpr ⟨h.isDeclaration, h.rejected⟩⟩

/-- The first one cannot stand behind another. -/
theorem FirstMalformed.number_le {s : Text} {bad bad' : BadLine} (h : FirstMalformed s bad)
    (h' : FirstMalformed s bad') : bad.number ≤ bad'.number := by
  obtain ⟨i, hnumber, hline⟩ := h'.numbered
  by_contra hlt
  have haccepted := h.earlier i bad'.text (by omega) hline h'.isDeclaration
  rw [h'.rejected] at haccepted
  cases haccepted

theorem FirstMalformed.unique {s : Text} {bad bad' : BadLine} (h : FirstMalformed s bad)
    (h' : FirstMalformed s bad') : bad = bad' := by
  have hnumber : bad.number = bad'.number := Nat.le_antisymm (h.number_le h') (h'.number_le h)
  obtain ⟨i, hi, hline⟩ := h.numbered
  obtain ⟨j, hj, hline'⟩ := h'.numbered
  obtain rfl : i = j := by omega
  obtain ⟨n, text⟩ := bad
  obtain ⟨n', text'⟩ := bad'
  cases hnumber
  rw [hline] at hline'
  cases hline'
  rfl

/-- No line of a text that is read is rejected. -/
theorem not_rejected_of_extract {s : Text} {ds : List Declaration} (h : extract s = .ok ds)
    {line : Text} (hmem : line ∈ lines s) : ¬ Rejected line := by
  rw [rejected_iff]
  rintro ⟨hdecl, hnone⟩
  obtain ⟨d, hd⟩ := ((extract_eq_ok.mp h).1 line hmem).2 hdecl
  rw [(onLine?_eq_some.mp hd).2] at hnone
  cases hnone

/-- **Extraction fails by the first rejected line and no other.** -/
theorem extract_eq_error_iff {s : Text} {bad : BadLine} :
    extract s = .error bad ↔ FirstMalformed s bad := by
  refine ⟨extract_eq_error, fun h => ?_⟩
  cases hextract : extract s with
  | error bad' => rw [(extract_eq_error hextract).unique h]
  | ok ds =>
    obtain ⟨hmem, hrejected⟩ := h.mem_lines
    exact absurd hrejected (not_rejected_of_extract hextract hmem)

/-- **If no line is rejected, then all declarations are found**, line by line. -/
theorem extract_of_accepted {s : Text} (h : ∀ line ∈ lines s, ¬ Rejected line) :
    ∃ ds, extract s = .ok ds ∧ ds.map some = (declarationLines s).map parse? := by
  cases hextract : extract s with
  | error bad =>
    obtain ⟨hmem, hrejected⟩ := (extract_eq_error hextract).mem_lines
    exact absurd hrejected (h _ hmem)
  | ok ds =>
    refine ⟨ds, rfl, ?_⟩
    rw [(extract_eq_ok.mp hextract).2, declarationLines]
    generalize lines s = ls at h
    induction ls with
    | nil => rfl
    | cons line ls ih =>
      have ih := ih fun l hl => h l (List.mem_cons_of_mem _ hl)
      by_cases hline : isDeclaration line = true
      · obtain ⟨d, hd⟩ : ∃ d, parse? line = some d := by
          rw [← Option.ne_none_iff_exists']
          exact fun hnone => h line List.mem_cons_self (rejected_iff.mpr ⟨hline, hnone⟩)
        rw [List.filterMap_cons_some (onLine?_eq_some.mpr ⟨hline, hd⟩),
          List.filter_cons_of_pos hline, List.map_cons, List.map_cons, hd, ih]
      · have hnone : onLine? line = none := by simp [onLine?, hline]
        rw [List.filterMap_cons_none hnone, List.filter_cons_of_neg hline, ih]

/-- There is a first rejected line if there is any. -/
theorem exists_firstMalformed {s : Text} :
    (∃ bad, FirstMalformed s bad) ↔ ∃ line ∈ lines s, Rejected line := by
  constructor
  · rintro ⟨bad, hbad⟩
    exact ⟨bad.text, hbad.mem_lines⟩
  · rintro ⟨line, hmem, hrejected⟩
    cases hextract : extract s with
    | error bad => exact ⟨bad, extract_eq_error hextract⟩
    | ok ds => exact absurd hrejected (not_rejected_of_extract hextract hmem)

end Declaration

open Declaration (FirstMalformed Rejected extract)

/-! ## Failing passes -/

/-- The pass complains about the first rejected line and no other, and gives `back` back then. -/
def FailsByLine {α β : Type} (s : Text) (back : β) (x : Outcome β α) : Prop :=
  ∀ bad b, x = .error (.malformed bad b) ↔ FirstMalformed s bad ∧ b = back

namespace FailsByLine

variable {α β : Type} {s : Text} {back : β} {x : Outcome β α}

/-- A pass that fails as extraction does, fails by a line. -/
theorem of_extract
    (h : ∀ bad b, x = .error (.malformed bad b) ↔ extract s = .error bad ∧ b = back) :
    FailsByLine s back x := by
  intro bad b
  rw [h, Declaration.extract_eq_error_iff]

/-- **A pass that fails by a line, and returns if none is rejected**, fails exactly if one is. -/
theorem error_iff (h : FailsByLine s back x)
    (hreturns : (∀ line ∈ Text.lines s, ¬ Rejected line) → ∃ a, x = .ok a) :
    (∃ e, x = .error e) ↔ ∃ line ∈ Text.lines s, Rejected line := by
  constructor
  · rintro ⟨e, he⟩
    by_contra hnone
    obtain ⟨a, ha⟩ := hreturns fun line hmem hrejected => hnone ⟨line, hmem, hrejected⟩
    rw [he] at ha
    cases ha
  · intro hrejected
    obtain ⟨bad, hbad⟩ := Declaration.exists_firstMalformed.mpr hrejected
    exact ⟨_, (h bad back).mpr ⟨hbad, rfl⟩⟩

end FailsByLine

/-- **A failing stage gives its text and its work back**, and no stage is run behind it. -/
theorem Pipeline.runStages_failing {ρ : Type} [Resolver ρ] {o : Options} {t : Tables} {stage : Stage}
    {s : Text} {bad : BadLine} (hstage : stage.readsDeclarations = true) (h : FirstMalformed s bad)
    (stages : List Stage) (w : Work ρ) :
    runStages o t (stage :: stages) w s = (.ok ⟨s, some (stage, bad), []⟩, w) := by
  have hrun := (Stage.run_malformed_iff (o := o) (t := t) (w := w)).mpr
    ⟨hstage, Declaration.extract_eq_error_iff.mpr h, rfl⟩
  unfold runStages
  rw [hrun]

namespace Pass

/-- Consolidation returns if no line is rejected and the text is valid. -/
theorem consolidate_returns {s : Text} (hs : Text.isValid s = true)
    (haccepted : ∀ line ∈ Text.lines s, ¬ Rejected line) : ∃ out, consolidate s = .ok out := by
  obtain ⟨ds, hds, _⟩ := Declaration.extract_of_accepted haccepted
  obtain ⟨out, hout, _⟩ := consolidate_of_isValid hs hds
  exact ⟨out, hout⟩

/-- Consolidation complains about a rejected line, and does not abort then. -/
theorem accepted_of_consolidate_aborted {s : Text} {cause : Abort}
    (h : consolidate s = .error (.aborted cause)) : ∀ line ∈ Text.lines s, ¬ Rejected line := by
  intro line hmem hrejected
  obtain ⟨bad, hbad⟩ := Declaration.exists_firstMalformed.mpr ⟨line, hmem, hrejected⟩
  rw [consolidate_malformed_iff.mpr ⟨Declaration.extract_eq_error_iff.mpr hbad, rfl⟩] at h
  cases h

/-- **Passes fail precisely and without a trace.**  Each pass that looks for declarations complains
exactly if a declaration line is rejected, about the first such line with its number, and gives back
the text and the names that it was given; so does its stage.  Resolving conflicts and naming by
objects fail in no other way, and consolidating a valid text does not either; on another text it may
abort, but only if no line is rejected.  If none is, extraction gives what each declaration line says,
in order. -/
theorem fails_iff_rejected (s : Text) :
    (∀ window names, FailsByLine s (s, names) (resolveConflicts window names s) ∧
      ((∃ e, resolveConflicts window names s = .error e) ↔ ∃ line ∈ Text.lines s, Rejected line)) ∧
    (∀ constructors names, FailsByLine s (s, names) (describe constructors names s) ∧
      ((∃ e, describe constructors names s = .error e) ↔ ∃ line ∈ Text.lines s, Rejected line)) ∧
    (FailsByLine s s (consolidate s) ∧
      (Text.isValid s = true →
        ((∃ e, consolidate s = .error e) ↔ ∃ line ∈ Text.lines s, Rejected line)) ∧
      ∀ cause, consolidate s = .error (.aborted cause) →
        Text.isValid s = false ∧ ∀ line ∈ Text.lines s, ¬ Rejected line) ∧
    (∀ bad, FirstMalformed s bad → ∀ {ρ : Type} [Resolver ρ] (o : Options) (t : Tables)
      (stage : Stage) (stages : List Stage) (w : Work ρ), stage.readsDeclarations = true →
        Pipeline.runStages o t (stage :: stages) w s = (.ok ⟨s, some (stage, bad), []⟩, w)) ∧
    ((∃ bad, FirstMalformed s bad) ↔ ∃ line ∈ Text.lines s, Rejected line) ∧
    ((∀ line ∈ Text.lines s, ¬ Rejected line) → ∃ ds, extract s = .ok ds ∧
      ds.map some = (Declaration.declarationLines s).map Declaration.parse?) := by
  refine ⟨fun window names => ?_, fun constructors names => ?_, ⟨?_, fun hs => ?_, ?_⟩, ?_,
    Declaration.exists_firstMalformed, Declaration.extract_of_accepted⟩
  · have hline : FailsByLine s (s, names) (resolveConflicts window names s) :=
      .of_extract fun _ _ => resolveConflicts_malformed_iff
    refine ⟨hline, hline.error_iff fun haccepted => ?_⟩
    obtain ⟨ds, hds, _⟩ := Declaration.extract_of_accepted haccepted
    exact ⟨_, resolveConflicts_eq hds window names⟩
  · have hline : FailsByLine s (s, names) (describe constructors names s) :=
      .of_extract fun _ _ => describe_malformed_iff
    refine ⟨hline, hline.error_iff fun haccepted => ?_⟩
    obtain ⟨ds, hds, _⟩ := Declaration.extract_of_accepted haccepted
    exact ⟨_, describe_eq hds constructors names⟩
  · exact .of_extract fun _ _ => consolidate_malformed_iff
  · exact (FailsByLine.of_extract fun _ _ => consolidate_malformed_iff).error_iff
      (consolidate_returns hs)
  · intro cause habort
    refine ⟨?_, accepted_of_consolidate_aborted habort⟩
    by_contra hs
    exact consolidate_ne_aborted (by simpa using hs) cause habort
  · intro bad hbad ρ _ o t stage stages w hstage
    exact Pipeline.runStages_failing hstage hbad stages w

/-- A declaration without a value between one that has all parts and one without a name. -/
def valueless : Text := utf8 "var a = 1;\nf(a);\n\tvar b = ;\nvar = 2;"

/-- All three passes complain about the third line, and give back what they were given. -/
theorem fails_iff_rejected_valueless :
    (∀ window names, resolveConflicts window names valueless =
      .error (.malformed ⟨3, utf8 "\tvar b = ;"⟩ (valueless, names))) ∧
    (∀ constructors names, describe constructors names valueless =
      .error (.malformed ⟨3, utf8 "\tvar b = ;"⟩ (valueless, names))) ∧
    consolidate valueless = .error (.malformed ⟨3, utf8 "\tvar b = ;"⟩ valueless) ∧
    Text.isValid valueless = true ∧ (∃ line ∈ Text.lines valueless, Rejected line) ∧
    ∀ (o : Options) (t : Tables) (w : Work BookResolver),
      Pipeline.runStages o t [.resolveConflicts, .wrap] w valueless =
        (.ok ⟨valueless, some (.resolveConflicts, ⟨3, utf8 "\tvar b = ;"⟩), []⟩, w) := by
  have hextract : extract valueless = .error ⟨3, utf8 "\tvar b = ;"⟩ := by decide +kernel
  have hvalid : Text.isValid valueless = true := by decide +kernel
  have hfirst := Declaration.extract_eq_error hextract
  obtain ⟨hresolve, hdescribe, ⟨hconsolidate, _⟩, hkept, hexists, _⟩ :=
    fails_iff_rejected valueless
  exact ⟨fun window names => ((hresolve window names).1 _ _).mpr ⟨hfirst, rfl⟩,
    fun constructors names => ((hdescribe constructors names).1 _ _).mpr ⟨hfirst, rfl⟩,
    (hconsolidate _ _).mpr ⟨hfirst, rfl⟩, hvalid, hexists.mp ⟨_, hfirst⟩,
    fun o t w => hkept _ hfirst o t _ _ w rfl⟩

/-- A variable whose name is a stray byte. -/
def strayName : Text := utf8 "var " ++ 0xFF :: utf8 " = 1;\nf(1);"

/-- **Consolidation can abort though no line is rejected**, where the other two passes return: no
pattern is made of a name that is not valid. -/
theorem consolidate_aborts_accepted :
    (∀ line ∈ Text.lines strayName, ¬ Rejected line) ∧
    (resolveConflicts 0 (Registry.ofReserved []) strayName).map (·.1) = .ok strayName ∧
    (describe [] (Registry.ofReserved []) strayName).map (·.1) = .ok strayName ∧
    consolidate strayName = .error (.aborted (.pattern (useSource [0xFF]))) := by
  decide +kernel

end Pass

end ActionLog
