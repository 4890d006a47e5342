import ActionLog.Pass.Describe
import ActionLog.Proofs.Conflict
import ActionLog.Proofs.Search

/-!
# Variables are renamed all at once

* `Renames.newName` — what becomes of an identifier;
* `Renames.For` — renamings of variables that hold objects, to identifiers;
* `splice_renameEdits` — the edits of all identifiers rename the text.

Principal result: `describe_eq` — naming variables after their objects never fails on a text whose
declarations are well-formed, and is one substitution of identifiers.
-/

set_option autoImplicit false

namespace ActionLog

namespace Text

/-! ## Identifiers of a text, from the left -/

theorem findAllFrom_nameRun_other {b : UInt8} (hb : Byte.isName b = false) (pos : Nat)
    (before : Option UInt8) (s : Text) : findAllFrom .byte nameRun pos before 0 (b :: s) =
      findAllFrom .byte nameRun (pos + 1) (some b) 0 s := by
  have hnone : nameRun before (b :: s) = none := by simp [nameRun, hb]
  rw [findAllFrom, hnone]
  rfl

theorem findAllFrom_nameRun_run {r s : Text} (hne : r ≠ []) (hr : IsRun r) (hs : Bare s) (pos : Nat)
    (before : Option UInt8) : findAllFrom .byte nameRun pos before 0 (r ++ s) =
      ⟨pos, pos + r.length, r⟩ :: findAllFrom .byte nameRun (pos + r.length) r.getLast? 0 s := by
  refine findAllFrom_hit hne ?_ .byte pos
  obtain ⟨b, r', rfl⟩ := List.exists_cons_of_ne_nil hne
  simp only [nameRun, takeWhile_run hr hs]

end Text

namespace Pass

open Text (IsRun)

/-! ## New names -/

/-- What an identifier becomes. -/
def Renames.newName (renamed : Renames) (r : Text) : Text := (List.lookup r renamed).getD r

/-- Only variables that hold objects are renamed, and their new names are identifiers. -/
def Renames.For (constructors : List Constructor) (ds : List Declaration) (renamed : Renames) :
    Prop :=
  ∀ r ∈ renamed, (∃ d ∈ ds, d.name = r.1 ∧ (objectName? constructors d.value).isSome = true) ∧
    Name.IsIdentifier r.2

theorem renames_for {constructors : List Constructor} {all : List Declaration} :
    ∀ {ds : List Declaration} {done : Renames} {names : Registry}, ds ⊆ all →
      done.For constructors all → (renames constructors ds done names).1.For constructors all
  | [], _, _, _, hdone => hdone
  | d :: ds, done, names, hds, hdone => by
    obtain ⟨hd, hds⟩ := List.cons_subset.mp hds
    unfold renames
    split
    · rename_i base hbase
      split
      · exact renames_for hds hdone
      · refine renames_for hds fun r hr => ?_
        rcases List.mem_append.mp hr with hr | hr
        · exact hdone r hr
        · rw [List.mem_singleton] at hr
          subst hr
          exact ⟨⟨d, hd, rfl, by rw [hbase]; rfl⟩, (Registry.allocate_spec names .vars base).2.1⟩
    · exact renames_for hds hdone

namespace Renames

variable {constructors : List Constructor} {ds : List Declaration} {renamed : Renames}

/-- An identifier is kept, or it is a variable that holds an object. -/
theorem For.newName_cases (h : renamed.For constructors ds) (r : Text) :
    renamed.newName r = r ∨ (Name.IsIdentifier (renamed.newName r) ∧
      ∃ d ∈ ds, d.name = r ∧ (objectName? constructors d.value).isSome = true) := by
  unfold newName
  cases hlookup : List.lookup r renamed with
  | none => exact .inl rfl
  | some name =>
    obtain ⟨l₁, l₂, hmem, _⟩ := List.lookup_eq_some_iff.mp hlookup
    obtain ⟨hd, hid⟩ := h (r, name) (by rw [hmem]; simp)
    exact .inr ⟨hid, hd⟩

end Renames

/-! ## The edits -/

/-- The edits of the identifiers from a place on. -/
def renameEditsFrom (renamed : Renames) (pos : Nat) (before : Option UInt8) (s : Text) :
    List Edit :=
  (Text.findAllFrom .byte Text.nameRun pos before 0 s).filterMap fun hit =>
    (List.lookup hit.value renamed).map fun name => ⟨hit.start, hit.stop, name⟩

theorem renameEditsFrom_other {b : UInt8} (hb : Byte.isName b = false) (renamed : Renames) (pos : Nat)
    (before : Option UInt8) (s : Text) : renameEditsFrom renamed pos before (b :: s) =
      renameEditsFrom renamed (pos + 1) (some b) s := by
  unfold renameEditsFrom
  rw [Text.findAllFrom_nameRun_other hb]

theorem renameEditsFrom_run {r s : Text} (hne : r ≠ []) (hr : IsRun r) (hs : Text.Bare s)
    (renamed : Renames) (pos : Nat) (before : Option UInt8) :
    renameEditsFrom renamed pos before (r ++ s) =
      ((List.lookup r renamed).map fun name => Edit.mk pos (pos + r.length) name).toList ++
        renameEditsFrom renamed (pos + r.length) r.getLast? s := by
  unfold renameEditsFrom
  rw [Text.findAllFrom_nameRun_run hne hr hs, List.filterMap_cons]
  cases List.lookup r renamed <;> rfl

theorem renameEditsFrom_start {renamed : Renames} {pos : Nat} {before : Option UInt8} {s : Text} :
    ∀ e ∈ renameEditsFrom renamed pos before s, pos ≤ e.start := by
  intro e he
  obtain ⟨hit, hhit, hedit⟩ := List.mem_filterMap.mp he
  obtain ⟨name, _, rfl⟩ := Option.map_eq_some_iff.mp hedit
  exact Text.findAllFrom_start .byte Text.nameRun s hit hhit

/-- The edits can all be made. -/
theorem makeable_renameEdits (renamed : Renames) (s : Text) :
    Makeable s (renameEdits renamed s) := by
  have hstops : Text.nameRun.StopsAt Byte.newline := Text.nameRun_stopsAt rfl
  have hmade : Text.MadeAt (Text.findAll .byte Text.nameRun s) (renameEdits renamed s) := by
    refine .filterMap fun hit hhit e he => ?_
    obtain ⟨name, _, rfl⟩ := Option.map_eq_some_iff.mp he
    exact ⟨rfl, (Text.findAllFrom_within .byte hstops.fits s hit hhit).1, Nat.le_refl _⟩
  exact hmade.makeable hstops.fits

/-- **The edits rename every identifier that has a new name, and keep all else.** -/
theorem splice_renameEdits (renamed : Renames) (s : Text) : ∀ u before,
    Draft.splice (u ++ s) u.length (renameEditsFrom renamed u.length before s) =
      Text.substitute renamed.newName s := by
  -- along the runs, with `u` the part of the text that is done
  induction s using Text.run_induction with
  | nil =>
    intro u before
    simp [renameEditsFrom, Text.findAllFrom, Draft.splice]
  | other b s hb ih =>
    intro u before
    have hrest := ih (u ++ [b]) (some b)
    rw [List.append_assoc, List.length_append] at hrest
    rw [renameEditsFrom_other hb, Text.substitute_other _ hb, ← hrest]
    exact Draft.splice_cons fun e he => renameEditsFrom_start e he
  | run r s hne hr hs ih =>
    intro u before
    have hrest := ih (u ++ r) r.getLast?
    rw [renameEditsFrom_run hne hr hs, Text.substitute_run _ hne hr hs, ← hrest,
      ← List.length_append, ← List.append_assoc, Renames.newName]
    cases List.lookup r renamed with
    | none => exact Draft.splice_append fun e he => renameEditsFrom_start e he
    | some name =>
      have hedit := Draft.splice_edit u (r ++ s) (u ++ r).length name
        (renameEditsFrom renamed (u ++ r).length r.getLast? s)
      rwa [← List.append_assoc] at hedit

theorem reviseOrAbort_renameEdits {α : Type} (renamed : Renames) (s : Text) :
    (reviseOrAbort s (renameEdits renamed s) : Outcome α Text) =
      .ok (Text.substitute renamed.newName s) := by
  have hout : Draft.splice s 0 (renameEdits renamed s) = Text.substitute renamed.newName s :=
    splice_renameEdits renamed s [] none
  rw [(makeable_renameEdits renamed s).reviseOrAbort_eq, hout]

/-- **Naming variables after their objects is a substitution**, and never fails on well-formed
declarations. -/
theorem describe_eq {s : Text} {ds : List Declaration} (h : Declaration.extract s = .ok ds)
    (constructors : List Constructor) (names : Registry) :
    describe constructors names s =
      let r := renames constructors ds [] (reserveOthers constructors ds names)
      .ok (Text.substitute r.1.newName s, r.2) := by
  unfold describe extractOrFail
  rw [h]
  simp only [Except.mapError, bind, Except.bind, reviseOrAbort_renameEdits]
  rfl

end Pass

end ActionLog
