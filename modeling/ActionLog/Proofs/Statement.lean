import ActionLog.Pass.Normalize
import ActionLog.Proofs.Occurrence

/-!
# Statements

Normalizing cuts a text behind its semicolons and at its newlines, and keeps what is left of the
pieces without white space at their ends.

* `clean_induction` — induction along the ends of statements and lines;
* `statements` — what is kept; `statements_line` and `statements_semicolon` say that it is found
  piece by piece;
* `statements_blank_append`, `statements_append_blank`, `statements_unixLines` — white space at the
  ends of a text and carriage returns before newlines play no part;
* `IsStatement` — the lines of a normalized text; `statements_unlines` says that they are found
  again.

Principal results: `normalize_eq`, `isNormal_normalize` and `normalize_of_isNormal` — normalizing
gives texts of one form, and keeps those that have it.
-/

set_option autoImplicit false

namespace ActionLog

namespace Text

/-! ## The ends of statements and lines -/

/-- No semicolon and no newline. -/
def Clean (s : Text) : Prop := Byte.semicolon ∉ s ∧ Byte.newline ∉ s

instance (s : Text) : Decidable (Clean s) := inferInstanceAs (Decidable (_ ∧ _))

theorem clean_append {x y : Text} : Clean (x ++ y) ↔ Clean x ∧ Clean y := by
  simp only [Clean, List.mem_append, not_or]
  tauto

/-- Induction along the semicolons and newlines of a text. -/
theorem clean_induction {motive : Text → Prop} (last : ∀ x, Clean x → motive x)
    (line : ∀ x s, Clean x → motive s → motive (x ++ Byte.newline :: s))
    (semicolon : ∀ x s, Clean x → motive s → motive (x ++ Byte.semicolon :: s)) (s : Text) :
    motive s := by
  suffices hfront : ∀ x, Clean x → motive (x ++ s) from hfront [] (by simp [Clean])
  -- `x` is the part of the piece that has been read
  induction s with
  | nil =>
    intro x hx
    rw [List.append_nil]
    exact last x hx
  | cons b s ih =>
    intro x hx
    by_cases hnewline : b = Byte.newline
    · subst hnewline
      exact line x s hx (ih [] (by simp [Clean]))
    · by_cases hsemicolon : b = Byte.semicolon
      · subst hsemicolon
        exact semicolon x s hx (ih [] (by simp [Clean]))
      · have hb : Clean [b] := by
          simp [Clean, Ne.symm hnewline, Ne.symm hsemicolon]
        have hlonger := ih (x ++ [b]) (clean_append.mpr ⟨hx, hb⟩)
        rwa [List.append_assoc] at hlonger

end Text

namespace Pass

open Text

/-! ## What is kept -/

/-- What is left of a piece without white space at its ends, if anything is. -/
def kept (t : Text) : List Text := [trim t].filter (· != [])

theorem mem_kept {t l : Text} : l ∈ kept t ↔ l = trim t ∧ l ≠ [] := by
  simp [kept]

theorem kept_of_trimmed {t : Text} (hne : t ≠ []) (ht : trim t = t) : kept t = [t] := by
  simp [kept, ht, hne]

theorem kept_eq_nil {t : Text} : kept t = [] ↔ trim t = [] := by
  simp [kept]

theorem kept_blank_append {m : Text} (hm : m ∈ blanks) (t : Text) : kept (m ++ t) = kept t := by
  rw [kept, trim_blank_append hm, kept]

theorem kept_append_blank {m : Text} (hm : m ∈ blanks) (t : Text) : kept (t ++ m) = kept t := by
  rw [kept, trim_append_blank hm, kept]

/-- The statements of a text, trimmed. -/
def statements (s : Text) : List Text :=
  ((lines (replaceAll [Byte.semicolon] [Byte.semicolon, Byte.newline] s)).map trim).filter (· != [])

theorem statements_line (x s : Text) :
    statements (x ++ Byte.newline :: s) = statements x ++ statements s := by
  unfold statements
  rw [replaceAll_cut (by decide) (by decide), lines_append_newline, List.map_append,
    List.filter_append]

@[simp] theorem statements_nil : statements [] = [] := by decide +kernel

theorem statements_clean {x : Text} (hx : Clean x) : statements x = kept x := by
  unfold statements kept
  rw [replaceAll_of_not_mem List.mem_cons_self _ hx.1, lines_eq_singleton hx.2, List.map_singleton]

/-- A statement ends behind its semicolon. -/
theorem statements_semicolon {x : Text} (hx : Clean x) (s : Text) :
    statements (x ++ Byte.semicolon :: s) = kept (x ++ [Byte.semicolon]) ++ statements s := by
  have hbreak : replaceAll [Byte.semicolon] [Byte.semicolon, Byte.newline]
      (x ++ Byte.semicolon :: s) = x ++ [Byte.semicolon] ++ Byte.newline ::
        replaceAll [Byte.semicolon] [Byte.semicolon, Byte.newline] s := by
    have hfirst : ¬ [Byte.semicolon] <:+: x ++ [Byte.semicolon].dropLast := by
      intro hmem
      rw [List.dropLast_singleton, List.append_nil] at hmem
      exact hx.1 (hmem.subset List.mem_cons_self)
    have hcut : cut [Byte.semicolon] (x ++ Byte.semicolon :: s) = some (x, s) := by
      have hcut := cut_first hfirst s
      rwa [List.append_assoc] at hcut
    rw [replaceAll_eq (by decide), hcut]
    simp
  have hline : lines (x ++ [Byte.semicolon]) = [x ++ [Byte.semicolon]] :=
    lines_eq_singleton (by simpa [hx.2] using (by decide : Byte.newline ≠ Byte.semicolon))
  unfold statements kept
  rw [hbreak, lines_append_newline, hline, List.map_append, List.filter_append, List.map_singleton]

/-! ## White space at the ends -/

/-- White space is a newline, or ends neither a statement nor a line. -/
theorem blank_cases : ∀ m ∈ blanks, m = [Byte.newline] ∨ Clean m := by
  decide +kernel

theorem statements_blank_append {m : Text} (hm : m ∈ blanks) (s : Text) :
    statements (m ++ s) = statements s := by
  rcases blank_cases m hm with rfl | hclean
  · have hline := statements_line [] s
    rwa [statements_nil] at hline
  · -- only the first piece of the text is touched
    induction s using clean_induction with
    | last x hx =>
      rw [statements_clean (clean_append.mpr ⟨hclean, hx⟩), statements_clean hx,
        kept_blank_append hm]
    | line x s hx _ =>
      rw [← List.append_assoc, statements_line, statements_line,
        statements_clean (clean_append.mpr ⟨hclean, hx⟩), statements_clean hx,
        kept_blank_append hm]
    | semicolon x s hx _ =>
      rw [← List.append_assoc, statements_semicolon (clean_append.mpr ⟨hclean, hx⟩),
        statements_semicolon hx, List.append_assoc, kept_blank_append hm]

theorem statements_append_blank {m : Text} (hm : m ∈ blanks) (s : Text) :
    statements (s ++ m) = statements s := by
  rcases blank_cases m hm with rfl | hclean
  · rw [statements_line, statements_nil, List.append_nil]
  · -- the pieces before the last one stay as they are
    induction s using clean_induction with
    | last x hx =>
      rw [statements_clean (clean_append.mpr ⟨hx, hclean⟩), statements_clean hx,
        kept_append_blank hm]
    | line x s _ ih =>
      rw [List.append_assoc, List.cons_append, statements_line, statements_line, ih]
    | semicolon x s hx ih =>
      rw [List.append_assoc, List.cons_append, statements_semicolon hx, statements_semicolon hx, ih]

theorem statements_trim (s : Text) : statements (trim s) = statements s :=
  trim_invariant (fun _ hm => statements_blank_append hm) (fun _ hm => statements_append_blank hm) s

/-- **Carriage returns before newlines play no part**: they are white space at the end of a line. -/
theorem statements_unixLines (s : Text) : statements (unixLines s) = statements s := by
  have hreturn : [Byte.carriageReturn] ∈ blanks := by decide
  induction s using cut_induction (by decide : crlf ≠ []) with
  | last s hs => rw [unixLines_eq, hs]
  | next s l r hs ih =>
    have hsplit : s = l ++ [Byte.carriageReturn] ++ Byte.newline :: r := by
      rw [cut_eq_some hs]
      simp [crlf]
    rw [unixLines_eq, hs]
    show statements (l ++ [Byte.newline] ++ unixLines r) = statements s
    rw [List.append_assoc, List.singleton_append, statements_line, ih, hsplit, statements_line,
      statements_append_blank hreturn]

/-- **A normalized text holds the statements of the text, one a line.** -/
theorem normalize_eq (s : Text) : normalize s = unlines (statements s) := by
  rw [← statements_unixLines]
  rfl

theorem normalize_trim (s : Text) : normalize (trim s) = normalize s := by
  rw [normalize_eq, statements_trim, normalize_eq]

theorem normalize_unixLines (s : Text) : normalize (unixLines s) = normalize s := by
  rw [normalize_eq, statements_unixLines, normalize_eq]

/-! ## The form of a normalized text -/

/-- A line that is a trimmed statement: a semicolon stands at its end only. -/
structure IsStatement (l : Text) : Prop where
  ne_nil : l ≠ []
  trimmed : trim l = l
  semicolon : Byte.semicolon ∉ l.dropLast
  newline : Byte.newline ∉ l

/-- A part of a piece has its semicolon at the end, too. -/
theorem isStatement_of_mem_kept {t l : Text} (hsemicolon : Byte.semicolon ∉ t.dropLast)
    (hnewline : Byte.newline ∉ t) (hl : l ∈ kept t) : IsStatement l := by
  obtain ⟨rfl, hne⟩ := mem_kept.mp hl
  obtain ⟨w, w', ht, _⟩ := trim_eq t
  refine ⟨hne, trim_trim t, fun hmem => hsemicolon ?_, fun hmem => hnewline ?_⟩
  · rw [ht, List.append_assoc, List.dropLast_append_of_ne_nil (by simp [hne])]
    refine List.mem_append_right _ ?_
    cases w' with
    | nil => rwa [List.append_nil]
    | cons c w' =>
      rw [List.dropLast_append_of_ne_nil (List.cons_ne_nil c w')]
      exact List.mem_append_left _ (List.dropLast_subset _ hmem)
  · rw [ht]
    exact List.mem_append_left _ (List.mem_append_right _ hmem)

theorem isStatement_of_mem {s l : Text} (hl : l ∈ statements s) : IsStatement l := by
  have hlast : ∀ {x}, Clean x → l ∈ kept x → IsStatement l := fun {x} hx =>
    isStatement_of_mem_kept (fun hmem => hx.1 (List.dropLast_subset _ hmem)) hx.2
  induction s using clean_induction with
  | last x hx =>
    rw [statements_clean hx] at hl
    exact hlast hx hl
  | line x s hx ih =>
    rw [statements_line, statements_clean hx] at hl
    rcases List.mem_append.mp hl with hl | hl
    · exact hlast hx hl
    · exact ih hl
  | semicolon x s hx ih =>
    rw [statements_semicolon hx] at hl
    rcases List.mem_append.mp hl with hl | hl
    · refine isStatement_of_mem_kept ?_ ?_ hl
      · rw [List.dropLast_concat]
        exact hx.1
      · simpa [hx.2] using (by decide : Byte.newline ≠ Byte.semicolon)
    · exact ih hl

/-- A statement is what is found of it. -/
theorem IsStatement.statements_eq {l : Text} (h : IsStatement l) : statements l = [l] := by
  obtain ⟨b, hb⟩ := Option.ne_none_iff_exists'.mp (mt List.getLast?_eq_none_iff.mp h.ne_nil)
  obtain ⟨x, rfl⟩ := List.getLast?_eq_some_iff.mp hb
  have hx : Clean x := by
    refine ⟨?_, fun hmem => h.newline (List.mem_append_left _ hmem)⟩
    have hsemicolon := h.semicolon
    rwa [List.dropLast_concat] at hsemicolon
  by_cases hend : b = Byte.semicolon
  · subst hend
    rw [statements_semicolon hx, kept_of_trimmed h.ne_nil h.trimmed, statements_nil, List.append_nil]
  · have hclean : Clean (x ++ [b]) := by
      refine clean_append.mpr ⟨hx, by simpa using Ne.symm hend, fun hmem => ?_⟩
      exact h.newline (List.mem_append_right _ hmem)
    rw [statements_clean hclean, kept_of_trimmed h.ne_nil h.trimmed]

/-- **Statements that stand on lines of their own are found again.** -/
theorem statements_unlines {ls : List Text} (h : ∀ l ∈ ls, IsStatement l) :
    statements (unlines ls) = ls := by
  induction ls with
  | nil => exact statements_nil
  | cons l ls ih =>
    rw [List.forall_mem_cons] at h
    cases ls with
    | nil =>
      rw [unlines_singleton]
      exact h.1.statements_eq
    | cons l' ls =>
      rw [unlines_cons_cons, statements_line, h.1.statements_eq, ih h.2]
      rfl

/-- Every line of the text, if it is not empty, is a trimmed statement. -/
def IsNormal (s : Text) : Prop :=
  s ≠ [] → ∀ l ∈ lines s, l ≠ [] ∧ trim l = l ∧ Byte.semicolon ∉ l.dropLast

instance (s : Text) : Decidable (IsNormal s) := inferInstanceAs (Decidable (_ → _))

theorem isNormal_normalize (s : Text) : IsNormal (normalize s) := by
  intro hne l hl
  rw [normalize_eq] at hne hl
  have hsome : statements s ≠ [] := fun hnil => hne (by rw [hnil]; rfl)
  rw [lines_unlines (fun l hl => (isStatement_of_mem hl).newline) hsome] at hl
  have hl := isStatement_of_mem hl
  exact ⟨hl.ne_nil, hl.trimmed, hl.semicolon⟩

theorem normalize_of_isNormal {s : Text} (h : IsNormal s) : normalize s = s := by
  by_cases hnil : s = []
  · subst hnil
    decide +kernel
  · have hlines : ∀ l ∈ lines s, IsStatement l := by
      intro l hl
      obtain ⟨hne, htrimmed, hsemicolon⟩ := h hnil l hl
      exact ⟨hne, htrimmed, hsemicolon, newline_not_mem hl⟩
    have hfound := statements_unlines hlines
    rw [unlines_lines] at hfound
    rw [normalize_eq, hfound, unlines_lines]

end Pass

end ActionLog
