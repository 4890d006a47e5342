import ActionLog.Proofs.Inline
import ActionLog.Proofs.Word

/-!
# Words replaced by texts

A substitution puts a text in the place of every word.  The texts put in are separated from what
stands around them as the words were, so that no word goes across their borders.

* `substitute_append_bare`, `substitute_append_last` — substitution on both sides of a border;
* `substitute_comp` — one substitution after another is a single one;
* `word_origin`, `hasWord_substitute` — the words of the result are those of the texts put in;
* `Pass.passed_substitute` — what comes next stays so;
* `Pass.replaceWord_of_lineInlined` — a line on which a name is only passed, when it is inlined.
-/

set_option autoImplicit false

namespace ActionLog

namespace Text

/-! ## Borders -/

theorem bare_substitute (f : Text → Text) {s : Text} (h : Bare s) : Bare (substitute f s) := by
  cases s with
  | nil => rfl
  | cons b s =>
    rw [substitute_other f h]
    exact h

theorem substitute_append_bare (f : Text → Text) (s : Text) {t : Text} (ht : Bare t) :
    substitute f (s ++ t) = substitute f s ++ substitute f t := by
  induction s using run_induction with
  | nil => rfl
  | other b s hb ih => rw [List.cons_append, substitute_other f hb, substitute_other f hb, ih]; rfl
  | run r s hne hr hs ih =>
    rw [List.append_assoc, substitute_run f hne hr (bare_append hs ht), substitute_run f hne hr hs,
      ih, List.append_assoc]

theorem substitute_append_last (f : Text → Text) {s : Text}
    (hs : s.getLast?.any Byte.isName = false) (t : Text) :
    substitute f (s ++ t) = substitute f s ++ substitute f t := by
  induction s using run_induction with
  | nil => rfl
  | other b s hb ih =>
    rw [List.cons_append, substitute_other f hb, substitute_other f hb,
      ih (last_append (u := [b]) hs)]
    rfl
  | run r s hne hr hbare ih =>
    have hsne : s ≠ [] := by
      rintro rfl
      rw [List.append_nil, run_last hne hr] at hs
      cases hs
    have hrest : Bare (s ++ t) := by
      obtain ⟨b, s', rfl⟩ := List.exists_cons_of_ne_nil hsne
      exact hbare
    rw [List.append_assoc, substitute_run f hne hr hrest, substitute_run f hne hr hbare,
      ih (last_append hs), List.append_assoc]

/-- A text without names is kept in front of any other. -/
theorem substitute_plain (f : Text → Text) {x : Text} (hx : ∀ b ∈ x, Byte.isName b = false)
    (s : Text) : substitute f (x ++ s) = x ++ substitute f s := by
  induction x with
  | nil => rfl
  | cons b x ih =>
    rw [List.forall_mem_cons] at hx
    rw [List.cons_append, substitute_other f hx.1, ih hx.2]
    rfl

theorem last_substitute (f : Text → Text) {s : Text} (hs : s.getLast?.any Byte.isName = false) :
    (substitute f s).getLast?.any Byte.isName = false := by
  rcases List.eq_nil_or_concat s with rfl | ⟨s, b, rfl⟩
  · rfl
  · rw [List.concat_eq_append] at hs ⊢
    rw [List.getLast?_concat] at hs
    have hb : Byte.isName b = false := hs
    rw [substitute_append_bare f s (show Bare [b] from hb), substitute_other f hb, substitute_nil,
      List.getLast?_concat]
    exact hs

/-- **One substitution after another is a single one.** -/
theorem substitute_comp (f g : Text → Text) (s : Text) :
    substitute g (substitute f s) = substitute (fun r => substitute g (f r)) s := by
  induction s using run_induction with
  | nil => rfl
  | other b s hb ih => rw [substitute_other f hb, substitute_other g hb, substitute_other _ hb, ih]
  | run r s hne hr hs ih =>
    rw [substitute_run f hne hr hs, substitute_run _ hne hr hs,
      substitute_append_bare g _ (bare_substitute f hs), ih]

/-- A single name is replaced as a whole. -/
theorem substitute_word (f : Text → Text) {r : Text} (hne : r ≠ []) (hr : IsRun r) :
    substitute f r = f r := by
  have h := substitute_run f hne hr (s := []) rfl
  rwa [substitute_nil, List.append_nil, List.append_nil] at h

theorem newline_not_mem_substitute {f : Text → Text} {s : Text} (hs : Byte.newline ∉ s)
    (hf : ∀ r, r ≠ [] → IsRun r → Byte.newline ∉ f r) : Byte.newline ∉ substitute f s := by
  intro hmem
  rcases mem_substitute hmem with hmem | ⟨r, hne, hr, hmem⟩
  · exact hs hmem
  · exact hf r hne hr hmem

/-! ## Words -/

/-- A text around a word, when both are substituted. -/
theorem WordIn.substitute {r s u v : Text} (h : WordIn r s u v) (hne : r ≠ []) (hr : IsRun r)
    (f : Text → Text) :
    Text.substitute f s = Text.substitute f u ++ f r ++ Text.substitute f v := by
  rw [h.split, List.append_assoc, substitute_append_last f h.before,
    substitute_run f hne hr h.behind, List.append_assoc]

/-- A name has no other word than itself. -/
theorem word_of_isRun {n r a b : Text} (hr : IsRun r) (h : WordIn n r a b) :
    n = r ∧ a = [] ∧ b = [] := by
  have ha : a = [] := by
    by_contra hne
    have hlast := h.before
    rw [class_last hr (h.split.trans (List.append_assoc a n b)) hne] at hlast
    cases hlast
  have hb : b = [] := by
    by_contra hne
    obtain ⟨c, b', rfl⟩ := List.exists_cons_of_ne_nil hne
    have hbare : Byte.isName c = false := h.behind
    rw [hr c (by rw [h.split]; simp)] at hbare
    cases hbare
  refine ⟨?_, ha, hb⟩
  rw [h.split, ha, hb]
  simp

/-- **Where a word of a substituted text comes from**: it stands in the text that was put in the
place of some word. -/
theorem word_origin {f : Text → Text} {n s u v : Text} (hne : n ≠ []) (hn : IsRun n)
    (h : WordIn n (substitute f s) u v) :
    ∃ r u' v' a b, r ≠ [] ∧ IsRun r ∧ WordIn r s u' v' ∧ WordIn n (f r) a b ∧
      u = substitute f u' ++ a ∧ v = b ++ substitute f v' := by
  obtain ⟨hsplit, hbefore, hbehind⟩ := h
  induction s using run_induction generalizing u with
  | nil => simp [hne] at hsplit
  | other c s hc ih =>
    rw [substitute_other f hc] at hsplit
    obtain ⟨u₁, rfl, hrest⟩ := word_front (x := [c]) hne hn (by simpa using hc) hsplit
    obtain ⟨r, u', v', a, b, hrne, hr, hword, hinner, rfl, rfl⟩ :=
      ih hrest (last_append hbefore)
    refine ⟨r, c :: u', v', a, b, hrne, hr, ⟨?_, ?_, hword.behind⟩, hinner, ?_, rfl⟩
    · rw [hword.split]
      rfl
    · cases hlast : u'.getLast? with
      | none => simp [List.getLast?_cons, hlast, hc]
      | some d =>
        have hd := hword.before
        rw [hlast] at hd
        simpa [List.getLast?_cons, hlast] using hd
    · rw [substitute_other f hc]
      rfl
  | run r s hrne hr hs ih =>
    rw [substitute_run f hrne hr hs] at hsplit
    rcases word_border hne hn (bare_substitute f hs) hsplit with ⟨c, hcne, rfl, hc⟩ | ⟨e, he, rfl⟩
    · -- the word stands behind the first one
      obtain ⟨r₁, u', v', a, b, hr₁ne, hr₁, hword, hinner, rfl, rfl⟩ :=
        ih hc (last_append hbefore)
      have hu'ne : u' ≠ [] := by
        rintro rfl
        refine not_bare_run hr₁ne hr₁ (s := v') ?_
        rw [hword.split] at hs
        exact hs
      have hbare : Bare u' := by
        rw [hword.split, List.append_assoc] at hs
        exact bare_left hs
      refine ⟨r₁, r ++ u', v', a, b, hr₁ne, hr₁, ⟨?_, ?_, hword.behind⟩, hinner, ?_, rfl⟩
      · rw [hword.split]
        simp
      · rw [List.getLast?_append, getLast?_or_of_ne_nil hu'ne]
        exact hword.before
      · rw [substitute_run f hrne hr hbare, List.append_assoc]
    · exact ⟨r, [], s, u, e, hrne, hr, ⟨rfl, rfl, hs⟩, ⟨he, hbefore, bare_left hbehind⟩, rfl, rfl⟩

/-- **The words of a substituted text are those of the texts put in.** -/
theorem hasWord_substitute {f : Text → Text} {n s : Text} (hn : IsRun n) :
    hasWord n (substitute f s) = true ↔
      ∃ r, IsRun r ∧ hasWord r s = true ∧ hasWord n (f r) = true := by
  simp only [hasWord_iff]
  constructor
  · rintro ⟨hne, u, v, h⟩
    obtain ⟨r, u', v', a, b, hrne, hr, hword, hinner, _⟩ := word_origin hne hn h
    exact ⟨r, hr, ⟨hrne, u', v', hword⟩, hne, a, b, hinner⟩
  · rintro ⟨r, hr, ⟨hrne, u, v, hword⟩, hne, a, b, hinner⟩
    refine ⟨hne, substitute f u ++ a, b ++ substitute f v, ?_, ?_,
      bare_append hinner.behind (bare_substitute f hword.behind)⟩
    · rw [hword.substitute hrne hr, hinner.split]
      simp
    · rw [List.getLast?_append]
      cases hlast : a.getLast? with
      | none => exact last_substitute f hword.before
      | some c =>
        have hc := hinner.before
        rw [hlast] at hc
        exact hc

end Text

namespace Pass

open Text (IsRun Bare WordIn)

/-! ## Names that are passed -/

/-- **What comes next stays so** when words are replaced. -/
theorem passed_substitute (f : Text → Text) {s k k' : Text}
    (hk : passed k = true → passed k' = true) (h : passed (s ++ k) = true) :
    passed (Text.substitute f s ++ k') = true := by
  induction s with
  | nil => exact hk h
  | cons b s ih =>
    rw [List.cons_append] at h
    by_cases hb : Byte.isGap b = true
    · rw [passed_gap hb] at h
      rw [Text.substitute_other f (isName_of_isGap hb), List.cons_append, passed_gap hb]
      exact ih h
    · rw [Bool.not_eq_true] at hb
      have hname : Byte.isName b = false := bare_of_passed h
      rw [passed_other hb] at h
      rw [Text.substitute_other f hname, List.cons_append, passed_other hb]
      exact h

theorem passed_substitute_self (f : Text → Text) {s : Text} (h : passed s = true) :
    passed (Text.substitute f s) = true := by
  rw [← List.append_nil s] at h
  rw [← List.append_nil (Text.substitute f s)]
  exact passed_substitute f id h

/-- A comma or a parenthesis stands in a text in which one comes next. -/
theorem exists_mark_of_passed {s : Text} (h : passed s = true) :
    ∃ b ∈ s, b = Byte.comma ∨ b = Byte.closeParen := by
  unfold passed at h
  obtain ⟨b, hb, hmark⟩ := (Option.any_eq_true _ _).mp h
  refine ⟨b, (List.dropWhile_suffix Byte.isGap).subset (List.mem_of_mem_head? hb), ?_⟩
  simpa using hmark

/-- **A line on which a name is only passed**, when it is inlined: every word is replaced. -/
theorem replaceWord_of_lineInlined {m value k l o : Text} {before : Option UInt8} (hne : m ≠ [])
    (h : LineInlined m value k before l o)
    (hpassed : ∀ u v, l = u ++ m ++ v → (u.getLast?.or before).any Byte.isName = false → Bare v →
      passed (v ++ k) = true) : o = Text.replaceWordFrom m value before l := by
  induction h with
  | nil => rfl
  | @keep before b s o huse rest ih =>
    have hnone : Text.wordPattern m before (b :: s) = none := by
      by_contra hsome
      obtain ⟨_, v, heq, hbefore, hv⟩ :=
        Text.wordPattern_isSome.mp (Option.isSome_iff_ne_none.mpr hsome)
      exact huse ⟨hbefore, v, heq, hpassed [] v heq hbefore hv⟩
    rw [Text.replaceWordFrom_cons value hnone, ih]
    intro u v hs hu hv
    exact hpassed (b :: u) v (by rw [hs]; rfl) (by rwa [Text.getLast?_cons_or]) hv
  | @put before s o huse rest ih =>
    have hs : Bare s := Text.bare_left (bare_of_passed huse.next)
    have hsome : (Text.wordPattern m before (m ++ s)).isSome = true :=
      Text.wordPattern_isSome.mpr ⟨hne, s, rfl, huse.1, hs⟩
    obtain ⟨x, hx⟩ := Option.isSome_iff_exists.mp hsome
    rw [(Text.wordPattern_eq_some hx).2.1] at hx
    rw [Text.replaceWordFrom_match value hx, ih]
    intro u v hs hu hv
    refine hpassed (m ++ u) v (by rw [hs]; simp) ?_ hv
    rwa [Text.getLast?_append_or hne]

end Pass

end ActionLog
