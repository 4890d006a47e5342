import ActionLog.Proofs.Quote

/-!
# Variables that are only passed

A variable is dropped as soon as one use of it was replaced.  Where it is passed wherever it is
referred to, all references are replaced then, and it stays so whatever else is inlined.

* `Mention`, `OnlyPassed`, `Unmentioned` — references to a variable, outside of strings;
* `Tidy`, `Arranged` — a variable that is only passed, line by line;
* `Arranged.inlined`, `Arranged.inlined_own` — what inlining a variable makes of that, and what
  inlining the variable itself does;
* `Arranged.dropped` — and what dropping lines does.

Principal results: `Settled.inline` and `Settled.foldlM` — throughout the pass, the variable is
declared still or referred to no more.
-/

set_option autoImplicit false

namespace ActionLog.Pass

open Declaration (isDeclaration nameOf valueOf)
open Text (IsRun Bare WordIn)

/-! ## Variables that are only passed -/

/-- The word `n` of a text between `u` and `v`, outside of strings. -/
structure Mention (n t u v : Text) : Prop extends WordIn n t u v where
  shown : openQuote none u = none

/-- The text does not refer to `n`. -/
def Unmentioned (n t : Text) : Prop := ∀ u v, ¬ Mention n t u v

/-- Every reference to `n` on the line is passed, the text `k` following the line. -/
def OnlyPassed (n l k : Text) : Prop := ∀ u v, Mention n l u v → passed (v ++ k) = true

/-- A line with a variable that is only passed: the line declares it, with a value that refers to no
declared name, or every reference on the line is an argument. -/
structure Tidy (declared : List Text) (n l k : Text) : Prop where
  strings : Sealed declared l
  own : declares n l = true → ∀ x ∈ declared, Unmentioned x (valueOf l)
  other : declares n l = false → OnlyPassed n l k

/-- Lines with a variable that is only passed. -/
def Arranged (declared : List Text) (n : Text) : List Text → Prop
  | [] => True
  | l :: ls => Tidy declared n l (following ls) ∧ Arranged declared n ls

/-- On a line that declares a name, the name stands behind no mark and is not passed. -/
theorem exists_nameWord {n l : Text} (hne : n ≠ []) (hn : IsRun n) (h : declares n l = true) :
    ∃ u v, WordIn n l u v ∧ (∀ b ∈ u, Text.isMark b = false) ∧ ∀ k, passed (v ++ k) = false := by
  obtain ⟨hline, hname⟩ := declares_iff.mp h
  obtain ⟨x, w, hsplit⟩ := Declaration.exists_nameSplit hline hname hne hn
  have hplain : ∀ b ∈ x ++ n ++ w, Text.isMark b = false := by
    rw [← hsplit.head_eq]
    exact hsplit.plain
  refine ⟨x, w ++ Byte.equals :: Declaration.tail l,
    ⟨?_, hsplit.before, Text.bare_append hsplit.behind rfl⟩, fun b hb => hplain b (by simp [hb]),
    fun k => ?_⟩
  · conv_lhs => rw [hsplit.line_eq, hsplit.head_eq]
    simp
  · rw [List.append_assoc, List.cons_append]
    exact not_passed (fun b hb => hplain b (by simp [hb])) rfl (by decide) _

/-- A line on which a name is only passed does not declare it. -/
theorem not_declares_of_onlyPassed {n l k : Text} (hne : n ≠ []) (hn : IsRun n)
    (h : OnlyPassed n l k) : declares n l = false := by
  by_contra hdecl
  rw [Bool.not_eq_false] at hdecl
  obtain ⟨x, v, hword, hplain, hidle⟩ := exists_nameWord hne hn hdecl
  have hmention : Mention n l x v :=
    ⟨hword, openQuote_plain (fun b hb => isQuote_of_not_mark (hplain b hb)) _⟩
  have hpassed := h x _ hmention
  rw [hidle] at hpassed
  cases hpassed

theorem Tidy.of_onlyPassed {declared : List Text} {n l k : Text} (hne : n ≠ []) (hn : IsRun n)
    (hl : Sealed declared l) (h : OnlyPassed n l k) : Tidy declared n l k := by
  refine ⟨hl, fun hdecl => ?_, fun _ => h⟩
  rw [not_declares_of_onlyPassed hne hn h] at hdecl
  cases hdecl

/-- On a declaration of another name, no use of a declared name stands: nothing is passed before
the equals sign, and the value refers to no such name. -/
theorem LineInlined.eq_of_own {declared : List Text} {n m value l o k : Text}
    (h : LineInlined m value k none l o) (hruns : ∀ x ∈ declared, x ≠ [] ∧ IsRun x)
    (hn : n ∈ declared) (hm : m ∈ declared) (hnew : Byte.newline ∉ l) (hdecl : declares n l = true)
    (hl : Sealed declared l) (hclean : ∀ x ∈ declared, Unmentioned x (valueOf l)) : o = l := by
  obtain ⟨hnne, hnrun⟩ := hruns n hn
  obtain ⟨hmne, hmrun⟩ := hruns m hm
  rw [declares_iff] at hdecl
  obtain ⟨x, w, hsplit⟩ := Declaration.exists_nameSplit hdecl.1 hdecl.2 hnne hnrun
  have hequals : Byte.equals ∈ l := by
    rw [hsplit.line_eq]
    simp
  refine h.eq_self fun u v heq hu => ?_
  by_contra hpassed
  rw [Bool.not_eq_false] at hpassed
  have hquote := hl.uses hm hmrun k u v heq hu hpassed
  rw [Option.or_none] at hu
  rcases Text.word_border (t := Byte.equals :: Declaration.tail l) hmne hmrun rfl
      (hsplit.line_eq.symm.trans heq) with ⟨c, hcne, rfl, hc⟩ | ⟨e, hhead, rfl⟩
  · -- the word stands in the value
    obtain ⟨b, c, rfl⟩ := List.exists_cons_of_ne_nil hcne
    obtain ⟨rfl, htail⟩ : Byte.equals = b ∧ Declaration.tail l = c ++ m ++ v := List.cons.inj hc
    rw [List.append_cons] at hu hquote
    obtain ⟨y, a, e, rfl, hy, hword⟩ := Declaration.word_valueOf hnew hdecl.1 hequals hmne hmrun
      ⟨htail, Text.last_append hu, Text.bare_left (bare_of_passed hpassed)⟩
    have hfront : ∀ b ∈ Declaration.head l ++ [Byte.equals] ++ y, isQuote b = false := by
      intro b hb
      rcases List.mem_append.mp hb with hb | hb
      · rcases List.mem_append.mp hb with hb | hb
        · exact isQuote_of_not_mark (hsplit.plain b hb)
        · rw [List.mem_singleton.mp hb]
          rfl
      · exact isQuote_of_not_mark (Text.white_bytes (hy b hb)).2
    rw [← List.append_assoc, openQuote_append, openQuote_plain hfront] at hquote
    exact hclean m hm a e ⟨hword, hquote⟩
  · -- the word stands before the equals sign
    rw [List.append_assoc, List.cons_append, not_passed _ rfl (by decide)] at hpassed
    · cases hpassed
    · exact fun b hb => hsplit.plain b (by rw [hhead]; exact List.mem_append_right _ hb)

/-! ## Values -/

/-- Every reference to `n` in the value is passed, whatever follows the value. -/
def PassedWithin (n value : Text) : Prop := ∀ a b, Mention n value a b → ∀ z, passed (b ++ z) = true

section Values

variable {line x y n a b : Text}

/-- A reference in the value is one on the line. -/
theorem ValueFrame.mention (h : ValueFrame line x y) (hmention : Mention n (valueOf line) a b) :
    Mention n line (x ++ a) (b ++ y) :=
  ⟨h.word hmention.toWordIn, by rw [h.openQuote_eq]; exact hmention.shown⟩

theorem OnlyPassed.valueOf {k : Text} (hline : OnlyPassed n line k) (h : ValueFrame line x y) :
    PassedWithin n (valueOf line) := by
  intro a b hmention z
  have hpassed := hline _ _ (h.mention hmention)
  rw [List.append_assoc] at hpassed
  refine passed_append (fun hp => ?_) hpassed
  rw [h.idle k] at hp
  cases hp

theorem Unmentioned.valueOf (hline : Unmentioned n line) (h : ValueFrame line x y) :
    Unmentioned n (valueOf line) :=
  fun _ _ hmention => hline _ _ (h.mention hmention)

theorem Unmentioned.passedWithin (h : Unmentioned n line) : PassedWithin n line :=
  fun _ _ hmention => absurd hmention (h _ _)

end Values

/-! ## Inlining a variable -/

section Inlined

variable {declared ls os : List Text} {m n value : Text}

/-- Where a reference on a new line comes from. -/
theorem Mention.origin {l o k u v : Text} (h : Mention n o u v) (hl : Sealed declared l)
    (hclosed : openQuote none value = none) (hruns : ∀ x ∈ declared, x ≠ [] ∧ IsRun x)
    (hm : m ∈ declared) (hn : n ∈ declared) (line : LineInlined m value k none l o) :
    (∃ u' v', Mention n l u' v' ∧ (m = n → passed (v' ++ k) = false) ∧
      LineInlined m value k n.getLast? v' v) ∨
    ∃ a b w, Mention n value a b ∧ v = b ++ w := by
  rcases hl.origin hclosed hruns hm hn line h.toWordIn with
    ⟨u', v', hword, hquote, hidle, hback⟩ | ⟨a, b, w, hword, hquote, hv⟩
  · exact .inl ⟨u', v', ⟨hword, hquote.trans h.shown⟩, hidle, hback⟩
  · exact .inr ⟨a, b, w, ⟨hword, hquote.trans h.shown⟩, hv⟩

theorem OnlyPassed.inlined {k k' l o : Text} (h : OnlyPassed n l k) (hl : Sealed declared l)
    (hclosed : openQuote none value = none) (hruns : ∀ x ∈ declared, x ≠ [] ∧ IsRun x)
    (hm : m ∈ declared) (hn : n ∈ declared) (line : LineInlined m value k none l o)
    (hvalue : PassedWithin n value) (hk : passed k = true → passed k' = true) :
    OnlyPassed n o k' := by
  intro u v ho
  obtain ⟨hmne, hmrun⟩ := hruns m hm
  rcases ho.origin hl hclosed hruns hm hn line with
    ⟨u', v', hmention, _, rest⟩ | ⟨a, b, w, hmention, rfl⟩
  · exact rest.passed_out hmne hmrun hk (h u' v' hmention)
  · rw [List.append_assoc]
    exact hvalue a b hmention _

/-- **A variable that is only passed stays so** when a declared variable is inlined, and its
declarations stay. -/
theorem Arranged.inlined (h : Arranged declared n ls) (hlines : InlinedLines m value ls os)
    (hruns : ∀ x ∈ declared, x ≠ [] ∧ IsRun x) (hn : n ∈ declared) (hm : m ∈ declared)
    (hnew : ∀ l ∈ ls, Byte.newline ∉ l) (hsealed : Sealed declared value)
    (hvalue : PassedWithin n value) :
    Arranged declared n os ∧ ∀ l ∈ ls, declares n l = true → l ∈ os := by
  obtain ⟨hnne, hnrun⟩ := hruns n hn
  obtain ⟨hmne, hmrun⟩ := hruns m hm
  induction hlines with
  | nil => exact ⟨h, fun l hl => absurd hl List.not_mem_nil⟩
  | @own l ls os _ rest ih =>
    rw [List.forall_mem_cons] at hnew
    obtain ⟨hrest, hkept⟩ := ih h.2 hnew.2
    refine ⟨⟨⟨h.1.strings, h.1.own, fun hdecl u v hl => ?_⟩, hrest⟩, ?_⟩
    · exact passed_append (rest.passed_out hmne hmrun) (h.1.other hdecl u v hl)
    · intro l' hl' hdecl
      rcases List.mem_cons.mp hl' with rfl | hl'
      · exact List.mem_cons_self
      · exact List.mem_cons_of_mem _ (hkept l' hl' hdecl)
  | @other l o ls os _ line rest ih =>
    rw [List.forall_mem_cons] at hnew
    obtain ⟨hrest, hkept⟩ := ih h.2 hnew.2
    have hown : declares n l = true → o = l := fun hdecl =>
      line.eq_of_own hruns hn hm hnew.1 hdecl h.1.strings (h.1.own hdecl)
    refine ⟨⟨?_, hrest⟩, ?_⟩
    · cases hdecl : declares n l with
      | true =>
        rw [hown hdecl]
        refine ⟨h.1.strings, h.1.own, fun hnot => ?_⟩
        rw [hdecl] at hnot
        cases hnot
      | false =>
        exact .of_onlyPassed hnne hnrun (h.1.strings.inlined hsealed hruns hm line)
          ((h.1.other hdecl).inlined h.1.strings hsealed.closed hruns hm hn line hvalue
            (rest.passed_out hmne hmrun))
    · intro l' hl' hdecl
      rcases List.mem_cons.mp hl' with rfl | hl'
      · rw [hown hdecl]
        exact List.mem_cons_self
      · exact List.mem_cons_of_mem _ (hkept l' hl' hdecl)

/-- **Inlining a variable that is only passed replaces every reference to it.** -/
theorem Arranged.inlined_own (h : Arranged declared n ls) (hlines : InlinedLines n value ls os)
    (hruns : ∀ x ∈ declared, x ≠ [] ∧ IsRun x) (hn : n ∈ declared)
    (hclosed : openQuote none value = none) (hvalue : Unmentioned n value) :
    ∀ o ∈ os, declares n o = true ∨ Unmentioned n o := by
  induction hlines with
  | nil => exact fun o ho => absurd ho List.not_mem_nil
  | own hdecl _ ih => exact List.forall_mem_cons.mpr ⟨.inl hdecl, ih h.2⟩
  | @other l o ls os hdecl line _ ih =>
    refine List.forall_mem_cons.mpr ⟨.inr fun u v ho => ?_, ih h.2⟩
    rcases ho.origin h.1.strings hclosed hruns hn hn line with
      ⟨u', v', hmention, hidle, _⟩ | ⟨a, b, w, hmention, _⟩
    · have hpassed := h.1.other hdecl u' v' hmention
      rw [hidle rfl] at hpassed
      cases hpassed
    · exact hvalue a b hmention

/-- A name that neither the lines nor the value refer to is not put in. -/
theorem Arranged.unmentioned (h : Arranged declared n ls) (hlines : InlinedLines m value ls os)
    (hruns : ∀ x ∈ declared, x ≠ [] ∧ IsRun x) (hn : n ∈ declared) (hm : m ∈ declared)
    (hclosed : openQuote none value = none) (hvalue : Unmentioned n value)
    (hls : ∀ l ∈ ls, Unmentioned n l) : ∀ o ∈ os, Unmentioned n o := by
  induction hlines with
  | nil => exact hls
  | own _ _ ih =>
    rw [List.forall_mem_cons] at hls ⊢
    exact ⟨hls.1, ih h.2 hls.2⟩
  | @other l o ls os _ line _ ih =>
    rw [List.forall_mem_cons] at hls ⊢
    refine ⟨fun u v ho => ?_, ih h.2 hls.2⟩
    rcases ho.origin h.1.strings hclosed hruns hm hn line with
      ⟨u', v', hmention, _, _⟩ | ⟨a, b, w, hmention, _⟩
    · exact hls.1 u' v' hmention
    · exact hvalue a b hmention

end Inlined

/-! ## Dropping lines -/

/-- Nothing is passed to the lines of a declaration. -/
theorem declaration_not_passed {line : Text} (h : isDeclaration line = true) (z : Text) :
    passed (line ++ z) = false := by
  unfold isDeclaration at h
  split at h
  · rename_i g rest hafter
    obtain ⟨indent, rfl, hindent⟩ := Declaration.afterKeyword?_eq_some hafter
    rw [Declaration.keyword_eq, List.append_assoc, List.append_assoc]
    refine not_passed (fun b hb => ?_) rfl (by decide) _
    exact Text.isMark_of_isGap (Text.isGap_of_isTabOrSpace (hindent b hb))
  · cases h

/-- What comes next stays so when declarations are dropped. -/
theorem passed_filter {line : Text} (hline : isDeclaration line = true) (ls : List Text) :
    ∀ {s : Text}, passed (s ++ following ls) = true →
      passed (s ++ following (ls.filter (· != line))) = true := by
  induction ls with
  | nil => exact fun h => h
  | cons l ls ih =>
    intro s h
    by_cases hl : l = line
    · rw [List.filter_cons_of_neg (by simp [hl])]
      refine passed_append (fun hp => ?_) h
      rw [following_cons, passed_gap rfl, hl, declaration_not_passed hline] at hp
      cases hp
    · rw [List.filter_cons_of_pos (by simpa using hl)]
      have hsplit : ∀ k, s ++ Byte.newline :: (l ++ k) = (s ++ Byte.newline :: l) ++ k := by simp
      rw [following_cons, hsplit] at h ⊢
      exact ih h

theorem Arranged.filter {declared ls : List Text} {n line : Text} (h : Arranged declared n ls)
    (hline : isDeclaration line = true) : Arranged declared n (ls.filter (· != line)) := by
  induction ls with
  | nil => exact h
  | cons l ls ih =>
    by_cases hl : l = line
    · rw [List.filter_cons_of_neg (by simp [hl])]
      exact ih h.2
    · rw [List.filter_cons_of_pos (by simpa using hl)]
      refine ⟨⟨h.1.strings, h.1.own, fun hdecl u v hmention => ?_⟩, ih h.2⟩
      exact passed_filter hline ls (h.1.other hdecl u v hmention)

theorem Arranged.drop_front {declared ls : List Text} {n : Text} :
    ∀ {front : List Text}, Arranged declared n (front ++ ls) → Arranged declared n ls
  | [], h => h
  | _ :: _, h => drop_front h.2

/-- Empty lines at the end pass nothing. -/
theorem Arranged.drop_end {declared ls : List Text} {n : Text} {j : Nat}
    (h : Arranged declared n (ls ++ List.replicate j [])) : Arranged declared n ls := by
  induction ls with
  | nil => trivial
  | cons l ls ih =>
    refine ⟨⟨h.1.strings, h.1.own, fun hdecl u v hmention => ?_⟩, ih h.2⟩
    have hpassed : passed (v ++ following (ls ++ List.replicate j [])) = true :=
      h.1.other hdecl u v hmention
    rw [following_append, ← List.append_assoc] at hpassed
    refine passed_gaps (fun b hb => ?_) hpassed
    obtain ⟨e, he, hbe⟩ := List.mem_flatMap.mp hb
    rw [List.eq_of_mem_replicate he, List.mem_singleton] at hbe
    rw [hbe]
    rfl

/-- The lines that are left when a declaration is dropped and newlines at the ends are taken
away. -/
def dropLine (line : Text) (os : List Text) : List Text :=
  Text.lines (Text.trimNewlines (Text.unlines (os.filter (· != line))))

section Dropped

variable {os : List Text} {line : Text}

theorem dropLine_eq (hnew : ∀ o ∈ os, Byte.newline ∉ o) (hne : os.filter (· != line) ≠ []) :
    ∃ i j, os.filter (· != line) =
      List.replicate i [] ++ dropLine line os ++ List.replicate j [] := by
  obtain ⟨i, j, h⟩ := Text.lines_trimNewlines (Text.unlines (os.filter (· != line)))
  rw [Text.lines_unlines (fun l hl => hnew l (List.mem_filter.mp hl).1) hne] at h
  exact ⟨i, j, h⟩

theorem mem_dropLine (hnew : ∀ o ∈ os, Byte.newline ∉ o) {l : Text} (hl : l ∈ os)
    (hline : l ≠ line) (hne : l ≠ []) : l ∈ dropLine line os := by
  have hmem : l ∈ os.filter (· != line) := List.mem_filter.mpr ⟨hl, by simpa using hline⟩
  obtain ⟨i, j, h⟩ := dropLine_eq hnew (List.ne_nil_of_mem hmem)
  rw [h] at hmem
  rcases List.mem_append.mp hmem with hmem | hmem
  · rcases List.mem_append.mp hmem with hmem | hmem
    · exact absurd (List.eq_of_mem_replicate hmem) hne
    · exact hmem
  · exact absurd (List.eq_of_mem_replicate hmem) hne

theorem of_mem_dropLine (hnew : ∀ o ∈ os, Byte.newline ∉ o) {l : Text}
    (hl : l ∈ dropLine line os) : l = [] ∨ l ∈ os := by
  by_cases hnil : os.filter (· != line) = []
  · unfold dropLine at hl
    rw [hnil] at hl
    exact .inl (List.mem_singleton.mp hl)
  · obtain ⟨i, j, h⟩ := dropLine_eq hnew hnil
    have hmem : l ∈ os.filter (· != line) := by
      rw [h]
      exact List.mem_append_left _ (List.mem_append_right _ hl)
    exact .inr (List.mem_filter.mp hmem).1

/-- **A variable that is only passed stays so** when a declaration is dropped. -/
theorem Arranged.dropped {declared : List Text} {n : Text} (h : Arranged declared n os)
    (hruns : ∀ x ∈ declared, x ≠ [] ∧ IsRun x) (hn : n ∈ declared)
    (hnew : ∀ o ∈ os, Byte.newline ∉ o) (hline : isDeclaration line = true) :
    Arranged declared n (dropLine line os) := by
  by_cases hnil : os.filter (· != line) = []
  · unfold dropLine
    rw [hnil]
    refine ⟨⟨⟨rfl, fun m hm u v hsplit => ?_⟩, fun hdecl => ?_, fun _ u v hmention => ?_⟩, trivial⟩
    · exact absurd hsplit (by simp [(hruns m hm).1])
    · cases hdecl
    · exact absurd hmention.split (by simp [(hruns n hn).1])
  · obtain ⟨i, j, heq⟩ := dropLine_eq hnew hnil
    have hfilter := h.filter hline
    rw [heq, List.append_assoc] at hfilter
    exact hfilter.drop_front.drop_end

end Dropped

/-! ## The whole pass -/

/-- A variable that is only passed, and that is declared still or referred to no more. -/
structure Settled (declared : List Text) (n : Text) (ls : List Text) : Prop where
  arranged : Arranged declared n ls
  fate : (∃ l ∈ ls, declares n l = true) ∨ ∀ l ∈ ls, Unmentioned n l

theorem Arranged.tidy {declared ls : List Text} {n l : Text} (h : Arranged declared n ls)
    (hl : l ∈ ls) : ∃ k, Tidy declared n l k := by
  induction ls with
  | nil => cases hl
  | cons l' ls ih =>
    rcases List.mem_cons.mp hl with rfl | hl
    · exact ⟨_, h.1⟩
    · exact ih h.2 hl

/-- A variable that is declared or not referred to on each line is declared or not referred to when
lines are dropped. -/
theorem fate_dropLine {n line : Text} {os : List Text} (hne : n ≠ [])
    (hnew : ∀ o ∈ os, Byte.newline ∉ o) (hos : ∀ o ∈ os, declares n o = true ∨ Unmentioned n o) :
    (∃ l ∈ dropLine line os, declares n l = true) ∨ ∀ l ∈ dropLine line os, Unmentioned n l := by
  by_cases hex : ∃ l ∈ dropLine line os, declares n l = true
  · exact .inl hex
  · refine .inr fun l hl => ?_
    rcases of_mem_dropLine hnew hl with rfl | hmem
    · exact fun u v hmention => absurd hmention.split (by simp [hne])
    · rcases hos l hmem with hown | hno
      · exact absurd ⟨l, hl, hown⟩ hex
      · exact hno

/-- **Inlining a declared variable keeps a variable settled.** -/
theorem Settled.inline {declared : List Text} {m n s out : Text} {d : Declaration}
    (h : Settled declared n (Text.lines s)) (hruns : ∀ x ∈ declared, x ≠ [] ∧ IsRun x)
    (hn : n ∈ declared) (hm : m ∈ declared) (hcurrent : current? m s = some d)
    (hout : inline d s = .ok out) : Settled declared n (Text.lines out) := by
  obtain ⟨hmne, hmrun⟩ := hruns m hm
  obtain ⟨hline, hdecl, rfl, hvalue, hequals⟩ := current?_eq_some hcurrent
  obtain ⟨hisdecl, hname⟩ := declares_iff.mp hdecl
  have hnew := Text.newline_not_mem hline
  obtain ⟨x, y, hframe⟩ :=
    exists_valueFrame hnew hisdecl (by rw [hname]; exact hmne) (by rw [hname]; exact hmrun)
  obtain ⟨k, htidy⟩ := h.arranged.tidy hline
  have hsealed := htidy.strings.valueOf hframe
  have hvaluenew := Declaration.newline_not_mem_valueOf hnew hisdecl hequals
  have hwithin : PassedWithin n (valueOf d.line) := by
    cases hown : declares n d.line with
    | true => exact (htidy.own hown n hn).passedWithin
    | false => exact (htidy.other hown).valueOf hframe
  rw [← hvalue] at hsealed hvaluenew hwithin
  rcases inline_eq_ok hout with rfl | ⟨revised, hrevised, rfl⟩
  · exact h
  · have hlines := inlinedLines_of_revise hmne hmrun hvaluenew hrevised
    have hsnew : ∀ l ∈ Text.lines s, Byte.newline ∉ l := fun l hl => Text.newline_not_mem hl
    have hosnew := hlines.newline_not_mem hvaluenew hsnew
    obtain ⟨harranged, hkept⟩ := h.arranged.inlined hlines hruns hn hm hsnew hsealed hwithin
    refine ⟨harranged.dropped hruns hn hosnew hisdecl, ?_⟩
    rcases h.fate with ⟨l, hl, hown⟩ | hno
    · by_cases hmn : d.name = n
      · rw [hmn] at hlines hdecl
        have hclean := htidy.own hdecl n hn
        rw [← hvalue] at hclean
        exact fate_dropLine (hruns n hn).1 hosnew
          (h.arranged.inlined_own hlines hruns hn hsealed.closed hclean)
      · -- a declaration of the variable is not dropped with another one
        refine .inl ⟨l, mem_dropLine hosnew (hkept l hl hown) ?_ ?_, hown⟩
        · rintro rfl
          exact hmn (hname.symm.trans (declares_iff.mp hown).2)
        · rintro rfl
          cases hown
    · have hclean := (hno _ hline).valueOf hframe
      rw [← hvalue] at hclean
      exact fate_dropLine (hruns n hn).1 hosnew fun o ho =>
        .inr (h.arranged.unmentioned hlines hruns hn hm hsealed.closed hclean hno o ho)

/-- One step of the pass: a variable with the value that it has now. -/
def inlineCurrent (s : Text) (d : Declaration) : Outcome Text Text :=
  match current? d.name s with
  | some now => if isConstruction now.value then .ok s else inline now s
  | none => .ok s

theorem consolidate_eq (s : Text) :
    consolidate s = extractOrFail s s >>= fun ds => ds.foldlM inlineCurrent s := rfl

theorem Settled.step {declared : List Text} {n s out : Text} {d : Declaration}
    (h : Settled declared n (Text.lines s)) (hruns : ∀ x ∈ declared, x ≠ [] ∧ IsRun x)
    (hn : n ∈ declared) (hd : d.name ∈ declared) (hout : inlineCurrent s d = .ok out) :
    Settled declared n (Text.lines out) := by
  unfold inlineCurrent at hout
  split at hout
  · rename_i now hcurrent
    split at hout
    · cases hout
      exact h
    · exact h.inline hruns hn hd hcurrent hout
  · cases hout
    exact h

/-- **The pass keeps a variable settled**, whichever declared variables it inlines and in whichever
order. -/
theorem Settled.foldlM {declared : List Text} {n : Text}
    (hruns : ∀ x ∈ declared, x ≠ [] ∧ IsRun x) (hn : n ∈ declared) {ds : List Declaration}
    (hds : ∀ d ∈ ds, d.name ∈ declared) {s out : Text} (h : Settled declared n (Text.lines s))
    (hout : ds.foldlM inlineCurrent s = .ok out) : Settled declared n (Text.lines out) := by
  induction ds generalizing s with
  | nil =>
    cases hout
    exact h
  | cons d ds ih =>
    rw [List.forall_mem_cons] at hds
    rw [List.foldlM_cons] at hout
    cases hstep : inlineCurrent s d with
    | error e =>
      rw [hstep] at hout
      cases hout
    | ok s' =>
      rw [hstep] at hout
      exact ih hds.2 (h.step hruns hn hds.1 hstep) hout

end ActionLog.Pass
