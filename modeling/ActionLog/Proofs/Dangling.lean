import ActionLog.Proofs.Passing

/-!
# References that are left over

A variable is dropped as soon as one use of it was replaced, and other references to it may be
left over.  None is where it is passed wherever it is referred to.

* `mentions` — whether a text refers to a name, outside of strings;
* `PassedOnly`, `NotPassedQuoted` — a name that is passed wherever it is referred to, and one that is
  not passed inside of strings;
* `LineOf` — a line in its text, and what offsets say of it.

Principal results: `consolidate_no_dangling` and `consolidate_leaves_operand`.
-/

set_option autoImplicit false

namespace ActionLog.Pass

open Declaration (valueOf extract)
open Text (IsRun Bare WordIn)

/-! ## References in a text -/

/-- Whether a name stands at an offset as a whole word. -/
def wordAt (n s : Text) (i : Nat) : Bool :=
  (Text.wordPattern n (s.take i).getLast? (s.drop i)).isSome

/-- Whether an offset lies in a string. -/
def quotedAt (s : Text) (i : Nat) : Bool := (openQuote none (s.take i)).isSome

/-- Whether a text refers to a name outside of strings. -/
def mentions (n s : Text) : Bool :=
  (List.range s.length).any fun i => wordAt n s i && !quotedAt s i

/-- Every reference to `n` in the text is passed, or stands on a line that declares `n`. -/
def PassedOnly (n s : Text) : Prop :=
  ∀ i < s.length, wordAt n s i = true → quotedAt s i = false →
    passed (s.drop (i + n.length)) = true ∨ declares n (lineAt s i) = true

/-- The name is not passed inside of a string. -/
def NotPassedQuoted (n s : Text) : Prop :=
  ∀ i < s.length, wordAt n s i = true → passed (s.drop (i + n.length)) = true →
    quotedAt s i = false

instance (n s : Text) : Decidable (PassedOnly n s) :=
  inferInstanceAs (Decidable (∀ i < s.length, _ → _))

instance (n s : Text) : Decidable (NotPassedQuoted n s) :=
  inferInstanceAs (Decidable (∀ i < s.length, _ → _))

theorem wordAt_of_wordIn {n s u v : Text} (hne : n ≠ []) (h : WordIn n s u v) :
    u.length < s.length ∧ wordAt n s u.length = true := by
  have hsplit := h.split
  rw [List.append_assoc] at hsplit
  constructor
  · have hpos := List.length_pos_iff.mpr hne
    rw [hsplit]
    simp only [List.length_append]
    omega
  · unfold wordAt
    rw [hsplit, List.take_left, List.drop_left]
    exact Text.wordPattern_isSome.mpr ⟨hne, v, rfl, h.before, h.behind⟩

theorem wordIn_of_wordAt {n s : Text} {i : Nat} (h : wordAt n s i = true) :
    ∃ v, WordIn n s (s.take i) v := by
  obtain ⟨_, v, hdrop, hbefore, hv⟩ := Text.wordPattern_isSome.mp h
  refine ⟨v, ?_, hbefore, hv⟩
  rw [List.append_assoc, ← hdrop, List.take_append_drop]

theorem quotedAt_eq_false {s u t : Text} (hs : s = u ++ t) :
    quotedAt s u.length = false ↔ openQuote none u = none := by
  unfold quotedAt
  rw [hs, List.take_left, Option.isSome_eq_false_iff, Option.isNone_iff_eq_none]

theorem mentions_eq_false {n s : Text} (hne : n ≠ []) : mentions n s = false ↔ Unmentioned n s := by
  unfold mentions
  rw [List.any_eq_false]
  constructor
  · intro h u v hmention
    obtain ⟨hlt, hword⟩ := wordAt_of_wordIn hne hmention.toWordIn
    refine h u.length (List.mem_range.mpr hlt) ?_
    rw [hword, (quotedAt_eq_false (hmention.split.trans (List.append_assoc _ _ _))).mpr
      hmention.shown]
    rfl
  · intro h i _ hat
    rw [Bool.and_eq_true, Bool.not_eq_true'] at hat
    obtain ⟨v, hword⟩ := wordIn_of_wordAt hat.1
    refine h _ _ ⟨hword, ?_⟩
    simpa [quotedAt] using hat.2

/-- The line `l` of the text `s` with `pre` before it and the lines `ls` behind it. -/
structure LineOf (s pre l : Text) (ls : List Text) : Prop where
  split : s = pre ++ (l ++ following ls)
  start : lastLine pre = []
  closed : openQuote none pre = none
  newline : Byte.newline ∉ l

section LineOf

variable {s pre l n u v : Text} {ls : List Text}

theorem LineOf.next {l' : Text} (h : LineOf s pre l (l' :: ls)) (hl : openQuote none l = none)
    (hnew : Byte.newline ∉ l') : LineOf s (pre ++ l ++ [Byte.newline]) l' ls := by
  refine ⟨?_, ?_, ?_, hnew⟩
  · rw [h.split, following_cons]
    simp
  · rw [lastLine_concat]
    rfl
  · rw [openQuote_append, openQuote_append, h.closed, hl]
    rfl

theorem LineOf.lastLine_eq (h : LineOf s pre l ls) (hword : WordIn n l u v) :
    lastLine (pre ++ u) = u := by
  have hnew : Byte.newline ∉ u := fun hmem => h.newline (by rw [hword.split]; simp [hmem])
  rw [lastLine_append pre hnew, h.start, List.nil_append]

/-- A word of a line is a word of the text. -/
theorem LineOf.word (h : LineOf s pre l ls) (hword : WordIn n l u v) :
    WordIn n s (pre ++ u) (v ++ following ls) := by
  refine ⟨?_, ?_, Text.bare_append hword.behind (bare_following ls)⟩
  · rw [h.split, hword.split]
    simp
  · rw [← getLast?_lastLine, h.lastLine_eq hword]
    exact hword.before

theorem LineOf.quotedAt_eq (h : LineOf s pre l ls) (hword : WordIn n l u v) :
    quotedAt s (pre ++ u).length = false ↔ openQuote none u = none := by
  rw [quotedAt_eq_false ((h.word hword).split.trans (List.append_assoc _ _ _)), openQuote_append,
    h.closed]

theorem LineOf.drop_eq (h : LineOf s pre l ls) (hword : WordIn n l u v) :
    s.drop ((pre ++ u).length + n.length) = v ++ following ls := by
  rw [(h.word hword).split, ← List.length_append, List.drop_left]

theorem LineOf.lineAt_eq (h : LineOf s pre l ls) (hword : WordIn n l u v) :
    lineAt s (pre ++ u).length = l := by
  have hnew : Byte.newline ∉ n ++ v := by
    intro hmem
    refine h.newline ?_
    rw [hword.split, List.append_assoc]
    exact List.mem_append_right _ hmem
  rw [(h.word hword).split, List.append_assoc, lineAt_append, h.lastLine_eq hword,
    ← List.append_assoc, takeWhile_line hnew, ← List.append_assoc]
  exact hword.split.symm

/-- What offsets say of a line with a variable that is only passed. -/
theorem LineOf.tidy {declared : List Text} (h : LineOf s pre l ls)
    (hne : ∀ x ∈ declared, x ≠ []) (hn : n ∈ declared) (hclosed : openQuote none l = none)
    (hquoted : ∀ x ∈ declared, NotPassedQuoted x s) (hpassed : PassedOnly n s)
    (hown : declares n l = true → ∀ x ∈ declared, Unmentioned x (valueOf l)) :
    Tidy declared n l (following ls) := by
  refine ⟨⟨hclosed, fun m hm u v hl hu hv => ?_⟩, hown, fun hdecl u v hmention => ?_⟩
  · have hword : WordIn m l u v := ⟨hl, hu, bare_of_passed hv⟩
    obtain ⟨hlt, hat⟩ := wordAt_of_wordIn (hne m hm) (h.word hword)
    rw [← h.quotedAt_eq hword]
    refine hquoted m hm _ hlt hat ?_
    rw [h.drop_eq hword]
    exact passed_left hv _
  · have hword := hmention.toWordIn
    obtain ⟨hlt, hat⟩ := wordAt_of_wordIn (hne n hn) (h.word hword)
    rcases hpassed _ hlt hat ((h.quotedAt_eq hword).mpr hmention.shown) with hp | hd
    · rw [h.drop_eq hword] at hp
      exact hp
    · rw [h.lineAt_eq hword, hdecl] at hd
      cases hd

/-- The lines of a text in which a variable is only passed. -/
theorem LineOf.arranged {declared : List Text} (h : LineOf s pre l ls)
    (hne : ∀ x ∈ declared, x ≠ []) (hn : n ∈ declared) (hnew : ∀ x ∈ l :: ls, Byte.newline ∉ x)
    (hclosed : ∀ x ∈ l :: ls, openQuote none x = none)
    (hquoted : ∀ x ∈ declared, NotPassedQuoted x s) (hpassed : PassedOnly n s)
    (hown : ∀ l' ∈ l :: ls, declares n l' = true → ∀ x ∈ declared, Unmentioned x (valueOf l')) :
    Arranged declared n (l :: ls) := by
  induction ls generalizing pre l with
  | nil =>
    rw [List.forall_mem_cons] at hclosed hown
    exact ⟨h.tidy hne hn hclosed.1 hquoted hpassed hown.1, trivial⟩
  | cons l' ls ih =>
    rw [List.forall_mem_cons] at hnew hclosed hown
    exact ⟨h.tidy hne hn hclosed.1 hquoted hpassed hown.1,
      ih (h.next hclosed.1 (hnew.2 l' List.mem_cons_self)) hnew.2 hclosed.2 hown.2⟩

end LineOf

/-- A reference in a text stands on one of its lines. -/
theorem unmentioned_of_lines {n l : Text} {ls : List Text} (hne : n ≠ []) (hn : IsRun n)
    (hclosed : ∀ x ∈ l :: ls, openQuote none x = none) (h : ∀ x ∈ l :: ls, Unmentioned n x) :
    Unmentioned n (l ++ following ls) := by
  induction ls generalizing l with
  | nil =>
    rw [show following [] = [] from rfl, List.append_nil]
    exact h l List.mem_cons_self
  | cons l' ls ih =>
    rw [List.forall_mem_cons] at hclosed h
    intro u v hmention
    rcases Text.word_border hne hn (bare_following (l' :: ls)) hmention.split with
      ⟨c, hcne, rfl, hc⟩ | ⟨e, hl, rfl⟩
    · obtain ⟨b, c, rfl⟩ := List.exists_cons_of_ne_nil hcne
      obtain ⟨rfl, hrest⟩ : Byte.newline = b ∧ l' ++ following ls = c ++ n ++ v := List.cons.inj hc
      have hbefore := hmention.before
      have hshown := hmention.shown
      rw [List.append_cons] at hbefore
      rw [openQuote_append, hclosed.1] at hshown
      exact ih hclosed.2 h.2 c v ⟨⟨hrest, Text.last_append hbefore, hmention.behind⟩, hshown⟩
    · exact h.1 u e ⟨⟨hl, hmention.before, Text.bare_left hmention.behind⟩, hmention.shown⟩

section Consolidated

variable {s n : Text} {ds : List Declaration}

/-- A variable that is only passed, before the pass. -/
theorem settled_of_passedOnly (hds : extract s = .ok ds) (hnames : ∀ d ∈ ds, IsRun d.name)
    (hclosed : ∀ l ∈ Text.lines s, openQuote none l = none)
    (hquoted : ∀ d ∈ ds, NotPassedQuoted d.name s) (hn : n ∈ ds.map (·.name))
    (hvalues : ∀ d ∈ ds, d.name = n → ∀ e ∈ ds, mentions e.name d.value = false)
    (hpassed : PassedOnly n s) : Settled (ds.map (·.name)) n (Text.lines s) := by
  have hne : ∀ x ∈ ds.map (·.name), x ≠ [] :=
    fun x hx => (Declaration.runs_of_extract hds hnames x hx).1
  have hown : ∀ l ∈ Text.lines s, declares n l = true →
      ∀ x ∈ ds.map (·.name), Unmentioned x (valueOf l) := by
    intro l hl hdecl x hx
    rw [← mentions_eq_false (hne x hx)]
    obtain ⟨hisdecl, hname⟩ := declares_iff.mp hdecl
    obtain ⟨d, hd, hdname, hdvalue⟩ := Declaration.exists_of_isDeclaration hds hl hisdecl
    obtain ⟨e, he, rfl⟩ := List.mem_map.mp hx
    rw [← hdvalue]
    exact hvalues d hd (hdname.trans hname) e he
  constructor
  · have hnew : ∀ l ∈ Text.lines s, Byte.newline ∉ l := fun l hl => Text.newline_not_mem hl
    have hs := Text.unlines_lines s
    obtain ⟨l, ls, hcons⟩ := List.exists_cons_of_ne_nil (Text.lines_ne_nil s)
    rw [hcons] at hown hclosed hnew hs ⊢
    rw [unlines_cons] at hs
    have hline : LineOf s [] l ls := ⟨hs.symm, rfl, rfl, hnew l List.mem_cons_self⟩
    refine hline.arranged hne hn hnew hclosed (fun x hx => ?_) hpassed hown
    obtain ⟨d, hd, rfl⟩ := List.mem_map.mp hx
    exact hquoted d hd
  · obtain ⟨d, hd, rfl⟩ := List.mem_map.mp hn
    obtain ⟨l, hl, hon⟩ := (Declaration.mem_extract hds).mp hd
    refine .inl ⟨l, hl, declares_iff.mpr ⟨(Declaration.onLine?_eq_some.mp hon).1, ?_⟩⟩
    exact (Declaration.line_of_onLine? hon).2.1.symm

/-- A variable that is only passed, after the pass. -/
theorem Settled.not_mentions {declared : List Text} (h : Settled declared n (Text.lines s))
    (hne : n ≠ []) (hn : IsRun n) (hgone : ∀ l ∈ Text.lines s, declares n l = false) :
    mentions n s = false := by
  rcases h.fate with ⟨l, hl, hdecl⟩ | hno
  · rw [hgone l hl] at hdecl
    cases hdecl
  · rw [mentions_eq_false hne]
    obtain ⟨l, ls, hcons⟩ := List.exists_cons_of_ne_nil (Text.lines_ne_nil s)
    rw [← Text.unlines_lines s, hcons, unlines_cons]
    rw [hcons] at hno
    refine unmentioned_of_lines hne hn (fun x hx => ?_) hno
    obtain ⟨k, htidy⟩ := h.arranged.tidy (hcons ▸ hx)
    exact htidy.strings.closed

/-- **A variable that is only passed leaves no reference behind**: if all declared names are
identifiers, strings are closed on their lines and pass no declared variable, the values of the
variable refer to none, and it is an argument wherever it is referred to but on a declaration of its
own, then the result does not refer to it once no line there declares it. -/
theorem consolidate_no_dangling {out : Text} (hds : extract s = .ok ds)
    (hnames : ∀ d ∈ ds, IsRun d.name) (hclosed : ∀ l ∈ Text.lines s, openQuote none l = none)
    (hquoted : ∀ d ∈ ds, NotPassedQuoted d.name s) (hn : n ∈ ds.map (·.name))
    (hvalues : ∀ d ∈ ds, d.name = n → ∀ e ∈ ds, mentions e.name d.value = false)
    (hpassed : PassedOnly n s) (hout : consolidate s = .ok out)
    (hgone : ∀ l ∈ Text.lines out, declares n l = false) : mentions n out = false := by
  have hruns := Declaration.runs_of_extract hds hnames
  have hstart := settled_of_passedOnly hds hnames hclosed hquoted hn hvalues hpassed
  have hfold : ds.foldlM inlineCurrent s = .ok out := by
    rw [consolidate_eq] at hout
    unfold extractOrFail at hout
    rw [hds] at hout
    exact hout
  have hend := hstart.foldlM hruns hn (fun d hd => List.mem_map_of_mem hd) hfold
  exact hend.not_mentions (hruns n hn).1 (hruns n hn).2 hgone

end Consolidated

/-- A variable with two declarations that is passed in the value of another one, which is passed over
the end of a line, and whose name stands in strings, too. -/
def passedAround : Text :=
  utf8 ("var n = 5;\nvar o = new Desc();\nvar m = f(n , \"n\");\nvar n = 5;\n" ++
    "o.put('n is', m\n);")

def passedAroundDeclarations : List Declaration :=
  [⟨utf8 "n", utf8 "5", utf8 "var n = 5;"⟩,
    ⟨utf8 "o", utf8 "new Desc()", utf8 "var o = new Desc();"⟩,
    ⟨utf8 "m", utf8 "f(n , \"n\")", utf8 "var m = f(n , \"n\");"⟩,
    ⟨utf8 "n", utf8 "5", utf8 "var n = 5;"⟩]

def passedAroundInlined : Text :=
  utf8 "var o = new Desc();\no.put('n is', f(5 , \"n\")\n);"

theorem consolidate_no_dangling_passedAround :
    PassedOnly (utf8 "n") passedAround ∧ consolidate passedAround = .ok passedAroundInlined ∧
      mentions (utf8 "n") passedAroundInlined = false := by
  have hpassed : PassedOnly (utf8 "n") passedAround := by decide +kernel
  have hout : consolidate passedAround = .ok passedAroundInlined := by decide +kernel
  have hds : extract passedAround = .ok passedAroundDeclarations := by decide +kernel
  exact ⟨hpassed, hout, consolidate_no_dangling hds (by decide +kernel) (by decide +kernel)
    (by decide +kernel) (by decide +kernel) (by decide +kernel) hpassed hout (by decide +kernel)⟩

/-- **A variable is dropped although it is referred to still** where it is an operand: one use is
enough for that. -/
theorem consolidate_leaves_operand :
    ¬ ∀ (s out n : Text) (ds : List Declaration), extract s = .ok ds → consolidate s = .ok out →
      Name.IsIdentifier n → n ∈ ds.map (·.name) →
      (∀ d ∈ ds, d.name = n → ∀ e ∈ ds, mentions e.name d.value = false) →
      (∀ l ∈ Text.lines out, declares n l = false) → mentions n out = false := by
  intro h
  have hbad := h (utf8 "var a = 1;\nf(a);\nb = a + 2;") (utf8 "f(1);\nb = a + 2;") (utf8 "a")
    [⟨utf8 "a", utf8 "1", utf8 "var a = 1;"⟩] (by decide +kernel) (by decide +kernel)
    (by decide) (by decide) (by decide +kernel) (by decide +kernel)
  have hleft : mentions (utf8 "a") (utf8 "f(1);\nb = a + 2;") = true := by decide +kernel
  rw [hleft] at hbad
  cases hbad

-- the value of another variable refers to `n`, but does not pass it
example : consolidate (utf8 "var n = 5;\nvar m = n;\nf(n);\ng(m);") = .ok (utf8 "f(5);\ng(n);") := by
  decide +kernel

-- a variable that is passed in a string puts an end to it
example : consolidate (utf8 "var m = \"n\";\nvar n = 5;\nf(n);\ng(\" m) \");") =
    .ok (utf8 "f(5);\ng(\" \"n\") \");") := by
  decide +kernel

-- a value does not close its string
example : consolidate (utf8 "var m = 1\";\nvar n = 5;\nf(n);\ng(m); h(\" n \");") =
    .ok (utf8 "f(5);\ng(1\"); h(\" n \");") := by
  decide +kernel

-- a name that is no identifier takes the parenthesis away
example : consolidate (utf8 "var )x = 7;\nvar n = 5;\nf(n )x) g(n);") =
    .ok (utf8 "f(n 7) g(5);") := by
  decide +kernel

end ActionLog.Pass
