import ActionLog.Proofs.Dangling
import ActionLog.Proofs.Dependency
import ActionLog.Proofs.Underway

/-!
# Texts whose variables are all expanded

In a text whose variables are passed wherever they occur and do not depend on themselves, every
variable that is used is replaced by its full value, and its declarations are dropped.

* `isInlined`, `expandedLines` — the variables that are used, and the lines without them;
* `Expandable` — the texts in question;
* `Expandable.passedElsewhere` — variables are passed on all lines but their own;
* `Expandable.plan`, `Expandable.underway` — what consolidating them is to come to.

Principal results: `consolidate_expands` and `consolidate_misses_expansion`.
-/

set_option autoImplicit false

namespace ActionLog

namespace Pass

open Declaration (isDeclaration nameOf valueOf extract)
open Text (IsRun Bare WordIn hasWord substitute)

/-! ## What is asked for -/

/-- Whether a variable is used: it holds no object, and occurs on a line that does not declare
it. -/
def isInlined (ds : List Declaration) (s n : Text) : Bool :=
  (plainValue? ds n).isSome && (Text.lines s).any fun l => !declares n l && hasWord n l

theorem isInlined_iff {ds : List Declaration} {s n : Text} : isInlined ds s n = true ↔
    (∃ value, plainValue? ds n = some value) ∧
      ∃ l ∈ Text.lines s, declares n l = false ∧ hasWord n l = true := by
  simp [isInlined, Option.isSome_iff_exists]

/-- The lines that declare no variable that is used. -/
def keptLines (ds : List Declaration) (s : Text) : List Text :=
  (Text.lines s).filter fun l => ds.all fun d => !(isInlined ds s d.name && declares d.name l)

/-- A used variable's full value, and any other word as it is. -/
def expandInlined (ds : List Declaration) (s r : Text) : Text :=
  if isInlined ds s r = true then expand ds r else r

/-- The lines that are kept, with the full values of used variables in their place. -/
def expandedLines (ds : List Declaration) (s : Text) : List Text :=
  (keptLines ds s).map (substitute (expandInlined ds s))

/-- Whether the word `n` at an offset is the name that its line declares. -/
def namedAt (n s : Text) (i : Nat) : Bool :=
  declares n (lineAt s i) &&
    Text.trim (lastLine (s.take i) ++ n) == Text.trim (Declaration.head (lineAt s i))

/-- Every word `n` of the text is passed, or is the name that its line declares. -/
def PassedOrNamed (n s : Text) : Prop :=
  ∀ i < s.length, wordAt n s i = true →
    passed (s.drop (i + n.length)) = true ∨ namedAt n s i = true

instance (n s : Text) : Decidable (PassedOrNamed n s) :=
  inferInstanceAs (Decidable (∀ i < s.length, _ → _))

/-- A text whose declared names are identifiers with one declaration each, perhaps repeated, that do
not depend on themselves.  Variables that hold no object hold none when they are expanded either, and
are passed wherever they occur. -/
structure Expandable (s : Text) (ds : List Declaration) : Prop where
  declared : extract s = .ok ds
  names : ∀ d ∈ ds, IsRun d.name
  same : ∀ d ∈ ds, ∀ e ∈ ds, d.name = e.name → d.line = e.line
  acyclic : Acyclic ds
  plain : ∀ d ∈ ds, isConstruction d.value = false → isConstruction (expand ds d.name) = false
  passed : ∀ d ∈ ds, isConstruction d.value = false → PassedOrNamed d.name s

namespace Expandable

variable {s : Text} {ds : List Declaration}

/-! ## Declarations -/

theorem runs (h : Expandable s ds) : ∀ n ∈ ds.map (·.name), n ≠ [] ∧ IsRun n :=
  Declaration.runs_of_extract h.declared h.names

theorem exists_declaration (h : Expandable s ds) {n l : Text} (hl : l ∈ Text.lines s)
    (hdecl : declares n l = true) : ∃ d ∈ ds, d.name = n ∧ d.value = valueOf l ∧ d.line = l := by
  obtain ⟨hline, rfl⟩ := declares_iff.mp hdecl
  obtain ⟨d, hd⟩ := ((Declaration.extract_eq_ok.mp h.declared).1 l hl).2 hline
  obtain ⟨hdline, hname, hvalue, _⟩ := Declaration.line_of_onLine? hd
  exact ⟨d, (Declaration.mem_extract h.declared).mpr ⟨l, hl, hd⟩, hname, hvalue, hdline⟩

theorem exists_line (h : Expandable s ds) {d : Declaration} (hd : d ∈ ds) :
    d.line ∈ Text.lines s ∧ declares d.name d.line = true ∧ d.value = valueOf d.line ∧
      d.value ≠ [] ∧ Byte.equals ∈ d.line := by
  obtain ⟨l, hl, hon⟩ := (Declaration.mem_extract h.declared).mp hd
  obtain ⟨hline, hname, hvalue, _⟩ := Declaration.line_of_onLine? hon
  obtain ⟨hisdecl, hparse⟩ := Declaration.onLine?_eq_some.mp hon
  obtain ⟨hequals, _, _, hne⟩ := Declaration.parse?_eq_some hparse
  rw [hline]
  exact ⟨hl, declares_iff.mpr ⟨hisdecl, hname.symm⟩, hvalue, hne, hequals⟩

theorem plainValue?_eq (h : Expandable s ds) {d : Declaration} (hd : d ∈ ds) :
    plainValue? ds d.name = if isConstruction d.value then none else some d.value := by
  refine Pass.plainValue?_eq (fun d hd e he hname => ?_) hd
  rw [(h.exists_line hd).2.2.1, (h.exists_line he).2.2.1, h.same d hd e he hname]

theorem newline_not_mem_value (h : Expandable s ds) {d : Declaration} (hd : d ∈ ds) :
    Byte.newline ∉ d.value := by
  obtain ⟨hline, hdecl, hvalue, _, hequals⟩ := h.exists_line hd
  obtain ⟨hisdecl, _⟩ := declares_iff.mp hdecl
  rw [hvalue]
  exact Declaration.newline_not_mem_valueOf (Text.newline_not_mem hline) hisdecl hequals

/-- A variable that a value mentions is not the one declared there. -/
theorem not_declares (h : Expandable s ds) {m r l : Text} (hl : l ∈ Text.lines s)
    (hdecl : declares m l = true) (hr : r ∈ ds.map (·.name))
    (hword : hasWord r (valueOf l) = true) : DependsOn ds m r ∧ declares r l = false := by
  obtain ⟨d, hd, rfl, hvalue, _⟩ := h.exists_declaration hl hdecl
  have hdep : DependsOn ds d.name r := ⟨hr, d, hd, rfl, by rwa [hvalue]⟩
  refine ⟨hdep, not_declares_of_ne hdecl ?_⟩
  rintro rfl
  exact h.acyclic _ (.single hdep)

/-! ## Occurrences -/

/-- The text before a line. -/
theorem unlines_append (pre : List Text) (l : Text) (post : List Text) :
    Text.unlines (pre ++ l :: post) =
      pre.flatMap (· ++ [Byte.newline]) ++ (l ++ following post) := by
  induction pre with
  | nil => exact unlines_cons l post
  | cons l' pre ih =>
    rw [List.cons_append, unlines_cons, List.flatMap_cons]
    cases pre with
    | nil =>
      rw [List.nil_append, following_cons]
      simp
    | cons l'' pre =>
      rw [List.cons_append, unlines_cons] at ih
      rw [List.cons_append, following_cons, ih]
      simp

theorem lastLine_behind (pre : List Text) {u : Text} (hu : Byte.newline ∉ u) :
    lastLine (pre.flatMap (· ++ [Byte.newline]) ++ u) = u := by
  rw [lastLine_append _ hu]
  rcases List.eq_nil_or_concat pre with rfl | ⟨pre, l, rfl⟩
  · rfl
  · rw [List.concat_eq_append, List.flatMap_append, List.flatMap_singleton, ← List.append_assoc,
      lastLine_concat]
    rfl

/-- Where a word on a line stands in the text, and what the text says of that place. -/
theorem word_in_text {pre post : List Text} {n l u v : Text}
    (hlines : Text.lines s = pre ++ l :: post) (hne : n ≠ []) (h : WordIn n l u v) :
    ∃ i < s.length, wordAt n s i = true ∧ s.drop (i + n.length) = v ++ following post ∧
      lineAt s i = l ∧ lastLine (s.take i) = u := by
  have hnew : Byte.newline ∉ l := Text.newline_not_mem (s := s) (by rw [hlines]; simp)
  have hs : s = pre.flatMap (· ++ [Byte.newline]) ++ (l ++ following post) := by
    rw [← unlines_append, ← hlines, Text.unlines_lines]
  have hu : Byte.newline ∉ u := fun hmem => hnew (by rw [h.split]; simp [hmem])
  have hlast := lastLine_behind pre hu
  generalize pre.flatMap (· ++ [Byte.newline]) = front at hs hlast
  have hsplit : s = front ++ u ++ (n ++ (v ++ following post)) := by
    rw [hs, h.split]
    simp
  have hin : WordIn n s (front ++ u) (v ++ following post) := by
    refine ⟨by rw [hsplit]; simp, ?_, Text.bare_append h.behind (bare_following post)⟩
    rw [← getLast?_lastLine, hlast]
    exact h.before
  obtain ⟨hlt, hat⟩ := wordAt_of_wordIn hne hin
  refine ⟨(front ++ u).length, hlt, hat, ?_, ?_, ?_⟩
  · rw [hsplit, ← List.drop_drop, List.drop_left, List.drop_left]
  · have hline : n ++ (v ++ following post) = n ++ v ++ following post := by simp
    have hnv : Byte.newline ∉ n ++ v := fun hmem => hnew (by
      rw [h.split, List.append_assoc]
      exact List.mem_append_right _ hmem)
    rw [hsplit, lineAt_append, hlast, hline, takeWhile_line hnv, h.split, List.append_assoc]
  · rw [hsplit, List.take_left, hlast]

/-- **A variable that holds no object is passed on all lines but its own.** -/
theorem passedElsewhere (h : Expandable s ds) {n value : Text}
    (hn : plainValue? ds n = some value) : PassedElsewhere n (Text.lines s) := by
  obtain ⟨d, hd, rfl, hvalue, hplain⟩ := plainValue?_eq_some hn
  obtain ⟨hne, hrun⟩ := h.runs d.name (List.mem_map_of_mem hd)
  rw [← hvalue] at hplain
  intro pre l post u v hlines hforeign hword
  obtain ⟨i, hi, hat, hdrop, hline, _⟩ := word_in_text hlines hne hword
  rcases h.passed d hd hplain i hi hat with hpassed | hnamed
  · rwa [hdrop] at hpassed
  · unfold namedAt at hnamed
    rw [hline, hforeign] at hnamed
    cases hnamed

/-- The keyword stands on a declaration before the name, and is neither passed nor the name. -/
theorem exists_keywordWord {m l : Text} (hne : m ≠ []) (hm : IsRun m) (h : declares m l = true) :
    ∃ u v, WordIn Declaration.keyword l u v ∧ (∀ k, Pass.passed (v ++ k) = false) ∧
      Text.trim (u ++ Declaration.keyword) ≠ Text.trim (Declaration.head l) := by
  obtain ⟨hline, rfl⟩ := declares_iff.mp h
  obtain ⟨_, _, hsplit⟩ := Declaration.exists_nameSplit hline rfl hne hm
  unfold isDeclaration at hline
  split at hline
  · rename_i g rest hafter
    obtain ⟨indent, rfl, hindent⟩ := Declaration.afterKeyword?_eq_some hafter
    rw [Bool.and_eq_true] at hline
    obtain ⟨w, w', hgap, hw, _⟩ := Declaration.nameOf_keyword hindent hline.1 rest
    have hgaps : ∀ b ∈ indent, Byte.isGap b = true :=
      fun b hb => Text.isGap_of_isTabOrSpace (hindent b hb)
    refine ⟨indent, g :: rest, ⟨rfl, ?_, isName_of_isGap hline.1⟩, fun k => ?_, fun htrim => ?_⟩
    · cases hlast : indent.getLast? with
      | none => rfl
      | some b => exact isName_of_isGap (hgaps b (List.mem_of_getLast? hlast))
    · -- the name comes next
      have hrest : indent ++ Declaration.keyword ++ g :: rest =
          indent ++ Declaration.keyword ++ (g :: Declaration.head rest ++
            Byte.equals :: Declaration.tail (indent ++ Declaration.keyword ++ g :: rest)) := by
        conv_lhs => rw [hsplit.line_eq, Declaration.head_keyword hindent hline.1]
        rw [List.append_assoc]
      obtain ⟨c, name, hname⟩ := List.exists_cons_of_ne_nil hne
      have hc : Byte.isName c = true := hm c (by rw [hname]; exact List.mem_cons_self)
      have hcgap : Byte.isGap c = false := by
        by_contra hgap
        rw [isName_of_isGap (by simpa using hgap)] at hc
        cases hc
      rw [List.append_cancel_left hrest, hgap, hname]
      simp only [List.append_assoc, List.cons_append]
      refine not_passed (fun b hb => (Text.white_bytes (hw b hb)).2) hcgap ⟨?_, ?_⟩ _
      · rintro rfl
        cases hc
      · rintro rfl
        cases hc
    · have hself := Text.trim_run hgaps (show ∀ b ∈ ([] : Text), Byte.isGap b = true by simp)
        (show Declaration.keyword.head?.any Byte.isName = true by decide)
        (show Declaration.keyword.getLast?.any Byte.isName = true by decide)
      rw [List.append_nil] at hself
      refine hne ?_
      unfold nameOf
      rw [← htrim, hself]
      decide +kernel
  · cases hline

/-- The keyword is the name of no variable without an object. -/
theorem keyword_not_plain (h : Expandable s ds) : plainValue? ds Declaration.keyword = none := by
  by_contra hplain
  obtain ⟨value, hvalue⟩ := Option.ne_none_iff_exists'.mp hplain
  obtain ⟨d, hd, hname, rfl, hobject⟩ := plainValue?_eq_some hvalue
  obtain ⟨hl, hdecl, -⟩ := h.exists_line hd
  obtain ⟨hne, hrun⟩ := h.runs d.name (List.mem_map_of_mem hd)
  obtain ⟨u, v, hword, hidle, hother⟩ := exists_keywordWord hne hrun hdecl
  obtain ⟨pre, post, hlines⟩ := List.append_of_mem hl
  rw [← hname] at hword hother
  obtain ⟨i, hi, hat, hdrop, hline, hlast⟩ := word_in_text hlines hne hword
  rcases h.passed d hd hobject i hi hat with hpassed | hnamed
  · rw [hdrop, hidle] at hpassed
    cases hpassed
  · unfold namedAt at hnamed
    rw [hline, hlast, Bool.and_eq_true, beq_iff_eq] at hnamed
    exact hother hnamed.2

/-! ## The plan -/

/-- What consolidating the text is to come to. -/
noncomputable def plan (h : Expandable s ds) : Plan where
  declared := ds.map (·.name)
  plain n := (plainValue? ds n).isSome
  used := isInlined ds s
  depth := depth ds
  full := expand ds
  runs := h.runs
  declared_of_plain n hn := by
    obtain ⟨value, hvalue⟩ := Option.isSome_iff_exists.mp hn
    obtain ⟨d, hd, rfl, _⟩ := plainValue?_eq_some hvalue
    exact List.mem_map_of_mem hd
  plain_of_used n hn := Option.isSome_iff_exists.mpr (isInlined_iff.mp hn).1
  keyword_not_plain := by rw [h.keyword_not_plain]; rfl
  newline_not_mem_full n hn := by
    obtain ⟨⟨value, hvalue⟩, -⟩ := isInlined_iff.mp hn
    obtain ⟨d, hd, rfl, _⟩ := plainValue?_eq_some hvalue
    exact not_mem_expand (fun e he => h.newline_not_mem_value he) rfl (h.names d hd)
  full_not_construction n hn := by
    obtain ⟨value, hvalue⟩ := Option.isSome_iff_exists.mp hn
    obtain ⟨d, hd, rfl, rfl, hplain⟩ := plainValue?_eq_some hvalue
    exact h.plain d hd hplain

theorem expand_plan (h : Expandable s ds) : h.plan.expand = expandInlined ds s := rfl

theorem filter_stays (h : Expandable s ds) :
    (Text.lines s).filter h.plan.stays = keptLines ds s := by
  unfold keptLines Plan.stays
  simp only [plan, List.all_map]
  rfl

/-- A variable without an object that a value mentions is used. -/
theorem isInlined_of_word (h : Expandable s ds) {m r l value : Text} (hl : l ∈ Text.lines s)
    (hdecl : declares m l = true) (hr : plainValue? ds r = some value)
    (hword : hasWord r (valueOf l) = true) : isInlined ds s r = true := by
  obtain ⟨d, hd, hname, _⟩ := plainValue?_eq_some hr
  have hrmem : r ∈ ds.map (·.name) := hname ▸ List.mem_map_of_mem hd
  obtain ⟨e, he, hename, -⟩ := h.exists_declaration hl hdecl
  obtain ⟨hne, hrun⟩ := h.runs m (hename ▸ List.mem_map_of_mem he)
  have hforeign := (h.not_declares hl hdecl hrmem hword).2
  have hline := hasWord_of_valueOf hne hrun (Text.newline_not_mem hl) hdecl hword
  exact isInlined_iff.mpr ⟨⟨value, hr⟩, l, hl, hforeign, hline⟩

/-- A variable without an object is passed within the values of others. -/
theorem passed_within (h : Expandable s ds) {m x l value a b : Text} (hl : l ∈ Text.lines s)
    (hdecl : declares m l = true) (hx : plainValue? ds x = some value)
    (hword : WordIn x (valueOf l) a b) : Pass.passed b = true := by
  obtain ⟨d, hd, rfl, -⟩ := plainValue?_eq_some hx
  obtain ⟨e, he, rfl, -⟩ := h.exists_declaration hl hdecl
  have hxd : d.name ∈ ds.map (·.name) := List.mem_map_of_mem hd
  have hhas : hasWord d.name (valueOf l) = true :=
    Text.hasWord_iff.mpr ⟨(h.runs d.name hxd).1, a, b, hword⟩
  have hforeign := (h.not_declares hl hdecl hxd hhas).2
  obtain ⟨hne, hrun⟩ := h.runs e.name (List.mem_map_of_mem he)
  obtain ⟨hisdecl, hname⟩ := declares_iff.mp hdecl
  obtain ⟨front, back, hframe⟩ := exists_valueFrame (Text.newline_not_mem hl) hisdecl
    (by rwa [hname]) (by rwa [hname])
  obtain ⟨pre, post, hlines⟩ := List.append_of_mem hl
  have hpassed := h.passedElsewhere hx pre l post _ _ hlines hforeign (hframe.word hword)
  rw [List.append_assoc] at hpassed
  -- the semicolon behind the value passes nothing
  rw [← List.append_nil b]
  refine passed_append (fun hback => ?_) hpassed
  rw [hframe.idle] at hback
  cases hback

/-- The full value of a variable is its value with the used variables expanded: all that it mentions
are used. -/
theorem expand_value (h : Expandable s ds) {d : Declaration} (hd : d ∈ ds)
    (hplain : isConstruction d.value = false) :
    substitute (expandInlined ds s) d.value = expand ds d.name := by
  obtain ⟨hl, hdecl, hvalue, -⟩ := h.exists_line hd
  have hfull := expand_eq h.acyclic d.name
  rw [h.plainValue?_eq hd, hplain] at hfull
  refine Eq.trans ?_ hfull.symm
  refine Text.substitute_congr_words fun r _ _ hword => ?_
  rw [hvalue] at hword
  unfold expandInlined
  cases hr : plainValue? ds r with
  | none => rw [expand_of_none hr, ite_self]
  | some value => rw [if_pos (h.isInlined_of_word hl hdecl hr hword)]

/-- **The values of the text as it stands are fit**, if none starts inside of a character. -/
theorem fits (h : Expandable s ds)
    (hlead : ∀ d ∈ ds, isConstruction d.value = false →
      d.value.head?.any Text.Utf8.isTail = false)
    {m l : Text} (hl : l ∈ Text.lines s) (hdecl : declares m l = true) :
    h.plan.Fits m (valueOf l) := by
  obtain ⟨d, hd, rfl, hvalue, rfl⟩ := h.exists_declaration hl hdecl
  have hplain : (plainValue? ds d.name).isSome = !isConstruction d.value := by
    rw [h.plainValue?_eq hd]
    cases isConstruction d.value <;> rfl
  have hleads : d.value.head?.any Text.Utf8.isTail = false := by
    cases hobject : isConstruction d.value with
    | false => exact hlead d hd hobject
    | true =>
      obtain ⟨front, name, args, hfront, heq, -⟩ := isConstruction_iff.mp hobject
      obtain ⟨gap, space, rfl, -⟩ := hfront.split
      rw [heq]
      rfl
  refine ⟨⟨?_, Text.trim_trim _, hvalue ▸ hleads⟩, ?_, ?_, ?_, ?_, ?_⟩
  · rw [← hvalue]
    exact (h.exists_line hd).2.2.2.1
  · rw [← hvalue]
    exact h.newline_not_mem_value hd
  · intro x a b hx hword
    obtain ⟨value, hxvalue⟩ := Option.isSome_iff_exists.mp hx
    exact h.passed_within hl hdecl hxvalue hword
  · rw [← hvalue]
    show isConstruction d.value = !(plainValue? ds d.name).isSome
    rw [hplain, Bool.not_not]
  · intro hisplain
    have hobject : (!isConstruction d.value) = true := hplain ▸ hisplain
    rw [← hvalue]
    exact h.expand_value hd (by simpa using hobject)
  · exact fun r hr hword => depth_lt h.acyclic (h.not_declares hl hdecl hr hword).1

/-- **The text as it stands is on its way**: values do not start inside of a character, and lines
declare no object in the end that they do not declare now. -/
theorem underway (h : Expandable s ds)
    (hlead : ∀ d ∈ ds, isConstruction d.value = false →
      d.value.head?.any Text.Utf8.isTail = false)
    (hobjects : ∀ d ∈ ds, isConstruction d.value = true → ∀ l ∈ keptLines ds s,
      declares d.name (substitute (expandInlined ds s) l) = true → declares d.name l = true) :
    Underway h.plan (expandedLines ds s) (Text.lines s) := by
  refine ⟨?_, ?_, ?_, ?_, ⟨0, 0, ?_⟩⟩
  · intro pre l post hlines
    have hl : l ∈ Text.lines s := by
      rw [hlines]
      simp
    refine ⟨Text.newline_not_mem hl, ?_, ?_, fun m _ hdecl => h.fits hlead hl hdecl⟩
    · intro x u v hx hforeign hword
      obtain ⟨value, hvalue⟩ := Option.isSome_iff_exists.mp hx
      exact h.passedElsewhere hvalue pre l post u v hlines hforeign hword
    · intro m hm hobject hstays hend
      obtain ⟨d, hd, rfl⟩ := List.mem_map.mp hm
      have hkept : l ∈ keptLines ds s := by
        rw [← h.filter_stays]
        exact List.mem_filter.mpr ⟨hl, hstays⟩
      refine hobjects d hd ?_ l hkept hend
      by_contra hplain
      have hsome : (plainValue? ds d.name).isSome = false := hobject
      rw [h.plainValue?_eq hd, if_neg hplain] at hsome
      cases hsome
  · intro m _ l hl l' hl' hdecl hdecl'
    obtain ⟨d, hd, hname, -, rfl⟩ := h.exists_declaration hl hdecl
    obtain ⟨e, he, hename, -, rfl⟩ := h.exists_declaration hl' hdecl'
    exact h.same d hd e he (hname.trans hename.symm)
  · exact fun n hn _ => (isInlined_iff.mp hn).2
  · intro n hn hundeclared l hl hforeign
    by_contra hword
    rw [Bool.not_eq_false] at hword
    have hused : isInlined ds s n = true :=
      isInlined_iff.mpr ⟨Option.isSome_iff_exists.mp hn, l, hl, hforeign, hword⟩
    obtain ⟨d, hd, rfl⟩ := List.mem_map.mp (h.plan.declared_of_plain n hn)
    obtain ⟨hline, hdecl, -⟩ := h.exists_line hd
    rw [hundeclared hused d.line hline] at hdecl
    cases hdecl
  · rw [h.filter_stays, h.expand_plan, List.replicate_zero, List.nil_append, List.append_nil]
    rfl

end Expandable

/-! ## The whole pass -/

/-- Values of a well-formed text do not start inside of a character. -/
theorem lead_of_extract {s : Text} {ds : List Declaration} (hds : extract s = .ok ds)
    (hvalid : Text.isValid s = true) : ∀ d ∈ ds, d.value.head?.any Text.Utf8.isTail = false := by
  intro d hd
  obtain ⟨l, hl, hon⟩ := (Declaration.mem_extract hds).mp hd
  obtain ⟨hequals, _⟩ := Declaration.parse?_eq_some (Declaration.onLine?_eq_some.mp hon).2
  rw [(Declaration.line_of_onLine? hon).2.2.1]
  exact lead_valueOf (Text.isValid_lines hvalid l hl) hequals

/-- **Consolidating expands all used variables.**  In an expandable text in which no plain value
starts inside of a character, and no line that is kept comes to declare an object, the lines of used
variables are dropped and their names replaced by the full values, up to newlines at the ends; none
of the names is left.  A full value is the value with the plain variables in it expanded in turn. -/
theorem consolidate_expands {s : Text} {ds : List Declaration} (h : Expandable s ds)
    (hlead : ∀ d ∈ ds, isConstruction d.value = false →
      d.value.head?.any Text.Utf8.isTail = false)
    (hobjects : ∀ d ∈ ds, isConstruction d.value = true → ∀ l ∈ keptLines ds s,
      declares d.name (substitute (expandInlined ds s) l) = true → declares d.name l = true) :
    ∃ out, consolidate s = .ok out ∧
      Text.trimNewlines out = Text.trimNewlines (Text.unlines (expandedLines ds s)) ∧
      (∀ n, isInlined ds s n = true → hasWord n out = false) ∧
      ∀ n, expand ds n = match plainValue? ds n with
        | some value => substitute (expand ds) value
        | none => n := by
  obtain ⟨out, i, j, hout, hgoal, hgone⟩ :=
    (h.underway hlead hobjects).finished (fun d hd => List.mem_map_of_mem hd)
      fun x hx => h.plan.declared_of_plain x (h.plan.plain_of_used x hx)
  refine ⟨out, ?_, ?_, fun n hn => ?_, expand_eq h.acyclic⟩
  · rw [consolidate_eq]
    unfold extractOrFail
    rw [h.declared]
    exact hout
  · rw [hgoal, ← Text.lines_replicate_append, ← Text.lines_append_replicate, Text.unlines_lines,
      Text.trimNewlines_replicate]
  · by_contra hword
    rw [Bool.not_eq_false] at hword
    have hrun := (h.runs n (Plan.declared_of_used (p := h.plan) hn)).2
    obtain ⟨l, hl, hline⟩ := exists_wordLine hrun hword
    rw [hgone n hn l hl] at hline
    cases hline

/-- A variable that is declared twice before the one that it refers to, both passed to an object and
over the end of a line, and a variable that is not used. -/
def nestedUses : Text :=
  utf8 ("var b = f(a, 1);\nvar o = new Desc(b);\nvar z = 9;\nvar b = f(a, 1);\n" ++
    "var a = g(\"x\");\no.put(b, a\n);")

def nestedUsesDeclarations : List Declaration :=
  [⟨utf8 "b", utf8 "f(a, 1)", utf8 "var b = f(a, 1);"⟩,
    ⟨utf8 "o", utf8 "new Desc(b)", utf8 "var o = new Desc(b);"⟩,
    ⟨utf8 "z", utf8 "9", utf8 "var z = 9;"⟩,
    ⟨utf8 "b", utf8 "f(a, 1)", utf8 "var b = f(a, 1);"⟩,
    ⟨utf8 "a", utf8 "g(\"x\")", utf8 "var a = g(\"x\");"⟩]

def nestedUsesExpanded : Text :=
  utf8 ("var o = new Desc(f(g(\"x\"), 1));\nvar z = 9;\n" ++
    "o.put(f(g(\"x\"), 1), g(\"x\")\n);")

theorem consolidate_expands_nestedUses :
    Expandable nestedUses nestedUsesDeclarations ∧
      ∃ out, consolidate nestedUses = .ok out ∧ Text.trimNewlines out = nestedUsesExpanded ∧
        hasWord (utf8 "a") out = false ∧ hasWord (utf8 "b") out = false := by
  have hexpandable : Expandable nestedUses nestedUsesDeclarations := by
    refine ⟨by decide +kernel, by decide +kernel, by decide +kernel, ?_, by decide +kernel,
      by decide +kernel⟩
    exact acyclic_of_rank ([utf8 "a", utf8 "b", utf8 "o"].idxOf ·) (by decide +kernel)
  have hvalid : Text.isValid nestedUses = true := by decide +kernel
  have hlines : Text.trimNewlines (Text.unlines (expandedLines nestedUsesDeclarations nestedUses)) =
      nestedUsesExpanded := by decide +kernel
  obtain ⟨out, hout, hexpanded, hgone, -⟩ := consolidate_expands hexpandable
    (fun d hd _ => lead_of_extract hexpandable.declared hvalid d hd) (by decide +kernel)
  exact ⟨hexpandable, out, hout, hexpanded.trans hlines, hgone _ (by decide +kernel),
    hgone _ (by decide +kernel)⟩

/-- **A line may come to declare an object**: once the value of `n` is put in, the first line
declares `x`, and `x` is taken for a variable with the value that stands there. -/
theorem consolidate_misses_expansion :
    ¬ ∀ (s : Text) (ds : List Declaration), Expandable s ds →
      ∃ out, consolidate s = .ok out ∧
        Text.trimNewlines out = Text.trimNewlines (Text.unlines (expandedLines ds s)) := by
  intro h
  have hexpandable : Expandable (utf8 "n, 2);\nvar n = var x = g(1;\nvar x = new Foo();\nh(x);")
      [⟨utf8 "n", utf8 "var x = g(1", utf8 "var n = var x = g(1;"⟩,
        ⟨utf8 "x", utf8 "new Foo()", utf8 "var x = new Foo();"⟩] := by
    refine ⟨by decide +kernel, by decide +kernel, by decide +kernel, ?_, by decide +kernel,
      by decide +kernel⟩
    exact acyclic_of_rank ([utf8 "x", utf8 "n"].idxOf ·) (by decide +kernel)
  obtain ⟨out, hout, hexpanded⟩ := h _ _ hexpandable
  have hcomputed : consolidate (utf8 "n, 2);\nvar n = var x = g(1;\nvar x = new Foo();\nh(x);") =
      .ok (utf8 "var x = new Foo();\nh(g(1, 2));") := by decide +kernel
  rw [hcomputed] at hout
  cases hout
  revert hexpanded
  decide +kernel

-- the end of one value and the start of another make up white space, and that is trimmed
example : consolidate (utf8 "var n = " ++ [0xA0] ++ utf8 "x;\nvar m = " ++ [0xC2] ++
    utf8 "n, 2);\nf(m);") = .ok (utf8 "f(x, 2));") := by
  decide +kernel

end Pass

end ActionLog
