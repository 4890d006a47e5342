import ActionLog.Proofs.Describe
import ActionLog.Proofs.Literal
import ActionLog.Proofs.Statement
import ActionLog.Tables.Builtin

/-!
# String data

The passes that reformat and rename look at lines and words, not at strings.  Still they keep the
number and the order of the strings of a text, and every string that holds nothing they rewrite.

* `Clean` (see `Statement`) — no semicolon and no newline, which is all that normalizing looks for;
* `Lacks` — none of some names as a word, which is all that renaming looks for;
* `Spared` — no long method, which is all that shortening looks for;
* `normalize_kept`, `resolveConflicts_kept`, `describe_kept`, `shorten_kept` — what each of the
  passes keeps.

Principal result: `strings_kept`, with `strings_changed` for strings that do hold such things.
-/

set_option autoImplicit false

namespace ActionLog

namespace Text

open Pass (isQuote openQuote)

/-- The second strings correspond to the first one by one; those of which `P` holds are the same. -/
def StringsKept (P : Text → Prop) (ls ls' : List Text) : Prop :=
  List.Forall₂ (fun l l' => P l → l' = l) ls ls'

theorem StringsKept.eq {P : Text → Prop} {ls ls' : List Text} (h : StringsKept P ls ls')
    (hP : ∀ l ∈ ls, P l) : ls' = ls := by
  induction h with
  | nil => rfl
  | cons hl _ ih =>
    rw [List.forall_mem_cons] at hP
    rw [hl hP.1, ih hP.2]

variable {q : UInt8}

/-! ## Conditions on a string -/

/-- None of the names stands in the text as a word. -/
def Lacks (names : List Text) (s : Text) : Prop := ∀ n ∈ names, hasWord n s = false

/-- None of the long methods stands in the text. -/
def Spared (aliases : List Alias) (s : Text) : Prop :=
  ∀ a ∈ aliases, a.long ≠ [] → find? .char (Pass.longName a.long) s = none

instance (names : List Text) (s : Text) : Decidable (Lacks names s) :=
  inferInstanceAs (Decidable (∀ n ∈ names, _))

instance (aliases : List Alias) (s : Text) : Decidable (Spared aliases s) :=
  inferInstanceAs (Decidable (∀ a ∈ aliases, _ → _))

theorem cuts_clean : Kept.Cuts Clean := by
  intro x q s _ h
  obtain ⟨hx, hqs⟩ := clean_append.mp h
  rw [← List.singleton_append] at hqs
  exact ⟨hx, (clean_append.mp hqs).2⟩

theorem Lacks.cut {names : List Text} {b : UInt8} (hb : Byte.isName b = false) {x s : Text}
    (h : Lacks names (x ++ b :: s)) : Lacks names x ∧ Lacks names s :=
  ⟨fun n hn => (hasWord_cut hb (h n hn)).1, fun n hn => (hasWord_cut hb (h n hn)).2⟩

theorem cuts_lacks (names : List Text) : Kept.Cuts (Lacks names) :=
  fun _ _ _ hq h => h.cut (isName_of_isQuote hq)

/-! ## Lines with a newline on either side -/

/-- The lines of a text, each after a newline, and a newline at the end. -/
def framed (ls : List Text) : Text := Pass.following ls ++ [Byte.newline]

theorem framed_cons (l : Text) (ls : List Text) :
    framed (l :: ls) = Byte.newline :: (l ++ framed ls) := by
  simp [framed, Pass.following_cons]

theorem framed_eq {ls : List Text} (hne : ls ≠ []) :
    framed ls = [Byte.newline] ++ unlines ls ++ [Byte.newline] := by
  obtain ⟨l, ls, rfl⟩ := List.exists_cons_of_ne_nil hne
  rw [Pass.unlines_cons, framed, Pass.following_cons]
  simp

theorem literals_framed (ls : List Text) : literals (framed ls) = literals (unlines ls) := by
  by_cases hne : ls = []
  · subst hne
    decide
  · rw [framed_eq hne, literals_append_plain _ plain_newline, literals_plain_append plain_newline]

end Text

/-- The names of an alias hold no quote, and its helper line closes the strings that it opens. -/
structure Alias.Quiet (a : Alias) : Prop where
  long : Text.Plain a.long
  short : Text.Plain a.short
  helper : Pass.openQuote none a.helperLine = none

instance (a : Alias) : Decidable a.Quiet :=
  decidable_of_iff (Text.Plain a.long ∧ Text.Plain a.short ∧ Pass.openQuote none a.helperLine = none)
    ⟨fun ⟨hlong, hshort, hhelper⟩ => ⟨hlong, hshort, hhelper⟩,
      fun h => ⟨h.long, h.short, h.helper⟩⟩

namespace Pass

open Text

/-! ## Normalizing -/

theorem replaceAll_kept {P : Text → Prop} {old new : Text} (hold : Plain old) (hnew : Plain new)
    {b : UInt8} (hb : b ∈ old) (hP : ∀ x, P x → b ∉ x) (s : Text) :
    Kept P s (replaceAll old new s) := by
  have hne := List.ne_nil_of_mem hb
  refine Kept.of_cut (fun x q s _ hq => replaceAll_cut hne (hold.not_mem hq) new x s) ?_ ?_ s
  · intro x hx c hc
    rcases mem_replaceAll hne hc with hc | hc
    · exact hx c hc
    · exact hnew c hc
  · exact fun x _ hx => replaceAll_of_not_mem hb new (hP x hx)

/-- Blanks at the ends of lines and blank lines go; what stands before the lines without a quote
goes with them. -/
theorem trimmed_kept (ls : List Text) : ∀ w, Plain w →
    Kept Clean (w ++ framed ls) (framed ((ls.map trim).filter (· != []))) := by
  induction ls with
  | nil =>
    intro w hw
    refine .last (hw.append plain_newline) plain_newline fun h => ?_
    exact absurd (by simp [framed]) h.2
  | cons l ls ih =>
    intro w hw
    obtain ⟨x, y, hl, hx, hy⟩ := trim_eq l
    -- the newline before the line joins what stands before it
    have hfront : Plain (w ++ Byte.newline :: x) :=
      hw.append (plain_newline.append (plain_of_white hx))
    by_cases hempty : trim l = []
    · have hrest := ih (w ++ Byte.newline :: x ++ y) (hfront.append (plain_of_white hy))
      rw [hempty, List.append_nil] at hl
      rw [framed_cons, List.map_cons, List.filter_cons_of_neg (by simp [hempty])]
      simpa [hl] using hrest
    · have hrest := ih y (plain_of_white hy)
      have hnewline : Kept Clean (w ++ Byte.newline :: x) [Byte.newline] :=
        .last hfront plain_newline fun h => absurd (by simp) h.2
      have hall := hnewline.join (fun _ _ => clean_append.mp)
        ((Kept.refl Clean (trim l)).join (fun _ _ => clean_append.mp) hrest)
      rw [framed_cons, List.map_cons, List.filter_cons_of_pos (by simp [hempty]), framed_cons]
      conv_lhs => rw [hl]
      simpa using hall

/-- **Normalizing keeps the strings without semicolons and newlines.** -/
theorem normalize_kept (s : Text) : StringsKept Clean (literals s) (literals (normalize s)) := by
  have hunix : Kept Clean s (unixLines s) :=
    replaceAll_kept (by decide +kernel) plain_newline (b := Byte.newline) (by simp)
      (fun _ h => h.2) s
  have hbreak : Kept Clean (unixLines s)
      (replaceAll [Byte.semicolon] [Byte.semicolon, Byte.newline] (unixLines s)) :=
    replaceAll_kept (by decide +kernel) (by decide +kernel) List.mem_cons_self
      (fun _ h => h.1) (unixLines s)
  have hbroken := hunix.trans hbreak
  generalize hdef : replaceAll [Byte.semicolon] [Byte.semicolon, Byte.newline] (unixLines s) =
    broken at hbroken
  have hframe : Kept Clean (framed (lines s)) (framed (lines broken)) := by
    rw [framed_eq (lines_ne_nil s), framed_eq (lines_ne_nil broken), unlines_lines, unlines_lines]
    exact ((Kept.refl _ _).join (fun _ _ => clean_append.mp) hbroken).join (fun _ _ => clean_append.mp)
      (Kept.refl _ _)
  have hall := (hframe.trans (trimmed_kept (lines broken) [] (by simp [Plain]))).literals cuts_clean
  rw [literals_framed, literals_framed, unlines_lines, ← hdef] at hall
  exact hall

/-! ## Resolving conflicts -/

/-- The renaming is of one of the names, to a name without quotes. -/
def Renaming.Among (names : List Text) (r : Renaming) : Prop := r.old ∈ names ∧ Plain r.new

/-- The declared name is a word before the equals sign, and no quote stands there but in the name. -/
theorem head_of_onLine? {d : Declaration} (hd : Declaration.onLine? d.line = some d)
    (hplain : Plain d.name) : Plain (Declaration.head d.line) ∧
      ∀ z, hasWord d.name (Declaration.head d.line ++ [Byte.equals] ++ z) = true := by
  obtain ⟨hline, _⟩ := Declaration.onLine?_eq_some.mp hd
  obtain ⟨_, hnameOf, _, hne⟩ := Declaration.line_of_onLine? hd
  obtain ⟨x, w, hhead, hbefore, hbehind, hmarks⟩ :=
    Declaration.exists_nameFrame hline (hnameOf ▸ hne)
  rw [← hnameOf] at hhead
  constructor
  · intro b hb
    rw [hhead, List.append_assoc] at hb
    simp only [List.mem_append] at hb
    rcases hb with hb | hb | hb
    · exact isQuote_of_not_mark (hmarks b (List.mem_append_left _ hb))
    · exact hplain b hb
    · exact isQuote_of_not_mark (hmarks b (List.mem_append_right _ hb))
  · intro z
    rw [hasWord_iff]
    refine ⟨hne, x, w ++ Byte.equals :: z, ?_, hbefore, bare_append hbehind rfl⟩
    rw [hhead]
    simp

section Conflicts

variable {names : List Text} (hnames : ∀ n ∈ names, Plain n)
include hnames

theorem replaceWord_kept {old new : Text} (hold : old ∈ names) (hnew : Plain new) (s : Text) :
    Kept (Lacks names) s (replaceWord old new s) := by
  refine Kept.of_cut (fun x q s _ hq => ?_) (fun x hx b hb => ?_) (fun x _ hx => ?_) s
  · have hstops := wordPattern_stopsAt (isName_of_isQuote hq) ((hnames old hold).not_mem hq)
    exact replaceHits_cut .byte (isBasic_of_isQuote hq) (hstops.map fun _ => new) x s
  · rcases (replaceWord_spliced old new x).mem hb with hb | hb
    · exact hx b hb
    · exact hnew b hb
  · exact replaceWord_of_not_hasWord new (hx old hold)

theorem visitAll_strings {rs : List Renaming} (hrs : ∀ r ∈ rs, r.Among names) (line : Text) :
    Kept (Lacks names) line (Renaming.visitAll rs line).1 := by
  induction rs generalizing line with
  | nil => exact Kept.refl _ _
  | cons r rs ih =>
    rw [List.forall_mem_cons] at hrs
    rw [Renaming.visitAll_cons]
    refine Kept.trans ?_ (ih hrs.2 _)
    unfold Renaming.visit
    split
    · exact Kept.refl _ _
    · split
      · split <;> exact Kept.refl _ _
      · split
        · exact replaceWord_kept hnames hrs.1.1 hrs.1.2 line
        · exact Kept.refl _ _

omit hnames in
theorem visitAll_among {rs : List Renaming} (hrs : ∀ r ∈ rs, r.Among names) (line : Text) :
    ∀ r ∈ (Renaming.visitAll rs line).2, r.Among names := by
  intro k hk
  obtain ⟨r, hr, hold, hnew⟩ := Renaming.visitAll_kept hk
  unfold Renaming.Among
  rw [hold, hnew]
  exact hrs r hr

/-- A declaration with another name keeps the strings behind the equals sign. -/
theorem rename_kept {d : Declaration} (hd : Declaration.onLine? d.line = some d)
    (hname : d.name ∈ names) {name : Text} (hplain : Plain name) :
    Kept (Lacks names) d.line (Declaration.rename d.line name) := by
  obtain ⟨hline, hparse⟩ := Declaration.onLine?_eq_some.mp hd
  obtain ⟨hequals, _, _, _⟩ := Declaration.parse?_eq_some hparse
  obtain ⟨hhead, hword⟩ := head_of_onLine? hd (hnames d.name hname)
  obtain ⟨l, n, hl, hn, hrename⟩ := Declaration.exists_layout hline hequals
  have hlhead := (Declaration.Layout.head_lineWith (l := l) hn).1
  rw [← hl] at hlhead
  have hsign : Plain [Byte.equals] := by decide +kernel
  have hnew : Plain (l.indent ++ Declaration.keyword ++ l.gap ++ name ++ l.space) := by
    intro b hb
    rw [hlhead] at hhead
    simp only [List.mem_append] at hb
    rcases hb with (((hb | hb) | hb) | hb) | hb
    · exact hhead b (by simp [hb])
    · exact hhead b (by simp [hb])
    · exact hhead b (by simp [hb])
    · exact hplain b hb
    · exact hhead b (by simp [hb])
  -- the piece that holds the declared name goes up to the first quote behind the equals sign
  have hfront := Kept.front (P := Lacks names) (hhead.append hsign) (hnew.append hsign)
    (fun z hz => ?_) l.tail
  · rw [hrename, Declaration.Layout.lineWith]
    conv_lhs => rw [hl, Declaration.Layout.lineWith]
    rw [hlhead] at hfront
    simpa using hfront
  · have hnot := hz d.name hname
    rw [hword z] at hnot
    cases hnot

/-- What a passage down the lines makes of each of them. -/
theorem Passage.strings {clashes : List Declaration} {declared : List Text} {window : Option Nat}
    {taken taken' : Registry} {active : List Renaming} {ls os : List Text}
    (h : Passage clashes declared window taken active ls os taken')
    (hclashes : ∀ d ∈ clashes, Declaration.onLine? d.line = some d ∧ d.name ∈ names)
    (hactive : ∀ r ∈ active, r.Among names) : List.Forall₂ (Kept (Lacks names)) ls os := by
  induction h with
  | nil => exact .nil
  | other _ _ _ _ ih =>
    exact .cons (visitAll_strings hnames hactive _) (ih (visitAll_among hactive _))
  | kept _ _ _ ih => exact .cons (Kept.refl _ _) (ih (visitAll_among hactive _))
  | @renamed _ _ _ active d name _ _ hd hname _ ih =>
    obtain ⟨hline, hmem⟩ := hclashes d hd
    have hplain : Plain name := plain_of_isRun hname.spec.1.identifier.isRun
    refine .cons (rename_kept hnames hline hmem hplain) (ih fun r hr => ?_)
    rcases List.mem_append.mp hr with hr | hr
    · exact visitAll_among hactive _ r hr
    · rw [List.mem_singleton] at hr
      subst hr
      exact ⟨hmem, hplain⟩

end Conflicts

theorem unlines_kept {names ls os : List Text} (h : List.Forall₂ (Kept (Lacks names)) ls os) :
    Kept (Lacks names) (unlines ls) (unlines os) := by
  have hglue : ∀ x x', Lacks names (x ++ [Byte.newline] ++ x') →
      Lacks names x ∧ Lacks names x' ∧ [Byte.newline] = [Byte.newline] := by
    intro x x' hp
    rw [List.append_assoc] at hp
    obtain ⟨hx, hx'⟩ := hp.cut (b := Byte.newline) rfl
    exact ⟨hx, hx', rfl⟩
  induction h with
  | nil => exact Kept.refl _ _
  | @cons l o ls os hl hls ih =>
    cases hls with
    | nil => simpa [unlines] using hl
    | @cons l' o' ls os hl' hls' =>
      have hall := hl.append plain_newline plain_newline hglue ih
      rw [unlines_cons, unlines_cons] at hall ⊢
      simpa [following_cons] using hall

/-- **Resolving conflicts keeps the strings in which no conflicting name is a word.** -/
theorem resolveConflicts_kept {s : Text} {ds : List Declaration}
    (h : Declaration.extract s = .ok ds) (hplain : ∀ d ∈ conflicts ds, Plain d.name) (window : Int)
    (names : Registry) :
    ∃ out names', resolveConflicts window names s = .ok (out, names') ∧
      StringsKept (Lacks ((conflicts ds).map (·.name))) (literals s) (literals out) := by
  obtain ⟨out, names', hout, _, hpassage, _⟩ := resolveConflicts_passage h window names
  have hnames : ∀ n ∈ (conflicts ds).map (·.name), Plain n := by
    intro n hn
    obtain ⟨d, hd, rfl⟩ := List.mem_map.mp hn
    exact hplain d hd
  have hlines := hpassage.strings hnames
    (fun d hd => ⟨Declaration.onLine?_of_mem h (List.mem_filter.mp hd).1, List.mem_map_of_mem hd⟩)
    (fun r hr => absurd hr List.not_mem_nil)
  have hall := (unlines_kept hlines).literals (cuts_lacks _)
  rw [unlines_lines, unlines_lines] at hall
  exact ⟨out, names', hout, hall⟩

/-! ## Naming variables after their objects -/

/-- The names of the variables that hold objects. -/
def objectVariables (constructors : List Constructor) (ds : List Declaration) : List Text :=
  (ds.filter fun d => (objectName? constructors d.value).isSome).map (·.name)

/-- **Naming variables after their objects keeps the strings in which none of them is a word.** -/
theorem describe_kept {s : Text} {ds : List Declaration} (h : Declaration.extract s = .ok ds)
    (constructors : List Constructor) (names : Registry) :
    ∃ out names', describe constructors names s = .ok (out, names') ∧
      StringsKept (Lacks (objectVariables constructors ds)) (literals s) (literals out) := by
  refine ⟨_, _, describe_eq h constructors names, ?_⟩
  have hfor : (renames constructors ds [] (reserveOthers constructors ds names)).1.For
      constructors ds :=
    renames_for (fun _ hd => hd) (fun r hr => absurd hr List.not_mem_nil)
  generalize (renames constructors ds [] (reserveOthers constructors ds names)).1 = renamed at hfor
  refine (Kept.of_cut (fun x q s _ hq => ?_) (fun x hx b hb => ?_) (fun x _ hx => ?_) s).literals
    (cuts_lacks _)
  · have hstops := nameRun_stopsAt (isName_of_isQuote hq)
    exact replaceHits_cut .byte (isBasic_of_isQuote hq) (hstops.map renamed.newName) x s
  · rcases mem_substitute hb with hb | ⟨r, _, hr, hb⟩
    · exact hx b hb
    · rcases hfor.newName_cases r with hkept | ⟨hid, _⟩
      · rw [hkept] at hb
        exact plain_of_isRun hr b hb
      · exact plain_of_isRun hid.isRun b hb
  · refine substitute_of_words fun r _ _ hword => ?_
    rcases hfor.newName_cases r with hkept | ⟨_, d, hd, rfl, hobject⟩
    · exact hkept
    · have hmem : d.name ∈ objectVariables constructors ds :=
        List.mem_map_of_mem (List.mem_filter.mpr ⟨hd, hobject⟩)
      rw [hx d.name hmem] at hword
      cases hword

/-! ## Shortening methods -/

theorem longName_stopsAt_quote {q : UInt8} (hq : isQuote q = true) {name : Text} (hne : name ≠ [])
    (hname : Plain name) : (longName name).StopsAt q := by
  have hhost : q ∉ host := by
    rcases isQuote_cases hq with rfl | rfl <;> decide +kernel
  exact longName_stopsAt (isBasic_of_isQuote hq) (isName_of_isQuote hq) hhost hne (hname.not_mem hq)

/-- One alias applied. -/
theorem replaceLong_kept {aliases : List Alias} {a : Alias} (ha : a ∈ aliases) (hne : a.long ≠ [])
    (hlong : Plain a.long) (hshort : Plain a.short) (s : Text) :
    Kept (Spared aliases) s (replaceHits .char
      (fun before rest => (longName a.long before rest).map fun (n, _) => (n, a.short)) s) := by
  refine Kept.of_cut (fun x q s _ hq => ?_) (fun x hx b hb => ?_) (fun x _ hx => ?_) s
  · have hstops := longName_stopsAt_quote hq hne hlong
    exact replaceHits_cut .char (isBasic_of_isQuote hq) (hstops.map fun _ => a.short) x s
  · rcases mem_replaceHitsFrom hb with hb | ⟨_, _, _, new, hnew, hb⟩
    · exact hx b hb
    · obtain ⟨_, _, heq⟩ := Option.map_eq_some_iff.mp hnew
      obtain ⟨_, rfl⟩ := Prod.mk.inj heq
      exact hshort b hb
  · exact replaceHits_of_not_found a.short (hx a ha hne)

theorem cuts_spared {aliases : List Alias} (h : ∀ a ∈ aliases, Plain a.long) :
    Kept.Cuts (Spared aliases) := by
  have hcut : ∀ x q s, isQuote q = true → Spared aliases (x ++ q :: s) →
      ∀ a ∈ aliases, a.long ≠ [] → find? .char (longName a.long) x = none ∧
        find? .char (longName a.long) s = none := by
    intro x q s hq hp a ha hne
    have hstops := longName_stopsAt_quote hq hne (h a ha)
    exact (find?_cut .char (isBasic_of_isQuote hq) hstops).mp (hp a ha hne)
  intro x q s hq hp
  exact ⟨fun a ha hne => (hcut x q s hq hp a ha hne).1, fun a ha hne => (hcut x q s hq hp a ha hne).2⟩

/-- The aliases applied one after another. -/
theorem applyAliases_kept {all : List Alias} (h : ∀ a ∈ all, Plain a.long ∧ Plain a.short) :
    ∀ {aliases : List Alias} {s : Text}, aliases ⊆ all →
      Kept (Spared all) s (applyAliases aliases s).1 ∧ (applyAliases aliases s).2 ⊆ aliases
  | [], s, _ => ⟨Kept.refl _ _, List.Subset.refl _⟩
  | a :: as, s, hsub => by
    obtain ⟨ha, has⟩ := List.cons_subset.mp hsub
    unfold applyAliases
    split
    · obtain ⟨hkept, hused⟩ := applyAliases_kept h (s := s) has
      exact ⟨hkept, List.subset_cons_of_subset a hused⟩
    · rename_i hcond
      have hne : a.long ≠ [] := by
        rintro hnil
        simp [hnil] at hcond
      have hone := replaceLong_kept ha hne (h a ha).1 (h a ha).2 s
      obtain ⟨hkept, hused⟩ := applyAliases_kept h (s := replaceHits .char
        (fun before rest => (longName a.long before rest).map fun (n, _) => (n, a.short)) s) has
      exact ⟨hone.trans hkept, List.cons_subset_cons a hused⟩

/-- The strings of lines that close the strings that they open. -/
theorem literals_unlines {ls : List Text} (h : ∀ l ∈ ls, openQuote none l = none) :
    openQuote none (unlines ls) = none ∧ literals (unlines ls) = ls.flatMap literals := by
  have hnewline : ∀ t, literals (Byte.newline :: t) = literals t :=
    literals_plain_append plain_newline
  have hfollowing : openQuote none (following ls) = none ∧
      literals (following ls) = ls.flatMap literals := by
    induction ls with
    | nil => exact ⟨rfl, rfl⟩
    | cons l ls ih =>
      rw [List.forall_mem_cons] at h
      obtain ⟨hopen, hliterals⟩ := ih h.2
      rw [following_cons, openQuote_cons, quoteAfter_other rfl, openQuote_append, h.1, hopen]
      refine ⟨rfl, ?_⟩
      rw [hnewline, literals_append h.1, hliterals, List.flatMap_cons]
  cases ls with
  | nil => exact ⟨rfl, rfl⟩
  | cons l ls =>
    rw [unlines_cons]
    rw [following_cons, openQuote_cons, quoteAfter_other rfl, hnewline] at hfollowing
    exact hfollowing

/-- **Shortening keeps the strings without long methods**, behind those of the helper lines. -/
theorem shorten_kept {aliases : List Alias} (h : ∀ a ∈ aliases, a.Quiet)
    (hvalid : ∀ a ∈ aliases, isValid a.long = true) (s : Text) :
    ∃ out ls, shorten aliases s = .ok out ∧ literals out =
        (applyAliases aliases s).2.flatMap (fun a => literals a.helperLine) ++ ls ∧
      StringsKept (Spared aliases) (literals s) ls := by
  obtain ⟨hkept, hused⟩ := applyAliases_kept (fun a ha => ⟨(h a ha).long, (h a ha).short⟩)
    (List.Subset.refl aliases) (s := s)
  -- the helper lines are put in front only if there are any
  refine ⟨_, literals (applyAliases aliases s).1, shorten_eq hvalid s, ?_,
    hkept.literals (cuts_spared fun a ha => (h a ha).long)⟩
  unfold withHelpers
  generalize applyAliases aliases s = r at hused
  obtain ⟨out, used⟩ := r
  cases used with
  | nil => rfl
  | cons a used =>
    have hclosed : ∀ l ∈ (a :: used).map Alias.helperLine, openQuote none l = none := by
      intro l hl
      obtain ⟨b, hb, rfl⟩ := List.mem_map.mp hl
      exact (h b (hused hb)).helper
    have hhelpers := literals_unlines hclosed
    have hblank : Plain (utf8 "\n\n") := by decide +kernel
    dsimp only
    rw [List.append_assoc, literals_append hhelpers.1, literals_plain_append hblank, hhelpers.2,
      List.flatMap_map]

/-! ## All four passes -/

/-- **Strings stay as they are, in number, in order and, wherever they hold nothing that a pass
rewrites, byte for byte**: semicolons and newlines when statements are put on lines of their own,
conflicting names and variables named after their objects as words, and long methods.  Shortening
aborts exactly if a long method is not valid text, and keeps no string then. -/
theorem strings_kept (s : Text) :
    StringsKept Clean (literals s) (literals (normalize s)) ∧
    (∀ aliases : List Alias, (∀ a ∈ aliases, a.Quiet) →
      ((∀ a ∈ aliases, isValid a.long = true) →
        ∃ out ls, shorten aliases s = .ok out ∧ literals out =
            (applyAliases aliases s).2.flatMap (fun a => literals a.helperLine) ++ ls ∧
          StringsKept (Spared aliases) (literals s) ls) ∧
      ((∃ a ∈ aliases, isValid a.long = false) →
        ∃ a ∈ aliases, isValid a.long = false ∧
          shorten aliases s = .error (.aborted (.pattern (longNameSource a.long))))) ∧
    ∀ ds, Declaration.extract s = .ok ds →
      (∀ (window : Int) (names : Registry), (∀ d ∈ conflicts ds, Plain d.name) →
        ∃ out names', resolveConflicts window names s = .ok (out, names') ∧
          StringsKept (Lacks ((conflicts ds).map (·.name))) (literals s) (literals out)) ∧
      ∀ (constructors : List Constructor) (names : Registry),
        ∃ out names', describe constructors names s = .ok (out, names') ∧
          StringsKept (Lacks (objectVariables constructors ds)) (literals s) (literals out) := by
  refine ⟨normalize_kept s, fun aliases h => ⟨fun hvalid => shorten_kept h hvalid s,
    fun hinvalid => shorten_aborted hinvalid s⟩, fun ds h => ⟨?_, ?_⟩⟩
  · exact fun window names hplain => resolveConflicts_kept h hplain window names
  · exact fun constructors names => describe_kept h constructors names

/-- A name with two values, an object, a long method, and strings that hold none of them. -/
def titled : Text :=
  utf8 "var id = 1;\nvar id = 2;\nvar d = new ActionDescriptor();\n" ++
    utf8 "d.putString(app.stringIDToTypeID('my \"title\"'), \"id2, ds\");"

def titledDeclarations : List Declaration :=
  [⟨utf8 "id", utf8 "1", utf8 "var id = 1;"⟩, ⟨utf8 "id", utf8 "2", utf8 "var id = 2;"⟩,
    ⟨utf8 "d", utf8 "new ActionDescriptor()", utf8 "var d = new ActionDescriptor();"⟩]

theorem strings_kept_titled :
    literals titled = [utf8 "'my \"title\"'", utf8 "\"id2, ds\""] ∧
    Declaration.extract titled = .ok titledDeclarations ∧
    (∀ a ∈ Tables.builtin.aliases, a.Quiet) ∧
    literals (normalize titled) = literals titled ∧
    (∀ a ∈ Tables.builtin.aliases, isValid a.long = true) ∧
    (∃ out, shorten Tables.builtin.aliases titled = .ok out ∧ literals out = literals titled) ∧
    (∃ out names', resolveConflicts 3 (Registry.ofReserved []) titled = .ok (out, names') ∧
      literals out = literals titled) ∧
    ∃ out names', describe Tables.builtin.constructors (Registry.ofReserved []) titled =
        .ok (out, names') ∧ literals out = literals titled := by
  have hextract : Declaration.extract titled = .ok titledDeclarations := by decide +kernel
  have hquiet : ∀ a ∈ Tables.builtin.aliases, a.Quiet := by decide +kernel
  obtain ⟨hnormalize, hshorten, hpasses⟩ := strings_kept titled
  have hvalid : ∀ a ∈ Tables.builtin.aliases, isValid a.long = true := by decide +kernel
  obtain ⟨short, ls, hshort, hls, hkept⟩ := (hshorten Tables.builtin.aliases hquiet).1 hvalid
  obtain ⟨hresolve, hdescribe⟩ := hpasses titledDeclarations hextract
  obtain ⟨out, names, hout, hstrings⟩ := hresolve 3 (Registry.ofReserved []) (by decide +kernel)
  obtain ⟨out', names', hout', hstrings'⟩ :=
    hdescribe Tables.builtin.constructors (Registry.ofReserved [])
  refine ⟨by decide +kernel, hextract, hquiet, hnormalize.eq (by decide +kernel), hvalid,
    ⟨short, hshort, ?_⟩, ⟨out, names, hout, hstrings.eq (by decide +kernel)⟩,
    ⟨out', names', hout', hstrings'.eq (by decide +kernel)⟩⟩
  have hhelpers : (applyAliases Tables.builtin.aliases titled).2.flatMap
      (fun a => literals a.helperLine) = [] := by decide +kernel
  rw [hls, hhelpers, hkept.eq (by decide +kernel), List.nil_append]

/-- **Strings that do hold such things are rewritten**: each of the passes changes one. -/
theorem strings_changed :
    (literals (utf8 "f(\"a;b\");") = [utf8 "\"a;b\""] ∧
      literals (normalize (utf8 "f(\"a;b\");")) = [utf8 "\"a;\nb\""]) ∧
    (literals (utf8 "f(\"stringIDToTypeID\");") = [utf8 "\"stringIDToTypeID\""] ∧
      (shorten Tables.builtin.aliases (utf8 "f(\"stringIDToTypeID\");")).toOption.map literals =
        some [utf8 "\"s2t\""]) ∧
    (literals (utf8 "var a = 1;\nvar a = 2;\nf(\"a\");") = [utf8 "\"a\""] ∧
      (resolveConflicts 0 (Registry.ofReserved [])
        (utf8 "var a = 1;\nvar a = 2;\nf(\"a\");")).toOption.map (fun r => literals r.1) =
          some [utf8 "\"a_\""]) ∧
    literals (utf8 "var desc = new ActionDescriptor();\nf(\"desc\");") = [utf8 "\"desc\""] ∧
      (describe Tables.builtin.constructors (Registry.ofReserved [])
        (utf8 "var desc = new ActionDescriptor();\nf(\"desc\");")).toOption.map
          (fun r => literals r.1) = some [utf8 "\"descriptor\""] := by
  have hextract : Declaration.extract
      (utf8 "var desc = new ActionDescriptor();\nf(\"desc\");") =
        .ok [⟨utf8 "desc", utf8 "new ActionDescriptor()",
          utf8 "var desc = new ActionDescriptor();"⟩] := by decide +kernel
  refine ⟨?_, ?_, ?_, ?_, ?_⟩
  · decide +kernel
  · decide +kernel
  · decide +kernel
  · decide +kernel
  · rw [describe_eq hextract]
    decide +kernel

end Pass

end ActionLog
