import ActionLog.Proofs.Declaration

/-!
# How declarations are spelled

A declaration line consists of a keyword, a name, an equals sign, a value and a semicolon, with white
space between any two of them.  The white space can be any that Unicode has; only behind the keyword
it starts with a gap, and at the ends of the line it is made of tabs and spaces.

* `Solid`, `Declarable` — the texts that can be values and names;
* `Layout.rename_lineWith` — a name that can be declared is found again where it was put;
* `Spelling` — the white space of a declaration line; `parse?_iff_spelled` says that the lines read as
  a name and a value are the spellings of the two;
* `printed` — the plainest of these spellings.

Principal results: `rename_lawful` — renaming sets the name of a declaration and nothing else — and
`parse_inverts_printed` — what is printed is read back, and all that is read is a spelling of it.
-/

set_option autoImplicit false

namespace ActionLog.Declaration

open Text

/-! ## Names and values -/

/-- Texts that can be values: not empty, on one line, and without white space at their ends. -/
structure Solid (s : Text) : Prop where
  ne_nil : s ≠ []
  newline : Byte.newline ∉ s
  trimmed : trim s = s

/-- Texts that can be names: they stand before the first equals sign. -/
structure Declarable (n : Text) : Prop extends Solid n where
  equals : Byte.equals ∉ n

theorem declarable_iff {n : Text} : Declarable n ↔
    n ≠ [] ∧ Byte.newline ∉ n ∧ trim n = n ∧ Byte.equals ∉ n :=
  ⟨fun h => ⟨h.ne_nil, h.newline, h.trimmed, h.equals⟩, fun h => ⟨⟨h.1, h.2.1, h.2.2.1⟩, h.2.2.2⟩⟩

theorem solid_iff {s : Text} : Solid s ↔ s ≠ [] ∧ Byte.newline ∉ s ∧ trim s = s :=
  ⟨fun h => ⟨h.1, h.2, h.3⟩, fun h => ⟨h.1, h.2.1, h.2.2⟩⟩

instance (s : Text) : Decidable (Solid s) := decidable_of_iff _ solid_iff.symm

instance (n : Text) : Decidable (Declarable n) := decidable_of_iff _ declarable_iff.symm

/-! ## Renaming -/

theorem trimEndBy_of_trimmed {s : Text} (h : trim s = s) : trimEndBy Byte.isGap s = s := by
  obtain ⟨w, hw, hgaps⟩ := trimEndBy_eq Byte.isGap s
  apply (trimEndBy_initial Byte.isGap s).eq_of_length_le
  calc s.length = (trim s).length := by rw [h]
    _ = (trim (trimEndBy Byte.isGap s)).length := by
        conv_lhs => rw [hw]
        rw [trim_append_gaps hgaps]
    _ ≤ (trimEndBy Byte.isGap s).length := (trim_isInfix _).length_le

/-- A name in a layout is found again, and another one is put in its place. -/
theorem Layout.rename_lineWith (l : Layout) {n : Text} (hn : Declarable n) (m : Text) :
    rename (l.lineWith n) m = l.lineWith m := by
  have hfirst : (n ++ (l.space ++ Byte.equals :: l.tail)).head?.any Byte.isGap = false := by
    obtain ⟨b, n', rfl⟩ := List.exists_cons_of_ne_nil hn.ne_nil
    rw [Bool.eq_false_iff]
    intro hgap
    exact head?_trim (b :: n') hgap (by rw [hn.trimmed]; rfl)
  have hhead : head (n ++ (l.space ++ Byte.equals :: l.tail)) = n ++ l.space := by
    rw [(head_append hn.equals _).1, (head_append (equals_not_mem_of_isGap l.space_isGap) _).1]
    simp [head]
  have hline : l.lineWith n =
      l.indent ++ keyword ++ (l.gap ++ (n ++ (l.space ++ Byte.equals :: l.tail))) := by
    simp [lineWith]
  rw [hline, rename_eq l.indent_blank l.gap_ne_nil l.gap_isGap hfirst (by simp), hhead,
    trimEndBy_append n l.space_isGap, trimEndBy_of_trimmed hn.trimmed, List.drop_left]
  simp [lineWith]

/-- **Renaming sets the name of a declaration and nothing else.**  The line stays a declaration, it
declares the name that was set with the value it had, and of two names set one after the other the
second one counts. -/
theorem rename_lawful (line n m : Text) (hnew : Byte.newline ∉ line)
    (hline : isDeclaration line = true) (hequals : Byte.equals ∈ line) (hn : Declarable n) :
    isDeclaration (rename line n) = true ∧ nameOf (rename line n) = n ∧
      valueOf (rename line n) = valueOf line ∧ rename (rename line n) m = rename line m := by
  obtain ⟨l, old, rfl, hold, hrename⟩ := exists_layout hline hequals
  rw [hrename n, hrename m]
  refine ⟨?_, ?_, ?_, l.rename_lineWith hn m⟩
  · exact Layout.isDeclaration_lineWith hline hnew (Layout.newline_not_mem_lineWith hnew hn.newline)
  · exact l.nameOf_lineWith hn.ne_nil hn.trimmed hn.equals
  · exact Layout.valueOf_lineWith hold hn.equals

/-- A line with a vertical tab before its name and a no-break space behind it. -/
def oddLine : Text := utf8 "\tvar \x0Bvar x \t= a == b;; "

/-- A name that starts with the keyword and ends with the last byte of a no-break space. -/
def oddName : Text := utf8 "var " ++ [0xA0]

theorem rename_lawful_odd :
    (Byte.newline ∉ oddLine ∧ isDeclaration oddLine = true ∧ Byte.equals ∈ oddLine ∧
      Declarable oddName) ∧
    isDeclaration (rename oddLine oddName) = true ∧ nameOf (rename oddLine oddName) = oddName ∧
      valueOf (rename oddLine oddName) = valueOf oddLine ∧
      rename (rename oddLine oddName) (utf8 "y") = rename oddLine (utf8 "y") := by
  have h : Byte.newline ∉ oddLine ∧ isDeclaration oddLine = true ∧ Byte.equals ∈ oddLine ∧
      Declarable oddName := by decide +kernel
  exact ⟨h, rename_lawful oddLine oddName (utf8 "y") h.1 h.2.1 h.2.2.1 h.2.2.2⟩

/-! ## Spellings -/

/-- The white space of a declaration line, from its start to its end. -/
structure Spelling where
  indent : Text
  gap : Text
  space : Text
  lead : Text
  rest : Text
  close : Text
  indent_blank : ∀ b ∈ indent, Byte.isTabOrSpace b = true
  gap_opens : gap.head?.any Byte.isGap = true
  gap_white : trim gap = []
  space_white : trim space = []
  lead_white : trim lead = []
  rest_white : trim rest = []
  close_blank : ∀ b ∈ close, Byte.isTabOrSpace b = true

namespace Spelling

/-- The line that declares a name with a value. -/
def line (l : Spelling) (n v : Text) : Text :=
  l.indent ++ (keyword ++ l.gap ++ n) ++ l.space ++
    Byte.equals :: (l.lead ++ v ++ (l.rest ++ Byte.semicolon :: l.close))

variable (l : Spelling) {n v : Text}

theorem indent_white : trim l.indent = [] :=
  trim_gaps fun b hb => isGap_of_isTabOrSpace (l.indent_blank b hb)

theorem close_white : trim l.close = [] :=
  trim_gaps fun b hb => isGap_of_isTabOrSpace (l.close_blank b hb)

theorem isDeclaration_line (hnew : Byte.newline ∉ l.line n v) : isDeclaration (l.line n v) = true := by
  obtain ⟨g, gap, hgap⟩ : ∃ g gap, l.gap = g :: gap := by
    cases h : l.gap with
    | nil => simpa [h] using l.gap_opens
    | cons g gap => exact ⟨g, gap, rfl⟩
  have hopens : Opens (l.line n v) := by
    refine ⟨l.indent, g, gap ++ n ++ l.space ++
      Byte.equals :: (l.lead ++ v ++ (l.rest ++ Byte.semicolon :: l.close)), ?_, l.indent_blank, ?_⟩
    · simp [line, hgap]
    · simpa [hgap] using l.gap_opens
  have hlast : lastSolid (l.line n v) = some Byte.semicolon := by
    have hclose : lastSolid l.close = none := by
      unfold lastSolid
      rw [List.dropWhile_eq_nil_iff.mpr fun b hb => l.close_blank b (List.mem_reverse.mp hb)]
      rfl
    have hsplit : l.line n v = l.indent ++ (keyword ++ l.gap ++ n) ++ l.space ++
        Byte.equals :: (l.lead ++ v ++ l.rest) ++ [Byte.semicolon] ++ l.close := by
      simp [line]
    rw [hsplit, lastSolid_append, lastSolid_append, hclose]
    rfl
  exact (isDeclaration_iff hnew).mpr ⟨hopens, hlast⟩

/-- **A spelled line is read as the name and the value that it spells.** -/
theorem parse?_line (hn : Declarable n) (hv : Solid v) :
    parse? (l.line n v) = some ⟨n, v, l.line n v⟩ := by
  have hequals : Byte.equals ∈ l.line n v := by simp [line]
  have hgap : l.gap ≠ [] := by
    intro h
    simpa [h] using l.gap_opens
  obtain ⟨hhead, htail⟩ := head_between l.indent_white l.gap_white l.space_white hn.equals
    (l.lead ++ v ++ (l.rest ++ Byte.semicolon :: l.close))
  have hname : nameOf (l.line n v) = n :=
    nameOf_between hhead l.indent_white l.gap_white hgap l.space_white hn.ne_nil hn.trimmed
  have hvalue : valueOf (l.line n v) = v :=
    valueOf_between htail l.lead_white l.rest_white l.close_white hv.ne_nil hv.trimmed
  unfold parse?
  rw [hname, hvalue]
  simp [hequals, hn.ne_nil, hv.ne_nil]

end Spelling

/-- **Every declaration that is read is a spelling** of the name and the value that it is read as. -/
theorem exists_spelling {line : Text} {d : Declaration} (hnew : Byte.newline ∉ line)
    (hline : isDeclaration line = true) (h : parse? line = some d) :
    Declarable d.name ∧ Solid d.value ∧ ∃ l : Spelling, line = l.line d.name d.value := by
  obtain ⟨hequals, rfl, hname, hvalue⟩ := parse?_eq_some h
  obtain ⟨indent, gap, space, hhead, hindent, hopens, hgap, hspace⟩ := exists_headEnds hline hname
  obtain ⟨lead, rest, close, htail, hlead, hrest, hclose⟩ := exists_valueEnds hnew hline hequals
  have hmem : ∀ b ∈ nameOf line, b ∈ head line := by
    intro b hb
    simp [hhead, hb]
  have hinside : head line ⊆ line := (List.takeWhile_prefix _).subset
  refine ⟨⟨⟨hname, fun hb => hnew (hinside (hmem _ hb)), trim_trim _⟩, fun hb => ?_⟩,
    ⟨hvalue, newline_not_mem_valueOf hnew hline hequals, trim_trim _⟩,
    ⟨indent, gap, space, lead, rest, close, hindent, hopens, hgap, hspace, hlead, hrest, hclose⟩, ?_⟩
  · exact equals_not_mem_head line (hmem _ hb)
  · show line = indent ++ (keyword ++ gap ++ nameOf line) ++ space ++
      Byte.equals :: (lead ++ valueOf line ++ (rest ++ Byte.semicolon :: close))
    rw [← hhead, ← htail]
    exact head_append_tail hequals

/-- **The declarations of a name with a value are the spellings of the two**, and nothing else. -/
theorem parse?_iff_spelled {line n v : Text} (hnew : Byte.newline ∉ line) :
    isDeclaration line = true ∧ parse? line = some ⟨n, v, line⟩ ↔
      Declarable n ∧ Solid v ∧ ∃ l : Spelling, line = l.line n v := by
  constructor
  · rintro ⟨hline, hparse⟩
    exact exists_spelling hnew hline hparse
  · rintro ⟨hn, hv, l, rfl⟩
    exact ⟨l.isDeclaration_line hnew, l.parse?_line hn hv⟩

/-! ## Printing -/

/-- A line that declares a name with a value, with a blank between any two words. -/
def printed (n v : Text) : Text := utf8 "var " ++ n ++ utf8 " = " ++ v ++ utf8 ";"

/-- The white space of a printed line. -/
def Spelling.plain : Spelling :=
  ⟨[], [Byte.space], [Byte.space], [Byte.space], [], [], by simp, rfl, by decide +kernel,
    by decide +kernel, by decide +kernel, trim_nil, by simp⟩

theorem printed_eq (n v : Text) : printed n v = Spelling.plain.line n v := by
  have hfront : utf8 "var " = keyword ++ [Byte.space] := by decide +kernel
  have hmiddle : utf8 " = " = [Byte.space, Byte.equals, Byte.space] := by decide +kernel
  have hend : utf8 ";" = [Byte.semicolon] := by decide +kernel
  simp [printed, Spelling.line, Spelling.plain, hfront, hmiddle, hend]

theorem newline_not_mem_printed {n v : Text} (hn : Byte.newline ∉ n) (hv : Byte.newline ∉ v) :
    Byte.newline ∉ printed n v := by
  have hwords : Byte.newline ∉ utf8 "var " ∧ Byte.newline ∉ utf8 " = " ∧ Byte.newline ∉ utf8 ";" := by
    decide +kernel
  simp [printed, hn, hv, hwords]

/-- **Reading inverts printing.**  A printed line is a declaration that is read as the name and the
value it was printed from.  Conversely, a declaration is read as a name and a value that could have
been printed, and it is a spelling of them: all that it has besides is white space. -/
theorem parse_inverts_printed :
    (∀ n v, Declarable n → Solid v →
      isDeclaration (printed n v) = true ∧ parse? (printed n v) = some ⟨n, v, printed n v⟩) ∧
    ∀ line d, Byte.newline ∉ line → isDeclaration line = true → parse? line = some d →
      Declarable d.name ∧ Solid d.value ∧ ∃ w₁ w₂ w₃ w₄ w₅ w₆,
        line = w₁ ++ keyword ++ w₂ ++ d.name ++ w₃ ++ [Byte.equals] ++ w₄ ++ d.value ++ w₅ ++
          [Byte.semicolon] ++ w₆ ∧ ∀ w ∈ [w₁, w₂, w₃, w₄, w₅, w₆], trim w = [] := by
  constructor
  · intro n v hn hv
    have hnew := newline_not_mem_printed hn.newline hv.newline
    exact (parse?_iff_spelled hnew).mpr ⟨hn, hv, Spelling.plain, printed_eq n v⟩
  · intro line d hnew hline hparse
    obtain ⟨hname, hvalue, l, hl⟩ := exists_spelling hnew hline hparse
    refine ⟨hname, hvalue, l.indent, l.gap, l.space, l.lead, l.rest, l.close, ?_, ?_⟩
    · simp [hl, Spelling.line]
    · simp [l.indent_white, l.gap_white, l.space_white, l.lead_white, l.rest_white, l.close_white]

/-- A value that ends with a semicolon of its own. -/
def oddValue : Text := utf8 "var = \u00E9;"

theorem parse_inverts_printed_odd :
    (Declarable oddName ∧ Solid oddValue ∧ isDeclaration (printed oddName oddValue) = true ∧
      parse? (printed oddName oddValue) = some ⟨oddName, oddValue, printed oddName oddValue⟩) ∧
    Byte.newline ∉ oddLine ∧ isDeclaration oddLine = true ∧
      parse? oddLine = some ⟨utf8 "var x", utf8 "a == b;", oddLine⟩ ∧
      ∃ w₁ w₂ w₃ w₄ w₅ w₆, oddLine = w₁ ++ keyword ++ w₂ ++ utf8 "var x" ++ w₃ ++ [Byte.equals] ++
        w₄ ++ utf8 "a == b;" ++ w₅ ++ [Byte.semicolon] ++ w₆ ∧
        ∀ w ∈ [w₁, w₂, w₃, w₄, w₅, w₆], trim w = [] := by
  have hodd : Declarable oddName ∧ Solid oddValue := by decide +kernel
  have hline : Byte.newline ∉ oddLine ∧ isDeclaration oddLine = true ∧
      parse? oddLine = some ⟨utf8 "var x", utf8 "a == b;", oddLine⟩ := by decide +kernel
  obtain ⟨hprinted, hread⟩ := parse_inverts_printed
  refine ⟨⟨hodd.1, hodd.2, hprinted _ _ hodd.1 hodd.2⟩, hline.1, hline.2.1, hline.2.2, ?_⟩
  exact (hread _ _ hline.1 hline.2.1 hline.2.2).2.2

end ActionLog.Declaration
