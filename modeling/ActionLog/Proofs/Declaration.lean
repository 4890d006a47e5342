import ActionLog.Pass.Inline
import ActionLog.Proofs.Name
import ActionLog.Proofs.Trim
import ActionLog.Proofs.Word

/-!
# Declaration lines

* `isDeclaration_iff` — a line is a declaration by how it starts and by how it ends;
* `Layout` — what stands around the name in a declaration line with a value;
  `exists_layout` says that renaming exchanges the name and keeps the rest;
* `nameOf_between`, `valueOf_between` — the name and the value of a line are what stands between
  white space in their places;
* `NameSplit`, `exists_headEnds`, `exists_valueEnds` — where the name and the value stand on any
  declaration line;
* `rename_spec` — a renamed declaration declares the new name with the old value;
* `isDeclaration_of_replaceWord` — renaming uses never makes a declaration of a line;
* `extract_eq_ok` — all declarations of a text, if none of them is malformed.
-/

set_option autoImplicit false

namespace ActionLog.Declaration

open Text

/-! ## Start and end of a declaration -/

theorem keyword_eq : keyword = [0x76, 0x61, 0x72] := rfl

theorem keyword_isRun : IsRun keyword := by decide +kernel

theorem dropWhile_indent {indent : Text} (h : ∀ b ∈ indent, Byte.isTabOrSpace b = true)
    (rest : Text) :
    (indent ++ keyword ++ rest).dropWhile Byte.isTabOrSpace = keyword ++ rest := by
  rw [List.append_assoc, List.dropWhile_append_of_pos h, keyword_eq]
  rfl

theorem afterKeyword?_eq {indent : Text} (h : ∀ b ∈ indent, Byte.isTabOrSpace b = true)
    (rest : Text) : afterKeyword? (indent ++ keyword ++ rest) = some rest := by
  unfold afterKeyword?
  rw [dropWhile_indent h, after?_append]

theorem afterKeyword?_eq_some {line rest : Text} (h : afterKeyword? line = some rest) :
    ∃ indent, line = indent ++ keyword ++ rest ∧ ∀ b ∈ indent, Byte.isTabOrSpace b = true := by
  have hrest := after?_eq_some.mp h
  refine ⟨line.takeWhile Byte.isTabOrSpace, ?_, fun b hb => List.mem_takeWhile_imp hb⟩
  rw [List.append_assoc, ← hrest, List.takeWhile_append_dropWhile]

/-- The start of a declaration: the keyword and a gap. -/
def Opens (line : Text) : Prop :=
  ∃ indent g rest, line = indent ++ keyword ++ g :: rest ∧
    (∀ b ∈ indent, Byte.isTabOrSpace b = true) ∧ Byte.isGap g = true

theorem lastSolid_opens {indent : Text} (h : ∀ b ∈ indent, Byte.isTabOrSpace b = true) {g : UInt8}
    (hg : Byte.isGap g = true) (rest : Text) :
    lastSolid (indent ++ keyword ++ g :: rest) = some Byte.semicolon ↔
      lastSolid rest = some Byte.semicolon := by
  have hnot : lastSolid (indent ++ keyword ++ [g]) ≠ some Byte.semicolon := by
    intro hlast
    have hmem := lastSolid_mem hlast
    rcases List.mem_append.mp hmem with hmem | hmem
    · rcases List.mem_append.mp hmem with hmem | hmem
      · cases h _ hmem
      · cases keyword_isRun _ hmem
    · rw [← List.mem_singleton.mp hmem] at hg
      cases hg
  rw [List.append_cons, lastSolid_append]
  cases lastSolid rest with
  | none => simpa using hnot
  | some b => simp

/-- **A line is a declaration by how it starts and by how it ends.** -/
theorem isDeclaration_iff {line : Text} (hline : Byte.newline ∉ line) :
    isDeclaration line = true ↔ Opens line ∧ lastSolid line = some Byte.semicolon := by
  constructor
  · intro h
    unfold isDeclaration at h
    split at h
    · rename_i g rest hafter
      obtain ⟨indent, rfl, hindent⟩ := afterKeyword?_eq_some hafter
      simp only [endsStatement, Bool.and_eq_true, beq_iff_eq] at h
      obtain ⟨hg, _, hend⟩ := h
      exact ⟨⟨indent, g, rest, rfl, hindent, hg⟩, (lastSolid_opens hindent hg rest).mpr hend⟩
    · cases h
  · rintro ⟨⟨indent, g, rest, rfl, hindent, hg⟩, hlast⟩
    have hend : lastSolid rest = some Byte.semicolon := (lastSolid_opens hindent hg rest).mp hlast
    have hrest : rest.all (· != Byte.newline) = true := by
      rw [List.all_eq_true]
      intro b hb
      rw [bne_iff_ne]
      rintro rfl
      exact hline (List.mem_append_right _ (List.mem_cons_of_mem _ hb))
    have hends : endsStatement rest = true := by
      simp only [endsStatement, hrest, Bool.true_and, beq_iff_eq]
      exact hend
    unfold isDeclaration
    rw [afterKeyword?_eq hindent]
    simp only [hg, hends, Bool.and_self]

/-! ## Lines around a name -/

/-- What stands around the name in a declaration line with a value. -/
structure Layout where
  indent : Text
  gap : Text
  space : Text
  tail : Text
  indent_blank : ∀ b ∈ indent, Byte.isTabOrSpace b = true
  gap_ne_nil : gap ≠ []
  gap_isGap : ∀ b ∈ gap, Byte.isGap b = true
  space_isGap : ∀ b ∈ space, Byte.isGap b = true

/-- The line with a name in the layout. -/
def Layout.lineWith (l : Layout) (name : Text) : Text :=
  l.indent ++ keyword ++ (l.gap ++ name ++ l.space ++ Byte.equals :: l.tail)

theorem head_append_tail {s : Text} (h : Byte.equals ∈ s) : s = head s ++ Byte.equals :: tail s := by
  unfold head tail
  cases hd : s.dropWhile (· != Byte.equals) with
  | nil =>
    rw [List.dropWhile_eq_nil_iff] at hd
    have := hd _ h
    simp at this
  | cons b rest =>
    have hb := List.head_dropWhile_not (· != Byte.equals) (l := s) (by rw [hd]; simp)
    have hb' : b = Byte.equals := by simpa [hd] using hb
    have hsplit := List.takeWhile_append_dropWhile (p := (· != Byte.equals)) (l := s)
    rw [hd, hb'] at hsplit
    exact hsplit.symm

theorem equals_not_mem_head (s : Text) : Byte.equals ∉ head s := by
  intro h
  have := List.mem_takeWhile_imp h
  simp at this

/-- Name and value are read behind a text without an equals sign as they are read without it. -/
theorem head_append {front : Text} (h : Byte.equals ∉ front) (s : Text) :
    head (front ++ s) = front ++ head s ∧ tail (front ++ s) = tail s := by
  have hpos : ∀ b ∈ front, (b != Byte.equals) = true := by
    intro b hb
    rw [bne_iff_ne]
    rintro rfl
    exact h hb
  unfold head tail
  rw [List.takeWhile_append_of_pos hpos, List.dropWhile_append_of_pos hpos]
  exact ⟨rfl, rfl⟩

theorem equals_not_mem_of_isGap {w : Text} (h : ∀ b ∈ w, Byte.isGap b = true) :
    Byte.equals ∉ w := by
  intro hmem
  cases h _ hmem

theorem trim_of_isRun {n : Text} (hne : n ≠ []) (hn : IsRun n) : trim n = n := by
  have hhead : n.head?.any Byte.isName = true := by
    obtain ⟨b, n', rfl⟩ := List.exists_cons_of_ne_nil hne
    exact hn b List.mem_cons_self
  have h := trim_run (List.forall_mem_nil _) (List.forall_mem_nil _) hhead (run_last hne hn)
  rwa [List.nil_append, List.append_nil] at h

theorem head_between {indent gap n space : Text} (hindent : trim indent = []) (hgap : trim gap = [])
    (hspace : trim space = []) (hn : Byte.equals ∉ n) (s : Text) :
    head (indent ++ (keyword ++ gap ++ n) ++ space ++ Byte.equals :: s) =
        indent ++ (keyword ++ gap ++ n) ++ space ∧
      tail (indent ++ (keyword ++ gap ++ n) ++ space ++ Byte.equals :: s) = s := by
  have hfront : Byte.equals ∉ indent ++ (keyword ++ gap ++ n) ++ space := by
    simp only [List.mem_append, not_or]
    exact ⟨⟨mark_not_mem_white hindent rfl, ⟨by decide, mark_not_mem_white hgap rfl⟩, hn⟩,
      mark_not_mem_white hspace rfl⟩
  obtain ⟨hhead, htail⟩ := head_append hfront (Byte.equals :: s)
  rw [hhead, htail]
  exact ⟨List.append_nil _, rfl⟩

/-- **A trimmed text between the keyword and the equals sign is the name**, if white space comes
before it. -/
theorem nameOf_between {line indent gap n space : Text}
    (hhead : head line = indent ++ (keyword ++ gap ++ n) ++ space) (hindent : trim indent = [])
    (hgap : trim gap = []) (hgapne : gap ≠ []) (hspace : trim space = []) (hne : n ≠ [])
    (htrim : trim n = n) : nameOf line = n := by
  have hsolid : trim (keyword ++ gap ++ n) = keyword ++ gap ++ n := by
    have hstart : stripStart blanks (keyword ++ gap ++ n) = keyword ++ gap ++ n :=
      stripStart_run blanks_head.1 rfl _
    refine trim_eq_self fun m hm => ⟨?_, not_suffix_behind hgap hgapne htrim hne _ m hm⟩
    rw [← hstart]
    exact not_prefix_stripStart (fun m hm => (blanks_head.1 m hm).1) hm _
  have hafter : after? keyword (keyword ++ gap ++ n) = some (gap ++ n) := by
    rw [List.append_assoc, after?_append]
  simp only [nameOf, hhead, trim_frame hindent hspace, hsolid, hafter, Option.getD_some,
    trim_white_append hgap, htrim]

/-- What renaming does once the keyword and the gap after it are passed. -/
theorem rename_eq {indent gap named : Text} (hindent : ∀ b ∈ indent, Byte.isTabOrSpace b = true)
    (hne : gap ≠ []) (hgap : ∀ b ∈ gap, Byte.isGap b = true)
    (hnamed : named.head?.any Byte.isGap = false) (heq : Byte.equals ∈ named) (m : Text) :
    rename (indent ++ keyword ++ (gap ++ named)) m = indent ++ keyword ++ gap ++ m ++
      named.drop (trimEndBy Byte.isGap (head named)).length := by
  have hdrop : (gap ++ named).dropWhile Byte.isGap = named := by
    rw [List.dropWhile_append_of_pos hgap]
    cases named with
    | nil => rfl
    | cons b rest => simp [show Byte.isGap b = false from hnamed]
  have hlen : ¬ ((gap ++ named).length = named.length || !named.contains Byte.equals) = true := by
    have hpos := List.length_pos_iff.mpr hne
    simp [heq, hne]
  unfold rename
  rw [afterKeyword?_eq hindent]
  simp only [hdrop, if_neg hlen]
  have htake : (indent ++ keyword ++ (gap ++ named)).take
      ((indent ++ keyword ++ (gap ++ named)).length - named.length) =
        indent ++ keyword ++ gap := by
    rw [← List.append_assoc, List.length_append, Nat.add_sub_cancel, List.take_left]
  rw [htake]

/-- **Renaming exchanges the name and keeps what stands around it.** -/
theorem exists_layout {line : Text} (hline : isDeclaration line = true)
    (heq : Byte.equals ∈ line) :
    ∃ (l : Layout) (n : Text), line = l.lineWith n ∧ Byte.equals ∉ n ∧
      ∀ m, rename line m = l.lineWith m := by
  unfold isDeclaration at hline
  split at hline
  · rename_i g rest hafter
    rw [Bool.and_eq_true] at hline
    obtain ⟨indent, rfl, hindent⟩ := afterKeyword?_eq_some hafter
    obtain ⟨gap, named, hsplit, hne, hgap, hnamed⟩ : ∃ gap named, g :: rest = gap ++ named ∧
        gap ≠ [] ∧ (∀ b ∈ gap, Byte.isGap b = true) ∧ named.head?.any Byte.isGap = false := by
      refine ⟨_, _, (List.takeWhile_append_dropWhile (p := Byte.isGap)).symm,
        by simp [hline.1], fun b hb => List.mem_takeWhile_imp hb, ?_⟩
      cases hd : (g :: rest).dropWhile Byte.isGap with
      | nil => rfl
      | cons b r =>
        have hb := List.head_dropWhile_not Byte.isGap (l := g :: rest) (by rw [hd]; simp)
        simpa [hd] using hb
    rw [hsplit] at heq ⊢
    have hmem : Byte.equals ∈ named := by
      rcases List.mem_append.mp heq with heq | heq
      · rcases List.mem_append.mp heq with heq | heq
        · cases hindent _ heq
        · cases keyword_isRun _ heq
      · rcases List.mem_append.mp heq with heq | heq
        · exact absurd heq (equals_not_mem_of_isGap hgap)
        · exact heq
    obtain ⟨space, hspace, hspacegap⟩ := trimEndBy_eq Byte.isGap (head named)
    generalize hn : trimEndBy Byte.isGap (head named) = n at hspace
    have hnamedeq : named = n ++ (space ++ Byte.equals :: tail named) := by
      rw [← List.append_assoc, ← hspace]
      exact head_append_tail hmem
    refine ⟨⟨indent, gap, space, tail named, hindent, hne, hgap, hspacegap⟩, n, ?_, ?_, ?_⟩
    · conv_lhs => rw [hnamedeq]
      simp [Layout.lineWith]
    · intro hbad
      rw [← hn] at hbad
      exact equals_not_mem_head named ((trimEndBy_initial _ _).subset hbad)
    · intro m
      have hdrop : named.drop n.length = space ++ Byte.equals :: tail named := by
        have := congrArg (List.drop n.length) hnamedeq
        rwa [List.drop_left] at this
      rw [rename_eq hindent hne hgap hnamed hmem, hn, hdrop]
      simp [Layout.lineWith]
  · cases hline

namespace Layout

variable {l : Layout} {n : Text}

theorem opens (l : Layout) (n : Text) : Opens (l.lineWith n) := by
  obtain ⟨g, gap', hgap⟩ := List.exists_cons_of_ne_nil l.gap_ne_nil
  refine ⟨l.indent, g, gap' ++ n ++ l.space ++ Byte.equals :: l.tail, ?_, l.indent_blank, ?_⟩
  · simp [lineWith, hgap]
  · exact l.gap_isGap g (by rw [hgap]; exact List.mem_cons_self)

theorem lastSolid_lineWith (l : Layout) (n : Text) :
    lastSolid (l.lineWith n) = (lastSolid l.tail).or (some Byte.equals) := by
  have hsplit : l.lineWith n =
      (l.indent ++ keyword ++ l.gap ++ n ++ l.space) ++ [Byte.equals] ++ l.tail := by
    simp [lineWith]
  rw [hsplit, lastSolid_append, lastSolid_append]
  rfl

/-- Names without a newline leave a declaration a declaration. -/
theorem isDeclaration_lineWith {m : Text} (h : isDeclaration (l.lineWith n) = true)
    (hn : Byte.newline ∉ l.lineWith n) (hm : Byte.newline ∉ l.lineWith m) :
    isDeclaration (l.lineWith m) = true := by
  rw [isDeclaration_iff hn] at h
  rw [isDeclaration_iff hm]
  refine ⟨l.opens m, ?_⟩
  rw [lastSolid_lineWith, ← lastSolid_lineWith l n]
  exact h.2

theorem indent_white (l : Layout) : trim l.indent = [] :=
  trim_gaps fun b hb => isGap_of_isTabOrSpace (l.indent_blank b hb)

theorem newline_not_mem_lineWith {m : Text} (hn : Byte.newline ∉ l.lineWith n)
    (hm : Byte.newline ∉ m) : Byte.newline ∉ l.lineWith m := by
  simp only [lineWith, List.mem_append, not_or] at hn ⊢
  exact ⟨hn.1, ⟨⟨hn.2.1.1.1, hm⟩, hn.2.1.2⟩, hn.2.2⟩

theorem head_lineWith (hn : Byte.equals ∉ n) :
    head (l.lineWith n) = l.indent ++ keyword ++ l.gap ++ n ++ l.space ∧
      Declaration.tail (l.lineWith n) = l.tail := by
  have hline : l.lineWith n =
      l.indent ++ (keyword ++ l.gap ++ n) ++ l.space ++ Byte.equals :: l.tail := by
    simp [lineWith]
  obtain ⟨hhead, htail⟩ :=
    head_between l.indent_white (trim_gaps l.gap_isGap) (trim_gaps l.space_isGap) hn l.tail
  rw [hline, hhead, htail]
  simp

/-- The name of a line is the name put into its layout. -/
theorem nameOf_lineWith (l : Layout) (hne : n ≠ []) (htrim : trim n = n) (hn : Byte.equals ∉ n) :
    nameOf (l.lineWith n) = n := by
  refine nameOf_between ?_ l.indent_white (trim_gaps l.gap_isGap) l.gap_ne_nil
    (trim_gaps l.space_isGap) hne htrim
  rw [(head_lineWith hn).1]
  simp

theorem valueOf_lineWith {m : Text} (hn : Byte.equals ∉ n) (hm : Byte.equals ∉ m) :
    valueOf (l.lineWith m) = valueOf (l.lineWith n) := by
  unfold valueOf
  rw [(head_lineWith hn).2, (head_lineWith hm).2]

end Layout

/-! ## Parsing and renaming -/

theorem parse?_eq_some {line : Text} {d : Declaration} (h : parse? line = some d) :
    Byte.equals ∈ line ∧ d = ⟨nameOf line, valueOf line, line⟩ ∧ d.name ≠ [] ∧ d.value ≠ [] := by
  unfold parse? at h
  split at h
  · rename_i hc
    cases h
    simpa [and_assoc] using hc
  · cases h

/-- **A renamed declaration declares the new name with the old value.** -/
theorem rename_spec {line m : Text} {d : Declaration} (hline : isDeclaration line = true)
    (hnew : Byte.newline ∉ line) (hd : parse? line = some d) (hne : m ≠ []) (hm : IsRun m) :
    isDeclaration (rename line m) = true ∧ Byte.newline ∉ rename line m ∧
      parse? (rename line m) = some ⟨m, d.value, rename line m⟩ := by
  obtain ⟨heq, rfl, _, hvalue⟩ := parse?_eq_some hd
  obtain ⟨l, n, rfl, hn, hrename⟩ := exists_layout hline heq
  rw [hrename m]
  have hequals : Byte.equals ∉ m := fun hmem => by cases hm _ hmem
  have hnewline : Byte.newline ∉ l.lineWith m :=
    Layout.newline_not_mem_lineWith hnew fun hmem => by cases hm _ hmem
  refine ⟨Layout.isDeclaration_lineWith hline hnew hnewline, hnewline, ?_⟩
  have hmem : Byte.equals ∈ l.lineWith m := by simp [Layout.lineWith]
  have hval := Layout.valueOf_lineWith (l := l) hn hequals
  unfold parse?
  rw [hval, Layout.nameOf_lineWith l hne (trim_of_isRun hne hm) hequals]
  simp only at hvalue
  simp [hmem, hne, hvalue]

/-! ## Where name and value stand -/

/-- What a trimmed text keeps of a keyword in front of it. -/
theorem trim_keyword {indent : Text} (hindent : ∀ b ∈ indent, Byte.isTabOrSpace b = true)
    (y : Text) : ∃ y' w, trim (indent ++ keyword ++ y) = keyword ++ y' ∧ y = y' ++ w ∧
      trim w = [] := by
  have hwhite : trim indent = [] := trim_gaps fun b hb => isGap_of_isTabOrSpace (hindent b hb)
  have hnot : ∀ {w : Text} {b : UInt8}, trim w = [] → b ∈ w → b ∉ keyword := by
    intro w b hw hb hmem
    have hname := (white_bytes (isWhite_of_trim hw b hb)).1
    rw [keyword_isRun b hmem] at hname
    cases hname
  rw [List.append_assoc, trim_white_append hwhite]
  obtain ⟨w, w', hsplit, hw, hw'⟩ := exists_frame (keyword ++ y)
  -- neither end reaches into the keyword
  obtain rfl : w = [] := by
    cases w with
    | nil => rfl
    | cons b w =>
      obtain ⟨rfl, _⟩ := List.cons.inj hsplit
      exact absurd (by decide) (hnot hw List.mem_cons_self)
  rw [List.nil_append] at hsplit
  rcases List.append_eq_append_iff.mp hsplit with ⟨c, hc, hy⟩ | ⟨c, hc, hy⟩
  · exact ⟨c, w', hc, hy, hw'⟩
  · cases c with
    | nil =>
      rw [List.append_nil] at hc
      exact ⟨[], w', by rw [List.append_nil, ← hc], hy.symm, hw'⟩
    | cons b c =>
      refine absurd ?_ (hnot hw' (b := b) (by simp [hy]))
      rw [hc]
      simp

/-- Where an identifier that a line declares stands on it. -/
structure NameSplit (line n x w : Text) : Prop where
  head_eq : head line = x ++ n ++ w
  line_eq : line = head line ++ Byte.equals :: tail line
  before : x.getLast?.any Byte.isName = false
  behind : Bare w
  plain : ∀ b ∈ head line, isMark b = false

theorem head_keyword {indent : Text} (hindent : ∀ b ∈ indent, Byte.isTabOrSpace b = true) {g : UInt8}
    (hg : Byte.isGap g = true) (rest : Text) :
    head (indent ++ keyword ++ g :: rest) = indent ++ keyword ++ (g :: head rest) := by
  have hfront : Byte.equals ∉ indent ++ keyword ++ [g] := by
    simp only [List.mem_append, List.mem_singleton]
    rintro ((hmem | hmem) | rfl)
    · cases hindent _ hmem
    · cases keyword_isRun _ hmem
    · cases hg
  rw [List.append_cons, (head_append hfront rest).1]
  simp

/-- The name stands between white space behind the keyword. -/
theorem exists_nameEnds {indent : Text} (hindent : ∀ b ∈ indent, Byte.isTabOrSpace b = true)
    {g : UInt8} (hg : Byte.isGap g = true) (rest : Text) :
    ∃ w w', g :: head rest = w ++ nameOf (indent ++ keyword ++ g :: rest) ++ w' ∧
      trim w = [] ∧ trim w' = [] := by
  obtain ⟨y, w₂, htrim, hy, hw₂⟩ := trim_keyword hindent (g :: head rest)
  have hname : nameOf (indent ++ keyword ++ g :: rest) = trim y := by
    simp only [nameOf, head_keyword hindent hg, htrim, after?_append, Option.getD_some]
  obtain ⟨w, w₁, hy', hw, hw₁⟩ := exists_frame y
  refine ⟨w, w₁ ++ w₂, ?_, hw, by rw [trim_white_append hw₁, hw₂]⟩
  rw [hname, hy]
  conv_lhs => rw [hy']
  simp

theorem nameOf_keyword {indent : Text} (hindent : ∀ b ∈ indent, Byte.isTabOrSpace b = true)
    {g : UInt8} (hg : Byte.isGap g = true) (rest : Text) :
    ∃ w w', g :: head rest = w ++ nameOf (indent ++ keyword ++ g :: rest) ++ w' ∧
      (∀ b ∈ w, isWhite b = true) ∧ ∀ b ∈ w', isWhite b = true := by
  obtain ⟨w, w', hsplit, hw, hw'⟩ := exists_nameEnds hindent hg rest
  exact ⟨w, w', hsplit, isWhite_of_trim hw, isWhite_of_trim hw'⟩

/-- **What stands before the equals sign of a line that declares a name**: the keyword, a gap and the
name, between white space. -/
theorem exists_headEnds {line : Text} (hline : isDeclaration line = true) (hne : nameOf line ≠ []) :
    ∃ indent gap space, head line = indent ++ (keyword ++ gap ++ nameOf line) ++ space ∧
      (∀ b ∈ indent, Byte.isTabOrSpace b = true) ∧ gap.head?.any Byte.isGap = true ∧
      trim gap = [] ∧ trim space = [] := by
  unfold isDeclaration at hline
  split at hline
  · rename_i g rest hafter
    obtain ⟨indent, rfl, hindent⟩ := afterKeyword?_eq_some hafter
    rw [Bool.and_eq_true] at hline
    obtain ⟨gap, space, hends, hgap, hspace⟩ := exists_nameEnds hindent hline.1 rest
    refine ⟨indent, gap, space, ?_, hindent, ?_, hgap, hspace⟩
    · rw [head_keyword hindent hline.1, hends]
      simp
    · cases gap with
      | cons b gap =>
        obtain ⟨rfl, _⟩ := List.cons.inj hends
        exact hline.1
      | nil =>
        -- the gap behind the keyword is no part of the name
        obtain ⟨b, n, hn⟩ := List.exists_cons_of_ne_nil hne
        rw [hn] at hends
        obtain ⟨rfl, _⟩ := List.cons.inj hends
        exact absurd (by rw [← nameOf, hn]; rfl) (head?_trim _ hline.1)
  · cases hline

/-- **The name that a line declares stands before its first equals sign as a word**, and no mark
stands there but in the name. -/
theorem exists_nameFrame {line : Text} (hline : isDeclaration line = true) (hne : nameOf line ≠ []) :
    ∃ x w, head line = x ++ nameOf line ++ w ∧ x.getLast?.any Byte.isName = false ∧ Bare w ∧
      ∀ b ∈ x ++ w, isMark b = false := by
  obtain ⟨indent, gap, space, hhead, hindent, hopens, hgap, hspace⟩ := exists_headEnds hline hne
  have hgapne : gap ≠ [] := by
    rintro rfl
    cases hopens
  refine ⟨indent ++ keyword ++ gap, space, by simp [hhead], ?_, ?_, ?_⟩
  · rw [List.getLast?_append, List.getLast?_eq_some_getLast hgapne]
    exact (white_bytes (isWhite_of_trim hgap _ (List.getLast_mem hgapne))).1
  · cases space with
    | nil => rfl
    | cons b space => exact (white_bytes (isWhite_of_trim hspace b List.mem_cons_self)).1
  · intro b hb
    simp only [List.mem_append] at hb
    rcases hb with ((hb | hb) | hb) | hb
    · exact isMark_of_isGap (isGap_of_isTabOrSpace (hindent b hb))
    · exact isMark_of_isName (keyword_isRun b hb)
    · exact (white_bytes (isWhite_of_trim hgap b hb)).2
    · exact (white_bytes (isWhite_of_trim hspace b hb)).2

/-- **An identifier that a line declares stands before the equals sign**, as a word, and no mark
stands there. -/
theorem exists_nameSplit {line n : Text} (hline : isDeclaration line = true)
    (hname : nameOf line = n) (hne : n ≠ []) (hn : IsRun n) : ∃ x w, NameSplit line n x w := by
  subst hname
  obtain ⟨x, w, hhead, hbefore, hbehind, hmarks⟩ := exists_nameFrame hline hne
  have hplain : ∀ b ∈ head line, isMark b = false := by
    intro b hb
    rw [hhead, List.append_assoc] at hb
    simp only [List.mem_append] at hb
    rcases hb with hb | hb | hb
    · exact hmarks b (List.mem_append_left _ hb)
    · exact isMark_of_isName (hn b hb)
    · exact hmarks b (List.mem_append_right _ hb)
  -- else the semicolon at the end would stand before it
  have hequals : Byte.equals ∈ line := by
    by_contra hnot
    have hall : head line = line := by
      have := (head_append hnot []).1
      rwa [List.append_nil, show head [] = [] from rfl, List.append_nil] at this
    have hsemi : Byte.semicolon ∈ line := by
      unfold isDeclaration at hline
      split at hline
      · rename_i g rest hafter
        obtain ⟨indent, rfl, _⟩ := afterKeyword?_eq_some hafter
        simp only [endsStatement, Bool.and_eq_true, beq_iff_eq] at hline
        exact List.mem_append_right _ (List.mem_cons_of_mem _ (lastSolid_mem hline.2.2))
      · cases hline
    rw [← hall] at hsemi
    cases hplain _ hsemi
  exact ⟨x, w, hhead, head_append_tail hequals, hbefore, hbehind, hplain⟩

/-- **A trimmed text between the equals sign and the last semicolon is the value**, with white space
around it. -/
theorem valueOf_between {line x v w w' : Text}
    (htail : tail line = x ++ v ++ (w ++ Byte.semicolon :: w')) (hx : trim x = []) (hw : trim w = [])
    (hw' : trim w' = []) (hne : v ≠ []) (htrim : trim v = v) : valueOf line = v := by
  have hsolid : trim (v ++ (w ++ [Byte.semicolon])) = v ++ (w ++ [Byte.semicolon]) := by
    refine trim_eq_self fun m hm => ⟨not_prefix_before htrim hne hw rfl [] m hm, ?_⟩
    rw [← List.append_assoc]
    exact not_suffix_mark rfl (v ++ w) m hm
  have hframe : tail line = x ++ (v ++ (w ++ [Byte.semicolon])) ++ w' := by simp [htail]
  unfold valueOf
  rw [hframe, trim_frame hx hw', hsolid, ← List.append_assoc, dropEnd_append, trim_append_white v hw,
    htrim]

/-- A declaration has a semicolon behind its equals sign, and only tabs and spaces behind that. -/
theorem exists_tailEnds {line : Text} (hnew : Byte.newline ∉ line)
    (hline : isDeclaration line = true) (hequals : Byte.equals ∈ line) :
    ∃ x z w, tail line = x ++ (z ++ [Byte.semicolon]) ++ w ∧ trim (tail line) = z ++ [Byte.semicolon] ∧
      trim x = [] ∧ ∀ b ∈ w, Byte.isTabOrSpace b = true := by
  have hnot : ∀ w, trim w = [] → lastSolid w ≠ some Byte.semicolon := fun w hw h =>
    mark_not_mem_white hw rfl (lastSolid_mem h)
  have hlast : lastSolid (tail line) = some Byte.semicolon := by
    have hsolid := ((isDeclaration_iff hnew).mp hline).2
    rw [head_append_tail hequals, ← List.singleton_append, lastSolid_append, lastSolid_append]
      at hsolid
    cases htail : lastSolid (tail line) with
    | none =>
      rw [htail] at hsolid
      cases hsolid
    | some b =>
      rw [htail] at hsolid
      exact hsolid
  obtain ⟨x, w, htail, hx, hw⟩ := exists_frame (tail line)
  rw [htail, lastSolid_append, lastSolid_append] at hlast
  have hwlast : lastSolid w = none := by
    cases h : lastSolid w with
    | none => rfl
    | some b =>
      rw [h] at hlast
      exact absurd (h.trans hlast) (hnot w hw)
  have hzlast : (trim (tail line)).getLast? = some Byte.semicolon := by
    rw [← lastSolid_eq_getLast? fun b hb => getLast?_trim _ hb]
    rw [hwlast, Option.none_or] at hlast
    cases h : lastSolid (trim (tail line)) with
    | none =>
      rw [h, Option.none_or] at hlast
      exact absurd hlast (hnot x hx)
    | some b =>
      rw [h] at hlast
      exact hlast
  obtain ⟨z, hz⟩ := List.getLast?_eq_some_iff.mp hzlast
  exact ⟨x, z, w, hz ▸ htail, hz, hx, lastSolid_eq_none hwlast⟩

/-- **Where the value of a line stands behind its equals sign**: between white space, with a semicolon
behind it and only tabs and spaces behind the semicolon. -/
theorem exists_valueEnds {line : Text} (hnew : Byte.newline ∉ line)
    (hline : isDeclaration line = true) (hequals : Byte.equals ∈ line) :
    ∃ x w w', tail line = x ++ valueOf line ++ (w ++ Byte.semicolon :: w') ∧
      trim x = [] ∧ trim w = [] ∧ ∀ b ∈ w', Byte.isTabOrSpace b = true := by
  obtain ⟨x, z, w', htail, htrim, hx, hw'⟩ := exists_tailEnds hnew hline hequals
  obtain ⟨x', w, hz, hx', hw⟩ := exists_frame z
  have hvalue : valueOf line = trim z := by
    unfold valueOf
    rw [htrim, dropEnd_append]
  refine ⟨x ++ x', w, w', ?_, by rw [trim_white_append hx, hx'], hw, hw'⟩
  rw [htail, hvalue]
  conv_lhs => rw [hz]
  simp

/-- A trimmed text with a mark in it is the value, if it stands in the place of the value. -/
theorem exists_valuePlace {line : Text} (hnew : Byte.newline ∉ line)
    (hline : isDeclaration line = true) (hequals : Byte.equals ∈ line) :
    ∃ x w w', tail line = x ++ valueOf line ++ (w ++ Byte.semicolon :: w') ∧
      (∀ b ∈ x, isWhite b = true) ∧ (∀ b ∈ w, isWhite b = true) ∧ (∀ b ∈ w', isWhite b = true) ∧
      ∀ line' t, tail line' = x ++ t ++ (w ++ Byte.semicolon :: w') → trim t = t →
        (∃ b ∈ t, isMark b = true) → valueOf line' = t := by
  obtain ⟨x, w, w', htail, hx, hw, hblank⟩ := exists_valueEnds hnew hline hequals
  have hw' : trim w' = [] := trim_gaps fun b hb => isGap_of_isTabOrSpace (hblank b hb)
  refine ⟨x, w, w', htail, isWhite_of_trim hx, isWhite_of_trim hw, isWhite_of_trim hw', ?_⟩
  rintro line' t htail' ht ⟨b, hb, _⟩
  exact valueOf_between htail' hx hw hw' (List.ne_nil_of_mem hb) ht

theorem exists_valueSplit {line : Text} (hnew : Byte.newline ∉ line)
    (hline : isDeclaration line = true) (hequals : Byte.equals ∈ line) :
    ∃ x w w', tail line = x ++ valueOf line ++ (w ++ Byte.semicolon :: w') ∧
      (∀ b ∈ x, isWhite b = true) ∧ (∀ b ∈ w, isWhite b = true) ∧ ∀ b ∈ w', isWhite b = true := by
  obtain ⟨x, w, w', htail, hx, hw, hw', _⟩ := exists_valuePlace hnew hline hequals
  exact ⟨x, w, w', htail, hx, hw, hw'⟩

theorem newline_not_mem_valueOf {line : Text} (hnew : Byte.newline ∉ line)
    (hline : isDeclaration line = true) (hequals : Byte.equals ∈ line) :
    Byte.newline ∉ valueOf line := by
  intro hmem
  obtain ⟨x, w, w', htail, _⟩ := exists_valueSplit hnew hline hequals
  refine hnew ?_
  rw [head_append_tail hequals, htail]
  simp [hmem]

/-- A word that stands behind the equals sign stands in the value. -/
theorem word_valueOf {line m : Text} (hnew : Byte.newline ∉ line)
    (hline : isDeclaration line = true) (hequals : Byte.equals ∈ line) (hne : m ≠ [])
    (hm : IsRun m) {u v : Text} (h : WordIn m (tail line) u v) :
    ∃ x c e, u = x ++ c ∧ (∀ b ∈ x, isWhite b = true) ∧ WordIn m (valueOf line) c e := by
  obtain ⟨x, w, w', hsplit, hx, hw, hw'⟩ := exists_valueSplit hnew hline hequals
  have hbehind : ∀ b ∈ w ++ Byte.semicolon :: w', Byte.isName b = false := by
    intro b hb
    rcases List.mem_append.mp hb with hb | hb
    · exact (white_bytes (hw b hb)).1
    · rcases List.mem_cons.mp hb with rfl | hb
      · rfl
      · exact (white_bytes (hw' b hb)).1
  have hbare : Bare (w ++ Byte.semicolon :: w') := by
    cases hcons : w ++ Byte.semicolon :: w' with
    | nil => rfl
    | cons b rest => exact hbehind b (by rw [hcons]; exact List.mem_cons_self)
  rcases word_border hne hm hbare (hsplit.symm.trans h.split) with ⟨c, _, _, hc⟩ | ⟨e, he, hve⟩
  · exfalso
    obtain ⟨b, m', rfl⟩ := List.exists_cons_of_ne_nil hne
    have hnot := hbehind b (by rw [hc]; simp)
    rw [hm b List.mem_cons_self] at hnot
    cases hnot
  · obtain ⟨c, rfl, hc⟩ := word_front hne hm (fun b hb => (white_bytes (hx b hb)).1) he
    have hv := h.behind
    rw [hve] at hv
    exact ⟨x, c, e, rfl, hx, hc, last_append h.before, bare_left hv⟩

/-! ## Renaming uses -/

/-- A text without name bytes holds no new name. -/
theorem spliced_eq_of_no_name {old new s o : Text} (h : Spliced old new s o) (hne : new ≠ [])
    (hnew : IsRun new) (ho : ∀ b ∈ o, Byte.isName b = false) : s = o := by
  induction h with
  | nil => rfl
  | keep b _ ih => rw [ih fun x hx => ho x (List.mem_cons_of_mem _ hx)]
  | put _ _ =>
    obtain ⟨b, new', rfl⟩ := List.exists_cons_of_ne_nil hne
    have hb := ho b (List.mem_append_left _ List.mem_cons_self)
    rw [hnew b List.mem_cons_self] at hb
    cases hb

/-- New names leave what ends a line where it is. -/
theorem lastSolid_of_spliced {old new s o : Text} (h : Spliced old new s o) (hne : new ≠ [])
    (hnew : IsRun new) {b : UInt8} (hb : Byte.isName b = false) (ho : lastSolid o = some b) :
    lastSolid s = some b := by
  induction h with
  | nil => exact ho
  | @keep c s o h ih =>
    rw [← List.singleton_append, lastSolid_append] at ho ⊢
    cases hlast : lastSolid o with
    | some x =>
      rw [hlast] at ho
      rw [ih (by rw [hlast]; exact ho)]
      rfl
    | none =>
      have hblank : ∀ x ∈ o, Byte.isName x = false := by
        intro x hx
        have := lastSolid_eq_none hlast x hx
        simp only [Byte.isTabOrSpace, Bool.or_eq_true, beq_iff_eq] at this
        rcases this with rfl | rfl <;> rfl
      rw [spliced_eq_of_no_name h hne hnew hblank]
      exact ho
  | @put s o _ ih =>
    rw [lastSolid_append] at ho ⊢
    cases hlast : lastSolid o with
    | some x =>
      rw [hlast] at ho
      rw [ih (by rw [hlast]; exact ho)]
      rfl
    | none =>
      rw [hlast, Option.none_or] at ho
      rw [hnew b (lastSolid_mem ho)] at hb
      cases hb

/-- **Renaming uses never makes a declaration of a line.**  The new name has an underscore, so that
it is no part of the keyword, nor the keyword a part of it. -/
theorem isDeclaration_of_replaceWord {old new line : Text} (hnew : IsRun new)
    (hunder : Byte.underscore ∈ new) (hline : Byte.newline ∉ line)
    (h : isDeclaration (replaceWord old new line) = true) : isDeclaration line = true := by
  have hne : new ≠ [] := List.ne_nil_of_mem hunder
  have hspliced := replaceWord_spliced old new line
  have hout : Byte.newline ∉ replaceWord old new line := by
    intro hmem
    rcases hspliced.mem hmem with hmem | hmem
    · exact hline hmem
    · cases hnew _ hmem
  rw [isDeclaration_iff hout] at h
  obtain ⟨⟨indent, g, rest, heq, hindent, hg⟩, hlast⟩ := h
  rw [isDeclaration_iff hline]
  refine ⟨?_, lastSolid_of_spliced hspliced hne hnew rfl hlast⟩
  have hgname : Byte.isName g = false := by
    rcases isGap_cases hg with rfl | rfl | rfl | rfl | rfl <;> rfl
  obtain ⟨s, hs⟩ := hspliced.start (heq.trans (List.append_cons _ g rest)) (by
      intro c hc hcne
      constructor
      · intro hfront
        have hmem := hc.subset (hfront.subset hunder)
        rcases List.mem_append.mp hmem with hmem | hmem
        · rcases List.mem_append.mp hmem with hmem | hmem
          · cases hindent _ hmem
          · revert hmem
            decide
        · rw [← List.mem_singleton.mp hmem] at hg
          cases hg
      · intro hfront
        have hmem : g ∈ c := by
          obtain ⟨front, hfront⟩ := hc
          have hgl := congrArg List.getLast? hfront
          rw [List.getLast?_append, List.getLast?_eq_some_getLast hcne] at hgl
          simp only [Option.some_or, List.getLast?_append, List.getLast?_singleton] at hgl
          rw [← Option.some.inj hgl]
          exact List.getLast_mem hcne
        rw [hnew g (hfront.subset hmem)] at hgname
        cases hgname)
  exact ⟨indent, g, s, by rw [hs]; simp, hindent, hg⟩

/-! ## All declarations of a text -/

/-- The declaration on a line, if the line is one and has both halves. -/
def onLine? (line : Text) : Option Declaration :=
  if isDeclaration line then parse? line else none

theorem onLine?_eq_some {line : Text} {d : Declaration} :
    onLine? line = some d ↔ isDeclaration line = true ∧ parse? line = some d := by
  simp [onLine?]

theorem line_of_onLine? {line : Text} {d : Declaration} (h : onLine? line = some d) :
    d.line = line ∧ d.name = nameOf line ∧ d.value = valueOf line ∧ d.name ≠ [] := by
  obtain ⟨_, rfl, hname, _⟩ := parse?_eq_some (onLine?_eq_some.mp h).2
  exact ⟨rfl, rfl, rfl, hname⟩

theorem scanLines_eq_none {ds : List Declaration} {ls : List Text} :
    ∀ number : Nat, scanLines number ls = (ds, none) ↔
      (∀ l ∈ ls, isDeclaration l = true → (parse? l).isSome = true) ∧
        ds = ls.filterMap onLine? := by
  induction ls generalizing ds with
  | nil =>
    intro number
    constructor
    · rintro ⟨⟩
      exact ⟨by simp, rfl⟩
    · rintro ⟨_, rfl⟩
      rfl
  | cons line ls ih =>
    intro number
    unfold scanLines
    by_cases hline : isDeclaration line = true
    · cases hparse : parse? line with
      | none => simp [hline, hparse]
      | some d =>
        have honline : onLine? line = some d := by simp [onLine?, hline, hparse]
        rcases hrest : scanLines (number + 1) ls with ⟨ds', _ | bad⟩
        · obtain ⟨hall, rfl⟩ := (ih (number + 1)).mp hrest
          rw [List.filterMap_cons_some honline, List.forall_mem_cons]
          simp only [hline, hparse, ite_true, Prod.mk.injEq, and_true, Option.isSome_some,
            forall_const, true_and]
          exact ⟨fun h => ⟨hall, h.symm⟩, fun h => h.2.symm⟩
        · have hnot : ¬ ∀ l ∈ ls, isDeclaration l = true → (parse? l).isSome = true := by
            intro hall
            rw [(ih (number + 1)).mpr ⟨hall, rfl⟩] at hrest
            cases hrest
          simp [hline, hparse, hnot]
    · have honline : onLine? line = none := by simp [onLine?, hline]
      rw [if_neg hline, ih]
      simp [hline, honline]

/-- Lines as they stand in a text without malformed declarations. -/
def WellFormed (ls : List Text) : Prop :=
  ∀ l ∈ ls, Byte.newline ∉ l ∧ (isDeclaration l = true → ∃ d, onLine? l = some d)

/-- **All declarations of a text are found, if none of them is malformed.** -/
theorem extract_eq_ok {s : Text} {ds : List Declaration} : extract s = .ok ds ↔
    WellFormed (lines s) ∧ ds = (lines s).filterMap onLine? := by
  have hscan : extract s = .ok ds ↔ scan s = (ds, none) := by
    unfold extract
    split <;> simp_all
  have hwf : WellFormed (lines s) ↔
      ∀ l ∈ lines s, isDeclaration l = true → (parse? l).isSome = true := by
    refine forall₂_congr fun l hl => ?_
    rw [and_iff_right (newline_not_mem hl)]
    refine forall_congr' fun hline => ?_
    simp [onLine?, hline, Option.isSome_iff_exists]
  rw [hscan, hwf]
  exact scanLines_eq_none 1

section Extract

variable {s : Text} {ds : List Declaration}

theorem mem_extract (h : extract s = .ok ds) {d : Declaration} :
    d ∈ ds ↔ ∃ l ∈ lines s, onLine? l = some d := by
  rw [(extract_eq_ok.mp h).2, List.mem_filterMap]

theorem onLine?_of_mem (h : extract s = .ok ds) {d : Declaration} (hd : d ∈ ds) :
    onLine? d.line = some d := by
  obtain ⟨l, _, hl⟩ := (mem_extract h).mp hd
  rw [(line_of_onLine? hl).1]
  exact hl

/-- A declaration of the text stands on each of its declaration lines. -/
theorem exists_of_isDeclaration (h : extract s = .ok ds) {l : Text} (hl : l ∈ lines s)
    (hline : isDeclaration l = true) : ∃ d ∈ ds, d.name = nameOf l ∧ d.value = valueOf l := by
  obtain ⟨d, hd⟩ := ((extract_eq_ok.mp h).1 l hl).2 hline
  obtain ⟨_, hname, hvalue, _⟩ := line_of_onLine? hd
  exact ⟨d, (mem_extract h).mpr ⟨l, hl, hd⟩, hname, hvalue⟩

theorem runs_of_extract (h : extract s = .ok ds) (hnames : ∀ d ∈ ds, IsRun d.name) :
    ∀ n ∈ ds.map (·.name), n ≠ [] ∧ IsRun n := by
  intro n hn
  obtain ⟨d, hd, rfl⟩ := List.mem_map.mp hn
  exact ⟨(line_of_onLine? (onLine?_of_mem h hd)).2.2.2, hnames d hd⟩

end Extract

end ActionLog.Declaration

namespace ActionLog.Pass

theorem declares_iff {n line : Text} :
    declares n line = true ↔ Declaration.isDeclaration line = true ∧ Declaration.nameOf line = n := by
  simp [declares]

theorem not_declares_of_ne {n m line : Text} (h : declares n line = true) (hne : m ≠ n) :
    declares m line = false := by
  by_contra hother
  rw [Bool.not_eq_false] at hother
  exact hne ((declares_iff.mp hother).2.symm.trans (declares_iff.mp h).2)

theorem ne_of_declares {n m line : Text} (h : declares m line = true)
    (hforeign : declares n line = false) : m ≠ n := by
  rintro rfl
  rw [h] at hforeign
  cases hforeign

end ActionLog.Pass
