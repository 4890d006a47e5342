import ActionLog.Proofs.Lifting
import ActionLog.Proofs.Occurrence

/-!
# Functions read back

What an entry becomes when it is wrapped says what it was: the call tells the values, the head of the
function the names of the parameters, and the body is the text with a tab before each line.

* `arguments`, `Text.splitOn_join` — a list with commas is taken apart where it was put together;
* `dedent` — a line of a body without its tab;
* `lines_functionText` — the lines of a function;
* `unwrap` — the name of a function, its parameters and its body, as the text of the function tells;
* `IsLifted` — the parameters that lifting makes; `IsLifted.isArgument` says that they can be told
  apart in a list.

Principal result: `wrap_undone` — a wrapped text determines what was wrapped.
-/

set_option autoImplicit false

namespace ActionLog

/-! ## Lists with commas -/

namespace Text

/-- A comma with a blank does not occur where a text without commas ends with a comma. -/
theorem not_infix_comma {l : Text} (h : Byte.comma ∉ l) :
    ¬ [Byte.comma, Byte.space] <:+: l ++ [Byte.comma] := by
  rintro ⟨u, v, huv⟩
  rw [List.append_assoc] at huv
  rcases List.append_eq_append_iff.mp huv with ⟨c, rfl, hc⟩ | ⟨c, rfl, hc⟩
  · cases c with
    | nil => simp at hc
    | cons b c =>
      obtain ⟨rfl, _⟩ := List.cons.inj hc
      apply h
      simp
  · have hlen := congrArg List.length hc
    simp only [List.length_append, List.length_cons, List.length_nil] at hlen
    omega

/-- **Texts without commas are read back from their list.** -/
theorem splitOn_join : ∀ {ts : List Text}, (∀ t ∈ ts, Byte.comma ∉ t) → ts ≠ [] →
    splitOn [Byte.comma, Byte.space] (join [Byte.comma, Byte.space] ts) = ts
  | [], _, hne => absurd rfl hne
  | [t], h, _ => by
    have hnone : ¬ [Byte.comma, Byte.space] <:+: t := fun hin =>
      h t List.mem_cons_self (hin.subset List.mem_cons_self)
    simpa [join] using splitOn_single hnone
  | t :: t' :: ts, h, _ => by
    rw [List.forall_mem_cons] at h
    have ih := splitOn_join h.2 (List.cons_ne_nil t' ts)
    show splitOn _ (List.intercalate _ (t :: t' :: ts)) = _
    rw [List.intercalate_cons_cons, splitOn_first (not_infix_comma h.1)]
    exact congrArg (t :: ·) ih

theorem mem_join {sep : Text} : ∀ {ts : List Text} {b : UInt8}, b ∈ join sep ts →
    b ∈ sep ∨ ∃ t ∈ ts, b ∈ t
  | [t], b, h => .inr ⟨t, List.mem_cons_self, by simpa [join] using h⟩
  | t :: t' :: ts, b, h => by
    rw [join, List.intercalate_cons_cons, List.append_assoc, List.mem_append, List.mem_append] at h
    rcases h with h | h | h
    · exact .inr ⟨t, List.mem_cons_self, h⟩
    · exact .inl h
    · rcases mem_join h with h | ⟨x, hx, hb⟩
      · exact .inl h
      · exact .inr ⟨x, List.mem_cons_of_mem _ hx, hb⟩

end Text

namespace Pass

open Text (lines unlines)

/-- The texts of a list with commas between them.  The empty list has none. -/
def arguments (s : Text) : List Text := if s = [] then [] else Text.splitOn (utf8 ", ") s

/-- Texts that can be told apart in a list, on one line. -/
structure IsArgument (t : Text) : Prop where
  ne_nil : t ≠ []
  comma : Byte.comma ∉ t
  newline : Byte.newline ∉ t

theorem isArgument_of_isIdentifier {name : Text} (h : Name.IsIdentifier name) : IsArgument name := by
  refine ⟨?_, fun hmem => ?_, fun hmem => ?_⟩
  · rintro rfl
    cases h.2
  · cases List.all_eq_true.mp h.1 _ hmem
  · cases List.all_eq_true.mp h.1 _ hmem

theorem arguments_join {ts : List Text} (h : ∀ t ∈ ts, IsArgument t) :
    arguments (Text.join (utf8 ", ") ts) = ts := by
  have hsep : utf8 ", " = [Byte.comma, Byte.space] := by decide
  cases ts with
  | nil => rfl
  | cons t ts =>
    have hne : Text.join (utf8 ", ") (t :: ts) ≠ [] := by
      have htne := (h t List.mem_cons_self).ne_nil
      cases ts with
      | nil => simpa [Text.join] using htne
      | cons t' ts => simp [Text.join, List.intercalate, htne]
    unfold arguments
    rw [if_neg hne, hsep, Text.splitOn_join (fun x hx => (h x hx).comma) (by simp)]

theorem newline_not_mem_join {ts : List Text} (h : ∀ t ∈ ts, IsArgument t) :
    Byte.newline ∉ Text.join (utf8 ", ") ts := by
  intro hmem
  rcases Text.mem_join hmem with hsep | ⟨t, ht, hb⟩
  · revert hsep
    decide
  · exact (h t ht).newline hb

/-! ## The lines of a function -/

/-- A call of a function. -/
def callLine (name : Text) (values : List Text) : Text := name ++ argumentList values ++ utf8 ";"

/-- The head of a function. -/
def headLine (name : Text) (formals : List Text) : Text :=
  utf8 "function " ++ name ++ argumentList formals ++ utf8 " \x7b"

/-- A line without the tab at its front. -/
def dedent : Text → Text
  | [] => []
  | b :: line => if b = Byte.tab then line else b :: line

theorem dedent_indent (line : Text) : dedent (indent line) = line := by
  cases line with
  | nil => rfl
  | cons b line => simp [indent, dedent]

theorem newline_not_mem_indent {line : Text} (h : Byte.newline ∉ line) :
    Byte.newline ∉ indent line := by
  cases line with
  | nil => exact h
  | cons b line => simpa [indent, show Byte.newline ≠ Byte.tab by decide] using h

/-- The text of a body is read back from its lines. -/
theorem unlines_dedent (s : Text) : unlines (((lines s).map indent).map dedent) = s := by
  have hback : dedent ∘ indent = id := funext dedent_indent
  rw [List.map_map, hback, List.map_id, Text.unlines_lines]

/-- **The lines of a function**: its call, its head, its body and a brace. -/
theorem lines_functionText {name : Text} {params : List Parameter} (hname : Name.IsIdentifier name)
    (hvalues : ∀ t ∈ params.map (·.value), IsArgument t)
    (hformals : ∀ t ∈ params.map (·.name), IsArgument t) (body : Text) :
    lines (functionText name params body) = callLine name (params.map (·.value)) ::
      headLine name (params.map (·.name)) :: ((lines body).map indent ++ [utf8 "\x7d"]) := by
  have hsplit : functionText name params body = callLine name (params.map (·.value)) ++
      Byte.newline :: (headLine name (params.map (·.name)) ++
        Byte.newline :: (unlines ((lines body).map indent) ++ Byte.newline :: utf8 "\x7d")) := by
    have hcall : utf8 ";\n" = utf8 ";" ++ [Byte.newline] := by decide
    have hhead : utf8 " \x7b\n" = utf8 " \x7b" ++ [Byte.newline] := by decide
    have hbrace : utf8 "\n\x7d" = Byte.newline :: utf8 "\x7d" := by decide
    simp [functionText, callLine, headLine, hcall, hhead, hbrace]
  have hplain := (isArgument_of_isIdentifier hname).newline
  have hbrackets : Byte.newline ∉ utf8 "(" ∧ Byte.newline ∉ utf8 ")" ∧ Byte.newline ∉ utf8 ";" ∧
      Byte.newline ∉ utf8 "function " ∧ Byte.newline ∉ utf8 " \x7b" := by decide
  have hcall : Byte.newline ∉ callLine name (params.map (·.value)) := by
    simp [callLine, argumentList, hplain, hbrackets, newline_not_mem_join hvalues]
  have hhead : Byte.newline ∉ headLine name (params.map (·.name)) := by
    simp [headLine, argumentList, hplain, hbrackets, newline_not_mem_join hformals]
  have hbody : lines (unlines ((lines body).map indent)) = (lines body).map indent := by
    refine Text.lines_unlines (fun l hl => ?_) (by simpa using Text.lines_ne_nil body)
    obtain ⟨line, hline, rfl⟩ := List.mem_map.mp hl
    exact newline_not_mem_indent (Text.newline_not_mem hline)
  have hbrace : lines (utf8 "\x7d") = [utf8 "\x7d"] := Text.lines_eq_singleton (by decide)
  rw [hsplit, Text.lines_append_newline, Text.lines_append_newline, Text.lines_append_newline,
    Text.lines_eq_singleton hcall, Text.lines_eq_singleton hhead, hbody, hbrace]
  rfl

/-! ## Functions taken apart -/

/-- A function with the values that it is called with. -/
structure Wrapped where
  name : Text
  params : List Parameter
  body : Text
  deriving DecidableEq, Repr

/-- What stands in the parentheses of a line that ends with `close`. -/
def inside (close line : Text) : Text :=
  Text.dropEnd close ((line.dropWhile (· != Byte.openParen)).drop 1)

/-- The function that a text tells of: the first line calls it, the second line is its head, and its
body stands between that and the last line. -/
def unwrap (s : Text) : Option Wrapped :=
  match lines s with
  | call :: head :: rest =>
    let values := arguments (inside (utf8 ");") call)
    let formals := arguments (inside (utf8 ") \x7b") head)
    some ⟨callee call, List.zipWith Parameter.mk formals values, unlines (rest.dropLast.map dedent)⟩
  | _ => none

theorem inside_append {front : Text} (h : Byte.openParen ∉ front) (list close : Text) :
    inside close (front ++ Byte.openParen :: (list ++ close)) = list := by
  have hpass : ∀ b ∈ front, (b != Byte.openParen) = true := by
    intro b hb
    rw [bne_iff_ne]
    rintro rfl
    exact h hb
  unfold inside
  rw [List.dropWhile_append_of_pos hpass, List.dropWhile_cons_of_neg (by simp)]
  exact Text.dropEnd_append list close

section Function

variable {name : Text} (hname : Name.IsIdentifier name)
include hname

theorem inside_callLine (values : List Text) :
    inside (utf8 ");") (callLine name values) = Text.join (utf8 ", ") values ∧
      callee (callLine name values) = name := by
  have hline : callLine name values =
      name ++ Byte.openParen :: (Text.join (utf8 ", ") values ++ utf8 ");") := by
    have hopen : utf8 "(" = [Byte.openParen] := by decide
    have hclose : utf8 ");" = utf8 ")" ++ utf8 ";" := by decide
    simp [callLine, argumentList, hopen, hclose]
  rw [hline]
  refine ⟨inside_append (openParen_not_mem_name hname) _ _, ?_⟩
  exact callee_append (openParen_not_mem_name hname) _

theorem inside_headLine (formals : List Text) :
    inside (utf8 ") \x7b") (headLine name formals) = Text.join (utf8 ", ") formals := by
  have hline : headLine name formals = (utf8 "function " ++ name) ++
      Byte.openParen :: (Text.join (utf8 ", ") formals ++ utf8 ") \x7b") := by
    have hopen : utf8 "(" = [Byte.openParen] := by decide
    have hclose : utf8 ") \x7b" = utf8 ")" ++ utf8 " \x7b" := by decide
    simp [headLine, argumentList, hopen, hclose]
  have hfront : Byte.openParen ∉ utf8 "function " ++ name := by
    rw [List.mem_append, not_or]
    exact ⟨by decide, openParen_not_mem_name hname⟩
  rw [hline]
  exact inside_append hfront _ _

/-- **The text of a function tells its name, its parameters and its body.** -/
theorem unwrap_functionText {params : List Parameter}
    (hvalues : ∀ t ∈ params.map (·.value), IsArgument t)
    (hformals : ∀ t ∈ params.map (·.name), IsArgument t) (body : Text) :
    unwrap (functionText name params body) = some ⟨name, params, body⟩ := by
  obtain ⟨hcall, hcallee⟩ := inside_callLine hname (params.map (·.value))
  unfold unwrap
  rw [lines_functionText hname hvalues hformals]
  simp only [hcall, hcallee, inside_headLine hname, arguments_join hvalues, arguments_join hformals,
    List.dropLast_concat, unlines_dedent, List.zipWith_map, List.zipWith_self, List.map_id']

end Function

/-! ## Parameters that were lifted -/

/-- Parameters that are lifted from some text, with any setters and after any other names. -/
def IsLifted (params : List Parameter) : Prop :=
  ∃ setters ignored names s out names',
    liftParameters setters ignored names s = .ok (out, params, names')

/-- Lifting never fails with valid setters, so the parameters of all lines are lifted. -/
theorem isLifted_liftLines {setters : List Text} (hvalid : ∀ t ∈ setters, Text.isValid t = true)
    (ignored : Text → Bool) (names : Registry) (s : Text) :
    IsLifted (liftLines setters ignored 0 (lines s) names).2.1 := by
  obtain ⟨cs, names', hlift, _⟩ := exists_changes hvalid ignored names s
  have hparams : cs.filterMap lifted? = (liftLines setters ignored 0 (lines s) names).2.1 :=
    congrArg Prod.fst (liftParameters_eq_ok hlift).2
  rw [← hparams]
  exact ⟨setters, ignored, names, s, _, names', hlift⟩

theorem isArgument_of_sets {setters : List Text} {ignored : Text → Bool}
    {front key value back : Text} (h : Sets setters ignored front key value back)
    (hline : Byte.newline ∉ front ++ (value ++ back)) : IsArgument value := by
  refine ⟨(Text.isLiteral_ends h.literal).1, h.comma, fun hmem => hline ?_⟩
  simp [hmem]

/-- **Values and names that are lifted can be told apart in a list**, and no two names are the
same. -/
theorem IsLifted.isArgument {params : List Parameter} (h : IsLifted params) :
    (∀ t ∈ params.map (·.value), IsArgument t) ∧ (∀ t ∈ params.map (·.name), IsArgument t) ∧
      (params.map (·.name)).Nodup := by
  obtain ⟨setters, ignored, names, s, out, names', hresult⟩ := h
  have hvalid := List.all_eq_true.mp (liftParameters_eq_ok hresult).1
  obtain ⟨cs, names₁, hlift, hlines, hnames⟩ := exists_changes hvalid ignored names s
  rw [hresult] at hlift
  cases hlift
  have hlifted := lifted_of_lifts hlines hnames
  refine ⟨fun t ht => ?_, fun t ht => ?_, hlifted.nodup⟩
  · obtain ⟨p, hp, rfl⟩ := List.mem_map.mp ht
    obtain ⟨c, hc, hparam⟩ := List.mem_filterMap.mp hp
    have hline : c.before ∈ lines s := by
      rw [hlifted.lines_before]
      exact List.mem_map_of_mem hc
    cases c with
    | keep line => cases hparam
    | swap front value name back =>
      cases hparam
      obtain ⟨key, hsets⟩ := hlifted.sets front value name back hc
      exact isArgument_of_sets hsets (Text.newline_not_mem hline)
  · obtain ⟨p, hp, rfl⟩ := List.mem_map.mp ht
    exact isArgument_of_isIdentifier (hlifted.fresh p hp).1

/-! ## Wrapping undone -/

/-- **A wrapped text determines what was wrapped.**  Its first line calls a function with the values
of the parameters, its second line is the head of the function with their names, and both lists can
be taken apart; the last line is a brace.  Without these lines, and without a tab before each line
that is not empty, the text is what it was.  So the name, the parameters and the text are read
back. -/
theorem wrap_undone (s : Text) (names : Registry) (params : List Parameter) (h : IsLifted params) :
    ∃ f call head body, f = (names.allocate .functions (actionName s)).1 ∧
      lines (wrap params names s).1 = call :: head :: (body ++ [utf8 "\x7d"]) ∧
      call = f ++ utf8 "(" ++ Text.join (utf8 ", ") (params.map (·.value)) ++ utf8 ");" ∧
      head = utf8 "function " ++ f ++ utf8 "(" ++ Text.join (utf8 ", ") (params.map (·.name)) ++
        utf8 ") \x7b" ∧
      arguments (Text.join (utf8 ", ") (params.map (·.value))) = params.map (·.value) ∧
      arguments (Text.join (utf8 ", ") (params.map (·.name))) = params.map (·.name) ∧
      (params.map (·.name)).Nodup ∧
      unlines (body.map dedent) = s ∧
      unwrap (wrap params names s).1 = some ⟨f, params, s⟩ := by
  obtain ⟨hvalues, hformals, hnodup⟩ := h.isArgument
  obtain ⟨_, hname, _, _⟩ := Registry.allocate_spec names .functions (actionName s)
  have hwrap : (wrap params names s).1 =
      functionText (names.allocate .functions (actionName s)).1 params s := rfl
  rw [hwrap]
  generalize (names.allocate .functions (actionName s)).1 = f at hname
  have hcall : utf8 ");" = utf8 ")" ++ utf8 ";" := by decide
  have hhead : utf8 ") \x7b" = utf8 ")" ++ utf8 " \x7b" := by decide
  refine ⟨f, _, _, _, rfl, lines_functionText hname hvalues hformals s, ?_, ?_,
    arguments_join hvalues, arguments_join hformals, hnodup, unlines_dedent s,
    unwrap_functionText hname hvalues hformals s⟩
  · simp [callLine, argumentList, hcall]
  · simp [headLine, argumentList, hhead]

/-- Two calls that set one key, to a number and to a string with parentheses in it. -/
def widthCalls : Text :=
  unlines [numberCall, utf8 "d.putString( s2t( \"width\" ), \"a)( b\" );"]

def widthParams : List Parameter :=
  [⟨utf8 "width", utf8 "500"⟩, ⟨utf8 "width2", utf8 "\"a)( b\""⟩]

/-- A text with lines that are empty, that start with a tab, and that are a tab. -/
def raggedText : Text := utf8 "\ta(width);\n\n\t\n  b(width2);\n"

theorem wrap_undone_ragged :
    IsLifted widthParams ∧ unwrap (wrap widthParams (Registry.ofReserved []) raggedText).1 =
      some ⟨utf8 "xxx", widthParams, raggedText⟩ := by
  have hlifted : IsLifted widthParams := by
    have hparams : (liftLines bothSetters (fun _ => false) 0 (lines widthCalls)
        (Registry.ofReserved [])).2.1 = widthParams := by decide +kernel
    rw [← hparams]
    exact isLifted_liftLines (by decide +kernel) _ _ _
  obtain ⟨f, _, _, _, rfl, _, _, _, _, _, _, _, hunwrap⟩ :=
    wrap_undone raggedText (Registry.ofReserved []) widthParams hlifted
  refine ⟨hlifted, hunwrap.trans ?_⟩
  decide +kernel

end Pass

end ActionLog
