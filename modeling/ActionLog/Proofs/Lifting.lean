import ActionLog.Proofs.LineChange
import ActionLog.Proofs.Setting
import ActionLog.Proofs.Shadowing

/-!
# Literals lifted and put back

Lifting changes one literal on each line that has a setting, and keeps all other lines.

* `Lifts` — what becomes of a line; `exists_lifts` says that the edits of all lines come to that;
* `lifted?` — the parameter that a change makes;
* `exists_changes` — lifting with setters in valid text never fails, and changes lines one by one;
* `Lifted` — a text with its literals lifted, and the parameters that stand for them.

Principal results: `liftParameters_reversible` — putting each value back in the place of its name
restores the text — and `liftParameters_literal` — a literal is lifted exactly if it has no comma.
-/

set_option autoImplicit false

namespace ActionLog.Pass

open LineChange (before after flip edits)
open Text (lines unlines)

/-! ## Lines and their changes -/

/-- What lifting makes of a line. -/
inductive Lifts (setters : List Text) (ignored : Text → Bool) : Text → LineChange → Prop
  | keep {line : Text} : setting? setters ignored line = none →
      Lifts setters ignored line (.keep line)
  | lift {front key value back : Text} (name : Text) :
      setting? setters ignored (front ++ (value ++ back)) = some (.behind front key value) →
      Sets setters ignored front key value back →
      Lifts setters ignored (front ++ (value ++ back)) (.swap front value name back)

/-- The parameter that a change makes. -/
def lifted? : LineChange → Option Parameter
  | .keep _ => none
  | .swap _ value name _ => some ⟨name, value⟩

section Lines

variable {setters : List Text} {ignored : Text → Bool}

theorem Lifts.before_eq {line : Text} {c : LineChange} (h : Lifts setters ignored line c) :
    c.before = line := by
  cases h <;> rfl

theorem Lifts.eq_keep {line : Text} {c : LineChange} (h : Lifts setters ignored line c)
    (hnone : setting? setters ignored line = none) : c = .keep line := by
  cases h with
  | keep _ => rfl
  | lift _ hsome _ =>
    rw [hnone] at hsome
    cases hsome

theorem Lifts.eq_swap {line front key value back : Text} {c : LineChange}
    (h : Lifts setters ignored line c)
    (hsome : setting? setters ignored line = some (.behind front key value))
    (hline : line = front ++ (value ++ back)) : ∃ name, c = .swap front value name back := by
  cases h with
  | keep hnone =>
    rw [hnone] at hsome
    cases hsome
  | lift name hsetting _ =>
    rw [hsetting] at hsome
    obtain ⟨_, rfl, hlen, _⟩ := Setting.mk.inj (Option.some.inj hsome)
    obtain ⟨rfl, htail⟩ := List.append_inj hline hlen
    rw [List.append_cancel_left htail]
    exact ⟨name, rfl⟩

theorem map_before {ls : List Text} {cs : List LineChange}
    (h : List.Forall₂ (Lifts setters ignored) ls cs) : cs.map before = ls := by
  induction h with
  | nil => rfl
  | cons hline _ ih => rw [List.map_cons, hline.before_eq, ih]

theorem exists_change {ls : List Text} {cs : List LineChange}
    (h : List.Forall₂ (Lifts setters ignored) ls cs) {i : Nat} {line : Text}
    (hline : ls[i]? = some line) : ∃ c, cs[i]? = some c ∧ Lifts setters ignored line c := by
  obtain ⟨hlen, hget⟩ := List.forall₂_iff_get.mp h
  obtain ⟨hi, rfl⟩ := List.getElem?_eq_some_iff.mp hline
  exact ⟨cs[i], List.getElem?_eq_getElem (hlen ▸ hi), hget i hi (hlen ▸ hi)⟩

theorem exists_line {ls : List Text} {cs : List LineChange}
    (h : List.Forall₂ (Lifts setters ignored) ls cs) {c : LineChange} (hc : c ∈ cs) :
    ∃ line, Lifts setters ignored line c := by
  obtain ⟨hlen, hget⟩ := List.forall₂_iff_get.mp h
  obtain ⟨i, hi, rfl⟩ := List.mem_iff_getElem.mp hc
  exact ⟨ls[i], hget i (hlen ▸ hi) hi⟩

/-- **The edits of lines are those of their changes**, and so are the parameters. -/
theorem exists_lifts (setters : List Text) (ignored : Text → Bool) :
    ∀ (ls : List Text) (offset : Nat) (names : Registry), ∃ cs,
      List.Forall₂ (Lifts setters ignored) ls cs ∧
      (liftLines setters ignored offset ls names).1 = edits offset cs ∧
      (liftLines setters ignored offset ls names).2.1 = cs.filterMap lifted?
  | [], _, _ => ⟨[], .nil, rfl, rfl⟩
  | line :: ls, offset, names => by
    unfold liftLines
    cases hx : setting? setters ignored line with
    | none =>
      obtain ⟨cs, hlifts, hedits, hparams⟩ :=
        exists_lifts setters ignored ls (offset + line.length + 1) names
      exact ⟨.keep line :: cs, .cons (.keep hx) hlifts, hedits, hparams⟩
    | some x =>
      obtain ⟨front, key, value, back, rfl, rfl, hsets⟩ := sets_of_setting? hx
      obtain ⟨cs, hlifts, hedits, hparams⟩ :=
        exists_lifts setters ignored ls (offset + (front ++ (value ++ back)).length + 1)
          (names.allocate .parameters key).2
      refine ⟨.swap front value (names.allocate .parameters key).1 back :: cs,
        .cons (.lift _ hx hsets) hlifts, ?_, ?_⟩
      · refine congrArg₂ List.cons ?_ hedits
        simp [Setting.behind, Nat.add_assoc]
      · exact congrArg (_ :: ·) hparams

/-- **Lifting with setters in valid text never fails, and changes lines one by one.** -/
theorem exists_changes (hvalid : ∀ t ∈ setters, Text.isValid t = true) (ignored : Text → Bool)
    (names : Registry) (s : Text) : ∃ cs names', liftParameters setters ignored names s =
        .ok (unlines (cs.map after), cs.filterMap lifted?, names') ∧
      List.Forall₂ (Lifts setters ignored) (lines s) cs ∧
      (cs.filterMap lifted?).map (·.name) =
        Registry.handOut names.parameters (liftedKeys setters ignored s) := by
  obtain ⟨cs, hlifts, hedits, hparams⟩ := exists_lifts setters ignored (lines s) 0 names
  have hrevise := LineChange.revise_edits cs
  rw [map_before hlifts, Text.unlines_lines] at hrevise
  refine ⟨cs, (liftLines setters ignored 0 (lines s) names).2.2, ?_, hlifts, ?_⟩
  · rw [liftParameters_eq (List.all_eq_true.mpr hvalid), hedits]
    unfold reviseOrAbort
    rw [hrevise, ← hparams]
    rfl
  · rw [← hparams]
    exact liftLines_handOut setters ignored (lines s) 0 names

end Lines

/-! ## The text and its parameters -/

/-- A text with literals lifted: each line is kept or has a literal replaced by a name, and the
parameters are these names and literals in order.  The names are pairwise distinct identifiers that
were not taken. -/
structure Lifted (setters : List Text) (ignored : Text → Bool) (taken : List Text) (s out : Text)
    (params : List Parameter) (cs : List LineChange) : Prop where
  lines_before : lines s = cs.map before
  lines_after : lines out = cs.map after
  sets : ∀ front value name back, LineChange.swap front value name back ∈ cs →
    ∃ key, Sets setters ignored front key value back
  params_eq : params = cs.filterMap lifted?
  nodup : (params.map (·.name)).Nodup
  fresh : ∀ p ∈ params, Name.IsIdentifier p.name ∧ p.name ∉ taken

theorem lifted_of_lifts {setters : List Text} {ignored : Text → Bool} {taken keys : List Text}
    {s : Text} {cs : List LineChange} (h : List.Forall₂ (Lifts setters ignored) (lines s) cs)
    (hnames : (cs.filterMap lifted?).map (·.name) = Registry.handOut taken keys) :
    Lifted setters ignored taken s (unlines (cs.map after)) (cs.filterMap lifted?) cs := by
  have hbefore := map_before h
  have hfresh : ∀ p ∈ cs.filterMap lifted?, Name.IsIdentifier p.name ∧ p.name ∉ taken := by
    intro p hp
    have hmem := List.mem_map_of_mem (f := (·.name)) hp
    rw [hnames] at hmem
    exact ⟨Registry.handOut_isIdentifier taken keys _ hmem,
      (Registry.handOut_fresh taken keys).2 _ hmem⟩
  refine ⟨hbefore.symm, Text.lines_unlines ?_ ?_, ?_, rfl, ?_, hfresh⟩
  · -- names have no newlines, and the parts of lines have none
    intro l hl
    obtain ⟨c, hc, rfl⟩ := List.mem_map.mp hl
    have hline : Byte.newline ∉ c.before :=
      Text.newline_not_mem (by rw [← hbefore]; exact List.mem_map_of_mem hc)
    cases c with
    | keep line => exact hline
    | swap front value name back =>
      obtain ⟨hname, _⟩ := hfresh ⟨name, value⟩ (List.mem_filterMap.mpr ⟨_, hc, rfl⟩)
      simp only [before, after, List.mem_append, not_or] at hline ⊢
      refine ⟨hline.1, fun hmem => ?_, hline.2.2⟩
      cases List.all_eq_true.mp hname.1 _ hmem
  · intro hnil
    have := Text.lines_ne_nil s
    rw [← hbefore, List.map_eq_nil_iff.mp hnil] at this
    exact this rfl
  · intro front value name back hmem
    obtain ⟨line, hline⟩ := exists_line h hmem
    cases hline with
    | lift _ _ hsets => exact ⟨_, hsets⟩
  · rw [hnames]
    exact (Registry.handOut_fresh taken keys).1

/-- With a setter that is not valid text nothing is lifted. -/
theorem liftParameters_invalid {setters : List Text} (h : ∃ t ∈ setters, Text.isValid t = false)
    (ignored : Text → Bool) (names : Registry) (s : Text) :
    liftParameters setters ignored names s =
      .error (.aborted (.pattern (setterCallSource setters))) := by
  refine liftParameters_aborted ?_ ignored names s
  simpa using h

/-- **Lifting parameters is reversible and touches only literals.**  With setters in valid text it
never fails; each line is kept or has a literal replaced by the name of a parameter, and putting each
value back in the place of its name restores the text.  With any other setter it aborts. -/
theorem liftParameters_reversible (setters : List Text) (ignored : Text → Bool) (names : Registry)
    (s : Text) :
    ((∀ t ∈ setters, Text.isValid t = true) → ∃ out params names' cs,
      liftParameters setters ignored names s = .ok (out, params, names') ∧
      Lifted setters ignored names.parameters s out params cs ∧
      revise out (edits 0 (cs.map flip)) = .ok s) ∧
    ((∃ t ∈ setters, Text.isValid t = false) → liftParameters setters ignored names s =
      .error (.aborted (.pattern (setterCallSource setters)))) := by
  refine ⟨fun hvalid => ?_, fun hinvalid => liftParameters_invalid hinvalid ignored names s⟩
  obtain ⟨cs, names', hlift, hlines, hnames⟩ := exists_changes hvalid ignored names s
  refine ⟨_, _, names', cs, hlift, lifted_of_lifts hlines hnames, ?_⟩
  rw [LineChange.revise_flip, map_before hlines, Text.unlines_lines]

/-- A setter that ends in a replacement character, and a call with a stray byte in its place. -/
def straySetter : Text := utf8 "put\uFFFD"

def strayCall : Text := utf8 "d.put" ++ 0xFF :: utf8 "(\"k\", 5)"

/-- A call of which the value is the name that it is given. -/
def selfNamed : Text := utf8 "d.putBoolean( \"true\", true );"

/-- The literal is lifted and put back, and a setter of one stray byte lifts nothing. -/
theorem liftParameters_reversible_selfNamed :
    (∀ t ∈ [utf8 "putBoolean"], Text.isValid t = true) ∧ (∃ t ∈ [[0xFF]], Text.isValid t = false) ∧
    (∃ out params names' cs,
      liftParameters [utf8 "putBoolean"] (fun _ => false) (Registry.ofReserved []) selfNamed =
        .ok (out, params, names') ∧
      Lifted [utf8 "putBoolean"] (fun _ => false) [] selfNamed out params cs ∧
      revise out (edits 0 (cs.map flip)) = .ok selfNamed) ∧
    liftParameters [[0xFF]] (fun _ => false) (Registry.ofReserved []) selfNamed =
      .error (.aborted (.pattern (setterCallSource [[0xFF]]))) := by
  have hvalid : ∀ t ∈ [utf8 "putBoolean"], Text.isValid t = true := by decide +kernel
  have hinvalid : ∃ t ∈ [[0xFF]], Text.isValid t = false := by decide +kernel
  exact ⟨hvalid, hinvalid,
    (liftParameters_reversible _ (fun _ => false) (Registry.ofReserved []) selfNamed).1 hvalid,
    (liftParameters_reversible _ (fun _ => false) (Registry.ofReserved []) selfNamed).2 hinvalid⟩

/-- A literal is lifted where no setter is written out, and one is lifted though its line is the
same afterwards. -/
theorem lifted_astray :
    (¬ straySetter <:+: strayCall ∧
      (liftParameters [straySetter] (fun _ => false) (Registry.ofReserved []) strayCall).map
        (fun r => (r.1, r.2.1)) =
        .ok (utf8 "d.put" ++ 0xFF :: utf8 "(\"k\", k)", [⟨utf8 "k", utf8 "5"⟩])) ∧
    (liftParameters [utf8 "putBoolean"] (fun _ => false) (Registry.ofReserved []) selfNamed).map
        (fun r => (r.1, r.2.1)) = .ok (selfNamed, [⟨utf8 "true", utf8 "true"⟩]) := by
  decide +kernel

/-! ## Literals with commas -/

/-- A setter call up to its last argument. -/
def callHead (front setter args gap : Text) : Text :=
  front ++ Byte.dot :: (setter ++ Byte.openParen :: (args ++ Byte.comma :: gap))

/-- What stands behind the last argument. -/
def callTail (gap rest : Text) : Text := gap ++ Byte.closeParen :: rest

/-- **A literal is lifted exactly if it has no comma.**  On a line whose first setter call takes a
literal as its last argument, the literal becomes a parameter with the literal as its value; if it
has a comma, then the line is kept and no parameter is made.  This takes setters in valid text; with
any other among them lifting aborts. -/
theorem liftParameters_literal {setters : List Text} {ignored : Text → Bool} {s : Text} {i : Nat}
    {front setter args w lit w' rest key : Text} (names : Registry)
    (hline : (lines s)[i]? = some (callHead front setter args w ++ (lit ++ callTail w' rest)))
    (hcall : Text.find? .char (setterCall setters)
      (callHead front setter args w ++ (lit ++ callTail w' rest)) =
        some ⟨front.length, front.length + setter.length + 2, ()⟩)
    (hw : ∀ b ∈ w, Byte.isTabOrSpace b = true) (hw' : ∀ b ∈ w', Byte.isTabOrSpace b = true)
    (hlit : Text.isLiteral lit = true) (hrest : Byte.closeParen ∉ rest)
    (hkey : Text.firstQuoted? args = some key) (hne : key ≠ []) (hignored : ignored key = false) :
    ((∀ t ∈ setters, Text.isValid t = true) →
      ∃ out params names' cs, liftParameters setters ignored names s = .ok (out, params, names') ∧
        Lifted setters ignored names.parameters s out params cs ∧
        (Byte.comma ∉ lit → ∃ name,
          cs[i]? = some (.swap (callHead front setter args w) lit name (callTail w' rest))) ∧
        (Byte.comma ∈ lit →
          cs[i]? = some (.keep (callHead front setter args w ++ (lit ++ callTail w' rest))))) ∧
    ((∃ t ∈ setters, Text.isValid t = false) → liftParameters setters ignored names s =
      .error (.aborted (.pattern (setterCallSource setters)))) := by
  refine ⟨fun hvalid => ?_, fun hinvalid => liftParameters_invalid hinvalid ignored names s⟩
  obtain ⟨cs, names', hlift, hlines, hnames⟩ := exists_changes hvalid ignored names s
  refine ⟨_, _, names', cs, hlift, lifted_of_lifts hlines hnames, ?_⟩
  obtain ⟨c, hc, hlifts⟩ := exists_change hlines hline
  -- the search stops behind the parenthesis
  have hlen : front.length + setter.length + 2 =
      (front ++ Byte.dot :: (setter ++ [Byte.openParen])).length := by
    simp only [List.length_append, List.length_cons, List.length_nil]
    omega
  have hhead : front ++ Byte.dot :: (setter ++ [Byte.openParen]) ++ (args ++ Byte.comma :: w) =
      callHead front setter args w := by simp [callHead]
  have hshape : callHead front setter args w ++ (lit ++ callTail w' rest) =
      front ++ Byte.dot :: (setter ++ [Byte.openParen]) ++
        (args ++ Byte.comma :: (w ++ (lit ++ (w' ++ Byte.closeParen :: rest)))) := by
    simp [callHead, callTail]
  have hsetting := setting?_literal (hshape ▸ hcall) hlen hw hw' hlit hrest hkey hne hignored
  rw [← hshape, hhead] at hsetting
  rw [hc]
  refine ⟨fun hplain => ?_, fun hcomma => ?_⟩
  · rw [if_neg hplain] at hsetting
    obtain ⟨name, rfl⟩ := hlifts.eq_swap hsetting rfl
    exact ⟨name, rfl⟩
  · rw [if_pos hcomma] at hsetting
    rw [hlifts.eq_keep hsetting]

/-- A call that sets a number, and one that sets a string with a comma in it. -/
def numberCall : Text := utf8 "d.putDouble( s2t( \"width\" ), 500 );"

def stringCall : Text := utf8 "d.putString( s2t( \"name\" ), \"a, b\" );"

def bothSetters : List Text := [utf8 "putDouble", utf8 "putString"]

/-- The number is lifted, and the line with the string is kept. -/
theorem liftParameters_literal_calls : (∀ t ∈ bothSetters, Text.isValid t = true) ∧
    (∃ out params names' cs, liftParameters bothSetters (fun _ => false) (Registry.ofReserved [])
        (unlines [numberCall, stringCall]) = .ok (out, params, names') ∧
      Lifted bothSetters (fun _ => false) [] (unlines [numberCall, stringCall]) out params cs ∧
      ∃ name, cs[0]? = some (.swap (callHead (utf8 "d") (utf8 "putDouble")
        (utf8 " s2t( \"width\" )") (utf8 " ")) (utf8 "500") name
        (callTail (utf8 " ") (utf8 ";")))) ∧
    ∃ out params names' cs, liftParameters bothSetters (fun _ => false) (Registry.ofReserved [])
        (unlines [numberCall, stringCall]) = .ok (out, params, names') ∧
      Lifted bothSetters (fun _ => false) [] (unlines [numberCall, stringCall]) out params cs ∧
      cs[1]? = some (.keep (callHead (utf8 "d") (utf8 "putString") (utf8 " s2t( \"name\" )")
        (utf8 " ") ++ (utf8 "\"a, b\"" ++ callTail (utf8 " ") (utf8 ";")))) := by
  have hvalid : ∀ t ∈ bothSetters, Text.isValid t = true := by decide +kernel
  have hplain : Byte.comma ∉ utf8 "500" := by decide +kernel
  have hcomma : Byte.comma ∈ utf8 "\"a, b\"" := by decide +kernel
  obtain ⟨out, params, names₁, cs, hout, hlifted, hnumber, _⟩ :=
    (@liftParameters_literal bothSetters (fun _ => false)
    (unlines [numberCall, stringCall]) 0 (utf8 "d") (utf8 "putDouble") (utf8 " s2t( \"width\" )")
    (utf8 " ") (utf8 "500") (utf8 " ") (utf8 ";") (utf8 "width") (Registry.ofReserved [])
    (by decide +kernel) rfl (by decide +kernel) (by decide +kernel) (by decide +kernel)
    (by decide +kernel) (by decide +kernel) (by decide +kernel) rfl).1 hvalid
  obtain ⟨out', params', names₂, cs', hout', hlifted', _, hstring⟩ :=
    (@liftParameters_literal bothSetters (fun _ => false)
    (unlines [numberCall, stringCall]) 1 (utf8 "d") (utf8 "putString") (utf8 " s2t( \"name\" )")
    (utf8 " ") (utf8 "\"a, b\"") (utf8 " ") (utf8 ";") (utf8 "name") (Registry.ofReserved [])
    (by decide +kernel) rfl (by decide +kernel) (by decide +kernel) (by decide +kernel)
    (by decide +kernel) (by decide +kernel) (by decide +kernel) rfl).1 hvalid
  exact ⟨hvalid, ⟨out, params, names₁, cs, hout, hlifted, hnumber hplain⟩,
    ⟨out', params', names₂, cs', hout', hlifted', hstring hcomma⟩⟩

/-- A string with a comma is a literal, and is not lifted. -/
theorem stringCall_kept : Text.isLiteral (utf8 "\"a, b\"") = true ∧
    (liftParameters bothSetters (fun _ => false) (Registry.ofReserved []) stringCall).map
      (fun r => (r.1, r.2.1)) = .ok (stringCall, []) := by
  decide +kernel

end ActionLog.Pass
