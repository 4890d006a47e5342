import ActionLog.Proofs.Insertion
import ActionLog.Proofs.Passing

/-!
# One variable inlined

A variable that is passed wherever it occurs is inlined as a whole: each occurrence becomes the
value, and the lines that declare the variable are dropped.

* `lineAt_mem_lines` — the line of a place is one of the lines of the text;
* `revise_inlineEdits` — the edits that inline a variable can always be made;
* `exists_use` — there are none where the variable occurs on its own lines only;
* `PassedElsewhere` — every occurrence on another line is passed;
* `put` — a value in the place of a name.

Principal results: `inline_unused` and `inline_used` — what inlining comes to without and with an
occurrence elsewhere.
-/

set_option autoImplicit false

namespace ActionLog

namespace Text

/-- What a search finds stands at its place. -/
theorem mem_findAllFrom {α : Type} (g : Grain) (p : Pattern α) (s : Text) :
    ∀ {pos : Nat} {before : Option UInt8} {skip : Nat},
      ∀ hit ∈ findAllFrom g p pos before skip s, ∃ u r n, s = u ++ r ∧
        p (u.getLast?.or before) r = some (n, hit.value) ∧ hit.start = pos + u.length ∧
          hit.stop = hit.start + n := by
  induction s with
  | nil =>
    intro pos before skip hit hhit
    simp [findAllFrom] at hhit
  | cons b s ih =>
    intro pos before skip hit hhit
    -- a match in the rest, when one byte more stands before it
    have hlater : ∀ {skip : Nat}, hit ∈ findAllFrom g p (pos + 1) (some b) skip s →
        ∃ u r n, b :: s = u ++ r ∧ p (u.getLast?.or before) r = some (n, hit.value) ∧
          hit.start = pos + u.length ∧ hit.stop = hit.start + n := by
      intro skip hmem
      obtain ⟨u, r, n, rfl, hp, hstart, hstop⟩ := ih hit hmem
      refine ⟨b :: u, r, n, rfl, ?_, ?_, hstop⟩
      · rwa [getLast?_cons_or]
      · rw [hstart, List.length_cons]
        omega
    cases skip with
    | succ skip => exact hlater hhit
    | zero =>
      rw [findAllFrom] at hhit
      split at hhit
      · rename_i n a hp
        rcases List.mem_cons.mp hhit with rfl | hmem
        · exact ⟨[], b :: s, n, rfl, hp, rfl, rfl⟩
        · exact hlater hmem
      · exact hlater hhit

end Text

namespace Pass

open Declaration (isDeclaration nameOf valueOf)
open Text (IsRun Bare WordIn hasWord substitute)

/-! ## The lines of the edits -/

/-- A text ends with its first line, or a newline follows that. -/
theorem firstLine_split (r : Text) : ∃ q, r = r.takeWhile (· != Byte.newline) ++ q ∧
    Byte.newline ∉ r.takeWhile (· != Byte.newline) ∧ (q = [] ∨ ∃ q', q = Byte.newline :: q') := by
  refine ⟨r.dropWhile (· != Byte.newline), List.takeWhile_append_dropWhile.symm, fun hmem => ?_, ?_⟩
  · have hnew := List.mem_takeWhile_imp hmem
    simp at hnew
  · cases hrest : r.dropWhile (· != Byte.newline) with
    | nil => exact .inl rfl
    | cons b q =>
      have hb := List.head_dropWhile_not (· != Byte.newline) (l := r) (by rw [hrest]; simp)
      simp only [hrest, List.head_cons, bne_eq_false_iff_eq] at hb
      exact .inr ⟨q, by rw [hb]⟩

/-- The line of a place is one of the lines of the text. -/
theorem lineAt_mem_lines (u r : Text) :
    lastLine u ++ r.takeWhile (· != Byte.newline) ∈ Text.lines (u ++ r) := by
  obtain ⟨q, hr, hrnew, hq⟩ := firstLine_split r
  obtain ⟨p, hu, hunew, hp⟩ := firstLine_split u.reverse
  have hu : u = p.reverse ++ lastLine u := by
    have hrev := congrArg List.reverse hu
    rwa [List.reverse_reverse, List.reverse_append] at hrev
  have hnew : Byte.newline ∉ lastLine u ++ r.takeWhile (· != Byte.newline) := by
    rw [List.mem_append, not_or]
    exact ⟨fun hmem => hunew (List.mem_reverse.mp hmem), hrnew⟩
  generalize lastLine u = x at hu hnew ⊢
  generalize r.takeWhile (· != Byte.newline) = y at hr hnew ⊢
  -- the lines from the start of this one on, and then those before it
  have hback : x ++ y ∈ Text.lines (x ++ r) := by
    rw [hr, ← List.append_assoc]
    rcases hq with rfl | ⟨q', rfl⟩
    · rw [List.append_nil, Text.lines_eq_singleton hnew]
      exact List.mem_singleton_self _
    · rw [Text.lines_append_newline, Text.lines_eq_singleton hnew]
      exact List.mem_append_left _ (List.mem_singleton_self _)
  rw [hu, List.append_assoc]
  rcases hp with rfl | ⟨p', rfl⟩
  · exact hback
  · rw [List.reverse_cons, List.append_assoc, List.singleton_append, Text.lines_append_newline]
    exact List.mem_append_right _ hback

/-- A word stands on the line of its place. -/
theorem hasWord_line {n u v : Text} (hne : n ≠ []) (hn : IsRun n)
    (hu : u.getLast?.any Byte.isName = false) (hv : Bare v) :
    hasWord n (lastLine u ++ (n ++ v).takeWhile (· != Byte.newline)) = true := by
  have hname : (n ++ v).takeWhile (· != Byte.newline) = n ++ v.takeWhile (· != Byte.newline) := by
    refine List.takeWhile_append_of_pos fun b hb => ?_
    rw [bne_iff_ne]
    rintro rfl
    exact newline_not_mem_of_isRun hn hb
  rw [hname, ← List.append_assoc]
  refine Text.hasWord_iff.mpr ⟨hne, lastLine u, _, rfl, by rwa [getLast?_lastLine], ?_⟩
  rw [← List.takeWhile_append_dropWhile (p := (· != Byte.newline)) (l := v)] at hv
  exact Text.bare_left hv

/-- A word of a text stands on one of its lines. -/
theorem exists_wordLine {n s : Text} (hn : IsRun n) (h : hasWord n s = true) :
    ∃ l ∈ Text.lines s, hasWord n l = true := by
  obtain ⟨hne, u, v, hin⟩ := Text.hasWord_iff.mp h
  refine ⟨_, ?_, hasWord_line hne hn hin.before hin.behind⟩
  rw [hin.split, List.append_assoc]
  exact lineAt_mem_lines u (n ++ v)

section Edits

variable {d : Declaration} {s : Text}

/-- What an edit that inlines a variable is made for. -/
theorem mem_inlineEdits (hrun : IsRun d.name) {hit : Text.Hit Bool} {e : Edit}
    (hhit : hit ∈ Text.findAllFrom .char (usePattern d.name) 0 none 0 s)
    (he : useEdit? d s hit = some e) :
    ∃ u r, s = u ++ (d.name ++ r) ∧ IsUse d.name (lastLine u) (d.name ++ r) ∧
      e = ⟨u.length, u.length + d.name.length, d.value⟩ ∧ e.start = hit.start ∧
        e.stop ≤ hit.stop := by
  obtain ⟨u, r, n, rfl, hp, hstart, hstop⟩ := Text.mem_findAllFrom _ _ _ hit hhit
  rw [Option.or_none] at hp
  obtain ⟨t, rfl, hpassed, hx⟩ := usePattern_eq_some hrun hp
  obtain ⟨hn, hvalue⟩ := Prod.mk.inj hx
  obtain ⟨start, stop, value⟩ := hit
  rw [Nat.zero_add] at hstart
  subst hstart hvalue
  obtain ⟨huse, rfl⟩ := useEdit?_eq_some he ⟨t, rfl, hpassed⟩
  refine ⟨u, t, rfl, huse, rfl, rfl, ?_⟩
  have hle : stop = u.length + n := hstop
  show u.length + d.name.length ≤ stop
  omega

/-- **The edits that inline a variable can be made.** -/
theorem revise_inlineEdits (hrun : IsRun d.name) (s : Text) :
    revise s (inlineEdits d s) = .ok (Draft.splice s 0 (inlineEdits d s)) := by
  refine (makeable_inlineEdits fun hit hhit e he => ?_).revise_eq
  obtain ⟨u, r, _, _, rfl, _, hstop⟩ := mem_inlineEdits hrun hhit he
  exact ⟨Nat.le_add_right _ _, hstop⟩

/-- A variable is inlined only if it occurs on a line that does not declare it. -/
theorem exists_use (hne : d.name ≠ []) (hrun : IsRun d.name) (h : inlineEdits d s ≠ []) :
    ∃ l ∈ Text.lines s, declares d.name l = false ∧ hasWord d.name l = true := by
  obtain ⟨e, edits, hedits⟩ := List.exists_cons_of_ne_nil h
  have he : e ∈ inlineEdits d s := by
    rw [hedits]
    exact List.mem_cons_self
  rw [inlineEdits_eq] at he
  obtain ⟨hit, hhit, hedit⟩ := List.mem_filterMap.mp he
  obtain ⟨u, r, rfl, huse, _⟩ := mem_inlineEdits hrun hhit hedit
  obtain ⟨r', hr', hpassed⟩ := huse.next
  rw [← List.append_cancel_left hr'] at hpassed
  refine ⟨_, lineAt_mem_lines u (d.name ++ r), huse.foreign, ?_⟩
  have hstart := huse.start
  rw [getLast?_lastLine] at hstart
  exact hasWord_line hne hrun hstart (bare_of_passed hpassed)

/-- **A variable that occurs on its own lines only is not inlined.** -/
theorem inline_unused (hne : d.name ≠ []) (hrun : IsRun d.name)
    (h : ∀ l ∈ Text.lines s, declares d.name l = false → hasWord d.name l = false) :
    inline d s = .ok s := by
  have hnone : inlineEdits d s = [] := by
    by_contra hsome
    obtain ⟨l, hl, hforeign, hword⟩ := exists_use hne hrun hsome
    rw [h l hl hforeign] at hword
    cases hword
  unfold inline
  rw [Text.isValid_of_isRun hrun, hnone]
  rfl

end Edits

/-! ## A variable that is only passed -/

/-- The value `e` in the place of the name `n`. -/
def put (n e : Text) : Text → Text := fun r => if r = n then e else r

@[simp] theorem put_self (n e : Text) : put n e n = e := if_pos rfl

theorem put_of_ne {n e r : Text} (h : r ≠ n) : put n e r = r := if_neg h

theorem eq_of_put_ne {n e r : Text} (h : put n e r ≠ r) : r = n := by
  by_contra hrn
  exact h (put_of_ne hrn)

/-- The words that there are when a value has been put in. -/
theorem hasWord_put {n e x : Text} (hn : IsRun n) (hx : IsRun x) (t : Text) :
    hasWord x (substitute (put n e) t) = true ↔
      (x ≠ n ∧ hasWord x t = true) ∨ (hasWord n t = true ∧ hasWord x e = true) := by
  rw [Text.hasWord_substitute hx]
  constructor
  · rintro ⟨r, hr, hword, hinner⟩
    by_cases hrn : r = n
    · rw [hrn, put_self] at hinner
      rw [hrn] at hword
      exact .inr ⟨hword, hinner⟩
    · rw [put_of_ne hrn] at hinner
      obtain ⟨_, u, v, hin⟩ := Text.hasWord_iff.mp hinner
      rw [(Text.word_of_isRun hr hin).1]
      exact .inl ⟨hrn, hword⟩
  · rintro (⟨hxn, hword⟩ | ⟨hword, hinner⟩)
    · refine ⟨x, hx, hword, ?_⟩
      rw [put_of_ne hxn]
      exact Text.hasWord_iff.mpr ⟨(Text.hasWord_iff.mp hword).1, [], [], by simp, rfl, rfl⟩
    · exact ⟨n, hn, hword, by rwa [put_self]⟩

/-- No word is left of a name that was replaced by a value without it. -/
theorem not_hasWord_put {n e : Text} (hn : IsRun n) (he : hasWord n e = false) (l : Text) :
    hasWord n (substitute (put n e) l) = false := by
  by_contra hword
  rw [Bool.not_eq_false, hasWord_put hn hn] at hword
  rcases hword with ⟨hne, _⟩ | ⟨_, hinner⟩
  · exact hne rfl
  · rw [he] at hinner
    cases hinner

section Value

variable {m x l : Text} (hne : m ≠ []) (hm : IsRun m) (hnew : Byte.newline ∉ l)
  (h : declares m l = true)

include hne hm hnew h

theorem hasWord_of_valueOf (hword : hasWord x (valueOf l) = true) : hasWord x l = true := by
  obtain ⟨hline, hname⟩ := declares_iff.mp h
  obtain ⟨a, b, hframe⟩ := exists_valueFrame hnew hline (by rwa [hname]) (by rwa [hname])
  obtain ⟨hxne, u, v, hin⟩ := Text.hasWord_iff.mp hword
  exact Text.hasWord_iff.mpr ⟨hxne, _, _, hframe.word hin⟩

/-- All words of a declaration but the keyword and its name stand in its value. -/
theorem hasWord_valueOf (hx : IsRun x) (hxm : x ≠ m) (hkeyword : x ≠ Declaration.keyword)
    (hword : hasWord x l = true) : hasWord x (valueOf l) = true := by
  obtain ⟨hline, rfl⟩ := declares_iff.mp h
  obtain ⟨_, _, hsplit⟩ := Declaration.exists_nameSplit hline rfl hne hm
  have hequals : Byte.equals ∈ l := by
    rw [hsplit.line_eq]
    simp
  obtain ⟨hxne, u, v, hin⟩ := Text.hasWord_iff.mp hword
  have hcut : Declaration.head l ++ Byte.equals :: Declaration.tail l = u ++ x ++ v := by
    rw [← hsplit.line_eq]
    exact hin.split
  rcases Text.word_border hxne hx (show Bare (Byte.equals :: Declaration.tail l) from rfl) hcut with
    ⟨c, hcne, rfl, htail⟩ | ⟨rest, hhead, rfl⟩
  · -- behind the equals sign
    obtain ⟨b, c, rfl⟩ := List.exists_cons_of_ne_nil hcne
    rw [List.cons_append, List.cons_append] at htail
    obtain ⟨rfl, hbehind⟩ := List.cons.inj htail
    have hbefore := hin.before
    rw [List.append_cons] at hbefore
    obtain ⟨_, a, b, _, _, hvalue⟩ := Declaration.word_valueOf hnew hline hequals hxne hx
      ⟨hbehind, Text.last_append hbefore, hin.behind⟩
    exact Text.hasWord_iff.mpr ⟨hxne, a, b, hvalue⟩
  · -- before it stand only words that are kept where this one is left out
    have hword : hasWord x (Declaration.head l) = true :=
      Text.hasWord_iff.mpr ⟨hxne, u, rest, hhead, hin.before, Text.bare_left hin.behind⟩
    have hself := Declaration.substitute_head (f := put x []) hline hne hm
      (put_of_ne hkeyword.symm) (put_of_ne hxm.symm)
    rw [← hself, not_hasWord_put hx rfl] at hword
    cases hword

end Value

/-- Every word `n` on a line that does not declare it is passed. -/
def PassedElsewhere (n : Text) (ls : List Text) : Prop :=
  ∀ pre l post u v, ls = pre ++ l :: post → declares n l = false → WordIn n l u v →
    passed (v ++ following post) = true

theorem PassedElsewhere.tail {n l : Text} {ls : List Text} (h : PassedElsewhere n (l :: ls)) :
    PassedElsewhere n ls := by
  intro pre l' post u v hsplit
  exact h (l :: pre) l' post u v (by rw [hsplit]; rfl)

/-- The lines on which a name that is only passed is inlined. -/
theorem InlinedLines.eq_map {n e : Text} {ls os : List Text} (h : InlinedLines n e ls os)
    (hne : n ≠ []) (hn : IsRun n) (hpassed : PassedElsewhere n ls) :
    os = ls.map fun l => if declares n l = true then l else substitute (put n e) l := by
  induction h with
  | nil => rfl
  | own hown _ ih => rw [List.map_cons, if_pos hown, ← ih hpassed.tail]
  | @other l o ls os hother hline _ ih =>
    have ho : o = substitute (put n e) l := by
      rw [replaceWord_of_lineInlined hne hline, ← Text.replaceWord_eq_from,
        Text.replaceWord_eq_substitute hne hn]
      · rfl
      · intro u v hsplit hbefore hbare
        rw [Option.or_none] at hbefore
        exact hpassed [] l ls u v rfl hother ⟨hsplit, hbefore, hbare⟩
    rw [List.map_cons, if_neg (by rw [hother]; decide), ← ih hpassed.tail, ho]

/-- The lines of a text with a variable inlined. -/
def inlinedLines (n e : Text) (ls : List Text) : List Text :=
  (ls.filter fun l => !declares n l).map (substitute (put n e))

/-- The lines that are left when the lines that declare the variable are dropped. -/
theorem filter_inlined {n e line : Text} {ls : List Text}
    (hown : ∀ l ∈ ls, declares n l = true → l = line)
    (hother : ∀ l, substitute (put n e) l ≠ line) :
    (ls.map fun l => if declares n l = true then l else substitute (put n e) l).filter (· != line) =
      inlinedLines n e ls := by
  unfold inlinedLines
  induction ls with
  | nil => rfl
  | cons l ls ih =>
    rw [List.forall_mem_cons] at hown
    rw [List.map_cons, List.filter_cons, List.filter_cons, ih hown.2]
    cases hdecl : declares n l with
    | true => simp [hown.1 hdecl]
    | false => simp [hother l]

/-- **A variable that is passed wherever it occurs elsewhere is inlined as a whole.** -/
theorem inline_used {d : Declaration} {s : Text} (hne : d.name ≠ []) (hrun : IsRun d.name)
    (hnew : Byte.newline ∉ d.value) (hvalue : hasWord d.name d.value = false)
    (hpassed : PassedElsewhere d.name (Text.lines s))
    (hline : hasWord d.name d.line = true)
    (hown : ∀ l ∈ Text.lines s, declares d.name l = true → l = d.line)
    (hused : ∃ l ∈ Text.lines s, declares d.name l = false ∧ hasWord d.name l = true) :
    ∃ out i j, inline d s = .ok out ∧ inlinedLines d.name d.value (Text.lines s) =
      List.replicate i [] ++ Text.lines out ++ List.replicate j [] := by
  have hrevise := revise_inlineEdits hrun s
  have hinlined := inlinedLines_of_revise hne hrun hnew hrevise
  have hmap := hinlined.eq_map hne hrun hpassed
  have hnone := not_hasWord_put hrun hvalue
  obtain ⟨l, hl, hforeign, hword⟩ := hused
  -- the word on the line would be left if there were no edit
  have hedits : inlineEdits d s ≠ [] := by
    intro hnil
    rw [hnil] at hmap
    have hmem : l ∈ Text.lines (Draft.splice s 0 []) := by
      simpa [Draft.splice] using hl
    rw [hmap] at hmem
    obtain ⟨l', _, hl'⟩ := List.mem_map.mp hmem
    split at hl'
    · rename_i hdecl
      rw [hl', hforeign] at hdecl
      cases hdecl
    · rw [← hl', hnone] at hword
      cases hword
  have hfilter : (Text.lines (Draft.splice s 0 (inlineEdits d s))).filter (· != d.line) =
      inlinedLines d.name d.value (Text.lines s) := by
    rw [hmap]
    refine filter_inlined hown fun l' heq => ?_
    rw [← heq, hnone] at hline
    cases hline
  have hosnew := hinlined.newline_not_mem hnew fun l hl => Text.newline_not_mem hl
  have hsome : (Text.lines (Draft.splice s 0 (inlineEdits d s))).filter (· != d.line) ≠ [] := by
    rw [hfilter]
    have hkept : l ∈ (Text.lines s).filter fun l => !declares d.name l :=
      List.mem_filter.mpr ⟨hl, by simp [hforeign]⟩
    exact List.ne_nil_of_mem (List.mem_map_of_mem hkept)
  obtain ⟨i, j, hdrop⟩ := dropLine_eq hosnew hsome
  refine ⟨Text.trimNewlines (Text.unlines
    ((Text.lines (Draft.splice s 0 (inlineEdits d s))).filter (· != d.line))), i, j, ?_, ?_⟩
  · unfold inline
    rw [Text.isValid_of_isRun hrun]
    split
    · rename_i hvalid
      cases hvalid
    · split
      · rename_i hnil
        exact absurd hnil hedits
      · unfold reviseOrAbort
        rw [hrevise]
        rfl
  · rw [← hfilter]
    exact hdrop

end Pass

end ActionLog
