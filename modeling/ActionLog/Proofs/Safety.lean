import ActionLog.Proofs.Conversion
import ActionLog.Proofs.Lifting
import ActionLog.Proofs.Relabelling
import ActionLog.Proofs.Validity

/-!
# Passes do not abort on well-formed texts

Four passes queue edits at places that they compute in four ways.  On a text in well-formed UTF-8
all of these lie inside the text and keep apart, whatever names, values and setters there are.

* `usePattern_of_isValid`, `mem_inlineEdits_of_isValid` — where a variable of any name is passed;
* `inlineCurrent_of_isValid` — inlining one variable keeps a text well-formed, and so does
  inlining one after another (`foldlM_inlineCurrent`);
* `Inlining` — the variables that are inlined on the way, with the texts they are inlined in;
* `PlacesWithin` — the places that the search for a setting computes.

Principal results: `consolidate_of_isValid` and `passes_never_abort`.
-/

set_option autoImplicit false

namespace ActionLog

/-- The match takes bytes, and lies inside of a text. -/
def Text.Hit.Within {α : Type} (s : Text) (hit : Text.Hit α) : Prop :=
  hit.start < hit.stop ∧ hit.stop ≤ s.length

namespace Pass

open Declaration (isDeclaration nameOf valueOf extract)
open Text (isValid)

/-! ## Inlining -/

/-- **What is found in a well-formed text is the name itself**, with a gap and a mark behind it. -/
theorem usePattern_of_isValid {name r : Text} {before : Option UInt8} {n : Nat} {inner : Bool}
    (hname : isValid name = true) (hr : isValid r = true)
    (h : usePattern name before r = some (n, inner)) :
    ∃ gap q t, r = name ++ (gap ++ [q]) ++ t ∧ n = (name ++ (gap ++ [q])).length ∧
      isValid t = true := by
  simp only [usePattern, Option.bind_eq_bind, Option.bind_eq_some_iff] at h
  obtain ⟨k, hk, q, hq, h⟩ := h
  obtain ⟨rfl, rest, rfl⟩ := Text.literal?_of_isValid hname hr hk
  rw [List.drop_left] at h hq
  rw [← List.drop_drop, List.drop_left] at hq
  obtain ⟨hmark, hn⟩ := Option.ite_none_right_eq_some.mp h
  have hbasic : Text.IsBasic q := by
    rcases Bool.or_eq_true _ _ ▸ hmark with hmark | hmark <;>
      (rw [beq_iff_eq] at hmark; subst hmark; decide)
  obtain ⟨t, ht⟩ : ∃ t, rest.drop (rest.takeWhile Byte.isGap).length = q :: t := by
    cases hdrop : rest.drop (rest.takeWhile Byte.isGap).length with
    | nil => rw [hdrop] at hq; cases hq
    | cons b t => rw [hdrop] at hq; cases hq; exact ⟨t, rfl⟩
  have hrest : rest = rest.takeWhile Byte.isGap ++ q :: t := by
    rw [← ht, List.prefix_iff_eq_append.mp (List.takeWhile_prefix _)]
  generalize rest.takeWhile Byte.isGap = gap at hn hrest
  subst hrest
  refine ⟨gap, q, t, by simp, ?_, ?_⟩
  · cases hn
    simp [Nat.add_assoc]
  · rw [← List.append_assoc] at hr
    exact (Text.isValid_cut hbasic hr).2

section Inline

variable {d : Declaration} {s : Text}

/-- Where a name is found, and what stands there. -/
theorem use_of_isValid (hs : isValid s = true) {name : Text} (hname : isValid name = true) :
    ∀ hit ∈ Text.findAll .char (usePattern name) s, ∃ u t, s = u ++ (name ++ t) ∧
      isValid u = true ∧ hit.start = u.length ∧ hit.start + name.length < hit.stop ∧
      hit.stop ≤ s.length := by
  intro hit hhit
  have hends : ∀ {before : Option UInt8} {r : Text} {n : Nat} {a : Bool}, isValid r = true →
      usePattern name before r = some (n, a) →
      ∃ b x t, r = b :: x ++ t ∧ n = (b :: x).length ∧ isValid t = true := by
    intro before r n a hr h
    obtain ⟨gap, q, t, rfl, rfl, ht⟩ := usePattern_of_isValid hname hr h
    obtain ⟨b, x, hx⟩ := List.exists_cons_of_ne_nil
      (List.append_ne_nil_of_right_ne_nil name (List.concat_ne_nil q gap))
    exact ⟨b, x, t, by rw [hx], by rw [hx], ht⟩
  obtain ⟨u, r, n, rfl, hu, hr, hmatch, hstart, hstop⟩ :=
    Text.mem_findAllFrom_of_isValid hends hs hit hhit
  obtain ⟨gap, q, t, rfl, rfl, _⟩ := usePattern_of_isValid hname hr hmatch
  rw [Nat.zero_add] at hstart
  refine ⟨u, gap ++ [q] ++ t, by simp, hu, hstart, ?_, ?_⟩
  · rw [hstop]
    simp
  · rw [hstop, hstart]
    simp

/-- What an edit that inlines a variable of any name is made for. -/
theorem mem_inlineEdits_of_isValid (hs : isValid s = true) (hname : isValid d.name = true)
    {hit : Text.Hit Bool} (hhit : hit ∈ Text.findAll .char (usePattern d.name) s) {e : Edit}
    (he : useEdit? d s hit = some e) :
    ∃ u t, s = u ++ (d.name ++ t) ∧ isValid u = true ∧
      e = ⟨u.length, u.length + d.name.length, d.value⟩ ∧ e.start = hit.start ∧
      e.stop ≤ hit.stop := by
  obtain ⟨u, t, hsplit, hu, hstart, hstop, _⟩ := use_of_isValid hs hname hit hhit
  unfold useEdit? at he
  split at he
  · cases he
  · cases he
    rw [hstart] at hstop ⊢
    exact ⟨u, t, hsplit, hu, rfl, rfl, Nat.le_of_lt hstop⟩

/-- The edits that inline a variable can be made, whatever its name. -/
theorem makeable_inlineEdits_of_isValid (hs : isValid s = true) (hname : isValid d.name = true) :
    Makeable s (inlineEdits d s) := by
  refine makeable_inlineEdits fun hit hhit e he => ?_
  obtain ⟨u, t, _, _, rfl, _, hstop⟩ := mem_inlineEdits_of_isValid hs hname hhit he
  exact ⟨Nat.le_add_right _ _, hstop⟩

/-- They put a well-formed value between characters. -/
theorem isValid_inlined (hs : isValid s = true) (hname : isValid d.name = true)
    (hvalue : isValid d.value = true) :
    isValid (Draft.splice s 0 (inlineEdits d s)) = true := by
  refine Draft.isValid_splice hs (fun e he => ?_) rfl
  rw [inlineEdits_eq] at he
  obtain ⟨hit, hhit, hedit⟩ := List.mem_filterMap.mp he
  obtain ⟨u, t, rfl, hu, rfl, _⟩ := mem_inlineEdits_of_isValid hs hname hhit hedit
  refine ⟨?_, ?_, hvalue⟩
  · rw [List.take_left]
    exact hu
  · rw [← List.length_append, ← List.append_assoc, List.take_left]
    exact Text.isValid_append hu hname

/-- **Inlining a variable gives a well-formed text.** -/
theorem inline_of_isValid (hs : isValid s = true) (hname : isValid d.name = true)
    (hvalue : isValid d.value = true) : ∃ out, inline d s = .ok out ∧ isValid out = true := by
  have hmake := makeable_inlineEdits_of_isValid hs hname
  have hrevised := isValid_inlined hs hname hvalue
  unfold inline
  rw [hname]
  cases hedits : inlineEdits d s with
  | nil => exact ⟨s, rfl, hs⟩
  | cons e es =>
    rw [hedits] at hmake hrevised
    refine ⟨_, by simp only [hmake.reviseOrAbort_eq]; rfl, ?_⟩
    refine Text.isValid_trimNewlines (Text.isValid_unlines fun l hl => ?_)
    exact Text.isValid_lines hrevised l (List.mem_filter.mp hl).1

theorem isValid_current (hs : isValid s = true) {name : Text} {now : Declaration}
    (h : current? name s = some now) : isValid now.name = true ∧ isValid now.value = true := by
  obtain ⟨hline, hdeclares, hname, hvalue, hequals⟩ := current?_eq_some h
  have hvalid := Text.isValid_lines hs _ hline
  rw [hname, hvalue, ← (declares_iff.mp hdeclares).2]
  exact ⟨Declaration.isValid_nameOf hvalid, Declaration.isValid_valueOf hvalid hequals⟩

/-- **One step of the pass** gives a well-formed text. -/
theorem inlineCurrent_of_isValid (hs : isValid s = true) (d : Declaration) :
    ∃ out, inlineCurrent s d = .ok out ∧ isValid out = true := by
  unfold inlineCurrent
  cases hcurrent : current? d.name s with
  | none => exact ⟨s, rfl, hs⟩
  | some now =>
    obtain ⟨hname, hvalue⟩ := isValid_current hs hcurrent
    cases hobject : isConstruction now.value with
    | true => exact ⟨s, by simp [hobject], hs⟩
    | false =>
      obtain ⟨out, hout, hvalid⟩ := inline_of_isValid hs hname hvalue
      exact ⟨out, by simp [hobject, hout], hvalid⟩

/-- **All steps of the pass** give one. -/
theorem foldlM_inlineCurrent (hs : isValid s = true) (ds : List Declaration) :
    ∃ out, ds.foldlM inlineCurrent s = .ok out ∧ isValid out = true := by
  induction ds generalizing s with
  | nil => exact ⟨s, rfl, hs⟩
  | cons d ds ih =>
    obtain ⟨s', hstep, hvalid⟩ := inlineCurrent_of_isValid hs d
    obtain ⟨out, hout, hvalid'⟩ := ih hvalid
    refine ⟨out, ?_, hvalid'⟩
    rw [List.foldlM_cons, hstep]
    exact hout

/-- **Well-formed declarations are consolidated** in a well-formed text. -/
theorem consolidate_of_isValid (hs : isValid s = true) {ds : List Declaration}
    (h : extract s = .ok ds) : ∃ out, consolidate s = .ok out ∧ isValid out = true := by
  obtain ⟨out, hout, hvalid⟩ := foldlM_inlineCurrent hs ds
  refine ⟨out, ?_, hvalid⟩
  rw [consolidate_eq, extractOrFail, h]
  exact hout

/-- Among the declarations `ds`, taken one after another from the text `s` on, the declaration `now`
is inlined in the text `t`. -/
inductive Inlining : (ds : List Declaration) → (s : Text) → (now : Declaration) → (t : Text) → Prop
  | here {d now : Declaration} {ds : List Declaration} {s : Text}
      (hcurrent : current? d.name s = some now) (hplain : isConstruction now.value = false) :
      Inlining (d :: ds) s now s
  | later {d now : Declaration} {ds : List Declaration} {s s' t : Text}
      (hstep : inlineCurrent s d = .ok s') (rest : Inlining ds s' now t) :
      Inlining (d :: ds) s now t

/-- All texts on the way are well-formed, and so are the names in them. -/
theorem Inlining.isValid {ds : List Declaration} {now : Declaration} {t : Text}
    (h : Inlining ds s now t) (hs : isValid s = true) :
    isValid t = true ∧ isValid now.name = true := by
  induction h with
  | here hcurrent _ => exact ⟨hs, (isValid_current hs hcurrent).1⟩
  | @later d _ _ _ _ _ hstep _ ih =>
    obtain ⟨out, hout, hvalid⟩ := inlineCurrent_of_isValid hs d
    rw [hstep] at hout
    cases hout
    exact ih hvalid

end Inline

/-! ## Lines -/

/-- The places that the search for a setting computes lie on the line. -/
structure PlacesWithin (setters : List Text) (ignored : Text → Bool) (line : Text) : Prop where
  call : ∀ hit, Text.find? .char (setterCall setters) line = some hit → hit.stop ≤ line.length
  paren : ∀ n, lastIndex? Byte.closeParen line = some n → n < line.length
  comma : ∀ n k, lastIndex? Byte.closeParen line = some n →
    lastIndex? Byte.comma (line.take n) = some k → k < n
  value : ∀ x, setting? setters ignored line = some x → x.start ≤ x.stop ∧ x.stop ≤ line.length

theorem lastIndex?_lt {b : UInt8} {s : Text} {n : Nat} (h : lastIndex? b s = some n) :
    n < s.length := by
  obtain ⟨x, y, rfl, _, rfl⟩ := lastIndex?_eq_some h
  simp

theorem placesWithin (setters : List Text) (ignored : Text → Bool) (line : Text) :
    PlacesWithin setters ignored line where
  call _ hit := (endsInCall_of_find? hit).1
  paren _ hn := lastIndex?_lt hn
  comma n k _ hk := by
    have hlt := lastIndex?_lt hk
    rw [List.length_take] at hlt
    omega
  value x hx := by
    obtain ⟨front, key, value, back, rfl, rfl, _⟩ := sets_of_setting? hx
    simp [Setting.behind]

theorem makeable_liftLines (setters : List Text) (ignored : Text → Bool) (names : Registry)
    (s : Text) : Makeable s (liftLines setters ignored 0 (Text.lines s) names).1 := by
  obtain ⟨cs, hlifts, hedits, _⟩ := exists_lifts setters ignored (Text.lines s) 0 names
  have hmake := LineChange.makeable_edits cs
  rwa [map_before hlifts, Text.unlines_lines, ← hedits] at hmake

/-! ## No pass aborts -/

theorem consolidate_ne_aborted {s : Text} (hs : isValid s = true) (cause : Abort) :
    consolidate s ≠ .error (.aborted cause) := by
  intro h
  cases hextract : extract s with
  | error bad =>
    rw [consolidate_eq, extractOrFail, hextract] at h
    cases h
  | ok ds =>
    obtain ⟨out, hout, _⟩ := consolidate_of_isValid hs hextract
    rw [hout] at h
    cases h

theorem describe_ne_aborted (constructors : List Constructor) (names : Registry) (s : Text)
    (cause : Abort) : describe constructors names s ≠ .error (.aborted cause) := by
  intro h
  cases hextract : extract s with
  | error bad =>
    rw [describe, extractOrFail, hextract] at h
    cases h
  | ok ds =>
    rw [describe_eq hextract] at h
    cases h

/-- **No pass aborts on a well-formed text.**  Whatever is declared in it, whatever the resolver
answers and whatever well-formed setters there are, all edits lie inside of the text that they are
made in and keep apart, and the places at which texts and lines are read lie inside of them.  So
every pass returns a text, or complains about a declaration. -/
theorem passes_never_abort {s : Text} (hs : isValid s = true) :
    ((∀ cause, consolidate s ≠ .error (.aborted cause)) ∧
      ∀ ds now t, extract s = .ok ds → Inlining ds s now t → Makeable t (inlineEdits now t) ∧
        ∀ hit ∈ Text.findAll .char (usePattern now.name) t,
          hit.Within t ∧ lineAt t hit.start ∈ Text.lines t) ∧
    ((∀ constructors names cause, describe constructors names s ≠ .error (.aborted cause)) ∧
      ∀ renamed, Makeable s (renameEdits renamed s)) ∧
    (∀ {ρ : Type} [Resolver ρ] (ambiguous : Text → Bool) (r : ρ),
      (∃ out, convertCodes ambiguous r s = .ok out) ∧
      Makeable s (convertEdits ambiguous (Text.findAll .char codeCall s) r).1) ∧
    ∀ setters ignored names, (∀ setter ∈ setters, isValid setter = true) →
      (∃ out, liftParameters setters ignored names s = .ok out) ∧
      Makeable s (liftLines setters ignored 0 (Text.lines s) names).1 ∧
      ∀ line ∈ Text.lines s, PlacesWithin setters ignored line := by
  refine ⟨⟨consolidate_ne_aborted hs, ?_⟩, ⟨?_, ?_⟩, ?_, ?_⟩
  · intro ds now t _ hinlining
    obtain ⟨ht, hname⟩ := hinlining.isValid hs
    refine ⟨makeable_inlineEdits_of_isValid ht hname, fun hit hhit => ?_⟩
    obtain ⟨u, r, rfl, _, hstart, hstop, hle⟩ := use_of_isValid ht hname hit hhit
    refine ⟨⟨by omega, hle⟩, ?_⟩
    rw [hstart, lineAt_append]
    exact lineAt_mem_lines u _
  · intro constructors names cause
    exact describe_ne_aborted constructors names s cause
  · intro renamed
    exact makeable_renameEdits renamed s
  · intro ρ _ ambiguous r
    exact ⟨⟨_, convertCodes_run ambiguous r s⟩, makeable_convertEdits ambiguous r s⟩
  · intro setters ignored names hvalid
    obtain ⟨cs, names', hlift, _⟩ := exists_changes hvalid ignored names s
    exact ⟨⟨_, hlift⟩, makeable_liftLines setters ignored names s,
      fun line _ => placesWithin setters ignored line⟩

/-- A variable whose name is a replacement character, and a text that passes it and what `b` is. -/
def strayVariable : Declaration := ⟨utf8 "\uFFFD", utf8 "1", utf8 "var \uFFFD = 1;"⟩

def strayUse (b : Text) : Text := strayVariable.line ++ utf8 "\nf(\uFFFD, " ++ b ++ utf8 ")"

/-- The variable is inlined in both places where the text passes it; a stray byte is found too,
and there the edit of three bytes does not fit. -/
theorem passes_never_abort_strayUse :
    isValid (strayUse (utf8 "\uFFFD")) = true ∧
    (∀ cause, consolidate (strayUse (utf8 "\uFFFD")) ≠ .error (.aborted cause)) ∧
    Makeable (strayUse (utf8 "\uFFFD")) (inlineEdits strayVariable (strayUse (utf8 "\uFFFD"))) ∧
    (inlineEdits strayVariable (strayUse (utf8 "\uFFFD"))).length = 2 ∧
    consolidate (strayUse [0xFF]) = .error (.aborted (.edit .position)) := by
  have hvalid : isValid (strayUse (utf8 "\uFFFD")) = true := by decide +kernel
  have hextract : extract (strayUse (utf8 "\uFFFD")) = .ok [strayVariable] := by decide +kernel
  have hcurrent : current? strayVariable.name (strayUse (utf8 "\uFFFD")) = some strayVariable := by
    decide +kernel
  obtain ⟨⟨hreturns, hinlines⟩, _⟩ := passes_never_abort hvalid
  refine ⟨hvalid, hreturns, (hinlines _ _ _ hextract (.here hcurrent ?_)).1, ?_, ?_⟩ <;>
    decide +kernel

end Pass

end ActionLog
