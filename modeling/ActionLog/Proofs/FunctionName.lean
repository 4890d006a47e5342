import ActionLog.Proofs.Wrap

/-!
# Names of functions over a whole log

* `Cleaned.function?`, `functionNames` — the names of the functions that entries became, read from
  their texts;
* `Pipeline.cleanEntry_handsOut`, `Pipeline.cleanInOrder_handsOut` — entries are given names one after
  another, and of what they leave behind the names of functions are these names alone;
* `Pipeline.Named` — how the name of an entry comes from its action.

Principal result: `Pipeline.function_names_unique`.
-/

set_option autoImplicit false

namespace ActionLog

/-- The name of the function that an entry became, unless it failed. -/
def Cleaned.function? (c : Cleaned) : Option Text :=
  if c.failure.isNone then some (Pass.callee c.text) else none

/-- The names of the functions that entries became, in order. -/
def functionNames (cs : List Cleaned) : List Text := cs.filterMap Cleaned.function?

/-- The results that are no aborts. -/
def finished (rs : List (Except Abort Cleaned)) : List Cleaned := rs.filterMap (·.toOption)

theorem finished_map_ok (cs : List Cleaned) : finished (cs.map .ok) = cs := by
  induction cs with
  | nil => rfl
  | cons c cs ih => exact congrArg (c :: ·) ih

theorem finished_append (rs rs' : List (Except Abort Cleaned)) :
    finished (rs ++ rs') = finished rs ++ finished rs' := List.filterMap_append ..

namespace Pipeline

open Registry (handOut)
open Resolver (Answers)

variable {ρ ρ' : Type} [Resolver ρ] [Resolver ρ'] {p q : Pipeline ρ} {es : List Text}

/-! ## Names handed out entry by entry -/

/-- Results of entries whose functions were given names one after another, when `before` were taken,
and the names that are taken afterwards. -/
def HandsOut (before : List Text) (rs : List (Except Abort Cleaned)) (after : List Text) : Prop :=
  ∃ wanted, functionNames (finished rs) = handOut before wanted ∧
    after = (functionNames (finished rs)).reverse ++ before

theorem HandsOut.nil (before : List Text) : HandsOut before [] before := ⟨[], rfl, rfl⟩

theorem HandsOut.append {before mid after : List Text} {rs rs' : List (Except Abort Cleaned)}
    (h : HandsOut before rs mid) (h' : HandsOut mid rs' after) :
    HandsOut before (rs ++ rs') after := by
  obtain ⟨wanted, hnames, rfl⟩ := h
  obtain ⟨wanted', hnames', rfl⟩ := h'
  have happend : functionNames (finished (rs ++ rs')) =
      functionNames (finished rs) ++ functionNames (finished rs') := by
    rw [finished_append, functionNames, List.filterMap_append]
    rfl
  refine ⟨wanted ++ wanted', ?_, ?_⟩
  · rw [happend, Registry.handOut_append, ← hnames, hnames']
  · rw [happend, List.reverse_append, List.append_assoc]

/-- Names handed out one after another are pairwise distinct. -/
theorem HandsOut.nodup {before after : List Text} {rs : List (Except Abort Cleaned)}
    (h : HandsOut before rs after) : (functionNames (finished rs)).Nodup := by
  obtain ⟨wanted, hnames, _⟩ := h
  rw [hnames]
  exact (Registry.handOut_fresh before wanted).1

/-- They are identifiers that were not taken, and those with one core are its free versions without a
gap. -/
theorem HandsOut.names {before after : List Text} {cs : List Cleaned}
    (h : HandsOut before (cs.map .ok) after) :
    (∀ n ∈ functionNames cs, Name.IsIdentifier n ∧ n ∉ before) ∧
    ∀ stem, ∃ m, (functionNames cs).filter (fun n => Name.core n == stem) =
      Registry.unreserved before stem m := by
  obtain ⟨wanted, hnames, _⟩ := h
  rw [finished_map_ok] at hnames
  rw [hnames]
  refine ⟨fun n hn => ?_, Registry.handOut_versions before wanted⟩
  exact ⟨Registry.handOut_isIdentifier _ _ n hn, (Registry.handOut_fresh _ _).2 n hn⟩

/-- **One entry is given one name at most.** -/
theorem cleanEntry_handsOut (hwrap : p.options.wrap = true) (e : Text) :
    HandsOut p.names.functions [(p.cleanEntry e).1] (p.cleanEntry e).2.names.functions := by
  generalize hclean : p.cleanEntry e = x
  obtain ⟨r, q⟩ := x
  cases r with
  | error cause => exact ⟨[], rfl, cleanEntry_no_function hwrap hclean (by simp)⟩
  | ok c =>
    by_cases hc : c.failure = none
    · obtain ⟨body, w, _, htext, hfunctions⟩ := cleanEntry_function hwrap hclean hc
      have hname : functionNames (finished [.ok c]) = [p.nextFunction body] := by
        have hid := Registry.handOut_isIdentifier p.names.functions [Pass.actionName body]
          (p.nextFunction body) List.mem_cons_self
        show [c].filterMap Cleaned.function? = _
        simp [Cleaned.function?, hc, htext, Pass.callee_functionText hid]
      exact ⟨[Pass.actionName body], hname, by rw [hname]; exact hfunctions⟩
    · have hnone : functionNames (finished [.ok c]) = [] := by
        show [c].filterMap Cleaned.function? = _
        simp [Cleaned.function?, hc]
      refine ⟨[], hnone, ?_⟩
      rw [hnone]
      refine cleanEntry_no_function hwrap hclean fun c' h => ?_
      cases h
      exact hc

/-- **Entries in order are given names one after another.** -/
theorem cleanInOrder_handsOut (hwrap : p.options.wrap = true) (es : List Text) :
    HandsOut p.names.functions (p.cleanInOrder es).1 (p.cleanInOrder es).2.names.functions := by
  induction es generalizing p with
  | nil => exact .nil _
  | cons e es ih =>
    rw [cleanInOrder_cons]
    exact (cleanEntry_handsOut hwrap e).append (ih (p := (p.cleanEntry e).2) hwrap)

/-! ## Logs -/

/-- Where the loop over entries ends without an abort, it is the fold. -/
theorem cleanInOrder_of_cleanEntries {cs : List Cleaned} (h : cleanEntries es p = (.ok cs, q)) :
    p.cleanInOrder es = (cs.map .ok, q) := by
  induction es generalizing p cs with
  | nil =>
    cases h
    rfl
  | cons e es ih =>
    rw [cleanInOrder_cons]
    unfold cleanEntries at h
    generalize p.cleanEntry e = x at h
    obtain ⟨r, p'⟩ := x
    cases r with
    | error cause => cases h
    | ok c =>
      dsimp only at h ⊢
      generalize hrest : cleanEntries es p' = y at h
      obtain ⟨rest, p''⟩ := y
      cases rest with
      | error cause => cases h
      | ok cs' =>
        cases h
        rw [ih hrest]
        rfl

theorem process_eq_ok {log : Text} {report : Report} (h : p.process log = (.ok report, q)) :
    ∃ cs : List Cleaned, p.forgetFunctions.cleanInOrder (Log.entries log) = (cs.map .ok, q) ∧
      report.text = Log.write (Log.isSeparated log) (cs.map (·.text)) := by
  cases hentries : cleanEntries (Log.entries log) p.forgetFunctions with
  | mk result p' =>
    unfold forgetFunctions at hentries
    simp only [process, hentries] at h
    cases result with
    | error cause => cases h
    | ok cs =>
      cases h
      exact ⟨cs, cleanInOrder_of_cleanEntries hentries, rfl⟩

/-- How an entry without a fault comes to its name: it is a function made of what the stages up to
wrapping give, and the name has the core of the action performed there. -/
def Named (p : Pipeline ρ) (e : Text) (c : Cleaned) : Prop :=
  c.failure = none → ∃ body params, p.unwrapped e = .ok (body, params) ∧
    c.text = Pass.functionText (Pass.callee c.text) params body ∧
    Name.core (Pass.callee c.text) = Name.core (Pass.actionName body)

theorem cleanEntry_named {e : Text} {c : Cleaned} (hwrap : p.options.wrap = true)
    (h : p.cleanEntry e = (.ok c, q)) : p.Named e c := by
  intro hc
  obtain ⟨body, w, hchain, htext, _⟩ := cleanEntry_function hwrap h hc
  obtain ⟨k, _, hversion, _⟩ :=
    Registry.freeVersion_spec p.names.functions (Name.core (Pass.actionName body))
  have hname : p.nextFunction body = Name.version (Name.core (Pass.actionName body)) k := hversion
  have hid : Name.IsIdentifier (p.nextFunction body) := by
    rw [hname]
    exact Name.version_isIdentifier (Name.core_isIdentifier _) k
  refine ⟨body, w.parameters, by rw [unwrapped, hchain]; rfl, ?_, ?_⟩
  · rw [htext, Pass.callee_functionText hid]
  · rw [htext, Pass.callee_functionText hid, hname, Name.core_version]

theorem cleanInOrder_named {p₀ : Pipeline ρ'} (halike : p.Alike p₀)
    (hwrap : p.options.wrap = true) {cs : List Cleaned} (h : p.cleanInOrder es = (cs.map .ok, q)) :
    List.Forall₂ p₀.Named es cs := by
  refine cleanInOrder_each (I := fun p => p.Alike p₀ ∧ p.options.wrap = true)
    (fun hp e => ⟨hp.1.cleanEntry e, hp.2⟩) ?_ ⟨halike, hwrap⟩ h
  rintro p' q' e c ⟨hp, hpwrap⟩ hclean
  have hnamed := cleanEntry_named hpwrap hclean
  unfold Named at hnamed ⊢
  rw [← hp.unwrapped]
  exact hnamed

/-- **Functions have names of their own over a whole log.**  However a pipeline was used before, a
log that it reports on is cleaned entry by entry, and the functions that its entries become have
pairwise distinct names, which are identifiers and not reserved.  A name has the core of the action
that its entry performs, and the names with one core are, in the order of the entries, its unreserved
versions without a gap.  Entries that are cleaned one by one after the log get other names still. -/
theorem function_names_unique (o : Options) (t : Tables) (r : ρ) (answer : Text → Option Text)
    (hr : Answers r answer) (hwrap : o.wrap = true) (calls : List Call) (log : Text)
    (later : List Text) :
    (∀ report q, ((make o t r).after calls).process log = (.ok report, q) →
      ∃ cs : List Cleaned,
        ((make o t r).after calls).forgetFunctions.cleanInOrder (Log.entries log) =
          (cs.map .ok, q) ∧
        report.text = Log.write (Log.isSeparated log) (cs.map (·.text)) ∧
        List.Forall₂ (make o t r).Named (Log.entries log) cs ∧
        (∀ n ∈ functionNames cs, Name.IsIdentifier n ∧ n ∉ t.reserved) ∧
        (∀ stem, ∃ m, (functionNames cs).filter (fun n => Name.core n == stem) =
          Registry.unreserved t.reserved stem m) ∧
        (functionNames (cs ++ finished (q.cleanInOrder later).1)).Nodup) ∧
    ∀ cause q, ((make o t r).after calls).process log = (.error cause, q) →
      (functionNames (finished (q.cleanInOrder later).1)).Nodup := by
  have halike : (make o t r).Alike (make o t r) :=
    ⟨rfl, rfl, rfl, answer, hr, hr⟩
  have hp := halike.after calls
  generalize (make o t r).after calls = p at hp
  have hpwrap : p.forgetFunctions.options.wrap = true := by
    show p.options.wrap = true
    rw [hp.options]
    exact hwrap
  have hreserved : p.forgetFunctions.names.functions = t.reserved := hp.reserved
  refine ⟨fun report q h => ?_, fun cause q h => ?_⟩
  · obtain ⟨cs, hfold, htext⟩ := process_eq_ok h
    have hqwrap : q.options.wrap = true := by
      have hsettings := (cleanInOrder_settings p.forgetFunctions (Log.entries log)).1
      rw [hfold] at hsettings
      rw [hsettings]
      exact hpwrap
    have hlog := cleanInOrder_handsOut hpwrap (Log.entries log)
    rw [hfold, hreserved] at hlog
    have hnodup := (hlog.append (cleanInOrder_handsOut hqwrap later)).nodup
    rw [finished_append, finished_map_ok] at hnodup
    obtain ⟨hfree, hversions⟩ := hlog.names
    exact ⟨cs, hfold, htext, cleanInOrder_named hp.forgetFunctions hpwrap hfold, hfree, hversions,
      hnodup⟩
  · have hqwrap : q.options.wrap = true := by
      have hq := hp.forgetFunctions.cleanEntries (Log.entries log)
      rw [← process_eq, h] at hq
      rw [hq.options]
      exact hwrap
    exact (cleanInOrder_handsOut hqwrap later).nodup

/-- A log whose actions are named `desc2`, `desc` and `delete`, with a failing entry between them. -/
def numberedLog : Text := Log.write true
  [utf8 "executeAction( \"desc2\", a );", utf8 "var b; executeAction( \"desc\", b );",
   utf8 "executeAction( \"desc\", c );", utf8 "executeAction( \"delete\", d );"]

/-- What the entries of `numberedLog` become. -/
def numberedTexts : List Text :=
  [utf8 "desc();\nfunction desc() \x7b\n\texecuteAction( \"desc2\", a );\n\x7d",
   utf8 "var b;\nexecuteAction( \"desc\", b );",
   utf8 "desc2();\nfunction desc2() \x7b\n\texecuteAction( \"desc\", c );\n\x7d",
   utf8 "delete2();\nfunction delete2() \x7b\n\texecuteAction( \"delete\", d );\n\x7d"]

/-- Digits at the end of an action do not count, and a reserved word starts at its second version. -/
theorem function_names_unique_numbered :
    Answers (BookResolver.ofBook Tables.builtin.codebook) Tables.builtin.codebook.resolve ∧
    Options.all.wrap = true ∧
    ∃ (report : Report) (q : Pipeline BookResolver) (cs : List Cleaned),
      builtin.process numberedLog = (.ok report, q) ∧
      report.text = Log.write true numberedTexts ∧
      builtin.forgetFunctions.cleanInOrder (Log.entries numberedLog) = (cs.map .ok, q) ∧
      List.Forall₂ builtin.Named (Log.entries numberedLog) cs ∧
      functionNames cs = [utf8 "desc", utf8 "desc2", utf8 "delete2"] ∧
      (functionNames (cs ++
        finished (q.cleanInOrder [utf8 "executeAction( \"desc\", e );"]).1)).Nodup := by
  have hr := (BookResolver.ofBook Tables.builtin.codebook).answers
  have hrun : (builtin.process numberedLog).1.toOption.map (·.text) =
      some (Log.write true numberedTexts) := by decide +kernel
  have hnames : functionNames
      (finished (builtin.forgetFunctions.cleanInOrder (Log.entries numberedLog)).1) =
      [utf8 "desc", utf8 "desc2", utf8 "delete2"] := by decide +kernel
  refine ⟨hr, rfl, ?_⟩
  cases h : builtin.process numberedLog with
  | mk result q =>
    rw [h] at hrun
    cases result with
    | error cause => cases hrun
    | ok report =>
      obtain ⟨cs, hfold, _, hnamed, _, _, hnodup⟩ := (function_names_unique Options.all
        Tables.builtin _ _ hr rfl [] numberedLog [utf8 "executeAction( \"desc\", e );"]).1 report q h
      have hfold' : builtin.forgetFunctions.cleanInOrder (Log.entries numberedLog) =
          (cs.map .ok, q) := hfold
      rw [hfold', finished_map_ok] at hnames
      exact ⟨report, q, cs, rfl, Option.some.inj hrun, hfold', hnamed, hnames, hnodup⟩

end Pipeline

end ActionLog
