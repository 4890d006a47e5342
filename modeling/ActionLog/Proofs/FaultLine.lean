import ActionLog.Proofs.Accounting
import ActionLog.Proofs.Conflict
import ActionLog.Proofs.FunctionName
import ActionLog.Proofs.Hoist

/-!
# The lines that faults name

A fault names a line and reports its text.  The line is counted in the text that the failing stage
was given, which is not always the entry as it was normalized.

* `Options.locatesFaults` — the options under which no stage that moves or drops lines can come before
  one that fails;
* `Stage.before_reading` — what is run before a stage that looks for declarations, under such options;
* `Pipeline.chain_wellFormed` — resolving conflicts and hoisting leave no malformed declaration, so no
  stage behind them fails;
* `Fault.OnLine` — a fault names the line of the normalized entry that it reports;
* `Pipeline.onLine_of_locatesFaults`, `Pipeline.exists_moved`, `Pipeline.exists_inlined` — the two
  directions of the principal result.

Principal results: `Pipeline.faults_located_iff` and `Pipeline.fault_misplaced`.
-/

set_option autoImplicit false

namespace ActionLog

open Declaration (isDeclaration FirstMalformed WellFormed)

/-! ## Stages that look for declarations -/

/-- Whether faults are counted in the normalized entry: no variable is inlined before variables are
named by objects, and declarations are hoisted before such stages only if conflicts were resolved. -/
def Options.locatesFaults (o : Options) : Bool :=
  !(o.consolidate && o.descriptiveNames) &&
    (o.resolveConflicts || !o.hoist || !(o.consolidate || o.descriptiveNames))

namespace Stage

variable {ρ : Type} [Resolver ρ] {o : Options} {t : Tables} {w : Work ρ} {s : Text} {stage : Stage}

/-- Stages are run in the order in which they are listed. -/
theorem enabled_increasing (o : Options) :
    (enabled o).Pairwise fun x y => x.ctorIdx < y.ctorIdx :=
  List.Pairwise.filter _ (by decide : all.Pairwise fun x y => x.ctorIdx < y.ctorIdx)

/-- A stage that looks for declarations has few stages before it. -/
theorem earlier_of_readsDeclarations : ∀ {stage x : Stage}, stage.readsDeclarations = true →
    x.ctorIdx < stage.ctorIdx →
      x = resolveConflicts ∨ x = hoist ∨ x = consolidate ∧ stage = descriptiveNames := by
  intro stage x
  cases stage <;> cases x <;> decide

/-- **What comes before a stage that looks for declarations**, if faults are located: nothing, or
conflict resolution and at most hoisting besides. -/
theorem before_reading {before after : List Stage} (ho : o.locatesFaults = true)
    (hs : stage.readsDeclarations = true) (h : enabled o = before ++ stage :: after) :
    before = [] ∨
      resolveConflicts ∈ before ∧ ∀ x ∈ before, x = resolveConflicts ∨ x = hoist := by
  have horder := enabled_increasing o
  rw [h] at horder
  obtain ⟨_, hbehind, hcross⟩ := List.pairwise_append.mp horder
  have hlt : ∀ x ∈ before, x.ctorIdx < stage.ctorIdx :=
    fun x hx => hcross x hx stage List.mem_cons_self
  have hmem : ∀ x, x ∈ before ++ stage :: after ↔ isEnabled o x = true := by
    intro x
    rw [← h, enabled, List.mem_filter]
    refine and_iff_right ?_
    cases x <;> decide
  have hon : isEnabled o stage = true := (hmem stage).mp (by simp)
  have hkinds : ∀ x ∈ before, x = resolveConflicts ∨ x = hoist := by
    intro x hx
    rcases earlier_of_readsDeclarations hs (hlt x hx) with h | h | ⟨rfl, rfl⟩
    · exact .inl h
    · exact .inr h
    · have hc : o.consolidate = true := (hmem consolidate).mp (List.mem_append_left _ hx)
      have hd : o.descriptiveNames = true := hon
      simp [Options.locatesFaults, hc, hd] at ho
  by_cases hresolve : resolveConflicts ∈ before
  · exact .inr ⟨hresolve, hkinds⟩
  · refine .inl (List.eq_nil_iff_forall_not_mem.mpr fun x hx => ?_)
    obtain rfl : x = hoist := (hkinds x hx).resolve_left fun heq => hresolve (heq ▸ hx)
    have hhoist : isEnabled o hoist = true := (hmem hoist).mp (List.mem_append_left _ hx)
    have hrank := hlt hoist hx
    -- conflict resolution would be the first stage of all
    have hoff : isEnabled o resolveConflicts = false := by
      by_contra hne
      rcases List.mem_append.mp ((hmem _).mpr (by simpa using hne)) with hfirst | hrest
      · exact hresolve hfirst
      · rcases List.mem_cons.mp hrest with rfl | hafter
        · exact absurd hrank (by decide)
        · exact absurd (List.rel_of_pairwise_cons hbehind hafter) (Nat.not_lt_zero _)
    have hunresolved : o.resolveConflicts = false := hoff
    have hhoisted : o.hoist = true := hhoist
    cases stage with
    | hoist | convertCodes | shorten | liftParameters | wrap => cases hs
    | resolveConflicts =>
      rw [hoff] at hon
      cases hon
    | consolidate =>
      have hc : o.consolidate = true := hon
      simp [Options.locatesFaults, hunresolved, hhoisted, hc] at ho
    | descriptiveNames =>
      have hd : o.descriptiveNames = true := hon
      simp [Options.locatesFaults, hunresolved, hhoisted, hd] at ho

theorem wellFormed_of_resolve {w' : Work ρ} {s' : Text}
    (h : resolveConflicts.run o t w s = .ok (s', w')) : WellFormed (Text.lines s') := by
  cases hx : Declaration.extract s with
  | error bad =>
    rw [run_malformed_iff.mpr ⟨rfl, hx, rfl⟩] at h
    cases h
  | ok ds =>
    obtain ⟨out, names, hout, hwf, _⟩ := Pass.resolveConflicts_passage hx o.lookahead w.names
    simp only [run, hout] at h
    cases h
    exact hwf

end Stage

namespace Pipeline

variable {ρ : Type} [Resolver ρ] {o : Options} {t : Tables}

/-- **Resolved conflicts leave no malformed declaration**, and hoisting makes none. -/
theorem chain_wellFormed {stages : List Stage}
    (hstages : ∀ x ∈ stages, x = .resolveConflicts ∨ x = .hoist) {w w' : Work ρ} {s s' : Text}
    (h : Stage.chain o t stages w s = .ok (s', w'))
    (hs : WellFormed (Text.lines s) ∨ .resolveConflicts ∈ stages) : WellFormed (Text.lines s') := by
  induction stages generalizing w s with
  | nil =>
    cases h
    exact hs.resolve_right List.not_mem_nil
  | cons stage stages ih =>
    obtain ⟨s₁, w₁, hrun, hrest⟩ := chain_cons_ok h
    apply ih (fun x hx => hstages x (List.mem_cons_of_mem _ hx)) hrest
    rcases hstages stage List.mem_cons_self with rfl | rfl
    · exact .inl (Stage.wellFormed_of_resolve hrun)
    · rcases hs with hs | hmem
      · cases hrun
        exact .inl (Pass.wellFormed_hoist hs)
      · exact .inr ((List.mem_cons.mp hmem).resolve_left nofun)

/-- An entry that fails under such options does so by a line of its own. -/
theorem cleanEntry_located {p q : Pipeline ρ} (ho : p.options.locatesFaults = true) {e : Text}
    {c : Cleaned} (h : p.cleanEntry e = (.ok c, q)) {stage : Stage} {bad : BadLine}
    (hf : c.failure = some (stage, bad)) : FirstMalformed (Pass.normalize e) bad := by
  obtain ⟨⟨before, after, w, hsplit, hchain, hrun⟩, _⟩ := cleanEntry_failed h hf
  obtain ⟨hreads, hextract, _⟩ := Stage.run_malformed_iff.mp hrun
  rcases Stage.before_reading ho hreads hsplit with rfl | ⟨hresolve, hkinds⟩
  · have htext : Pass.normalize e = c.text := (Prod.mk.inj (Except.ok.inj hchain)).1
    rw [htext]
    exact Declaration.extract_eq_error hextract
  · have hok := Declaration.extract_eq_ok.mpr
      ⟨chain_wellFormed hkinds hchain (.inr hresolve), rfl⟩
    rw [hextract] at hok
    cases hok

/-- The stages up to one that fails are all that is run of an entry. -/
theorem runStages_of_chain {before : List Stage} (after : List Stage) {stage : Stage}
    {w w' : Work ρ} {s s' : Text} {bad : BadLine} (hchain : Stage.chain o t before w s = .ok (s', w'))
    (hrun : stage.run o t w' s' = .error (.malformed bad (s', w'))) :
    ∃ c, runStages o t (before ++ stage :: after) w s = (.ok c, w') ∧
      c.failure = some (stage, bad) := by
  induction before generalizing w s with
  | nil =>
    cases hchain
    refine ⟨⟨s', some (stage, bad), []⟩, ?_, rfl⟩
    rw [List.nil_append, runStages, hrun]
  | cons first before ih =>
    obtain ⟨s₁, w₁, hfirst, hrest⟩ := chain_cons_ok hchain
    obtain ⟨c, hc, hfail⟩ := ih hrest
    refine ⟨{ c with events := .done first (s₁ != s) :: c.events }, ?_, hfail⟩
    rw [List.cons_append, runStages, hfirst]
    dsimp only
    rw [hc]
    rfl

end Pipeline

/-! ## Lines of the normalized entry -/

/-- The fault names a line of an entry as it was normalized, and reports the declaration there. -/
def Fault.OnLine (log : Text) (f : Fault) : Prop :=
  ∃ (i j : Nat) (e l : Text), f.position = ⟨i + 1, j + 1⟩ ∧ (Log.entries log)[i]? = some e ∧
    (Text.lines (Pass.normalize e))[j]? = some l ∧ isDeclaration l = true ∧
    f.message = BadLine.complaint ++ utf8 ": " ++ l

namespace Pipeline

variable {ρ : Type} [Resolver ρ] {p q : Pipeline ρ} {log : Text}

/-- Every fault names the line that it reports, under such options. -/
theorem onLine_of_locatesFaults (ho : p.options.locatesFaults = true) {report : Report}
    (h : p.process log = (.ok report, q)) {f : Fault} (hf : f ∈ report.faults.faults) :
    f.OnLine log := by
  obtain ⟨cs, hcs, _⟩ := process_eq_ok h
  rw [process_report hcs] at h
  cases h
  have hentries := cleanInOrder_each (I := fun p => p.options.locatesFaults = true)
    (R := fun e c => ∀ stage bad, c.failure = some (stage, bad) →
      FirstMalformed (Pass.normalize e) bad)
    (fun hp _ => hp) (fun hp hclean _ _ hfail => cleanEntry_located hp hclean hfail)
    (show p.forgetFunctions.options.locatesFaults = true from ho) hcs
  obtain ⟨i, c, stage, bad, hc, hfail, rfl⟩ := mem_faultsOf.mp hf
  obtain ⟨hi, rfl⟩ := List.getElem?_eq_some_iff.mp hc
  have hi' : i < (Log.entries log).length := hentries.length_eq ▸ hi
  have hfirst := hentries.get hi' hi stage bad hfail
  obtain ⟨j, hnumber, hline⟩ := hfirst.numbered
  refine ⟨i, j, (Log.entries log)[i], bad.text, ?_, List.getElem?_eq_getElem hi', hline,
    hfirst.isDeclaration, rfl⟩
  show (⟨((1 + i : Nat) : Int), bad.number⟩ : Position) = _
  rw [Position.mk.injEq]
  exact ⟨by omega, by omega⟩

/-- A log of one entry has the fault of that entry. -/
theorem process_one {e s : Text} {before after : List Stage} {stage : Stage} {bad : BadLine}
    {w : Work ρ} (hlog : Log.entries log = [e])
    (hstages : Stage.enabled p.options = before ++ stage :: after)
    (hchain : Stage.chain p.options p.tables before p.forgetFunctions.workbench
      (Pass.normalize e) = .ok (s, w))
    (hs : stage.readsDeclarations = true) (hbad : Declaration.extract s = .error bad) :
    ∃ report q, p.process log = (.ok report, q) ∧
      Fault.ofFailure 1 stage bad ∈ report.faults.faults := by
  obtain ⟨c, hc, hfail⟩ := runStages_of_chain after hchain
    (Stage.run_malformed_iff.mpr ⟨hs, hbad, rfl⟩)
  have hentry : p.forgetFunctions.cleanEntry e =
      (.ok c, (p.forgetFunctions.cleanEntry e).2) := by
    refine Prod.ext ?_ rfl
    show (runStages p.options p.tables (Stage.enabled p.options) p.forgetFunctions.workbench
      (Pass.normalize e)).1 = .ok c
    rw [hstages, hc]
  have hall : p.forgetFunctions.cleanInOrder (Log.entries log) =
      ([c].map .ok, (p.forgetFunctions.cleanEntry e).2) := by
    rw [hlog, cleanInOrder_cons, hentry]
    rfl
  exact ⟨_, _, process_report hall, mem_faultsOf.mpr ⟨0, c, stage, bad, rfl, hfail, rfl⟩⟩

/-- A fault whose line in the entry has another text is not where it says. -/
theorem not_onLine {e : Text} {stage : Stage} {bad : BadLine} {j : Nat}
    (hlog : Log.entries log = [e]) (hnumber : bad.number = j + 1)
    (hline : (Text.lines (Pass.normalize e))[j]? ≠ some bad.text) :
    ¬ (Fault.ofFailure 1 stage bad).OnLine log := by
  rintro ⟨i, j', e', l, hposition, he, hl, _, hmessage⟩
  have hblock : ((1 : Nat) : Int) = i + 1 := congrArg Position.block hposition
  have hlinenumber : (bad.number : Int) = j' + 1 := congrArg Position.line hposition
  obtain rfl : i = 0 := by omega
  obtain rfl : j' = j := by omega
  rw [hlog] at he
  cases he
  rw [List.append_cancel_left hmessage, hl] at hline
  exact hline rfl

/-! ## Options that misplace faults -/

/-- A malformed declaration that hoisting moves to the top. -/
def movedLog : Text := utf8 "f();\nvar x;"

/-- A value that becomes a malformed declaration where it is inlined. -/
def nestedLog : Text := utf8 "var n = var x;\nn, ;"

theorem consolidate_nested :
    Pass.consolidate nestedLog = .ok (utf8 "var x, ;") ∧
      Pass.consolidate (Pass.hoist nestedLog) = .ok (utf8 "var x, ;") := by
  constructor <;> decide +kernel

/-- The stages before naming by objects turn `nestedLog` into a malformed declaration. -/
theorem chain_nested (o : Options) (t : Tables) (w : Work ρ) (hc : o.consolidate = true) :
    Stage.chain o t ([.resolveConflicts, .hoist, .consolidate].filter (Stage.isEnabled o)) w
      nestedLog = .ok (utf8 "var x, ;", w) := by
  have hextract : Declaration.extract nestedLog =
      .ok [⟨utf8 "n", utf8 "var x", utf8 "var n = var x;"⟩] := by
    decide +kernel
  have hresolve : Stage.resolveConflicts.run o t w nestedLog = .ok (nestedLog, w) := by
    have hsame := Pass.resolveConflicts_of_consistent hextract (by simp) o.lookahead w.names
    simp only [Stage.run, hsame]
    rfl
  have hinline : ∀ s, Pass.consolidate s = .ok (utf8 "var x, ;") →
      Stage.consolidate.run o t w s = .ok (utf8 "var x, ;", w) := by
    intro s hs
    simp only [Stage.run, hs]
    rfl
  have hhoist : Stage.hoist.run o t w nestedLog = .ok (Pass.hoist nestedLog, w) := rfl
  obtain ⟨hplain, hhoisted⟩ := consolidate_nested
  unfold Stage.chain
  cases hr : o.resolveConflicts <;> cases hh : o.hoist <;>
    simp only [List.filter_cons, List.filter_nil, Stage.isEnabled, hr, hh, hc, if_true,
      Bool.false_eq_true, if_false, List.foldlM_cons, List.foldlM_nil, hresolve, hhoist,
      hinline _ hplain, hinline _ hhoisted, bind, Except.bind, pure, Except.pure]

/-- **Where variables are inlined and then named by objects**, a fault can report a line that no entry
has. -/
theorem exists_inlined (hc : p.options.consolidate = true) (hd : p.options.descriptiveNames = true) :
    ∃ log report q, p.process log = (.ok report, q) ∧
      ∃ f ∈ report.faults.faults, 0 < f.position.line ∧ ¬ f.OnLine log := by
  have hlog : Log.entries nestedLog = [nestedLog] := by decide +kernel
  have hnormal : Pass.normalize nestedLog = nestedLog := by decide +kernel
  have hbad : Declaration.extract (utf8 "var x, ;") = .error ⟨1, utf8 "var x, ;"⟩ := by
    decide +kernel
  have hstages : Stage.enabled p.options =
      [.resolveConflicts, .hoist, .consolidate].filter (Stage.isEnabled p.options) ++
        Stage.descriptiveNames ::
          [.convertCodes, .shorten, .liftParameters, .wrap].filter (Stage.isEnabled p.options) := by
    have hon : Stage.isEnabled p.options .descriptiveNames = true := hd
    rw [← List.filter_cons_of_pos hon, ← List.filter_append]
    rfl
  obtain ⟨report, q, hreport, hmem⟩ := process_one hlog hstages
    (by rw [hnormal]; exact chain_nested p.options p.tables _ hc) rfl hbad
  exact ⟨nestedLog, report, q, hreport, _, hmem, Int.one_pos,
    not_onLine hlog rfl (by decide +kernel)⟩

/-- **Where declarations are hoisted before any stage has looked at them**, a fault can name the line
that the declaration was moved to. -/
theorem exists_moved (hr : p.options.resolveConflicts = false) (hh : p.options.hoist = true)
    (hcd : p.options.consolidate = true ∨ p.options.descriptiveNames = true) :
    ∃ log report q, p.process log = (.ok report, q) ∧
      ∃ f ∈ report.faults.faults, 0 < f.position.line ∧ ¬ f.OnLine log := by
  have hlog : Log.entries movedLog = [movedLog] := by decide +kernel
  have hnormal : Pass.normalize movedLog = movedLog := by decide +kernel
  have hbad : Declaration.extract (Pass.hoist movedLog) = .error ⟨1, utf8 "var x;"⟩ := by
    decide +kernel
  have hstages : ∃ stage after, stage.readsDeclarations = true ∧
      Stage.enabled p.options = [Stage.hoist] ++ stage :: after := by
    have hall : Stage.enabled p.options = Stage.hoist :: [.consolidate, .descriptiveNames,
        .convertCodes, .shorten, .liftParameters, .wrap].filter (Stage.isEnabled p.options) := by
      simp only [Stage.enabled, Stage.all, List.filter_cons, Stage.isEnabled, hr, hh, if_true,
        Bool.false_eq_true, if_false]
    by_cases hc : Stage.isEnabled p.options .consolidate = true
    · rw [List.filter_cons_of_pos hc] at hall
      exact ⟨_, _, rfl, hall⟩
    · have hd : Stage.isEnabled p.options .descriptiveNames = true := hcd.resolve_left hc
      rw [List.filter_cons_of_neg hc, List.filter_cons_of_pos hd] at hall
      exact ⟨_, _, rfl, hall⟩
  obtain ⟨stage, after, hreads, hstages⟩ := hstages
  obtain ⟨report, q, hreport, hmem⟩ := process_one (w := p.forgetFunctions.workbench) hlog hstages
    (by rw [hnormal]; rfl) hreads hbad
  exact ⟨movedLog, report, q, hreport, _, hmem, Int.one_pos,
    not_onLine hlog rfl (by decide +kernel)⟩

/-- **Faults name lines of the normalized entries under some options only.**  Whatever the tables, the
names taken and the codes remembered are, every fault of every log that names a line names that line
of the normalized entry which it reports, exactly if variables are not both inlined and named by
objects, and declarations are hoisted before they are looked at only if conflicts are resolved. -/
theorem faults_located_iff (p : Pipeline ρ) :
    (∀ (log : Text) (report : Report) (q : Pipeline ρ), p.process log = (.ok report, q) →
      ∀ f ∈ report.faults.faults, 0 < f.position.line → f.OnLine log) ↔
    p.options.locatesFaults = true := by
  constructor
  · intro h
    by_contra hnot
    have hmisplaced : ∃ log report q, p.process log = (.ok report, q) ∧
        ∃ f ∈ report.faults.faults, 0 < f.position.line ∧ ¬ f.OnLine log := by
      by_cases hcd : p.options.consolidate = true ∧ p.options.descriptiveNames = true
      · exact exists_inlined hcd.1 hcd.2
      · simp only [Options.locatesFaults, Bool.and_eq_true, Bool.or_eq_true, Bool.not_eq_true',
          Bool.and_eq_false_iff, Bool.or_eq_false_iff] at hnot
        exact exists_moved (by grind) (by grind) (by grind)
    obtain ⟨log, report, q, hreport, f, hf, hpos, hoff⟩ := hmisplaced
    exact hoff (h log report q hreport f hf hpos)
  · intro ho log report q hreport f hf _
    exact onLine_of_locatesFaults ho hreport hf

/-- **With all passes a fault can name a line that reads otherwise.** -/
theorem fault_misplaced : ∃ (log : Text) (report : Report) (q : Pipeline BookResolver),
    builtin.process log = (.ok report, q) ∧
      ∃ f ∈ report.faults.faults, 0 < f.position.line ∧ ¬ f.OnLine log :=
  exists_inlined rfl rfl

end Pipeline

end ActionLog
