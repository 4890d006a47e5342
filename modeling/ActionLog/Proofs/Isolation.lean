import ActionLog.Pipeline
import ActionLog.Proofs.Stage
import ActionLog.Tables.Builtin

/-!
# Entries of a log do not disturb each other

Entries share one registry of names and one resolver.  What an entry leaves behind for the next one
are names of functions and a resolver that has been asked, nothing else.

* `Stage.chain` — stages one after another, without the bookkeeping of a run;
  `Pipeline.runStages_chain` says that a run is the chain of the stages before the failing one;
* `Pipeline.cleanInOrder` — the fold of `cleanEntry` over entries;
* `Pipeline.cleanEntry_failed` — a failing entry leaves a pipeline from which every next entry
  starts as if it had not been there;
* `Pipeline.cleanEntry_alike` — without wrapping, an entry is cleaned as by a fresh pipeline.

Principal result: `Pipeline.process_refines_fold`.
-/

set_option autoImplicit false

namespace ActionLog

open Resolver (Answers)

/-- The stages given, one after another, each on the text that the one before it gave. -/
def Stage.chain {ρ : Type} [Resolver ρ] (o : Options) (t : Tables) (stages : List Stage)
    (w : Work ρ) (s : Text) : Outcome (Text × Work ρ) (Text × Work ρ) :=
  stages.foldlM (fun x stage => stage.run o t x.2 x.1) (s, w)

namespace Pipeline

variable {ρ ρ' : Type} [Resolver ρ] [Resolver ρ']

/-- What the stages of the next entry start from. -/
def workbench (p : Pipeline ρ) : Work ρ := ⟨(p.names.reset .vars).reset .parameters, p.resolver, []⟩

/-- The pipeline with all names of functions forgotten. -/
def forgetFunctions (p : Pipeline ρ) : Pipeline ρ := { p with names := p.names.reset .functions }

/-- A pipeline before its first call, with another resolver: nothing is taken but the reserved
words. -/
def fresh (p : Pipeline ρ) (r : ρ') : Pipeline ρ' :=
  ⟨p.options, p.tables, Registry.ofReserved p.names.reserved, r⟩

/-- Entries cleaned in order, each by the pipeline that the one before it left. -/
def cleanInOrder (p : Pipeline ρ) (es : List Text) :
    List (Except Abort Cleaned) × Pipeline ρ :=
  es.foldl (fun x e => (x.1 ++ [(x.2.cleanEntry e).1], (x.2.cleanEntry e).2)) ([], p)

/-! ## The fold over entries -/

theorem foldl_cleanEntry (es : List Text) (done : List (Except Abort Cleaned)) (p : Pipeline ρ) :
    es.foldl (fun (x : List (Except Abort Cleaned) × Pipeline ρ) e =>
        (x.1 ++ [(x.2.cleanEntry e).1], (x.2.cleanEntry e).2)) (done, p) =
      (done ++ (p.cleanInOrder es).1, (p.cleanInOrder es).2) := by
  induction es generalizing done p with
  | nil => simp [cleanInOrder]
  | cons e es ih =>
    unfold cleanInOrder
    rw [List.foldl_cons, List.foldl_cons, ih, ih]
    simp

theorem cleanInOrder_nil (p : Pipeline ρ) : p.cleanInOrder [] = ([], p) := rfl

theorem cleanInOrder_cons (p : Pipeline ρ) (e : Text) (es : List Text) :
    p.cleanInOrder (e :: es) =
      ((p.cleanEntry e).1 :: ((p.cleanEntry e).2.cleanInOrder es).1,
        ((p.cleanEntry e).2.cleanInOrder es).2) := by
  show List.foldl _ _ es = _
  rw [foldl_cleanEntry]
  rfl

theorem cleanInOrder_append (p : Pipeline ρ) (es es' : List Text) :
    p.cleanInOrder (es ++ es') =
      ((p.cleanInOrder es).1 ++ ((p.cleanInOrder es).2.cleanInOrder es').1,
        ((p.cleanInOrder es).2.cleanInOrder es').2) := by
  unfold cleanInOrder
  rw [List.foldl_append]
  exact foldl_cleanEntry es' _ _

theorem cleanInOrder_settings (p : Pipeline ρ) (es : List Text) :
    (p.cleanInOrder es).2.options = p.options ∧ (p.cleanInOrder es).2.tables = p.tables := by
  induction es generalizing p with
  | nil => exact ⟨rfl, rfl⟩
  | cons e es ih =>
    rw [cleanInOrder_cons]
    exact ih (p.cleanEntry e).2

/-- Where no entry aborts, the loop over entries is the fold. -/
theorem cleanEntries_of_cleanInOrder {p q : Pipeline ρ} {es : List Text} {cs : List Cleaned}
    (h : p.cleanInOrder es = (cs.map .ok, q)) : cleanEntries es p = (.ok cs, q) := by
  induction es generalizing p cs with
  | nil =>
    rw [cleanInOrder_nil] at h
    obtain ⟨hcs, rfl⟩ := Prod.mk.inj h
    cases cs with
    | nil => rfl
    | cons c cs => cases hcs
  | cons e es ih =>
    rw [cleanInOrder_cons] at h
    obtain ⟨hcs, hq⟩ := Prod.mk.inj h
    cases cs with
    | nil => cases hcs
    | cons c cs =>
      obtain ⟨hc, hrest⟩ := List.cons.inj hcs
      have hentry : p.cleanEntry e = (.ok c, (p.cleanEntry e).2) := Prod.ext hc rfl
      have htail := ih (Prod.ext hrest hq)
      unfold cleanEntries
      rw [hentry]
      dsimp only
      rw [htail]
      rfl

theorem process_of_cleanInOrder {p q : Pipeline ρ} {log : Text} {cs : List Cleaned}
    (h : p.forgetFunctions.cleanInOrder (Log.entries log) = (cs.map .ok, q)) :
    ∃ report, p.process log = (.ok report, q) ∧
      report.text = Log.write (Log.isSeparated log) (cs.map (·.text)) := by
  have hentries := cleanEntries_of_cleanInOrder h
  unfold forgetFunctions at hentries
  simp only [process, hentries]
  exact ⟨_, rfl, rfl⟩

/-- The part that one entry has in the fold. -/
theorem cleanInOrder_split {p q : Pipeline ρ} {es₁ es₂ : List Text} {e : Text} {cs : List Cleaned}
    (h : p.cleanInOrder (es₁ ++ e :: es₂) = (cs.map .ok, q)) :
    ∃ cs₁ c cs₂ q₁ q₂, cs = cs₁ ++ c :: cs₂ ∧ p.cleanInOrder es₁ = (cs₁.map .ok, q₁) ∧
      q₁.cleanEntry e = (.ok c, q₂) ∧ q₂.cleanInOrder es₂ = (cs₂.map .ok, q) := by
  rw [cleanInOrder_append, cleanInOrder_cons] at h
  obtain ⟨hcs, hq⟩ := Prod.mk.inj h
  obtain ⟨cs₁, cs', rfl, h₁, h'⟩ := List.map_eq_append_iff.mp hcs.symm
  obtain ⟨c, cs₂, rfl, hc, h₂⟩ := List.map_eq_cons_iff.mp h'
  exact ⟨cs₁, c, cs₂, _, _, rfl, Prod.ext h₁.symm rfl, Prod.ext hc.symm rfl, Prod.ext h₂.symm hq⟩

/-- What holds of every entry and what it becomes, wherever pipelines keep an invariant. -/
theorem cleanInOrder_each {I : Pipeline ρ → Prop} {R : Text → Cleaned → Prop}
    (hkeep : ∀ {p : Pipeline ρ}, I p → ∀ e, I (p.cleanEntry e).2)
    (hentry : ∀ {p q : Pipeline ρ} {e : Text} {c : Cleaned}, I p → p.cleanEntry e = (.ok c, q) → R e c)
    {p q : Pipeline ρ} {es : List Text} {cs : List Cleaned} (hp : I p)
    (h : p.cleanInOrder es = (cs.map .ok, q)) : List.Forall₂ R es cs := by
  induction es generalizing p cs with
  | nil =>
    rw [cleanInOrder_nil] at h
    rw [List.map_eq_nil_iff.mp (Prod.mk.inj h).1.symm]
    exact .nil
  | cons e es ih =>
    rw [cleanInOrder_cons] at h
    obtain ⟨hcs, hq⟩ := Prod.mk.inj h
    obtain ⟨c, cs', rfl, hc, hrest⟩ := List.map_eq_cons_iff.mp hcs.symm
    exact .cons (hentry hp (Prod.ext hc.symm rfl : p.cleanEntry e = (.ok c, _)))
      (ih (hkeep hp e) (Prod.ext hrest.symm hq))

/-! ## Stages of one entry -/

variable {o : Options} {t : Tables}

/-- **A run is the chain of the stages before the failing one**, or of all stages. -/
theorem runStages_chain {stages : List Stage} {w w' : Work ρ} {s : Text} {c : Cleaned}
    (h : runStages o t stages w s = (.ok c, w')) :
    (c.failure = none → Stage.chain o t stages w s = .ok (c.text, w')) ∧
    ∀ stage bad, c.failure = some (stage, bad) →
      ∃ before after, stages = before ++ stage :: after ∧
        Stage.chain o t before w s = .ok (c.text, w') ∧
        stage.run o t w' c.text = .error (.malformed bad (c.text, w')) := by
  induction stages generalizing w s c with
  | nil =>
    cases h
    refine ⟨fun _ => rfl, ?_⟩
    intro stage bad hf
    cases hf
  | cons stage stages ih =>
    unfold runStages at h
    cases hr : stage.run o t w s with
    | error e =>
      rw [hr] at h
      cases e with
      | malformed bad back =>
        -- a failing stage has changed nothing
        obtain ⟨_, _, rfl⟩ := Stage.run_malformed_iff.mp hr
        cases h
        refine ⟨nofun, ?_⟩
        intro stage' bad' hf
        cases hf
        exact ⟨[], stages, rfl, rfl, hr⟩
      | aborted cause => cases h
    | ok x =>
      obtain ⟨out, w₁⟩ := x
      rw [hr] at h
      dsimp only at h
      cases hrest : runStages o t stages w₁ out with
      | mk result w₂ =>
        rw [hrest] at h
        cases result with
        | error cause => cases h
        | ok c₁ =>
          cases h
          have hchain : ∀ l, Stage.chain o t (stage :: l) w s = Stage.chain o t l w₁ out := by
            intro l
            unfold Stage.chain
            rw [List.foldlM_cons, hr]
            rfl
          obtain ⟨hall, hfail⟩ := ih hrest
          refine ⟨fun hf => by rw [hchain]; exact hall hf, ?_⟩
          intro stage' bad hf
          obtain ⟨before, after, hsplit, htext, hrun⟩ := hfail stage' bad hf
          exact ⟨stage :: before, after, by rw [hsplit]; rfl, by rw [hchain]; exact htext, hrun⟩

theorem chain_cons_ok {stage : Stage} {stages : List Stage} {w w' : Work ρ} {s s' : Text}
    (h : Stage.chain o t (stage :: stages) w s = .ok (s', w')) :
    ∃ s₁ w₁, stage.run o t w s = .ok (s₁, w₁) ∧ Stage.chain o t stages w₁ s₁ = .ok (s', w') := by
  unfold Stage.chain at h
  rw [List.foldlM_cons] at h
  cases hr : stage.run o t w s with
  | error e => rw [hr] at h; cases h
  | ok x => rw [hr] at h; exact ⟨x.1, x.2, rfl, h⟩

/-- Early stages together change nothing but the names of variables. -/
theorem chain_early {stages : List Stage} (hearly : ∀ stage ∈ stages, stage.isEarly = true)
    {w w' : Work ρ} {s s' : Text} (h : Stage.chain o t stages w s = .ok (s', w')) :
    w' = { w with names := w.names.setTaken (w'.names.taken .vars) .vars } := by
  induction stages generalizing w s with
  | nil =>
    cases h
    rw [Registry.setTaken_taken]
  | cons stage stages ih =>
    obtain ⟨s₁, w₁, hrun, hrest⟩ := chain_cons_ok h
    have h₁ := Stage.run_early (hearly stage List.mem_cons_self) hrun
    have h₂ := ih (fun x hx => hearly x (List.mem_cons_of_mem _ hx)) hrest
    rw [h₁] at h₂
    simpa using h₂

/-- Before an early stage only early stages are run. -/
theorem early_of_enabled {before after : List Stage} {stage : Stage} (hs : stage.isEarly = true)
    (h : Stage.enabled o = before ++ stage :: after) : ∀ x ∈ before, x.isEarly = true := by
  rw [Stage.enabled_eq] at h
  rcases List.append_eq_append_iff.mp h with ⟨mid, hbefore, hlate⟩ | ⟨mid, hearly, hmid⟩
  · have hmem : stage ∈ (Stage.all.filter fun x => !x.isEarly).filter (Stage.isEnabled o) := by
      rw [hlate]
      simp
    simp [hs] at hmem
  · intro x hx
    have hmem : x ∈ (Stage.all.filter Stage.isEarly).filter (Stage.isEnabled o) := by
      rw [hearly]
      exact List.mem_append_left _ hx
    exact (List.mem_filter.mp (List.mem_filter.mp hmem).1).2

theorem cleanEntry_eq (p : Pipeline ρ) (e : Text) : p.cleanEntry e =
    ((runStages p.options p.tables (Stage.enabled p.options) p.workbench (Pass.normalize e)).1,
      ⟨p.options, p.tables,
        (runStages p.options p.tables (Stage.enabled p.options) p.workbench
          (Pass.normalize e)).2.names,
        (runStages p.options p.tables (Stage.enabled p.options) p.workbench
          (Pass.normalize e)).2.resolver⟩) := rfl

/-! ## Failing entries -/

/-- Cleaning the next entry depends on options, tables and workbench only. -/
theorem cleanEntry_congr {p q : Pipeline ρ} (ho : p.options = q.options) (ht : p.tables = q.tables)
    (hw : p.workbench = q.workbench) (e : Text) : p.cleanEntry e = q.cleanEntry e := by
  rw [cleanEntry_eq, cleanEntry_eq, ho, ht, hw]

/-- **What a failing entry leaves behind**: the text is the one that the stages before the failing
stage gave, no name of a function is taken, and the next entry starts from the same workbench. -/
theorem cleanEntry_failed {p q : Pipeline ρ} {e : Text} {c : Cleaned} {stage : Stage} {bad : BadLine}
    (h : p.cleanEntry e = (.ok c, q)) (hf : c.failure = some (stage, bad)) :
    (∃ before after w, Stage.enabled p.options = before ++ stage :: after ∧
      Stage.chain p.options p.tables before p.workbench (Pass.normalize e) = .ok (c.text, w) ∧
      stage.run p.options p.tables w c.text = .error (.malformed bad (c.text, w))) ∧
    q.names.functions = p.names.functions ∧
    q.options = p.options ∧ q.tables = p.tables ∧ q.workbench = p.workbench := by
  rw [cleanEntry_eq] at h
  obtain ⟨hc, rfl⟩ := Prod.mk.inj h
  have hrun : runStages p.options p.tables (Stage.enabled p.options) p.workbench
      (Pass.normalize e) = (.ok c, (runStages p.options p.tables (Stage.enabled p.options)
        p.workbench (Pass.normalize e)).2) := Prod.ext hc rfl
  generalize (runStages p.options p.tables (Stage.enabled p.options) p.workbench
    (Pass.normalize e)).2 = w at hrun
  obtain ⟨before, after, hsplit, hchain, hfail⟩ := (runStages_chain hrun).2 stage bad hf
  have hearly := Stage.isEarly_of_readsDeclarations (Stage.run_malformed_iff.mp hfail).1
  have hw := chain_early (early_of_enabled hearly hsplit) hchain
  refine ⟨⟨before, after, w, hsplit, hchain, hfail⟩, ?_, rfl, rfl, ?_⟩
  · show w.names.functions = p.names.functions
    rw [hw]
    rfl
  · show (⟨(w.names.reset .vars).reset .parameters, w.resolver, []⟩ : Work ρ) = _
    rw [hw]
    rfl

/-- After a failing entry the others are cleaned as if it had not been there. -/
theorem cleanInOrder_congr {p q : Pipeline ρ} (ho : p.options = q.options) (ht : p.tables = q.tables)
    (hw : p.workbench = q.workbench) (es : List Text) :
    (p.cleanInOrder es).1 = (q.cleanInOrder es).1 := by
  cases es with
  | nil => rfl
  | cons e es => rw [cleanInOrder_cons, cleanInOrder_cons, cleanEntry_congr ho ht hw e]

/-! ## Pipelines that differ in what they have been used for -/

/-- Pipelines with the same options, tables and reserved words, and with resolvers that are free of
side effects and give the same answers. -/
structure Alike (p : Pipeline ρ) (q : Pipeline ρ') : Prop where
  options : p.options = q.options
  tables : p.tables = q.tables
  reserved : p.names.reserved = q.names.reserved
  answers : ∃ answer, Answers p.resolver answer ∧ Answers q.resolver answer

theorem Alike.workbench {p : Pipeline ρ} {q : Pipeline ρ'} (h : p.Alike q) :
    p.workbench.Alike q.workbench := by
  refine ⟨⟨p.names.functions, ?_⟩, h.answers, rfl⟩
  have hr := h.reserved
  show (p.names.reset .vars).reset .parameters = _
  simp [Pipeline.workbench, Registry.reset, Registry.setTaken, hr]

theorem runStages_keeps (stages : List Stage) {w : Work ρ} {answer : Text → Option Text}
    (hw : Answers w.resolver answer) (s : Text) :
    (runStages o t stages w s).2.names.reserved = w.names.reserved ∧
      Answers (runStages o t stages w s).2.resolver answer := by
  induction stages generalizing w s with
  | nil => exact ⟨rfl, hw⟩
  | cons stage stages ih =>
    unfold runStages
    cases hr : stage.run o t w s with
    | error e =>
      cases e with
      | malformed bad back =>
        obtain ⟨_, _, rfl⟩ := Stage.run_malformed_iff.mp hr
        exact ⟨rfl, hw⟩
      | aborted cause => exact ⟨rfl, hw⟩
    | ok x =>
      obtain ⟨s', w'⟩ := x
      obtain ⟨hreserved, hanswers⟩ := Stage.run_keeps hw hr
      obtain ⟨hreserved', hanswers'⟩ := ih hanswers s'
      exact ⟨hreserved'.trans hreserved, hanswers'⟩

/-- Stages other than the last take works that are alike to the same result. -/
theorem runStages_alike {stages : List Stage} (hwrap : Stage.wrap ∉ stages) {v : Work ρ}
    {w : Work ρ'} (h : v.Alike w) (s : Text) :
    (runStages o t stages v s).1 = (runStages o t stages w s).1 := by
  induction stages generalizing v w s with
  | nil => rfl
  | cons stage stages ih =>
    have hstage : stage ≠ .wrap := fun heq => hwrap (by rw [heq]; exact List.mem_cons_self)
    have hsame := Stage.run_alike (o := o) (t := t) hstage h s
    unfold runStages
    generalize stage.run o t v s = x at hsame
    generalize stage.run o t w s = y at hsame
    cases hsame with
    | malformed bad _ => rfl
    | aborted cause => rfl
    | @ok a b hab =>
      obtain ⟨s₁, v₁⟩ := a
      obtain ⟨s₂, w₁⟩ := b
      obtain ⟨rfl, halike⟩ := hab
      dsimp only
      rw [ih (fun hmem => hwrap (List.mem_cons_of_mem _ hmem)) halike s₁]

/-- Cleaning an entry keeps options, tables, reserved words and answers. -/
theorem Alike.cleanEntry {p : Pipeline ρ} {q : Pipeline ρ'} (h : p.Alike q) (e : Text) :
    (p.cleanEntry e).2.Alike q := by
  obtain ⟨answer, hp, hq⟩ := h.answers
  obtain ⟨hreserved, hanswers⟩ := runStages_keeps (o := p.options) (t := p.tables)
    (Stage.enabled p.options) (w := p.workbench) hp (Pass.normalize e)
  exact ⟨h.options, h.tables, hreserved.trans h.reserved, answer, hanswers, hq⟩

theorem cleanEntry_alike {p : Pipeline ρ} {q : Pipeline ρ'} (h : p.Alike q)
    (hwrap : p.options.wrap = false) (e : Text) :
    (p.cleanEntry e).1 = (q.cleanEntry e).1 ∧ (p.cleanEntry e).2.Alike q := by
  have hstages : Stage.wrap ∉ Stage.enabled p.options := by
    simp [Stage.enabled, Stage.isEnabled, hwrap]
  refine ⟨?_, h.cleanEntry e⟩
  rw [cleanEntry_eq, cleanEntry_eq, ← h.options, ← h.tables]
  exact runStages_alike hstages h.workbench _

/-- **Without wrapping every entry is cleaned as by a fresh pipeline.** -/
theorem cleanInOrder_alone {p : Pipeline ρ} {q : Pipeline ρ'} (h : p.Alike q)
    (hwrap : p.options.wrap = false) (es : List Text) :
    (p.cleanInOrder es).1 = es.map fun e => (q.cleanEntry e).1 := by
  induction es generalizing p with
  | nil => rfl
  | cons e es ih =>
    obtain ⟨hentry, hnext⟩ := cleanEntry_alike h hwrap e
    rw [cleanInOrder_cons, List.map_cons, hentry, ih hnext hwrap]

/-! ## Whole logs -/

/-- **A log is cleaned by a fold over its entries, in which failures are isolated.**  Where no pass
aborts, the text of the report is written from what the entries become one after another, once all
names of functions are forgotten.  A failing entry becomes what the stages before the failing one
make of it, takes no name of a function, and can be left out of the log without a change to any
other entry.  Without wrapping, every entry becomes what a fresh pipeline makes of it.  The resolver
may be any that is free of side effects. -/
theorem process_refines_fold (p : Pipeline ρ) (answer : Text → Option Text)
    (hp : Answers p.resolver answer) (log : Text) (cs : List Cleaned) (q : Pipeline ρ)
    (h : p.forgetFunctions.cleanInOrder (Log.entries log) = (cs.map .ok, q)) :
    (∃ report, p.process log = (.ok report, q) ∧
      report.text = Log.write (Log.isSeparated log) (cs.map (·.text))) ∧
    (∀ es₁ e es₂, Log.entries log = es₁ ++ e :: es₂ →
      ∃ cs₁ c cs₂ q₁ q₂, cs = cs₁ ++ c :: cs₂ ∧
        p.forgetFunctions.cleanInOrder es₁ = (cs₁.map .ok, q₁) ∧
        q₁.cleanEntry e = (.ok c, q₂) ∧ q₂.cleanInOrder es₂ = (cs₂.map .ok, q) ∧
        ∀ stage bad, c.failure = some (stage, bad) →
          (∃ before after w, Stage.enabled p.options = before ++ stage :: after ∧
            Stage.chain p.options p.tables before q₁.workbench (Pass.normalize e) =
              .ok (c.text, w) ∧
            stage.run p.options p.tables w c.text = .error (.malformed bad (c.text, w))) ∧
          q₂.names.functions = q₁.names.functions ∧
          (∃ q', p.forgetFunctions.cleanInOrder (es₁ ++ es₂) = ((cs₁ ++ cs₂).map .ok, q')) ∧
          ∀ log', Log.entries log' = es₁ ++ es₂ →
            ∃ report q', p.process log' = (.ok report, q') ∧
              report.text = Log.write (Log.isSeparated log') ((cs₁ ++ cs₂).map (·.text))) ∧
    (p.options.wrap = false → ∀ {ρ' : Type} [Resolver ρ'] (r : ρ'), Answers r answer →
      (Log.entries log).map (fun e => ((p.fresh r).cleanEntry e).1) = cs.map .ok) := by
  refine ⟨process_of_cleanInOrder h, ?_, ?_⟩
  · intro es₁ e es₂ hes
    rw [hes] at h
    obtain ⟨cs₁, c, cs₂, q₁, q₂, hcs, h₁, hentry, h₂⟩ := cleanInOrder_split h
    refine ⟨cs₁, c, cs₂, q₁, q₂, hcs, h₁, hentry, h₂, ?_⟩
    intro stage bad hf
    obtain ⟨hbefore, hfunctions, ho, ht, hw⟩ := cleanEntry_failed hentry hf
    obtain ⟨hoptions, htables⟩ := cleanInOrder_settings p.forgetFunctions es₁
    rw [h₁] at hoptions htables
    have hrest : (q₁.cleanInOrder es₂).1 = cs₂.map .ok := by
      rw [← cleanInOrder_congr ho ht hw es₂, h₂]
    have hboth : p.forgetFunctions.cleanInOrder (es₁ ++ es₂) =
        ((cs₁ ++ cs₂).map .ok, (q₁.cleanInOrder es₂).2) := by
      rw [cleanInOrder_append, h₁, hrest, List.map_append]
    refine ⟨?_, hfunctions, ⟨_, hboth⟩, ?_⟩
    · rw [hoptions, htables] at hbefore
      exact hbefore
    · intro log' hlog'
      obtain ⟨report, hreport⟩ := process_of_cleanInOrder (hlog' ▸ hboth)
      exact ⟨report, _, hreport⟩
  · intro hwrap ρ' _ r hr
    have halike : p.forgetFunctions.Alike (p.fresh r) := ⟨rfl, rfl, rfl, answer, hp, hr⟩
    rw [← cleanInOrder_alone halike hwrap, h]

/-- A log of three entries, the second of which cannot be cleaned. -/
def mixedLog : Text := Log.write true
  [utf8 "var a = 1; executeAction( \"set\", a );", utf8 "var b = 2; var b; f(b);",
   utf8 "executeAction( \"set\", 3 );"]

/-- All passes with the built-in tables. -/
def builtin : Pipeline BookResolver :=
  make Options.all Tables.builtin (.ofBook Tables.builtin.codebook)

/-- What the entries of `mixedLog` become. -/
def mixedCleaned : List Cleaned :=
  (builtin.forgetFunctions.cleanInOrder (Log.entries mixedLog)).1.filterMap (·.toOption)

/-- The numbering of functions passes over the entry that fails. -/
theorem process_refines_fold_mixed :
    Answers builtin.resolver Tables.builtin.codebook.resolve ∧
    builtin.forgetFunctions.cleanInOrder (Log.entries mixedLog) = (mixedCleaned.map .ok,
      (builtin.forgetFunctions.cleanInOrder (Log.entries mixedLog)).2) ∧
    ∃ report q, builtin.process mixedLog = (.ok report, q) ∧ report.text = Log.write true
      [utf8 "set();\nfunction set() \x7b\n\texecuteAction( \"set\", 1 );\n\x7d",
       utf8 "var b = 2;\nvar b;\nf(b);",
       utf8 "set2();\nfunction set2() \x7b\n\texecuteAction( \"set\", 3 );\n\x7d"] := by
  have hok : builtin.forgetFunctions.cleanInOrder (Log.entries mixedLog) = (mixedCleaned.map .ok,
      (builtin.forgetFunctions.cleanInOrder (Log.entries mixedLog)).2) :=
    Prod.ext (by decide +kernel) rfl
  have hanswers : Answers builtin.resolver Tables.builtin.codebook.resolve :=
    builtin.resolver.answers
  refine ⟨hanswers, hok, ?_⟩
  obtain ⟨⟨report, hreport, htext⟩, _⟩ :=
    process_refines_fold builtin _ hanswers mixedLog mixedCleaned _ hok
  refine ⟨report, _, hreport, htext.trans ?_⟩
  decide +kernel

end Pipeline

end ActionLog
