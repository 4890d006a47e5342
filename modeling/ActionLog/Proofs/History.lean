import ActionLog.Proofs.Isolation

/-!
# A log is cleaned alike whatever was cleaned before

A pipeline is used for one log after another.  Between two uses it keeps the names of all three
scopes, and its resolver, which may remember answers.

* `Resolver.IsNew` — resolvers for a codebook as they are made, with a cache or without;
* `Call`, `Pipeline.after` — uses of a pipeline, and the pipeline after a history of them;
* `Pipeline.Alike.after` — every history keeps options, tables, reserved words and answers, also where
  calls fail or abort;
* `Work.Twin`, `Stage.run_twin` — with the same names, stages cannot tell resolvers apart that give
  the same answers;
* `Pipeline.Twin` — pipelines that are alike and have taken the same names of functions; they clean
  every entry alike (`Pipeline.Twin.cleanEntry`).

A log starts by forgetting the names of functions, which makes alike pipelines twins.  Principal
result: `Pipeline.process_history_independent`.
-/

set_option autoImplicit false

namespace ActionLog

open Resolver (Answers)

/-! ## Resolvers as they are made -/

/-- A resolver for a codebook before its first answer: a plain one, or one behind a cache with room
for some positive number of answers that forgets the least recent. -/
inductive Resolver.IsNew (book : Codebook) : {ρ : Type} → [Resolver ρ] → ρ → Prop
  | plain : IsNew book (BookResolver.ofBook book)
  | cached {κ : Type} [Cache κ] (lru : LeastRecent κ) (size : Int) {r : Cached BookResolver κ}
      (h : Cached.ofSize (.ofBook book) size = .ok r) : IsNew book r

theorem Resolver.IsNew.answers {book : Codebook} {ρ : Type} [Resolver ρ] {r : ρ}
    (h : IsNew book r) : Answers r book.resolve := by
  have hplain := (BookResolver.ofBook book).answers
  cases h with
  | plain => exact hplain
  | cached lru size h => exact Cached.answers (Cached.ofSize_faithful lru hplain h)

/-! ## Stages and what resolvers remember -/

section Twins

variable {ρ ρ' : Type} [Resolver ρ] [Resolver ρ']

/-- Works that differ at most in their resolvers, which give the same answers. -/
structure Work.Twin (v : Work ρ) (w : Work ρ') : Prop where
  alike : v.Alike w
  functions : v.names.functions = w.names.functions

theorem Work.Twin.names {v : Work ρ} {w : Work ρ'} (h : v.Twin w) : v.names = w.names := by
  obtain ⟨functions, hnames⟩ := h.alike.names
  have hfunctions := h.functions
  rw [hnames] at hfunctions ⊢
  have heq : functions = w.names.taken .functions := hfunctions
  rw [heq, Registry.setTaken_taken]

/-- A stage that takes no names of functions leaves them, also where it fails. -/
theorem Stage.given_functions {o : Options} {t : Tables} {w w' : Work ρ} {s s' : Text}
    {stage : Stage} (hs : stage.scope? ≠ some .functions)
    (h : (stage.run o t w s).given? = some (s', w')) :
    w'.names.functions = w.names.functions := by
  rcases Outcome.given?_eq_some h with hok | ⟨bad, herror⟩
  · exact run_taken .functions hs hok
  · cases (run_malformed_iff.mp herror).2.2
    rfl

/-- **No stage can tell twins apart**, and it leaves twins. -/
theorem Stage.run_twin {o : Options} {t : Tables} {v : Work ρ} {w : Work ρ'} (stage : Stage)
    (h : v.Twin w) (s : Text) :
    Outcome.Rel (fun x y => x.1 = y.1 ∧ x.2.Twin y.2) (stage.run o t v s) (stage.run o t w s) := by
  by_cases hs : stage = .wrap
  · subst hs
    have hwrap : Pass.wrap v.parameters v.names s = Pass.wrap w.parameters w.names s := by
      rw [h.names, h.alike.parameters]
    simp only [run, hwrap]
    refine .ok ⟨rfl, ⟨⟨(Pass.wrap w.parameters w.names s).2.functions, ?_⟩, h.alike.answers,
      h.alike.parameters⟩, rfl⟩
    exact (Registry.setTaken_taken (Pass.wrap w.parameters w.names s).2 .functions).symm
  · have hscope : stage.scope? ≠ some .functions := by
      cases stage <;> first | exact absurd rfl hs | decide
    refine (run_alike (o := o) (t := t) hs h.alike s).imp fun x y hx hy hxy => ?_
    refine ⟨hxy.1, hxy.2, ?_⟩
    rw [given_functions hscope hx, given_functions hscope hy, h.functions]

namespace Pipeline

theorem runStages_twin {o : Options} {t : Tables} (stages : List Stage) {v : Work ρ} {w : Work ρ'}
    (h : v.Twin w) (s : Text) :
    (runStages o t stages v s).1 = (runStages o t stages w s).1 ∧
      (runStages o t stages v s).2.Twin (runStages o t stages w s).2 := by
  induction stages generalizing v w s with
  | nil => exact ⟨rfl, h⟩
  | cons stage stages ih =>
    have hsame := stage.run_twin (o := o) (t := t) h s
    unfold runStages
    generalize stage.run o t v s = x at hsame
    generalize stage.run o t w s = y at hsame
    cases hsame with
    | malformed bad hab => exact ⟨rfl, hab.2⟩
    | aborted cause => exact ⟨rfl, h⟩
    | @ok a b hab =>
      obtain ⟨s₁, v₁⟩ := a
      obtain ⟨s₂, w₁⟩ := b
      obtain ⟨rfl, htwin⟩ := hab
      obtain ⟨hresult, hrest⟩ := ih htwin s₁
      dsimp only
      rw [hresult]
      exact ⟨rfl, hrest⟩

end Pipeline

end Twins

/-! ## Histories -/

/-- A use of a pipeline: for a whole log, or for one entry. -/
inductive Call where
  | process (log : Text)
  | cleanEntry (entry : Text)
  deriving DecidableEq, Repr

namespace Pipeline

variable {ρ ρ' : Type} [Resolver ρ] [Resolver ρ'] {p : Pipeline ρ} {q : Pipeline ρ'}

/-- The pipeline after a call, whether that succeeded, failed or aborted. -/
def afterCall (p : Pipeline ρ) : Call → Pipeline ρ
  | .process log => (p.process log).2
  | .cleanEntry entry => (p.cleanEntry entry).2

/-- The pipeline after calls, one after another. -/
def after (p : Pipeline ρ) (calls : List Call) : Pipeline ρ := calls.foldl afterCall p

theorem process_eq (p : Pipeline ρ) (log : Text) :
    (p.process log).2 = (cleanEntries (Log.entries log) p.forgetFunctions).2 := rfl

theorem Alike.symm (h : p.Alike q) : q.Alike p := by
  obtain ⟨answer, hp, hq⟩ := h.answers
  exact ⟨h.options.symm, h.tables.symm, h.reserved.symm, answer, hq, hp⟩

theorem Alike.forgetFunctions (h : p.Alike q) : p.forgetFunctions.Alike q :=
  ⟨h.options, h.tables, h.reserved, h.answers⟩

theorem Alike.cleanEntries (h : p.Alike q) (es : List Text) :
    (Pipeline.cleanEntries es p).2.Alike q := by
  induction es generalizing p with
  | nil => exact h
  | cons e es ih =>
    have hnext := h.cleanEntry e
    unfold Pipeline.cleanEntries
    generalize p.cleanEntry e = x at hnext
    obtain ⟨result, p'⟩ := x
    cases result with
    | error cause => exact hnext
    | ok c => exact ih hnext

theorem Alike.afterCall (h : p.Alike q) (call : Call) : (p.afterCall call).Alike q := by
  cases call with
  | process log => exact h.forgetFunctions.cleanEntries (Log.entries log)
  | cleanEntry entry => exact h.cleanEntry entry

/-- **A history leaves all that is not names**, and the resolver answers as before. -/
theorem Alike.after (h : p.Alike q) (calls : List Call) : (p.after calls).Alike q := by
  induction calls generalizing p with
  | nil => exact h
  | cons call calls ih => exact ih (h.afterCall call)

/-! ## Twins -/

/-- Pipelines that are alike and have taken the same names of functions. -/
structure Twin (p : Pipeline ρ) (q : Pipeline ρ') : Prop where
  alike : p.Alike q
  functions : p.names.functions = q.names.functions

theorem Alike.twin (h : p.Alike q) : p.forgetFunctions.Twin q.forgetFunctions :=
  ⟨h.forgetFunctions.symm.forgetFunctions.symm, h.reserved⟩

theorem Twin.cleanEntry (h : p.Twin q) (e : Text) :
    (p.cleanEntry e).1 = (q.cleanEntry e).1 ∧ (p.cleanEntry e).2.Twin (q.cleanEntry e).2 := by
  have hbench : p.workbench.Twin q.workbench := ⟨h.alike.workbench, h.functions⟩
  obtain ⟨hresult, htwin⟩ := runStages_twin (o := p.options) (t := p.tables)
    (Stage.enabled p.options) hbench (Pass.normalize e)
  have halike := ((h.alike.cleanEntry e).symm.cleanEntry e).symm
  rw [cleanEntry_eq p, cleanEntry_eq q, ← h.alike.options, ← h.alike.tables] at *
  exact ⟨hresult, halike, htwin.functions⟩

theorem Twin.cleanEntries (h : p.Twin q) (es : List Text) :
    (Pipeline.cleanEntries es p).1 = (Pipeline.cleanEntries es q).1 := by
  induction es generalizing p q with
  | nil => rfl
  | cons e es ih =>
    obtain ⟨hresult, hnext⟩ := h.cleanEntry e
    unfold Pipeline.cleanEntries
    generalize p.cleanEntry e = x at hresult hnext
    generalize q.cleanEntry e = y at hresult hnext
    obtain ⟨rx, p'⟩ := x
    obtain ⟨ry, q'⟩ := y
    dsimp only at hresult hnext
    subst hresult
    cases rx with
    | error cause => rfl
    | ok c =>
      dsimp only
      rw [ih hnext]

theorem Alike.process (h : p.Alike q) (log : Text) : (p.process log).1 = (q.process log).1 := by
  have hentries := h.twin.cleanEntries (Log.entries log)
  unfold Pipeline.forgetFunctions at hentries
  simp only [Pipeline.process, hentries]

/-! ## Whole histories -/

/-- **Cleaning a log does not depend on what was cleaned before.**  After any history of calls on a
pipeline, whether they succeeded, failed or aborted, a log gives the same report, or the same abort,
as on a pipeline just made with the same options, tables and codebook.  Either of them may cache
answers, in any number, or none. -/
theorem process_history_independent (o : Options) (t : Tables) (book : Codebook) (r : ρ) (r' : ρ')
    (hr : Resolver.IsNew book r) (hr' : Resolver.IsNew book r') (calls : List Call) (log : Text) :
    (((make o t r).after calls).process log).1 = ((make o t r').process log).1 := by
  have halike : (make o t r).Alike (make o t r') :=
    ⟨rfl, rfl, rfl, book.resolve, hr.answers, hr'.answers⟩
  exact (halike.after calls).process log

/-- A resolver for the built-in codes behind a cache for one answer. -/
def forgetful : Cached BookResolver Recall := ⟨.ofBook Tables.builtin.codebook, ⟨1, []⟩⟩

/-- Three calls, one of which fails, leave names and an answer behind, and no trace in the report. -/
theorem process_history_independent_reused :
    Resolver.IsNew Tables.builtin.codebook forgetful ∧
    Resolver.IsNew Tables.builtin.codebook (BookResolver.ofBook Tables.builtin.codebook) ∧
    (((make Options.all Tables.builtin forgetful).after
      [.process mixedLog, .cleanEntry (utf8 "var x;"),
        .cleanEntry (utf8 "executeAction( charIDToTypeID( \"setd\" ), x );")]).process mixedLog).1 =
      (builtin.process mixedLog).1 := by
  have hcached : Resolver.IsNew Tables.builtin.codebook forgetful :=
    .cached Recall.leastRecent 1 rfl
  exact ⟨hcached, .plain, process_history_independent _ _ _ _ _ hcached .plain _ _⟩

end Pipeline

end ActionLog
