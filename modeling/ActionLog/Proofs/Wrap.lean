import ActionLog.Proofs.History

/-!
# Entries that become functions

* `Pass.functionText` — a call of a function and the function itself, as `wrap` writes them;
  `Pass.callee` reads the name of the function back;
* `Stage.inner` — the stages up to wrapping, which do not see the names of functions;
* `Pipeline.unwrapped` — what these stages make of an entry, and the parameters they lift from it; it
  depends on the entry alone (`Pipeline.Alike.unwrapped`);
* `Pipeline.Ending` — all that can become of an entry that is to be wrapped.

Principal results: `Pipeline.cleanEntry_function` — an entry without a fault becomes a function with
the least free version of the core of its action — and `Pipeline.cleanEntry_no_function` — all others
take no name.
-/

set_option autoImplicit false

namespace ActionLog

/-! ## The text of a function -/

namespace Pass

/-- Texts in parentheses, with commas between them. -/
def argumentList (ts : List Text) : Text := utf8 "(" ++ Text.join (utf8 ", ") ts ++ utf8 ")"

/-- A call of a function with the values of its parameters, and the function. -/
def functionText (name : Text) (params : List Parameter) (body : Text) : Text :=
  name ++ argumentList (params.map (·.value)) ++ utf8 ";\n" ++
    utf8 "function " ++ name ++ argumentList (params.map (·.name)) ++ utf8 " \x7b\n" ++
    Text.unlines ((Text.lines body).map indent) ++ utf8 "\n\x7d"

/-- The name that a text calls first: all that stands before its first parenthesis. -/
def callee (s : Text) : Text := s.takeWhile (· != Byte.openParen)

theorem callee_append {name : Text} (h : Byte.openParen ∉ name) (rest : Text) :
    callee (name ++ Byte.openParen :: rest) = name := by
  have hpass : ∀ b ∈ name, (b != Byte.openParen) = true := by
    intro b hb
    rw [bne_iff_ne]
    rintro rfl
    exact h hb
  rw [callee, List.takeWhile_append_of_pos hpass]
  simp

theorem openParen_not_mem_name {name : Text} (h : Name.IsIdentifier name) :
    Byte.openParen ∉ name := by
  intro hmem
  cases List.all_eq_true.mp h.1 _ hmem

theorem callee_functionText {name : Text} (h : Name.IsIdentifier name) (params : List Parameter)
    (body : Text) : callee (functionText name params body) = name := by
  obtain ⟨rest, hrest⟩ : ∃ rest, functionText name params body = name ++ Byte.openParen :: rest := by
    have hopen : utf8 "(" = [Byte.openParen] := by decide
    simp only [functionText, argumentList, hopen, List.append_assoc, List.cons_append,
      List.nil_append]
    exact ⟨_, rfl⟩
  rw [hrest, callee_append (openParen_not_mem_name h)]

end Pass

/-! ## The stages up to wrapping -/

namespace Stage

/-- The stages that options ask for, wrapping left out. -/
def inner (o : Options) : List Stage := (enabled o).filter (· != wrap)

theorem enabled_of_wrap {o : Options} (h : o.wrap = true) : enabled o = inner o ++ [wrap] := by
  have hall : all = all.filter (· != wrap) ++ [wrap] := rfl
  have henabled : isEnabled o wrap = true := h
  unfold inner enabled
  rw [List.filter_comm, hall, List.filter_append]
  simp [henabled]

theorem wrap_not_mem_inner (o : Options) : wrap ∉ inner o := by
  simp [inner]

theorem scope?_ne_functions {stage : Stage} (h : stage ≠ wrap) :
    stage.scope? ≠ some .functions := by
  cases stage with
  | wrap => exact absurd rfl h
  | resolveConflicts | hoist | consolidate | descriptiveNames | convertCodes | shorten
  | liftParameters => decide

variable {ρ ρ' : Type} [Resolver ρ] [Resolver ρ'] {o : Options} {t : Tables}

theorem chain_cons {stage : Stage} {w w₁ : Work ρ} {s s₁ : Text}
    (h : stage.run o t w s = .ok (s₁, w₁)) (stages : List Stage) :
    chain o t (stage :: stages) w s = chain o t stages w₁ s₁ := by
  unfold chain
  rw [List.foldlM_cons, h]
  rfl

theorem chain_cons_error {stage : Stage} {w : Work ρ} {s : Text} {err : PassError (Text × Work ρ)}
    (h : stage.run o t w s = .error err) (stages : List Stage) :
    chain o t (stage :: stages) w s = .error err := by
  unfold chain
  rw [List.foldlM_cons, h]
  rfl

/-- Stages up to wrapping give works that are alike the same text and the same parameters. -/
theorem chain_alike {stages : List Stage} (hwrap : wrap ∉ stages) {v : Work ρ} {w : Work ρ'}
    (h : v.Alike w) (s : Text) : SameOutcome (chain o t stages v s) (chain o t stages w s) := by
  induction stages generalizing v w s with
  | nil => exact .ok ⟨rfl, h⟩
  | cons stage stages ih =>
    have hstage : stage ≠ wrap := fun heq => hwrap (by rw [heq]; exact List.mem_cons_self)
    have hrun := run_alike (o := o) (t := t) hstage h s
    generalize hv : stage.run o t v s = x, hw : stage.run o t w s = y at hrun
    cases hrun with
    | ok hxy =>
      rw [chain_cons hv, chain_cons hw, hxy.1]
      exact ih (fun hmem => hwrap (List.mem_cons_of_mem _ hmem)) hxy.2 _
    | malformed bad hxy =>
      rw [chain_cons_error hv, chain_cons_error hw]
      exact .malformed bad hxy
    | aborted cause =>
      rw [chain_cons_error hv, chain_cons_error hw]
      exact .aborted cause

/-- Stages one after another take no names in a scope that is none of theirs. -/
theorem chain_taken (sc : Scope) {stages : List Stage}
    (hscope : ∀ stage ∈ stages, stage.scope? ≠ some sc) {w w' : Work ρ} {s s' : Text}
    (h : chain o t stages w s = .ok (s', w')) : w'.names.taken sc = w.names.taken sc := by
  induction stages generalizing w s with
  | nil => cases h; rfl
  | cons stage stages ih =>
    obtain ⟨s₁, w₁, hrun, hrest⟩ := Pipeline.chain_cons_ok h
    rw [List.forall_mem_cons] at hscope
    rw [ih hscope.2 hrest, run_taken sc hscope.1 hrun]

end Stage

/-! ## What becomes of an entry -/

namespace Pipeline

variable {ρ ρ' : Type} [Resolver ρ] [Resolver ρ'] {o : Options} {t : Tables} {p q : Pipeline ρ}
  {e : Text}

/-- What the stages up to wrapping make of an entry, and the parameters that are lifted from it. -/
def unwrapped (p : Pipeline ρ) (e : Text) :
    Outcome (Text × List Pass.Parameter) (Text × List Pass.Parameter) :=
  (Stage.chain p.options p.tables (Stage.inner p.options) p.workbench (Pass.normalize e)).onto
    fun x => (x.1, x.2.parameters)

/-- **What is wrapped depends on the entry alone**, not on what was cleaned before. -/
theorem Alike.unwrapped {q : Pipeline ρ'} (h : p.Alike q) (e : Text) :
    p.unwrapped e = q.unwrapped e := by
  unfold Pipeline.unwrapped
  rw [← h.options, ← h.tables]
  have hsame := Stage.chain_alike (o := p.options) (t := p.tables)
    (Stage.wrap_not_mem_inner p.options) h.workbench (Pass.normalize e)
  refine (hsame.onto ?_).eq
  intro x y hxy
  rw [hxy.1, hxy.2.parameters]

/-- All that can become of a text when wrapping follows the stages given. -/
inductive Ending (o : Options) (t : Tables) (stages : List Stage) (w : Work ρ) (s : Text) :
    Except Abort Cleaned × Work ρ → Prop
  /-- All stages succeed, and the text becomes a function. -/
  | function {body : Text} {w₁ : Work ρ} {events : List Event}
      (hchain : Stage.chain o t stages w s = .ok (body, w₁)) :
      Ending o t stages w s
        (.ok ⟨(Pass.wrap w₁.parameters w₁.names body).1, none, events⟩,
          { w₁ with names := (Pass.wrap w₁.parameters w₁.names body).2 })
  /-- A stage fails before. -/
  | failed {c : Cleaned} {w' : Work ρ} (hfailure : c.failure ≠ none)
      (hfunctions : w'.names.functions = w.names.functions) : Ending o t stages w s (.ok c, w')
  /-- A stage aborts before. -/
  | aborted {cause : Abort} {w' : Work ρ}
      (hfunctions : w'.names.functions = w.names.functions) :
      Ending o t stages w s (.error cause, w')

/-- **Stages with wrapping after them end in one of three ways.** -/
theorem runStages_ending {stages : List Stage} (hwrap : Stage.wrap ∉ stages) (w : Work ρ)
    (s : Text) : Ending o t stages w s (runStages o t (stages ++ [.wrap]) w s) := by
  induction stages generalizing w s with
  | nil => exact .function rfl
  | cons stage stages ih =>
    have hstage : stage ≠ .wrap := fun heq => hwrap (by rw [heq]; exact List.mem_cons_self)
    rw [List.cons_append, runStages]
    cases hrun : stage.run o t w s with
    | error err =>
      cases err with
      | malformed bad back =>
        obtain ⟨_, _, rfl⟩ := Stage.run_malformed_iff.mp hrun
        exact .failed (by simp) rfl
      | aborted cause => exact .aborted rfl
    | ok x =>
      obtain ⟨out, w₁⟩ := x
      have hkept : w₁.names.functions = w.names.functions :=
        Stage.run_taken .functions (Stage.scope?_ne_functions hstage) hrun
      have hrest := ih (fun hmem => hwrap (List.mem_cons_of_mem _ hmem)) w₁ out
      dsimp only
      generalize runStages o t (stages ++ [.wrap]) w₁ out = result at hrest
      cases hrest with
      | function hchain => exact .function (by rw [Stage.chain_cons hrun]; exact hchain)
      | failed hfailure hfunctions => exact .failed hfailure (hfunctions.trans hkept)
      | aborted hfunctions => exact .aborted (hfunctions.trans hkept)

theorem cleanEntry_ending (hwrap : p.options.wrap = true) (e : Text) :
    ∃ w, Ending p.options p.tables (Stage.inner p.options) p.workbench (Pass.normalize e)
        ((p.cleanEntry e).1, w) ∧ (p.cleanEntry e).2.names = w.names := by
  have hending := runStages_ending (o := p.options) (t := p.tables)
    (Stage.wrap_not_mem_inner p.options) p.workbench (Pass.normalize e)
  rw [← Stage.enabled_of_wrap hwrap] at hending
  exact ⟨_, hending, rfl⟩

/-- The name of the function that an entry with this body becomes: the least version of the core of
its action that no function has. -/
def nextFunction (p : Pipeline ρ) (body : Text) : Text :=
  Registry.freeVersion p.names.functions (Name.core (Pass.actionName body))

/-- **An entry that is cleaned without a fault becomes a function**, whose name is taken from then
on. -/
theorem cleanEntry_function {c : Cleaned} (hwrap : p.options.wrap = true)
    (h : p.cleanEntry e = (.ok c, q)) (hc : c.failure = none) :
    ∃ body w, Stage.chain p.options p.tables (Stage.inner p.options) p.workbench
        (Pass.normalize e) = .ok (body, w) ∧
      c.text = Pass.functionText (p.nextFunction body) w.parameters body ∧
      q.names.functions = p.nextFunction body :: p.names.functions := by
  obtain ⟨w, hending, hnames⟩ := cleanEntry_ending hwrap e
  rw [h] at hending hnames
  cases hending with
  | failed hfailure _ => exact absurd hc hfailure
  | @function body w₁ events hchain =>
    have hkept : w₁.names.functions = p.names.functions := by
      refine Stage.chain_taken .functions (fun stage hmem => ?_) hchain
      refine Stage.scope?_ne_functions fun heq => Stage.wrap_not_mem_inner p.options ?_
      rw [← heq]
      exact hmem
    have hname : (w₁.names.allocate .functions (Pass.actionName body)).1 = p.nextFunction body := by
      rw [nextFunction, ← hkept]
      rfl
    refine ⟨body, w₁, hchain, ?_, ?_⟩
    · rw [← hname]
      rfl
    · rw [hnames, ← hname, ← hkept]
      rfl

/-- **Every other entry takes no name of a function.** -/
theorem cleanEntry_no_function {r : Except Abort Cleaned} (hwrap : p.options.wrap = true)
    (h : p.cleanEntry e = (r, q)) (hr : ∀ c, r = .ok c → c.failure ≠ none) :
    q.names.functions = p.names.functions := by
  obtain ⟨w, hending, hnames⟩ := cleanEntry_ending hwrap e
  rw [h] at hending hnames
  rw [hnames]
  cases hending with
  | function _ => exact absurd rfl (hr _ rfl)
  | failed _ hfunctions => exact hfunctions
  | aborted hfunctions => exact hfunctions

end Pipeline

end ActionLog
