import ActionLog.Stage
import ActionLog.Proofs.Outcome
import ActionLog.Proofs.Resolver

/-!
# What each stage reads and writes

Stages share a registry of names, a resolver and the parameters lifted so far.  Each of them uses
little of it.

* `Pass.resolveConflicts_local`, `Pass.describe_local` — conflict resolution and naming by objects
  touch the names of variables only;
* `Pass.liftParameters_local` — lifting touches the names of parameters only;
* `Stage.readsDeclarations` — the stages that look for declarations; they fail exactly if one is
  malformed, and give back what they were given (`Stage.run_malformed_iff`);
* `Stage.isEarly` — the stages up to naming by objects; of what is shared they change the names of
  variables only (`Stage.run_early`);
* `Stage.scope?`, `Stage.run_taken` — a stage takes names in one scope at most;
* `Work.Alike`, `Stage.run_alike` — all stages but the last give the same text and the same error
  whatever the names of functions are and whatever the resolver was asked before.
-/

set_option autoImplicit false

namespace ActionLog

open Registry
open Resolver (Answers)

namespace Pass

/-! ## Passes within one scope -/

theorem freshVariable_local (declared : List Text) (wanted : Text) :
    ∀ attempts, Local .vars (freshVariable declared wanted attempts)
  | 0 => Local.allocate wanted
  | attempts + 1 => by
    refine Local.bind (Local.allocate wanted) (g := fun name r =>
      if declared.contains name then freshVariable declared wanted attempts r else (name, r)) ?_
    intro name
    cases declared.contains name with
    | true => exact freshVariable_local declared wanted attempts
    | false => exact Local.pure name

theorem resolveLines_local (clashes : List Declaration) (declared : List Text)
    (window : Option Nat) : ∀ (ls : List Text) (active : List Renaming),
      Local .vars fun r => resolveLines clashes declared window r active ls
  | [], _ => Local.pure []
  | line :: ls, active => by
    simp only [resolveLines]
    cases clashes.find? (·.line == (Renaming.visitAll active line).1) with
    | none => exact Local.map _ (resolveLines_local clashes declared window ls _)
    | some d =>
      exact Local.bind (freshVariable_local declared (d.name ++ [Byte.underscore]) declared.length)
        fun name => Local.map (Declaration.rename (Renaming.visitAll active line).1 name :: ·)
          (resolveLines_local clashes declared window ls
            ((Renaming.visitAll active line).2 ++ [⟨d.name, name, window⟩]))

theorem resolveConflicts_local (window : Int) (s : Text) :
    LocalOrFail .vars fun r => resolveConflicts window r s := by
  simp only [resolveConflicts, extractOrFail]
  cases Declaration.extract s with
  | error bad => exact LocalOrFail.malformed bad s
  | ok ds =>
    exact (resolveLines_local (conflicts ds) (ds.map (·.name))
      (if window ≤ 0 then none else some window.toNat) (Text.lines s) []).orFail
      (k := fun ls => .ok (Text.unlines ls)) fun _ => .ok _

theorem reserveOthers_local (constructors : List Constructor) (ds : List Declaration) :
    Local .vars fun r => ((), reserveOthers constructors ds r) := by
  unfold reserveOthers
  generalize ds.filter (fun d => (objectName? constructors d.value).isNone) = others
  induction others with
  | nil => exact Local.pure ()
  | cons d others ih => exact Local.bind (Local.reserve d.name) fun _ => ih

theorem renames_local (constructors : List Constructor) :
    ∀ (ds : List Declaration) (done : Renames), Local .vars (renames constructors ds done)
  | [], done => Local.pure done
  | d :: ds, done => by
    show Local .vars fun r => renames constructors (d :: ds) done r
    simp only [renames]
    cases objectName? constructors d.value with
    | none => exact renames_local constructors ds done
    | some base =>
      by_cases hdone : (List.lookup d.name done).isSome
      · simp only [hdone, if_true]
        exact renames_local constructors ds done
      · simp only [hdone]
        exact Local.bind (Local.allocate base)
          fun name => renames_local constructors ds (done ++ [(d.name, name)])

theorem describe_local (constructors : List Constructor) (s : Text) :
    LocalOrFail .vars fun r => describe constructors r s := by
  simp only [describe, extractOrFail]
  cases Declaration.extract s with
  | error bad => exact LocalOrFail.malformed bad s
  | ok ds =>
    exact (Local.bind (reserveOthers_local constructors ds)
      fun _ => renames_local constructors ds []).orFail
      fun renamed => .reviseOrAbort s (renameEdits renamed s)

theorem liftLines_local (setters : List Text) (ignored : Text → Bool) :
    ∀ (ls : List Text) (offset : Nat), Local .parameters fun r =>
      (((liftLines setters ignored offset ls r).1, (liftLines setters ignored offset ls r).2.1),
        (liftLines setters ignored offset ls r).2.2)
  | [], _ => Local.pure ([], [])
  | line :: ls, offset => by
    simp only [liftLines]
    cases setting? setters ignored line with
    | none => exact liftLines_local setters ignored ls _
    | some x =>
      exact Local.bind (Local.allocate x.key) fun name =>
        Local.map (fun done : List Edit × List Parameter =>
          (⟨offset + x.start, offset + x.stop, name⟩ :: done.1, ⟨name, x.value⟩ :: done.2))
          (liftLines_local setters ignored ls (offset + line.length + 1))

theorem liftParameters_eq {setters : List Text} (hvalid : setters.all Text.isValid = true)
    (ignored : Text → Bool) (r : Registry) (s : Text) :
    liftParameters setters ignored r s =
      (reviseOrAbort s (liftLines setters ignored 0 (Text.lines s) r).1).map
        fun s' => (s', (liftLines setters ignored 0 (Text.lines s) r).2) := by
  unfold liftParameters reviseOrAbort
  rw [hvalid]
  generalize liftLines setters ignored 0 (Text.lines s) r = done
  obtain ⟨edits, params, names⟩ := done
  dsimp only
  cases revise s edits <;> rfl

/-- A setter that is not valid text is searched for nowhere. -/
theorem liftParameters_aborted {setters : List Text} (hvalid : setters.all Text.isValid = false)
    (ignored : Text → Bool) (r : Registry) (s : Text) :
    liftParameters setters ignored r s =
      .error (.aborted (.pattern (setterCallSource setters))) := by
  unfold liftParameters
  rw [hvalid]
  rfl

/-- Where lifting succeeds, the setters are valid text, and all lines were lifted from. -/
theorem liftParameters_eq_ok {setters : List Text} {ignored : Text → Bool} {r : Registry} {s : Text}
    {x : Text × List Parameter × Registry} (h : liftParameters setters ignored r s = .ok x) :
    setters.all Text.isValid = true ∧ x.2 = (liftLines setters ignored 0 (Text.lines s) r).2 := by
  cases hvalid : setters.all Text.isValid with
  | false =>
    rw [liftParameters_aborted hvalid] at h
    cases h
  | true =>
    rw [liftParameters_eq hvalid] at h
    unfold reviseOrAbort at h
    cases hr : revise s (liftLines setters ignored 0 (Text.lines s) r).1 with
    | error e => rw [hr] at h; cases h
    | ok s' => rw [hr] at h; cases h; exact ⟨rfl, rfl⟩

theorem liftParameters_local (setters : List Text) (ignored : Text → Bool) (s : Text) :
    LocalOrFail .parameters fun r => (liftParameters setters ignored r s).onto
      fun x => ((x.1, x.2.1), x.2.2) := by
  cases hvalid : setters.all Text.isValid with
  | false =>
    simp only [liftParameters_aborted hvalid]
    exact fun _ _ _ => .aborted _
  | true =>
    have hlocal := (liftLines_local setters ignored (Text.lines s) 0).orFail
      (k := fun done => (reviseOrAbort s done.1).map fun s => (s, done.2))
      fun done => (Uncomplaining.reviseOrAbort s done.1).map _
    have heq : ∀ r, (liftParameters setters ignored r s).onto (fun x => ((x.1, x.2.1), x.2.2)) =
        ((reviseOrAbort s (liftLines setters ignored 0 (Text.lines s) r).1).map fun s' =>
          (s', (liftLines setters ignored 0 (Text.lines s) r).2.1)).map
            fun b => (b, (liftLines setters ignored 0 (Text.lines s) r).2.2) := by
      intro r
      rw [liftParameters_eq hvalid]
      generalize liftLines setters ignored 0 (Text.lines s) r = done
      unfold reviseOrAbort
      cases revise s done.1 <;> rfl
    simp only [heq]
    exact hlocal

/-! ## Passes that fail -/

theorem resolveConflicts_malformed_iff {window : Int} {names : Registry} {s : Text} {bad : BadLine}
    {back : Text × Registry} : resolveConflicts window names s = .error (.malformed bad back) ↔
      Declaration.extract s = .error bad ∧ back = (s, names) :=
  extractOrFail_bind_iff fun _ => .ok _

theorem describe_malformed_iff {constructors : List Constructor} {names : Registry} {s : Text}
    {bad : BadLine} {back : Text × Registry} :
    describe constructors names s = .error (.malformed bad back) ↔
      Declaration.extract s = .error bad ∧ back = (s, names) :=
  extractOrFail_bind_iff fun _ => (Uncomplaining.reviseOrAbort s _).bind fun _ => .ok _

/-- Inlining looks at no other declaration than its own. -/
theorem inline_uncomplaining (d : Declaration) (s : Text) : Uncomplaining (inline d s) := by
  unfold inline
  split
  · exact .aborted _
  · split
    · exact .ok s
    · exact (Uncomplaining.reviseOrAbort s _).bind fun _ => .ok _

theorem consolidate_malformed_iff {s : Text} {bad : BadLine} {back : Text} :
    consolidate s = .error (.malformed bad back) ↔
      Declaration.extract s = .error bad ∧ back = s := by
  refine extractOrFail_bind_iff fun ds => Uncomplaining.foldlM (fun s d => ?_) ds s
  split
  · split
    · exact .ok s
    · exact inline_uncomplaining _ s
  · exact .ok s

theorem convertCodes_uncomplaining {ρ : Type} [Resolver ρ] (ambiguous : Text → Bool) (r : ρ)
    (s : Text) : Uncomplaining (convertCodes ambiguous r s) :=
  (Uncomplaining.reviseOrAbort s _).bind fun _ => .ok _

theorem shorten_uncomplaining (aliases : List Alias) (s : Text) :
    Uncomplaining (shorten aliases s) := by
  unfold shorten
  split
  · exact .aborted _
  · exact .ok _

theorem liftParameters_uncomplaining (setters : List Text) (ignored : Text → Bool) (r : Registry)
    (s : Text) : Uncomplaining (liftParameters setters ignored r s) := by
  cases hvalid : setters.all Text.isValid with
  | false => rw [liftParameters_aborted hvalid]; exact .aborted _
  | true => rw [liftParameters_eq hvalid]; exact (Uncomplaining.reviseOrAbort s _).map _

end Pass

/-! ## Early stages -/

namespace Stage

/-- The stages up to naming by objects. -/
def isEarly : Stage → Bool
  | resolveConflicts | hoist | consolidate | descriptiveNames => true
  | convertCodes | shorten | liftParameters | wrap => false

/-- The early stages stand before the others. -/
theorem enabled_eq (o : Options) : enabled o =
    (all.filter isEarly).filter (isEnabled o) ++
      (all.filter fun stage => !stage.isEarly).filter (isEnabled o) := by
  rw [← List.filter_append]
  rfl

/-- Whether a stage looks for declarations, and fails if one is malformed. -/
def readsDeclarations : Stage → Bool
  | resolveConflicts | consolidate | descriptiveNames => true
  | hoist | convertCodes | shorten | liftParameters | wrap => false

theorem isEarly_of_readsDeclarations {stage : Stage} (h : stage.readsDeclarations = true) :
    stage.isEarly = true := by
  cases stage <;> first | rfl | cases h

section Run

variable {ρ : Type} [Resolver ρ] {o : Options} {t : Tables} {w w' : Work ρ} {s s' : Text}
  {stage : Stage}

/-- **Stages that look for declarations fail by the first malformed one of the text they were given**,
and give that text and the work back; no other stage fails. -/
theorem run_malformed_iff {bad : BadLine} {back : Text × Work ρ} :
    stage.run o t w s = .error (.malformed bad back) ↔
      stage.readsDeclarations = true ∧ Declaration.extract s = .error bad ∧ back = (s, w) := by
  cases stage with
  | hoist | wrap => exact ⟨nofun, fun h => absurd h.1 nofun⟩
  | convertCodes =>
    exact ⟨fun h => absurd h ((Pass.convertCodes_uncomplaining _ w.resolver s).onto _ bad back),
      fun h => absurd h.1 nofun⟩
  | shorten =>
    exact ⟨fun h => absurd h ((Pass.shorten_uncomplaining _ s).onto _ bad back),
      fun h => absurd h.1 nofun⟩
  | liftParameters =>
    exact ⟨fun h => absurd h ((Pass.liftParameters_uncomplaining _ _ w.names s).onto _ bad back),
      fun h => absurd h.1 nofun⟩
  | resolveConflicts =>
    exact (Outcome.onto_malformed_iff_of fun _ => Pass.resolveConflicts_malformed_iff).trans
      (and_iff_right rfl).symm
  | consolidate =>
    exact (Outcome.onto_malformed_iff_of fun _ => Pass.consolidate_malformed_iff).trans
      (and_iff_right rfl).symm
  | descriptiveNames =>
    exact (Outcome.onto_malformed_iff_of fun _ => Pass.describe_malformed_iff).trans
      (and_iff_right rfl).symm

/-- **Early stages change nothing but the names of variables.** -/
theorem run_early (hs : stage.isEarly = true) (h : stage.run o t w s = .ok (s', w')) :
    w' = { w with names := w.names.setTaken (w'.names.taken .vars) .vars } := by
  cases stage with
  | convertCodes | shorten | liftParameters | wrap => cases hs
  | hoist => cases h; rfl
  | consolidate =>
    obtain ⟨_, _, heq⟩ := Outcome.onto_eq_ok h
    cases heq
    rfl
  | resolveConflicts =>
    obtain ⟨x, hx, heq⟩ := Outcome.onto_eq_ok h
    cases heq
    exact congrArg (fun names => { w with names := names })
      ((Pass.resolveConflicts_local o.lookahead s).frame (by rw [hx]; rfl))
  | descriptiveNames =>
    obtain ⟨x, hx, heq⟩ := Outcome.onto_eq_ok h
    cases heq
    exact congrArg (fun names => { w with names := names })
      ((Pass.describe_local t.constructors s).frame (by rw [hx]; rfl))

/-- Lifting changes nothing but the names of parameters, and the parameters. -/
theorem run_liftParameters_frame (h : liftParameters.run o t w s = .ok (s', w')) :
    w'.resolver = w.resolver ∧
      w'.names = w.names.setTaken (w'.names.taken .parameters) .parameters := by
  obtain ⟨x, hx, heq⟩ := Outcome.onto_eq_ok h
  cases heq
  refine ⟨rfl, (Pass.liftParameters_local t.setters t.isIgnoredKey s).frame
    (a := (x.1, x.2.1)) ?_⟩
  dsimp only
  rw [hx]
  rfl

/-- Converting codes asks the resolver, and changes nothing else. -/
theorem run_convertCodes_frame (h : convertCodes.run o t w s = .ok (s', w')) :
    w' = { w with resolver := (Pass.convertEdits t.isAmbiguous
      (Text.findAll .char Pass.codeCall s) w.resolver).2 } := by
  obtain ⟨x, hx, heq⟩ := Outcome.onto_eq_ok h
  cases heq
  unfold Pass.convertCodes at hx
  dsimp only at hx
  cases hr : (reviseOrAbort s (Pass.convertEdits t.isAmbiguous
      (Text.findAll .char Pass.codeCall s) w.resolver).1 : Outcome (Text × ρ) Text) with
  | error e => rw [hr] at hx; cases hx
  | ok s₁ => rw [hr] at hx; cases hx; rfl

/-- **No stage changes the reserved words**, and a resolver free of side effects answers alike after
it. -/
theorem run_keeps {answer : Text → Option Text} (hw : Answers w.resolver answer)
    (h : stage.run o t w s = .ok (s', w')) :
    w'.names.reserved = w.names.reserved ∧ Answers w'.resolver answer := by
  by_cases hs : stage.isEarly = true
  · rw [run_early hs h]
    exact ⟨reserved_setTaken _ _ _, hw⟩
  · cases stage with
    | resolveConflicts | hoist | consolidate | descriptiveNames => exact absurd rfl hs
    | wrap => cases h; exact ⟨rfl, hw⟩
    | shorten =>
      obtain ⟨_, _, heq⟩ := Outcome.onto_eq_ok h
      cases heq
      exact ⟨rfl, hw⟩
    | convertCodes =>
      rw [run_convertCodes_frame h]
      exact ⟨rfl, (Pass.convertEdits_spec t.isAmbiguous _ hw).2⟩
    | liftParameters =>
      obtain ⟨hresolver, hnames⟩ := run_liftParameters_frame h
      rw [hresolver, hnames]
      exact ⟨reserved_setTaken _ _ _, hw⟩

/-- The scope that a stage takes names in, if it takes any. -/
def scope? : Stage → Option Scope
  | resolveConflicts | descriptiveNames => some .vars
  | liftParameters => some .parameters
  | wrap => some .functions
  | hoist | consolidate | convertCodes | shorten => none

/-- **A stage takes names in its own scope only.** -/
theorem run_taken (sc : Scope) (hs : stage.scope? ≠ some sc)
    (h : stage.run o t w s = .ok (s', w')) : w'.names.taken sc = w.names.taken sc := by
  cases stage with
  | hoist => cases h; rfl
  | consolidate | shorten =>
    obtain ⟨_, _, heq⟩ := Outcome.onto_eq_ok h
    cases heq
    rfl
  | convertCodes => rw [run_convertCodes_frame h]
  | resolveConflicts | descriptiveNames =>
    rw [run_early rfl h]
    exact taken_setTaken_of_ne _ _ fun heq => hs (congrArg some heq.symm)
  | liftParameters =>
    rw [(run_liftParameters_frame h).2]
    exact taken_setTaken_of_ne _ _ fun heq => hs (congrArg some heq.symm)
  | wrap =>
    cases h
    exact taken_setTaken_of_ne _ _ fun heq => hs (congrArg some heq.symm)

end Run

end Stage

/-! ## Works that differ in what stages before the last do not see -/

/-- Works with the same parameters, names of variables and names of parameters, and with resolvers
that are free of side effects and give the same answers. -/
structure Work.Alike {ρ ρ' : Type} [Resolver ρ] [Resolver ρ'] (v : Work ρ) (w : Work ρ') :
    Prop where
  names : ∃ functions, v.names = w.names.setTaken functions .functions
  answers : ∃ answer, Answers v.resolver answer ∧ Answers w.resolver answer
  parameters : v.parameters = w.parameters

namespace Stage

variable {ρ ρ' : Type} [Resolver ρ] [Resolver ρ'] {o : Options} {t : Tables} {v : Work ρ}
  {w : Work ρ'}

/-- Both give the same text and works that are alike, with the same error or none. -/
abbrev SameOutcome : Outcome (Text × Work ρ) (Text × Work ρ) →
    Outcome (Text × Work ρ') (Text × Work ρ') → Prop :=
  Outcome.Rel fun x y => x.1 = y.1 ∧ x.2.Alike y.2

/-- A pass that does not see the names of functions carries them along as a stage. -/
theorem sameOutcome_of_carry {α : Type} (h : v.Alike w)
    {f : Registry → Outcome (α × Registry) (α × Registry)} {sc : Scope} (hf : LocalOrFail sc f)
    (hsc : sc ≠ .functions) (text : α → Text)
    (params : α → List Pass.Parameter → List Pass.Parameter) :
    SameOutcome
      ((f v.names).onto fun x => (text x.1, ⟨x.2, v.resolver, params x.1 v.parameters⟩))
      ((f w.names).onto fun x => (text x.1, ⟨x.2, w.resolver, params x.1 w.parameters⟩)) := by
  obtain ⟨functions, hnames⟩ := h.names
  rw [hnames]
  refine (hf.carry hsc w.names functions).onto ?_
  rintro ⟨a, q⟩ ⟨b, q'⟩ ⟨hab, hq⟩
  dsimp only at hab hq
  subst hab hq
  exact ⟨rfl, ⟨functions, rfl⟩, h.answers, by rw [h.parameters]⟩

theorem convertCodes_alike (h : v.Alike w) (s : Text) :
    SameOutcome (run o t v s .convertCodes) (run o t w s .convertCodes) := by
  obtain ⟨answer, hv, hw⟩ := h.answers
  obtain ⟨hvedits, hv'⟩ := Pass.convertEdits_spec t.isAmbiguous
    (Text.findAll .char Pass.codeCall s) hv
  obtain ⟨hwedits, hw'⟩ := Pass.convertEdits_spec t.isAmbiguous
    (Text.findAll .char Pass.codeCall s) hw
  simp only [run, Pass.convertCodes]
  rw [hvedits, hwedits]
  unfold reviseOrAbort
  cases revise s _ with
  | error e => exact .aborted _
  | ok s' => exact .ok ⟨rfl, h.names, ⟨answer, hv', hw'⟩, h.parameters⟩

/-- **All stages but the last do not see the names of functions**, nor what a resolver was asked
before. -/
theorem run_alike {stage : Stage} (hs : stage ≠ .wrap) (h : v.Alike w) (s : Text) :
    SameOutcome (run o t v s stage) (run o t w s stage) := by
  cases stage with
  | wrap => exact absurd rfl hs
  | convertCodes => exact convertCodes_alike h s
  | hoist => exact .ok ⟨rfl, h⟩
  | shorten | consolidate =>
    refine (Outcome.Rel.refl_of _ fun s => rfl).onto (R := Eq) ?_
    rintro a b rfl
    exact ⟨rfl, h⟩
  | resolveConflicts =>
    exact sameOutcome_of_carry h (Pass.resolveConflicts_local o.lookahead s) nofun id
      fun _ ps => ps
  | descriptiveNames =>
    exact sameOutcome_of_carry h (Pass.describe_local t.constructors s) nofun id fun _ ps => ps
  | liftParameters =>
    have hsame := sameOutcome_of_carry h (Pass.liftParameters_local t.setters t.isIgnoredKey s)
      nofun Prod.fst fun x _ => x.2
    rw [Outcome.onto_onto, Outcome.onto_onto] at hsame
    exact hsame

end Stage

end ActionLog
