import ActionLog.Proofs.Isolation

/-!
# Every failing entry is accounted for

* `Declaration.FirstMalformed` — the first declaration of a text that cannot be split;
  `Declaration.extract_eq_error` says that this is what extraction complains about;
* `FaultList.foldl_add` — faults at different positions are all kept;
* `Pipeline.mem_faultsOf`, `Pipeline.faultsOf_increasing` — one fault for each entry that failed, in
  order;
* `Event.report?` — what the reporter is told; `Pipeline.reports_eventsOf` says that these are the
  faults.

Principal result: `Pipeline.failures_accounted`.
-/

set_option autoImplicit false

namespace ActionLog

/-! ## Malformed declarations -/

namespace Declaration

/-- The first declaration line of a text that cannot be split, with its number. -/
structure FirstMalformed (s : Text) (bad : BadLine) : Prop where
  numbered : ∃ i, bad.number = i + 1 ∧ (Text.lines s)[i]? = some bad.text
  isDeclaration : isDeclaration bad.text = true
  rejected : parse? bad.text = none
  /-- All declarations on earlier lines can be split. -/
  earlier : ∀ j l, j + 1 < bad.number → (Text.lines s)[j]? = some l →
    Declaration.isDeclaration l = true → (parse? l).isSome = true

/-- The line at fault stands behind lines without a fault. -/
theorem scanLines_eq_some {ls : List Text} {bad : BadLine} :
    ∀ {number : Nat}, (scanLines number ls).2 = some bad →
      ∃ i, bad.number = number + i ∧ ls[i]? = some bad.text ∧ isDeclaration bad.text = true ∧
        parse? bad.text = none ∧ ∀ j l, j < i → ls[j]? = some l → isDeclaration l = true →
          (parse? l).isSome = true := by
  induction ls with
  | nil =>
    intro number h
    cases h
  | cons line ls ih =>
    intro number h
    -- the fault of the lines to come, behind a line without one
    have hnext : (scanLines (number + 1) ls).2 = some bad →
        (isDeclaration line = true → (parse? line).isSome = true) →
        ∃ i, bad.number = number + i ∧ (line :: ls)[i]? = some bad.text ∧
          isDeclaration bad.text = true ∧ parse? bad.text = none ∧
          ∀ j l, j < i → (line :: ls)[j]? = some l → isDeclaration l = true →
            (parse? l).isSome = true := by
      intro hrest hline
      obtain ⟨i, hnumber, htext, hdecl, hparse, hearlier⟩ := ih hrest
      refine ⟨i + 1, by omega, htext, hdecl, hparse, ?_⟩
      intro j l hj hl
      cases j with
      | zero =>
        cases hl
        exact hline
      | succ j => exact hearlier j l (by omega) hl
    unfold scanLines at h
    by_cases hline : isDeclaration line = true
    · rw [if_pos hline] at h
      cases hparse : parse? line with
      | none =>
        rw [hparse] at h
        cases h
        refine ⟨0, rfl, rfl, hline, hparse, ?_⟩
        intro j l hj
        omega
      | some d =>
        rw [hparse] at h
        apply hnext h
        intro _
        rw [hparse]
        rfl
    · rw [if_neg hline] at h
      exact hnext h fun hdecl => absurd hdecl hline

/-- **Extraction complains about the first malformed declaration.** -/
theorem extract_eq_error {s : Text} {bad : BadLine} (h : extract s = .error bad) :
    FirstMalformed s bad := by
  have hscan : (scan s).2 = some bad := by
    unfold extract at h
    split at h
    · cases h
    · rename_i ds bad' hscan
      cases h
      rw [hscan]
  obtain ⟨i, hnumber, htext, hdecl, hparse, hearlier⟩ := scanLines_eq_some hscan
  refine ⟨⟨i, by omega, htext⟩, hdecl, hparse, ?_⟩
  intro j l hj hl
  exact hearlier j l (by omega) hl

end Declaration

/-! ## Faults of entries -/

/-- **Faults at different positions are all kept**, in the order they are added. -/
theorem FaultList.foldl_add (fs : List Fault) : ∀ l : FaultList,
    (l.faults ++ fs).Pairwise (fun f g => f.position ≠ g.position) →
      fs.foldl FaultList.add l = ⟨l.faults ++ fs⟩ := by
  induction fs with
  | nil =>
    intro l _
    rw [List.append_nil]
    rfl
  | cons f fs ih =>
    intro l h
    have hnew : l.faults.any (·.same f) = false := by
      rw [List.any_eq_false]
      intro g hg
      have hne := (List.pairwise_append.mp h).2.2 g hg f List.mem_cons_self
      simp [Fault.same, hne]
    have hadd : l.add f = ⟨l.faults ++ [f]⟩ := by
      unfold FaultList.add
      rw [hnew]
      rfl
    rw [List.append_cons] at h
    rw [List.foldl_cons, hadd, ih _ h, ← List.append_cons]

namespace Pipeline

variable {cs : List Cleaned} {f : Fault}

/-- **There is a fault for each entry that failed, and no other.** -/
theorem mem_faultsOf : ∀ {n : Nat}, f ∈ faultsOf n cs ↔
    ∃ i c stage bad, cs[i]? = some c ∧ c.failure = some (stage, bad) ∧
      f = Fault.ofFailure (n + i) stage bad := by
  induction cs with
  | nil =>
    intro n
    simp [faultsOf]
  | cons c cs ih =>
    intro n
    rw [faultsOf, List.mem_append, ih, Option.mem_toList, Option.map_eq_some_iff]
    constructor
    · rintro (⟨⟨stage, bad⟩, hc, rfl⟩ | ⟨i, c', stage, bad, hc', hf, rfl⟩)
      · exact ⟨0, c, stage, bad, rfl, hc, rfl⟩
      · exact ⟨i + 1, c', stage, bad, hc', hf, by rw [Nat.add_assoc, Nat.add_comm 1 i]⟩
    · rintro ⟨i, c', stage, bad, hc', hf, rfl⟩
      cases i with
      | zero =>
        cases hc'
        exact .inl ⟨(stage, bad), hf, rfl⟩
      | succ i => exact .inr ⟨i, c', stage, bad, hc', hf, by rw [Nat.add_assoc, Nat.add_comm 1 i]⟩

/-- **Faults come in the order of the entries**, no two of one entry. -/
theorem faultsOf_increasing (cs : List Cleaned) :
    ∀ n, (faultsOf n cs).Pairwise (fun f g => f.position.block < g.position.block) := by
  induction cs with
  | nil =>
    intro n
    exact .nil
  | cons c cs ih =>
    intro n
    have hlater : ∀ f ∈ faultsOf (n + 1) cs, (n : Int) < f.position.block := by
      intro f hf
      obtain ⟨i, _, _, _, _, _, rfl⟩ := mem_faultsOf.mp hf
      show (n : Int) < ((n + 1 + i : Nat) : Int)
      omega
    rw [faultsOf]
    cases hc : c.failure with
    | none => exact ih (n + 1)
    | some x => exact .cons hlater (ih (n + 1))

theorem length_faultsOf (cs : List Cleaned) :
    ∀ n, (faultsOf n cs).length = cs.countP (·.failure.isSome) := by
  induction cs with
  | nil =>
    intro n
    rfl
  | cons c cs ih =>
    intro n
    rw [faultsOf, List.length_append, ih, List.countP_cons]
    cases c.failure with
    | none => simp
    | some x => simp [Nat.add_comm]

/-- No fault is dropped as a repetition, even where entries fail alike: their numbers differ. -/
theorem foldl_faultsOf (cs : List Cleaned) :
    (faultsOf 1 cs).foldl FaultList.add .empty = ⟨faultsOf 1 cs⟩ := by
  apply FaultList.foldl_add
  refine (faultsOf_increasing cs 1).imp ?_
  intro f g hlt heq
  rw [heq] at hlt
  exact Int.lt_irrefl _ hlt

end Pipeline

/-! ## What the reporter is told -/

/-- What an event tells the reporter, if anything. -/
def Event.report? : Event → Option Text
  | .reported message => some message
  | .cleaning .. | .done .. | .cleaned .. => none

namespace Pipeline

variable {ρ : Type} [Resolver ρ] {o : Options} {t : Tables} {cs : List Cleaned}

/-- Stages tell the reporter nothing. -/
theorem runStages_silent (stages : List Stage) : ∀ {w w' : Work ρ} {s : Text} {c : Cleaned},
    runStages o t stages w s = (.ok c, w') → c.events.filterMap Event.report? = [] := by
  induction stages with
  | nil =>
    intro w w' s c h
    cases h
    rfl
  | cons stage stages ih =>
    intro w w' s c h
    unfold runStages at h
    cases hr : stage.run o t w s with
    | error e =>
      rw [hr] at h
      cases e with
      | malformed bad back =>
        cases h
        rfl
      | aborted cause => cases h
    | ok x =>
      obtain ⟨out, w₁⟩ := x
      rw [hr] at h
      dsimp only at h
      cases hrest : runStages o t stages w₁ out with
      | mk result w₂ =>
        rw [hrest] at h
        cases result with
        | error cause => cases h
        | ok c₁ =>
          have hsilent := ih hrest
          cases h
          exact hsilent

/-- An entry whose stages told the reporter nothing, and whose failure, if it has one, is the first
malformed declaration of the text that it became. -/
structure Answerable (c : Cleaned) : Prop where
  silent : c.events.filterMap Event.report? = []
  malformed : ∀ stage bad, c.failure = some (stage, bad) → Declaration.FirstMalformed c.text bad

theorem cleanEntry_answerable {p q : Pipeline ρ} {e : Text} {c : Cleaned}
    (h : p.cleanEntry e = (.ok c, q)) : Answerable c := by
  constructor
  · rw [cleanEntry_eq] at h
    exact runStages_silent _ (Prod.ext (Prod.mk.inj h).1 rfl)
  · intro stage bad hf
    obtain ⟨⟨before, after, w, _, _, hrun⟩, _⟩ := cleanEntry_failed h hf
    exact Declaration.extract_eq_error (Stage.run_malformed_iff.mp hrun).2.1

/-- **The reporter is told the faults**, in order. -/
theorem reports_eventsOf {es : List Text} (h : List.Forall₂ (fun _ c => Answerable c) es cs) :
    ∀ n, (eventsOf n es cs).filterMap Event.report? = (faultsOf n cs).map Fault.text := by
  induction h with
  | nil =>
    intro n
    rfl
  | @cons e c es cs hc _ ih =>
    intro n
    have hone : faultsOf n (c :: cs) = faultsOf n [c] ++ faultsOf (n + 1) cs := by
      simp [faultsOf]
    have htold : ((faultsOf n [c]).map fun f => Event.reported f.text).filterMap Event.report? =
        (faultsOf n [c]).map Fault.text := by
      simp [List.filterMap_map, Function.comp_def, Event.report?]
    have hstart : Event.report? (.cleaning n e.lines.length) = none := rfl
    rw [eventsOf, List.filterMap_append, List.cons_append, List.filterMap_cons_none hstart,
      List.filterMap_append, hc.silent, List.nil_append, htold, ih, hone, List.map_append]

/-! ## Whole logs -/

/-- The whole report of a log in which no pass aborts. -/
theorem process_report {p q : Pipeline ρ} {log : Text}
    (h : p.forgetFunctions.cleanInOrder (Log.entries log) = (cs.map .ok, q)) :
    p.process log = (.ok
      { text := Log.write (Log.isSeparated log) (cs.map (·.text))
        faults := ⟨faultsOf 1 cs⟩
        reports := (faultsOf 1 cs).map Fault.text
        events := eventsOf 1 (Log.entries log) cs ++
          [.cleaned (Log.entries log).length (faultsOf 1 cs).length] }, q) := by
  have hentries := cleanEntries_of_cleanInOrder h
  unfold forgetFunctions at hentries
  simp only [process, hentries, foldl_faultsOf]
  rfl

/-- **Failures are accounted for exactly.**  Where no pass aborts, the report of a log holds one
fault for each entry that failed and no other, in the order of the entries and with their numbers, so
that there are none exactly if no entry failed.  The reporter is told the texts of these faults.
Each of them names the first malformed declaration of the text that was given out for the entry, and
the line where it stands. -/
theorem failures_accounted (p : Pipeline ρ) (log : Text) (cs : List Cleaned) (q : Pipeline ρ)
    (h : p.forgetFunctions.cleanInOrder (Log.entries log) = (cs.map .ok, q)) :
    cs.length = (Log.entries log).length ∧
    ∃ report, p.process log = (.ok report, q) ∧
      report.text = Log.write (Log.isSeparated log) (cs.map (·.text)) ∧
      (report.faults.size = 0 ↔ ∀ c ∈ cs, c.failure = none) ∧
      report.faults.size = cs.countP (·.failure.isSome) ∧
      (report.faults.faults.map (·.position.block)).Pairwise (· < ·) ∧
      (∀ n : Int, n ∈ report.faults.faults.map (·.position.block) ↔
        ∃ (i : Nat) (c : Cleaned), n = i + 1 ∧ cs[i]? = some c ∧ c.failure.isSome = true) ∧
      report.reports = report.faults.faults.map Fault.text ∧
      report.events.filterMap Event.report? = report.reports ∧
      ∀ f ∈ report.faults.faults, ∃ (i : Nat) (c : Cleaned) (stage : Stage) (bad : BadLine),
        cs[i]? = some c ∧ c.failure = some (stage, bad) ∧
        f.position = ⟨i + 1, bad.number⟩ ∧ f.pass = stage.label ∧
        f.message = BadLine.complaint ++ utf8 ": " ++ bad.text ∧
        Declaration.FirstMalformed c.text bad := by
  have hanswer : List.Forall₂ (fun _ c => Answerable c) (Log.entries log) cs :=
    cleanInOrder_each (I := fun _ => True) (fun _ _ => trivial)
      (fun _ hclean => cleanEntry_answerable hclean) trivial h
  refine ⟨hanswer.length_eq.symm, _, process_report h, rfl, ?_, length_faultsOf cs 1, ?_, ?_, rfl,
    ?_, ?_⟩
  · show (faultsOf 1 cs).length = 0 ↔ _
    rw [length_faultsOf, List.countP_eq_zero]
    simp
  · rw [List.pairwise_map]
    exact faultsOf_increasing cs 1
  · intro n
    rw [List.mem_map]
    constructor
    · rintro ⟨f, hf, rfl⟩
      obtain ⟨i, c, stage, bad, hc, hfail, rfl⟩ := mem_faultsOf.mp hf
      refine ⟨i, c, ?_, hc, by rw [hfail]; rfl⟩
      show ((1 + i : Nat) : Int) = i + 1
      omega
    · rintro ⟨i, c, rfl, hc, hfail⟩
      obtain ⟨⟨stage, bad⟩, hfail⟩ := Option.isSome_iff_exists.mp hfail
      refine ⟨_, mem_faultsOf.mpr ⟨i, c, stage, bad, hc, hfail, rfl⟩, ?_⟩
      show ((1 + i : Nat) : Int) = i + 1
      omega
  · show (eventsOf 1 (Log.entries log) cs ++ _).filterMap Event.report? = _
    rw [List.filterMap_append, reports_eventsOf hanswer]
    exact List.append_nil _
  · intro f hf
    obtain ⟨i, c, stage, bad, hc, hfail, rfl⟩ := mem_faultsOf.mp hf
    refine ⟨i, c, stage, bad, hc, hfail, ?_, rfl, rfl, ?_⟩
    · show (⟨((1 + i : Nat) : Int), bad.number⟩ : Position) = _
      rw [Position.mk.injEq]
      exact ⟨by omega, rfl⟩
    · obtain ⟨hi, rfl⟩ := List.getElem?_eq_some_iff.mp hc
      exact (hanswer.get (hanswer.length_eq ▸ hi) hi).malformed stage bad hfail

/-- A log whose first and third entries fail alike. -/
def repeatedLog : Text := Log.write true
  [utf8 "var a = 1; var b;", utf8 "f(1);", utf8 "var a = 1; var b;"]

/-- What the entries of `repeatedLog` become. -/
def repeatedCleaned : List Cleaned :=
  (builtin.forgetFunctions.cleanInOrder (Log.entries repeatedLog)).1.filterMap (·.toOption)

/-- Entries that fail alike have a fault each. -/
theorem failures_accounted_repeated :
    builtin.forgetFunctions.cleanInOrder (Log.entries repeatedLog) = (repeatedCleaned.map .ok,
      (builtin.forgetFunctions.cleanInOrder (Log.entries repeatedLog)).2) ∧
    ∃ report q, builtin.process repeatedLog = (.ok report, q) ∧ report.faults.size = 2 ∧
      1 ∈ report.faults.faults.map (·.position.block) ∧
      3 ∈ report.faults.faults.map (·.position.block) := by
  have hok : builtin.forgetFunctions.cleanInOrder (Log.entries repeatedLog) =
      (repeatedCleaned.map .ok,
        (builtin.forgetFunctions.cleanInOrder (Log.entries repeatedLog)).2) :=
    Prod.ext (by decide +kernel) rfl
  obtain ⟨_, report, hreport, _, _, hsize, _, hblocks, _⟩ :=
    failures_accounted builtin repeatedLog repeatedCleaned _ hok
  have hfails : ∀ i ∈ [0, 2], (repeatedCleaned[i]?.any (·.failure.isSome)) = true := by
    decide +kernel
  have hblock : ∀ i ∈ [0, 2],
      ((i : Nat) : Int) + 1 ∈ report.faults.faults.map (·.position.block) := by
    intro i hi
    obtain ⟨c, hc, hfail⟩ := (Option.any_eq_true _ _).mp (hfails i hi)
    exact (hblocks _).mpr ⟨i, c, rfl, hc, hfail⟩
  refine ⟨hok, report, _, hreport, hsize.trans (by decide +kernel), ?_, ?_⟩
  · exact hblock 0 (by decide)
  · exact hblock 2 (by decide)

end Pipeline

end ActionLog
