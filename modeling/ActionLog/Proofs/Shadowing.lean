import ActionLog.Proofs.Wrap

/-!
# Parameters and variables of one function

Parameters and variables of a function are named in scopes of their own, and no scope sees the names
of another.  So a variable may have the name of a parameter, and then takes its value away.

* `Pass.liftedKeys` — the keys whose values are lifted from a text;
  `Pass.liftLines_handOut` says that parameters are named after them one after another;
* `Stage.untilLift` — the stages before parameters are lifted;
* `Pipeline.Shadowed` — a parameter of a function and a variable declared in it have one name.

Principal results: `Pipeline.parameter_shadowed` — this happens — and
`Pipeline.shadowed_iff_handed_out` — it takes a variable with one of the names that are handed out
for the keys whose values were lifted.
-/

set_option autoImplicit false

namespace ActionLog

open Declaration (isDeclaration nameOf)

/-! ## Parameters are named after their keys -/

namespace Pass

/-- The keys of the setter calls in a text whose values are lifted, in order. -/
def liftedKeys (setters : List Text) (ignored : Text → Bool) (s : Text) : List Text :=
  ((Text.lines s).filterMap (setting? setters ignored)).map (·.key)

/-- **Parameters are named after their keys**, one after another. -/
theorem liftLines_handOut (setters : List Text) (ignored : Text → Bool) :
    ∀ (ls : List Text) (offset : Nat) (names : Registry),
      (liftLines setters ignored offset ls names).2.1.map (·.name) =
        Registry.handOut names.parameters
          ((ls.filterMap (setting? setters ignored)).map (·.key))
  | [], _, _ => rfl
  | line :: ls, offset, names => by
    unfold liftLines
    cases hx : setting? setters ignored line with
    | none =>
      rw [List.filterMap_cons_none hx]
      exact liftLines_handOut setters ignored ls _ names
    | some x =>
      rw [List.filterMap_cons_some hx]
      exact congrArg (_ :: ·) (liftLines_handOut setters ignored ls _ _)

end Pass

/-! ## The stages before lifting -/

namespace Stage

variable {ρ : Type} [Resolver ρ] {o : Options} {t : Tables}

/-- The stages that options ask for, up to the lifting of parameters. -/
def untilLift (o : Options) : List Stage := (inner o).filter (· != liftParameters)

theorem inner_of_lift (hlift : o.liftParameters = true) (hwrap : o.wrap = true) :
    inner o = untilLift o ++ [liftParameters] := by
  have hinner : inner o = (all.filter (· != wrap)).filter (isEnabled o) := List.filter_comm ..
  have hall : all.filter (· != wrap) = [resolveConflicts, hoist, consolidate, descriptiveNames,
      convertCodes, shorten] ++ [liftParameters] := rfl
  have henabled : isEnabled o liftParameters = true := by simp [isEnabled, hlift, hwrap]
  have hearlier : ∀ x ∈ [resolveConflicts, hoist, consolidate, descriptiveNames, convertCodes,
      shorten], (x != liftParameters) = true := by decide
  rw [hall, List.filter_append, List.filter_singleton, henabled] at hinner
  generalize [resolveConflicts, hoist, consolidate, descriptiveNames, convertCodes, shorten] =
    earlier at hinner hearlier
  have hkept : (earlier.filter (isEnabled o)).filter (· != liftParameters) =
      earlier.filter (isEnabled o) := by
    rw [List.filter_eq_self]
    exact fun x hx => hearlier x (List.mem_filter.mp hx).1
  unfold untilLift
  rw [hinner, List.filter_append, hkept]
  simp

theorem scope?_of_untilLift {stage : Stage} (h : stage ∈ untilLift o) :
    stage.scope? ≠ some .parameters := by
  have hne : stage ≠ liftParameters := by simpa using (List.mem_filter.mp h).2
  cases stage with
  | liftParameters => exact absurd rfl hne
  | resolveConflicts | hoist | consolidate | descriptiveNames | convertCodes | shorten
  | wrap => decide

theorem chain_concat_ok {stages : List Stage} {stage : Stage} {w w' : Work ρ} {s s' : Text}
    (h : chain o t (stages ++ [stage]) w s = .ok (s', w')) :
    ∃ s₁ w₁, chain o t stages w s = .ok (s₁, w₁) ∧ stage.run o t w₁ s₁ = .ok (s', w') := by
  induction stages generalizing w s with
  | nil =>
    obtain ⟨s₁, w₁, hrun, hrest⟩ := Pipeline.chain_cons_ok h
    cases hrest
    exact ⟨s, w, rfl, hrun⟩
  | cons first stages ih =>
    obtain ⟨s₁, w₁, hrun, hrest⟩ := Pipeline.chain_cons_ok h
    rw [chain_cons hrun]
    exact ih hrest

/-- What lifting leaves as the parameters of an entry. -/
theorem run_liftParameters {w w' : Work ρ} {s s' : Text}
    (h : liftParameters.run o t w s = .ok (s', w')) : w'.parameters.map (·.name) =
      Registry.handOut w.names.parameters (Pass.liftedKeys t.setters t.isIgnoredKey s) := by
  obtain ⟨⟨out, params, names⟩, hx, heq⟩ := Outcome.onto_eq_ok h
  cases heq
  obtain rfl : params = _ := congrArg Prod.fst (Pass.liftParameters_eq_ok hx).2
  exact Pass.liftLines_handOut t.setters t.isIgnoredKey (Text.lines s) 0 w.names

end Stage

/-! ## Shadowed parameters -/

namespace Pipeline

variable {ρ : Type} [Resolver ρ]

/-- A parameter has the name that a declaration in the body of its function declares. -/
def Shadowed (params : List Pass.Parameter) (body : Text) : Prop :=
  ∃ x ∈ params, ∃ line ∈ Text.lines body, isDeclaration line = true ∧ nameOf line = x.name

instance (params : List Pass.Parameter) (body : Text) : Decidable (Shadowed params body) :=
  inferInstanceAs (Decidable (∃ x ∈ params, _))

/-- **A parameter is shadowed exactly where a variable has a name that a key is given.**  The
parameters of a function are pairwise distinct identifiers and not reserved, but they are handed out
without a look at the variables of the body.  Where no variable has the core of a key whose value was
lifted, none of them is shadowed. -/
theorem shadowed_iff_handed_out (p q : Pipeline ρ) (e : Text) (c : Cleaned)
    (hlift : p.options.liftParameters = true) (hwrap : p.options.wrap = true)
    (h : p.cleanEntry e = (.ok c, q)) (hc : c.failure = none) :
    ∃ s w name params body,
      Stage.chain p.options p.tables (Stage.untilLift p.options) p.workbench (Pass.normalize e) =
        .ok (s, w) ∧
      p.unwrapped e = .ok (body, params) ∧ c.text = Pass.functionText name params body ∧
      (params.map (·.name)).Nodup ∧
      (∀ x ∈ params, Name.IsIdentifier x.name ∧ x.name ∉ p.names.reserved) ∧
      (Shadowed params body ↔ ∃ line ∈ Text.lines body, isDeclaration line = true ∧
        nameOf line ∈ Registry.handOut p.names.reserved
          (Pass.liftedKeys p.tables.setters p.tables.isIgnoredKey s)) ∧
      ((∀ line ∈ Text.lines body, isDeclaration line = true →
          ∀ key ∈ Pass.liftedKeys p.tables.setters p.tables.isIgnoredKey s,
            Name.core (nameOf line) ≠ Name.core key) → ¬ Shadowed params body) := by
  obtain ⟨body, w₁, hchain, htext, _⟩ := cleanEntry_function hwrap h hc
  have hunwrapped : p.unwrapped e = .ok (body, w₁.parameters) := by rw [unwrapped, hchain]; rfl
  rw [Stage.inner_of_lift hlift hwrap] at hchain
  obtain ⟨s, w, huntil, hrun⟩ := Stage.chain_concat_ok hchain
  have hparams := Stage.run_liftParameters hrun
  have hreserved : w.names.parameters = p.names.reserved :=
    Stage.chain_taken .parameters (fun _ => Stage.scope?_of_untilLift) huntil
  rw [hreserved] at hparams
  have hnames : ∀ x ∈ w₁.parameters, x.name ∈ Registry.handOut p.names.reserved
      (Pass.liftedKeys p.tables.setters p.tables.isIgnoredKey s) := by
    intro x hx
    rw [← hparams]
    exact List.mem_map_of_mem hx
  refine ⟨s, w, _, w₁.parameters, body, huntil, hunwrapped, htext, ?_, fun x hx => ?_, ⟨?_, ?_⟩, ?_⟩
  · rw [hparams]
    exact (Registry.handOut_fresh _ _).1
  · exact ⟨Registry.handOut_isIdentifier _ _ _ (hnames x hx),
      (Registry.handOut_fresh _ _).2 _ (hnames x hx)⟩
  · rintro ⟨x, hx, line, hline, hdecl, hname⟩
    exact ⟨line, hline, hdecl, hname ▸ hnames x hx⟩
  · rintro ⟨line, hline, hdecl, hmem⟩
    rw [← hparams] at hmem
    obtain ⟨x, hx, hname⟩ := List.mem_map.mp hmem
    exact ⟨x, hx, line, hline, hdecl, hname.symm⟩
  · rintro hcores ⟨x, hx, line, hline, hdecl, hname⟩
    -- the parameter has the core of the key that it is named after
    have hcore : Name.core x.name ∈
        (Pass.liftedKeys p.tables.setters p.tables.isIgnoredKey s).map Name.core := by
      rw [← Registry.map_core_handOut p.names.reserved]
      exact List.mem_map_of_mem (hnames x hx)
    obtain ⟨key, hkey, heq⟩ := List.mem_map.mp hcore
    exact hcores line hline hdecl key hkey (by rw [hname, heq])

/-- An entry that sets a width, while the variable `v` holds another one. -/
def settingEntry (v : Text) : Text :=
  utf8 "var " ++ v ++ utf8 " = f(); d.putDouble( s2t( \"width\" ), 500 ); g(" ++ v ++
    utf8 " + 1); executeAction( \"set\" );"

/-- The body of its function, with what the setter is given. -/
def settingBody (v value : Text) : Text :=
  utf8 "var " ++ v ++ utf8 " = f();\n\nd.putDouble( s2t( \"width\" ), " ++ value ++ utf8 " );\ng(" ++
    v ++ utf8 " + 1);\nexecuteAction( \"set\" );"

/-- A variable whose name has another core leaves the parameter alone. -/
theorem shadowed_iff_handed_out_size :
    Options.all.liftParameters = true ∧ Options.all.wrap = true ∧
    ∃ c q, builtin.cleanEntry (settingEntry (utf8 "size")) = (.ok c, q) ∧ c.failure = none ∧
      ∃ name params, c.text =
          Pass.functionText name params (settingBody (utf8 "size") (utf8 "width")) ∧
        params = [⟨utf8 "width", utf8 "500"⟩] ∧
        ¬ Shadowed params (settingBody (utf8 "size") (utf8 "width")) := by
  have hrun : (builtin.cleanEntry (settingEntry (utf8 "size"))).1.toOption.map (·.failure) =
      some none := by decide +kernel
  refine ⟨rfl, rfl, ?_⟩
  cases h : builtin.cleanEntry (settingEntry (utf8 "size")) with
  | mk result q =>
    rw [h] at hrun
    cases result with
    | error cause => cases hrun
    | ok c =>
      have hc : c.failure = none := Option.some.inj hrun
      obtain ⟨s, w, name, params, body, hchain, hunwrapped, htext, _, _, hiff, _⟩ :=
        shadowed_iff_handed_out builtin q (settingEntry (utf8 "size")) c rfl rfl h hc
      have hs : (Stage.chain builtin.options builtin.tables (Stage.untilLift builtin.options)
          builtin.workbench (Pass.normalize (settingEntry (utf8 "size")))).toOption.map (·.1) =
            some (settingBody (utf8 "size") (utf8 "500")) := by decide +kernel
      have hbody : (builtin.unwrapped (settingEntry (utf8 "size"))).toOption =
          some (settingBody (utf8 "size") (utf8 "width"), [⟨utf8 "width", utf8 "500"⟩]) := by
        decide +kernel
      rw [hchain] at hs
      rw [hunwrapped] at hbody
      obtain ⟨rfl, rfl⟩ := Prod.mk.inj (Option.some.inj hbody)
      obtain rfl := Option.some.inj hs
      refine ⟨c, q, rfl, hc, name, _, htext, rfl, fun hshadowed => ?_⟩
      have hnone : ¬ ∃ line ∈ Text.lines (settingBody (utf8 "size") (utf8 "width")),
          isDeclaration line = true ∧ nameOf line ∈ Registry.handOut builtin.names.reserved
            (Pass.liftedKeys builtin.tables.setters builtin.tables.isIgnoredKey
              (settingBody (utf8 "size") (utf8 "500"))) := by decide +kernel
      exact hnone (hiff.mp hshadowed)

/-- **A parameter can be shadowed**: the width that was lifted never reaches its setter. -/
theorem parameter_shadowed :
    (builtin.cleanEntry (settingEntry (utf8 "width"))).1.toOption.map
        (fun c => (c.text, c.failure)) =
      some (Pass.functionText (utf8 "set") [⟨utf8 "width", utf8 "500"⟩]
        (settingBody (utf8 "width") (utf8 "width")), none) ∧
    Shadowed [⟨utf8 "width", utf8 "500"⟩] (settingBody (utf8 "width") (utf8 "width")) := by
  decide +kernel

end Pipeline

end ActionLog
