import ActionLog.Proofs.Conflict

/-!
# What initialisers refer to

Renamings pass over declarations, so that the value of a declaration is never rewritten, whatever
the window.  A name in it stands for the declarations that still have that name above it, and those
are the ones with the first value of the name.

* `reachingValue?` — the value of the last declaration of a name above a line;
* `LineResolved` — what becomes of a line; `Passage.lineResolved` says it of all lines;
* `firstValue_eq` — the first value of a name stands on the first line that declares it;
* `reachingValue?_resolved` — the value that a name has above a line afterwards.

Principal results: `resolveConflicts_initialiser` — an initialiser refers to the value that it
referred to before exactly if that was the first value of the name — and `initialiser_astray`.
-/

set_option autoImplicit false

namespace ActionLog.Pass

open Declaration (isDeclaration nameOf valueOf onLine? WellFormed extract)

/-- The value of the last declaration of a name among the lines above. -/
def reachingValue? (n : Text) (above : List Text) : Option Text :=
  (above.reverse.find? (declares n)).map valueOf

/-! ## Lines one by one -/

/-- What becomes of a line.  A declaration keeps its value.  It keeps its name if the value is the
first one of that name, and gets a name that is declared nowhere otherwise. -/
structure LineResolved (ds : List Declaration) (line out : Text) : Prop where
  declaration : isDeclaration out = isDeclaration line
  value : isDeclaration line = true → valueOf out = valueOf line
  name : isDeclaration line = true →
    (firstValue ds (nameOf line) = some (valueOf line) ∧ nameOf out = nameOf line) ∨
    (firstValue ds (nameOf line) ≠ some (valueOf line) ∧ nameOf out ∉ ds.map (·.name))

/-- **A passage resolves its lines one by one**, whatever the renamings under way. -/
theorem Passage.lineResolved {ds : List Declaration} {window : Option Nat}
    {names names' : Registry} {active : List Renaming} {ls os : List Text}
    (h : Passage (conflicts ds) (ds.map (·.name)) window names active ls os names')
    (hds : ∀ d ∈ ds, onLine? d.line = some d) (hls : WellFormed ls)
    (hmem : ∀ l ∈ ls, ∀ d, onLine? l = some d → d ∈ ds) :
    List.Forall₂ (LineResolved ds) ls os := by
  induction h with
  | nil => exact .nil
  | @other names names' active line ls os hline hout _ _ ih =>
    rw [WellFormed, List.forall_mem_cons] at hls
    rw [List.forall_mem_cons] at hmem
    refine .cons ⟨hout.trans hline.symm, ?_, ?_⟩ (ih hls.2 hmem.2)
    · intro hdecl
      rw [hline] at hdecl
      cases hdecl
    · intro hdecl
      rw [hline] at hdecl
      cases hdecl
  | @kept names names' active line ls os hline hclash _ ih =>
    rw [WellFormed, List.forall_mem_cons] at hls
    rw [List.forall_mem_cons] at hmem
    refine .cons ⟨rfl, fun _ => rfl, fun _ => .inl ⟨?_, rfl⟩⟩ (ih hls.2 hmem.2)
    obtain ⟨d, hd⟩ := hls.1.2 hline
    obtain ⟨hdline, hdname, hdvalue, _⟩ := Declaration.line_of_onLine? hd
    rw [← hdname, ← hdvalue]
    by_contra hne
    exact hclash d (List.mem_filter.mpr ⟨hmem.1 d hd, by simpa using hne⟩) hdline
  | @renamed names names₁ names' active d name ls os hd hname _ ih =>
    rw [WellFormed, List.forall_mem_cons] at hls
    rw [List.forall_mem_cons] at hmem
    obtain ⟨hdds, hclash⟩ := List.mem_filter.mp hd
    obtain ⟨hline, hparse⟩ := Declaration.onLine?_eq_some.mp (hds d hdds)
    obtain ⟨_, hdname, hdvalue, _⟩ := Declaration.line_of_onLine? (hds d hdds)
    have hfresh := hname.spec.1
    obtain ⟨hout, _, hparse'⟩ := Declaration.rename_spec hline hls.1.1 hparse
      hfresh.identifier.ne_nil hfresh.identifier.isRun
    obtain ⟨_, hname', hvalue', _⟩ :=
      Declaration.line_of_onLine? (Declaration.onLine?_eq_some.mpr ⟨hout, hparse'⟩)
    refine .cons
      ⟨hout.trans hline.symm, fun _ => hvalue'.symm.trans hdvalue, fun _ => .inr ⟨?_, ?_⟩⟩
      (ih hls.2 hmem.2)
    · rw [← hdname, ← hdvalue]
      simpa using hclash
    · rw [← hname']
      exact hfresh.undeclared

/-- A declared name is left to the declarations with its first value. -/
theorem LineResolved.declares_iff {ds : List Declaration} {line out n : Text}
    (h : LineResolved ds line out) (hn : n ∈ ds.map (·.name)) :
    declares n out = true ↔
      declares n line = true ∧ firstValue ds n = some (valueOf line) := by
  rw [Pass.declares_iff, Pass.declares_iff, h.declaration]
  constructor
  · rintro ⟨hline, rfl⟩
    rcases h.name hline with ⟨hfirst, hname⟩ | ⟨_, hnot⟩
    · rw [hname]
      exact ⟨⟨hline, rfl⟩, hfirst⟩
    · exact absurd hn hnot
  · rintro ⟨⟨hline, rfl⟩, hfirst⟩
    rcases h.name hline with ⟨_, hname⟩ | ⟨hne, _⟩
    · exact ⟨hline, hname⟩
    · exact absurd hfirst hne

/-! ## Values above a line -/

/-- **The first value of a name stands on the first line that declares it.** -/
theorem firstValue_eq {ls : List Text} (h : WellFormed ls) (n : Text) :
    firstValue (ls.filterMap onLine?) n = (ls.find? (declares n)).map valueOf := by
  induction ls with
  | nil => rfl
  | cons line ls ih =>
    rw [WellFormed, List.forall_mem_cons] at h
    by_cases hline : isDeclaration line = true
    · obtain ⟨d, hd⟩ := h.1.2 hline
      obtain ⟨_, hdname, hdvalue, _⟩ := Declaration.line_of_onLine? hd
      have hdeclares : declares n line = (d.name == n) := by rw [declares, hline, hdname]; rfl
      have hrest := ih h.2
      unfold firstValue at hrest ⊢
      rw [List.filterMap_cons_some hd, List.find?_cons, List.find?_cons, hdeclares]
      cases d.name == n with
      | true => exact congrArg some hdvalue
      | false => exact hrest
    · have hnone : onLine? line = none := by simp [onLine?, hline]
      have hdeclares : declares n line = false := by simp [declares, hline]
      rw [List.filterMap_cons_none hnone, List.find?_cons, hdeclares]
      exact ih h.2

theorem exists_of_forall₂ {α β : Type} {R : α → β → Prop} {as : List α} {bs : List β}
    (h : List.Forall₂ R as bs) {a : α} (ha : a ∈ as) : ∃ b ∈ bs, R a b := by
  induction h with
  | nil => cases ha
  | cons hab _ ih =>
    rcases List.mem_cons.mp ha with rfl | ha
    · exact ⟨_, List.mem_cons_self, hab⟩
    · obtain ⟨b, hb, hR⟩ := ih ha
      exact ⟨b, List.mem_cons_of_mem _ hb, hR⟩

theorem reachingValue?_eq_none {n : Text} {above : List Text} :
    reachingValue? n above = none ↔ ∀ l ∈ above, declares n l = false := by
  simp [reachingValue?, List.find?_eq_none]

theorem reachingValue?_eq_some {n v : Text} {above : List Text}
    (h : reachingValue? n above = some v) :
    ∃ l ∈ above, declares n l = true ∧ valueOf l = v := by
  obtain ⟨l, hl, rfl⟩ := Option.map_eq_some_iff.mp h
  exact ⟨l, List.mem_reverse.mp (List.mem_of_find?_eq_some hl), List.find?_some hl, rfl⟩

/-- **The value that a declared name has above a line afterwards**: its first value, if it was
declared there before. -/
theorem reachingValue?_resolved {ds : List Declaration} {above above' below : List Text} {n : Text}
    (h : List.Forall₂ (LineResolved ds) above above') (hn : n ∈ ds.map (·.name))
    (hwf : WellFormed (above ++ below)) (hds : ds = (above ++ below).filterMap onLine?) :
    reachingValue? n above' = (reachingValue? n above).bind fun _ => firstValue ds n := by
  have hback : List.Forall₂ (flip (LineResolved ds)) above' above := h.flip
  cases habove : reachingValue? n above with
  | none =>
    rw [reachingValue?_eq_none] at habove
    rw [Option.bind_none, reachingValue?_eq_none]
    intro o ho
    by_contra hdecl
    obtain ⟨l, hl, hres⟩ := exists_of_forall₂ hback ho
    have hnot := habove l hl
    rw [((LineResolved.declares_iff hres hn).mp (by simpa using hdecl)).1] at hnot
    cases hnot
  | some v =>
    -- the first declaration of the name stands above, and keeps the name
    obtain ⟨l, hl, hdecl, _⟩ := reachingValue?_eq_some habove
    obtain ⟨l₀, hfind⟩ : ∃ l₀, above.find? (declares n) = some l₀ :=
      Option.isSome_iff_exists.mp (List.find?_isSome.mpr ⟨l, hl, hdecl⟩)
    have hfirst : firstValue ds n = some (valueOf l₀) := by
      rw [hds, firstValue_eq hwf, List.find?_append, hfind]
      rfl
    obtain ⟨o₀, ho₀, hres₀⟩ := exists_of_forall₂ h (List.mem_of_find?_eq_some hfind)
    have hdecl₀ := (hres₀.declares_iff hn).mpr ⟨List.find?_some hfind, hfirst⟩
    rw [Option.bind_some]
    cases hout : reachingValue? n above' with
    | none =>
      have hnot := reachingValue?_eq_none.mp hout o₀ ho₀
      rw [hdecl₀] at hnot
      cases hnot
    | some v' =>
      obtain ⟨o, ho, hodecl, rfl⟩ := reachingValue?_eq_some hout
      obtain ⟨l', _, hres⟩ := exists_of_forall₂ hback ho
      obtain ⟨hdecl', hfirst'⟩ := (LineResolved.declares_iff hres hn).mp hodecl
      rw [hfirst', LineResolved.value hres (Pass.declares_iff.mp hdecl').1]

/-! ## Texts -/

/-- **What initialisers refer to after conflicts are resolved.**  The value of a declaration is kept
as it stands.  A declared name in it was given a value by its last declaration above; now it has the
first value of the name there, so that the value is the same exactly if it was the first one.  A
name that was not declared above is not declared there now. -/
theorem resolveConflicts_initialiser {s : Text} {ds : List Declaration} (window : Int)
    (names : Registry) (h : extract s = .ok ds) :
    ∃ (out : Text) (names' : Registry), resolveConflicts window names s = .ok (out, names') ∧
      (Text.lines out).length = (Text.lines s).length ∧
      ∀ (j : Nat) (line line' : Text), (Text.lines s)[j]? = some line →
        (Text.lines out)[j]? = some line' → isDeclaration line = true →
        isDeclaration line' = true ∧ valueOf line' = valueOf line ∧
        ∀ n ∈ ds.map (·.name),
          (reachingValue? n ((Text.lines s).take j) = none →
            reachingValue? n ((Text.lines out).take j) = none) ∧
          ∀ v, reachingValue? n ((Text.lines s).take j) = some v →
            reachingValue? n ((Text.lines out).take j) = firstValue ds n ∧
            (reachingValue? n ((Text.lines out).take j) = some v ↔ firstValue ds n = some v) := by
  obtain ⟨out, names', hout, _, hpass, _⟩ := resolveConflicts_passage h window names
  obtain ⟨hwf, hds⟩ := Declaration.extract_eq_ok.mp h
  have hlines : List.Forall₂ (LineResolved ds) (Text.lines s) (Text.lines out) :=
    hpass.lineResolved (fun d hd => Declaration.onLine?_of_mem h hd) hwf
      fun l hl d hd => (Declaration.mem_extract h).mpr ⟨l, hl, hd⟩
  refine ⟨out, names', hout, hlines.length_eq.symm, ?_⟩
  intro j line line' hline hline' hdecl
  obtain ⟨hj, rfl⟩ := List.getElem?_eq_some_iff.mp hline
  obtain ⟨hj', rfl⟩ := List.getElem?_eq_some_iff.mp hline'
  have hres : LineResolved ds (Text.lines s)[j] (Text.lines out)[j] := hlines.get hj hj'
  refine ⟨hres.declaration.trans hdecl, hres.value hdecl, fun n hn => ?_⟩
  rw [← List.take_append_drop j (Text.lines s)] at hwf hds
  rw [reachingValue?_resolved (List.forall₂_take j hlines) hn hwf hds]
  refine ⟨fun hnone => by rw [hnone]; rfl, fun v hv => ?_⟩
  rw [hv]
  exact ⟨rfl, Iff.rfl⟩

/-- A variable that is given the first value of a name, and one that is given the second. -/
def copied : Text := utf8 "var a = 1;\nvar b = a;\nvar a = 2;\nvar c = a;"

def copiedResolved : Text := utf8 "var a = 1;\nvar b = a;\nvar a_ = 2;\nvar c = a;"

def copiedDeclarations : List Declaration :=
  [⟨utf8 "a", utf8 "1", utf8 "var a = 1;"⟩, ⟨utf8 "b", utf8 "a", utf8 "var b = a;"⟩,
    ⟨utf8 "a", utf8 "2", utf8 "var a = 2;"⟩, ⟨utf8 "c", utf8 "a", utf8 "var c = a;"⟩]

theorem resolveConflicts_initialiser_copied :
    extract copied = .ok copiedDeclarations ∧
    ∃ (out : Text) (names' : Registry),
      resolveConflicts 0 (Registry.ofReserved []) copied = .ok (out, names') ∧
      reachingValue? (utf8 "a") ((Text.lines out).take 1) = some (utf8 "1") ∧
      reachingValue? (utf8 "a") ((Text.lines out).take 3) = some (utf8 "1") := by
  have hextract : extract copied = .ok copiedDeclarations := by decide +kernel
  have hresolved : resolveConflicts 0 (Registry.ofReserved []) copied =
      .ok (copiedResolved, ⟨[], [utf8 "a_"], [], []⟩) := by
    decide +kernel
  obtain ⟨out, names', hout, _, hlines⟩ :=
    resolveConflicts_initialiser 0 (Registry.ofReserved []) hextract
  have hcopy := hout
  rw [hresolved] at hout
  obtain ⟨rfl, _⟩ := Prod.mk.inj (Except.ok.inj hout)
  have ha : utf8 "a" ∈ copiedDeclarations.map (·.name) := by decide +kernel
  obtain ⟨_, _, hfirst⟩ := hlines 1 _ _ rfl rfl (by decide +kernel)
  obtain ⟨_, _, hsecond⟩ := hlines 3 _ _ rfl rfl (by decide +kernel)
  refine ⟨hextract, copiedResolved, names', hcopy, ?_, ?_⟩
  · exact ((hfirst _ ha).2 (utf8 "1") (by decide +kernel)).2.mpr (by decide +kernel)
  · exact ((hsecond _ ha).2 (utf8 "2") (by decide +kernel)).1.trans (by decide +kernel)

/-- **An initialiser goes astray.**  The variable of the last line was given the second value of a
name; afterwards no name in its initialiser has that value. -/
theorem initialiser_astray :
    resolveConflicts 0 (Registry.ofReserved []) copied =
      .ok (copiedResolved, ⟨[], [utf8 "a_"], [], []⟩) ∧
    (Text.lines copied)[3]? = some (utf8 "var c = a;") ∧
    (Text.lines copiedResolved)[3]? = some (utf8 "var c = a;") ∧
    Text.hasWord (utf8 "a") (valueOf (utf8 "var c = a;")) = true ∧
    reachingValue? (utf8 "a") ((Text.lines copied).take 3) = some (utf8 "2") ∧
    ∀ m, Text.hasWord m (valueOf (utf8 "var c = a;")) = true →
      reachingValue? m ((Text.lines copiedResolved).take 3) ≠ some (utf8 "2") := by
  refine ⟨by decide +kernel, by decide +kernel, by decide +kernel, by decide +kernel,
    by decide +kernel, fun m hword hreach => ?_⟩
  obtain ⟨l, hl, hdecl, hvalue⟩ := reachingValue?_eq_some hreach
  -- one line above has the value, and it declares a name that is not mentioned
  have hline : ∀ l ∈ (Text.lines copiedResolved).take 3, valueOf l = utf8 "2" →
      nameOf l = utf8 "a_" := by
    decide +kernel
  rw [← (Pass.declares_iff.mp hdecl).2, hline l hl hvalue] at hword
  revert hword
  decide +kernel

end ActionLog.Pass
