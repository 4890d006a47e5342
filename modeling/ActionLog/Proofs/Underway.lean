import ActionLog.Proofs.Expansion

/-!
# Variables inlined one after another

A pass over the declared variables inlines each that is used, with the value that it has when its
turn comes.  Every step keeps what the text is to become in the end.

* `Underway` — the lines of a text on its way to a goal;
* `Underway.inlined` — they stay so when a variable is inlined;
* `Underway.trimmed` — and when empty lines at the ends are left out;
* `Underway.step`, `Underway.foldlM` — a step of the pass, and all of them.

Principal result: `Underway.finished` — the pass succeeds, and the lines that are left are the goal.
-/

set_option autoImplicit false

namespace ActionLog.Pass

open Declaration (isDeclaration nameOf valueOf)
open Text (IsRun Bare WordIn hasWord substitute)

/-! ## Lines with a variable inlined -/

section Lines

variable {n e : Text}

theorem inlinedLines_own {l : Text} (h : declares n l = true) (ls : List Text) :
    inlinedLines n e (l :: ls) = inlinedLines n e ls := by
  simp [inlinedLines, h]

theorem inlinedLines_other {l : Text} (h : declares n l = false) (ls : List Text) :
    inlinedLines n e (l :: ls) = substitute (put n e) l :: inlinedLines n e ls := by
  simp [inlinedLines, h]

theorem mem_inlinedLines {ls : List Text} {o : Text} : o ∈ inlinedLines n e ls ↔
    ∃ l ∈ ls, declares n l = false ∧ substitute (put n e) l = o := by
  simp [inlinedLines, and_assoc]

/-- Where a line stands that a variable was inlined on. -/
theorem inlinedLines_eq_append {ls pre post : List Text} {o : Text}
    (h : inlinedLines n e ls = pre ++ o :: post) :
    ∃ pre' l post', ls = pre' ++ l :: post' ∧ declares n l = false ∧
      o = substitute (put n e) l ∧ post = inlinedLines n e post' := by
  induction ls generalizing pre with
  | nil => simp [inlinedLines] at h
  | cons l ls ih =>
    cases hdecl : declares n l with
    | true =>
      rw [inlinedLines_own hdecl] at h
      obtain ⟨pre', l', post', rfl, hrest⟩ := ih h
      exact ⟨l :: pre', l', post', rfl, hrest⟩
    | false =>
      rw [inlinedLines_other hdecl] at h
      cases pre with
      | nil =>
        obtain ⟨rfl, rfl⟩ := List.cons.inj h
        exact ⟨[], l, ls, rfl, hdecl, rfl, rfl⟩
      | cons _ pre =>
        obtain ⟨pre', l', post', rfl, hrest⟩ := ih (List.cons.inj h).2
        exact ⟨l :: pre', l', post', rfl, hrest⟩

/-- What comes next on the lines to follow stays so: the lines left out are declarations. -/
theorem passed_inlinedLines {ls : List Text} (h : passed (following ls) = true) :
    passed (following (inlinedLines n e ls)) = true := by
  induction ls with
  | nil => exact h
  | cons l ls ih =>
    rw [following_cons, passed_gap (by decide)] at h
    cases hdecl : declares n l with
    | true =>
      rw [declaration_not_passed (declares_iff.mp hdecl).1] at h
      cases h
    | false =>
      rw [inlinedLines_other hdecl, following_cons, passed_gap (by decide)]
      exact passed_substitute _ ih h

end Lines

/-! ## Texts on their way -/

/-- The lines of a text on its way to a goal.  A variable that is inlined occurs on another line as
long as it is declared, and no more after that; one that is not occurs on its own lines only. -/
structure Underway (p : Plan) (goal ls : List Text) : Prop where
  orderly : ∀ pre l post, ls = pre ++ l :: post → p.Orderly (following post) l
  same : ∀ m ∈ p.declared, ∀ l ∈ ls, ∀ l' ∈ ls, declares m l = true → declares m l' = true → l = l'
  alive : ∀ n, p.used n = true → (∃ l ∈ ls, declares n l = true) →
    ∃ l ∈ ls, declares n l = false ∧ hasWord n l = true
  quiet : ∀ n, p.plain n = true → (p.used n = true → ∀ l ∈ ls, declares n l = false) →
    ∀ l ∈ ls, declares n l = false → hasWord n l = false
  goal : ∃ i j, goal = List.replicate i [] ++ (ls.filter p.stays).map (substitute p.expand) ++
    List.replicate j []

section Step

variable {p : Plan} {goal ls : List Text}

theorem Underway.line (h : Underway p goal ls) {l : Text} (hl : l ∈ ls) : ∃ k, p.Orderly k l := by
  obtain ⟨pre, post, hsplit⟩ := List.append_of_mem hl
  exact ⟨_, h.orderly pre l post hsplit⟩

theorem Underway.fits (h : Underway p goal ls) {m l : Text} (hm : m ∈ p.declared) (hl : l ∈ ls)
    (hdecl : declares m l = true) : p.Fits m (valueOf l) := by
  obtain ⟨k, hline⟩ := h.line hl
  exact hline.fits m hm hdecl

/-- A word of a declaration that is neither its name nor the keyword stands in its value. -/
theorem Underway.word_value (h : Underway p goal ls) {m x l : Text} (hm : m ∈ p.declared)
    (hx : p.plain x = true) (hxm : x ≠ m) (hl : l ∈ ls) (hdecl : declares m l = true) :
    hasWord x l = hasWord x (valueOf l) := by
  obtain ⟨hne, hrun⟩ := p.runs m hm
  obtain ⟨k, hline⟩ := h.line hl
  have hkeyword : x ≠ Declaration.keyword := by
    rintro rfl
    rw [p.keyword_not_plain] at hx
    cases hx
  have hxrun := (p.runs x (p.declared_of_plain x hx)).2
  exact Bool.eq_iff_iff.mpr
    ⟨hasWord_valueOf hne hrun hline.newline hdecl hxrun hxm hkeyword,
      hasWord_of_valueOf hne hrun hline.newline hdecl⟩

/-- In the end the lines that stay are the same, with the variable inlined before or not. -/
theorem expand_inlinedLines {n e : Text} (hused : p.used n = true) (he : p.Fits n e)
    (hls : ∀ l ∈ ls, ∃ k, p.Orderly k l) :
    ((inlinedLines n e ls).filter p.stays).map (substitute p.expand) =
      (ls.filter p.stays).map (substitute p.expand) := by
  induction ls with
  | nil => rfl
  | cons l ls ih =>
    rw [List.forall_mem_cons] at hls
    obtain ⟨⟨k, hl⟩, hls⟩ := hls
    cases hdecl : declares n l with
    | true =>
      have hdropped : p.stays l = false := by
        by_contra hstays
        rw [Bool.not_eq_false, Plan.stays_iff] at hstays
        rw [hstays n hused] at hdecl
        cases hdecl
      rw [inlinedLines_own hdecl, ih hls, List.filter_cons, hdropped]
      rfl
    | false =>
      rw [inlinedLines_other hdecl, List.filter_cons, List.filter_cons,
        hl.stays_put hused he hdecl]
      cases p.stays l with
      | false => exact ih hls
      | true =>
        rw [if_pos rfl, if_pos rfl, List.map_cons, List.map_cons, ih hls,
          Plan.substitute_expand_put hused he]

section Inlined

variable {n line : Text} (h : Underway p goal ls) (hused : p.used n = true) (hline : line ∈ ls)
  (hdecl : declares n line = true)

include h hused hline hdecl

/-- Which variables the lines declare when one has been inlined. -/
theorem Underway.declares_inlined {m l : Text} (hm : m ∈ p.declared) (hl : l ∈ ls)
    (hforeign : declares n l = false) :
    declares m (substitute (put n (valueOf line)) l) = declares m l := by
  obtain ⟨k, horderly⟩ := h.line hl
  exact horderly.declares_put hused (h.fits (Plan.declared_of_used hused) hline hdecl) hforeign hm

/-- A variable that is still declared occurs on another line: where it occurred before, or where the
value in which it occurred was put in. -/
theorem Underway.alive_inlined {x : Text} (hx : p.used x = true)
    (hdeclared : ∃ o ∈ inlinedLines n (valueOf line) ls, declares x o = true) :
    ∃ o ∈ inlinedLines n (valueOf line) ls, declares x o = false ∧ hasWord x o = true := by
  have hn := Plan.declared_of_used hused
  have hxd := Plan.declared_of_used hx
  have hfits := h.fits hn hline hdecl
  obtain ⟨o, ho, hxo⟩ := hdeclared
  obtain ⟨l, hl, hforeign, rfl⟩ := mem_inlinedLines.mp ho
  rw [h.declares_inlined hused hline hdecl hxd hl hforeign] at hxo
  have hxn := ne_of_declares hxo hforeign
  obtain ⟨l', hl', hxl', hword⟩ := h.alive x hx ⟨l, hl, hxo⟩
  cases hnl' : declares n l' with
  | false =>
    refine ⟨_, mem_inlinedLines.mpr ⟨l', hl', hnl', rfl⟩, ?_, ?_⟩
    · rw [h.declares_inlined hused hline hdecl hxd hl' hnl', hxl']
    · exact (hasWord_put (p.runs n hn).2 (p.runs x hxd).2 _).mpr (.inl ⟨hxn, hword⟩)
  | true =>
    rw [h.same n hn l' hl' line hline hnl' hdecl,
      h.word_value hn (p.plain_of_used x hx) hxn hline hdecl] at hword
    obtain ⟨l'', hl'', hnl'', hnword⟩ := h.alive n hused ⟨line, hline, hdecl⟩
    refine ⟨_, mem_inlinedLines.mpr ⟨l'', hl'', hnl'', rfl⟩, ?_, ?_⟩
    · rw [h.declares_inlined hused hline hdecl hxd hl'' hnl'']
      -- otherwise each of the two would be deeper than the other
      by_contra hxl''
      rw [Bool.not_eq_false] at hxl''
      rw [h.word_value hxd (p.plain_of_used n hused) (Ne.symm hxn) hl'' hxl''] at hnword
      exact lt_asymm (hfits.deeper x hxd hword) ((h.fits hxd hl'' hxl'').deeper n hn hnword)
    · exact (hasWord_put (p.runs n hn).2 (p.runs x hxd).2 _).mpr (.inr ⟨hnword, hword⟩)

/-- A variable that occurs on its own lines only, or nowhere, does so still. -/
theorem Underway.quiet_inlined {x : Text} (hx : p.plain x = true)
    (hundeclared : p.used x = true → ∀ o ∈ inlinedLines n (valueOf line) ls, declares x o = false) :
    ∀ o ∈ inlinedLines n (valueOf line) ls, declares x o = false → hasWord x o = false := by
  have hn := Plan.declared_of_used hused
  have hxd := p.declared_of_plain x hx
  have hfits := h.fits hn hline hdecl
  intro o ho hxo
  obtain ⟨l, hl, hforeign, rfl⟩ := mem_inlinedLines.mp ho
  by_cases hxn : x = n
  · rw [hxn]
    exact not_hasWord_put (p.runs n hn).2 (hfits.not_hasWord_self hused) l
  · have hbefore := h.quiet x hx fun hxused l' hl' => by
      by_contra hxl'
      rw [Bool.not_eq_false] at hxl'
      have hnl' := not_declares_of_ne hxl' (Ne.symm hxn)
      have hkept := hundeclared hxused _ (mem_inlinedLines.mpr ⟨l', hl', hnl', rfl⟩)
      rw [h.declares_inlined hused hline hdecl hxd hl' hnl', hxl'] at hkept
      cases hkept
    rw [h.declares_inlined hused hline hdecl hxd hl hforeign] at hxo
    have hvalue := hbefore line hline (not_declares_of_ne hdecl hxn)
    rw [h.word_value hn hx hxn hline hdecl] at hvalue
    by_contra hword
    rw [Bool.not_eq_false, hasWord_put (p.runs n hn).2 (p.runs x hxd).2, hbefore l hl hxo,
      hvalue] at hword
    simp at hword

/-- **A text stays on its way** when a variable is inlined. -/
theorem Underway.inlined : Underway p goal (inlinedLines n (valueOf line) ls) := by
  have hn := Plan.declared_of_used hused
  have hfits := h.fits hn hline hdecl
  refine ⟨?_, ?_, fun x hx => h.alive_inlined hused hline hdecl hx,
    fun x hx => h.quiet_inlined hused hline hdecl hx, ?_⟩
  · intro pre o post hsplit
    obtain ⟨pre', l, post', hls, hforeign, rfl, rfl⟩ := inlinedLines_eq_append hsplit
    exact (h.orderly pre' l post' hls).put hused hfits hforeign passed_inlinedLines
  · intro m hm o ho o' ho' hmo hmo'
    obtain ⟨l, hl, hforeign, rfl⟩ := mem_inlinedLines.mp ho
    obtain ⟨l', hl', hforeign', rfl⟩ := mem_inlinedLines.mp ho'
    rw [h.declares_inlined hused hline hdecl hm hl hforeign] at hmo
    rw [h.declares_inlined hused hline hdecl hm hl' hforeign'] at hmo'
    rw [h.same m hm l hl l' hl' hmo hmo']
  · rw [expand_inlinedLines hused hfits fun l hl => h.line hl]
    exact h.goal

end Inlined

theorem mem_trimmed {i j : Nat} {l : Text}
    (hl : l ∈ List.replicate i [] ++ ls ++ List.replicate j []) : l = [] ∨ l ∈ ls := by
  rcases List.mem_append.mp hl with hl | hl
  · rcases List.mem_append.mp hl with hl | hl
    · exact .inl (List.eq_of_mem_replicate hl)
    · exact .inr hl
  · exact .inl (List.eq_of_mem_replicate hl)

theorem following_replicate (j : Nat) :
    following (List.replicate j []) = List.replicate j Byte.newline := by
  induction j with
  | zero => rfl
  | succ j ih =>
    rw [List.replicate_succ, following_cons, ih, List.nil_append]
    rfl

/-- A text stays on its way when empty lines at its ends are left out. -/
theorem Underway.trimmed {i j : Nat}
    (h : Underway p goal (List.replicate i [] ++ ls ++ List.replicate j [])) :
    Underway p goal ls := by
  have hmem : ∀ l ∈ ls, l ∈ List.replicate i [] ++ ls ++ List.replicate j [] := by
    intro l hl
    simp [hl]
  refine ⟨?_, fun m hm l hl l' hl' => h.same m hm l (hmem l hl) l' (hmem l' hl'), ?_, ?_, ?_⟩
  · intro pre l post hsplit
    have hline := h.orderly (List.replicate i [] ++ pre) l (post ++ List.replicate j [])
      (by rw [hsplit]; simp)
    refine hline.mono fun hpassed => ?_
    rw [following_append, following_replicate] at hpassed
    refine passed_gaps (fun b hb => ?_) hpassed
    rw [List.eq_of_mem_replicate hb]
    rfl
  · rintro n hn ⟨l, hl, hdecl⟩
    obtain ⟨l', hl', hforeign, hword⟩ := h.alive n hn ⟨l, hmem l hl, hdecl⟩
    rcases mem_trimmed hl' with rfl | hl'
    · cases hword
    · exact ⟨l', hl', hforeign, hword⟩
  · intro n hn hundeclared l hl
    refine h.quiet n hn (fun hused l' hl' => ?_) l (hmem l hl)
    rcases mem_trimmed hl' with rfl | hl'
    · rfl
    · exact hundeclared hused l' hl'
  · have hstays : p.stays [] = true := Plan.stays_iff.mpr fun n _ => rfl
    have hempty : ∀ k, ((List.replicate k []).filter p.stays).map (substitute p.expand) =
        List.replicate k [] := by
      intro k
      rw [List.filter_replicate_of_pos hstays, List.map_replicate, Text.substitute_nil]
    obtain ⟨i', j', hgoal⟩ := h.goal
    refine ⟨i' + i, j + j', ?_⟩
    rw [hgoal, List.filter_append, List.filter_append, List.map_append, List.map_append, hempty,
      hempty, List.replicate_add, List.replicate_add]
    simp only [List.append_assoc]

end Step

/-! ## The pass -/

section Pass

variable {p : Plan} {goal : List Text} {s : Text}

/-- A name that is declared with a value has a first declaration. -/
theorem exists_current {m : Text} (hne : m ≠ []) (hm : IsRun m)
    (hvalue : ∀ l ∈ Text.lines s, declares m l = true → valueOf l ≠ [])
    (h : ∃ l ∈ Text.lines s, declares m l = true) : ∃ d, current? m s = some d := by
  obtain ⟨l, hl, hdecl⟩ := h
  obtain ⟨hline, hname⟩ := declares_iff.mp hdecl
  have hsome : ((Declaration.declarationLines s).find? (nameOf · == m)).isSome = true :=
    List.find?_isSome.mpr ⟨l, List.mem_filter.mpr ⟨hl, hline⟩, by simp [hname]⟩
  obtain ⟨first, hfirst⟩ := Option.isSome_iff_exists.mp hsome
  obtain ⟨hmem, hfirstline⟩ := List.mem_filter.mp (List.mem_of_find?_eq_some hfirst)
  have hfirstname : nameOf first = m := by simpa using List.find?_some hfirst
  obtain ⟨_, _, hsplit⟩ := Declaration.exists_nameSplit hfirstline hfirstname hne hm
  have hequals : Byte.equals ∈ first := by
    rw [hsplit.line_eq]
    simp
  have hfirstvalue := hvalue first hmem (declares_iff.mpr ⟨hfirstline, hfirstname⟩)
  refine ⟨⟨nameOf first, valueOf first, first⟩, ?_⟩
  unfold current?
  rw [hfirst, Option.bind_some, Declaration.parse?, if_pos]
  simp [hequals, hfirstname, hne, hfirstvalue]

/-- Inlining a used variable with the value that it has now succeeds, and drops its declarations. -/
theorem Underway.inline_current (h : Underway p goal (Text.lines s)) {now : Declaration}
    (hused : p.used now.name = true) (hline : now.line ∈ Text.lines s)
    (hdecl : declares now.name now.line = true) (hvalue : now.value = valueOf now.line) :
    ∃ out, inline now s = .ok out ∧ Underway p goal (Text.lines out) ∧
      ∀ x, p.used x = true → (x = now.name ∨ ∀ l ∈ Text.lines s, declares x l = false) →
        ∀ l ∈ Text.lines out, declares x l = false := by
  have hn := Plan.declared_of_used hused
  obtain ⟨hne, hrun⟩ := p.runs now.name hn
  have hfits := h.fits hn hline hdecl
  rw [← hvalue] at hfits
  obtain ⟨u, v, hword, _⟩ := exists_nameWord hne hrun hdecl
  have hpassed : PassedElsewhere now.name (Text.lines s) := by
    intro pre l post u v hsplit hforeign hword
    exact (h.orderly pre l post hsplit).passed now.name u v (p.plain_of_used _ hused) hforeign hword
  obtain ⟨out, i, j, hout, hlines⟩ := inline_used hne hrun hfits.newline
    (hfits.not_hasWord_self hused) hpassed (Text.hasWord_iff.mpr ⟨hne, u, v, hword⟩)
    (fun l hl hown => h.same now.name hn l hl now.line hline hown hdecl)
    (h.alive now.name hused ⟨now.line, hline, hdecl⟩)
  rw [hvalue] at hlines
  have hinlined := h.inlined hused hline hdecl
  rw [hlines] at hinlined
  refine ⟨out, hout, hinlined.trimmed, fun x hx hor o ho => ?_⟩
  have hmem : o ∈ inlinedLines now.name (valueOf now.line) (Text.lines s) := by
    rw [hlines]
    simp [ho]
  obtain ⟨l, hl, hforeign, rfl⟩ := mem_inlinedLines.mp hmem
  rw [h.declares_inlined hused hline hdecl (Plan.declared_of_used hx) hl hforeign]
  rcases hor with rfl | hor
  · exact hforeign
  · exact hor l hl

/-- **A step of the pass succeeds and keeps the text on its way**; if the variable is to be
inlined, it is declared no more. -/
theorem Underway.step (h : Underway p goal (Text.lines s)) {d : Declaration}
    (hd : d.name ∈ p.declared) :
    ∃ out, inlineCurrent s d = .ok out ∧ Underway p goal (Text.lines out) ∧
      ∀ x, p.used x = true → (x = d.name ∨ ∀ l ∈ Text.lines s, declares x l = false) →
        ∀ l ∈ Text.lines out, declares x l = false := by
  obtain ⟨hne, hrun⟩ := p.runs d.name hd
  unfold inlineCurrent
  cases hcurrent : current? d.name s with
  | none =>
    refine ⟨s, rfl, h, fun x _ hx l hl => ?_⟩
    rcases hx with rfl | hx
    · by_contra hdecl
      rw [Bool.not_eq_false] at hdecl
      obtain ⟨now, hnow⟩ := exists_current hne hrun
        (fun l hl hdecl => (h.fits hd hl hdecl).compact.ne_nil) ⟨l, hl, hdecl⟩
      rw [hcurrent] at hnow
      cases hnow
    · exact hx l hl
  | some now =>
    obtain ⟨hline, hdecl, hname, hvalue, _⟩ := current?_eq_some hcurrent
    have hconstruction := (h.fits hd hline hdecl).construction
    rw [← hvalue] at hconstruction
    cases hused : p.used d.name with
    | true =>
      dsimp only
      rw [hconstruction, p.plain_of_used d.name hused]
      rw [← hname] at hused hdecl ⊢
      exact h.inline_current hused hline hdecl hvalue
    | false =>
      -- a variable that is not used leaves the text as it is
      refine ⟨s, ?_, h, fun x hx hor => ?_⟩
      · dsimp only
        rw [hconstruction]
        cases hplain : p.plain d.name with
        | false => rfl
        | true =>
          have hquiet := h.quiet d.name hplain fun hused' => by
            rw [hused] at hused'
            cases hused'
          rw [← hname] at hne hrun hquiet
          exact inline_unused hne hrun hquiet
      · rcases hor with rfl | hor
        · rw [hused] at hx
          cases hx
        · exact hor

/-- **All steps of the pass.** -/
theorem Underway.foldlM {ds : List Declaration} (hds : ∀ d ∈ ds, d.name ∈ p.declared)
    (h : Underway p goal (Text.lines s)) :
    ∃ out, ds.foldlM inlineCurrent s = .ok out ∧ Underway p goal (Text.lines out) ∧
      ∀ x, p.used x = true → (x ∈ ds.map (·.name) ∨ ∀ l ∈ Text.lines s, declares x l = false) →
        ∀ l ∈ Text.lines out, declares x l = false := by
  induction ds generalizing s with
  | nil =>
    refine ⟨s, rfl, h, fun x _ hx => ?_⟩
    exact hx.resolve_left List.not_mem_nil
  | cons d ds ih =>
    rw [List.forall_mem_cons] at hds
    obtain ⟨s', hstep, h', hgone⟩ := h.step hds.1
    obtain ⟨out, hout, hend, hdropped⟩ := ih hds.2 h'
    refine ⟨out, ?_, hend, fun x hx hor => hdropped x hx ?_⟩
    · rw [List.foldlM_cons, hstep]
      exact hout
    · rcases hor with hmem | hundeclared
      · rcases List.mem_cons.mp hmem with rfl | hmem
        · exact .inr (hgone _ hx (.inl rfl))
        · exact .inl hmem
      · exact .inr (hgone x hx (.inr hundeclared))

/-- **When all declared variables have had their turn, the goal is reached**: none that is inlined
occurs any more, so that nothing is left to be expanded. -/
theorem Underway.finished {ds : List Declaration} (hds : ∀ d ∈ ds, d.name ∈ p.declared)
    (hall : ∀ x, p.used x = true → x ∈ ds.map (·.name)) (h : Underway p goal (Text.lines s)) :
    ∃ out i j, ds.foldlM inlineCurrent s = .ok out ∧
      goal = List.replicate i [] ++ Text.lines out ++ List.replicate j [] ∧
      ∀ x, p.used x = true → ∀ l ∈ Text.lines out, hasWord x l = false := by
  obtain ⟨out, hout, hend, hgone⟩ := h.foldlM hds
  have hundeclared := fun x hx => hgone x hx (.inl (hall x hx))
  have hno : ∀ x, p.used x = true → ∀ l ∈ Text.lines out, hasWord x l = false := by
    intro x hx l hl
    exact hend.quiet x (p.plain_of_used x hx) (fun _ => hundeclared x hx) l hl
      (hundeclared x hx l hl)
  obtain ⟨i, j, hgoal⟩ := hend.goal
  refine ⟨out, i, j, hout, ?_, hno⟩
  have hstays : (Text.lines out).filter p.stays = Text.lines out :=
    List.filter_eq_self.mpr fun l hl => Plan.stays_iff.mpr fun x hx => hundeclared x hx l hl
  have hexpanded : (Text.lines out).map (substitute p.expand) = Text.lines out := by
    refine (List.map_congr_left fun l hl => ?_).trans (List.map_id _)
    refine Text.substitute_of_words fun r _ _ hword => ?_
    cases hr : p.used r with
    | false => exact Plan.expand_of_not_used hr
    | true =>
      rw [hno r hr l hl] at hword
      cases hword
  rw [hgoal, hstays, hexpanded]

end Pass

end ActionLog.Pass
