import ActionLog.Pass.Conflict
import ActionLog.Proofs.Declaration
import ActionLog.Proofs.Registry

/-!
# Conflicts are resolved

* `Retried` — asking for names until one is not declared; `retried_freshVariable` says that the
  bounded search is a finished run of that loop;
* `Renaming.visitAll_declaration`, `Renaming.visitAll_other` — what renamings make of a line;
* `Passage` — all that a passage down the lines can do at each of them;
* `Resolved` — what becomes of the declarations of a text.

Principal results: `resolveLines_passage`, `Passage.resolved` and `resolveConflicts_spec` — one value
for every name, and nothing to resolve a second time.
-/

set_option autoImplicit false

namespace ActionLog

namespace Name

theorem IsIdentifier.isRun {s : Text} (h : IsIdentifier s) : Text.IsRun s := by
  have hall := h.1
  rw [List.all_eq_true] at hall
  exact hall

theorem IsIdentifier.ne_nil {s : Text} (h : IsIdentifier s) : s ≠ [] := by
  rintro rfl
  cases h.2

end Name

namespace Pass

open Declaration (isDeclaration nameOf valueOf onLine? WellFormed extract)

/-! ## Fresh variables -/

/-- Asking for a name until one is not declared, however long that takes. -/
inductive Retried (declared : List Text) (wanted : Text) : Registry → Text × Registry → Prop
  | done {names : Registry} (h : (names.allocate .vars wanted).1 ∉ declared) :
      Retried declared wanted names (names.allocate .vars wanted)
  | again {names : Registry} {r : Text × Registry}
      (h : (names.allocate .vars wanted).1 ∈ declared)
      (rest : Retried declared wanted (names.allocate .vars wanted).2 r) :
      Retried declared wanted names r

/-- The declared names that are not taken. -/
def untaken (declared : List Text) (names : Registry) : List Text :=
  declared.filter fun n => !names.vars.contains n

theorem vars_allocate (names : Registry) (wanted : Text) :
    (names.allocate .vars wanted).2.vars = (names.allocate .vars wanted).1 :: names.vars := rfl

/-- A name that is passed over is taken from then on. -/
theorem untaken_allocate {declared : List Text} {names : Registry} {wanted : Text}
    (h : (names.allocate .vars wanted).1 ∈ declared) :
    (untaken declared (names.allocate .vars wanted).2).length < (untaken declared names).length := by
  have hfree : (names.allocate .vars wanted).1 ∉ names.vars :=
    (Registry.allocate_spec names .vars wanted).1
  generalize hname : (names.allocate .vars wanted).1 = name at h hfree
  have hfilter : untaken declared (names.allocate .vars wanted).2 =
      (untaken declared names).filter (· != name) := by
    unfold untaken
    rw [List.filter_filter, vars_allocate, hname]
    refine List.filter_congr fun n _ => ?_
    by_cases hn : n = name <;> simp [hn]
  rw [hfilter, List.length_filter_lt_length_iff_exists]
  refine ⟨name, List.mem_filter.mpr ⟨h, ?_⟩, by simp⟩
  simpa using hfree

/-- **The retries come to an end**: every one of them takes another declared name. -/
theorem retried_of_untaken {declared : List Text} {wanted : Text} :
    ∀ {attempts : Nat} {names : Registry}, (untaken declared names).length ≤ attempts →
      Retried declared wanted names (freshVariable declared wanted attempts names)
  | 0, names, h => by
    refine .done fun hmem => ?_
    have := untaken_allocate hmem
    omega
  | attempts + 1, names, h => by
    unfold freshVariable
    by_cases hmem : (names.allocate .vars wanted).1 ∈ declared
    · have hless := untaken_allocate hmem
      simp only [List.contains_iff_mem.mpr hmem, if_true]
      exact .again hmem (retried_of_untaken (by omega))
    · simp only [List.contains_iff_mem, hmem, if_false]
      exact .done hmem

theorem retried_freshVariable (declared : List Text) (wanted : Text) (names : Registry) :
    Retried declared wanted names (freshVariable declared wanted declared.length names) :=
  retried_of_untaken (List.length_filter_le _ _)

/-- What is asked of a name made up for a declaration. -/
structure IsFresh (declared taken : List Text) (name : Text) : Prop where
  identifier : Name.IsIdentifier name
  underscore : Byte.underscore ∈ name
  undeclared : name ∉ declared
  untaken : name ∉ taken

/-- **The name at the end is fresh**, and is taken from then on. -/
theorem Retried.spec {declared : List Text} {old : Text} {names : Registry} {r : Text × Registry}
    (h : Retried declared (old ++ [Byte.underscore]) names r) :
    IsFresh declared names.vars r.1 ∧ r.1 ∈ r.2.vars ∧ names.vars ⊆ r.2.vars := by
  induction h with
  | @done names h =>
    obtain ⟨hfree, hid, hcore, _⟩ :=
      Registry.allocate_spec names .vars (old ++ [Byte.underscore])
    refine ⟨⟨hid, hcore (Name.underscore_mem_core old), h, hfree⟩, ?_, ?_⟩
    · exact List.mem_cons_self
    · exact List.subset_cons_self _ _
  | again h _ ih =>
    obtain ⟨hfresh, hmem, hsub⟩ := ih
    refine ⟨⟨hfresh.identifier, hfresh.underscore, hfresh.undeclared, ?_⟩, hmem, ?_⟩
    · exact fun htaken => hfresh.untaken (List.mem_cons_of_mem _ htaken)
    · exact fun n hn => hsub (List.mem_cons_of_mem _ hn)

/-! ## Renamings on a line -/

namespace Renaming

/-- A renaming whose new name is an identifier with an underscore. -/
def Marked (r : Renaming) : Prop := Text.IsRun r.new ∧ Byte.underscore ∈ r.new

/-- What one renaming makes of a line that is no declaration. -/
theorem visit_other {r : Renaming} (hr : r.Marked) {line : Text}
    (hnew : Byte.newline ∉ line) (hline : isDeclaration line = false) :
    isDeclaration (r.visit line).1 = false ∧ Byte.newline ∉ (r.visit line).1 := by
  unfold visit
  split
  · exact ⟨hline, hnew⟩
  · rw [if_neg (by simp [hline])]
    split
    · refine ⟨?_, ?_⟩
      · by_contra hdecl
        have := Declaration.isDeclaration_of_replaceWord hr.1 hr.2 hnew (by simpa using hdecl)
        rw [hline] at this
        cases this
      · intro hmem
        rcases (Text.replaceWord_spliced r.old r.new line).mem hmem with hmem | hmem
        · exact hnew hmem
        · cases hr.1 _ hmem
    · exact ⟨hline, hnew⟩

/-- A renaming is passed on as it is, but for the lines it has left. -/
theorem visit_kept {r k : Renaming} {line : Text} (h : k ∈ (r.visit line).2) :
    k.old = r.old ∧ k.new = r.new := by
  unfold visit at h
  split at h
  · cases h
  · split at h
    · split at h <;> cases h
      exact ⟨rfl, rfl⟩
    · split at h
      · dsimp only at h
        split at h <;> cases h
        exact ⟨rfl, rfl⟩
      · cases h
        exact ⟨rfl, rfl⟩

theorem visitAll_cons (r : Renaming) (rs : List Renaming) (line : Text) :
    visitAll (r :: rs) line = ((visitAll rs (r.visit line).1).1,
      (r.visit line).2.toList ++ (visitAll rs (r.visit line).1).2) := rfl

/-- **Renamings leave declarations alone.** -/
theorem visitAll_declaration {line : Text} (hline : isDeclaration line = true) :
    ∀ rs : List Renaming, (visitAll rs line).1 = line
  | [] => rfl
  | r :: rs => by
    have hvisit : (r.visit line).1 = line := by
      unfold visit
      split
      · rfl
      · split <;> rfl
    rw [visitAll_cons, hvisit]
    exact visitAll_declaration hline rs

/-- **Renamings make no declaration of another line.** -/
theorem visitAll_other {rs : List Renaming} (hrs : ∀ r ∈ rs, r.Marked) {line : Text}
    (hnew : Byte.newline ∉ line) (hline : isDeclaration line = false) :
    isDeclaration (visitAll rs line).1 = false ∧ Byte.newline ∉ (visitAll rs line).1 := by
  induction rs generalizing line with
  | nil => exact ⟨hline, hnew⟩
  | cons r rs ih =>
    rw [List.forall_mem_cons] at hrs
    obtain ⟨hline', hnew'⟩ := visit_other hrs.1 hnew hline
    rw [visitAll_cons]
    exact ih hrs.2 hnew' hline'

theorem visitAll_kept {rs : List Renaming} {line : Text} {k : Renaming}
    (h : k ∈ (visitAll rs line).2) : ∃ r ∈ rs, k.old = r.old ∧ k.new = r.new := by
  induction rs generalizing line with
  | nil => simp [visitAll] at h
  | cons r rs ih =>
    rw [visitAll_cons] at h
    rcases List.mem_append.mp h with h | h
    · exact ⟨r, List.mem_cons_self, visit_kept (Option.mem_toList.mp h)⟩
    · obtain ⟨r', hr', hkept⟩ := ih h
      exact ⟨r', List.mem_cons_of_mem _ hr', hkept⟩

theorem visitAll_marked {rs : List Renaming} (hrs : ∀ r ∈ rs, r.Marked) (line : Text) :
    ∀ r ∈ (visitAll rs line).2, r.Marked := by
  intro k hk
  obtain ⟨r, hr, _, hnew⟩ := visitAll_kept hk
  unfold Marked
  rw [hnew]
  exact hrs r hr

end Renaming

/-! ## The passage down the lines -/

/-- All that a passage down the lines can do at each of them.  Lines come in with the names taken
so far and the renamings under way; they go out with the names taken afterwards. -/
inductive Passage (clashes : List Declaration) (declared : List Text) (window : Option Nat) :
    Registry → List Renaming → List Text → List Text → Registry → Prop
  | nil {names : Registry} {active : List Renaming} :
      Passage clashes declared window names active [] [] names
  /-- No declaration: the renamings under way are made. -/
  | other {names names' : Registry} {active : List Renaming} {line : Text} {ls os : List Text}
      (hline : isDeclaration line = false)
      (hout : isDeclaration (Renaming.visitAll active line).1 = false)
      (hnew : Byte.newline ∉ (Renaming.visitAll active line).1)
      (rest : Passage clashes declared window names (Renaming.visitAll active line).2 ls os names') :
      Passage clashes declared window names active (line :: ls)
        ((Renaming.visitAll active line).1 :: os) names'
  /-- A declaration without conflict stays. -/
  | kept {names names' : Registry} {active : List Renaming} {line : Text} {ls os : List Text}
      (hline : isDeclaration line = true) (hclash : ∀ d ∈ clashes, d.line ≠ line)
      (rest : Passage clashes declared window names (Renaming.visitAll active line).2 ls os names') :
      Passage clashes declared window names active (line :: ls) (line :: os) names'
  /-- A conflicting declaration gets a fresh name, and its uses are renamed from then on. -/
  | renamed {names names₁ names' : Registry} {active : List Renaming} {d : Declaration}
      {name : Text} {ls os : List Text} (hd : d ∈ clashes)
      (hname : Retried declared (d.name ++ [Byte.underscore]) names (name, names₁))
      (rest : Passage clashes declared window names₁
        ((Renaming.visitAll active d.line).2 ++ [⟨d.name, name, window⟩]) ls os names') :
      Passage clashes declared window names active (d.line :: ls)
        (Declaration.rename d.line name :: os) names'

/-- **The lines are resolved by such a passage.** -/
theorem resolveLines_passage {clashes : List Declaration} (declared : List Text)
    (window : Option Nat) (hclashes : ∀ d ∈ clashes, isDeclaration d.line = true) :
    ∀ {ls : List Text} (names : Registry) {active : List Renaming},
      (∀ l ∈ ls, Byte.newline ∉ l) → (∀ r ∈ active, r.Marked) →
      Passage clashes declared window names active ls
        (resolveLines clashes declared window names active ls).1
        (resolveLines clashes declared window names active ls).2
  | [], names, active, _, _ => .nil
  | line :: ls, names, active, hls, hactive => by
    rw [List.forall_mem_cons] at hls
    have hkept := Renaming.visitAll_marked hactive line
    unfold resolveLines
    by_cases hline : isDeclaration line = true
    · dsimp only
      rw [Renaming.visitAll_declaration hline]
      cases hfind : clashes.find? (·.line == line) with
      | none =>
        rw [List.find?_eq_none] at hfind
        refine .kept hline (fun d hd heq => hfind d hd (by simp [heq])) ?_
        exact resolveLines_passage declared window hclashes names hls.2 hkept
      | some d =>
        have hd := List.mem_of_find?_eq_some hfind
        have heq : d.line = line := by simpa using List.find?_some hfind
        subst heq
        have hretried := retried_freshVariable declared (d.name ++ [Byte.underscore]) names
        refine .renamed hd hretried ?_
        refine resolveLines_passage declared window hclashes _ hls.2 ?_
        intro r hr
        rcases List.mem_append.mp hr with hr | hr
        · exact hkept r hr
        · rw [List.mem_singleton] at hr
          rw [hr]
          have hfresh := hretried.spec.1
          exact ⟨hfresh.identifier.isRun, hfresh.underscore⟩
    · rw [Bool.not_eq_true] at hline
      obtain ⟨hout, hnew⟩ := Renaming.visitAll_other hactive hls.1 hline
      have hfind : clashes.find? (·.line == (Renaming.visitAll active line).1) = none := by
        rw [List.find?_eq_none]
        intro d hd heq
        rw [← (beq_iff_eq.mp heq), hclashes d hd] at hout
        cases hout
      dsimp only
      rw [hfind]
      exact .other hline hout hnew (resolveLines_passage declared window hclashes names hls.2 hkept)

namespace Passage

variable {clashes : List Declaration} {declared : List Text} {window : Option Nat}
variable {names names' : Registry} {active : List Renaming} {ls os : List Text}

theorem length_eq (h : Passage clashes declared window names active ls os names') :
    os.length = ls.length := by
  induction h with
  | nil => rfl
  | other _ _ _ _ ih => rw [List.length_cons, List.length_cons, ih]
  | kept _ _ _ ih => rw [List.length_cons, List.length_cons, ih]
  | renamed _ _ _ ih => rw [List.length_cons, List.length_cons, ih]

end Passage

/-! ## What becomes of the declarations -/

/-- Declarations before and after: those in conflict have fresh names, the others are the same. -/
structure Resolved (clashes : List Declaration) (declared taken : List Text)
    (ds es : List Declaration) : Prop where
  each : List.Forall₂ (fun d e => (d ∉ clashes ∧ e = d) ∨
    (d ∈ clashes ∧ e.value = d.value ∧ IsFresh declared taken e.name)) ds es
  apart : es.Pairwise fun e e' => e'.name ∈ declared ∨ e'.name ≠ e.name

namespace Resolved

variable {clashes ds es : List Declaration} {declared taken taken' : List Text}

theorem at_index (h : Resolved clashes declared taken ds es) {i : Nat} {d e : Declaration}
    (hd : ds[i]? = some d) (he : es[i]? = some e) :
    (d ∉ clashes ∧ e = d) ∨ (d ∈ clashes ∧ e.value = d.value ∧ IsFresh declared taken e.name) := by
  obtain ⟨hi, rfl⟩ := List.getElem?_eq_some_iff.mp hd
  obtain ⟨hi', rfl⟩ := List.getElem?_eq_some_iff.mp he
  exact h.each.get hi hi'

/-- Every declaration afterwards stands where one stood before. -/
theorem exists_index (h : Resolved clashes declared taken ds es) {e : Declaration} (he : e ∈ es) :
    ∃ (i : Nat) (d : Declaration), ds[i]? = some d ∧ es[i]? = some e := by
  obtain ⟨i, hi⟩ := List.mem_iff_getElem?.mp he
  obtain ⟨hlt, _⟩ := List.getElem?_eq_some_iff.mp hi
  rw [← h.each.length_eq] at hlt
  exact ⟨i, ds[i], List.getElem?_eq_getElem hlt, hi⟩

theorem name_cases (h : Resolved clashes declared taken ds es) (hds : ∀ d ∈ ds, d.name ∈ declared)
    {e : Declaration} (he : e ∈ es) : e.name ∈ declared ∨ IsFresh declared taken e.name := by
  obtain ⟨i, d, hd, hi⟩ := h.exists_index he
  rcases h.at_index hd hi with ⟨_, rfl⟩ | ⟨_, _, hfresh⟩
  · exact .inl (hds _ (List.mem_of_getElem? hd))
  · exact .inr hfresh

theorem mono (h : Resolved clashes declared taken' ds es) (hsub : taken ⊆ taken') :
    Resolved clashes declared taken ds es := by
  refine ⟨h.each.imp fun d e hde => ?_, h.apart⟩
  rcases hde with hde | ⟨hd, hval, hfresh⟩
  · exact .inl hde
  · exact .inr ⟨hd, hval, hfresh.identifier, hfresh.underscore, hfresh.undeclared,
      fun hmem => hfresh.untaken (hsub hmem)⟩

theorem map_value (h : Resolved clashes declared taken ds es) :
    es.map (·.value) = ds.map (·.value) := by
  refine List.ext_getElem? fun i => ?_
  rw [List.getElem?_map, List.getElem?_map]
  cases hd : ds[i]? with
  | none =>
    have : es[i]? = none := by
      rw [List.getElem?_eq_none_iff] at hd ⊢
      rwa [← h.each.length_eq]
    rw [this]
  | some d =>
    obtain ⟨hlt, _⟩ := List.getElem?_eq_some_iff.mp hd
    rw [h.each.length_eq] at hlt
    have he := List.getElem?_eq_getElem hlt
    rw [he]
    rcases h.at_index hd he with ⟨_, heq⟩ | ⟨_, hval, _⟩
    · rw [heq]
    · rw [Option.map_some, hval, Option.map_some]

/-- **A fresh name is given to one declaration only.** -/
theorem unique (h : Resolved clashes declared taken ds es) {i j : Nat} {e e' : Declaration}
    (he : es[i]? = some e) (he' : es[j]? = some e') (hfresh : e.name ∉ declared)
    (hname : e'.name = e.name) : j = i := by
  have hapart := List.pairwise_iff_getElem.mp h.apart
  obtain ⟨hi, rfl⟩ := List.getElem?_eq_some_iff.mp he
  obtain ⟨hj, rfl⟩ := List.getElem?_eq_some_iff.mp he'
  rcases Nat.lt_trichotomy j i with hlt | heq | hlt
  · rcases hapart j i hj hi hlt with hmem | hne
    · exact absurd hmem hfresh
    · exact absurd hname.symm hne
  · exact heq
  · rcases hapart i j hi hj hlt with hmem | hne
    · exact absurd (hname ▸ hmem) hfresh
    · exact absurd hname hne

/-- **Every name has one value afterwards**: the first one it was declared with, or the one that
it was made up for. -/
theorem consistent (h : Resolved (conflicts ds) (ds.map (·.name)) taken ds es)
    {e e' : Declaration} (he : e ∈ es) (he' : e' ∈ es) (hname : e.name = e'.name) :
    e.value = e'.value := by
  have hfirst : ∀ d ∈ ds, d ∉ conflicts ds → firstValue ds d.name = some d.value := by
    intro d hd hnot
    by_contra hne
    exact hnot (List.mem_filter.mpr ⟨hd, by simpa using hne⟩)
  obtain ⟨i, d, hd, hi⟩ := h.exists_index he
  obtain ⟨j, d', hd', hj⟩ := h.exists_index he'
  rcases h.at_index hd hi with ⟨hkept, rfl⟩ | ⟨_, _, hfresh⟩
  · have hmem := List.mem_of_getElem? hd
    rcases h.at_index hd' hj with ⟨hkept', rfl⟩ | ⟨_, _, hfresh'⟩
    · have hvalue := hfirst _ hmem hkept
      rw [hname, hfirst _ (List.mem_of_getElem? hd') hkept'] at hvalue
      exact (Option.some.inj hvalue).symm
    · refine absurd ?_ hfresh'.undeclared
      rw [← hname]
      exact List.mem_map_of_mem hmem
  · have hji := h.unique hi hj hfresh.undeclared hname.symm
    rw [hji, hi] at hj
    rw [Option.some.inj hj]

end Resolved

/-- **A passage resolves the declarations of its lines.** -/
theorem Passage.resolved {clashes : List Declaration} {declared : List Text} {window : Option Nat}
    {names names' : Registry} {active : List Renaming} {ls os : List Text}
    (h : Passage clashes declared window names active ls os names')
    (hclashes : ∀ d ∈ clashes, onLine? d.line = some d) (hls : WellFormed ls)
    (hdeclared : ∀ d ∈ ls.filterMap onLine?, d.name ∈ declared) :
    WellFormed os ∧
      Resolved clashes declared names.vars (ls.filterMap onLine?) (os.filterMap onLine?) := by
  induction h with
  | nil => exact ⟨hls, .nil, .nil⟩
  | @other names names' active line ls os hline hout hnew _ ih =>
    have hnone : onLine? line = none := by simp [onLine?, hline]
    have hnone' : onLine? (Renaming.visitAll active line).1 = none := by simp [onLine?, hout]
    rw [List.filterMap_cons_none hnone] at hdeclared ⊢
    rw [List.filterMap_cons_none hnone']
    obtain ⟨hos, hres⟩ := ih (List.forall_mem_cons.mp hls).2 hdeclared
    refine ⟨List.forall_mem_cons.mpr ⟨⟨hnew, fun hdecl => ?_⟩, hos⟩, hres⟩
    rw [hout] at hdecl
    cases hdecl
  | @kept names names' active line ls os hline hclash _ ih =>
    obtain ⟨hhead, hrest⟩ := List.forall_mem_cons.mp hls
    obtain ⟨d, hd⟩ := hhead.2 hline
    rw [List.filterMap_cons_some hd] at hdeclared ⊢
    rw [List.filterMap_cons_some hd]
    rw [List.forall_mem_cons] at hdeclared
    obtain ⟨hos, hres⟩ := ih hrest hdeclared.2
    refine ⟨List.forall_mem_cons.mpr ⟨hhead, hos⟩, .cons (.inl ⟨?_, rfl⟩) hres.each,
      .cons ?_ hres.apart⟩
    · exact fun hmem => hclash d hmem (Declaration.line_of_onLine? hd).1
    · intro e he
      rcases hres.name_cases hdeclared.2 he with hname | hfresh
      · exact .inl hname
      · exact .inr fun heq => hfresh.undeclared (heq ▸ hdeclared.1)
  | @renamed names names₁ names' active d name ls os hd hname _ ih =>
    obtain ⟨hhead, hrest⟩ := List.forall_mem_cons.mp hls
    have honline := hclashes d hd
    obtain ⟨hline, hparse⟩ := Declaration.onLine?_eq_some.mp honline
    obtain ⟨hfresh, htaken, hsub⟩ := hname.spec
    obtain ⟨hout, hnew, hparse'⟩ := Declaration.rename_spec hline hhead.1 hparse
      hfresh.identifier.ne_nil hfresh.identifier.isRun
    have honline' := Declaration.onLine?_eq_some.mpr ⟨hout, hparse'⟩
    rw [List.filterMap_cons_some honline] at hdeclared ⊢
    rw [List.filterMap_cons_some honline']
    rw [List.forall_mem_cons] at hdeclared
    obtain ⟨hos, hres⟩ := ih hrest hdeclared.2
    refine ⟨List.forall_mem_cons.mpr ⟨⟨hnew, fun _ => ⟨_, honline'⟩⟩, hos⟩,
      .cons (.inr ⟨hd, rfl, hfresh⟩) (hres.mono hsub).each, .cons ?_ hres.apart⟩
    intro e he
    rcases hres.name_cases hdeclared.2 he with hname' | hfresh'
    · exact .inl hname'
    · exact .inr fun heq => hfresh'.untaken (heq ▸ htaken)

/-! ## Texts -/

theorem resolveConflicts_eq {s : Text} {ds : List Declaration} (h : extract s = .ok ds)
    (window : Int) (names : Registry) :
    resolveConflicts window names s =
      let r := resolveLines (conflicts ds) (ds.map (·.name))
        (if window ≤ 0 then none else some window.toNat) names [] (Text.lines s)
      .ok (Text.unlines r.1, r.2) := by
  unfold resolveConflicts extractOrFail
  rw [h]
  rfl

/-- **The lines of the resolved text come from a passage down the lines of the text.** -/
theorem resolveConflicts_passage {s : Text} {ds : List Declaration} (h : extract s = .ok ds)
    (window : Int) (names : Registry) :
    ∃ out names', resolveConflicts window names s = .ok (out, names') ∧
      WellFormed (Text.lines out) ∧
      Passage (conflicts ds) (ds.map (·.name)) (if window ≤ 0 then none else some window.toNat)
        names [] (Text.lines s) (Text.lines out) names' ∧
      Resolved (conflicts ds) (ds.map (·.name)) names.vars ds
        ((Text.lines out).filterMap onLine?) := by
  rw [resolveConflicts_eq h]
  obtain ⟨hwf, hds⟩ := Declaration.extract_eq_ok.mp h
  have hclashes : ∀ d ∈ conflicts ds, onLine? d.line = some d :=
    fun d hd => Declaration.onLine?_of_mem h (List.mem_filter.mp hd).1
  have hpass := resolveLines_passage (ds.map (·.name))
    (if window ≤ 0 then none else some window.toNat)
    (fun d hd => (Declaration.onLine?_eq_some.mp (hclashes d hd)).1) names
    (fun l hl => (hwf l hl).1) (fun r hr => absurd hr List.not_mem_nil)
  obtain ⟨hos, hres⟩ := hpass.resolved hclashes hwf
    (fun d hd => List.mem_map_of_mem (hds ▸ hd))
  have hne := Text.lines_ne_nil s
  have hlines := Text.lines_unlines (fun l hl => (hos l hl).1)
    (fun hnil => hne (List.length_eq_zero_iff.mp (by rw [← hpass.length_eq, hnil]; rfl)))
  refine ⟨_, _, rfl, ?_⟩
  rw [hlines]
  refine ⟨hos, hpass, ?_⟩
  rw [← hds] at hres
  exact hres

theorem conflicts_eq_nil {es : List Declaration}
    (h : ∀ d ∈ es, ∀ e ∈ es, d.name = e.name → d.value = e.value) : conflicts es = [] := by
  unfold conflicts
  rw [List.filter_eq_nil_iff]
  intro d hd
  cases hfind : es.find? (·.name == d.name) with
  | none =>
    rw [List.find?_eq_none] at hfind
    exact absurd (beq_self_eq_true _) (hfind d hd)
  | some e =>
    have hname : e.name = d.name := by simpa using List.find?_some hfind
    have hvalue := h e (List.mem_of_find?_eq_some hfind) d hd hname
    simp [firstValue, hfind, hvalue]

/-- Lines pass unchanged where there is no conflict. -/
theorem resolveLines_nil (declared : List Text) (window : Option Nat) (names : Registry) :
    ∀ ls : List Text, resolveLines [] declared window names [] ls = (ls, names)
  | [] => rfl
  | line :: ls => by
    simp only [resolveLines, Renaming.visitAll, List.find?_nil, resolveLines_nil declared window names ls]

/-- A text in which every name has one value is returned as it is. -/
theorem resolveConflicts_of_consistent {s : Text} {es : List Declaration} (h : extract s = .ok es)
    (hes : ∀ d ∈ es, ∀ e ∈ es, d.name = e.name → d.value = e.value) (window : Int)
    (names : Registry) : resolveConflicts window names s = .ok (s, names) := by
  rw [resolveConflicts_eq h, conflicts_eq_nil hes, resolveLines_nil]
  dsimp only
  rw [Text.unlines_lines]

/-- **Resolving conflicts ends and leaves none**: every name has one value, the values and their
order are those of the text, the names made up are new, and there is nothing to resolve in the
result, whatever the window and the names taken. -/
theorem resolveConflicts_spec {s : Text} {ds : List Declaration} (window : Int) (names : Registry)
    (h : extract s = .ok ds) :
    (∀ (wanted : Text) (r : Registry), Retried (ds.map (·.name)) wanted r
      (freshVariable (ds.map (·.name)) wanted (ds.map (·.name)).length r)) ∧
    ∃ (out : Text) (names' : Registry) (es : List Declaration),
      resolveConflicts window names s = .ok (out, names') ∧ extract out = .ok es ∧
      (∀ d ∈ es, ∀ e ∈ es, d.name = e.name → d.value = e.value) ∧
      es.map (·.value) = ds.map (·.value) ∧
      (∀ (i : Nat) (d e : Declaration), ds[i]? = some d → es[i]? = some e → e.name ≠ d.name →
        Name.IsIdentifier e.name ∧ e.name ∉ ds.map (·.name) ∧ e.name ∉ names.vars ∧
        ∀ (j : Nat) (e' : Declaration), es[j]? = some e' → e'.name = e.name → j = i) ∧
      ∀ (window' : Int) (names'' : Registry),
        resolveConflicts window' names'' out = .ok (out, names'') := by
  refine ⟨fun wanted r => retried_freshVariable _ wanted r, ?_⟩
  obtain ⟨out, names', hout, hwf, _, hres⟩ := resolveConflicts_passage h window names
  have hextract := Declaration.extract_eq_ok.mpr ⟨hwf, rfl⟩
  have hone : ∀ d ∈ (Text.lines out).filterMap onLine?, ∀ e ∈ (Text.lines out).filterMap onLine?,
      d.name = e.name → d.value = e.value := fun d hd e he => hres.consistent hd he
  refine ⟨out, names', _, hout, hextract, hone, hres.map_value, ?_,
    resolveConflicts_of_consistent hextract hone⟩
  intro i d e hd he hne
  rcases hres.at_index hd he with ⟨_, rfl⟩ | ⟨_, _, hfresh⟩
  · exact absurd rfl hne
  · exact ⟨hfresh.identifier, hfresh.undeclared, hfresh.untaken,
      fun j e' he' hname => hres.unique he he' hfresh.undeclared hname⟩

/-- A name with two values, next to a variable with the name that its second one would get. -/
def repeated : Text :=
  utf8 "var a = 1;\nf(a);\nvar a = 2;\nvar a_ = 3;\ng(a, a_);\n\tvar  a =1 ;\nvar a = 2;\nh(a);"

def repeatedDeclarations : List Declaration :=
  [⟨utf8 "a", utf8 "1", utf8 "var a = 1;"⟩, ⟨utf8 "a", utf8 "2", utf8 "var a = 2;"⟩,
    ⟨utf8 "a_", utf8 "3", utf8 "var a_ = 3;"⟩, ⟨utf8 "a", utf8 "1", utf8 "\tvar  a =1 ;"⟩,
    ⟨utf8 "a", utf8 "2", utf8 "var a = 2;"⟩]

theorem resolveConflicts_spec_repeated :
    extract repeated = .ok repeatedDeclarations ∧
    ∃ (out : Text) (names' : Registry) (es : List Declaration),
      resolveConflicts 0 (Registry.ofReserved [utf8 "a_2"]) repeated = .ok (out, names') ∧
      extract out = .ok es ∧ (∀ d ∈ es, ∀ e ∈ es, d.name = e.name → d.value = e.value) ∧
      es.map (·.value) = [utf8 "1", utf8 "2", utf8 "3", utf8 "1", utf8 "2"] ∧
      ∀ (window : Int) (names : Registry),
        resolveConflicts window names out = .ok (out, names) := by
  have hextract : extract repeated = .ok repeatedDeclarations := by decide +kernel
  obtain ⟨_, out, names', es, hout, hes, hone, hvalues, _, hagain⟩ :=
    resolveConflicts_spec 0 (Registry.ofReserved [utf8 "a_2"]) hextract
  exact ⟨hextract, out, names', es, hout, hes, hone, hvalues, hagain⟩

end Pass

end ActionLog
