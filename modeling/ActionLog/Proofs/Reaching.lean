import ActionLog.Proofs.Conflict
import Mathlib.Logic.Function.Basic

/-!
# Uses keep the declarations that reach them

Without a window, a renaming goes on to the next declaration of the old name.

* `Renaming.target` — the name that renamings under way give to a name;
* `Renaming.visitAll_lasting_other`, `Renaming.visitAll_lasting_declaration` — such renamings are
  made together on a line, and end at a declaration of their name;
* `Reaching` — names stand for the same declarations before and after.

Principal results: `Passage.reaching` and `resolveConflicts_reaching` — every use names the
declaration that it named before.
-/

set_option autoImplicit false

namespace ActionLog.Pass

open Declaration (isDeclaration nameOf valueOf onLine? WellFormed extract)

theorem declares_other {line : Text} (h : isDeclaration line = false) (n : Text) :
    declares n line = false := by
  simp [declares, h]

/-! ## Renamings without limit -/

namespace Renaming

/-- A renaming without limit, from a declared name to one made up before. -/
structure Lasting (declared taken : List Text) (r : Renaming) : Prop where
  old_declared : r.old ∈ declared
  identifier : Name.IsIdentifier r.new
  underscore : Byte.underscore ∈ r.new
  undeclared : r.new ∉ declared
  new_taken : r.new ∈ taken
  unlimited : r.left = none

theorem Lasting.marked {declared taken : List Text} {r : Renaming} (h : r.Lasting declared taken) :
    r.Marked :=
  ⟨h.identifier.isRun, h.underscore⟩

theorem Lasting.mono {declared taken taken' : List Text} {r : Renaming}
    (h : r.Lasting declared taken) (hsub : taken ⊆ taken') : r.Lasting declared taken' :=
  { h with new_taken := hsub h.new_taken }

theorem Lasting.age {declared taken : List Text} {r : Renaming} (h : r.Lasting declared taken) :
    r.age = r := by
  obtain ⟨old, new, left⟩ := r
  have hleft : left = none := h.unlimited
  rw [hleft]
  rfl

/-- The name that renamings give to a name. -/
def target (rs : List Renaming) (n : Text) : Text :=
  ((rs.find? (·.old == n)).map (·.new)).getD n

theorem target_cons (r : Renaming) (rs : List Renaming) (n : Text) :
    target (r :: rs) n = if n = r.old then r.new else target rs n := by
  unfold target
  by_cases h : n = r.old
  · simp [h]
  · have hbeq : (r.old == n) = false := beq_eq_false_iff_ne.mpr (Ne.symm h)
    simp [h, hbeq]

theorem target_cases (rs : List Renaming) (n : Text) :
    target rs n = n ∨ ∃ r ∈ rs, target rs n = r.new := by
  unfold target
  cases hfind : rs.find? (·.old == n) with
  | none => exact .inl rfl
  | some r => exact .inr ⟨r, List.mem_of_find?_eq_some hfind, rfl⟩

theorem target_eq_self {rs : List Renaming} {n : Text} (h : ∀ r ∈ rs, r.old ≠ n) :
    target rs n = n := by
  have hfind : rs.find? (·.old == n) = none := by
    rw [List.find?_eq_none]
    intro r hr heq
    exact h r hr (beq_iff_eq.mp heq)
  unfold target
  rw [hfind]
  rfl

/-- Ending the renamings of a name and starting another one. -/
theorem target_restart (rs : List Renaming) (n m : Text) (left : Option Nat) :
    target (rs.filter (·.old != n) ++ [⟨n, m, left⟩]) = Function.update (target rs) n m := by
  funext x
  induction rs with
  | nil =>
    rw [List.filter_nil, List.nil_append, target_cons, Function.update_apply]
  | cons r rs ih =>
    by_cases hr : r.old = n
    · rw [List.filter_cons_of_neg (by simp [hr]), ih, Function.update_apply, Function.update_apply,
        target_cons, hr]
      split <;> rfl
    · rw [List.filter_cons_of_pos (by simpa using hr), List.cons_append, target_cons, ih,
        Function.update_apply, Function.update_apply, target_cons]
      by_cases hx : x = r.old
      · rw [if_pos hx, if_neg (by rw [hx]; exact hr), if_pos hx]
      · rw [if_neg hx, if_neg hx]

theorem target_end (rs : List Renaming) (n : Text) :
    target (rs.filter (·.old != n)) = Function.update (target rs) n n := by
  rw [← target_restart rs n n none]
  funext x
  induction rs.filter (·.old != n) with
  | nil =>
    rw [List.nil_append, target_cons]
    by_cases hx : x = n <;> simp [hx, target]
  | cons r rs ih => rw [List.cons_append, target_cons, target_cons, ih]

/-- What a renaming without limit makes of a line that is no declaration. -/
theorem visit_lasting_other {declared taken : List Text}
    (hdeclared : ∀ n ∈ declared, n ≠ [] ∧ Text.IsRun n) {r : Renaming}
    (hr : r.Lasting declared taken) {line : Text} (hline : isDeclaration line = false) :
    r.visit line =
      (Text.substitute (fun x => if x = r.old then r.new else x) line, some r) := by
  obtain ⟨hne, hrun⟩ := hdeclared r.old hr.old_declared
  rw [← Text.replaceWord_eq_substitute hne hrun]
  unfold visit
  rw [if_neg (by simp [hr.unlimited]), if_neg (by simp [hline])]
  by_cases hword : Text.hasWord r.old line = true
  · rw [if_pos hword, hr.unlimited]
    rfl
  · rw [if_neg hword, Text.replaceWord_of_not_hasWord r.new (by simpa using hword), hr.age]

/-- **Renamings without limit are made together on a line**, and go on. -/
theorem visitAll_lasting_other {declared taken : List Text}
    (hdeclared : ∀ n ∈ declared, n ≠ [] ∧ Text.IsRun n) {rs : List Renaming}
    (hrs : ∀ r ∈ rs, r.Lasting declared taken) {line : Text} (hnew : Byte.newline ∉ line)
    (hline : isDeclaration line = false) :
    visitAll rs line = (Text.substitute (target rs) line, rs) := by
  induction rs generalizing line with
  | nil => exact Prod.ext (Text.substitute_id line).symm rfl
  | cons r rs ih =>
    rw [List.forall_mem_cons] at hrs
    obtain ⟨hr, hrs⟩ := hrs
    have hvisit := visit_lasting_other hdeclared hr hline
    obtain ⟨hline', hnew'⟩ := visit_other hr.marked hnew hline
    rw [visitAll_cons, ih hrs hnew' hline', hvisit]
    refine Prod.ext ?_ rfl
    dsimp only
    rw [(Text.substitute_substitute _ _ ?_ line).1]
    · refine Text.substitute_congr (fun x _ _ => ?_) line
      -- a new name is no old one, so that what was renamed stays as it is
      rw [target_cons]
      split
      · exact target_eq_self fun q hq heq => hr.undeclared (heq ▸ (hrs q hq).old_declared)
      · rfl
    · intro x hxne hx
      split
      · exact ⟨hr.identifier.ne_nil, hr.identifier.isRun⟩
      · exact ⟨hxne, hx⟩

/-- **Renamings without limit end at a declaration of their name**, and at no other line. -/
theorem visitAll_lasting_declaration {declared taken : List Text} {rs : List Renaming}
    (hrs : ∀ r ∈ rs, r.Lasting declared taken) {line : Text} (hline : isDeclaration line = true) :
    (visitAll rs line).2 = rs.filter (·.old != nameOf line) := by
  induction rs with
  | nil => rfl
  | cons r rs ih =>
    rw [List.forall_mem_cons] at hrs
    have hvisit : r.visit line = (line, if nameOf line = r.old then none else some r) := by
      unfold visit
      rw [if_neg (by simp [hrs.1.unlimited]), if_pos hline]
      by_cases hname : nameOf line = r.old <;> simp [hname, hrs.1.age]
    rw [visitAll_cons, hvisit, ih hrs.2]
    by_cases hname : nameOf line = r.old
    · rw [if_pos hname, List.filter_cons_of_neg (by simp [hname])]
      rfl
    · rw [if_neg hname, List.filter_cons_of_pos (by simpa using Ne.symm hname)]
      rfl

end Renaming

/-! ## Declarations that reach a line -/

/-- Names before and after, where lines and what became of them stand above: a name declared
there stands for the name that its last declaration has now, which is the last one of that name and
has the same value; other names stand for themselves. -/
structure Reaching (above : List (Text × Text)) (ρ : Text → Text) : Prop where
  kept : ∀ n, (∀ q ∈ above, declares n q.1 = false) → ρ n = n
  last : ∀ (n : Text) (a : List (Text × Text)) (p : Text × Text) (b : List (Text × Text)),
    above = a ++ p :: b → declares n p.1 = true → (∀ q ∈ b, declares n q.1 = false) →
      declares (ρ n) p.2 = true ∧ (∀ q ∈ b, declares (ρ n) q.2 = false) ∧
        valueOf p.2 = valueOf p.1

theorem append_singleton_eq_split {α : Type} {zs a b : List α} {x p : α}
    (h : zs ++ [x] = a ++ p :: b) :
    (b = [] ∧ a = zs ∧ p = x) ∨ ∃ b', b = b' ++ [x] ∧ zs = a ++ p :: b' := by
  rcases List.eq_nil_or_concat b with rfl | ⟨b', y, rfl⟩
  · obtain ⟨rfl, hp⟩ := List.append_inj' h rfl
    exact .inl ⟨rfl, rfl, (List.singleton_inj.mp hp).symm⟩
  · rw [List.concat_eq_append, ← List.cons_append, ← List.append_assoc] at h
    obtain ⟨hzs, hy⟩ := List.append_inj' h rfl
    refine .inr ⟨b', ?_, hzs⟩
    rw [List.concat_eq_append, hy]

namespace Reaching

variable {above : List (Text × Text)} {ρ : Text → Text} {line out : Text}

theorem nil : Reaching [] fun n => n :=
  ⟨fun _ _ => rfl, fun _ a _ _ h => absurd h (by simp)⟩

/-- A line that declares nothing changes nothing. -/
theorem other (h : Reaching above ρ) (hline : isDeclaration line = false)
    (hout : isDeclaration out = false) : Reaching (above ++ [(line, out)]) ρ := by
  refine ⟨fun n hn => h.kept n fun q hq => hn q (List.mem_append_left _ hq), ?_⟩
  intro n a p b hsplit hp hb
  rcases append_singleton_eq_split hsplit with ⟨_, _, rfl⟩ | ⟨b', rfl, habove⟩
  · rw [declares_other hline] at hp
    cases hp
  · obtain ⟨hdecl, hlast, hvalue⟩ :=
      h.last n a p b' habove hp fun q hq => hb q (List.mem_append_left _ hq)
    refine ⟨hdecl, fun q hq => ?_, hvalue⟩
    rcases List.mem_append.mp hq with hq | hq
    · exact hlast q hq
    · rw [List.mem_singleton.mp hq]
      exact declares_other hout _

/-- A declaration takes its name over, if no other name stands for the one that it has now. -/
theorem declared (h : Reaching above ρ) {n m : Text} (hline : declares n line = true)
    (hout : declares m out = true) (hvalue : valueOf out = valueOf line)
    (hother : ∀ n', n' ≠ n → (∃ q ∈ above, declares n' q.1 = true) → ρ n' ≠ m) :
    Reaching (above ++ [(line, out)]) (Function.update ρ n m) := by
  constructor
  · intro n' hn'
    have hne : n' ≠ n := by
      rintro rfl
      have := hn' (line, out) (by simp)
      rw [hline] at this
      cases this
    rw [Function.update_of_ne hne]
    exact h.kept n' fun q hq => hn' q (List.mem_append_left _ hq)
  · intro n' a p b hsplit hp hb
    rcases append_singleton_eq_split hsplit with ⟨rfl, _, rfl⟩ | ⟨b', rfl, habove⟩
    · have hname : n' = n := (declares_iff.mp hp).2.symm.trans (declares_iff.mp hline).2
      rw [hname, Function.update_self]
      exact ⟨hout, fun q hq => absurd hq List.not_mem_nil, hvalue⟩
    · have hne : n' ≠ n := by
        rintro rfl
        have := hb (line, out) (by simp)
        rw [hline] at this
        cases this
      obtain ⟨hdecl, hlast, hvalue'⟩ :=
        h.last n' a p b' habove hp fun q hq => hb q (List.mem_append_left _ hq)
      rw [Function.update_of_ne hne]
      refine ⟨hdecl, fun q hq => ?_, hvalue'⟩
      rcases List.mem_append.mp hq with hq | hq
      · exact hlast q hq
      · rw [List.mem_singleton.mp hq, ← Bool.not_eq_true, declares_iff, not_and]
        intro _ heq
        refine hother n' hne ⟨p, by rw [habove]; simp, hp⟩ ?_
        rw [← heq]
        exact (declares_iff.mp hout).2

end Reaching

/-- Names that are declared above are among the declared ones. -/
def Names (declared : List Text) (above : List (Text × Text)) : Prop :=
  ∀ q ∈ above, ∀ n, declares n q.1 = true → n ∈ declared

theorem Names.snoc {declared : List Text} {above : List (Text × Text)} (h : Names declared above)
    {line out : Text} (hline : isDeclaration line = true → nameOf line ∈ declared) :
    Names declared (above ++ [(line, out)]) := by
  intro q hq n hn
  rcases List.mem_append.mp hq with hq | hq
  · exact h q hq n hn
  · rw [List.mem_singleton.mp hq, declares_iff] at hn
    exact hn.2 ▸ hline hn.1

section Step

variable {declared taken : List Text} {active : List Renaming} {above : List (Text × Text)}
  {line out : Text}

/-- A declaration that keeps its name ends the renamings of that name. -/
theorem Reaching.ended (h : Reaching above (Renaming.target active))
    (hactive : ∀ r ∈ active, r.Lasting declared taken) (hline : isDeclaration line = true)
    (hn : nameOf line ∈ declared) :
    Reaching (above ++ [(line, line)])
      (Renaming.target (active.filter (·.old != nameOf line))) := by
  rw [Renaming.target_end]
  have hself : declares (nameOf line) line = true := declares_iff.mpr ⟨hline, rfl⟩
  refine h.declared hself hself rfl fun n' hne _ heq => ?_
  rcases Renaming.target_cases active n' with htarget | ⟨r, hr, htarget⟩
  · exact hne (htarget.symm.trans heq)
  · exact (hactive r hr).undeclared (htarget ▸ heq ▸ hn)

/-- A declaration with a fresh name starts a renaming to that name. -/
theorem Reaching.restarted (h : Reaching above (Renaming.target active))
    (hactive : ∀ r ∈ active, r.Lasting declared taken) (hnames : Names declared above)
    {n name : Text} (hline : declares n line = true) (hout : declares name out = true)
    (hvalue : valueOf out = valueOf line) (hfresh : IsFresh declared taken name)
    (left : Option Nat) :
    Reaching (above ++ [(line, out)])
      (Renaming.target (active.filter (·.old != n) ++ [⟨n, name, left⟩])) := by
  rw [Renaming.target_restart]
  refine h.declared hline hout hvalue fun n' _ hex heq => ?_
  rcases Renaming.target_cases active n' with htarget | ⟨r, hr, htarget⟩
  · obtain ⟨q, hq, hqn⟩ := hex
    rw [htarget] at heq
    exact hfresh.undeclared (heq ▸ hnames q hq n' hqn)
  · exact hfresh.untaken (heq ▸ htarget ▸ (hactive r hr).new_taken)

end Step

/-- A line that is no declaration stands behind the declarations above it. -/
theorem zip_cons_split {l o line out : Text} {ls os : List Text} {before after : List (Text × Text)}
    (hl : isDeclaration l = true) (hline : isDeclaration line = false)
    (hsplit : (l :: ls).zip (o :: os) = before ++ (line, out) :: after) :
    ∃ before', before = (l, o) :: before' ∧ ls.zip os = before' ++ (line, out) :: after := by
  rw [List.zip_cons_cons] at hsplit
  rcases List.cons_eq_append_iff.mp hsplit with ⟨_, hhead⟩ | ⟨before', rfl, hrest⟩
  · cases hhead
    rw [hl] at hline
    cases hline
  · exact ⟨before', rfl, hrest⟩

/-- **What a passage without a window makes of a line that is no declaration.**  The induction
carries what stands above: the renamings under way say what became of its last declarations. -/
theorem Passage.reaching {clashes : List Declaration} {declared : List Text}
    {names names' : Registry} {active : List Renaming} {ls os : List Text}
    (h : Passage clashes declared none names active ls os names')
    (hclashes : ∀ d ∈ clashes, onLine? d.line = some d)
    (hruns : ∀ n ∈ declared, n ≠ [] ∧ Text.IsRun n) (hls : ∀ l ∈ ls, Byte.newline ∉ l)
    (hdeclared : ∀ l ∈ ls, isDeclaration l = true → nameOf l ∈ declared)
    (hactive : ∀ r ∈ active, r.Lasting declared names.vars) {above : List (Text × Text)}
    (habove : Reaching above (Renaming.target active))
    (hnames : Names declared above)
    {before after : List (Text × Text)} {line out : Text}
    (hsplit : ls.zip os = before ++ (line, out) :: after) (hline : isDeclaration line = false) :
    ∃ ρ, out = Text.substitute ρ line ∧ Reaching (above ++ before) ρ := by
  induction h generalizing above before with
  | nil => simp at hsplit
  | @other names names' active l ls os hl hout _ _ ih =>
    rw [List.forall_mem_cons] at hls hdeclared
    have hvisit := Renaming.visitAll_lasting_other hruns hactive hls.1 hl
    rw [List.zip_cons_cons] at hsplit
    rcases List.cons_eq_append_iff.mp hsplit with ⟨rfl, hhead⟩ | ⟨before', rfl, hrest⟩
    · cases hhead
      refine ⟨_, congrArg Prod.fst hvisit, ?_⟩
      rw [List.append_nil]
      exact habove
    · rw [List.append_cons]
      refine ih hls.2 hdeclared.2 ?_ ?_ (hnames.snoc hdeclared.1) hrest
      · rw [congrArg Prod.snd hvisit]
        exact hactive
      · rw [congrArg Prod.snd hvisit]
        exact habove.other hl hout
  | @kept names names' active l ls os hl _ _ ih =>
    rw [List.forall_mem_cons] at hls hdeclared
    have hn := hdeclared.1 hl
    have hvisit := Renaming.visitAll_lasting_declaration hactive hl
    obtain ⟨before', rfl, hrest⟩ := zip_cons_split hl hline hsplit
    rw [List.append_cons]
    refine ih hls.2 hdeclared.2 ?_ ?_ (hnames.snoc fun _ => hn) hrest
    · rw [hvisit]
      exact fun r hr => hactive r (List.mem_filter.mp hr).1
    · rw [hvisit]
      exact habove.ended hactive hl hn
  | @renamed names names₁ names' active d name ls os hd hname _ ih =>
    rw [List.forall_mem_cons] at hls hdeclared
    obtain ⟨hl, hparse⟩ := Declaration.onLine?_eq_some.mp (hclashes d hd)
    obtain ⟨_, hdname, hdvalue, _⟩ := Declaration.line_of_onLine? (hclashes d hd)
    have hn := hdeclared.1 hl
    have hvisit := Renaming.visitAll_lasting_declaration hactive hl
    obtain ⟨hfresh, htaken, hsub⟩ := hname.spec
    obtain ⟨hout, _, hparse'⟩ := Declaration.rename_spec hl hls.1 hparse hfresh.identifier.ne_nil
      hfresh.identifier.isRun
    obtain ⟨_, hname', hvalue', _⟩ :=
      Declaration.line_of_onLine? (Declaration.onLine?_eq_some.mpr ⟨hout, hparse'⟩)
    obtain ⟨before', rfl, hrest⟩ := zip_cons_split hl hline hsplit
    rw [List.append_cons]
    refine ih hls.2 hdeclared.2 ?_ ?_ (hnames.snoc fun _ => hn) hrest
    · rw [hvisit]
      intro r hr
      rcases List.mem_append.mp hr with hr | hr
      · exact (hactive r (List.mem_filter.mp hr).1).mono hsub
      · rw [List.mem_singleton.mp hr]
        exact ⟨hdname ▸ hn, hfresh.identifier, hfresh.underscore, hfresh.undeclared, htaken, rfl⟩
    · rw [hvisit, hdname]
      exact habove.restarted hactive hnames (declares_iff.mpr ⟨hl, rfl⟩)
        (declares_iff.mpr ⟨hout, hname'.symm⟩) (hvalue'.symm.trans hdvalue) hfresh none

/-- **Without a window, every use names the declaration that it named before**: on a line that is no
declaration, all names are renamed at once, each to the name that its last declaration above has
now. -/
theorem resolveConflicts_reaching {s : Text} {ds : List Declaration} {window : Int}
    (names : Registry) (h : extract s = .ok ds) (hnames : ∀ d ∈ ds, Text.IsRun d.name)
    (hwindow : window ≤ 0) :
    ∃ (out : Text) (names' : Registry), resolveConflicts window names s = .ok (out, names') ∧
      (Text.lines out).length = (Text.lines s).length ∧
      ∀ (before after : List (Text × Text)) (line line' : Text),
        (Text.lines s).zip (Text.lines out) = before ++ (line, line') :: after →
        isDeclaration line = false →
        ∃ ρ : Text → Text, line' = Text.substitute ρ line ∧ Reaching before ρ := by
  obtain ⟨out, names', hout, _, hpass, _⟩ := resolveConflicts_passage h window names
  rw [if_pos hwindow] at hpass
  refine ⟨out, names', hout, hpass.length_eq, fun before after line line' hsplit hline => ?_⟩
  have hdeclared : ∀ l ∈ Text.lines s, isDeclaration l = true → nameOf l ∈ ds.map (·.name) := by
    intro l hl hdecl
    obtain ⟨d, hd, hname, _⟩ := Declaration.exists_of_isDeclaration h hl hdecl
    rw [← hname]
    exact List.mem_map_of_mem hd
  exact hpass.reaching (fun d hd => Declaration.onLine?_of_mem h (List.mem_filter.mp hd).1)
    (Declaration.runs_of_extract h hnames) (fun l hl => Text.newline_not_mem hl) hdeclared
    (fun r hr => absurd hr List.not_mem_nil) Reaching.nil (fun q hq => absurd hq List.not_mem_nil)
    hsplit hline

/-- Two names that are declared anew, one of them with its first value again. -/
def crossed : Text :=
  utf8 "var a = 1;\nvar b = 1;\nvar a = 2;\nvar b = 2;\nf(a, b, ab);\nvar a = 1;\ng(a+b);"

def crossedResolved : Text :=
  utf8 "var a = 1;\nvar b = 1;\nvar a_ = 2;\nvar b_ = 2;\nf(a_, b_, ab);\nvar a = 1;\ng(a+b_);"

def crossedDeclarations : List Declaration :=
  [⟨utf8 "a", utf8 "1", utf8 "var a = 1;"⟩, ⟨utf8 "b", utf8 "1", utf8 "var b = 1;"⟩,
    ⟨utf8 "a", utf8 "2", utf8 "var a = 2;"⟩, ⟨utf8 "b", utf8 "2", utf8 "var b = 2;"⟩,
    ⟨utf8 "a", utf8 "1", utf8 "var a = 1;"⟩]

theorem resolveConflicts_reaching_crossed :
    extract crossed = .ok crossedDeclarations ∧
    (Text.lines crossedResolved).length = (Text.lines crossed).length ∧
    ∃ ρ : Text → Text, utf8 "g(a+b_);" = Text.substitute ρ (utf8 "g(a+b);") ∧
      Reaching ((Text.lines crossed).zip (Text.lines crossedResolved)).dropLast ρ := by
  have hextract : extract crossed = .ok crossedDeclarations := by decide +kernel
  have hresolved : resolveConflicts 0 (Registry.ofReserved []) crossed =
      .ok (crossedResolved, ⟨[], [utf8 "b_", utf8 "a_"], [], []⟩) := by
    decide +kernel
  obtain ⟨out, names', hout, hlength, huses⟩ := resolveConflicts_reaching
    (Registry.ofReserved []) hextract (by decide +kernel) (Int.le_refl 0)
  rw [hresolved] at hout
  obtain ⟨rfl, _⟩ := Prod.mk.inj (Except.ok.inj hout)
  exact ⟨hextract, hlength, huses _ [] _ _ (by decide +kernel) (by decide +kernel)⟩

end ActionLog.Pass
