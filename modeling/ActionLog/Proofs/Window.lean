import ActionLog.Proofs.Initialiser
import ActionLog.Proofs.Reaching
import ActionLog.Proofs.Substitution

/-!
# What a window lets through

With a window, a renaming looks at that many lines and ends with the first use.  The renamings under
way at a line can be read off the lines above it, and so can the uses that are renamed.

* `passesOver` — the lines that neither declare a name nor use it;
* `Renaming.visitAll_limited` — renamings with a limit are made together on a line, and those go on
  that pass over it;
* `Started` — a renaming, by the declaration above that started it;
* `Windowed` — the renamings under way are the started ones; `Windowed.step` and `Windowed.start`
  keep that along a line, and `Passage.windowed` along all lines;
* `Conflicting`, `FirstUse` — the declarations and the uses that are renamed.

Principal result: `resolveConflicts_window` — exactly these lines change, and how.
-/

set_option autoImplicit false

namespace ActionLog

namespace Text

/-- A name is found after a substitution where it was before, if it stands for itself only. -/
theorem hasWord_substitute_self {f : Text → Text} {n : Text} (hne : n ≠ []) (hn : IsRun n)
    (hf : ∀ x, x ≠ [] → IsRun x → IsRun (f x)) (hself : ∀ x, f x = n ↔ x = n) (s : Text) :
    hasWord n (substitute f s) = hasWord n s := by
  rw [Bool.eq_iff_iff, hasWord_substitute hn]
  constructor
  · rintro ⟨x, hx, hword, hinner⟩
    obtain ⟨_, a, b, hin⟩ := hasWord_iff.mp hinner
    obtain ⟨hxne, _⟩ := hasWord_iff.mp hword
    have hfx : n = f x := (word_of_isRun (hf x hxne hx) hin).1
    rwa [← (hself x).mp hfx.symm]
  · intro hword
    refine ⟨n, hn, hword, ?_⟩
    rw [(hself n).mpr rfl]
    exact hasWord_iff.mpr ⟨hne, [], [], by simp, rfl, rfl⟩

end Text

namespace Pass

open Declaration (isDeclaration nameOf valueOf onLine? WellFormed extract)

/-- Whether a line neither declares a name nor uses it. -/
def passesOver (n line : Text) : Bool :=
  if isDeclaration line then nameOf line != n else !Text.hasWord n line

/-! ## Renamings with a limit -/

namespace Renaming

/-- A renaming with a limit, from a declared name to one that was made up. -/
structure Limited (declared : List Text) (r : Renaming) : Prop where
  old_declared : r.old ∈ declared
  identifier : Name.IsIdentifier r.new
  underscore : Byte.underscore ∈ r.new
  undeclared : r.new ∉ declared
  limited : r.left.isSome = true

/-- Whether a renaming is made on a line that is no declaration. -/
def acts (line : Text) (r : Renaming) : Bool := r.left != some 0 && Text.hasWord r.old line

/-- **A renaming with a limit goes on** where lines are left and the line is passed over. -/
theorem visit_limited {r : Renaming} (hr : r.left.isSome = true) (line : Text) (k : Renaming) :
    (r.visit line).2 = some k ↔
      r.left ≠ some 0 ∧ passesOver r.old line = true ∧ r.age = k := by
  unfold visit passesOver
  by_cases hleft : r.left = some 0
  · simp [hleft]
  · rw [if_neg hleft]
    cases hline : isDeclaration line with
    | true => by_cases hname : nameOf line = r.old <;> simp [hname, hleft]
    | false => cases hword : Text.hasWord r.old line <;> simp [hleft, hr]

variable {declared : List Text} {r : Renaming} {rs : List Renaming} {line : Text}

theorem Limited.age (h : r.Limited declared) : r.age.Limited declared := by
  refine { h with limited := ?_ }
  rw [Renaming.age, Option.isSome_map]
  exact h.limited

/-- What a renaming with a limit makes of a line that is no declaration. -/
theorem visit_limited_other (hruns : ∀ n ∈ declared, n ≠ [] ∧ Text.IsRun n)
    (hr : r.Limited declared) (hline : isDeclaration line = false) :
    (r.visit line).1 =
      Text.substitute (fun x => if x = r.old ∧ r.acts line = true then r.new else x) line := by
  obtain ⟨hne, hrun⟩ := hruns r.old hr.old_declared
  unfold visit
  cases hacts : r.acts line with
  | false =>
    simp only [Bool.false_eq_true, and_false, if_false]
    rw [Text.substitute_id]
    unfold acts at hacts
    by_cases hleft : r.left = some 0
    · rw [if_pos hleft]
    · have hword : Text.hasWord r.old line = false := by simpa [hleft] using hacts
      simp [hleft, hline, hword]
  | true =>
    simp only [acts, Bool.and_eq_true, bne_iff_ne] at hacts
    simp only [and_true]
    rw [← Text.replaceWord_eq_substitute hne hrun, if_neg hacts.1, if_neg (by simp [hline]),
      if_pos hacts.2]

/-- What a renaming makes of a line does not concern the other names. -/
theorem hasWord_visit (hruns : ∀ n ∈ declared, n ≠ [] ∧ Text.IsRun n) (hr : r.Limited declared)
    (hline : isDeclaration line = false) {n : Text} (hn : n ∈ declared) (hne : n ≠ r.old) :
    Text.hasWord n (r.visit line).1 = Text.hasWord n line := by
  have hnew : n ≠ r.new := fun heq => hr.undeclared (heq ▸ hn)
  rw [visit_limited_other hruns hr hline]
  refine Text.hasWord_substitute_self (hruns n hn).1 (hruns n hn).2 (fun x _ hx => ?_)
    (fun x => ?_) line
  · split
    · exact hr.identifier.isRun
    · exact hx
  · split
    · rename_i hx
      exact ⟨fun heq => absurd heq.symm hnew, fun heq => absurd (heq.symm.trans hx.1) hne⟩
    · exact Iff.rfl

/-- One renaming after another, where a new name is no old one. -/
theorem target_acts (hr : r.Limited declared) (hrs : ∀ q ∈ rs, q.Limited declared) (x : Text) :
    target (rs.filter (acts line)) (if x = r.old ∧ r.acts line = true then r.new else x) =
      target ((r :: rs).filter (acts line)) x := by
  have hself : target (rs.filter (acts line)) r.new = r.new :=
    target_eq_self fun q hq heq =>
      hr.undeclared (heq ▸ (hrs q (List.mem_filter.mp hq).1).old_declared)
  cases hacts : r.acts line with
  | true =>
    rw [List.filter_cons_of_pos hacts, target_cons]
    by_cases hx : x = r.old <;> simp [hx, hself]
  | false =>
    rw [List.filter_cons_of_neg (by simp [hacts])]
    simp

/-- The renamings that go on behind a line. -/
def passing (line : Text) (rs : List Renaming) : List Renaming :=
  rs.filterMap fun r => (r.visit line).2

theorem passing_cons (line : Text) (r : Renaming) (rs : List Renaming) :
    passing line (r :: rs) = (r.visit line).2.toList ++ passing line rs := by
  unfold passing
  rw [List.filterMap_cons]
  cases (r.visit line).2 <;> rfl

/-- **Renamings with a limit are made together on a line**, and those go on that pass over it.  None
of them sees what the others make of the line. -/
theorem visitAll_limited (hruns : ∀ n ∈ declared, n ≠ [] ∧ Text.IsRun n)
    (hrs : ∀ r ∈ rs, r.Limited declared) (hdistinct : rs.Pairwise fun r q => r.old ≠ q.old)
    (hnew : Byte.newline ∉ line) (hline : isDeclaration line = false) :
    visitAll rs line =
      (Text.substitute (target (rs.filter (acts line))) line, passing line rs) := by
  induction rs generalizing line with
  | nil => exact Prod.ext (Text.substitute_id line).symm rfl
  | cons r rs ih =>
    rw [List.forall_mem_cons] at hrs
    rw [List.pairwise_cons] at hdistinct
    obtain ⟨hr, hrs⟩ := hrs
    obtain ⟨hline', hnew'⟩ :=
      visit_other ⟨hr.identifier.isRun, hr.underscore⟩ hnew hline
    have hwords : ∀ q ∈ rs, Text.hasWord q.old (r.visit line).1 = Text.hasWord q.old line :=
      fun q hq => hasWord_visit hruns hr hline (hrs q hq).old_declared
        (Ne.symm (hdistinct.1 q hq))
    have hacts : rs.filter (acts (r.visit line).1) = rs.filter (acts line) :=
      List.filter_congr fun q hq => by rw [acts, acts, hwords q hq]
    have hkept : passing (r.visit line).1 rs = passing line rs := by
      refine List.filterMap_congr fun q hq => ?_
      have hover : passesOver q.old (r.visit line).1 = passesOver q.old line := by
        rw [passesOver, passesOver, hline, hline', hwords q hq]
        rfl
      ext k
      rw [visit_limited (hrs q hq).limited, visit_limited (hrs q hq).limited, hover]
    rw [visitAll_cons, ih hrs hdistinct.2 hnew' hline', hacts, hkept, passing_cons]
    refine Prod.ext ?_ rfl
    dsimp only
    rw [visit_limited_other hruns hr hline, (Text.substitute_substitute _ _ ?_ line).1]
    · exact Text.substitute_congr (fun x _ _ => target_acts hr hrs x) line
    · intro x hxne hx
      split
      · exact ⟨hr.identifier.ne_nil, hr.identifier.isRun⟩
      · exact ⟨hxne, hx⟩

/-- On a declaration, those go on that pass over it. -/
theorem visitAll_passing (hline : isDeclaration line = true) (rs : List Renaming) :
    (visitAll rs line).2 = passing line rs := by
  induction rs with
  | nil => rfl
  | cons r rs ih =>
    have hvisit : (r.visit line).1 = line := visitAll_declaration hline [r]
    rw [visitAll_cons, hvisit, ih, passing_cons]

/-- A name for which there is a renaming is renamed so. -/
theorem target_of_mem (hdistinct : rs.Pairwise fun r q => r.old ≠ q.old) (hr : r ∈ rs) :
    target rs r.old = r.new := by
  induction rs with
  | nil => cases hr
  | cons q rs ih =>
    rw [List.pairwise_cons] at hdistinct
    rw [target_cons]
    rcases List.mem_cons.mp hr with rfl | hr
    · rw [if_pos rfl]
    · rw [if_neg (Ne.symm (hdistinct.1 r hr)), ih hdistinct.2 hr]

/-- **A name for which there is a renaming is gone afterwards.** -/
theorem hasWord_target (hruns : ∀ n ∈ declared, n ≠ [] ∧ Text.IsRun n)
    (hrs : ∀ r ∈ rs, r.Limited declared) (hdistinct : rs.Pairwise fun r q => r.old ≠ q.old)
    (hr : r ∈ rs) (line : Text) :
    Text.hasWord r.old (Text.substitute (target rs) line) = false := by
  have hold := (hrs r hr).old_declared
  rw [← Bool.not_eq_true, Text.hasWord_substitute (hruns r.old hold).2]
  rintro ⟨x, hx, _, hword⟩
  obtain ⟨_, a, b, hin⟩ := Text.hasWord_iff.mp hword
  rcases target_cases rs x with hsame | ⟨q, hq, hnew⟩
  · -- a name that stays is another one
    rw [hsame] at hin
    rw [← (Text.word_of_isRun hx hin).1, target_of_mem hdistinct hr] at hsame
    exact (hrs r hr).undeclared (hsame ▸ hold)
  · rw [hnew] at hin
    have hq := hrs q hq
    exact hq.undeclared ((Text.word_of_isRun hq.identifier.isRun hin).1 ▸ hold)

end Renaming

/-! ## Renamings under way -/

/-- A renaming under way behind lines and what became of them.  A declaration in conflict started
it; the lines since then were passed over, and `w` counts them and those that are left. -/
def Started (clashes : List Declaration) (w : Nat) (above : List (Text × Text)) (r : Renaming) :
    Prop :=
  ∃ i p, above[i]? = some p ∧ (∃ d ∈ clashes, d.line = p.1 ∧ d.name = r.old) ∧
    nameOf p.2 = r.new ∧ (∃ left, r.left = some left ∧ above.length + left = i + 1 + w) ∧
    ∀ k q, i < k → above[k]? = some q → passesOver r.old q.1 = true

theorem started_nil {clashes : List Declaration} {w : Nat} {r : Renaming} :
    ¬ Started clashes w [] r := by
  rintro ⟨i, p, hp, _⟩
  cases hp

/-- **One line further**, a renaming is started there, or was and goes on. -/
theorem started_snoc {clashes : List Declaration} {w : Nat} {above : List (Text × Text)}
    {line out : Text} {r : Renaming} : Started clashes w (above ++ [(line, out)]) r ↔
      ((∃ d ∈ clashes, d.line = line ∧ d.name = r.old) ∧ nameOf out = r.new ∧ r.left = some w) ∨
      ∃ q, Started clashes w above q ∧ (q.visit line).2 = some r := by
  have hend : (above ++ [(line, out)])[above.length]? = some (line, out) := by simp
  constructor
  · rintro ⟨i, p, hp, hclash, hname, ⟨left, hleft, hcount⟩, hpass⟩
    obtain ⟨hi, _⟩ := List.getElem?_eq_some_iff.mp hp
    rw [List.length_append, List.length_singleton] at hi hcount
    rcases Nat.lt_or_eq_of_le (Nat.le_of_lt_succ hi) with hi | rfl
    · rw [List.getElem?_append_left hi] at hp
      refine .inr ⟨⟨r.old, r.new, some (left + 1)⟩,
        ⟨i, p, hp, hclash, hname, ⟨left + 1, rfl, ?_⟩, ?_⟩,
        (Renaming.visit_limited rfl line r).mpr ⟨by simp, hpass _ _ hi hend, ?_⟩⟩
      · omega
      · intro k q hk hq
        obtain ⟨hlt, _⟩ := List.getElem?_eq_some_iff.mp hq
        exact hpass k q hk (by rw [List.getElem?_append_left hlt, hq])
      · obtain ⟨old, new, _⟩ := r
        exact congrArg (Renaming.mk old new) hleft.symm
    · rw [hend] at hp
      cases hp
      refine .inl ⟨hclash, hname, ?_⟩
      rw [hleft]
      exact congrArg some (by omega)
  · rintro (⟨hclash, hname, hleft⟩ |
      ⟨q, ⟨i, p, hp, hclash, hname, ⟨left, hleft, hcount⟩, hpass⟩, hvisit⟩)
    · refine ⟨above.length, (line, out), hend, hclash, hname, ⟨w, hleft, by simp⟩, ?_⟩
      intro k x hk hx
      obtain ⟨hlt, _⟩ := List.getElem?_eq_some_iff.mp hx
      rw [List.length_append, List.length_singleton] at hlt
      omega
    · obtain ⟨hne, hover, rfl⟩ := (Renaming.visit_limited (by rw [hleft]; rfl) line r).mp hvisit
      obtain ⟨hi, _⟩ := List.getElem?_eq_some_iff.mp hp
      have hpos : left ≠ 0 := by
        rintro rfl
        exact hne hleft
      refine ⟨i, p, by rw [List.getElem?_append_left hi, hp], hclash, hname, ⟨left - 1, ?_, ?_⟩, ?_⟩
      · rw [Renaming.age, hleft]
        rfl
      · rw [List.length_append, List.length_singleton]
        omega
      · intro k x hk hx
        obtain ⟨hlt, _⟩ := List.getElem?_eq_some_iff.mp hx
        rw [List.length_append, List.length_singleton] at hlt
        rcases Nat.lt_or_eq_of_le (Nat.le_of_lt_succ hlt) with hlt | rfl
        · exact hpass k x hk (by rwa [List.getElem?_append_left hlt] at hx)
        · rw [hend] at hx
          cases hx
          exact hover

/-- The renamings under way behind lines: those that were started there, one for each name. -/
structure Windowed (clashes : List Declaration) (declared : List Text) (w : Nat)
    (above : List (Text × Text)) (active : List Renaming) : Prop where
  limited : ∀ r ∈ active, r.Limited declared
  distinct : active.Pairwise fun r q => r.old ≠ q.old
  mem_iff : ∀ r, r ∈ active ↔ Started clashes w above r

namespace Windowed

variable {clashes : List Declaration} {declared : List Text} {w : Nat}
  {above : List (Text × Text)} {active : List Renaming} {line out : Text}

theorem nil : Windowed clashes declared w [] [] :=
  ⟨fun _ hr => absurd hr List.not_mem_nil, .nil,
    fun _ => iff_of_false List.not_mem_nil started_nil⟩

/-- What goes on is of the same kind. -/
theorem passing (h : Windowed clashes declared w above active) (line : Text) :
    (∀ k ∈ Renaming.passing line active, k.Limited declared ∧ passesOver k.old line = true) ∧
    (Renaming.passing line active).Pairwise fun r q => r.old ≠ q.old := by
  constructor
  · intro k hk
    obtain ⟨r, hr, hvisit⟩ := List.mem_filterMap.mp hk
    have hlimited := h.limited r hr
    obtain ⟨_, hover, rfl⟩ := (Renaming.visit_limited hlimited.limited line k).mp hvisit
    exact ⟨hlimited.age, hover⟩
  · refine List.pairwise_filterMap.mpr (h.distinct.imp fun hne k hk k' hk' => ?_)
    rw [(Renaming.visit_kept hk).1, (Renaming.visit_kept hk').1]
    exact hne

theorem mem_passing (h : Windowed clashes declared w above active) (line : Text) (k : Renaming) :
    k ∈ Renaming.passing line active ↔
      ∃ r, Started clashes w above r ∧ (r.visit line).2 = some k := by
  simp only [Renaming.passing, List.mem_filterMap, h.mem_iff]

/-- **A line without a conflict starts nothing.** -/
theorem step (h : Windowed clashes declared w above active)
    (hclash : ∀ d ∈ clashes, d.line ≠ line) :
    Windowed clashes declared w (above ++ [(line, out)]) (Renaming.passing line active) := by
  obtain ⟨heach, hdistinct⟩ := h.passing line
  refine ⟨fun k hk => (heach k hk).1, hdistinct, fun k => ?_⟩
  rw [h.mem_passing, started_snoc]
  refine ⟨.inr, fun hstarted => hstarted.resolve_left ?_⟩
  rintro ⟨⟨d, hd, hline, _⟩, _⟩
  exact hclash d hd hline

/-- **A declaration in conflict starts one renaming**, and ends those of its name. -/
theorem start (h : Windowed clashes declared w above active)
    (hclashes : ∀ d ∈ clashes, onLine? d.line = some d) {d : Declaration} (hd : d ∈ clashes)
    (hdeclared : d.name ∈ declared) {taken : List Text}
    (hfresh : IsFresh declared taken (nameOf out)) :
    Windowed clashes declared w (above ++ [(d.line, out)])
      (Renaming.passing d.line active ++ [⟨d.name, nameOf out, some w⟩]) := by
  obtain ⟨heach, hdistinct⟩ := h.passing d.line
  have hline := (Declaration.onLine?_eq_some.mp (hclashes d hd)).1
  have hname : d.name = nameOf d.line := (Declaration.line_of_onLine? (hclashes d hd)).2.1
  refine ⟨fun k hk => ?_, ?_, fun k => ?_⟩
  · rcases List.mem_append.mp hk with hk | hk
    · exact (heach k hk).1
    · rw [List.mem_singleton.mp hk]
      exact ⟨hdeclared, hfresh.identifier, hfresh.underscore, hfresh.undeclared, rfl⟩
  · refine List.pairwise_append.mpr ⟨hdistinct, List.pairwise_singleton _ _, ?_⟩
    intro k hk q hq
    rw [List.mem_singleton.mp hq, hname]
    have hover := (heach k hk).2
    rw [passesOver, if_pos hline, bne_iff_ne] at hover
    exact Ne.symm hover
  · rw [List.mem_append, h.mem_passing, started_snoc, List.mem_singleton, or_comm]
    refine or_congr_left ⟨?_, ?_⟩
    · rintro rfl
      exact ⟨⟨d, hd, rfl, rfl⟩, rfl, rfl⟩
    · rintro ⟨⟨d', hd', hsame, hold⟩, hnew, hleft⟩
      -- a line declares one thing
      have hdd : d' = d := by
        have honline := hclashes d' hd'
        rw [hsame, hclashes d hd] at honline
        exact (Option.some.inj honline).symm
      obtain ⟨old, new, left⟩ := k
      subst hdd hold hnew hleft
      rfl

end Windowed

/-- A declaration with a fresh name declares that name. -/
theorem IsFresh.nameOf_rename {declared taken : List Text} {name : Text} {d : Declaration}
    (h : IsFresh declared taken name) (hd : onLine? d.line = some d)
    (hnew : Byte.newline ∉ d.line) : nameOf (Declaration.rename d.line name) = name := by
  obtain ⟨hline, hparse⟩ := Declaration.onLine?_eq_some.mp hd
  obtain ⟨hout, _, hparse'⟩ :=
    Declaration.rename_spec hline hnew hparse h.identifier.ne_nil h.identifier.isRun
  exact (Declaration.line_of_onLine? (Declaration.onLine?_eq_some.mpr ⟨hout, hparse'⟩)).2.1.symm

/-- **What a passage with a window makes of a line that is no declaration.**  The induction carries
the renamings that the lines above have started. -/
theorem Passage.windowed {clashes : List Declaration} {declared : List Text} {w : Nat}
    {names names' : Registry} {active : List Renaming} {ls os : List Text}
    (h : Passage clashes declared (some w) names active ls os names')
    (hclashes : ∀ d ∈ clashes, onLine? d.line = some d)
    (hruns : ∀ n ∈ declared, n ≠ [] ∧ Text.IsRun n) (hls : ∀ l ∈ ls, Byte.newline ∉ l)
    (hdeclared : ∀ l ∈ ls, isDeclaration l = true → nameOf l ∈ declared)
    {above : List (Text × Text)} (habove : Windowed clashes declared w above active)
    {j : Nat} {line out : Text} (hline : ls[j]? = some line) (hout : os[j]? = some out)
    (hother : isDeclaration line = false) :
    ∃ rs, out = Text.substitute (Renaming.target (rs.filter (Renaming.acts line))) line ∧
      Windowed clashes declared w (above ++ (ls.zip os).take j) rs := by
  induction h generalizing above j with
  | nil => cases hline
  | @other names names' active l ls os hl _ _ _ ih =>
    rw [List.forall_mem_cons] at hls hdeclared
    have hvisit := Renaming.visitAll_limited hruns habove.limited habove.distinct hls.1 hl
    cases j with
    | zero =>
      cases hline
      cases hout
      refine ⟨active, congrArg Prod.fst hvisit, ?_⟩
      rw [List.take_zero, List.append_nil]
      exact habove
    | succ j =>
      rw [List.zip_cons_cons, List.take_succ_cons, List.append_cons]
      refine ih hls.2 hdeclared.2 ?_ hline hout
      rw [congrArg Prod.snd hvisit]
      refine habove.step fun d hd heq => ?_
      have hdecl := (Declaration.onLine?_eq_some.mp (hclashes d hd)).1
      rw [heq, hl] at hdecl
      cases hdecl
  | @kept names names' active l ls os hl hclash _ ih =>
    rw [List.forall_mem_cons] at hls hdeclared
    cases j with
    | zero =>
      cases hline
      rw [hl] at hother
      cases hother
    | succ j =>
      rw [List.zip_cons_cons, List.take_succ_cons, List.append_cons]
      refine ih hls.2 hdeclared.2 ?_ hline hout
      rw [Renaming.visitAll_passing hl]
      exact habove.step hclash
  | @renamed names names₁ names' active d name ls os hd hname _ ih =>
    rw [List.forall_mem_cons] at hls hdeclared
    have hl := (Declaration.onLine?_eq_some.mp (hclashes d hd)).1
    have hdname := (Declaration.line_of_onLine? (hclashes d hd)).2.1
    have hfresh := hname.spec.1
    have hname' := hfresh.nameOf_rename (hclashes d hd) hls.1
    cases j with
    | zero =>
      cases hline
      rw [hl] at hother
      cases hother
    | succ j =>
      rw [List.zip_cons_cons, List.take_succ_cons, List.append_cons]
      refine ih hls.2 hdeclared.2 ?_ hline hout
      rw [Renaming.visitAll_passing hl]
      have hfresh' : IsFresh declared names.vars (nameOf (Declaration.rename d.line name)) := by
        rw [hname']
        exact hfresh
      have hstart := habove.start hclashes hd (hdname ▸ hdeclared.1 hl) hfresh'
      rwa [hname'] at hstart

/-! ## Declarations and uses that are renamed -/

/-- Line `i` declares `n` with another value than the first one of `n`. -/
def Conflicting (ds : List Declaration) (ls : List Text) (i : Nat) (n : Text) : Prop :=
  ∃ line, ls[i]? = some line ∧ declares n line = true ∧ firstValue ds n ≠ some (valueOf line)

/-- Line `j` is the use of `n` that is renamed with its declaration on line `i`: the first one
behind it and at most `w` lines further, with no other declaration of `n` before it. -/
structure FirstUse (ds : List Declaration) (w : Nat) (ls : List Text) (i : Nat) (n : Text)
    (j : Nat) : Prop where
  conflicting : Conflicting ds ls i n
  behind : i < j
  near : j ≤ i + w
  uses : ∃ line, ls[j]? = some line ∧ isDeclaration line = false ∧ Text.hasWord n line = true
  first : ∀ k line, i < k → k < j → ls[k]? = some line → isDeclaration line = false →
    Text.hasWord n line = false
  undeclared : ∀ k line, i < k → k < j → ls[k]? = some line → declares n line = false

theorem passesOver_iff {n line : Text} : passesOver n line = true ↔
    (isDeclaration line = false → Text.hasWord n line = false) ∧ declares n line = false := by
  unfold passesOver declares
  cases isDeclaration line <;> simp

/-- The name that line `i` declares. -/
def nameAt (ls : List Text) (i : Nat) : Text := nameOf (ls[i]?.getD [])

section Lines

variable {s : Text} {ds : List Declaration}

theorem conflict_iff (h : extract s = .ok ds) {line n : Text} (hl : line ∈ Text.lines s) :
    (∃ d ∈ conflicts ds, d.line = line ∧ d.name = n) ↔
      declares n line = true ∧ firstValue ds n ≠ some (valueOf line) := by
  rw [declares_iff]
  constructor
  · rintro ⟨d, hd, rfl, rfl⟩
    obtain ⟨hmem, hclash⟩ := List.mem_filter.mp hd
    have honline := Declaration.onLine?_of_mem h hmem
    obtain ⟨_, hname, hvalue, _⟩ := Declaration.line_of_onLine? honline
    exact ⟨⟨(Declaration.onLine?_eq_some.mp honline).1, hname.symm⟩,
      by rw [← hvalue]; simpa using hclash⟩
  · rintro ⟨⟨hdecl, rfl⟩, hclash⟩
    obtain ⟨d, hd⟩ := ((Declaration.extract_eq_ok.mp h).1 line hl).2 hdecl
    obtain ⟨hline, hname, hvalue, _⟩ := Declaration.line_of_onLine? hd
    refine ⟨d, List.mem_filter.mpr ⟨(Declaration.mem_extract h).mpr ⟨line, hl, hd⟩, ?_⟩, hline,
      hname⟩
    rw [hname, hvalue]
    simpa using hclash

/-- **The renamings that are made on a line are those of the first uses on it.** -/
theorem started_iff_firstUse (h : extract s = .ok ds) {os : List Text}
    (hlen : os.length = (Text.lines s).length) {w j : Nat} {line : Text}
    (hline : (Text.lines s)[j]? = some line) (hother : isDeclaration line = false) (n m : Text) :
    (∃ r, Started (conflicts ds) w (((Text.lines s).zip os).take j) r ∧ r.acts line = true ∧
      r.old = n ∧ r.new = m) ↔
    ∃ i, FirstUse ds w (Text.lines s) i n j ∧ nameAt os i = m := by
  obtain ⟨hj, _⟩ := List.getElem?_eq_some_iff.mp hline
  have hcount : (((Text.lines s).zip os).take j).length = j := by
    rw [List.length_take, List.length_zip]
    omega
  have hget : ∀ i p, (((Text.lines s).zip os).take j)[i]? = some p ↔
      i < j ∧ (Text.lines s)[i]? = some p.1 ∧ os[i]? = some p.2 := by
    intro i p
    rw [List.getElem?_take]
    split
    · rename_i hi
      rw [List.getElem?_zip_eq_some, and_iff_right hi]
    · rename_i hi
      exact iff_of_false (by simp) fun hp => hi hp.1
  constructor
  · rintro ⟨r, ⟨i, p, hp, hclash, hname, ⟨left, hleft, hsum⟩, hpass⟩, hacts, rfl, rfl⟩
    obtain ⟨hi, hl, ho⟩ := (hget i p).mp hp
    rw [conflict_iff h (List.mem_of_getElem? hl)] at hclash
    simp only [Renaming.acts, hleft, Bool.and_eq_true, bne_iff_ne, ne_eq,
      Option.some.injEq] at hacts
    rw [hcount] at hsum
    -- the lines in between, as they stand above with what became of them
    have hbetween : ∀ k l, i < k → k < j → (Text.lines s)[k]? = some l →
        passesOver r.old l = true := by
      intro k l hik hkj hl
      have hk : k < os.length := by omega
      exact hpass k (l, os[k]) hik ((hget k _).mpr ⟨hkj, hl, List.getElem?_eq_getElem hk⟩)
    refine ⟨i, ⟨⟨p.1, hl, hclash⟩, hi, by omega, ⟨line, hline, hother, hacts.2⟩, ?_, ?_⟩, ?_⟩
    · exact fun k l hik hkj hl => (passesOver_iff.mp (hbetween k l hik hkj hl)).1
    · exact fun k l hik hkj hl => (passesOver_iff.mp (hbetween k l hik hkj hl)).2
    · rw [nameAt, ho]
      exact hname
  · rintro ⟨i, huse, rfl⟩
    obtain ⟨l, hl, hclash⟩ := huse.conflicting
    obtain ⟨line', hline', _, hword⟩ := huse.uses
    rw [hline] at hline'
    cases hline'
    have hi := huse.behind
    have hnear := huse.near
    have ho : os[i]? = some os[i] := List.getElem?_eq_getElem (by omega)
    refine ⟨⟨n, nameAt os i, some (i + 1 + w - j)⟩, ⟨i, (l, os[i]), (hget i _).mpr ⟨hi, hl, ho⟩,
      (conflict_iff h (List.mem_of_getElem? hl)).mpr hclash, ?_, ⟨_, rfl, ?_⟩, ?_⟩, ?_, rfl, rfl⟩
    · rw [nameAt, ho]
      rfl
    · rw [hcount]
      omega
    · intro k q hik hq
      obtain ⟨hkj, hkl, _⟩ := (hget k q).mp hq
      exact passesOver_iff.mpr ⟨huse.first k _ hik hkj hkl, huse.undeclared k _ hik hkj hkl⟩
    · have hpos : i + 1 + w - j ≠ 0 := by omega
      simp [Renaming.acts, hword, hpos]

/-- **What renamings under way make of a line that is no declaration**, by the first uses on it. -/
theorem Windowed.first_uses {w j : Nat} {os : List Text} {rs : List Renaming}
    (h : Windowed (conflicts ds) (ds.map (·.name)) w (((Text.lines s).zip os).take j) rs)
    (hextract : extract s = .ok ds) (hruns : ∀ n ∈ ds.map (·.name), n ≠ [] ∧ Text.IsRun n)
    (hlen : os.length = (Text.lines s).length) {line : Text}
    (hline : (Text.lines s)[j]? = some line) (hother : isDeclaration line = false)
    {ρ : Text → Text} (hρ : ρ = Renaming.target (rs.filter (Renaming.acts line))) :
    (Text.substitute ρ line ≠ line ↔ ∃ i n, FirstUse ds w (Text.lines s) i n j) ∧
    (∀ i n, FirstUse ds w (Text.lines s) i n j → ρ n = nameAt os i) ∧
    ∀ n, (∀ i, ¬ FirstUse ds w (Text.lines s) i n j) → ρ n = n := by
  have hfirst := started_iff_firstUse hextract hlen hline hother (w := w)
  simp only [← h.mem_iff] at hfirst
  have hlimited : ∀ r ∈ rs.filter (Renaming.acts line), r.Limited (ds.map (·.name)) :=
    fun r hr => h.limited r (List.mem_filter.mp hr).1
  have hdistinct := h.distinct.sublist (List.filter_sublist (p := Renaming.acts line))
  have hself : ∀ n, (∀ i, ¬ FirstUse ds w (Text.lines s) i n j) → ρ n = n := by
    intro n hnone
    rw [hρ]
    refine Renaming.target_eq_self fun r hr hold => ?_
    obtain ⟨hmem, hacts⟩ := List.mem_filter.mp hr
    obtain ⟨i, huse, _⟩ := (hfirst n r.new).mp ⟨r, hmem, hacts, hold, rfl⟩
    exact hnone i huse
  refine ⟨⟨fun hne => ?_, ?_⟩, ?_, hself⟩
  · by_contra hnone
    refine hne ?_
    have hall : ∀ n, ρ n = n := fun n => hself n fun i huse => hnone ⟨i, n, huse⟩
    rw [Text.substitute_congr (g := id) (fun n _ _ => hall n) line]
    exact Text.substitute_id line
  · -- the name is gone from the line, so that the line is another one
    rintro ⟨i, n, huse⟩ hsame
    obtain ⟨r, hmem, hacts, rfl, _⟩ := (hfirst n _).mpr ⟨i, huse, rfl⟩
    have hgone := Renaming.hasWord_target hruns hlimited hdistinct
      (List.mem_filter.mpr ⟨hmem, hacts⟩) line
    rw [← hρ, hsame] at hgone
    simp [Renaming.acts, hgone] at hacts
  · intro i n huse
    obtain ⟨r, hmem, hacts, rfl, hnew⟩ := (hfirst n _).mpr ⟨i, huse, rfl⟩
    rw [hρ, Renaming.target_of_mem hdistinct (List.mem_filter.mpr ⟨hmem, hacts⟩), hnew]

end Lines

/-- **A declaration stays, or is given a name that is declared nowhere.** -/
theorem Passage.renames {clashes : List Declaration} {declared : List Text} {window : Option Nat}
    {names names' : Registry} {active : List Renaming} {ls os : List Text}
    (h : Passage clashes declared window names active ls os names')
    (hclashes : ∀ d ∈ clashes, onLine? d.line = some d) (hls : ∀ l ∈ ls, Byte.newline ∉ l) :
    List.Forall₂ (fun line out => isDeclaration line = true → out = line ∨
      (out = Declaration.rename line (nameOf out) ∧ nameOf out ∉ declared)) ls os := by
  induction h with
  | nil => exact .nil
  | other hline _ _ _ ih =>
    rw [List.forall_mem_cons] at hls
    refine .cons (fun hdecl => ?_) (ih hls.2)
    rw [hline] at hdecl
    cases hdecl
  | kept _ _ _ ih =>
    rw [List.forall_mem_cons] at hls
    exact .cons (fun _ => .inl rfl) (ih hls.2)
  | @renamed names names₁ names' active d name ls os hd hname _ ih =>
    rw [List.forall_mem_cons] at hls
    have hfresh := hname.spec.1
    have hname' := hfresh.nameOf_rename (hclashes d hd) hls.1
    refine .cons (fun _ => .inr ⟨?_, ?_⟩) (ih hls.2)
    · rw [hname']
    · rw [hname']
      exact hfresh.undeclared

section Names

variable {ds : List Declaration} {taken : List Text} {ls os : List Text}

/-- A declaration in conflict has a name afterwards that is declared nowhere. -/
theorem Conflicting.exists_renamed (hlines : List.Forall₂ (LineResolved ds) ls os)
    (hos : WellFormed os) {i : Nat} {n : Text} (h : Conflicting ds ls i n) :
    ∃ o e, os[i]? = some o ∧ onLine? o = some e ∧ e.name = nameAt os i ∧
      nameAt os i ∉ ds.map (·.name) := by
  obtain ⟨line, hline, hdecl, hclash⟩ := h
  obtain ⟨hl, rfl⟩ := declares_iff.mp hdecl
  obtain ⟨hi, rfl⟩ := List.getElem?_eq_some_iff.mp hline
  have hi' : i < os.length := hlines.length_eq ▸ hi
  have hres : LineResolved ds ls[i] os[i] := hlines.get hi hi'
  have ho : os[i]? = some os[i] := List.getElem?_eq_getElem hi'
  have hname : nameAt os i = nameOf os[i] := by rw [nameAt, ho]; rfl
  obtain ⟨e, he⟩ := (hos _ (List.getElem_mem hi')).2 (hres.declaration.trans hl)
  refine ⟨os[i], e, ho, he, ?_, ?_⟩
  · rw [hname, (Declaration.line_of_onLine? he).2.1]
  · rw [hname]
    rcases hres.name hl with ⟨hfirst, _⟩ | ⟨_, hnot⟩
    · exact absurd hfirst hclash
    · exact hnot

/-- **Each declaration in conflict has a fresh name of its own.** -/
theorem Conflicting.fresh (hlines : List.Forall₂ (LineResolved ds) ls os) (hos : WellFormed os)
    (hres : Resolved (conflicts ds) (ds.map (·.name)) taken ds (os.filterMap onLine?)) {i : Nat}
    {n : Text} (h : Conflicting ds ls i n) :
    IsFresh (ds.map (·.name)) taken (nameAt os i) ∧
      ∀ j m, Conflicting ds ls j m → nameAt os j = nameAt os i → j = i := by
  have hpairs := List.pairwise_iff_getElem.mp (List.pairwise_filterMap.mp hres.apart)
  -- the later of two has a name that is not declared, and so another one than the earlier
  have happart : ∀ i j n m, Conflicting ds ls i n → Conflicting ds ls j m → i < j →
      nameAt os j ≠ nameAt os i := by
    intro i j n m hi hj hlt
    obtain ⟨o, e, ho, he, hename, _⟩ := hi.exists_renamed hlines hos
    obtain ⟨o', e', ho', he', hename', hundeclared⟩ := hj.exists_renamed hlines hos
    obtain ⟨hio, rfl⟩ := List.getElem?_eq_some_iff.mp ho
    obtain ⟨hjo, rfl⟩ := List.getElem?_eq_some_iff.mp ho'
    rw [← hename'] at hundeclared ⊢
    rw [← hename]
    exact (hpairs i j hio hjo hlt e he e' he').resolve_left hundeclared
  obtain ⟨o, e, ho, he, hename, hundeclared⟩ := h.exists_renamed hlines hos
  refine ⟨?_, fun j m hj hsame => ?_⟩
  · have hmem : e ∈ os.filterMap onLine? :=
      List.mem_filterMap.mpr ⟨o, List.mem_of_getElem? ho, he⟩
    rw [← hename] at hundeclared ⊢
    exact (hres.name_cases (fun d hd => List.mem_map_of_mem hd) hmem).resolve_left hundeclared
  · rcases Nat.lt_trichotomy j i with hlt | heq | hlt
    · exact absurd hsame.symm (happart j i m n hj h hlt)
    · exact heq
    · exact absurd hsame (happart i j n m h hj hlt)

/-- **A declaration changes exactly if it is in conflict.** -/
theorem LineResolved.changed_iff {line out : Text} (h : LineResolved ds line out)
    (hline : isDeclaration line = true) (hn : nameOf line ∈ ds.map (·.name))
    (hout : out = line ∨
      (out = Declaration.rename line (nameOf out) ∧ nameOf out ∉ ds.map (·.name))) :
    (out ≠ line ↔ firstValue ds (nameOf line) ≠ some (valueOf line)) ∧
      (out ≠ line → out = Declaration.rename line (nameOf out)) := by
  refine ⟨⟨fun hne => ?_, fun hclash => ?_⟩, fun hne => (hout.resolve_left hne).1⟩
  · rcases h.name hline with ⟨_, hname⟩ | ⟨hclash, _⟩
    · exact absurd (hname.symm ▸ hn) (hout.resolve_left hne).2
    · exact hclash
  · rintro rfl
    rcases h.name hline with ⟨hfirst, _⟩ | ⟨_, hnot⟩
    · exact hclash hfirst
    · exact hnot hn

end Names

/-- **With a window, exactly the conflicting declarations and their first uses change.**  There are
as many lines as before.  A declaration changes if its value is not the first one of its name, and
is given a fresh name of its own.  Another line changes if it is the first use of such a declaration
within the window; all names for which it is that are renamed on it together, each to the new name
of its declaration. -/
theorem resolveConflicts_window {s : Text} {ds : List Declaration} {window : Int}
    (names : Registry) (h : extract s = .ok ds) (hnames : ∀ d ∈ ds, Text.IsRun d.name)
    (hwindow : 0 < window) :
    ∃ (out : Text) (names' : Registry) (newName : Nat → Text),
      resolveConflicts window names s = .ok (out, names') ∧
      (Text.lines out).length = (Text.lines s).length ∧
      (∀ i n, Conflicting ds (Text.lines s) i n →
        IsFresh (ds.map (·.name)) names.vars (newName i) ∧
        ∀ j m, Conflicting ds (Text.lines s) j m → newName j = newName i → j = i) ∧
      ∀ (j : Nat) (line line' : Text), (Text.lines s)[j]? = some line →
        (Text.lines out)[j]? = some line' →
        (isDeclaration line = true →
          (line' ≠ line ↔ firstValue ds (nameOf line) ≠ some (valueOf line)) ∧
          (line' ≠ line → line' = Declaration.rename line (newName j))) ∧
        (isDeclaration line = false →
          (line' ≠ line ↔ ∃ i n, FirstUse ds window.toNat (Text.lines s) i n j) ∧
          ∃ ρ : Text → Text, line' = Text.substitute ρ line ∧
            (∀ i n, FirstUse ds window.toNat (Text.lines s) i n j → ρ n = newName i) ∧
            ∀ n, (∀ i, ¬ FirstUse ds window.toNat (Text.lines s) i n j) → ρ n = n) := by
  obtain ⟨out, names', hout, hos, hpass, hres⟩ := resolveConflicts_passage h window names
  rw [if_neg (Int.not_le.mpr hwindow)] at hpass
  obtain ⟨hwf, _⟩ := Declaration.extract_eq_ok.mp h
  have hclashes : ∀ d ∈ conflicts ds, onLine? d.line = some d :=
    fun d hd => Declaration.onLine?_of_mem h (List.mem_filter.mp hd).1
  have hruns := Declaration.runs_of_extract h hnames
  have hdeclared : ∀ l ∈ Text.lines s, isDeclaration l = true → nameOf l ∈ ds.map (·.name) := by
    intro l hl hdecl
    obtain ⟨d, hd, hname, _⟩ := Declaration.exists_of_isDeclaration h hl hdecl
    rw [← hname]
    exact List.mem_map_of_mem hd
  have hlines := hpass.lineResolved (fun d hd => Declaration.onLine?_of_mem h hd) hwf
    fun l hl d hd => (Declaration.mem_extract h).mpr ⟨l, hl, hd⟩
  have hrenames := hpass.renames hclashes fun l hl => (hwf l hl).1
  refine ⟨out, names', nameAt (Text.lines out), hout, hpass.length_eq,
    fun i n hconflict => hconflict.fresh hlines hos hres, ?_⟩
  intro j line line' hline hline'
  refine ⟨fun hdecl => ?_, fun hother => ?_⟩
  · have hname : nameAt (Text.lines out) j = nameOf line' := by rw [nameAt, hline']; rfl
    obtain ⟨hj, rfl⟩ := List.getElem?_eq_some_iff.mp hline
    obtain ⟨hj', rfl⟩ := List.getElem?_eq_some_iff.mp hline'
    rw [hname]
    exact (hlines.get hj hj').changed_iff hdecl (hdeclared _ (List.getElem_mem hj) hdecl)
      (hrenames.get hj hj' hdecl)
  · obtain ⟨rs, hsubst, hrs⟩ := hpass.windowed hclashes hruns (fun l hl => (hwf l hl).1) hdeclared
      Windowed.nil hline hline' hother
    rw [List.nil_append] at hrs
    obtain ⟨hchanged, huses⟩ := hrs.first_uses h hruns hpass.length_eq hline hother rfl
    rw [hsubst]
    exact ⟨hchanged, _, rfl, huses⟩

/-- Two names declared anew, each used on two of the next lines. -/
def overlapping : Text :=
  utf8 "var a = 1;\nvar b = 1;\nvar a = 2;\nvar b = 2;\nf(b);\ng(a, b);\nh(a);"

def overlappingResolved : Text :=
  utf8 "var a = 1;\nvar b = 1;\nvar a_ = 2;\nvar b_ = 2;\nf(b_);\ng(a_, b);\nh(a);"

def overlappingDeclarations : List Declaration :=
  [⟨utf8 "a", utf8 "1", utf8 "var a = 1;"⟩, ⟨utf8 "b", utf8 "1", utf8 "var b = 1;"⟩,
    ⟨utf8 "a", utf8 "2", utf8 "var a = 2;"⟩, ⟨utf8 "b", utf8 "2", utf8 "var b = 2;"⟩]

/-- With a window of three lines, the first use of each name is renamed: that of `a` on the last
line of its window, where the one of `b` is over. -/
theorem resolveConflicts_window_overlapping :
    extract overlapping = .ok overlappingDeclarations ∧
    (∃ newName : Nat → Text, newName 2 ≠ newName 3 ∧
      ∃ ρ : Text → Text, utf8 "g(a_, b);" = Text.substitute ρ (utf8 "g(a, b);") ∧
        ∀ i n, FirstUse overlappingDeclarations 3 (Text.lines overlapping) i n 5 →
          ρ n = newName i) ∧
    (∃ i n, FirstUse overlappingDeclarations 3 (Text.lines overlapping) i n 5) ∧
    ¬ ∃ i n, FirstUse overlappingDeclarations 3 (Text.lines overlapping) i n 6 := by
  have hextract : extract overlapping = .ok overlappingDeclarations := by decide +kernel
  have hresolved : resolveConflicts 3 (Registry.ofReserved []) overlapping =
      .ok (overlappingResolved, ⟨[], [utf8 "b_", utf8 "a_"], [], []⟩) := by
    decide +kernel
  have hwindow : (0 : Int) < 3 := by decide
  obtain ⟨out, names', newName, hout, _, hfresh, hlines⟩ := resolveConflicts_window
    (Registry.ofReserved []) hextract (by decide +kernel) hwindow
  rw [hresolved] at hout
  obtain ⟨rfl, _⟩ := Prod.mk.inj (Except.ok.inj hout)
  have hsecond : Conflicting overlappingDeclarations (Text.lines overlapping) 2 (utf8 "a") :=
    ⟨utf8 "var a = 2;", by decide +kernel⟩
  have hthird : Conflicting overlappingDeclarations (Text.lines overlapping) 3 (utf8 "b") :=
    ⟨utf8 "var b = 2;", by decide +kernel⟩
  obtain ⟨_, hused⟩ := hlines 5 (utf8 "g(a, b);") (utf8 "g(a_, b);") (by decide +kernel)
    (by decide +kernel)
  obtain ⟨_, hunused⟩ := hlines 6 (utf8 "h(a);") (utf8 "h(a);") (by decide +kernel)
    (by decide +kernel)
  obtain ⟨hchanged, ρ, hline, huses, _⟩ := hused (by decide +kernel)
  refine ⟨hextract, ⟨newName, fun hsame => ?_, ρ, hline, huses⟩, hchanged.mp (by decide +kernel),
    fun huse => (hunused (by decide +kernel)).1.mpr huse rfl⟩
  cases (hfresh 3 _ hthird).2 2 _ hsecond hsame

end Pass

end ActionLog
