import ActionLog.Proofs.Describe
import ActionLog.Proofs.Insertion

/-!
# Variables get new names all at once

Naming variables after their objects replaces identifiers by identifiers.  New names may be old ones
that are given up at the same time, so that names can be exchanged; no two variables come to have
one name.

* `Text.Relabels` — names are replaced by names; `Text.lines_substitute` says that lines stay lines;
* `Declaration.isDeclaration_substitute`, `Declaration.nameOf_substitute` — declarations stay where
  they are and declare the new names, where the keyword stands for itself alone;
* `renames_cons` — what one declaration can do to the names handed out;
* `Renames.Fresh` — they are new and pairwise distinct, and `renames_fresh` says that they stay so;
* `Distinct` — what the new names are like, and which names are kept.

Principal result: `describe_simultaneous`.
-/

set_option autoImplicit false

namespace ActionLog

/-! ## Names replaced by names -/

namespace Text

/-- Every name is replaced by a name. -/
def Relabels (f : Text → Text) : Prop := ∀ r, r ≠ [] → IsRun r → f r ≠ [] ∧ IsRun (f r)

theorem Relabels.newline_not_mem {f : Text → Text} (hf : Relabels f) {s : Text}
    (hs : Byte.newline ∉ s) : Byte.newline ∉ substitute f s :=
  newline_not_mem_substitute hs fun r hne hr hmem => by cases (hf r hne hr).2 _ hmem

theorem substitute_following (f : Text → Text) (ls : List Text) :
    substitute f (Pass.following ls) = Pass.following (ls.map (substitute f)) := by
  induction ls with
  | nil => rfl
  | cons l ls ih =>
    rw [List.map_cons, Pass.following_cons, Pass.following_cons, substitute_other f rfl,
      substitute_append_bare f l (Pass.bare_following ls), ih]

theorem substitute_unlines (f : Text → Text) (ls : List Text) :
    substitute f (unlines ls) = unlines (ls.map (substitute f)) := by
  cases ls with
  | nil => rfl
  | cons l ls =>
    rw [List.map_cons, Pass.unlines_cons, Pass.unlines_cons,
      substitute_append_bare f l (Pass.bare_following ls), substitute_following]

/-- **Lines are relabelled one by one.** -/
theorem lines_substitute {f : Text → Text} (hf : Relabels f) (s : Text) :
    lines (substitute f s) = (lines s).map (substitute f) := by
  conv_lhs => rw [← unlines_lines s, substitute_unlines]
  refine lines_unlines ?_ (by simpa using lines_ne_nil s)
  intro l hl
  obtain ⟨l', hl', rfl⟩ := List.mem_map.mp hl
  exact hf.newline_not_mem (newline_not_mem hl')

/-- A name ends in a byte that is no blank. -/
theorem lastSolid_run {r : Text} (hne : r ≠ []) (hr : IsRun r) :
    ∃ b, lastSolid r = some b ∧ Byte.isName b = true := by
  have hlast := hr _ (List.getLast_mem hne)
  refine ⟨r.getLast hne, ?_, hlast⟩
  rw [← List.getLast?_eq_some_getLast hne]
  refine lastSolid_eq_getLast? fun b hb heq => ?_
  rw [List.getLast?_eq_some_getLast hne] at heq
  rw [Option.some.inj heq, Pass.isName_of_isGap (isGap_of_isTabOrSpace hb)] at hlast
  cases hlast

/-- Two texts end alike: with blanks only, with the same byte, or each with a name. -/
def EndsAlike (s t : Text) : Prop :=
  (lastSolid s = none ↔ lastSolid t = none) ∧
    ∀ b, Byte.isName b = false → (lastSolid s = some b ↔ lastSolid t = some b)

theorem EndsAlike.refl (s : Text) : EndsAlike s s := ⟨Iff.rfl, fun _ _ => Iff.rfl⟩

theorem EndsAlike.append {s t u v : Text} (hu : EndsAlike u v) (hs : EndsAlike s t) :
    EndsAlike (u ++ s) (v ++ t) := by
  unfold EndsAlike at hs ⊢
  rw [lastSolid_append, lastSolid_append]
  cases hslast : lastSolid s with
  | none =>
    rw [hs.1.mp hslast]
    exact hu
  | some x =>
    obtain ⟨y, hy⟩ := Option.ne_none_iff_exists'.mp fun hnone => by
      rw [hs.1.mpr hnone] at hslast
      cases hslast
    rw [hslast, hy] at hs
    rw [hy]
    exact hs

theorem endsAlike_runs {r r' : Text} (hne : r ≠ []) (hr : IsRun r) (hne' : r' ≠ [])
    (hr' : IsRun r') : EndsAlike r r' := by
  obtain ⟨b, hb, hname⟩ := lastSolid_run hne hr
  obtain ⟨b', hb', hname'⟩ := lastSolid_run hne' hr'
  refine ⟨by simp [hb, hb'], fun c hc => ?_⟩
  have hbc : b ≠ c := by
    rintro rfl
    rw [hname] at hc
    cases hc
  have hbc' : b' ≠ c := by
    rintro rfl
    rw [hname'] at hc
    cases hc
  simp [hb, hb', hbc, hbc']

/-- What ends a line stays where it is, if it is no part of a name. -/
theorem endsAlike_substitute {f : Text → Text} (hf : Relabels f) (s : Text) :
    EndsAlike (substitute f s) s := by
  induction s using run_induction with
  | nil => exact .refl _
  | other c s hc ih =>
    rw [substitute_other f hc]
    exact (EndsAlike.refl [c]).append ih
  | run r s hne hr hs ih =>
    rw [substitute_run f hne hr hs]
    exact (endsAlike_runs (hf r hne hr).1 (hf r hne hr).2 hne hr).append ih

end Text

/-! ## Declarations with new names -/

namespace Declaration

open Text

variable {f : Text → Text} {line : Text}

/-- Relabelling makes no other word the keyword, and keeps the keyword. -/
def KeepsKeyword (f : Text → Text) : Prop :=
  ∀ r, r ≠ [] → IsRun r → (f r = keyword ↔ r = keyword)

/-- **A relabelled line starts like a declaration only if the line does.** -/
theorem opens_of_substitute (hf : Relabels f) (hkeyword : KeepsKeyword f)
    (h : Opens (substitute f line)) : Opens line := by
  obtain ⟨indent, g, rest, heq, hindent, hg⟩ := h
  have hgname : Byte.isName g = false := Pass.isName_of_isGap hg
  rcases Pass.exists_firstWord line with hall | ⟨x, r, y, rfl, hx, hrne, hr, hy⟩
  · have hself := substitute_plain f hall []
    rw [List.append_nil, substitute_nil, List.append_nil] at hself
    rw [hself] at heq
    exact ⟨indent, g, rest, heq, hindent, hg⟩
  · rw [substitute_plain f hx, substitute_run f hrne hr hy] at heq
    obtain ⟨c, rfl, hc⟩ := word_front (by decide) keyword_isRun hx heq
    have hnames : ∀ b ∈ c, Byte.isName b = false := fun b hb =>
      Pass.isName_of_isGap (isGap_of_isTabOrSpace (hindent b (List.mem_append_right _ hb)))
    obtain ⟨b, r', hb⟩ := List.exists_cons_of_ne_nil (hf r hrne hr).1
    have hcnil : c = [] := by
      cases c with
      | nil => rfl
      | cons a c =>
        rw [hb] at hc
        obtain ⟨rfl, _⟩ := List.cons.inj hc
        have hbname := (hf r hrne hr).2 b (by rw [hb]; exact List.mem_cons_self)
        rw [hnames b List.mem_cons_self] at hbname
        cases hbname
    rw [hcnil, List.nil_append] at hc
    have hbare : Bare (g :: rest) := hgname
    -- the first name is the keyword, and the same gap stands behind it
    have hfr : f r = keyword := by
      rw [← takeWhile_run (hf r hrne hr).2 (bare_substitute f hy), hc,
        takeWhile_run keyword_isRun hbare]
    rw [hfr] at hc
    have hy' := List.append_cancel_left hc
    rw [(hkeyword r hrne hr).mp hfr]
    cases y with
    | nil => cases hy'
    | cons a y =>
      rw [substitute_other f hy] at hy'
      obtain ⟨rfl, _⟩ := List.cons.inj hy'
      refine ⟨x, a, y, by simp, fun b hb => hindent b (List.mem_append_left _ hb), hg⟩

/-- **A relabelled line is a declaration exactly if the line is.** -/
theorem isDeclaration_substitute (hf : Relabels f) (hkeyword : KeepsKeyword f)
    (hnew : Byte.newline ∉ line) : isDeclaration (substitute f line) = isDeclaration line := by
  rw [Bool.eq_iff_iff, isDeclaration_iff hnew, isDeclaration_iff (hf.newline_not_mem hnew),
    (endsAlike_substitute hf line).2 _ rfl]
  refine and_congr_left fun _ => ⟨opens_of_substitute hf hkeyword, fun h => ?_⟩
  exact h.substitute ((hkeyword keyword (by decide) keyword_isRun).mpr rfl)

theorem equals_not_mem_substitute (hf : Relabels f) {s : Text} (hs : Byte.equals ∉ s) :
    Byte.equals ∉ substitute f s := by
  intro hmem
  rcases mem_substitute hmem with hmem | ⟨r, hne, hr, hmem⟩
  · exact hs hmem
  · cases (hf r hne hr).2 _ hmem

theorem head_substitute (hf : Relabels f) (hequals : Byte.equals ∈ line) :
    head (substitute f line) = substitute f (head line) := by
  have hbare : Bare (Byte.equals :: tail line) := rfl
  conv_lhs =>
    rw [head_append_tail hequals, substitute_append_bare f _ hbare, substitute_other f rfl]
  rw [(head_append (equals_not_mem_substitute hf (equals_not_mem_head line)) _).1]
  exact List.append_nil _

theorem stripEnd_name {s : Text} (h : s.getLast?.any Byte.isName = true) :
    stripEnd blanks s = s := by
  unfold stripEnd
  rw [← List.head?_reverse] at h
  cases hs : s.reverse with
  | nil =>
    rw [hs] at h
    cases h
  | cons b rest =>
    rw [hs] at h
    rw [stripStart_run blanks_head.2 h, ← hs, List.reverse_reverse]

/-- **Where the name of a line stands behind the keyword**: between white space.  Any other name
that stands there is the name of its line. -/
theorem exists_namePlace {indent : Text} (hindent : ∀ b ∈ indent, Byte.isTabOrSpace b = true)
    {g : UInt8} (hg : Byte.isGap g = true) (rest : Text) :
    ∃ w w', g :: head rest = w ++ nameOf (indent ++ keyword ++ g :: rest) ++ w' ∧
      (∀ b ∈ w, isWhite b = true) ∧ (∀ b ∈ w', isWhite b = true) ∧
      ∀ line' m, head line' = indent ++ keyword ++ (w ++ m ++ w') → m ≠ [] → IsRun m →
        nameOf line' = m := by
  have hgaps : ∀ b ∈ indent, Byte.isGap b = true := fun b hb => isGap_of_isTabOrSpace (hindent b hb)
  have hstart : ∀ y, stripStart blanks (indent ++ keyword ++ y) = keyword ++ y := by
    intro y
    rw [List.append_assoc, (stripStart_gaps hgaps _).1]
    exact stripStart_run blanks_head.1 rfl _
  obtain ⟨y, w₂, htrim, hy, _⟩ := trim_keyword hindent (g :: head rest)
  obtain ⟨w₃, hw₃, hw₃white, hw₃frame⟩ := stripEnd_blanks_frame (keyword ++ (g :: head rest))
  have hname : nameOf (indent ++ keyword ++ g :: rest) = trim y := by
    simp only [nameOf, head_keyword hindent hg, htrim, after?_append, Option.getD_some]
  -- what is taken away at the end is the same both ways
  have hw₂ : w₂ = w₃ := by
    unfold trim at htrim
    rw [hstart] at htrim
    rw [htrim, hy, ← List.append_assoc] at hw₃
    exact List.append_cancel_left hw₃
  subst hw₂
  obtain ⟨w, hw, hwwhite, hwframe⟩ := stripStart_blanks_frame y
  obtain ⟨w₁, hw₁, hw₁white, hw₁frame⟩ := stripEnd_blanks_frame (stripStart blanks y)
  have hyeq : y = w ++ trim y ++ w₁ := by
    rw [List.append_assoc]
    unfold trim
    rw [← hw₁, ← hw]
  refine ⟨w, w₁ ++ w₂, ?_, hwwhite, ?_, ?_⟩
  · rw [hname, hy]
    conv_lhs => rw [hyeq]
    simp
  · intro b hb
    rcases List.mem_append.mp hb with hb | hb
    · exact hw₁white b hb
    · exact hw₃white b hb
  · intro line' m hhead hne hm
    have hlast : m.getLast?.any Byte.isName = true := run_last hne hm
    have hlast' : (keyword ++ (w ++ m)).getLast?.any Byte.isName = true := by
      rw [← List.append_assoc, List.getLast?_append, getLast?_or_of_ne_nil hne]
      exact hlast
    have htrim' : trim (head line') = keyword ++ (w ++ m) := by
      unfold trim
      rw [hhead, hstart, ← List.append_assoc (w ++ m), ← List.append_assoc, hw₃frame,
        ← List.append_assoc, hw₁frame, stripEnd_name hlast']
    obtain ⟨b, m', hb⟩ := List.exists_cons_of_ne_nil hne
    have hfront : stripStart blanks m = m := by
      rw [hb]
      exact stripStart_run blanks_head.1 (hm b (by rw [hb]; exact List.mem_cons_self)) m'
    simp only [nameOf, htrim', after?_append, Option.getD_some]
    unfold trim
    rw [hwframe, hfront, stripEnd_name hlast]

/-- **A relabelled declaration declares the new name.** -/
theorem nameOf_substitute (hf : Relabels f) (hkeyword : KeepsKeyword f)
    (hline : isDeclaration line = true) (hequals : Byte.equals ∈ line) (hne : nameOf line ≠ [])
    (hrun : IsRun (nameOf line)) : nameOf (substitute f line) = f (nameOf line) := by
  have hhead := head_substitute hf hequals
  unfold isDeclaration at hline
  split at hline
  · rename_i g rest hafter
    obtain ⟨indent, rfl, hindent⟩ := afterKeyword?_eq_some hafter
    rw [Bool.and_eq_true] at hline
    obtain ⟨w, w', hgap, hw, hw', hplace⟩ := exists_namePlace hindent hline.1 rest
    have hindentplain : ∀ b ∈ indent, Byte.isName b = false :=
      fun b hb => Pass.isName_of_isGap (isGap_of_isTabOrSpace (hindent b hb))
    have hplain : ∀ b ∈ w, Byte.isName b = false := fun b hb => (white_bytes (hw b hb)).1
    have hplain' : ∀ b ∈ w', Byte.isName b = false := fun b hb => (white_bytes (hw' b hb)).1
    have hbare : Bare w' := by
      cases w' with
      | nil => rfl
      | cons b w' => exact hplain' b List.mem_cons_self
    have hback := substitute_plain f hplain' []
    rw [List.append_nil, substitute_nil, List.append_nil] at hback
    refine hplace _ _ ?_ (hf _ hne hrun).1 (hf _ hne hrun).2
    rw [hhead, head_keyword hindent hline.1, List.append_assoc, substitute_plain f hindentplain,
      substitute_run f (by decide) keyword_isRun (show Bare (g :: head rest) from
        Pass.isName_of_isGap hline.1), (hkeyword keyword (by decide) keyword_isRun).mpr rfl, hgap,
      List.append_assoc w, substitute_plain f hplain, substitute_run f hne hrun hbare, hback]
    simp
  · cases hline

end Declaration

namespace Pass

open Declaration (isDeclaration nameOf keyword KeepsKeyword)
open Text (IsRun Relabels)

/-! ## Names that are handed out -/

section HandedOut

variable {constructors : List Constructor} {ds : List Declaration} {taken : List Text}
  {names : Registry}

theorem vars_reserve_all (ds : List Declaration) (names : Registry) :
    (ds.foldl (fun names d => names.reserve .vars d.name) names).vars =
      (ds.map (·.name)).reverse ++ names.vars := by
  induction ds generalizing names with
  | nil => rfl
  | cons d ds ih =>
    have hone : (names.reserve .vars d.name).vars = d.name :: names.vars := rfl
    rw [List.foldl_cons, ih, hone]
    simp

/-- Before names are handed out, the names of all other variables are taken as well. -/
theorem mem_reserveOthers {n : Text} : n ∈ (reserveOthers constructors ds names).vars ↔
    n ∈ names.vars ∨ ∃ d ∈ ds, d.name = n ∧ objectName? constructors d.value = none := by
  unfold reserveOthers
  rw [vars_reserve_all, List.mem_append, List.mem_reverse, List.mem_map, or_comm]
  simp only [List.mem_filter, Option.isNone_iff_eq_none]
  refine or_congr_right (exists_congr fun d => ?_)
  rw [and_right_comm, and_assoc]

/-- The names handed out so far are pairwise distinct, were not taken, and are so now. -/
structure Renames.Fresh (taken : List Text) (renamed : Renames) (names : Registry) : Prop where
  untaken : ∀ r ∈ renamed, r.2 ∉ taken
  nodup : (renamed.map (·.2)).Nodup
  held : ∀ n, n ∈ taken ∨ n ∈ renamed.map (·.2) → n ∈ names.vars

/-- One more name. -/
theorem Renames.Fresh.allocate {renamed : Renames} (h : renamed.Fresh taken names)
    (n wanted : Text) : Renames.Fresh taken (renamed ++ [(n, (names.allocate .vars wanted).1)])
      (names.allocate .vars wanted).2 := by
  obtain ⟨hfree, _, _, hnames⟩ := Registry.allocate_spec names .vars wanted
  generalize (names.allocate .vars wanted).1 = name at hfree hnames
  have hvars : (names.allocate .vars wanted).2.vars = name :: names.vars := by
    rw [hnames]
    rfl
  refine ⟨?_, ?_, ?_⟩
  · intro r hr
    rcases List.mem_append.mp hr with hr | hr
    · exact h.untaken r hr
    · rw [List.mem_singleton] at hr
      subst hr
      exact fun htaken => hfree (h.held name (.inl htaken))
  · rw [List.map_append, List.nodup_append']
    refine ⟨h.nodup, List.nodup_singleton _, ?_⟩
    intro m hm hname
    rw [List.map_singleton, List.mem_singleton] at hname
    subst hname
    exact hfree (h.held m (.inr hm))
  · intro m hm
    rw [hvars, List.mem_cons]
    rw [List.map_append, List.map_singleton, List.mem_append, List.mem_singleton, ← or_assoc] at hm
    exact hm.symm.imp_right (h.held m)

theorem Renames.mem_of_lookup {renamed : Renames} {n name : Text}
    (h : List.lookup n renamed = some name) : (n, name) ∈ renamed := by
  obtain ⟨l₁, l₂, heq, _⟩ := List.lookup_eq_some_iff.mp h
  rw [heq]
  simp

theorem Renames.newName_of_some {renamed : Renames} {n name : Text}
    (h : List.lookup n renamed = some name) : renamed.newName n = name := by
  rw [newName, h, Option.getD_some]

theorem Renames.newName_of_none {renamed : Renames} {n : Text}
    (h : List.lookup n renamed = none) : renamed.newName n = n := by
  rw [newName, h, Option.getD_none]

/-- **No two names become one**, where a name that is kept is not handed out. -/
theorem Renames.Fresh.newName_injective {renamed : Renames} (h : renamed.Fresh taken names)
    {m n : Text} (hm : List.lookup m renamed = none → m ∉ renamed.map (·.2))
    (hn : List.lookup n renamed = none → n ∉ renamed.map (·.2))
    (heq : renamed.newName m = renamed.newName n) : m = n := by
  cases hm' : List.lookup m renamed with
  | some name =>
    have hmem := mem_of_lookup hm'
    rw [newName_of_some hm'] at heq
    cases hn' : List.lookup n renamed with
    | some name' =>
      rw [newName_of_some hn'] at heq
      have hsame := List.inj_on_of_nodup_map h.nodup hmem (mem_of_lookup hn') heq
      exact (Prod.mk.inj hsame).1
    | none =>
      rw [newName_of_none hn'] at heq
      exact absurd (List.mem_map.mpr ⟨_, hmem, heq⟩) (hn hn')
  | none =>
    rw [newName_of_none hm'] at heq
    cases hn' : List.lookup n renamed with
    | some name' =>
      rw [newName_of_some hn'] at heq
      exact absurd (List.mem_map.mpr ⟨_, mem_of_lookup hn', heq.symm⟩) (hm hm')
    | none => rwa [newName_of_none hn'] at heq

/-- One declaration: nothing is handed out, because there is no object or the variable has its name
already; or the variable is given a name. -/
theorem renames_cons (constructors : List Constructor) (d : Declaration) (ds : List Declaration)
    (done : Renames) (names : Registry) :
    (renames constructors (d :: ds) done names = renames constructors ds done names ∧
      ((objectName? constructors d.value).isSome = true →
        ∃ name, List.lookup d.name done = some name)) ∨
    ∃ base, List.lookup d.name done = none ∧
      renames constructors (d :: ds) done names =
        renames constructors ds (done ++ [(d.name, (names.allocate .vars base).1)])
          (names.allocate .vars base).2 := by
  cases hobject : objectName? constructors d.value with
  | none => exact .inl ⟨by rw [renames, hobject], fun h => by cases h⟩
  | some base =>
    cases hlookup : List.lookup d.name done with
    | none => exact .inr ⟨base, rfl, by rw [renames, hobject]; simp [hlookup]⟩
    | some name => exact .inl ⟨by rw [renames, hobject]; simp [hlookup], fun _ => ⟨name, rfl⟩⟩

/-- **Handing out keeps the names new and pairwise distinct.** -/
theorem renames_fresh {done : Renames} (h : done.Fresh taken names) :
    (renames constructors ds done names).1.Fresh taken (renames constructors ds done names).2 := by
  induction ds generalizing done names with
  | nil => exact h
  | cons d ds ih =>
    rcases renames_cons constructors d ds done names with ⟨heq, _⟩ | ⟨base, _, heq⟩
    · rw [heq]
      exact ih h
    · rw [heq]
      exact ih (h.allocate d.name base)

/-- A variable keeps the name that it was given first. -/
theorem lookup_renames {done : Renames} {n name : Text} (h : List.lookup n done = some name) :
    List.lookup n (renames constructors ds done names).1 = some name := by
  induction ds generalizing done names with
  | nil => exact h
  | cons d ds ih =>
    rcases renames_cons constructors d ds done names with ⟨heq, _⟩ | ⟨base, _, heq⟩
    · rw [heq]
      exact ih h
    · rw [heq]
      exact ih (by rw [List.lookup_append, h, Option.some_or])

/-- **Every variable that holds an object is given a name.** -/
theorem exists_lookup_renames {done : Renames} {d : Declaration} (hd : d ∈ ds)
    (hobject : (objectName? constructors d.value).isSome = true) :
    ∃ name, List.lookup d.name (renames constructors ds done names).1 = some name := by
  induction ds generalizing done names with
  | nil => cases hd
  | cons e ds ih =>
    rcases renames_cons constructors e ds done names with ⟨heq, hgiven⟩ | ⟨base, hnone, heq⟩
    · rw [heq]
      rcases List.mem_cons.mp hd with rfl | hd
      · obtain ⟨name, hname⟩ := hgiven hobject
        exact ⟨name, lookup_renames hname⟩
      · exact ih hd
    · rw [heq]
      rcases List.mem_cons.mp hd with rfl | hd
      · exact ⟨(names.allocate .vars base).1,
          lookup_renames (by rw [List.lookup_append, hnone]; simp)⟩
      · exact ih hd

end HandedOut

/-! ## New names -/

/-- New names for the variables that hold objects, and for no others: identifiers that were not
taken and that no other variable has.  No two variables come to have one name. -/
structure Distinct (constructors : List Constructor) (ds : List Declaration) (taken : List Text)
    (σ : Text → Text) : Prop where
  kept : ∀ n, (∀ d ∈ ds, d.name = n → objectName? constructors d.value = none) → σ n = n
  fresh : ∀ d ∈ ds, (objectName? constructors d.value).isSome = true →
    Name.IsIdentifier (σ d.name) ∧ σ d.name ∉ taken ∧
      ∀ e ∈ ds, e.name = σ d.name → (objectName? constructors e.value).isSome = true
  injective : ∀ d ∈ ds, ∀ e ∈ ds, σ d.name = σ e.name → d.name = e.name

namespace Distinct

variable {constructors : List Constructor} {ds : List Declaration} {taken : List Text}
  {σ : Text → Text}

/-- A name is kept, or some variable with it holds an object. -/
theorem kept_or_object (h : Distinct constructors ds taken σ) (n : Text) :
    σ n = n ∨ ∃ d ∈ ds, d.name = n ∧ (objectName? constructors d.value).isSome = true := by
  by_cases hobject : ∃ d ∈ ds, d.name = n ∧ (objectName? constructors d.value).isSome = true
  · exact .inr hobject
  · refine .inl (h.kept n fun d hd hname => ?_)
    by_contra hsome
    exact hobject ⟨d, hd, hname, Option.isSome_iff_ne_none.mpr hsome⟩

theorem relabels (h : Distinct constructors ds taken σ) : Relabels σ := by
  intro r hne hr
  rcases h.kept_or_object r with hself | ⟨d, hd, rfl, hobject⟩
  · rw [hself]
    exact ⟨hne, hr⟩
  · obtain ⟨hid, _⟩ := h.fresh d hd hobject
    exact ⟨hid.ne_nil, hid.isRun⟩

/-- The keyword is no variable, and no new name. -/
theorem keepsKeyword (h : Distinct constructors ds taken σ) (hnames : ∀ d ∈ ds, d.name ≠ keyword)
    (htaken : keyword ∈ taken) : KeepsKeyword σ := by
  intro r _ _
  constructor
  · intro hkeyword
    rcases h.kept_or_object r with hself | ⟨d, hd, rfl, hobject⟩
    · exact hself.symm.trans hkeyword
    · rw [← hkeyword] at htaken
      exact absurd htaken (h.fresh d hd hobject).2.1
  · rintro rfl
    exact h.kept keyword fun d hd hname => absurd hname (hnames d hd)

end Distinct

/-- **The new names are distinct.** -/
theorem distinct_newName (constructors : List Constructor) (ds : List Declaration)
    (names : Registry) : Distinct constructors ds names.vars
      (renames constructors ds [] (reserveOthers constructors ds names)).1.newName := by
  have hfor : (renames constructors ds [] (reserveOthers constructors ds names)).1.For
      constructors ds := renames_for (List.Subset.refl ds) (by simp [Renames.For])
  have hfresh : (renames constructors ds [] (reserveOthers constructors ds names)).1.Fresh
      (reserveOthers constructors ds names).vars
      (renames constructors ds [] (reserveOthers constructors ds names)).2 :=
    renames_fresh ⟨by simp, by simp, by simp⟩
  have hgiven : ∀ d ∈ ds, (objectName? constructors d.value).isSome = true →
      ∃ name, List.lookup d.name
        (renames constructors ds [] (reserveOthers constructors ds names)).1 = some name :=
    fun d hd hobject => exists_lookup_renames hd hobject
  generalize (renames constructors ds [] (reserveOthers constructors ds names)).1 = renamed
    at hfor hfresh hgiven
  -- a name that is kept belongs to a variable without an object, and is not handed out
  have hkept : ∀ d ∈ ds, List.lookup d.name renamed = none → d.name ∉ renamed.map (·.2) := by
    intro d hd hnone hmem
    obtain ⟨r, hr, hname⟩ := List.mem_map.mp hmem
    have hother : objectName? constructors d.value = none := by
      by_contra hobject
      obtain ⟨name, hlookup⟩ := hgiven d hd (Option.isSome_iff_ne_none.mpr hobject)
      rw [hnone] at hlookup
      cases hlookup
    exact hfresh.untaken r hr (mem_reserveOthers.mpr (.inr ⟨d, hd, hname.symm, hother⟩))
  refine ⟨?_, ?_, ?_⟩
  · intro n hnone
    rcases hfor.newName_cases n with hself | ⟨_, d, hd, hname, hobject⟩
    · exact hself
    · rw [hnone d hd hname] at hobject
      cases hobject
  · intro d hd hobject
    obtain ⟨name, hname⟩ := hgiven d hd hobject
    have hmem := Renames.mem_of_lookup hname
    rw [Renames.newName_of_some hname]
    refine ⟨(hfor _ hmem).2, ?_, fun e he hsame => ?_⟩
    · exact fun htaken => hfresh.untaken _ hmem (mem_reserveOthers.mpr (.inl htaken))
    · rw [Option.isSome_iff_ne_none]
      intro hother
      exact hfresh.untaken _ hmem (mem_reserveOthers.mpr (.inr ⟨e, he, hsame, hother⟩))
  · exact fun d hd e he => hfresh.newName_injective (hkept d hd) (hkept e he)

/-! ## The text -/

/-- A line that is a declaration exactly if another is, of the new name. -/
def Redeclares (σ : Text → Text) (line line' : Text) : Prop :=
  isDeclaration line' = isDeclaration line ∧
    (isDeclaration line = true → nameOf line' = σ (nameOf line))

/-- **Variables that hold objects get new names, all at once and injectively.**  The text becomes
the one in which every maximal run of name bytes is replaced by its new name.  New names are
identifiers that were not taken and that no variable without an object has, and all other names are
kept.  Declarations stay on their lines and declare the new names. -/
theorem describe_simultaneous {s : Text} {ds : List Declaration}
    (h : Declaration.extract s = .ok ds) (hnames : ∀ d ∈ ds, IsRun d.name ∧ d.name ≠ keyword)
    (constructors : List Constructor) {names : Registry} (hkeyword : keyword ∈ names.vars) :
    ∃ σ names', describe constructors names s = .ok (Text.substitute σ s, names') ∧
      Distinct constructors ds names.vars σ ∧
      List.Forall₂ (Redeclares σ) (Text.lines s) (Text.lines (Text.substitute σ s)) := by
  have hdistinct := distinct_newName constructors ds names
  refine ⟨_, _, describe_eq h constructors names, hdistinct, ?_⟩
  have hkeeps := hdistinct.keepsKeyword (fun d hd => (hnames d hd).2) hkeyword
  rw [Text.lines_substitute hdistinct.relabels, List.forall₂_map_right_iff, List.forall₂_same]
  intro line hline
  refine ⟨Declaration.isDeclaration_substitute hdistinct.relabels hkeeps
    (Text.newline_not_mem hline), fun hdecl => ?_⟩
  obtain ⟨d, hd, hname, _⟩ := Declaration.exists_of_isDeclaration h hline hdecl
  obtain ⟨hne, hrun⟩ := Declaration.runs_of_extract h (fun d hd => (hnames d hd).1) d.name
    (List.mem_map_of_mem hd)
  rw [hname] at hne hrun
  obtain ⟨_, _, hsplit⟩ := Declaration.exists_nameSplit hdecl rfl hne hrun
  refine Declaration.nameOf_substitute hdistinct.relabels hkeeps hdecl ?_ hne hrun
  rw [hsplit.line_eq]
  simp

/-- Two variables with each other's names. -/
def crossNamed : Text :=
  utf8 "var list = new ActionDescriptor();\nvar desc = new ActionList();\nlist.putList( 1, desc );"

def crossNamedDescribed : Text :=
  utf8 "var desc = new ActionDescriptor();\nvar list = new ActionList();\ndesc.putList( 1, list );"

def crossNamedDeclarations : List Declaration :=
  [⟨utf8 "list", utf8 "new ActionDescriptor()", utf8 "var list = new ActionDescriptor();"⟩,
    ⟨utf8 "desc", utf8 "new ActionList()", utf8 "var desc = new ActionList();"⟩]

def crossNamedConstructors : List Constructor :=
  [⟨utf8 "ActionDescriptor", utf8 "desc"⟩, ⟨utf8 "ActionList", utf8 "list"⟩]

/-- Names are exchanged: each is given up as the other is taken. -/
theorem describe_simultaneous_crossNamed :
    (∀ d ∈ crossNamedDeclarations, (objectName? crossNamedConstructors d.value).isSome = true) ∧
    Text.substitute (renames crossNamedConstructors crossNamedDeclarations []
        (reserveOthers crossNamedConstructors crossNamedDeclarations
          (Registry.ofReserved [keyword]))).1.newName crossNamed =
      crossNamedDescribed ∧
    ∃ σ names', describe crossNamedConstructors (Registry.ofReserved [keyword]) crossNamed =
        .ok (Text.substitute σ crossNamed, names') ∧
      Distinct crossNamedConstructors crossNamedDeclarations [keyword] σ ∧
      List.Forall₂ (Redeclares σ) (Text.lines crossNamed)
        (Text.lines (Text.substitute σ crossNamed)) :=
  ⟨by decide +kernel, by decide +kernel,
    describe_simultaneous (by decide +kernel : Declaration.extract crossNamed =
        .ok crossNamedDeclarations)
      (fun d hd => by
        have hall : ∀ d ∈ crossNamedDeclarations,
            (∀ b ∈ d.name, Byte.isName b = true) ∧ d.name ≠ keyword := by decide +kernel
        exact hall d hd)
      crossNamedConstructors (List.mem_singleton_self _)⟩

end Pass

end ActionLog
