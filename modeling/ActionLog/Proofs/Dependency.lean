import ActionLog.Pass.Construction
import ActionLog.Proofs.Declaration
import ActionLog.Proofs.Substitution
import Mathlib.Data.Finset.Card
import Mathlib.Data.List.Basic
import Mathlib.Logic.Relation

/-!
# Declared values that refer to each other

The value of a variable may mention other variables, and so on.  Where no variable comes back to
itself, a value can be written without the variables it refers to.

* `DependsOn`, `Acyclic` — a value mentions a variable; no variable depends on itself;
* `depth`, `depth_lt` — the number of variables that one depends on, less for each of them;
* `plainValue?` — the value of a variable that holds no object;
* `expand`, `expand_eq` — the value of such a variable with all others of them expanded.
-/

set_option autoImplicit false

namespace ActionLog.Pass

open Text (IsRun hasWord substitute)

/-! ## Dependency -/

/-- The value declared for `n` mentions the declared name `m`. -/
def DependsOn (ds : List Declaration) (n m : Text) : Prop :=
  m ∈ ds.map (·.name) ∧ ∃ d ∈ ds, d.name = n ∧ hasWord m d.value = true

/-- No variable depends on itself. -/
def Acyclic (ds : List Declaration) : Prop := ∀ n, ¬ Relation.TransGen (DependsOn ds) n n

section Dependency

variable {ds : List Declaration} {n m : Text}

theorem mem_of_transGen (h : Relation.TransGen (DependsOn ds) n m) :
    n ∈ ds.map (·.name) ∧ m ∈ ds.map (·.name) := by
  induction h with
  | single h =>
    obtain ⟨hm, d, hd, rfl, _⟩ := h
    exact ⟨List.mem_map_of_mem hd, hm⟩
  | tail _ h ih => exact ⟨ih.1, h.1⟩

/-- Variables that can be ranked so that every value mentions lower ones only do not depend on
themselves. -/
theorem acyclic_of_rank (rank : Text → Nat)
    (h : ∀ d ∈ ds, ∀ e ∈ ds, hasWord e.name d.value = true → rank e.name < rank d.name) :
    Acyclic ds := by
  have hstep : ∀ n m, DependsOn ds n m → rank m < rank n := by
    rintro n m ⟨hm, d, hd, rfl, hword⟩
    obtain ⟨e, he, rfl⟩ := List.mem_map.mp hm
    exact h d hd e he hword
  have hpath : ∀ n m, Relation.TransGen (DependsOn ds) n m → rank m < rank n := by
    intro n m hreach
    induction hreach with
    | single hdep => exact hstep _ _ hdep
    | tail _ hdep ih => exact (hstep _ _ hdep).trans ih
  exact fun n hcycle => lt_irrefl _ (hpath n n hcycle)

open Classical in
/-- The variables that one depends on. -/
noncomputable def dependencies (ds : List Declaration) (n : Text) : Finset Text :=
  (ds.map (·.name)).toFinset.filter fun m => Relation.TransGen (DependsOn ds) n m

theorem mem_dependencies :
    m ∈ dependencies ds n ↔ Relation.TransGen (DependsOn ds) n m := by
  classical
  unfold dependencies
  rw [Finset.mem_filter, List.mem_toFinset]
  exact ⟨fun h => h.2, fun h => ⟨(mem_of_transGen h).2, h⟩⟩

/-- How many variables one depends on. -/
noncomputable def depth (ds : List Declaration) (n : Text) : Nat := (dependencies ds n).card

/-- **A variable is deeper than those its value mentions.** -/
theorem depth_lt (hacyclic : Acyclic ds) (h : DependsOn ds n m) : depth ds m < depth ds n := by
  refine Finset.card_lt_card (Finset.ssubset_iff_of_subset ?_ |>.mpr ⟨m, ?_, ?_⟩)
  · intro x hx
    exact mem_dependencies.mpr (.head h (mem_dependencies.mp hx))
  · exact mem_dependencies.mpr (.single h)
  · exact fun hm => hacyclic m (mem_dependencies.mp hm)

/-- A variable does not depend on all that are declared, itself being one of them. -/
theorem depth_lt_length (hacyclic : Acyclic ds) (hn : n ∈ ds.map (·.name)) :
    depth ds n < ds.length := by
  have hproper : dependencies ds n ⊂ (ds.map (·.name)).toFinset := by
    refine Finset.ssubset_iff_of_subset ?_ |>.mpr ⟨n, List.mem_toFinset.mpr hn, ?_⟩
    · exact fun m hm => List.mem_toFinset.mpr (mem_of_transGen (mem_dependencies.mp hm)).2
    · exact fun hmem => hacyclic n (mem_dependencies.mp hmem)
  calc depth ds n < (ds.map (·.name)).toFinset.card := Finset.card_lt_card hproper
    _ ≤ (ds.map (·.name)).length := List.toFinset_card_le _
    _ = ds.length := List.length_map _

end Dependency

/-! ## Expansion -/

/-- The value of a variable, unless it is the construction of an object. -/
def plainValue? (ds : List Declaration) (n : Text) : Option Text :=
  (ds.find? (·.name == n)).bind fun d => if isConstruction d.value then none else some d.value

/-- Words with the values of variables put in their place, at most so many levels deep. -/
def expandBy (ds : List Declaration) : (levels : Nat) → Text → Text
  | 0, r => r
  | levels + 1, r =>
    match plainValue? ds r with
    | some value => substitute (expandBy ds levels) value
    | none => r

/-- A variable's value with all variables in it expanded; any other word, and the name of an object,
as it is.  No variable is further than the number of declarations away. -/
def expand (ds : List Declaration) : Text → Text := expandBy ds ds.length

section Expansion

variable {ds : List Declaration} {n value : Text}

theorem plainValue?_eq_some (h : plainValue? ds n = some value) :
    ∃ d ∈ ds, d.name = n ∧ d.value = value ∧ isConstruction value = false := by
  unfold plainValue? at h
  obtain ⟨d, hd, h⟩ := Option.bind_eq_some_iff.mp h
  split at h
  · cases h
  · rename_i hplain
    cases h
    exact ⟨d, List.mem_of_find?_eq_some hd, by simpa using List.find?_some hd, rfl,
      by simpa using hplain⟩

/-- Declarations that agree on a name agree on its plain value. -/
theorem plainValue?_eq (hsame : ∀ d ∈ ds, ∀ e ∈ ds, d.name = e.name → d.value = e.value)
    {d : Declaration} (hd : d ∈ ds) :
    plainValue? ds d.name = if isConstruction d.value then none else some d.value := by
  have hsome : (ds.find? (·.name == d.name)).isSome = true :=
    List.find?_isSome.mpr ⟨d, hd, by simp⟩
  obtain ⟨e, he⟩ := Option.isSome_iff_exists.mp hsome
  have hvalue : e.value = d.value :=
    hsame e (List.mem_of_find?_eq_some he) d hd (by simpa using List.find?_some he)
  unfold plainValue?
  rw [he, Option.bind_some, hvalue]

theorem expandBy_of_none (h : plainValue? ds n = none) (levels : Nat) :
    expandBy ds levels n = n := by
  cases levels with
  | zero => rfl
  | succ levels => simp [expandBy, h]

theorem expand_of_none (h : plainValue? ds n = none) : expand ds n = n := expandBy_of_none h _

/-- One level more changes nothing where there are more levels than the variable is deep. -/
theorem expandBy_succ (hacyclic : Acyclic ds) {levels : Nat} (hdepth : depth ds n < levels) :
    expandBy ds (levels + 1) n = expandBy ds levels n := by
  induction levels generalizing n with
  | zero => omega
  | succ levels ih =>
    cases hplain : plainValue? ds n with
    | none => rw [expandBy_of_none hplain, expandBy_of_none hplain]
    | some value =>
      obtain ⟨d, hd, hname, hvalue, _⟩ := plainValue?_eq_some hplain
      rw [expandBy, hplain, expandBy, hplain]
      refine Text.substitute_congr_words fun r _ _ hword => ?_
      cases hr : plainValue? ds r with
      | none => rw [expandBy_of_none hr, expandBy_of_none hr]
      | some v =>
        obtain ⟨e, he, hename, _⟩ := plainValue?_eq_some hr
        have hdep : DependsOn ds n r :=
          ⟨hename ▸ List.mem_map_of_mem he, d, hd, hname, hvalue ▸ hword⟩
        have hlt := depth_lt hacyclic hdep
        exact ih (by omega)

/-- **The expansion of a variable** is its value with the words expanded. -/
theorem expand_eq (hacyclic : Acyclic ds) (n : Text) :
    expand ds n = match plainValue? ds n with
      | some value => substitute (expand ds) value
      | none => n := by
  cases hplain : plainValue? ds n with
  | none => exact expand_of_none hplain
  | some value =>
    obtain ⟨d, hd, rfl, _⟩ := plainValue?_eq_some hplain
    have hdepth := depth_lt_length hacyclic (List.mem_map_of_mem (f := (·.name)) hd)
    unfold expand
    rw [← expandBy_succ hacyclic hdepth, expandBy, hplain]

/-- Expansions have no bytes but those of the names and the values. -/
theorem not_mem_expand {b : UInt8} (hvalues : ∀ d ∈ ds, b ∉ d.value) (hb : Byte.isName b = false)
    (hn : IsRun n) : b ∉ expand ds n := by
  unfold expand
  generalize ds.length = levels
  have hword : ∀ {r : Text}, IsRun r → b ∉ r := by
    intro r hr hmem
    rw [hr b hmem] at hb
    cases hb
  induction levels generalizing n with
  | zero => exact hword hn
  | succ levels ih =>
    cases hplain : plainValue? ds n with
    | none =>
      rw [expandBy_of_none hplain]
      exact hword hn
    | some value =>
      obtain ⟨d, hd, _, rfl, _⟩ := plainValue?_eq_some hplain
      rw [expandBy, hplain]
      intro hmem
      rcases Text.mem_substitute hmem with hmem | ⟨r, _, hr, hmem⟩
      · exact hvalues d hd hmem
      · exact ih hr hmem

end Expansion

end ActionLog.Pass
