import ActionLog.Proofs.Inlining

/-!
# Lines whose variables are inlined

The variables of a text are inlined in some order, each with the value it has by then.  Whatever the
order, a line comes to the same when all variables left in it are expanded.

* `Plan` — the variables, and what each is to become in the end;
* `Plan.Fits`, `Plan.Fits.put` — what is known of a declared value, and after another one is put in;
* `Plan.Orderly`, `Plan.Orderly.put` — the same of a line;
* `Plan.Orderly.declares_put` — inlining a variable changes no declaration but its own;
* `Plan.substitute_expand_put` — and it makes no difference in the end.
-/

set_option autoImplicit false

namespace ActionLog.Pass

open Declaration (isDeclaration nameOf valueOf)
open Text (IsRun Bare WordIn hasWord substitute)

/-! ## Plans -/

/-- Declared variables, those that hold no object, those that are inlined, how deep their values
refer to each other, and what each becomes in the end. -/
structure Plan where
  declared : List Text
  plain : Text → Bool
  used : Text → Bool
  depth : Text → Nat
  full : Text → Text
  runs : ∀ n ∈ declared, n ≠ [] ∧ IsRun n
  declared_of_plain : ∀ n, plain n = true → n ∈ declared
  plain_of_used : ∀ n, used n = true → plain n = true
  keyword_not_plain : plain Declaration.keyword = false
  newline_not_mem_full : ∀ n, used n = true → Byte.newline ∉ full n
  full_not_construction : ∀ n, plain n = true → isConstruction (full n) = false

namespace Plan

variable {p : Plan} {n e k l : Text}

/-- What becomes of a word in the end. -/
def expand (p : Plan) (r : Text) : Text := if p.used r = true then p.full r else r

/-- Whether a line is kept: no variable that is inlined is declared there. -/
def stays (p : Plan) (l : Text) : Bool := p.declared.all fun n => !(p.used n && declares n l)

theorem expand_of_used (h : p.used n = true) : p.expand n = p.full n := if_pos h

theorem expand_of_not_used (h : p.used n = false) : p.expand n = n := if_neg (by rw [h]; decide)

theorem declared_of_used (h : p.used n = true) : n ∈ p.declared :=
  p.declared_of_plain n (p.plain_of_used n h)

theorem not_used_of_not_plain (h : p.plain n = false) : p.used n = false := by
  by_contra hused
  rw [Bool.not_eq_false] at hused
  rw [p.plain_of_used n hused] at h
  cases h

theorem stays_iff : p.stays l = true ↔ ∀ n, p.used n = true → declares n l = false := by
  unfold stays
  rw [List.all_eq_true]
  constructor
  · intro h n hused
    simpa [hused] using h n (declared_of_used hused)
  · intro h n _
    cases hused : p.used n with
    | false => rfl
    | true => simp [h n hused]

theorem exists_of_not_stays (h : p.stays l = false) :
    ∃ n, p.used n = true ∧ declares n l = true := by
  by_contra hnone
  have hstays : p.stays l = true := by
    refine stays_iff.mpr fun n hn => ?_
    by_contra hdecl
    exact hnone ⟨n, hn, by simpa using hdecl⟩
  rw [h] at hstays
  cases hstays

theorem expand_keyword (p : Plan) : p.expand Declaration.keyword = Declaration.keyword :=
  expand_of_not_used (not_used_of_not_plain p.keyword_not_plain)

/-- What the value of a declared variable is like at any time. -/
structure Fits (p : Plan) (n e : Text) : Prop where
  compact : Compact e
  newline : Byte.newline ∉ e
  passed : ∀ x a b, p.plain x = true → WordIn x e a b → Pass.passed b = true
  construction : isConstruction e = !p.plain n
  full : p.plain n = true → substitute p.expand e = p.full n
  deeper : ∀ r ∈ p.declared, hasWord r e = true → p.depth r < p.depth n

/-- Inlined values have no newline. -/
theorem newline_not_mem_expand {r : Text} (hr : IsRun r) : Byte.newline ∉ p.expand r := by
  cases hused : p.used r with
  | false =>
    rw [expand_of_not_used hused]
    exact newline_not_mem_of_isRun hr
  | true =>
    rw [expand_of_used hused]
    exact p.newline_not_mem_full r hused

/-! ## A value put in -/

theorem Fits.not_hasWord_self (hused : p.used n = true) (he : p.Fits n e) :
    hasWord n e = false := by
  by_contra hword
  rw [Bool.not_eq_false] at hword
  exact lt_irrefl _ (he.deeper n (declared_of_used hused) hword)

theorem put_keyword (hused : p.used n = true) :
    put n e Declaration.keyword = Declaration.keyword := by
  refine put_of_ne fun heq => ?_
  have hplain := p.plain_of_used n hused
  rw [← heq, p.keyword_not_plain] at hplain
  cases hplain

theorem Fits.newline_not_mem_put (he : p.Fits n e) {r : Text} (hr : IsRun r) :
    Byte.newline ∉ put n e r := by
  by_cases hrn : r = n
  · rw [hrn, put_self]
    exact he.newline
  · rw [put_of_ne hrn]
    exact newline_not_mem_of_isRun hr

/-- **In the end it makes no difference** whether a value has been put in before. -/
theorem substitute_expand_put (hused : p.used n = true) (he : p.Fits n e) (t : Text) :
    substitute p.expand (substitute (put n e) t) = substitute p.expand t := by
  rw [Text.substitute_comp]
  refine Text.substitute_congr (fun r hne hr => ?_) t
  by_cases hrn : r = n
  · rw [hrn, put_self, he.full (p.plain_of_used n hused), expand_of_used hused]
  · rw [put_of_ne hrn, Text.substitute_word _ hne hr]

/-- A variable that is only passed stays so. -/
theorem Fits.passed_put (he : p.Fits n e) {x t k' : Text} (hx : p.plain x = true)
    (ht : ∀ u v, WordIn x t u v → Pass.passed (v ++ k) = true)
    (hk : Pass.passed k = true → Pass.passed k' = true) {u v : Text}
    (h : WordIn x (substitute (put n e) t) u v) : Pass.passed (v ++ k') = true := by
  obtain ⟨hne, hrun⟩ := p.runs x (p.declared_of_plain x hx)
  obtain ⟨r, u', v', a, b, hrne, hr, hword, hinner, rfl, rfl⟩ := Text.word_origin hne hrun h
  by_cases hrn : r = n
  · rw [hrn, put_self] at hinner
    rw [List.append_assoc]
    exact passed_left (he.passed x a b hx hinner) _
  · rw [put_of_ne hrn] at hinner
    obtain ⟨rfl, _, rfl⟩ := Text.word_of_isRun hr hinner
    exact passed_substitute _ hk (ht u' v' hword)

theorem Fits.inserts (hused : p.used n = true) (he : p.Fits n e) {m v : Text} (hv : p.Fits m v) :
    Inserts (put n e) v := by
  refine ⟨fun r a b _ _ hword hchange => ?_, fun r _ _ _ hchange => ?_⟩
  · rw [eq_of_put_ne hchange] at hword
    exact hv.passed n a b (p.plain_of_used n hused) hword
  · rw [eq_of_put_ne hchange, put_self]
    exact he.compact

/-- **The value of a variable stays fit** when another variable is inlined in it. -/
theorem Fits.put (hused : p.used n = true) (he : p.Fits n e) {m v : Text} (hv : p.Fits m v) :
    p.Fits m (substitute (put n e) v) := by
  have hinserts := he.inserts hused hv
  have hfull : p.plain m = true → substitute p.expand (substitute (Pass.put n e) v) = p.full m := by
    intro hm
    rw [substitute_expand_put hused he, hv.full hm]
  have hpassed : ∀ x a b, p.plain x = true → WordIn x (substitute (Pass.put n e) v) a b →
      Pass.passed b = true := by
    intro x a b hx hword
    rw [← List.append_nil b]
    refine he.passed_put (k := []) hx (fun u w hw => ?_) id hword
    rw [List.append_nil]
    exact hv.passed x u w hx hw
  have hnew := Text.newline_not_mem_substitute hv.newline fun r _ => he.newline_not_mem_put
  refine ⟨hv.compact.substitute hinserts, hnew, hpassed, ?_, hfull, ?_⟩
  · cases hm : p.plain m with
    | false =>
      have hobject := hv.construction
      rw [hm] at hobject
      exact isConstruction_substitute hinserts.passed (fun r _ => he.newline_not_mem_put) hobject
    | true =>
      -- otherwise the full value would construct an object as well
      by_contra hobject
      rw [Bool.not_true, Bool.not_eq_false] at hobject
      have hend := isConstruction_substitute (f := p.expand) (fun r a b _ _ hword hchange => ?_)
        (fun r _ => newline_not_mem_expand) hobject
      · rw [hfull hm, p.full_not_construction m hm] at hend
        cases hend
      · cases hr : p.used r with
        | false => exact absurd (expand_of_not_used hr) hchange
        | true => exact hpassed r a b (p.plain_of_used r hr) hword
  · intro r hr hword
    rw [hasWord_put (p.runs n (declared_of_used hused)).2 (p.runs r hr).2] at hword
    rcases hword with ⟨_, hword⟩ | ⟨hn, hword⟩
    · exact hv.deeper r hr hword
    · exact (he.deeper r hr hword).trans (hv.deeper n (declared_of_used hused) hn)

/-! ## Lines -/

/-- What a line is like at any time when `k` follows it: variables are passed but where they are
declared, and no variable that holds an object is declared in the end that is not declared yet. -/
structure Orderly (p : Plan) (k l : Text) : Prop where
  newline : Byte.newline ∉ l
  passed : ∀ x u v, p.plain x = true → declares x l = false → WordIn x l u v →
    Pass.passed (v ++ k) = true
  objects : ∀ m ∈ p.declared, p.plain m = false → p.stays l = true →
    declares m (substitute p.expand l) = true → declares m l = true
  fits : ∀ m ∈ p.declared, declares m l = true → p.Fits m (valueOf l)

theorem Orderly.mono {k' : Text} (hl : p.Orderly k l)
    (hk : Pass.passed k = true → Pass.passed k' = true) : p.Orderly k' l :=
  { hl with passed := fun x u v hx hforeign hword =>
      passed_append hk (hl.passed x u v hx hforeign hword) }

section Line

variable (hl : p.Orderly k l) (hused : p.used n = true) (he : p.Fits n e)
  (hforeign : declares n l = false)

include hl hused he hforeign

/-- Other declarations stay. -/
theorem Orderly.declares_put_of {m : Text} (hm : m ∈ p.declared) (h : declares m l = true) :
    declares m (substitute (Pass.put n e) l) = true := by
  obtain ⟨hne, hrun⟩ := p.runs m hm
  exact declares_substitute hne hrun (put_keyword hused)
    (put_of_ne (ne_of_declares h hforeign)) hl.newline
    (Text.newline_not_mem_substitute hl.newline fun r _ => he.newline_not_mem_put) h

/-- **Inlining a variable changes no declaration on other lines.** -/
theorem Orderly.declares_put {m : Text} (hm : m ∈ p.declared) :
    declares m (substitute (Pass.put n e) l) = declares m l := by
  obtain ⟨hne, hrun⟩ := p.runs m hm
  have hnew : Byte.newline ∉ substitute (Pass.put n e) l :=
    Text.newline_not_mem_substitute hl.newline fun r _ => he.newline_not_mem_put
  refine Bool.eq_iff_iff.mpr ⟨fun h => ?_, hl.declares_put_of hused he hforeign hm⟩
  by_contra hnot
  rw [Bool.not_eq_true] at hnot
  cases hplain : p.plain m with
  | true =>
    -- the name would have been passed before, and would be so still
    obtain ⟨u, v, hword, _, hidle⟩ := exists_nameWord hne hrun h
    have hpassed := he.passed_put hplain (fun u v => hl.passed m u v hplain hnot) id hword
    rw [hidle] at hpassed
    cases hpassed
  | false =>
    cases hstays : p.stays l with
    | true =>
      -- the line would declare an object in the end
      have hend := declares_substitute hne hrun p.expand_keyword
        (expand_of_not_used (not_used_of_not_plain hplain)) hnew
        (Text.newline_not_mem_substitute hnew fun r _ => newline_not_mem_expand) h
      rw [substitute_expand_put hused he] at hend
      rw [hl.objects m hm hplain hstays hend] at hnot
      cases hnot
    | false =>
      -- the line declares a variable that is inlined, and nothing else
      obtain ⟨x, hx, hdecl⟩ := exists_of_not_stays hstays
      have hother := hl.declares_put_of hused he hforeign (declared_of_used hx) hdecl
      rw [not_declares_of_ne hother] at h
      · cases h
      · rintro rfl
        rw [p.plain_of_used m hx] at hplain
        cases hplain

theorem Orderly.stays_put : p.stays (substitute (Pass.put n e) l) = p.stays l := by
  refine Bool.eq_iff_iff.mpr ?_
  rw [stays_iff, stays_iff]
  refine forall₂_congr fun x hx => ?_
  rw [hl.declares_put hused he hforeign (declared_of_used hx)]

/-- **A line stays orderly** when a variable that it does not declare is inlined. -/
theorem Orderly.put {k' : Text} (hk : Pass.passed k = true → Pass.passed k' = true) :
    p.Orderly k' (substitute (Pass.put n e) l) := by
  have hdeclares := fun m => hl.declares_put hused he hforeign (m := m)
  refine ⟨Text.newline_not_mem_substitute hl.newline fun r _ => he.newline_not_mem_put, ?_, ?_, ?_⟩
  · intro x u v hx hother hword
    rw [hdeclares x (p.declared_of_plain x hx)] at hother
    exact he.passed_put hx (fun u v => hl.passed x u v hx hother) hk hword
  · intro m hm hobject hstays hend
    rw [substitute_expand_put hused he] at hend
    rw [hl.stays_put hused he hforeign] at hstays
    rw [hdeclares m hm]
    exact hl.objects m hm hobject hstays hend
  · intro m hm hdecl
    rw [hdeclares m hm] at hdecl
    obtain ⟨hne, hrun⟩ := p.runs m hm
    have hv := hl.fits m hm hdecl
    rw [valueOf_substitute hne hrun (put_keyword hused) (put_of_ne (ne_of_declares hdecl hforeign))
      hl.newline hdecl hv.compact (he.inserts hused hv)]
    exact he.put hused hv

end Line

end Plan

end ActionLog.Pass
