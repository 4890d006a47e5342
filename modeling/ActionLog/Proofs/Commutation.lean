import ActionLog.Proofs.Allocation

/-!
# Names handed out in either order

Two texts with different cores have no version in common, so that neither is in the way of the other,
and scopes do not see each other's names.

* `Name.numbered_inj` — a core with a number behind it can be taken apart again;
* `freeVersion_congr` — the version found depends on the taken names with its core only, as a set;
* `Agrees` — registries with the same reserved words in which the same names are taken;
  `Agrees.deeds` says that they do the same whatever is asked of them;
* `allocate_allocate` — the second of two names is the one it would have been as the first.

Principal result: `allocations_commute`.
-/

set_option autoImplicit false

namespace ActionLog

namespace Name

/-- **A core is its own core.** -/
theorem core_core (s : Text) : core (core s) = core s := core_version s 1

theorem core_numbered (s : Text) (k : Nat) : core (core s ++ Text.decimal k) = core s :=
  core_append (core_isIdentifier s) (trimEndBy_core s) (Text.decimal_all_digit k)

/-- **A core and the number behind it can be told apart**: a core does not end with a digit. -/
theorem numbered_inj {a b : Text} {j k : Nat}
    (h : core a ++ Text.decimal j = core b ++ Text.decimal k) : core a = core b ∧ j = k := by
  have hcore : core a = core b := by
    rw [← core_numbered a j, h, core_numbered]
  rw [hcore] at h
  exact ⟨hcore, Text.decimal_injective (List.append_cancel_left h)⟩

end Name

namespace Registry

/-! ## What the version found depends on -/

/-- Only the taken names with the core that is wanted matter, and not how often they are listed. -/
theorem freeVersion_congr {names names' : List Text} {wanted : Text}
    (h : ∀ n, Name.core n = Name.core wanted → (n ∈ names ↔ n ∈ names')) :
    freeVersion names (Name.core wanted) = freeVersion names' (Name.core wanted) := by
  have hversion : ∀ k, Name.version (Name.core wanted) k ∈ names ↔
      Name.version (Name.core wanted) k ∈ names' := by
    intro k
    exact h _ (Name.core_version wanted k)
  obtain ⟨k, hk, heq, hfree, hleast⟩ := freeVersion_spec names (Name.core wanted)
  rw [heq, ← search_iff]
  refine Search.of_taken ?_ hk ?_
  · rwa [← hversion]
  · intro i hi hik
    exact (hversion i).mp (hleast i hi hik)

/-- A name with another core is not in the way. -/
theorem freeVersion_cons_of_core_ne {name wanted : Text} (names : List Text)
    (h : Name.core name ≠ Name.core wanted) :
    freeVersion (name :: names) (Name.core wanted) = freeVersion names (Name.core wanted) := by
  apply freeVersion_congr
  intro n hn
  have hne : n ≠ name := fun heq => h (heq ▸ hn)
  simp [hne]

/-! ## Registries that no request tells apart -/

/-- The same words are reserved, and the same names are taken in every scope. -/
structure Agrees (r r' : Registry) : Prop where
  reserved : r.reserved = r'.reserved
  taken : ∀ s n, n ∈ r.taken s ↔ n ∈ r'.taken s

namespace Agrees

variable {r r' : Registry}

theorem allocate (h : Agrees r r') (s : Scope) (wanted : Text) :
    (r.allocate s wanted).1 = (r'.allocate s wanted).1 :=
  freeVersion_congr fun n _ => h.taken s n

/-- Names that are the same as sets may be put in the place of each other. -/
theorem setTaken (h : Agrees r r') (s : Scope) {names names' : List Text}
    (hnames : ∀ n, n ∈ names ↔ n ∈ names') : Agrees (r.setTaken names s) (r'.setTaken names' s) := by
  refine ⟨by simpa using h.reserved, ?_⟩
  intro t n
  by_cases hts : t = s
  · subst hts
    simpa using hnames n
  · rw [taken_setTaken_of_ne _ _ hts, taken_setTaken_of_ne _ _ hts]
    exact h.taken t n

theorem reserve (h : Agrees r r') (s : Scope) (name : Text) :
    Agrees (r.reserve s name) (r'.reserve s name) := by
  apply h.setTaken s
  intro n
  rw [List.mem_cons, List.mem_cons, h.taken s n]

/-- A request has the same answer, and leaves registries that agree. -/
theorem serve (h : Agrees r r') (q : Request) :
    (r.serve q).1 = (r'.serve q).1 ∧ Agrees (r.serve q).2 (r'.serve q).2 := by
  cases q with
  | allocate s wanted =>
    have hname := h.allocate s wanted
    refine ⟨congrArg (Deed.took s) hname, ?_⟩
    show Agrees (r.reserve s (r.allocate s wanted).1) (r'.reserve s (r'.allocate s wanted).1)
    rw [hname]
    exact h.reserve s _
  | reserve s name => exact ⟨rfl, h.reserve s name⟩
  | reset s =>
    refine ⟨rfl, h.setTaken s ?_⟩
    intro n
    rw [h.reserved]

/-- **Registries that agree do the same**, whatever is asked of them. -/
theorem deeds (h : Agrees r r') (requests : List Request) :
    r.deeds requests = r'.deeds requests := by
  induction requests generalizing r r' with
  | nil => rfl
  | cons q qs ih =>
    obtain ⟨hdeed, hnext⟩ := h.serve q
    rw [Registry.deeds, Registry.deeds, hdeed, ih hnext]

end Agrees

/-! ## Two names -/

/-- The core of an allocated name is the core of what was wanted. -/
theorem core_allocate (r : Registry) (s : Scope) (wanted : Text) :
    Name.core (r.allocate s wanted).1 = Name.core wanted := by
  obtain ⟨k, _, heq, _⟩ := freeVersion_spec (r.taken s) (Name.core wanted)
  show Name.core (freeVersion (r.taken s) (Name.core wanted)) = Name.core wanted
  rw [heq, Name.core_version]

/-- **A name allocated before is not in the way** of one in another scope or with another core. -/
theorem allocate_allocate (r : Registry) {s t : Scope} {a b : Text}
    (h : s ≠ t ∨ Name.core a ≠ Name.core b) :
    ((r.allocate s a).2.allocate t b).1 = (r.allocate t b).1 := by
  show freeVersion ((r.setTaken ((r.allocate s a).1 :: r.taken s) s).taken t) (Name.core b) =
    freeVersion (r.taken t) (Name.core b)
  by_cases hst : t = s
  · subst hst
    rw [taken_setTaken]
    apply freeVersion_cons_of_core_ne
    rw [core_allocate]
    exact h.resolve_left fun hne => hne rfl
  · rw [taken_setTaken_of_ne _ _ hst]

/-- The order in which two names are taken leaves no trace. -/
theorem reserve_reserve_agrees (r : Registry) (s t : Scope) (m n : Text) :
    Agrees ((r.reserve s m).reserve t n) ((r.reserve t n).reserve s m) := by
  unfold reserve
  by_cases hst : s = t
  · subst hst
    simp only [taken_setTaken, setTaken_setTaken]
    refine Agrees.setTaken ⟨rfl, fun _ _ => Iff.rfl⟩ s ?_
    intro x
    simp only [List.mem_cons]
    tauto
  · rw [taken_setTaken_of_ne _ _ (Ne.symm hst), taken_setTaken_of_ne _ _ hst, setTaken_comm _ _ _ hst]
    exact ⟨rfl, fun _ _ => Iff.rfl⟩

/-- **Names for different texts can be asked for in either order.**  If the scopes or the cores differ,
then in every registry both texts are given the same names in both orders, and the registries after
them cannot be told apart: the same names are taken, and all later requests are served alike.  A core
with a number behind it determines both, and a core is its own core. -/
theorem allocations_commute :
    (∀ (r : Registry) (s t : Scope) (a b : Text), s ≠ t ∨ Name.core a ≠ Name.core b →
      ((r.allocate s a).2.allocate t b).1 = (r.allocate t b).1 ∧
      ((r.allocate t b).2.allocate s a).1 = (r.allocate s a).1 ∧
      Agrees ((r.allocate s a).2.allocate t b).2 ((r.allocate t b).2.allocate s a).2 ∧
      ∀ later, ((r.allocate s a).2.allocate t b).2.deeds later =
        ((r.allocate t b).2.allocate s a).2.deeds later) ∧
    (∀ (a b : Text) (j k : Nat), Name.core a ++ Text.decimal j = Name.core b ++ Text.decimal k →
      Name.core a = Name.core b ∧ j = k) ∧
    ∀ s : Text, Name.core (Name.core s) = Name.core s := by
  refine ⟨?_, fun a b j k => Name.numbered_inj, Name.core_core⟩
  intro r s t a b h
  have hab := allocate_allocate r h
  have hba := allocate_allocate r (h.imp Ne.symm Ne.symm)
  have hagree : Agrees ((r.allocate s a).2.allocate t b).2 ((r.allocate t b).2.allocate s a).2 := by
    show Agrees ((r.reserve s (r.allocate s a).1).reserve t ((r.allocate s a).2.allocate t b).1)
      ((r.reserve t (r.allocate t b).1).reserve s ((r.allocate t b).2.allocate s a).1)
    rw [hab, hba]
    exact reserve_reserve_agrees r s t _ _
  exact ⟨hab, hba, hagree, hagree.deeds⟩

/-- Numbers asked for are dropped: `list9` and `lis12` are versions of different cores, although one
core starts the other. -/
theorem allocations_commute_nested :
    (Scope.vars ≠ Scope.vars ∨ Name.core (utf8 "list9") ≠ Name.core (utf8 "lis12")) ∧
      (((ofReserved [utf8 "list"]).allocate .vars (utf8 "list9")).2.allocate .vars (utf8 "lis12")).1 =
        utf8 "lis" ∧
      (((ofReserved [utf8 "list"]).allocate .vars (utf8 "lis12")).2.allocate .vars (utf8 "list9")).1 =
        utf8 "list2" ∧
      Name.core (utf8 "42") = Name.core (utf8 "xxx7") := by
  have hcore : Scope.vars ≠ Scope.vars ∨ Name.core (utf8 "list9") ≠ Name.core (utf8 "lis12") := by
    right
    decide +kernel
  obtain ⟨hsecond, hfirst, _⟩ := allocations_commute.1 (ofReserved [utf8 "list"]) .vars .vars _ _ hcore
  have hparts := allocations_commute.2.1 (utf8 "42") (utf8 "xxx7") 12 12 (by decide +kernel)
  refine ⟨hcore, ?_, ?_, hparts.1⟩
  · rw [hsecond]
    decide +kernel
  · rw [hfirst]
    decide +kernel

end Registry

end ActionLog
