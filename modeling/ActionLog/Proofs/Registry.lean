import ActionLog.Name.Registry
import ActionLog.Proofs.Name
import Mathlib.Data.List.Nodup
import Mathlib.Data.List.Perm.Subperm

/-!
# What handing out names does to a registry

* `Registry.freeVersion_not_mem` — among one version more than there are taken names, one is free;
* `Registry.allocate_spec` — an allocated name is a free identifier, and is taken afterwards;
* `Registry.handOut` — the names that texts wanted one after another are given; they are free
  identifiers, pairwise distinct (`handOut_fresh`), and those with one core are its versions in
  order, with none left out but the reserved ones (`handOut_versions`);
* `Registry.Local` — steps that read and write the names of one scope only; handing out names is
  local, and so is one local step after another.
-/

set_option autoImplicit false

namespace ActionLog.Registry

/-! ## Scopes -/

@[simp] theorem taken_setTaken (r : Registry) (names : List Text) (s : Scope) :
    (r.setTaken names s).taken s = names := by
  cases s <;> rfl

theorem taken_setTaken_of_ne (r : Registry) (names : List Text) {s t : Scope} (h : t ≠ s) :
    (r.setTaken names s).taken t = r.taken t := by
  cases s <;> cases t <;> first | rfl | exact absurd rfl h

@[simp] theorem reserved_setTaken (r : Registry) (names : List Text) (s : Scope) :
    (r.setTaken names s).reserved = r.reserved := by
  cases s <;> rfl

@[simp] theorem setTaken_setTaken (r : Registry) (names names' : List Text) (s : Scope) :
    (r.setTaken names s).setTaken names' s = r.setTaken names' s := by
  cases s <;> rfl

@[simp] theorem setTaken_taken (r : Registry) (s : Scope) : r.setTaken (r.taken s) s = r := by
  cases s <;> rfl

theorem setTaken_comm (r : Registry) (names names' : List Text) {s t : Scope} (h : s ≠ t) :
    (r.setTaken names s).setTaken names' t = (r.setTaken names' t).setTaken names s := by
  cases s <;> cases t <;> first | rfl | exact absurd rfl h

/-! ## Free versions -/

/-- The search for a free version cannot fail: distinct versions would all have to be taken. -/
theorem exists_free_version (names : List Text) (stem : Text) :
    ∃ k, (List.range' 1 (names.length + 1)).find?
      (fun k => !names.contains (Name.version stem k)) = some k := by
  cases hf : (List.range' 1 (names.length + 1)).find?
      (fun k => !names.contains (Name.version stem k)) with
  | some k => exact ⟨k, rfl⟩
  | none =>
    exfalso
    rw [List.find?_eq_none] at hf
    have hsub : (List.range' 1 (names.length + 1)).map (Name.version stem) ⊆ names := by
      intro x hx
      obtain ⟨k, hk, rfl⟩ := List.mem_map.mp hx
      simpa using hf k hk
    have hnodup : ((List.range' 1 (names.length + 1)).map (Name.version stem)).Nodup := by
      refine List.Nodup.map_on ?_ List.nodup_range'
      intro j hj k hk h
      rw [List.mem_range'_1] at hj hk
      exact Name.version_injective hj.1 hk.1 h
    have hlen := (List.subperm_of_subset hnodup hsub).length_le
    rw [List.length_map, List.length_range'] at hlen
    omega

/-- **The version found is free**, and it is the least that is. -/
theorem freeVersion_spec (names : List Text) (stem : Text) :
    ∃ k, 1 ≤ k ∧ freeVersion names stem = Name.version stem k ∧
      Name.version stem k ∉ names ∧ ∀ j, 1 ≤ j → j < k → Name.version stem j ∈ names := by
  obtain ⟨k, hk⟩ := exists_free_version names stem
  have hfree := List.find?_some hk
  have hmem := List.mem_of_find?_eq_some hk
  rw [List.mem_range'_1] at hmem
  refine ⟨k, hmem.1, by simp only [freeVersion, hk, Option.getD_some], by simpa using hfree, ?_⟩
  intro j hj hjk
  rw [List.find?_range'_eq_some] at hk
  simpa using hk.2.2 j hj hjk

theorem freeVersion_not_mem (names : List Text) (stem : Text) :
    freeVersion names stem ∉ names := by
  obtain ⟨k, _, heq, hfree, _⟩ := freeVersion_spec names stem
  rw [heq]
  exact hfree

/-- **An allocated name is a free identifier with the core of what was wanted**, and the registry
changes by that name alone. -/
theorem allocate_spec (r : Registry) (s : Scope) (wanted : Text) :
    (r.allocate s wanted).1 ∉ r.taken s ∧ Name.IsIdentifier (r.allocate s wanted).1 ∧
      Name.core wanted ⊆ (r.allocate s wanted).1 ∧
      (r.allocate s wanted).2 = r.setTaken ((r.allocate s wanted).1 :: r.taken s) s := by
  obtain ⟨k, _, heq, hfree, _⟩ := freeVersion_spec (r.taken s) (Name.core wanted)
  have hname : (r.allocate s wanted).1 = Name.version (Name.core wanted) k := heq
  refine ⟨by rw [hname]; exact hfree, ?_, ?_, rfl⟩
  · rw [hname]
    exact Name.version_isIdentifier (Name.core_isIdentifier wanted) k
  · rw [hname]
    exact Name.subset_version _ k

/-! ## Names handed out one after another -/

/-- The names given to texts that are wanted one after another, when `taken` are taken before. -/
def handOut : (taken : List Text) → (wanted : List Text) → List Text
  | _, [] => []
  | taken, w :: ws =>
    freeVersion taken (Name.core w) :: handOut (freeVersion taken (Name.core w) :: taken) ws

theorem handOut_append (taken ws ws' : List Text) : handOut taken (ws ++ ws') =
    handOut taken ws ++ handOut ((handOut taken ws).reverse ++ taken) ws' := by
  induction ws generalizing taken with
  | nil => rfl
  | cons w ws ih =>
    rw [List.cons_append, handOut, ih]
    simp [handOut]

/-- A name has the core of the text that it was wanted for. -/
theorem map_core_handOut (taken ws : List Text) :
    (handOut taken ws).map Name.core = ws.map Name.core := by
  induction ws generalizing taken with
  | nil => rfl
  | cons w ws ih =>
    obtain ⟨k, _, heq, _⟩ := freeVersion_spec taken (Name.core w)
    rw [handOut, List.map_cons, ih, heq, Name.core_version, List.map_cons]

theorem handOut_isIdentifier (taken ws : List Text) :
    ∀ n ∈ handOut taken ws, Name.IsIdentifier n := by
  induction ws generalizing taken with
  | nil => simp [handOut]
  | cons w ws ih =>
    obtain ⟨k, _, heq, _⟩ := freeVersion_spec taken (Name.core w)
    rw [handOut, List.forall_mem_cons, heq]
    exact ⟨Name.version_isIdentifier (Name.core_isIdentifier w) k, ih _⟩

/-- **Names handed out are pairwise distinct**, and none of them was taken. -/
theorem handOut_fresh (taken ws : List Text) :
    (handOut taken ws).Nodup ∧ ∀ n ∈ handOut taken ws, n ∉ taken := by
  induction ws generalizing taken with
  | nil => simp [handOut]
  | cons w ws ih =>
    obtain ⟨hnodup, hfree⟩ := ih (freeVersion taken (Name.core w) :: taken)
    rw [handOut, List.nodup_cons, List.forall_mem_cons]
    refine ⟨⟨fun hmem => hfree _ hmem List.mem_cons_self, hnodup⟩,
      freeVersion_not_mem taken _, fun n hn htaken => ?_⟩
    exact hfree n hn (List.mem_cons_of_mem _ htaken)

/-- The first `m` versions of a core, those that are reserved left out. -/
def unreserved (reserved : List Text) (stem : Text) (m : Nat) : List Text :=
  ((List.range' 1 m).map (Name.version stem)).filter fun n => !reserved.contains n

theorem mem_unreserved {reserved : List Text} {stem n : Text} {m : Nat} :
    n ∈ unreserved reserved stem m ↔
      (∃ k, 1 ≤ k ∧ k ≤ m ∧ Name.version stem k = n) ∧ n ∉ reserved := by
  unfold unreserved
  rw [List.mem_filter, List.mem_map]
  simp only [List.mem_range'_1, Bool.not_eq_true', List.contains_eq_mem, decide_eq_false_iff_not]
  constructor
  · rintro ⟨⟨k, hk, rfl⟩, hn⟩
    exact ⟨⟨k, hk.1, by omega, rfl⟩, hn⟩
  · rintro ⟨⟨k, hk, hm, rfl⟩, hn⟩
    exact ⟨⟨k, ⟨hk, by omega⟩, rfl⟩, hn⟩

/-- Reserved versions add nothing to the unreserved ones. -/
theorem unreserved_add {reserved : List Text} {stem : Text} {m : Nat} :
    ∀ {i : Nat}, (∀ k, m < k → k ≤ m + i → Name.version stem k ∈ reserved) →
      unreserved reserved stem (m + i) = unreserved reserved stem m
  | 0, _ => rfl
  | i + 1, h => by
    have hlast : Name.version stem (1 + (m + i)) ∈ reserved := h _ (by omega) (by omega)
    rw [← unreserved_add (i := i) fun k hk hki => h k hk (by omega)]
    unfold unreserved
    rw [← Nat.add_assoc, List.range'_concat, List.map_append, List.filter_append]
    simp [hlast]

theorem unreserved_succ {reserved : List Text} {stem : Text} {m : Nat}
    (h : Name.version stem (m + 1) ∉ reserved) :
    unreserved reserved stem (m + 1) =
      unreserved reserved stem m ++ [Name.version stem (m + 1)] := by
  unfold unreserved
  rw [List.range'_concat, List.map_append, List.filter_append]
  simp [Nat.add_comm 1 m, h]

/-- **The names with one core are its unreserved versions in order, none skipped.** -/
theorem handOut_versions (reserved ws : List Text) (stem : Text) :
    ∃ m, (handOut reserved ws).filter (fun n => Name.core n == stem) =
      unreserved reserved stem m := by
  induction ws using List.reverseRecOn with
  | nil => exact ⟨0, rfl⟩
  | append_singleton ws w ih =>
    obtain ⟨m, hm⟩ := ih
    rw [handOut_append, List.filter_append, hm]
    generalize handOut reserved ws = done at hm
    obtain ⟨k, hk, heq, hfree, hleast⟩ := freeVersion_spec (done.reverse ++ reserved) (Name.core w)
    have hcore : Name.core (Name.version (Name.core w) k) = Name.core w := Name.core_version w k
    rw [handOut, handOut, heq]
    by_cases hstem : Name.core w = stem
    · subst hstem
      -- a version with the core that is taken was handed out, or is reserved
      have hdone : ∀ j, 1 ≤ j → Name.version (Name.core w) j ∈ done →
          Name.version (Name.core w) j ∈ unreserved reserved (Name.core w) m := by
        intro j _ hj
        rw [← hm, List.mem_filter, Name.core_version, beq_self_eq_true]
        exact ⟨hj, rfl⟩
      rw [List.mem_append, List.mem_reverse, not_or] at hfree
      have hlt : m < k := by
        by_contra hle
        refine hfree.1 ?_
        have hmem : Name.version (Name.core w) k ∈ unreserved reserved (Name.core w) m :=
          mem_unreserved.mpr ⟨⟨k, hk, by omega, rfl⟩, hfree.2⟩
        rw [← hm] at hmem
        exact (List.mem_filter.mp hmem).1
      have hskipped : ∀ j, m < j → j ≤ m + (k - 1 - m) →
          Name.version (Name.core w) j ∈ reserved := by
        intro j hj hjk
        rcases List.mem_append.mp (hleast j (by omega) (by omega)) with hmem | hmem
        · obtain ⟨⟨i, hi, him, hij⟩, _⟩ :=
            mem_unreserved.mp (hdone j (by omega) (List.mem_reverse.mp hmem))
          have := Name.version_injective hi (by omega) hij
          omega
        · exact hmem
      have hprev := unreserved_add hskipped
      have hpred : m + (k - 1 - m) = k - 1 := by omega
      have hsucc : k - 1 + 1 = k := by omega
      rw [hpred] at hprev
      refine ⟨k, ?_⟩
      rw [← hsucc, unreserved_succ (by rw [hsucc]; exact hfree.2), hprev, hsucc]
      simp [hcore]
    · exact ⟨m, by simp [hcore, hstem]⟩

/-! ## Steps within one scope -/

/-- A step that reads and writes the names of one scope only: what it gives, and the names of the
scope after it, depend on the names of the scope before it, and all else is kept. -/
def Local {α : Type} (s : Scope) (f : Registry → α × Registry) : Prop :=
  ∀ r r' : Registry, r.taken s = r'.taken s →
    (f r).1 = (f r').1 ∧ (f r).2 = r.setTaken ((f r').2.taken s) s

namespace Local

variable {α β : Type} {s : Scope}

theorem pure (a : α) : Local s fun r => (a, r) := by
  intro r r' h
  exact ⟨rfl, by rw [← h, setTaken_taken]⟩

theorem bind {f : Registry → α × Registry} {g : α → Registry → β × Registry}
    (hf : Local s f) (hg : ∀ a, Local s (g a)) : Local s fun r => g (f r).1 (f r).2 := by
  intro r r' h
  obtain ⟨hval, hreg⟩ := hf r r' h
  have htaken : (f r).2.taken s = (f r').2.taken s := by rw [hreg, taken_setTaken]
  obtain ⟨hval', hreg'⟩ := hg (f r).1 (f r).2 (f r').2 htaken
  refine ⟨by rw [hval', hval], ?_⟩
  show (g (f r).1 (f r).2).2 = _
  rw [hreg', hreg, setTaken_setTaken, hval]

theorem map {f : Registry → α × Registry} (g : α → β) (hf : Local s f) :
    Local s fun r => (g (f r).1, (f r).2) :=
  bind hf fun a => pure (g a)

theorem reserve (name : Text) : Local s fun r => ((), r.reserve s name) := by
  intro r r' h
  refine ⟨rfl, ?_⟩
  simp [Registry.reserve, h]

theorem allocate (wanted : Text) : Local s fun r => r.allocate s wanted := by
  intro r r' h
  have hval : (r.allocate s wanted).1 = (r'.allocate s wanted).1 := by
    simp [Registry.allocate, h]
  refine ⟨hval, ?_⟩
  rw [(allocate_spec r s wanted).2.2.2, (allocate_spec r' s wanted).2.2.2, taken_setTaken, hval, h]

/-- What a local step leaves as it was. -/
theorem frame {f : Registry → α × Registry} (hf : Local s f) (r : Registry) :
    (f r).2 = r.setTaken ((f r).2.taken s) s :=
  (hf r r rfl).2

end Local

end ActionLog.Registry
