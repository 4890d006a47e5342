import ActionLog.Proofs.Registry

/-!
# Names over whole runs of a registry

A registry serves requests one after another.  What it has to avoid is said by the history of what
it did, not by what it remembers.

* `Request`, `Deed` — what a registry is asked for, and what it did: it took a name in a scope, or it
  emptied a scope;
* `deeds`, `after` — the deeds of a run of requests, and the registry after it;
* `heldSince`, `inUse` — the names taken in a scope since it was last emptied, and these with the
  reserved words;
* `taken_after` — a registry remembers the names in use and no others;
* `Search` — the search for a free version without a bound; `search_iff` says that it ends, and where;
* `Granted` — what the name given to a wanted text has to satisfy.

Principal result: `allocate_in_every_run`.
-/

set_option autoImplicit false

namespace ActionLog.Registry

/-! ## The search without a bound -/

/-- From version `k` on, one version of a stem after another is tried, and the first that is free is
the result.  Nothing bounds the number of versions tried. -/
inductive Search (names : List Text) (stem : Text) : Nat → Text → Prop
  | found {k : Nat} (hfree : Name.version stem k ∉ names) :
      Search names stem k (Name.version stem k)
  | next {k : Nat} {n : Text} (htaken : Name.version stem k ∈ names)
      (hrest : Search names stem (k + 1) n) : Search names stem k n

namespace Search

variable {names : List Text} {stem : Text}

/-- The search reaches the first free version, however far away that is. -/
theorem of_taken {k : Nat} (hfree : Name.version stem k ∉ names) :
    ∀ {j : Nat}, j ≤ k → (∀ i, j ≤ i → i < k → Name.version stem i ∈ names) →
      Search names stem j (Name.version stem k) := by
  intro j hjk htaken
  induction hd : k - j generalizing j with
  | zero =>
    have hj : j = k := by omega
    subst hj
    exact .found hfree
  | succ d ih =>
    have hlt : j < k := by omega
    refine .next (htaken j (Nat.le_refl j) hlt) ?_
    apply ih hlt
    · intro i hi hik
      exact htaken i (by omega) hik
    · omega

/-- Every step of the search is determined. -/
theorem unique {k : Nat} {m n : Text} (hm : Search names stem k m) (hn : Search names stem k n) :
    m = n := by
  induction hm with
  | found hfree =>
    cases hn with
    | found => rfl
    | next htaken => exact absurd htaken hfree
  | next htaken _ ih =>
    cases hn with
    | found hfree => exact absurd htaken hfree
    | next _ hrest => exact ih hrest

end Search

/-- **The search ends, whatever names are taken**, and it ends at the version found within a bound. -/
theorem search_iff (names : List Text) (stem n : Text) :
    Search names stem 1 n ↔ n = freeVersion names stem := by
  obtain ⟨k, hk, heq, hfree, hleast⟩ := freeVersion_spec names stem
  have hfound : Search names stem 1 (freeVersion names stem) := by
    rw [heq]
    exact Search.of_taken hfree hk hleast
  constructor
  · intro hn
    exact hn.unique hfound
  · rintro rfl
    exact hfound

/-! ## Runs -/

/-- What a registry is asked for. -/
inductive Request where
  | allocate (s : Scope) (wanted : Text)
  | reserve (s : Scope) (name : Text)
  | reset (s : Scope)
  deriving DecidableEq, Repr

/-- What a registry did: it took a name in a scope, or it emptied the scope. -/
inductive Deed where
  | took (s : Scope) (name : Text)
  | emptied (s : Scope)
  deriving DecidableEq, Repr

/-- One request served.  The deed of an allocation holds the name that it returns. -/
def serve (r : Registry) : Request → Deed × Registry
  | .allocate s wanted => (.took s (r.allocate s wanted).1, (r.allocate s wanted).2)
  | .reserve s name => (.took s name, r.reserve s name)
  | .reset s => (.emptied s, r.reset s)

/-- What a registry does when requests are served one after another. -/
def deeds : Registry → List Request → List Deed
  | _, [] => []
  | r, q :: qs => (r.serve q).1 :: deeds (r.serve q).2 qs

/-- The registry after requests were served one after another. -/
def after (r : Registry) (requests : List Request) : Registry :=
  requests.foldl (fun r q => (r.serve q).2) r

/-- The names taken in a scope, latest first, after one more deed. -/
def heldAfter (s : Scope) (held : List Text) : Deed → List Text
  | .took t name => if t = s then name :: held else held
  | .emptied t => if t = s then [] else held

/-- The names taken in a scope since it was last emptied, latest first. -/
def heldSince (s : Scope) (past : List Deed) : List Text := past.foldl (heldAfter s) []

/-- The names in use in a scope: those taken since it was last emptied, and the reserved words. -/
def inUse (reserved : List Text) (s : Scope) (past : List Deed) : List Text :=
  heldSince s past ++ reserved

theorem deeds_append (r : Registry) (qs qs' : List Request) :
    r.deeds (qs ++ qs') = r.deeds qs ++ (r.after qs).deeds qs' := by
  induction qs generalizing r with
  | nil => rfl
  | cons q qs ih =>
    rw [List.cons_append, deeds, ih]
    rfl

theorem after_append (r : Registry) (qs qs' : List Request) :
    r.after (qs ++ qs') = (r.after qs).after qs' := by
  simp only [after, List.foldl_append]

/-! ## What a registry remembers -/

/-- A request changes the names of its own scope only, as the deed says. -/
theorem taken_serve (r : Registry) (q : Request) (s : Scope) {held : List Text}
    (h : r.taken s = held ++ r.reserved) :
    (r.serve q).2.taken s = heldAfter s held (r.serve q).1 ++ r.reserved ∧
      (r.serve q).2.reserved = r.reserved := by
  have hset : ∀ (t : Scope) (names : List Text), (r.setTaken names t).taken s =
      if t = s then names else r.taken s := by
    intro t names
    by_cases hts : t = s
    · subst hts
      rw [taken_setTaken, if_pos rfl]
    · rw [taken_setTaken_of_ne _ _ (Ne.symm hts), if_neg hts]
  cases q with
  | allocate t wanted | reserve t name =>
    simp only [serve, allocate, reserve, heldAfter, hset, reserved_setTaken, and_true]
    split
    · rename_i hts
      subst hts
      rw [h, List.cons_append]
    · exact h
  | reset t =>
    simp only [serve, reset, heldAfter, hset, reserved_setTaken, and_true]
    split
    · rfl
    · exact h

/-- A run keeps what a registry remembers in step with its deeds. -/
theorem taken_after_from (requests : List Request) (s : Scope) :
    ∀ (r : Registry) (held : List Text), r.taken s = held ++ r.reserved →
      (r.after requests).taken s = (r.deeds requests).foldl (heldAfter s) held ++ r.reserved := by
  induction requests with
  | nil =>
    intro r held h
    exact h
  | cons q qs ih =>
    intro r held h
    obtain ⟨htaken, hreserved⟩ := taken_serve r q s h
    rw [← hreserved] at htaken ⊢
    exact ih (r.serve q).2 _ htaken

/-- **After every run, the names taken in a scope are the names in use there.** -/
theorem taken_after (reserved : List Text) (requests : List Request) (s : Scope) :
    ((ofReserved reserved).after requests).taken s =
      inUse reserved s ((ofReserved reserved).deeds requests) := by
  have hstart : (ofReserved reserved).taken s = [] ++ (ofReserved reserved).reserved := by
    cases s <;> rfl
  exact taken_after_from requests s (ofReserved reserved) [] hstart

/-! ## Names given -/

/-- The name that a wanted text has to be given in a scope, when some deeds have been done. -/
structure Granted (reserved : List Text) (past : List Deed) (s : Scope) (wanted name : Text) :
    Prop where
  /-- The search among the names in use ends, and it ends at this name. -/
  ends : ∀ n, Search (inUse reserved s past) (Name.core wanted) 1 n ↔ n = name
  identifier : Name.IsIdentifier name
  unreserved : name ∉ reserved
  unheld : name ∉ heldSince s past
  core : Name.core name = Name.core wanted
  /-- The core itself comes first. -/
  plain : Name.core wanted ∉ inUse reserved s past → name = Name.core wanted
  /-- Otherwise the least number from two on is put behind it. -/
  numbered : Name.core wanted ∈ inUse reserved s past →
    ∃ k, 2 ≤ k ∧ name = Name.core wanted ++ Text.decimal k ∧
      ∀ j, 2 ≤ j → j < k → Name.core wanted ++ Text.decimal j ∈ inUse reserved s past

theorem version_one (stem : Text) : Name.version stem 1 = stem := rfl

theorem version_of_two_le (stem : Text) {k : Nat} (hk : 2 ≤ k) :
    Name.version stem k = stem ++ Text.decimal k := by
  unfold Name.version
  rw [if_neg (by omega)]

/-- A free version is what the history asks for. -/
theorem granted_freeVersion (reserved : List Text) (past : List Deed) (s : Scope) (wanted : Text) :
    Granted reserved past s wanted (freeVersion (inUse reserved s past) (Name.core wanted)) := by
  obtain ⟨k, hk, heq, hfree, hleast⟩ :=
    freeVersion_spec (inUse reserved s past) (Name.core wanted)
  have hends := search_iff (inUse reserved s past) (Name.core wanted)
  rw [heq] at hends ⊢
  have hapart : Name.version (Name.core wanted) k ∉ heldSince s past ∧
      Name.version (Name.core wanted) k ∉ reserved := by
    unfold inUse at hfree
    rwa [List.mem_append, not_or] at hfree
  refine ⟨hends, Name.version_isIdentifier (Name.core_isIdentifier wanted) k, hapart.2, hapart.1,
    Name.core_version wanted k, ?_, ?_⟩
  · intro hcore
    have hone : k = 1 := by
      by_contra hne
      have hmem := hleast 1 (Nat.le_refl 1) (by omega)
      rw [version_one] at hmem
      exact hcore hmem
    rw [hone, version_one]
  · intro hcore
    have htwo : 2 ≤ k := by
      by_contra hlt
      have hone : k = 1 := by omega
      rw [hone, version_one] at hfree
      exact hfree hcore
    refine ⟨k, htwo, version_of_two_le _ htwo, ?_⟩
    intro j hj hjk
    rw [← version_of_two_le _ hj]
    exact hleast j (by omega) hjk

/-- **Every name that is allocated in a run is the one that the history asks for.**  Whatever words
are reserved and whatever requests came before, in whichever scopes, the search for a name ends.  The
name is an identifier with the core of what was wanted, it is not reserved, and no deed took it in
the scope since that was last emptied.  It is the core if that is not in use, and else the core with
the least number from two on that makes it unused.  All other scopes stay as they were. -/
theorem allocate_in_every_run (reserved : List Text) (before later : List Request) (s : Scope)
    (wanted : Text) :
    ∃ name rest, (ofReserved reserved).deeds (before ++ .allocate s wanted :: later) =
        (ofReserved reserved).deeds before ++ .took s name :: rest ∧
      Granted reserved ((ofReserved reserved).deeds before) s wanted name ∧
      ∀ t, t ≠ s → ((ofReserved reserved).after (before ++ [.allocate s wanted])).taken t =
        ((ofReserved reserved).after before).taken t := by
  have hname : (((ofReserved reserved).after before).allocate s wanted).1 = freeVersion
      (inUse reserved s ((ofReserved reserved).deeds before)) (Name.core wanted) := by
    rw [← taken_after]
    rfl
  refine ⟨(((ofReserved reserved).after before).allocate s wanted).1, _,
    deeds_append _ before (.allocate s wanted :: later), ?_, ?_⟩
  · rw [hname]
    exact granted_freeVersion reserved _ s wanted
  · intro t ht
    rw [after_append]
    show (((ofReserved reserved).after before).allocate s wanted).2.taken t = _
    rw [(allocate_spec _ s wanted).2.2.2, taken_setTaken_of_ne _ _ ht]

/-- A reserved word, a name that was reserved as it stands and the names of another scope: only the
first two count. -/
example : (ofReserved [utf8 "list"]).deeds
    [.allocate .vars (utf8 "list9"), .reserve .vars (utf8 "list3"), .allocate .functions (utf8 "42"),
     .allocate .vars (utf8 "list"), .reset .vars, .allocate .vars (utf8 "list")] =
    [.took .vars (utf8 "list2"), .took .vars (utf8 "list3"), .took .functions (utf8 "xxx"),
     .took .vars (utf8 "list4"), .emptied .vars, .took .vars (utf8 "list2")] := by
  decide +kernel

end ActionLog.Registry
