import ActionLog.Pass.Shorten
import ActionLog.Proofs.Use

/-!
# Searches on both sides of a byte

A pattern that never reaches over a byte finds on either side of it what it finds there alone.

* `decode?_lead`, `decode?_append` — a byte that continues no character, and so a byte of the basic
  alphabet, ends what stands before it;
* `Pattern.StopsAt` — patterns that never reach over a byte;
* `wordPattern_stopsAt`, `nameRun_stopsAt`, `longName_stopsAt` — the patterns of words, of
  identifiers and of long methods are such;
* `replaceAll_cut` — the same for a fixed text that is replaced;
* `findAllFrom_grain`, `replaceHitsFrom_grain` — a pattern of the basic alphabet is found alike at
  every byte and at the start of every character;
* `shorten_eq`, `shorten_aborted` — long methods that can be searched for, and those that cannot.

Principal results: `findAllFrom_cut` and `replaceHits_cut` — searches and replacements are made on
both sides by themselves.
-/

set_option autoImplicit false

namespace ActionLog.Text

/-! ## Characters before a byte -/

/-- Bytes of the basic alphabet, which are characters by themselves. -/
def IsBasic (q : UInt8) : Prop := q.toNat < 128

instance (q : UInt8) : Decidable (IsBasic q) := inferInstanceAs (Decidable (_ < _))

variable {q : UInt8}

theorem IsBasic.not_tail (hq : IsBasic q) : Utf8.isTail q = false := by
  by_contra h
  have := isTail_le (b := q) (by simpa using h)
  exact absurd hq (by unfold IsBasic; omega)

/-- **A byte that continues no character ends what stands before it.** -/
theorem decode?_lead (hq : Utf8.isTail q = false) (b : UInt8) (x s : Text) :
    Utf8.decode? (b :: (x ++ q :: s)) = Utf8.decode? (b :: x) := by
  have hthree : Utf8.leadsThree b q = false := by
    by_contra h
    rw [isTail_of_leadsThree (by simpa using h)] at hq
    cases hq
  have hfour : Utf8.leadsFour b q = false := by
    by_contra h
    rw [isTail_of_leadsFour (by simpa using h)] at hq
    cases hq
  rcases x with _ | ⟨c, _ | ⟨d, _ | ⟨e, x⟩⟩⟩
  · rcases s with _ | ⟨_, _ | ⟨_, _⟩⟩
    · simp [Utf8.decode?, hq]
    · simp [Utf8.decode?, hq, hthree]
    · simp [Utf8.decode?, hq, hthree, hfour]
  · rcases s with _ | ⟨_, _⟩
    · simp [Utf8.decode?, hq]
    · simp [Utf8.decode?, hq]
  · simp [Utf8.decode?, hq]
  · simp [Utf8.decode?]

theorem decode?_append (hq : IsBasic q) (b : UInt8) (x s : Text) :
    Utf8.decode? (b :: (x ++ q :: s)) = Utf8.decode? (b :: x) :=
  decode?_lead hq.not_tail b x s

theorem decode?_basic (hq : IsBasic q) (s : Text) : Utf8.decode? (q :: s) = some (q.toNat, 1) := by
  have hlow : q < 0x80 := hq
  match s with
  | [] => simp [Utf8.decode?, hlow]
  | [_] => simp [Utf8.decode?, hlow]
  | [_, _] => simp [Utf8.decode?, hlow]
  | _ :: _ :: _ :: _ => simp [Utf8.decode?, hlow]

/-- What stands at the start of a text is a part of it. -/
theorem width_le (b : UInt8) (x : Text) : Utf8.width (b :: x) ≤ (b :: x).length := by
  unfold Utf8.width
  match x with
  | [] => simp only [Utf8.decode?]; split_ifs <;> simp
  | [_] => simp only [Utf8.decode?]; split_ifs <;> simp
  | [_, _] => simp only [Utf8.decode?]; split_ifs <;> simp
  | _ :: _ :: _ :: _ => simp only [Utf8.decode?]; split_ifs <;> simp

namespace Grain

theorem width_append (g : Grain) (hq : IsBasic q) (b : UInt8) (x s : Text) :
    g.width (b :: (x ++ q :: s)) = g.width (b :: x) := by
  cases g with
  | byte => rfl
  | char => simp only [width, Utf8.width, decode?_append hq]

theorem width_basic (g : Grain) (hq : IsBasic q) (s : Text) : g.width (q :: s) = 1 := by
  cases g with
  | byte => rfl
  | char => simp only [width, Utf8.width, decode?_basic hq, Option.map_some, Option.getD_some]

theorem width_le (g : Grain) (b : UInt8) (x : Text) : g.width (b :: x) - 1 ≤ x.length := by
  cases g with
  | byte => simp [width]
  | char =>
    have := Text.width_le b x
    simp only [width, List.length_cons] at this ⊢
    omega

end Grain

/-! ## Patterns that stop -/

/-- The pattern takes no more than there is, does not look over the byte `q`, and finds behind it
what it finds at the start of a text. -/
structure Pattern.StopsAt {α : Type} (p : Pattern α) (q : UInt8) : Prop where
  nil : ∀ before, p before [] = none
  cut : ∀ before x s, p before (x ++ q :: s) = p before x
  fits : ∀ {before x n a}, p before x = some (n, a) → n ≤ x.length
  behind : ∀ s, p (some q) s = p none s

theorem Pattern.StopsAt.map {α β : Type} {p : Pattern α} (hp : p.StopsAt q) (f : α → β) :
    Pattern.StopsAt (fun before rest => (p before rest).map fun (n, a) => (n, f a)) q where
  nil before := by rw [hp.nil, Option.map_none]
  cut before x s := by rw [hp.cut]
  fits h := by
    obtain ⟨⟨n, a⟩, ha, heq⟩ := Option.map_eq_some_iff.mp h
    obtain ⟨rfl, _⟩ := Prod.mk.inj heq
    exact hp.fits ha
  behind s := by rw [hp.behind]

/-- What a search finds does not depend on the number that its first place has. -/
theorem values_findAllFrom {α : Type} (g : Grain) {p : Pattern α} {before before' : Option UInt8}
    (hp : ∀ s, p before s = p before' s) (s : Text) (pos pos' skip : Nat) :
    (findAllFrom g p pos before skip s).map (·.value) =
      (findAllFrom g p pos' before' skip s).map (·.value) := by
  induction s generalizing pos pos' before before' skip with
  | nil => rfl
  | cons b s ih =>
    cases skip with
    | succ skip =>
      simp only [findAllFrom]
      exact ih (fun _ => rfl) _ _ _
    | zero =>
      simp only [findAllFrom]
      rw [hp]
      cases p before' (b :: s) with
      | none => exact ih (fun _ => rfl) _ _ _
      | some x =>
        dsimp only
        rw [List.map_cons, List.map_cons, ih (fun _ => rfl)]

/-- **A search goes on by itself behind a byte that it stops at.** -/
theorem findAllFrom_cut {α : Type} (g : Grain) {p : Pattern α} (hq : IsBasic q) (hp : p.StopsAt q)
    (x s : Text) : ∀ pos before skip, skip ≤ x.length →
      findAllFrom g p pos before skip (x ++ q :: s) =
        findAllFrom g p pos before skip x ++ findAllFrom g p (pos + x.length + 1) (some q) 0 s := by
  induction x with
  | nil =>
    intro pos before skip hskip
    obtain rfl : skip = 0 := Nat.le_zero.mp hskip
    -- nothing is found at the byte itself
    have hnone : p before (q :: s) = none := by rw [← hp.nil before, ← hp.cut before [] s]; rfl
    simp [findAllFrom, hnone, g.width_basic hq]
  | cons b x ih =>
    intro pos before skip hskip
    have hpos : pos + (b :: x).length + 1 = pos + 1 + x.length + 1 := by
      rw [List.length_cons]
      omega
    rw [hpos, List.cons_append]
    cases skip with
    | succ skip =>
      simp only [findAllFrom]
      exact ih _ _ _ (Nat.le_of_succ_le_succ hskip)
    | zero =>
      have hcut : p before (b :: (x ++ q :: s)) = p before (b :: x) := hp.cut before (b :: x) s
      simp only [findAllFrom]
      rw [hcut, g.width_append hq]
      cases hx : p before (b :: x) with
      | none => exact ih _ _ _ (g.width_le b x)
      | some y =>
        obtain ⟨n, a⟩ := y
        have hn := hp.fits hx
        dsimp only
        rw [ih _ _ _ (by rw [List.length_cons] at hn; omega), List.cons_append]

/-- A match on either side of a byte is one of the whole. -/
theorem find?_cut {α : Type} (g : Grain) {p : Pattern α} (hq : IsBasic q) (hp : p.StopsAt q)
    {x s : Text} : find? g p (x ++ q :: s) = none ↔ find? g p x = none ∧ find? g p s = none := by
  unfold find? findAll
  rw [findAllFrom_cut g hq hp x s 0 none 0 (Nat.zero_le _), List.head?_eq_none_iff,
    List.append_eq_nil_iff, List.head?_eq_none_iff, List.head?_eq_none_iff]
  rw [← List.map_eq_nil_iff (l := findAllFrom g p _ (some q) 0 s),
    values_findAllFrom g hp.behind s _ 0 0, List.map_eq_nil_iff]

theorem replaceHitsFrom_behind (g : Grain) {p : Pattern Text} (hp : p.StopsAt q) (s : Text) :
    replaceHitsFrom g p (some q) 0 s = replaceHits g p s := by
  unfold replaceHits
  cases s with
  | nil => rfl
  | cons b s => simp only [replaceHitsFrom, hp.behind]

theorem replaceHitsFrom_cut (g : Grain) {p : Pattern Text} (hq : IsBasic q) (hp : p.StopsAt q)
    (x s : Text) : ∀ before skip, skip ≤ x.length →
      replaceHitsFrom g p before skip (x ++ q :: s) =
        replaceHitsFrom g p before skip x ++ q :: replaceHits g p s := by
  induction x with
  | nil =>
    intro before skip hskip
    obtain rfl : skip = 0 := Nat.le_zero.mp hskip
    have hnone : p before (q :: s) = none := by rw [← hp.nil before, ← hp.cut before [] s]; rfl
    simp [replaceHitsFrom, hnone, g.width_basic hq, replaceHitsFrom_behind g hp]
  | cons b x ih =>
    intro before skip hskip
    rw [List.cons_append]
    cases skip with
    | succ skip =>
      simp only [replaceHitsFrom]
      exact ih _ _ (Nat.le_of_succ_le_succ hskip)
    | zero =>
      have hcut : p before (b :: (x ++ q :: s)) = p before (b :: x) := hp.cut before (b :: x) s
      simp only [replaceHitsFrom]
      rw [hcut, g.width_append hq]
      cases hx : p before (b :: x) with
      | none =>
        have hwidth := g.width_le b x
        dsimp only
        rw [ih _ _ hwidth, List.take_append_of_le_length hwidth, ← List.append_assoc]
      | some y =>
        obtain ⟨n, new⟩ := y
        have hn := hp.fits hx
        dsimp only
        rw [ih _ _ (by rw [List.length_cons] at hn; omega), List.append_assoc]

/-- **A text is rewritten by itself on both sides of a byte that the pattern stops at.** -/
theorem replaceHits_cut (g : Grain) {p : Pattern Text} (hq : IsBasic q) (hp : p.StopsAt q)
    (x s : Text) :
    replaceHits g p (x ++ q :: s) = replaceHits g p x ++ q :: replaceHits g p s :=
  replaceHitsFrom_cut g hq hp x s none 0 (Nat.zero_le _)

/-! ## What is replaced -/

/-- Only bytes of the text and of what is put in are in the changed text. -/
theorem mem_replaceHitsFrom {g : Grain} {p : Pattern Text} {b : UInt8} {s : Text} :
    ∀ {before : Option UInt8} {skip : Nat}, b ∈ replaceHitsFrom g p before skip s →
      b ∈ s ∨ ∃ before rest n new, p before rest = some (n, new) ∧ b ∈ new := by
  induction s with
  | nil =>
    intro before skip h
    simp [replaceHitsFrom] at h
  | cons c s ih =>
    intro before skip h
    cases skip with
    | succ skip => exact (ih h).imp_left (List.mem_cons_of_mem _)
    | zero =>
      unfold replaceHitsFrom at h
      split at h
      · rename_i n new hx
        rcases List.mem_append.mp h with h | h
        · exact .inr ⟨before, c :: s, n, new, hx, h⟩
        · exact (ih h).imp_left (List.mem_cons_of_mem _)
      · rcases List.mem_append.mp h with h | h
        · rcases List.mem_cons.mp h with rfl | h
          · exact .inl List.mem_cons_self
          · exact .inl (List.mem_cons_of_mem _ (List.mem_of_mem_take h))
        · exact (ih h).imp_left (List.mem_cons_of_mem _)

/-- Where nothing is found, nothing is replaced. -/
theorem replaceHitsFrom_of_not_found {α : Type} (g : Grain) (p : Pattern α) (new : Text) (s : Text) :
    ∀ (pos : Nat) (before : Option UInt8) (skip : Nat), findAllFrom g p pos before skip s = [] →
      replaceHitsFrom g (fun before rest => (p before rest).map fun (n, _) => (n, new)) before skip
        s = s.drop skip := by
  induction s with
  | nil =>
    intro pos before skip _
    simp [replaceHitsFrom]
  | cons b s ih =>
    intro pos before skip h
    cases skip with
    | succ skip => exact ih _ _ _ h
    | zero =>
      unfold findAllFrom at h
      split at h
      · cases h
      · rename_i hx
        simp only [replaceHitsFrom, hx, Option.map_none]
        rw [ih _ _ _ h, List.cons_append, List.take_append_drop, List.drop_zero]

theorem replaceHits_of_not_found {α : Type} {g : Grain} {p : Pattern α} (new : Text) {s : Text}
    (h : find? g p s = none) :
    replaceHits g (fun before rest => (p before rest).map fun (n, _) => (n, new)) s = s :=
  replaceHitsFrom_of_not_found g p new s 0 none 0 (List.head?_eq_none_iff.mp h)

/-! ## Bytes and characters as places -/

/-- The pattern matches at bytes of the basic alphabet only. -/
def Pattern.Basic {α : Type} (p : Pattern α) : Prop :=
  ∀ before b s, 128 ≤ b.toNat → p before (b :: s) = none

theorem findAllFrom_tail {α : Type} {p : Pattern α} (hp : p.Basic) (s : Text) :
    ∀ (pos : Nat) (before : Option UInt8) (k : Nat), (∀ c ∈ s.take k, 128 ≤ c.toNat) →
      findAllFrom .byte p pos before k s = findAllFrom .byte p pos before 0 s := by
  induction s with
  | nil =>
    intro pos before k _
    cases k <;> rfl
  | cons b s ih =>
    intro pos before k hk
    cases k with
    | zero => rfl
    | succ k =>
      rw [List.take_succ_cons, List.forall_mem_cons] at hk
      have hrest := ih (pos + 1) (some b) k hk.2
      rw [findAllFrom, findAllFrom, hp before b s hk.1, hrest]
      rfl

/-- Such a pattern is found alike at every byte and at the start of every character. -/
theorem findAllFrom_grain {α : Type} {p : Pattern α} (hp : p.Basic) (s : Text) :
    ∀ (pos : Nat) (before : Option UInt8) (skip : Nat),
      findAllFrom .char p pos before skip s = findAllFrom .byte p pos before skip s := by
  induction s with
  | nil =>
    intro pos before skip
    cases skip <;> rfl
  | cons b s ih =>
    intro pos before skip
    cases skip with
    | succ skip => exact ih (pos + 1) (some b) skip
    | zero =>
      rw [findAllFrom, findAllFrom]
      cases p before (b :: s) with
      | some x =>
        obtain ⟨n, a⟩ := x
        simp only [ih]
      | none =>
        show findAllFrom .char p (pos + 1) (some b) (Utf8.width (b :: s) - 1) s = _
        rw [ih, findAllFrom_tail hp s _ _ _ (width_tail b s)]
        rfl

theorem replaceHitsFrom_tail {p : Pattern Text} (hp : p.Basic) (s : Text) :
    ∀ (before : Option UInt8) (k : Nat), (∀ c ∈ s.take k, 128 ≤ c.toNat) →
      s.take k ++ replaceHitsFrom .byte p before k s = replaceHitsFrom .byte p before 0 s := by
  induction s with
  | nil =>
    intro before k _
    cases k <;> rfl
  | cons b s ih =>
    intro before k hk
    cases k with
    | zero => rfl
    | succ k =>
      rw [List.take_succ_cons, List.forall_mem_cons] at hk
      have hrest := ih (some b) k hk.2
      rw [List.take_succ_cons, replaceHitsFrom, replaceHitsFrom, hp before b s hk.1,
        List.cons_append, hrest]
      rfl

theorem replaceHitsFrom_grain {p : Pattern Text} (hp : p.Basic) (s : Text) :
    ∀ (before : Option UInt8) (skip : Nat),
      replaceHitsFrom .char p before skip s = replaceHitsFrom .byte p before skip s := by
  induction s with
  | nil =>
    intro before skip
    cases skip <;> rfl
  | cons b s ih =>
    intro before skip
    cases skip with
    | succ skip => exact ih (some b) skip
    | zero =>
      rw [replaceHitsFrom, replaceHitsFrom]
      cases p before (b :: s) with
      | some x =>
        obtain ⟨n, new⟩ := x
        simp only [ih]
      | none =>
        have hrest := replaceHitsFrom_tail hp s (some b) _ (width_tail b s)
        rw [← ih] at hrest
        exact congrArg (b :: ·) hrest

/-! ## Words, identifiers and long methods -/

/-- A fixed text at the start is looked for before the byte only, if it does not hold the byte. -/
theorem isPrefixOf?_cut {w : Text} (hw : q ∉ w) (x s : Text) :
    w.isPrefixOf? (x ++ q :: s) = (w.isPrefixOf? x).map (· ++ q :: s) := by
  induction w generalizing x with
  | nil => simp [List.isPrefixOf?]
  | cons a w ih =>
    rw [List.mem_cons, not_or] at hw
    cases x with
    | nil => simp [List.isPrefixOf?, Ne.symm hw.1]
    | cons b x =>
      simp only [List.cons_append, List.isPrefixOf?]
      split
      · exact ih hw.2 x
      · rfl

theorem any_head?_append {f : UInt8 → Bool} (hf : f q = false) (x s : Text) :
    (x ++ q :: s).head?.any f = x.head?.any f := by
  cases x with
  | nil => simpa using hf
  | cons b x => rfl

theorem wordPattern_stopsAt (hq : Byte.isName q = false) {w : Text} (hw : q ∉ w) :
    (wordPattern w).StopsAt q where
  nil before := by cases w <;> rfl
  cut before x s := by
    unfold wordPattern
    rw [isPrefixOf?_cut hw]
    cases w.isPrefixOf? x with
    | none => rfl
    | some tail => simp only [Option.map_some, any_head?_append hq]
  fits h := by
    obtain ⟨_, hx, tail, rfl, _⟩ := wordPattern_eq_some h
    obtain ⟨rfl, _⟩ := Prod.mk.inj hx
    simp
  behind s := by simp [wordPattern, hq]

theorem nameRun_stopsAt (hq : Byte.isName q = false) : nameRun.StopsAt q where
  nil _ := rfl
  cut before x s := by
    have htake : (x ++ q :: s).takeWhile Byte.isName = x.takeWhile Byte.isName := by
      rw [List.takeWhile_append, List.takeWhile_cons, hq]
      split
      · rename_i hall
        rw [(List.takeWhile_prefix Byte.isName).eq_of_length hall]
        simp
      · rfl
    simp only [nameRun, htake]
  fits {before x n a} h := by
    have hlen := (List.takeWhile_prefix Byte.isName (l := x)).length_le
    unfold nameRun at h
    split at h
    · cases h
    · rename_i hrun
      obtain ⟨rfl, _⟩ := Prod.mk.inj (Option.some.inj h)
      exact hlen
  behind _ := rfl

/-- Before a byte of the basic alphabet no replacement character is left unfinished. -/
theorem not_replacement_append (hq : IsBasic q) {b : UInt8} {x : Text}
    (h : ∀ x', b = 0xEF → x = 0xBF :: 0xBD :: x' → False) (s : Text) :
    ∀ x', b = 0xEF → x ++ q :: s = 0xBF :: 0xBD :: x' → False := by
  intro x' hb hx
  match x with
  | [] =>
    obtain ⟨rfl, _⟩ := List.cons.inj hx
    exact absurd hq (by decide)
  | [c] =>
    simp only [List.cons_append, List.nil_append, List.cons.injEq] at hx
    obtain ⟨_, rfl, _⟩ := hx
    exact absurd hq (by decide)
  | c :: d :: x =>
    simp only [List.cons_append, List.cons.injEq] at hx
    obtain ⟨rfl, rfl, _⟩ := hx
    exact h x hb rfl

theorem literal?_cut (hq : IsBasic q) {pat : Text} (hpat : q ∉ pat) (x s : Text) :
    literal? pat (x ++ q :: s) = literal? pat x := by
  -- along the comparison; stray bytes before `q` stay stray, since `q` continues no character
  fun_induction literal? pat x with
  | case1 => simp [literal?]
  | case2 pat x ih => simp_all [literal?]
  | case3 pat b x hmark hstray ih =>
    rw [List.cons_append, literal?, decode?_append hq, if_pos hstray, ih (by simp_all)]
    exact not_replacement_append hq hmark s
  | case4 pat b x hmark hstray =>
    rw [List.cons_append, literal?, decode?_append hq, if_neg hstray]
    exact not_replacement_append hq hmark s
  | case5 pat =>
    rw [List.nil_append, literal?, decode?_basic hq]
    · rfl
    · rintro x' rfl
      exact absurd hq (by decide)
  | case6 a pat b x hmark hab ih =>
    rw [List.mem_cons, not_or] at hpat
    rw [List.cons_append, literal?, if_pos hab, ih hpat.2]
    exact hmark
  | case7 a pat b x hmark hab =>
    rw [List.cons_append, literal?, if_neg hab]
    exact hmark
  | case8 a pat hmark =>
    rw [List.mem_cons, not_or] at hpat
    rw [List.nil_append, literal?, if_neg (by simpa using Ne.symm hpat.1)]
    exact hmark

theorem literal?_le {pat x : Text} {n : Nat} (h : literal? pat x = some n) : n ≤ x.length := by
  fun_induction literal? pat x generalizing n with
  | case1 =>
    cases h
    exact Nat.zero_le _
  | case2 pat x ih =>
    obtain ⟨k, hk, rfl⟩ := Option.map_eq_some_iff.mp h
    exact Nat.add_le_add_right (ih hk) 3
  | case3 pat b x _ _ ih =>
    obtain ⟨k, hk, rfl⟩ := Option.map_eq_some_iff.mp h
    exact Nat.add_le_add_right (ih hk) 1
  | case6 a pat b x _ _ ih =>
    obtain ⟨k, hk, rfl⟩ := Option.map_eq_some_iff.mp h
    exact Nat.add_le_add_right (ih hk) 1
  | case4 | case5 | case7 | case8 => cases h

theorem literal?_nil {pat : Text} (hne : pat ≠ []) : literal? pat [] = none := by
  unfold literal?
  split <;> simp_all

/-! ## Fixed texts -/

theorem isPrefixOf_cut {w : Text} (hw : q ∉ w) (x s : Text) :
    w.isPrefixOf (x ++ q :: s) = w.isPrefixOf x := by
  rw [← List.isSome_isPrefixOf?_eq_isPrefixOf, isPrefixOf?_cut hw, Option.isSome_map,
    List.isSome_isPrefixOf?_eq_isPrefixOf]

/-- The first occurrence of a text that does not hold the byte, on one of its sides. -/
theorem cut_cut {pat : Text} (hne : pat ≠ []) (hpat : q ∉ pat) (x s : Text) :
    cut pat (x ++ q :: s) = match cut pat x with
      | some (l, r) => some (l, r ++ q :: s)
      | none => (cut pat s).map fun (l, r) => (x ++ q :: l, r) := by
  induction x with
  | nil =>
    have hnot : pat.isPrefixOf (q :: s) = false := by
      rw [← List.nil_append (q :: s), isPrefixOf_cut hpat]
      cases pat with
      | nil => exact absurd rfl hne
      | cons a pat => rfl
    simp [cut, hnot, hne]
  | cons b x ih =>
    have hstart : pat.isPrefixOf (b :: (x ++ q :: s)) = pat.isPrefixOf (b :: x) :=
      isPrefixOf_cut hpat (b :: x) s
    rw [List.cons_append]
    simp only [cut]
    rw [hstart]
    by_cases hp : pat.isPrefixOf (b :: x) = true
    · have hle := (List.isPrefixOf_iff_prefix.mp hp).length_le
      have hdrop : (b :: (x ++ q :: s)).drop pat.length =
          (b :: x).drop pat.length ++ q :: s := List.drop_append_of_le_length hle
      simp only [hp, if_true, hdrop]
    · simp only [hp, ih]
      cases cut pat x <;> cases cut pat s <;> rfl

theorem replaceAll_eq {old : Text} (hne : old ≠ []) (new s : Text) :
    replaceAll old new s = match cut old s with
      | some (l, r) => l ++ new ++ replaceAll old new r
      | none => s := by
  unfold replaceAll
  rw [splitOn, dif_neg hne]
  split
  · rename_i hcut
    simp [hcut, join, List.intercalate]
  · rename_i l r hcut
    simp only [hcut, join]
    have hrest : splitOn old r ≠ [] := by
      rw [splitOn, dif_neg hne]
      split <;> simp
    obtain ⟨t, ts, ht⟩ := List.exists_cons_of_ne_nil hrest
    simp [ht, List.intercalate]

/-- Induction along the occurrences of a fixed text. -/
theorem cut_induction {old : Text} (hne : old ≠ []) {motive : Text → Prop}
    (last : ∀ s, cut old s = none → motive s)
    (next : ∀ s l r, cut old s = some (l, r) → motive r → motive s) : ∀ s, motive s
  | s => by
    cases hcut : cut old s with
    | none => exact last s hcut
    | some lr =>
      obtain ⟨l, r⟩ := lr
      have hlen : r.length < s.length := by
        have hpos := List.length_pos_iff.mpr hne
        rw [cut_eq_some hcut]
        simp only [List.length_append]
        omega
      exact next s l r hcut (cut_induction hne last next r)
termination_by s => s.length
decreasing_by exact hlen

/-- **Occurrences are replaced on both sides of a byte that the text does not hold.** -/
theorem replaceAll_cut {old : Text} (hne : old ≠ []) (hold : q ∉ old) (new x s : Text) :
    replaceAll old new (x ++ q :: s) = replaceAll old new x ++ q :: replaceAll old new s := by
  induction x using cut_induction hne with
  | last x hx =>
    rw [replaceAll_eq hne, replaceAll_eq hne new x, replaceAll_eq hne new s, cut_cut hne hold, hx]
    cases cut old s with
    | none => rfl
    | some lr => simp
  | next x l r hx ih =>
    rw [replaceAll_eq hne, replaceAll_eq hne new x, cut_cut hne hold, hx]
    simp only [ih, List.append_assoc]

theorem mem_replaceAll {old : Text} (hne : old ≠ []) {new s : Text} {b : UInt8}
    (hb : b ∈ replaceAll old new s) : b ∈ s ∨ b ∈ new := by
  induction s using cut_induction hne with
  | last s hs =>
    rw [replaceAll_eq hne, hs] at hb
    exact .inl hb
  | next s l r hs ih =>
    rw [replaceAll_eq hne, hs] at hb
    rw [cut_eq_some hs]
    simp only [List.mem_append] at hb ⊢
    rcases hb with (hb | hb) | hb
    · exact .inl (.inl (.inl hb))
    · exact .inr hb
    · rcases ih hb with hb | hb
      · exact .inl (.inr hb)
      · exact .inr hb

/-- A text without one of the bytes of a fixed text has no occurrences of it. -/
theorem replaceAll_of_not_mem {old : Text} {b : UInt8} (hb : b ∈ old) (new : Text) {s : Text}
    (hs : b ∉ s) : replaceAll old new s = s := by
  have hne := List.ne_nil_of_mem hb
  rw [replaceAll_eq hne]
  cases hcut : cut old s with
  | none => rfl
  | some lr =>
    rw [cut_eq_some hcut] at hs
    exact absurd (by simp [hb]) hs

end ActionLog.Text

namespace ActionLog.Pass

open Text (IsBasic literal?_cut literal?_le literal?_nil isBoundary)

variable {q : UInt8} {name : Text}

theorem isWord_of_not_isName (hq : Byte.isName q = false) : Byte.isWord q = false := by
  rw [Byte.isName, Bool.or_eq_false_iff] at hq
  exact hq.1

theorem bounded?_nil (hne : name ≠ []) (before : Option UInt8) :
    bounded? name before [] = none := by
  simp [bounded?, literal?_nil hne]

theorem bounded?_cut (hq : IsBasic q) (hword : Byte.isName q = false) (hname : q ∉ name)
    (before : Option UInt8) (x s : Text) :
    bounded? name before (x ++ q :: s) = bounded? name before x := by
  unfold bounded?
  rw [literal?_cut hq hname]
  cases hn : Text.literal? name x with
  | none => rfl
  | some n =>
    have hle := literal?_le hn
    have hw := isWord_of_not_isName hword
    simp only [Option.bind_eq_bind, Option.bind_some, isBoundary, Text.any_head?_append hw,
      List.take_append_of_le_length hle, List.drop_append_of_le_length hle]
    rfl

theorem bounded?_le {before : Option UInt8} {x : Text} {n : Nat}
    (h : bounded? name before x = some n) : n ≤ x.length := by
  unfold bounded? at h
  obtain ⟨k, hk, h⟩ := Option.bind_eq_some_iff.mp h
  split at h
  · cases h
    exact literal?_le hk
  · cases h

theorem isBoundary_behind (hword : Byte.isName q = false) (behind : Option UInt8) :
    isBoundary (some q) behind = isBoundary none behind := by
  simp [isBoundary, isWord_of_not_isName hword]

theorem longName_stopsAt (hq : IsBasic q) (hword : Byte.isName q = false) (hhost : q ∉ host)
    (hne : name ≠ []) (hname : q ∉ name) : (longName name).StopsAt q where
  nil before := by
    have hnone : Text.after? host [] = none := by decide +kernel
    simp [longName, hnone, bounded?_nil hne]
  cut before x s := by
    have hw := isWord_of_not_isName hword
    unfold longName Text.after?
    rw [Text.isPrefixOf?_cut hhost, bounded?_cut hq hword hname]
    cases hx : host.isPrefixOf? x with
    | none => rfl
    | some method =>
      simp only [Option.map_some, Option.bind_eq_bind, Option.bind_some,
        bounded?_cut hq hword hname, isBoundary, Text.any_head?_append hw]
      rfl
  fits {before x n a} h := by
    unfold longName at h
    obtain ⟨k, hk, heq⟩ := Option.map_eq_some_iff.mp h
    obtain ⟨rfl, _⟩ := Prod.mk.inj heq
    rw [Option.orElse_eq_orElse, Option.orElse_eq_or, Option.or_eq_some_iff] at hk
    rcases hk with hk | ⟨_, hk⟩
    · obtain ⟨method, hmethod, hk⟩ := Option.bind_eq_some_iff.mp hk
      obtain ⟨m, hm, hk⟩ := Option.bind_eq_some_iff.mp hk
      have hx := Text.after?_eq_some.mp hmethod
      have hle := bounded?_le hm
      split at hk
      · cases hk
        rw [hx, List.length_append]
        omega
      · cases hk
    · exact bounded?_le hk
  behind s := by
    unfold longName bounded?
    simp only [isBoundary_behind hword]

/-! ## Methods that cannot be searched for -/

/-- Long methods that are valid text can all be searched for. -/
theorem shorten_eq {aliases : List Alias} (h : ∀ a ∈ aliases, Text.isValid a.long = true)
    (s : Text) : shorten aliases s = .ok (withHelpers aliases s) := by
  have hnone : aliases.find? (fun a => !Text.isValid a.long) = none :=
    List.find?_eq_none.mpr fun a ha => by simp [h a ha]
  simp only [shorten, hnone]

/-- **Shortening aborts on a long method that is not valid text**, whatever the text is. -/
theorem shorten_aborted {aliases : List Alias} (h : ∃ a ∈ aliases, Text.isValid a.long = false)
    (s : Text) : ∃ a ∈ aliases, Text.isValid a.long = false ∧
      shorten aliases s = .error (.aborted (.pattern (longNameSource a.long))) := by
  cases hfind : aliases.find? fun a => !Text.isValid a.long with
  | none =>
    obtain ⟨a, ha, hinvalid⟩ := h
    have hvalid := List.find?_eq_none.mp hfind a ha
    rw [hinvalid] at hvalid
    exact absurd rfl hvalid
  | some a =>
    have hinvalid : Text.isValid a.long = false := by simpa using List.find?_some hfind
    exact ⟨a, List.mem_of_find?_eq_some hfind, hinvalid, by simp only [shorten, hfind]⟩

end ActionLog.Pass
