import ActionLog.Pass.Inline
import ActionLog.Proofs.Draft
import ActionLog.Proofs.Trim
import ActionLog.Proofs.Word

/-!
# Uses of a variable

A use is a name that is passed as an argument.  Uses are searched character by character in the
whole text, and the text of a search goes on behind what it found.

* `Text.MadeAt` — edits in the place of matches; `Text.MadeAt.makeable` says that they can be made;
* `passed` — what stands behind a name that is passed; `usePattern_append` says that the search
  looks for nothing else;
* `IsUse` — a use of a name at a place, its own declarations left out;
* `Inlined` — the text with every use of a name replaced, and all else kept.

Principal results: `inlined_splice` and `inlined_of_revise` — the edits of a variable replace its
uses, every one of them and nothing else.
-/

set_option autoImplicit false

namespace ActionLog

theorem Makeable.reviseOrAbort_eq {α : Type} {s : Text} {es : List Edit} (h : Makeable s es) :
    (reviseOrAbort s es : Outcome α Text) = .ok (Draft.splice s 0 es) := by
  unfold reviseOrAbort
  rw [h.revise_eq]
  rfl

namespace Text

/-! ## Places of a search -/

theorem findAllFrom_skip {α : Type} (g : Grain) (p : Pattern α) (r s : Text) (k : Nat) :
    ∀ pos before, findAllFrom g p pos before (r.length + k) (r ++ s) =
      findAllFrom g p (pos + r.length) (r.getLast?.or before) k s := by
  induction r with
  | nil =>
    intro pos before
    simp
  | cons b r ih =>
    intro pos before
    have hlen : (b :: r).length + k = (r.length + k) + 1 := by simp; omega
    rw [hlen, List.cons_append]
    show findAllFrom g p (pos + 1) (some b) (r.length + k) (r ++ s) = _
    rw [ih, getLast?_cons_or, List.length_cons]
    congr 1
    omega

/-- Matches stand behind what is skipped. -/
theorem findAllFrom_start {α : Type} (g : Grain) (p : Pattern α) (s : Text) :
    ∀ {pos : Nat} {before : Option UInt8} {skip : Nat},
      ∀ hit ∈ findAllFrom g p pos before skip s, pos + skip ≤ hit.start := by
  induction s with
  | nil =>
    intro pos before skip hit h
    simp [findAllFrom] at h
  | cons b s ih =>
    intro pos before skip hit h
    cases skip with
    | succ skip =>
      have := ih hit h
      omega
    | zero =>
      unfold findAllFrom at h
      split at h
      · rcases List.mem_cons.mp h with rfl | h
        · exact Nat.le_refl _
        · have := ih hit h
          omega
      · have := ih hit h
        omega

theorem findAllFrom_pairwise {α : Type} (g : Grain) (p : Pattern α) (s : Text) :
    ∀ (pos : Nat) (before : Option UInt8) (skip : Nat),
      (findAllFrom g p pos before skip s).Pairwise fun a b => a.start < b.start := by
  induction s with
  | nil =>
    intro pos before skip
    simp [findAllFrom]
  | cons b s ih =>
    intro pos before skip
    cases skip with
    | succ skip => exact ih _ _ _
    | zero =>
      unfold findAllFrom
      split
      · refine .cons (fun hit h => ?_) (ih _ _ _)
        have := findAllFrom_start g p s hit h
        show pos < hit.start
        omega
      · exact ih _ _ _

/-- Matches lie inside the text, if the pattern takes no more than there is. -/
theorem findAllFrom_within {α : Type} (g : Grain) {p : Pattern α}
    (hp : ∀ {before s n a}, p before s = some (n, a) → n ≤ s.length) (s : Text) :
    ∀ {pos : Nat} {before : Option UInt8} {skip : Nat},
      ∀ hit ∈ findAllFrom g p pos before skip s,
        hit.start ≤ hit.stop ∧ hit.stop ≤ pos + s.length := by
  induction s with
  | nil =>
    intro pos before skip hit h
    simp [findAllFrom] at h
  | cons b s ih =>
    intro pos before skip hit h
    have hlen : pos + (b :: s).length = pos + 1 + s.length := by
      rw [List.length_cons]
      omega
    rw [hlen]
    cases skip with
    | succ skip => exact ih hit h
    | zero =>
      unfold findAllFrom at h
      split at h
      · rename_i n a hx
        rcases List.mem_cons.mp h with rfl | h
        · have hn := hp hx
          rw [List.length_cons] at hn
          exact ⟨Nat.le_add_right _ _, by dsimp only; omega⟩
        · exact ih hit h
      · exact ih hit h

/-- A match starts behind the end of those before it. -/
theorem findAllFrom_apart {α : Type} (g : Grain) (p : Pattern α) (s : Text) :
    ∀ (pos : Nat) (before : Option UInt8) (skip : Nat),
      (findAllFrom g p pos before skip s).Pairwise fun a b => a.stop ≤ b.start := by
  induction s with
  | nil =>
    intro pos before skip
    simp [findAllFrom]
  | cons b s ih =>
    intro pos before skip
    cases skip with
    | succ skip => exact ih _ _ _
    | zero =>
      unfold findAllFrom
      split
      · rename_i n a hx
        refine .cons (fun hit h => ?_) (ih _ _ _)
        have := findAllFrom_start g p s hit h
        show pos + n ≤ hit.start
        omega
      · exact ih _ _ _

/-- A search that goes on behind `b :: x` is one of the text behind it. -/
theorem findAllFrom_rest {α : Type} (g : Grain) (p : Pattern α) (pos : Nat) (before : Option UInt8)
    (b : UInt8) (x t : Text) :
    findAllFrom g p (pos + 1) (some b) x.length (x ++ t) =
      findAllFrom g p (pos + (b :: x).length) ((b :: x).getLast?.or before) 0 t := by
  have hskip := findAllFrom_skip g p x t 0 (pos + 1) (some b)
  rw [Nat.add_zero, Nat.add_assoc, Nat.add_comm 1] at hskip
  rwa [getLast?_cons_or, List.length_cons]

/-- A match at the start is found, and the search goes on behind it. -/
theorem findAllFrom_hit {α : Type} {p : Pattern α} {before : Option UInt8} {x s : Text} {a : α}
    (hx : x ≠ []) (h : p before (x ++ s) = some (x.length, a)) (g : Grain) (pos : Nat) :
    findAllFrom g p pos before 0 (x ++ s) =
      ⟨pos, pos + x.length, a⟩ :: findAllFrom g p (pos + x.length) x.getLast? 0 s := by
  obtain ⟨b, x, rfl⟩ := List.exists_cons_of_ne_nil hx
  have hrest := findAllFrom_rest g p pos before b x s
  rw [getLast?_or_of_ne_nil hx] at hrest
  rw [List.cons_append] at h ⊢
  rw [findAllFrom, h, ← hrest]
  rfl

/-- Bytes at which no match starts are passed. -/
theorem findAllFrom_keep {α : Type} {p : Pattern α} {x s : Text} :
    ∀ {pos : Nat} {before : Option UInt8},
      (∀ u v, x = u ++ v → v ≠ [] → p (u.getLast?.or before) (v ++ s) = none) →
        findAllFrom .byte p pos before 0 (x ++ s) =
          findAllFrom .byte p (pos + x.length) (x.getLast?.or before) 0 s := by
  induction x with
  | nil =>
    intro pos before _
    rfl
  | cons b x ih =>
    intro pos before h
    have hb : p before (b :: (x ++ s)) = none := h [] (b :: x) rfl (List.cons_ne_nil b x)
    rw [List.cons_append, findAllFrom, hb, ← findAllFrom_rest]
    show findAllFrom .byte p (pos + 1) (some b) 0 (x ++ s) = _
    rw [ih, ← findAllFrom_skip]
    · rfl
    · intro u v huv hv
      rw [← getLast?_cons_or b u before]
      exact h (b :: u) v (by rw [huv]; rfl) hv

/-- Edits in the place of matches, from the left to the right: each starts where its match does and
ends no later. -/
inductive MadeAt {α : Type} : List (Hit α) → List Edit → Prop
  | nil : MadeAt [] []
  | skip {hit : Hit α} {hits : List (Hit α)} {es : List Edit} (rest : MadeAt hits es) :
      MadeAt (hit :: hits) es
  | edit {hit : Hit α} {hits : List (Hit α)} {e : Edit} {es : List Edit}
      (hstart : e.start = hit.start) (hle : e.start ≤ e.stop) (hstop : e.stop ≤ hit.stop)
      (rest : MadeAt hits es) : MadeAt (hit :: hits) (e :: es)

namespace MadeAt

variable {α : Type} {hits : List (Hit α)} {es : List Edit}

theorem exists_hit (h : MadeAt hits es) {e : Edit} (he : e ∈ es) :
    ∃ hit ∈ hits, e.start = hit.start ∧ e.start ≤ e.stop ∧ e.stop ≤ hit.stop := by
  induction h with
  | nil => cases he
  | skip _ ih =>
    obtain ⟨hit, hhit, hplace⟩ := ih he
    exact ⟨hit, List.mem_cons_of_mem _ hhit, hplace⟩
  | @edit hit hits _ _ hstart hle hstop _ ih =>
    rcases List.mem_cons.mp he with rfl | he
    · exact ⟨hit, List.mem_cons_self, hstart, hle, hstop⟩
    · obtain ⟨hit, hhit, hplace⟩ := ih he
      exact ⟨hit, List.mem_cons_of_mem _ hhit, hplace⟩

theorem apart (h : MadeAt hits es) (hhits : hits.Pairwise fun a b => a.stop ≤ b.start) :
    Draft.Apart es := by
  induction h with
  | nil => exact .nil
  | skip _ ih => exact ih hhits.of_cons
  | edit _ _ hstop rest ih =>
    rw [List.pairwise_cons] at hhits
    refine .cons (fun e he => ?_) (ih hhits.2)
    obtain ⟨hit', hhit', hstart', _⟩ := rest.exists_hit he
    rw [hstart']
    exact hstop.trans (hhits.1 hit' hhit')

/-- **Edits in the place of what a search finds can be made.** -/
theorem makeable {g : Grain} {p : Pattern α} {s : Text} (h : MadeAt (findAll g p s) es)
    (hp : ∀ {before s n a}, p before s = some (n, a) → n ≤ s.length) : Makeable s es := by
  refine ⟨fun e he => ?_, h.apart (findAllFrom_apart g p s 0 none 0)⟩
  obtain ⟨hit, hhit, _, hle, hstop⟩ := h.exists_hit he
  have hwithin := (findAllFrom_within g hp s hit hhit).2
  rw [Nat.zero_add] at hwithin
  exact ⟨hle, hstop.trans hwithin⟩

/-- Matches that are looked at one by one. -/
theorem filterMap {f : Hit α → Option Edit} (hf : ∀ hit ∈ hits, ∀ e, f hit = some e →
      e.start = hit.start ∧ e.start ≤ e.stop ∧ e.stop ≤ hit.stop) :
    MadeAt hits (hits.filterMap f) := by
  induction hits with
  | nil => exact .nil
  | cons hit hits ih =>
    rw [List.forall_mem_cons] at hf
    cases hfirst : f hit with
    | none =>
      rw [List.filterMap_cons_none hfirst]
      exact .skip (ih hf.2)
    | some e =>
      obtain ⟨hstart, hle, hstop⟩ := hf.1 e hfirst
      rw [List.filterMap_cons_some hfirst]
      exact .edit hstart hle hstop (ih hf.2)

end MadeAt

/-! ## Characters of several bytes -/

theorem toNat_lt_of_isName {b : UInt8} (h : Byte.isName b = true) : b.toNat < 128 := by
  simp only [Byte.isName, Byte.isWord, Byte.isLetter, Byte.isDigit, Bool.or_eq_true,
    Bool.and_eq_true, decide_eq_true_eq, UInt8.le_iff_toNat_le, beq_iff_eq] at h
  rcases h with ((((h | h) | h) | h) | h)
  · have : b.toNat ≤ 122 := h.2
    omega
  · have : b.toNat ≤ 90 := h.2
    omega
  · have : b.toNat ≤ 57 := h.2
    omega
  · rw [h]
    decide
  · rw [h]
    decide

theorem isName_of_high {b : UInt8} (h : 128 ≤ b.toNat) : Byte.isName b = false := by
  by_contra hname
  have hlow := toNat_lt_of_isName (Bool.not_eq_false _ ▸ hname)
  omega

theorem isTail_le {b : UInt8} (h : Utf8.isTail b = true) : 128 ≤ b.toNat := by
  simp only [Utf8.isTail, Bool.and_eq_true, decide_eq_true_eq, UInt8.le_iff_toNat_le] at h
  exact h.1

/-- The second byte of a sequence continues it. -/
theorem isTail_of_leadsThree {a b : UInt8} (h : Utf8.leadsThree a b = true) :
    Utf8.isTail b = true := by
  simp only [Utf8.leadsThree, Utf8.isTail, Bool.or_eq_true, Bool.and_eq_true, decide_eq_true_eq,
    UInt8.le_iff_toNat_le] at h ⊢
  rcases h with ((h | h) | h) | h
  · have hlow : 160 ≤ b.toNat := h.1.2
    exact ⟨show 128 ≤ b.toNat by omega, h.2⟩
  · exact h.2
  · have hhigh : b.toNat ≤ 159 := h.2
    exact ⟨h.1.2, show b.toNat ≤ 191 by omega⟩
  · exact h.2

theorem isTail_of_leadsFour {a b : UInt8} (h : Utf8.leadsFour a b = true) :
    Utf8.isTail b = true := by
  simp only [Utf8.leadsFour, Utf8.isTail, Bool.or_eq_true, Bool.and_eq_true, decide_eq_true_eq,
    UInt8.le_iff_toNat_le] at h ⊢
  rcases h with (h | h) | h
  · have hlow : 144 ≤ b.toNat := h.1.2
    exact ⟨show 128 ≤ b.toNat by omega, h.2⟩
  · exact h.2
  · have hhigh : b.toNat ≤ 143 := h.2
    exact ⟨h.1.2, show b.toNat ≤ 191 by omega⟩

/-- The bytes of a character behind its first are no bytes of the basic alphabet. -/
theorem width_tail (a : UInt8) (s : Text) :
    ∀ b ∈ s.take (Utf8.width (a :: s) - 1), 128 ≤ b.toNat := by
  unfold Utf8.width
  match s with
  | [] => simp
  | [b] =>
    simp only [Utf8.decode?]
    split_ifs <;> simp_all [isTail_le]
  | [b, c] =>
    simp only [Utf8.decode?]
    split_ifs <;> simp_all [isTail_le]
    rename_i hthree
    exact isTail_le (isTail_of_leadsThree hthree.1)
  | b :: c :: d :: rest =>
    simp only [Utf8.decode?]
    split_ifs <;> simp_all [isTail_le]
    · rename_i hthree
      exact isTail_le (isTail_of_leadsThree hthree.1)
    · rename_i hfour
      exact isTail_le (isTail_of_leadsFour hfour.1.1)

/-- No name starts inside of a character. -/
theorem not_name_of_width {b : UInt8} {s x y : Text} (hs : s = x ++ y)
    (hx : x.length < Utf8.width (b :: s) - 1) : y.head?.any Byte.isName = false := by
  cases y with
  | nil => rfl
  | cons c y =>
    have hmem : c ∈ s.take (Utf8.width (b :: s) - 1) := by
      obtain ⟨k, hk⟩ : ∃ k, Utf8.width (b :: s) - 1 = x.length + (k + 1) :=
        ⟨Utf8.width (b :: s) - 1 - x.length - 1, by omega⟩
      rw [hk, hs, List.take_length_add_append, List.take_succ_cons]
      exact List.mem_append_right _ List.mem_cons_self
    exact isName_of_high (width_tail b s c hmem)

end Text

namespace Pass

open Text (IsRun Bare)

/-! ## Names that are passed -/

/-- Whether a comma or a closing parenthesis comes next, gaps left out. -/
def passed (s : Text) : Bool :=
  (s.dropWhile Byte.isGap).head?.any fun b => b == Byte.comma || b == Byte.closeParen

theorem passed_gap {b : UInt8} (hb : Byte.isGap b = true) (s : Text) :
    passed (b :: s) = passed s := by
  simp [passed, hb]

theorem passed_other {b : UInt8} (hb : Byte.isGap b = false) (s : Text) :
    passed (b :: s) = (b == Byte.comma || b == Byte.closeParen) := by
  simp [passed, hb]

theorem isName_of_isGap {b : UInt8} (h : Byte.isGap b = true) : Byte.isName b = false := by
  rcases Text.isGap_cases h with rfl | rfl | rfl | rfl | rfl <;> rfl

/-- No name stands where a comma or a parenthesis comes next. -/
theorem bare_of_passed {s : Text} (h : passed s = true) : Bare s := by
  cases s with
  | nil => rfl
  | cons b s =>
    by_cases hb : Byte.isGap b = true
    · exact isName_of_isGap hb
    · rw [Bool.not_eq_true] at hb
      rw [passed_other hb, Bool.or_eq_true, beq_iff_eq, beq_iff_eq] at h
      rcases h with rfl | rfl <;> rfl

/-- What follows decides only where gaps stand before it. -/
theorem passed_append {s k k' : Text} (hk : passed k = true → passed k' = true)
    (h : passed (s ++ k) = true) : passed (s ++ k') = true := by
  induction s with
  | nil => exact hk h
  | cons b s ih =>
    rw [List.cons_append] at h ⊢
    by_cases hb : Byte.isGap b = true
    · rw [passed_gap hb] at h ⊢
      exact ih h
    · rw [Bool.not_eq_true] at hb
      rw [passed_other hb] at h ⊢
      exact h

theorem passed_left {s : Text} (h : passed s = true) (k : Text) : passed (s ++ k) = true := by
  rw [← List.append_nil s] at h
  exact passed_append (fun hnil => by cases hnil) h

/-- What follows decides only where nothing but gaps stands before it. -/
theorem passed_or_gaps {s k : Text} (h : passed (s ++ k) = true) :
    passed s = true ∨ ∀ b ∈ s, Byte.isGap b = true := by
  induction s with
  | nil => exact .inr fun b hb => absurd hb List.not_mem_nil
  | cons b s ih =>
    rw [List.cons_append] at h
    by_cases hb : Byte.isGap b = true
    · rw [passed_gap hb] at h ⊢
      exact (ih h).imp_right fun hs => List.forall_mem_cons.mpr ⟨hb, hs⟩
    · rw [Bool.not_eq_true] at hb
      rw [passed_other hb] at h ⊢
      exact .inl h

theorem passed_gaps {s k : Text} (hk : ∀ b ∈ k, Byte.isGap b = true)
    (h : passed (s ++ k) = true) : passed s = true := by
  have hnot : passed k = false := by
    unfold passed
    rw [List.dropWhile_eq_nil_iff.mpr hk]
    rfl
  rw [← List.append_nil s]
  refine passed_append (fun hp => ?_) h
  rw [hnot] at hp
  cases hp

/-- Neither a comma nor a parenthesis comes next. -/
theorem not_passed {s : Text} (hs : ∀ b ∈ s, Text.isMark b = false) {c : UInt8}
    (hgap : Byte.isGap c = false) (hc : c ≠ Byte.comma ∧ c ≠ Byte.closeParen) (k : Text) :
    passed (s ++ c :: k) = false := by
  induction s with
  | nil =>
    rw [List.nil_append, passed_other hgap]
    simp [hc.1, hc.2]
  | cons b s ih =>
    rw [List.forall_mem_cons] at hs
    rw [List.cons_append]
    by_cases hb : Byte.isGap b = true
    · rw [passed_gap hb]
      exact ih hs.2
    · rw [Bool.not_eq_true] at hb
      rw [passed_other hb, Bool.or_eq_false_iff, beq_eq_false_iff_ne, beq_eq_false_iff_ne]
      constructor
      · rintro rfl
        cases hs.1
      · rintro rfl
        cases hs.1

/-- What a match takes behind a name holds no name. -/
theorem not_name_of_passed {s : Text} (h : passed s = true) {x y : Text} (hs : s = x ++ y)
    (hx : x.length < (s.takeWhile Byte.isGap).length + 1) : y.head?.any Byte.isName = false := by
  induction x generalizing s with
  | nil =>
    rw [List.nil_append] at hs
    rw [← hs]
    exact bare_of_passed h
  | cons b x ih =>
    subst hs
    by_cases hb : Byte.isGap b = true
    · rw [List.cons_append, passed_gap hb] at h
      refine ih h rfl ?_
      rw [List.cons_append, List.takeWhile_cons_of_pos hb, List.length_cons, List.length_cons] at hx
      omega
    · rw [List.cons_append, List.takeWhile_cons_of_neg hb, List.length_nil, List.length_cons] at hx
      omega

theorem literal?_append {m : Text} (hm : IsRun m) (s : Text) :
    Text.literal? m (m ++ s) = some m.length := by
  induction m with
  | nil => simp [Text.literal?]
  | cons a m ih =>
    have ha : a ≠ 0xEF := by
      rintro rfl
      cases hm _ List.mem_cons_self
    have := ih fun b hb => hm b (List.mem_cons_of_mem _ hb)
    rw [List.cons_append, Text.literal?]
    · simp [this]
    · simp [ha]

theorem literal?_eq_some {m r : Text} (hm : IsRun m) {k : Nat} (h : Text.literal? m r = some k) :
    ∃ s, r = m ++ s ∧ k = m.length := by
  induction m generalizing r k with
  | nil =>
    rw [Text.literal?] at h
    cases h
    exact ⟨r, rfl, rfl⟩
  | cons a m ih =>
    have ha : a ≠ 0xEF := by
      rintro rfl
      cases hm _ List.mem_cons_self
    cases r with
    | nil =>
      rw [Text.literal?] at h
      · cases h
      · simp [ha]
    | cons b r =>
      rw [Text.literal?] at h
      · split at h
        · rename_i hab
          obtain ⟨j, hj, rfl⟩ := Option.map_eq_some_iff.mp h
          obtain ⟨s, rfl, rfl⟩ := ih (fun b hb => hm b (List.mem_cons_of_mem _ hb)) hj
          rw [← beq_iff_eq.mp hab]
          exact ⟨s, rfl, rfl⟩
        · cases h
      · simp [ha]

/-- **The search for uses looks for the name with a comma or a parenthesis next.** -/
theorem usePattern_append {m : Text} (hm : IsRun m) (before : Option UInt8) (s : Text) :
    usePattern m before (m ++ s) = if passed s = true then
      some (m.length + (s.takeWhile Byte.isGap).length + 1, before.any Byte.isName) else none := by
  have hdrop : (m ++ s).drop (m.length + (s.takeWhile Byte.isGap).length) =
      s.dropWhile Byte.isGap := by
    have hsplit := congrArg (List.drop (s.takeWhile Byte.isGap).length)
      (List.takeWhile_append_dropWhile (p := Byte.isGap) (l := s))
    rw [List.drop_left] at hsplit
    rw [← List.drop_drop, List.drop_left, hsplit]
  unfold usePattern passed
  rw [literal?_append hm]
  simp only [Option.bind_eq_bind, Option.bind_some, List.drop_left, hdrop]
  cases s.dropWhile Byte.isGap with
  | nil => rfl
  | cons b rest => simp

theorem usePattern_eq_some {m r : Text} (hm : IsRun m) {before : Option UInt8} {x : Nat × Bool}
    (h : usePattern m before r = some x) :
    ∃ s, r = m ++ s ∧ passed s = true ∧
      x = (m.length + (s.takeWhile Byte.isGap).length + 1, before.any Byte.isName) := by
  obtain ⟨k, hk⟩ : ∃ k, Text.literal? m r = some k := by
    cases hk : Text.literal? m r with
    | some k => exact ⟨k, rfl⟩
    | none => simp [usePattern, hk] at h
  obtain ⟨s, rfl, _⟩ := literal?_eq_some hm hk
  rw [usePattern_append hm] at h
  split at h
  · rename_i hs
    exact ⟨s, rfl, hs, (Option.some.inj h).symm⟩
  · cases h

theorem usePattern_fits {name r : Text} {before : Option UInt8} {n : Nat} {inner : Bool}
    (h : usePattern name before r = some (n, inner)) : n ≤ r.length := by
  simp only [usePattern, Option.bind_eq_bind, Option.bind_eq_some_iff] at h
  obtain ⟨k, _, q, hq, h⟩ := h
  rw [List.head?_drop] at hq
  obtain ⟨hlt, _⟩ := List.getElem?_eq_some_iff.mp hq
  split at h <;> cases h
  exact hlt

/-! ## The line of a place -/

/-- What stands on the last line of a text. -/
def lastLine (u : Text) : Text := (u.reverse.takeWhile (· != Byte.newline)).reverse

/-- The last line when a byte is added. -/
def extendLine (p : Text) (b : UInt8) : Text := if b = Byte.newline then [] else p ++ [b]

theorem lastLine_concat (u : Text) (b : UInt8) :
    lastLine (u ++ [b]) = extendLine (lastLine u) b := by
  unfold lastLine extendLine
  by_cases hb : b = Byte.newline
  · simp [hb]
  · simp [hb]

theorem lastLine_append (u : Text) {m : Text} (hm : Byte.newline ∉ m) :
    lastLine (u ++ m) = lastLine u ++ m := by
  have hpos : ∀ b ∈ m.reverse, (b != Byte.newline) = true := by
    intro b hb
    rw [bne_iff_ne]
    rintro rfl
    exact hm (List.mem_reverse.mp hb)
  unfold lastLine
  rw [List.reverse_append, List.takeWhile_append_of_pos hpos, List.reverse_append,
    List.reverse_reverse]

theorem lineAt_append (u s : Text) :
    lineAt (u ++ s) u.length = lastLine u ++ s.takeWhile (· != Byte.newline) := by
  unfold lineAt lastLine
  rw [List.take_left, List.drop_left]

/-- A name goes on from the line before it as from the text before it. -/
theorem getLast?_lastLine (u : Text) :
    (lastLine u).getLast?.any Byte.isName = u.getLast?.any Byte.isName := by
  rcases List.eq_nil_or_concat u with rfl | ⟨u, b, rfl⟩
  · rfl
  · rw [List.concat_eq_append, lastLine_concat, List.getLast?_concat]
    unfold extendLine
    split
    · rename_i hb
      rw [hb]
      rfl
    · rw [List.getLast?_concat]

/-! ## Texts with every use replaced -/

/-- A use of `m` where `p` stands before it on its line, unless the line declares `m`. -/
structure IsUse (m p r : Text) : Prop where
  start : p.getLast?.any Byte.isName = false
  next : ∃ s, r = m ++ s ∧ passed s = true
  foreign : declares m (p ++ r.takeWhile (· != Byte.newline)) = false

/-- The text with every use of `m` replaced by `value`, when `p` stands before it on its line. -/
inductive Inlined (m value : Text) : (p : Text) → Text → Text → Prop
  | nil {p : Text} : Inlined m value p [] []
  | keep {p : Text} {b : UInt8} {s o : Text} (h : ¬ IsUse m p (b :: s))
      (rest : Inlined m value (extendLine p b) s o) : Inlined m value p (b :: s) (b :: o)
  | put {p s o : Text} (h : IsUse m p (m ++ s)) (rest : Inlined m value (p ++ m) s o) :
      Inlined m value p (m ++ s) (value ++ o)

theorem newline_not_mem_of_isRun {m : Text} (hm : IsRun m) : Byte.newline ∉ m := by
  intro hmem
  cases hm _ hmem

/-- There is no use at a byte of no name. -/
theorem not_isUse_of_not_name {m p r : Text} (hne : m ≠ []) (hm : IsRun m)
    (hr : r.head?.any Byte.isName = false) : ¬ IsUse m p r := by
  intro h
  obtain ⟨s, rfl, _⟩ := h.next
  obtain ⟨b, m', rfl⟩ := List.exists_cons_of_ne_nil hne
  rw [List.cons_append, List.head?_cons, Option.any_some, hm b List.mem_cons_self] at hr
  cases hr

/-- The edit for a use that was found. -/
def useEdit? (d : Declaration) (s : Text) (hit : Text.Hit Bool) : Option Edit :=
  if hit.value || declares d.name (lineAt s hit.start) then none
  else some ⟨hit.start, hit.start + d.name.length, d.value⟩

theorem inlineEdits_eq (d : Declaration) (s : Text) : inlineEdits d s =
    (Text.findAllFrom .char (usePattern d.name) 0 none 0 s).filterMap (useEdit? d s) := rfl

theorem useEdit?_start {d : Declaration} {s : Text} {hit : Text.Hit Bool} {e : Edit}
    (h : useEdit? d s hit = some e) : e.start = hit.start := by
  unfold useEdit? at h
  split at h <;> cases h
  rfl

/-- **The edits that inline a variable can be made**, if none is longer than its match. -/
theorem makeable_inlineEdits {d : Declaration} {s : Text}
    (h : ∀ hit ∈ Text.findAll .char (usePattern d.name) s, ∀ e, useEdit? d s hit = some e →
      e.start ≤ e.stop ∧ e.stop ≤ hit.stop) : Makeable s (inlineEdits d s) := by
  have hmade : Text.MadeAt (Text.findAll .char (usePattern d.name) s) (inlineEdits d s) :=
    .filterMap fun hit hhit e he => ⟨useEdit?_start he, h hit hhit e he⟩
  exact hmade.makeable usePattern_fits

/-- Inside a name, no use starts. -/
theorem not_isUse_inside {m p r : Text} (hp : p.getLast?.any Byte.isName = true) :
    ¬ IsUse m p r := by
  intro h
  rw [h.start] at hp
  cases hp

/-- A match that makes no edit is no use. -/
theorem useEdit?_eq_none {d : Declaration} {u r : Text} {stop : Nat}
    (h : useEdit? d (u ++ r) ⟨u.length, stop, u.getLast?.any Byte.isName⟩ = none) :
    ¬ IsUse d.name (lastLine u) r := by
  intro huse
  have hstart := huse.start
  rw [getLast?_lastLine] at hstart
  unfold useEdit? at h
  rw [lineAt_append, hstart, huse.foreign] at h
  cases h

theorem useEdit?_eq_some {d : Declaration} {u r : Text} {stop : Nat} {e : Edit}
    (h : useEdit? d (u ++ r) ⟨u.length, stop, u.getLast?.any Byte.isName⟩ = some e)
    (hnext : ∃ s, r = d.name ++ s ∧ passed s = true) :
    IsUse d.name (lastLine u) r ∧ e = ⟨u.length, u.length + d.name.length, d.value⟩ := by
  unfold useEdit? at h
  rw [lineAt_append] at h
  split at h
  · cases h
  · rename_i hnot
    rw [Bool.or_eq_true, not_or, Bool.not_eq_true, Bool.not_eq_true] at hnot
    cases h
    refine ⟨⟨?_, hnext, hnot.2⟩, rfl⟩
    rw [getLast?_lastLine]
    exact hnot.1

section Splice

variable {d : Declaration} {u s : Text} {b : UInt8}

/-- The edits for matches from a place on. -/
def editsFrom (d : Declaration) (u : Text) (skip : Nat) (s : Text) : List Edit :=
  (Text.findAllFrom .char (usePattern d.name) u.length u.getLast? skip s).filterMap
    (useEdit? d (u ++ s))

theorem editsFrom_start {skip : Nat} : ∀ e ∈ editsFrom d u skip s, u.length + skip ≤ e.start := by
  intro e he
  obtain ⟨hit, hhit, hedit⟩ := List.mem_filterMap.mp he
  rw [useEdit?_start hedit]
  exact Text.findAllFrom_start _ _ _ hit hhit

theorem editsFrom_concat (u : Text) (b : UInt8) (skip : Nat) (s : Text) :
    editsFrom d (u ++ [b]) skip s =
      (Text.findAllFrom .char (usePattern d.name) (u.length + 1) (some b) skip s).filterMap
        (useEdit? d (u ++ b :: s)) := by
  unfold editsFrom
  rw [List.getLast?_concat, List.length_append, List.append_assoc]
  rfl

theorem editsFrom_skip (u r : Text) (k : Nat) (s : Text) :
    editsFrom d u (r.length + k) (r ++ s) = editsFrom d (u ++ r) k s := by
  unfold editsFrom
  rw [Text.findAllFrom_skip, List.getLast?_append, List.length_append, List.append_assoc]

/-- Without a match, the search goes on at the next character. -/
theorem editsFrom_none (hp : usePattern d.name u.getLast? (b :: s) = none) :
    editsFrom d u 0 (b :: s) = editsFrom d (u ++ [b]) (Text.Utf8.width (b :: s) - 1) s := by
  rw [editsFrom_concat]
  simp only [editsFrom, Text.findAllFrom, hp, Text.Grain.width]

/-- Behind a match, the search goes on where the match ends. -/
theorem editsFrom_some {n : Nat} {inner : Bool}
    (hp : usePattern d.name u.getLast? (b :: s) = some (n + 1, inner)) :
    editsFrom d u 0 (b :: s) =
      (useEdit? d (u ++ b :: s) ⟨u.length, u.length + (n + 1), inner⟩).toList ++
        editsFrom d (u ++ [b]) n s := by
  rw [editsFrom_concat]
  simp only [editsFrom, Text.findAllFrom, hp, List.filterMap_cons, Nat.add_sub_cancel]
  cases useEdit? d (u ++ b :: s) _ <;> rfl

/-- The search behind the first byte of a name that is passed is one behind the name. -/
theorem editsFrom_name {m t : Text} (hname : d.name = b :: m) (k : Nat) :
    editsFrom d (u ++ [b]) (d.name.length + k) (m ++ t) = editsFrom d (u ++ d.name) (k + 1) t := by
  have hlen : d.name.length + k = m.length + (k + 1) := by
    rw [hname, List.length_cons]
    omega
  rw [hlen, editsFrom_skip, List.append_assoc, hname]
  rfl

/-- A byte at which no use starts is kept. -/
theorem inlined_keep {skip : Nat} (huse : ¬ IsUse d.name (lastLine u) (b :: s))
    (h : Inlined d.name d.value (lastLine (u ++ [b])) s
      (Draft.splice (u ++ [b] ++ s) (u ++ [b]).length (editsFrom d (u ++ [b]) skip s))) :
    Inlined d.name d.value (lastLine u) (b :: s)
      (Draft.splice (u ++ b :: s) u.length (editsFrom d (u ++ [b]) skip s)) := by
  rw [Draft.splice_cons]
  · refine .keep huse ?_
    rw [lastLine_concat, List.append_assoc, List.length_append] at h
    exact h
  · intro e he
    have := editsFrom_start e he
    rw [List.length_append, List.length_singleton] at this
    omega

end Splice

/-- No use starts behind the first byte of a match and before its end. -/
theorem not_isUse_of_match {m s : Text} (hne : m ≠ []) (hm : IsRun m) (hs : passed s = true)
    {u x y : Text} (hxy : x ++ y = m ++ s) (hx : x ≠ [])
    (hlen : x.length ≤ m.length + (s.takeWhile Byte.isGap).length) :
    ¬ IsUse m (lastLine (u ++ x)) y := by
  rcases List.append_eq_append_iff.mp hxy with ⟨c, hc, _⟩ | ⟨c, rfl, hc⟩
  · -- still inside the name
    refine not_isUse_inside ?_
    rw [getLast?_lastLine, List.getLast?_append, Text.getLast?_or_of_ne_nil hx]
    exact Text.class_last hm hc hx
  · refine not_isUse_of_not_name hne hm (not_name_of_passed hs hc ?_)
    rw [List.length_append] at hlen
    omega

/-- **The edits replace every use and nothing else.**  Places that the search skips hold no use:
they stand inside a name, in the gap behind it, or inside a character of several bytes. -/
theorem inlined_splice {d : Declaration} (hne : d.name ≠ []) (hrun : IsRun d.name)
    (u : Text) (skip : Nat) (s : Text)
    (hskip : ∀ x y, s = x ++ y → x.length < skip → ¬ IsUse d.name (lastLine (u ++ x)) y) :
    Inlined d.name d.value (lastLine u) s
      (Draft.splice (u ++ s) u.length (editsFrom d u skip s)) := by
  match s, skip with
  | [], _ =>
    rw [show editsFrom d u _ [] = [] from rfl, Draft.splice, List.append_nil, List.drop_length]
    exact .nil
  | b :: s, skip + 1 =>
    have hedits : editsFrom d u (skip + 1) (b :: s) = editsFrom d (u ++ [b]) skip s := by
      rw [editsFrom_concat]
      rfl
    rw [hedits]
    refine inlined_keep ?_ (inlined_splice hne hrun (u ++ [b]) skip s ?_)
    · have := hskip [] (b :: s) rfl (by simp)
      rwa [List.append_nil] at this
    · intro x y hxy hx
      have := hskip (b :: x) y (by rw [hxy]; rfl) (by simpa using hx)
      rwa [List.append_assoc]
  | b :: s, 0 =>
    cases hp : usePattern d.name u.getLast? (b :: s) with
    | none =>
      rw [editsFrom_none hp]
      refine inlined_keep ?_ (inlined_splice hne hrun (u ++ [b]) _ s ?_)
      · intro huse
        obtain ⟨s', heq, hpassed⟩ := huse.next
        rw [heq, usePattern_append hrun, if_pos hpassed] at hp
        cases hp
      · exact fun x y hxy hx => not_isUse_of_not_name hne hrun (Text.not_name_of_width hxy hx)
    | some x =>
      obtain ⟨s', heq, hpassed, rfl⟩ := usePattern_eq_some hrun hp
      rw [editsFrom_some hp]
      cases hedit : useEdit? d (u ++ b :: s) ⟨u.length, u.length +
          (d.name.length + (s'.takeWhile Byte.isGap).length + 1), u.getLast?.any Byte.isName⟩ with
      | none =>
        refine inlined_keep (useEdit?_eq_none hedit) (inlined_splice hne hrun (u ++ [b]) _ s ?_)
        intro x y hxy hx
        rw [List.append_assoc]
        refine not_isUse_of_match hne hrun hpassed (by rw [← heq, hxy]; rfl) (by simp) ?_
        rw [List.singleton_append, List.length_cons]
        omega
      | some e =>
        obtain ⟨huse, rfl⟩ := useEdit?_eq_some hedit ⟨s', heq, hpassed⟩
        obtain ⟨m', hname, hs⟩ : ∃ m', d.name = b :: m' ∧ s = m' ++ s' := by
          rcases List.cons_eq_append_iff.mp heq with ⟨hnil, _⟩ | ⟨m', hname, hs⟩
          · exact absurd hnil hne
          · exact ⟨m', hname, hs⟩
        have hrest := editsFrom_name (u := u) (t := s') hname (s'.takeWhile Byte.isGap).length
        rw [← hs] at hrest
        rw [hrest, heq]
        rw [heq] at huse
        show Inlined _ _ _ _ (Draft.splice _ _ (_ :: _))
        rw [Draft.splice_edit, ← List.append_assoc, ← List.length_append]
        refine .put huse ?_
        rw [← lastLine_append u (newline_not_mem_of_isRun hrun)]
        refine inlined_splice hne hrun (u ++ d.name) _ s' ?_
        intro x y hxy hx
        exact not_isUse_of_not_name hne hrun (not_name_of_passed hpassed hxy hx)
termination_by s.length
decreasing_by
  · simp
  · simp
  · simp
  · rw [hs, List.length_cons, List.length_append]
    omega

/-- **A text revised by the edits of a variable has every use of it replaced.** -/
theorem inlined_of_revise {d : Declaration} (hne : d.name ≠ []) (hrun : IsRun d.name) {s out : Text}
    (h : revise s (inlineEdits d s) = .ok out) : Inlined d.name d.value [] s out := by
  have hsorted : (inlineEdits d s).Pairwise fun a b => a.start < b.start := by
    rw [inlineEdits_eq, List.pairwise_filterMap]
    refine (Text.findAllFrom_pairwise _ _ s 0 none 0).imp fun {a b} hab e he e' he' => ?_
    rw [useEdit?_start he, useEdit?_start he']
    exact hab
  rw [revise_eq_splice h hsorted]
  exact inlined_splice hne hrun [] 0 s fun _ _ _ hx => absurd hx (Nat.not_lt_zero _)

end Pass

end ActionLog
