import ActionLog.Pass.Parameter
import ActionLog.Proofs.Inlining
import ActionLog.Proofs.Name
import ActionLog.Proofs.Quote
import Mathlib.Data.List.TakeDrop

/-!
# What a setter call sets

The value of a setter call stands between the last comma and the last parenthesis of its line.  So a
string with a comma in it is no such value.

* `Text.cutLast_append`, `Text.trimBy_frame` — the last byte of a kind, and blanks around a text;
* `Text.isLiteral_cases` — a literal is a string between quotes, or has neither blanks nor commas
  nor quotes;
* `Reads`, `EndsInCall` — how a setter is written, and a text up to the parenthesis of a call;
* `setting?_eq` — the setting of a line that is cut at its call, its last comma and its last
  parenthesis; `exists_cuts` says that every line with a setting is;
* `Sets` — the parts of a line around the value of a setting.

Principal results: `sets_of_setting?` — what the setting of a line is — and `setting?_literal` — a
literal is a setting exactly if it has no comma.
-/

set_option autoImplicit false

namespace ActionLog

namespace Text

open Pass (isQuote)

/-! ## The last byte of a kind -/

theorem cutLast_append {b : UInt8} (x : Text) {y : Text} (hy : b ∉ y) :
    cutLast b (x ++ b :: y) = some (x, y) := by
  have hrev : (x ++ b :: y).reverse = y.reverse ++ b :: x.reverse := by simp
  have hpass : ∀ a ∈ y.reverse, (a != b) = true := by
    intro a ha
    rw [bne_iff_ne]
    rintro rfl
    exact hy (List.mem_reverse.mp ha)
  unfold cutLast
  rw [hrev, List.span_eq_takeWhile_dropWhile, List.takeWhile_append_of_pos hpass,
    List.dropWhile_append_of_pos hpass]
  simp

theorem cutLast_eq_some {b : UInt8} {s x y : Text} (h : cutLast b s = some (x, y)) :
    s = x ++ b :: y ∧ b ∉ y := by
  unfold cutLast at h
  rw [List.span_eq_takeWhile_dropWhile] at h
  have hsplit := List.takeWhile_append_dropWhile (p := (· != b)) (l := s.reverse)
  cases hdrop : s.reverse.dropWhile (· != b) with
  | nil =>
    rw [hdrop] at h
    cases h
  | cons c l =>
    have hc : c = b := by
      have hhead := List.head_dropWhile_not (· != b) (l := s.reverse) (by rw [hdrop]; simp)
      simpa [hdrop] using hhead
    rw [hdrop] at h hsplit
    obtain ⟨rfl, rfl⟩ := Prod.mk.inj (Option.some.inj h)
    constructor
    · have hrev := congrArg List.reverse hsplit
      rw [List.reverse_append, List.reverse_cons, List.reverse_reverse, hc,
        List.append_assoc] at hrev
      exact hrev.symm
    · intro hmem
      have hpass := List.mem_takeWhile_imp (List.mem_reverse.mp hmem)
      simp at hpass

/-! ## Blanks around a text -/

/-- A text with blanks at its ends, if it starts and ends with none. -/
theorem trimBy_frame {p : UInt8 → Bool} {w s w' : Text} (hw : ∀ b ∈ w, p b = true)
    (hw' : ∀ b ∈ w', p b = true) (hne : s ≠ []) (hhead : s.head?.any p = false)
    (hlast : s.getLast?.any p = false) :
    (w ++ (s ++ w')).takeWhile p = w ∧ trimBy p (w ++ (s ++ w')) = s := by
  obtain ⟨b, s', rfl⟩ := List.exists_cons_of_ne_nil hne
  have hb : p b = false := hhead
  have hend : trimEndBy p (b :: s') = b :: s' := by
    unfold trimEndBy
    rw [← List.head?_reverse] at hlast
    cases hrev : (b :: s').reverse with
    | nil => simp at hrev
    | cons c r =>
      rw [hrev] at hlast
      have hc : p c = false := hlast
      rw [List.dropWhile_cons_of_neg (by simp [hc]), ← hrev, List.reverse_reverse]
  unfold trimBy
  rw [List.takeWhile_append_of_pos hw, List.dropWhile_append_of_pos hw, List.cons_append,
    List.takeWhile_cons_of_neg (by simp [hb]), List.dropWhile_cons_of_neg (by simp [hb]),
    ← List.cons_append, trimEndBy_append _ hw', hend]
  simp

theorem trimBy_eq (p : UInt8 → Bool) (s : Text) :
    ∃ w, s = s.takeWhile p ++ (trimBy p s ++ w) ∧ ∀ b ∈ w, p b = true := by
  obtain ⟨w, hw, hwall⟩ := trimEndBy_eq p (s.dropWhile p)
  refine ⟨w, ?_, hwall⟩
  unfold trimBy
  rw [← hw, List.takeWhile_append_dropWhile]

/-! ## Literals -/

/-- The bytes of numbers and truth values. -/
def isScalar (b : UInt8) : Bool := Byte.isName b || b == Byte.dot || b == Byte.minus

theorem not_special_of_isScalar {b : UInt8} (h : isScalar b = true) :
    Byte.isTabOrSpace b = false ∧ b ≠ Byte.comma ∧ isQuote b = false := by
  have hne : ∀ c, isScalar c = false → b ≠ c := by
    rintro _ hc rfl
    rw [h] at hc
    cases hc
  simp [Byte.isTabOrSpace, isQuote, hne Byte.space rfl, hne Byte.tab rfl, hne Byte.comma rfl,
    hne Byte.doubleQuote rfl, hne Byte.singleQuote rfl]

theorem isScalar_of_isDigit {b : UInt8} (h : Byte.isDigit b = true) : isScalar b = true := by
  simp [isScalar, Byte.isName, Byte.isWord, h]

/-- A minus sign before a number is taken off. -/
theorem exists_unsigned (s : Text) : ∃ sign, s = sign ++ (after? [Byte.minus] s).getD s ∧
    ∀ b ∈ sign, isScalar b = true := by
  cases hafter : after? [Byte.minus] s with
  | none => exact ⟨[], rfl, by simp⟩
  | some t =>
    refine ⟨[Byte.minus], after?_eq_some.mp hafter, ?_⟩
    intro b hb
    rw [List.mem_singleton] at hb
    subst hb
    rfl

theorem isScalar_of_isNumber {s : Text} (h : isNumber s = true) :
    s ≠ [] ∧ ∀ b ∈ s, isScalar b = true := by
  obtain ⟨sign, hs, hsign⟩ := exists_unsigned s
  unfold isNumber at h
  generalize (after? [Byte.minus] s).getD s = t at h hs
  have hsplit := List.takeWhile_append_dropWhile (p := Byte.isDigit) (l := t)
  have hwhole : ∀ b ∈ t.takeWhile Byte.isDigit, isScalar b = true := fun b hb =>
    isScalar_of_isDigit (List.mem_takeWhile_imp hb)
  suffices ht : t ≠ [] ∧ ∀ b ∈ t, isScalar b = true by
    rw [hs]
    refine ⟨by simp [ht.1], fun b hb => ?_⟩
    rcases List.mem_append.mp hb with hb | hb
    · exact hsign b hb
    · exact ht.2 b hb
  cases hdrop : t.dropWhile Byte.isDigit with
  | nil =>
    rw [hdrop, List.append_nil] at hsplit
    rw [hsplit] at hwhole
    simp only [hdrop, hsplit] at h
    exact ⟨by simpa using h, hwhole⟩
  | cons c fraction =>
    simp only [hdrop, Bool.and_eq_true, beq_iff_eq] at h
    obtain ⟨rfl, hdigits⟩ := h
    rw [isDigits, Bool.and_eq_true, List.all_eq_true] at hdigits
    rw [hdrop] at hsplit
    rw [← hsplit]
    refine ⟨by simp, fun b hb => ?_⟩
    rcases List.mem_append.mp hb with hb | hb
    · exact hwhole b hb
    · rcases List.mem_cons.mp hb with rfl | hb
      · rfl
      · exact isScalar_of_isDigit (hdigits.2 b hb)

theorem isQuotedBy_iff {q : UInt8} {s : Text} :
    isQuotedBy q s = true ↔ ∃ c, s = q :: (c ++ [q]) ∧ q ∉ c := by
  constructor
  · intro h
    cases s with
    | nil => cases h
    | cons b rest =>
      simp only [isQuotedBy, Bool.and_eq_true, beq_iff_eq] at h
      obtain ⟨⟨rfl, hlast⟩, hnone⟩ := h
      refine ⟨rest.dropLast, ?_, ?_⟩
      · rw [List.dropLast_append_getLast? b hlast]
      · intro hmem
        have := List.all_eq_true.mp hnone b hmem
        simp at this
  · rintro ⟨c, rfl, hc⟩
    simp only [isQuotedBy, beq_self_eq_true, List.getLast?_concat, List.dropLast_concat,
      Bool.true_and, List.all_eq_true, bne_iff_ne]
    rintro a ha rfl
    exact hc ha

/-- **A literal is a string between quotes, or has neither blanks nor commas nor quotes.** -/
theorem isLiteral_cases {s : Text} (h : isLiteral s = true) :
    (∃ q c, isQuote q = true ∧ s = q :: (c ++ [q]) ∧ q ∉ c) ∨
      (s ≠ [] ∧ ∀ b ∈ s, isScalar b = true) := by
  simp only [isLiteral, Bool.or_eq_true, beq_iff_eq] at h
  rcases h with (((h | h) | h) | rfl) | rfl
  · exact .inr (isScalar_of_isNumber h)
  · obtain ⟨c, hs, hc⟩ := isQuotedBy_iff.mp h
    exact .inl ⟨_, c, rfl, hs, hc⟩
  · obtain ⟨c, hs, hc⟩ := isQuotedBy_iff.mp h
    exact .inl ⟨_, c, rfl, hs, hc⟩
  · exact .inr (by decide +kernel)
  · exact .inr (by decide +kernel)

theorem isTabOrSpace_of_isQuote {q : UInt8} (hq : isQuote q = true) :
    Byte.isTabOrSpace q = false := by
  simp only [isQuote, Bool.or_eq_true, beq_iff_eq] at hq
  rcases hq with rfl | rfl <;> rfl

/-- A literal is not empty, and starts and ends with no blank. -/
theorem isLiteral_ends {s : Text} (h : isLiteral s = true) : s ≠ [] ∧
    s.head?.any Byte.isTabOrSpace = false ∧ s.getLast?.any Byte.isTabOrSpace = false := by
  rcases isLiteral_cases h with ⟨q, c, hq, rfl, _⟩ | ⟨hne, hall⟩
  · have hblank := isTabOrSpace_of_isQuote hq
    rw [← List.cons_append, List.getLast?_concat]
    exact ⟨by simp, hblank, hblank⟩
  · rw [List.head?_eq_some_head hne, List.getLast?_eq_some_getLast hne]
    exact ⟨hne, (not_special_of_isScalar (hall _ (List.head_mem hne))).1,
      (not_special_of_isScalar (hall _ (List.getLast_mem hne))).1⟩

/-- Behind a comma of a literal stands the end of a string. -/
theorem exists_end_of_isLiteral {x y : Text} (h : isLiteral (x ++ Byte.comma :: y) = true) :
    ∃ y' q, y = y' ++ [q] ∧ isQuote q = true ∧ q ∉ y' := by
  rcases isLiteral_cases h with ⟨q, c, hq, heq, hc⟩ | ⟨_, hall⟩
  · have hqcomma : q ≠ Byte.comma := by
      rintro rfl
      cases hq
    cases x with
    | nil =>
      obtain ⟨rfl, _⟩ := List.cons.inj heq
      exact absurd rfl hqcomma
    | cons b x =>
      rw [List.cons_append] at heq
      obtain ⟨rfl, heq⟩ := List.cons.inj heq
      rcases List.eq_nil_or_concat y with rfl | ⟨y', a, rfl⟩
      · obtain ⟨_, hlast⟩ := List.append_inj' heq rfl
        exact absurd (List.cons.inj hlast).1.symm hqcomma
      · rw [List.concat_eq_append, ← List.cons_append, ← List.append_assoc] at heq
        obtain ⟨rfl, hlast⟩ := List.append_inj' heq rfl
        obtain ⟨rfl, _⟩ := List.cons.inj hlast
        refine ⟨y', a, List.concat_eq_append, hq, fun hmem => hc ?_⟩
        exact List.mem_append_right _ (List.mem_cons_of_mem _ hmem)
  · exact absurd rfl (not_special_of_isScalar (hall Byte.comma (by simp))).2.1

/-- The end of a string is no literal, with or without blanks around it. -/
theorem not_isLiteral_end {y w : Text} {q : UInt8} (hq : isQuote q = true) (hy : q ∉ y)
    (hw : ∀ b ∈ w, Byte.isTabOrSpace b = true) :
    isLiteral (trimBy Byte.isTabOrSpace (y ++ [q] ++ w)) = false := by
  have hblank := isTabOrSpace_of_isQuote hq
  have hsplit : y = y.takeWhile Byte.isTabOrSpace ++ y.dropWhile Byte.isTabOrSpace :=
    List.takeWhile_append_dropWhile.symm
  have hy' : q ∉ y.dropWhile Byte.isTabOrSpace := fun hmem =>
    hy (List.dropWhile_subset _ hmem)
  have hhead : (y.dropWhile Byte.isTabOrSpace ++ [q]).head?.any Byte.isTabOrSpace = false := by
    cases hdrop : y.dropWhile Byte.isTabOrSpace with
    | nil => exact hblank
    | cons b r =>
      have hb := List.head_dropWhile_not Byte.isTabOrSpace (l := y) (by rw [hdrop]; simp)
      simpa [hdrop] using hb
  have htrim : trimBy Byte.isTabOrSpace (y ++ [q] ++ w) = y.dropWhile Byte.isTabOrSpace ++ [q] := by
    have hpass : ∀ b ∈ y.takeWhile Byte.isTabOrSpace, Byte.isTabOrSpace b = true :=
      fun b hb => List.mem_takeWhile_imp hb
    have hframe := (trimBy_frame hpass hw (by simp) hhead
      (by rw [List.getLast?_concat]; exact hblank)).2
    rwa [← List.append_assoc, ← List.append_assoc, ← hsplit] at hframe
  rw [htrim, Bool.eq_false_iff]
  generalize y.dropWhile Byte.isTabOrSpace = y at hy'
  intro hlit
  rcases isLiteral_cases hlit with ⟨q', c, _, heq, _⟩ | ⟨_, hall⟩
  · rw [← List.cons_append] at heq
    obtain ⟨rfl, hlast⟩ := List.append_inj' heq rfl
    obtain ⟨rfl, _⟩ := List.cons.inj hlast
    exact hy' List.mem_cons_self
  · rw [(not_special_of_isScalar (hall q (by simp))).2.2] at hq
    cases hq

end Text

namespace Pass

open Text (IsBasic)

/-! ## Setter calls -/

/-- How a text is written: byte by byte, or with a stray byte for a replacement character. -/
inductive Reads : Text → Text → Prop
  | nil : Reads [] []
  | byte (b : UInt8) {pat t : Text} : Reads pat t → Reads (b :: pat) (b :: t)
  | stray (b : UInt8) {pat t : Text} : Text.Utf8.decode? (b :: t) = none → Reads pat t →
      Reads (0xEF :: 0xBF :: 0xBD :: pat) (b :: t)

/-- What is found is written so, if no character goes on behind it. -/
theorem reads_of_literal? {pat s : Text} {n : Nat} (h : Text.literal? pat s = some n)
    (hnext : ∃ q rest, s.drop n = q :: rest ∧ IsBasic q) : Reads pat (s.take n) := by
  fun_induction Text.literal? pat s generalizing n with
  | case1 =>
    cases h
    exact .nil
  | case2 pat s ih =>
    obtain ⟨k, hk, rfl⟩ := Option.map_eq_some_iff.mp h
    exact .byte _ (.byte _ (.byte _ (ih hk hnext)))
  | case3 pat b s _ hstray ih =>
    obtain ⟨k, hk, rfl⟩ := Option.map_eq_some_iff.mp h
    obtain ⟨q, rest, hrest, hq⟩ := hnext
    rw [List.drop_succ_cons] at hrest
    refine .stray b ?_ (ih hk ⟨q, rest, hrest, hq⟩)
    have hcut := Text.decode?_append hq b (s.take k) rest
    rw [← hrest, List.take_append_drop, Option.isNone_iff_eq_none.mp hstray] at hcut
    exact hcut.symm
  | case4 => cases h
  | case5 => cases h
  | case6 a pat b s _ hab ih =>
    obtain ⟨k, hk, rfl⟩ := Option.map_eq_some_iff.mp h
    rw [beq_iff_eq] at hab
    subst hab
    exact .byte _ (ih hk hnext)
  | case7 => cases h
  | case8 => cases h

/-- A text up to the opening parenthesis of a setter call. -/
def EndsInCall (setters : List Text) (front : Text) : Prop :=
  ∃ setter ∈ setters, ∃ u t gap, front = u ++ Byte.dot :: (t ++ (gap ++ [Byte.openParen])) ∧
    Reads setter t ∧ ∀ b ∈ gap, Byte.isGap b = true

theorem setterCall_eq_some {setters : List Text} {before : Option UInt8} {r : Text} {n : Nat}
    {a : Unit} (h : setterCall setters before r = some (n, a)) :
    n ≤ r.length ∧ EndsInCall setters (r.take n) := by
  simp only [setterCall, Option.bind_eq_bind, Option.bind_eq_some_iff] at h
  obtain ⟨s, hs, h⟩ := h
  obtain ⟨setter, hsetter, h⟩ := List.exists_of_findSome?_eq_some h
  simp only [Option.bind_eq_some_iff] at h
  obtain ⟨k, hk, args, hargs, hn⟩ := h
  have hr : r = Byte.dot :: s := Text.after?_eq_some.mp hs
  have hrest : (s.drop k).dropWhile Byte.isGap = Byte.openParen :: args :=
    Text.after?_eq_some.mp hargs
  obtain ⟨rfl, _⟩ := Prod.mk.inj (Option.some.inj hn)
  have hgap : ∀ b ∈ (s.drop k).takeWhile Byte.isGap, Byte.isGap b = true :=
    fun b hb => List.mem_takeWhile_imp hb
  have hdrop : s.drop k = (s.drop k).takeWhile Byte.isGap ++ Byte.openParen :: args := by
    rw [← hrest, List.takeWhile_append_dropWhile]
  generalize (s.drop k).takeWhile Byte.isGap = gap at hgap hdrop
  have hnext : ∃ q rest, s.drop k = q :: rest ∧ IsBasic q := by
    rw [hdrop]
    cases gap with
    | nil => exact ⟨_, _, rfl, by decide⟩
    | cons b gap =>
      refine ⟨b, _, rfl, ?_⟩
      rcases Text.isGap_cases (hgap b List.mem_cons_self) with rfl | rfl | rfl | rfl | rfl <;>
        decide
  have hsplit : r = (Byte.dot :: (s.take k ++ (gap ++ [Byte.openParen]))) ++ args := by
    rw [hr, ← List.take_append_drop k s, hdrop]
    simp [Nat.min_eq_left (Text.literal?_le hk)]
  refine ⟨Nat.sub_le _ _, setter, hsetter, [], s.take k, gap, ?_, reads_of_literal? hk hnext, hgap⟩
  have hlen : r.length - args.length =
      (Byte.dot :: (s.take k ++ (gap ++ [Byte.openParen]))).length := by
    rw [hsplit, List.length_append]
    omega
  rw [hlen, hsplit, List.take_left]
  rfl

/-- A search for a setter call cuts the line behind its parenthesis. -/
theorem endsInCall_of_find? {setters : List Text} {line : Text} {hit : Text.Hit Unit}
    (h : Text.find? .char (setterCall setters) line = some hit) :
    hit.stop ≤ line.length ∧ EndsInCall setters (line.take hit.stop) := by
  obtain ⟨u, r, n, rfl, hr, hstart, hstop⟩ :=
    Text.mem_findAllFrom .char (setterCall setters) line hit (List.mem_of_head? h)
  obtain ⟨hle, setter, hsetter, u', t, gap, htake, hreads⟩ := setterCall_eq_some hr
  rw [Nat.zero_add] at hstart
  rw [hstop, hstart, List.length_append, List.take_length_add_append]
  refine ⟨by omega, setter, hsetter, u ++ u', t, gap, ?_, hreads⟩
  rw [htake, List.append_assoc]

/-! ## The setting of a line -/

theorem lastIndex?_append {b : UInt8} (x : Text) {y : Text} (hy : b ∉ y) :
    lastIndex? b (x ++ b :: y) = some x.length := by
  rw [lastIndex?, Text.cutLast_append x hy]
  rfl

theorem lastIndex?_eq_some {b : UInt8} {s : Text} {n : Nat} (h : lastIndex? b s = some n) :
    ∃ x y, s = x ++ b :: y ∧ b ∉ y ∧ n = x.length := by
  obtain ⟨⟨x, y⟩, hcut, rfl⟩ := Option.map_eq_some_iff.mp h
  obtain ⟨hs, hy⟩ := Text.cutLast_eq_some hcut
  exact ⟨x, y, hs, hy, rfl⟩

/-- The setting of a key to the value that stands behind a text. -/
def Setting.behind (front key value : Text) : Setting :=
  ⟨key, value, front.length, front.length + value.length⟩

section Line

variable {setters : List Text} {ignored : Text → Bool} {line call args argument rest : Text}

/-- A line cut behind its first setter call, at its last parenthesis, and at the last comma between
the two. -/
structure Cuts (setters : List Text) (line call args argument rest : Text) : Prop where
  line_eq : line = call ++ (args ++ Byte.comma :: (argument ++ Byte.closeParen :: rest))
  call : ∃ hit, Text.find? .char (setterCall setters) line = some hit ∧ hit.stop = call.length
  comma : Byte.comma ∉ argument
  paren : Byte.closeParen ∉ rest

/-- **The setting of a line that is cut.** -/
theorem setting?_eq (h : Cuts setters line call args argument rest) :
    setting? setters ignored line = (Text.firstQuoted? args).bind fun key =>
      if key == [] || ignored key || !Text.isLiteral (Text.trimBy Byte.isTabOrSpace argument) then
        none
      else some (.behind (call ++ (args ++ Byte.comma :: argument.takeWhile Byte.isTabOrSpace)) key
        (Text.trimBy Byte.isTabOrSpace argument)) := by
  obtain ⟨hit, hhit, hstop⟩ := h.call
  have hparen : lastIndex? Byte.closeParen line =
      some (call ++ (args ++ Byte.comma :: argument)).length := by
    rw [← lastIndex?_append _ h.paren, h.line_eq]
    simp
  have htake : line.take (call ++ (args ++ Byte.comma :: argument)).length =
      call ++ args ++ Byte.comma :: argument := by
    have hcut : line = call ++ (args ++ Byte.comma :: argument) ++ Byte.closeParen :: rest := by
      rw [h.line_eq]
      simp
    rw [hcut, List.take_left, List.append_assoc]
  have hcomma := lastIndex?_append (call ++ args) h.comma
  have hargs : (line.take (call ++ args).length).drop call.length = args := by
    have hcut : line = call ++ args ++ Byte.comma :: (argument ++ Byte.closeParen :: rest) := by
      rw [h.line_eq]
      simp
    rw [hcut, List.take_left, List.drop_left]
  have hargument : (call ++ args ++ Byte.comma :: argument).drop ((call ++ args).length + 1) =
      argument := by
    rw [← List.drop_drop, List.drop_left]
    rfl
  have hinside : ((call ++ (args ++ Byte.comma :: argument)).length < call.length ||
      (call ++ args).length < call.length) = false := by
    simp only [List.length_append, Bool.or_eq_false_iff, decide_eq_false_iff_not]
    omega
  have hstart : (call ++ args).length + 1 + (argument.takeWhile Byte.isTabOrSpace).length =
      (call ++ (args ++ Byte.comma :: argument.takeWhile Byte.isTabOrSpace)).length := by
    simp only [List.length_append, List.length_cons]
    omega
  unfold setting? Setting.behind
  simp only [hhit, hparen, htake, hcomma, hstop, hinside, hargs, hargument, hstart,
    Option.bind_eq_bind, Option.bind_some, Bool.false_eq_true, if_false]

/-- Every line with a setting can be cut. -/
theorem exists_cuts {x : Setting} (h : setting? setters ignored line = some x) :
    ∃ call args argument rest, Cuts setters line call args argument rest := by
  unfold setting? at h
  simp only [Option.bind_eq_bind, Option.bind_eq_some_iff] at h
  obtain ⟨hit, hhit, paren, hparen, comma, hcomma, h⟩ := h
  split at h
  · cases h
  · rename_i hinside
    simp only [Bool.or_eq_true, decide_eq_true_eq, not_or, Nat.not_lt] at hinside
    obtain ⟨front, rest, hline, hrest, rfl⟩ := lastIndex?_eq_some hparen
    rw [hline, List.take_left] at hcomma
    obtain ⟨before, argument, hfront, hargument, rfl⟩ := lastIndex?_eq_some hcomma
    refine ⟨before.take hit.stop, before.drop hit.stop, argument, rest, ?_, ⟨hit, hhit, ?_⟩,
      hargument, hrest⟩
    · rw [← List.append_assoc, List.take_append_drop, hline, hfront]
      simp
    · rw [List.length_take, Nat.min_eq_left hinside.2]

/-- The parts of a line around the value of a setting: a setter call with the key before the last
comma, and blanks before the last parenthesis.  The value is a literal without commas. -/
structure Sets (setters : List Text) (ignored : Text → Bool) (front key value back : Text) :
    Prop where
  call : ∃ call args w, front = call ++ (args ++ Byte.comma :: w) ∧ EndsInCall setters call ∧
    Text.firstQuoted? args = some key ∧ ∀ b ∈ w, Byte.isTabOrSpace b = true
  key_ne_nil : key ≠ []
  key_not_ignored : ignored key = false
  literal : Text.isLiteral value = true
  comma : Byte.comma ∉ value
  closing : ∃ w rest, back = w ++ Byte.closeParen :: rest ∧ (∀ b ∈ w, Byte.isTabOrSpace b = true) ∧
    Byte.closeParen ∉ rest

/-- **What the setting of a line is, and where it stands.** -/
theorem sets_of_setting? {x : Setting} (h : setting? setters ignored line = some x) :
    ∃ front key value back, x = .behind front key value ∧ line = front ++ (value ++ back) ∧
      Sets setters ignored front key value back := by
  obtain ⟨call, args, argument, rest, hcuts⟩ := exists_cuts h
  rw [setting?_eq hcuts, Option.bind_eq_some_iff] at h
  obtain ⟨key, hkey, h⟩ := h
  obtain ⟨w, hargument, hw⟩ := Text.trimBy_eq Byte.isTabOrSpace argument
  have hblanks : ∀ b ∈ argument.takeWhile Byte.isTabOrSpace, Byte.isTabOrSpace b = true :=
    fun b hb => List.mem_takeWhile_imp hb
  split at h
  · cases h
  · rename_i hcond
    simp only [Bool.or_eq_true, beq_iff_eq, Bool.not_eq_true', not_or, Bool.not_eq_true,
      Bool.not_eq_false] at hcond
    cases h
    obtain ⟨hit, hhit, hstop⟩ := hcuts.call
    have hcall := (endsInCall_of_find? hhit).2
    rw [hstop, hcuts.line_eq, List.take_left] at hcall
    have hcomma : Byte.comma ∉ Text.trimBy Byte.isTabOrSpace argument := fun hmem => by
      refine hcuts.comma ?_
      rw [hargument]
      simp [hmem]
    refine ⟨_, key, _, w ++ Byte.closeParen :: rest, rfl, ?_, ?_⟩
    · conv_lhs => rw [hcuts.line_eq, hargument]
      simp
    · exact ⟨⟨call, args, _, rfl, hcall, hkey, hblanks⟩, hcond.1.1, hcond.1.2, hcond.2, hcomma,
        w, rest, rfl, hw, hcuts.paren⟩

/-- **A literal is the value of a setting exactly if it has no comma.**  Else the end of a string
stands behind the last comma, and the line has no setting at all. -/
theorem setting?_literal {w lit w' key : Text} {hit : Text.Hit Unit}
    (hhit : Text.find? .char (setterCall setters) (call ++ (args ++ Byte.comma ::
      (w ++ (lit ++ (w' ++ Byte.closeParen :: rest))))) = some hit) (hstop : hit.stop = call.length)
    (hw : ∀ b ∈ w, Byte.isTabOrSpace b = true) (hw' : ∀ b ∈ w', Byte.isTabOrSpace b = true)
    (hlit : Text.isLiteral lit = true) (hrest : Byte.closeParen ∉ rest)
    (hkey : Text.firstQuoted? args = some key) (hne : key ≠ []) (hignored : ignored key = false) :
    setting? setters ignored (call ++ (args ++ Byte.comma ::
        (w ++ (lit ++ (w' ++ Byte.closeParen :: rest))))) =
      if Byte.comma ∈ lit then none
      else some (.behind (call ++ (args ++ Byte.comma :: w)) key lit) := by
  have hblank : ∀ {x : Text}, (∀ b ∈ x, Byte.isTabOrSpace b = true) → Byte.comma ∉ x :=
    fun hx hmem => by cases hx _ hmem
  split
  · rename_i hcomma
    -- the line is cut inside of the string
    obtain ⟨x, c, y, rfl, hc, hy⟩ := exists_last (p := (· == Byte.comma)) ⟨_, hcomma, by simp⟩
    obtain rfl : c = Byte.comma := by simpa using hc
    obtain ⟨y', q, rfl, hq, hqy⟩ := Text.exists_end_of_isLiteral hlit
    have hcuts : Cuts setters (call ++ (args ++ Byte.comma ::
        (w ++ (x ++ Byte.comma :: (y' ++ [q]) ++ (w' ++ Byte.closeParen :: rest))))) call
        (args ++ Byte.comma :: (w ++ x)) (y' ++ [q] ++ w') rest := by
      refine ⟨by simp, ⟨hit, hhit, hstop⟩, fun hmem => ?_, hrest⟩
      rcases List.mem_append.mp hmem with hmem | hmem
      · simpa using hy _ hmem
      · exact hblank hw' hmem
    rw [setting?_eq hcuts, Text.not_isLiteral_end hq hqy hw']
    cases Text.firstQuoted? (args ++ Byte.comma :: (w ++ x)) <;> simp
  · rename_i hcomma
    obtain ⟨hlitne, hhead, hlast⟩ := Text.isLiteral_ends hlit
    obtain ⟨htake, htrim⟩ := Text.trimBy_frame hw hw' hlitne hhead hlast
    have hcuts : Cuts setters (call ++ (args ++ Byte.comma ::
        (w ++ (lit ++ (w' ++ Byte.closeParen :: rest))))) call args (w ++ (lit ++ w')) rest := by
      refine ⟨by simp, ⟨hit, hhit, hstop⟩, ?_, hrest⟩
      simp [hblank hw, hblank hw', hcomma]
    rw [setting?_eq hcuts, hkey, Option.bind_some, htake, htrim]
    simp [hne, hignored, hlit]

end Line

end Pass

end ActionLog
