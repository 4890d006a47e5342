import ActionLog.Pass.CodeCall
import ActionLog.Proofs.Inline

/-!
# Strings and inlined variables

A string goes from a quote to the next quote of its kind.  Where strings are closed on their lines
and nothing is passed inside of one, inlining puts values between strings only, and what stood in
a string stays in it.

* `openQuote` — the string that is open at the end of a text;
* `Sealed` — a text that closes its strings and passes no declared variable inside of one;
* `LineInlined.openQuote_eq` — a line opens and closes the strings that it did;
* `Sealed.origin` — a word of the new line stands in a string if it did where it comes from.

Principal results: `Sealed.valueOf` and `Sealed.inlined` — the value of a sealed line is sealed, and
so is a sealed line with a sealed value put in.
-/

set_option autoImplicit false

namespace ActionLog.Pass

open Declaration (isDeclaration nameOf valueOf)
open Text (IsRun Bare WordIn isMark isWhite)

/-! ## Open strings -/

/-- The quote of the string that is open behind a byte, when `q` was open before it. -/
def quoteAfter (q : Option UInt8) (b : UInt8) : Option UInt8 :=
  if isQuote b then
    match q with
    | none => some b
    | some c => if b = c then none else some c
  else q

/-- The quote of the string that is open behind a text, when `q` was open before it. -/
def openQuote (q : Option UInt8) (s : Text) : Option UInt8 := s.foldl quoteAfter q

theorem openQuote_cons (q : Option UInt8) (b : UInt8) (s : Text) :
    openQuote q (b :: s) = openQuote (quoteAfter q b) s := rfl

theorem openQuote_append (q : Option UInt8) (s t : Text) :
    openQuote q (s ++ t) = openQuote (openQuote q s) t := List.foldl_append

theorem quoteAfter_other {b : UInt8} (h : isQuote b = false) (q : Option UInt8) :
    quoteAfter q b = q := by
  simp [quoteAfter, h]

/-- Text without quotes neither opens nor closes a string. -/
theorem openQuote_plain {s : Text} (h : ∀ b ∈ s, isQuote b = false) (q : Option UInt8) :
    openQuote q s = q := by
  induction s with
  | nil => rfl
  | cons b s ih =>
    rw [List.forall_mem_cons] at h
    rw [openQuote_cons, quoteAfter_other h.1, ih h.2]

theorem quoteAfter_open {q : UInt8} (hq : isQuote q = true) : quoteAfter none q = some q := by
  simp [quoteAfter, hq]

theorem quoteAfter_close {q : UInt8} (hq : isQuote q = true) : quoteAfter (some q) q = none := by
  simp [quoteAfter, hq]

/-- A string that is open stays so up to the next quote of its kind. -/
theorem openQuote_some {q : UInt8} {s : Text} (hs : q ∉ s) : openQuote (some q) s = some q := by
  induction s with
  | nil => rfl
  | cons b s ih =>
    rw [List.mem_cons, not_or] at hs
    have hafter : quoteAfter (some q) b = some q := by
      unfold quoteAfter
      split
      · exact if_neg (Ne.symm hs.1)
      · rfl
    rw [openQuote_cons, hafter]
    exact ih hs.2

theorem isQuote_of_not_mark {b : UInt8} (h : isMark b = false) : isQuote b = false := by
  by_contra hb
  simp only [isQuote, Bool.not_eq_false, Bool.or_eq_true, beq_iff_eq] at hb
  rcases hb with rfl | rfl <;> cases h

theorem openQuote_run {m : Text} (hm : IsRun m) (q : Option UInt8) : openQuote q m = q :=
  openQuote_plain (fun b hb => isQuote_of_not_mark (Text.isMark_of_isName (hm b hb))) q

/-! ## Uses outside of strings -/

/-- Every use of `m` on the rest `l` of a line stands outside of strings, when `q` is open before
it and the text `k` follows it. -/
def Shown (m k : Text) (before q : Option UInt8) (l : Text) : Prop :=
  ∀ u v, l = u ++ m ++ v → (u.getLast?.or before).any Byte.isName = false →
    passed (v ++ k) = true → openQuote q u = none

section Shown

variable {m k s t l o value : Text} {before q : Option UInt8}

theorem Shown.front (h : Shown m k before q (s ++ t)) : Shown m (t ++ k) before q s := by
  intro u v hs hu hpassed
  exact h u (v ++ t) (by simp [hs]) hu (by simpa using hpassed)

theorem Shown.back (h : Shown m k before q (s ++ t)) :
    Shown m k (s.getLast?.or before) (openQuote q s) t := by
  intro u v ht hu hpassed
  rw [← openQuote_append]
  refine h (s ++ u) v (by simp [ht]) ?_ hpassed
  rw [List.getLast?_append, Option.or_assoc]
  exact hu

/-- **A line opens and closes the strings that it did.** -/
theorem LineInlined.openQuote_eq (h : LineInlined m value k before l o) (hne : m ≠ [])
    (hm : IsRun m) (hvalue : openQuote none value = none) (hshown : Shown m k before q l) :
    openQuote q o = openQuote q l := by
  induction h generalizing q with
  | nil => rfl
  | @keep before b s o _ _ ih =>
    rw [openQuote_cons, openQuote_cons]
    exact ih (Shown.back (s := [b]) hshown)
  | @put before s o huse _ ih =>
    have hq : q = none := hshown [] s rfl huse.1 huse.next
    have hrest := hshown.back
    rw [Text.getLast?_or_of_ne_nil hne] at hrest
    rw [openQuote_append, openQuote_append, ← ih hrest, hq, hvalue, openQuote_run hm]

/-- What comes next inside of a string came next before. -/
theorem LineInlined.passed_in (h : LineInlined m value k before l o)
    (hshown : Shown m k before q l) (hq : q ≠ none) (ho : passed o = true) : passed l = true := by
  induction h with
  | nil => exact ho
  | @keep before b s o _ _ ih =>
    by_cases hb : Byte.isGap b = true
    · rw [passed_gap hb] at ho ⊢
      have hrest := Shown.back (s := [b]) hshown
      rw [openQuote_cons, quoteAfter_other (isQuote_of_not_mark (Text.isMark_of_isGap hb))] at hrest
      exact ih hrest ho
    · rw [Bool.not_eq_true] at hb
      rw [passed_other hb] at ho ⊢
      exact ho
  | @put before s o huse _ _ => exact absurd (hshown [] s rfl huse.1 huse.next) hq

end Shown

/-! ## Sealed texts -/

/-- The text closes its strings, and no declared name is passed inside of one. -/
structure Sealed (declared : List Text) (t : Text) : Prop where
  closed : openQuote none t = none
  shown : ∀ m ∈ declared, ∀ u v, t = u ++ m ++ v → u.getLast?.any Byte.isName = false →
    passed v = true → openQuote none u = none

section Sealed

variable {declared : List Text} {m n value k l o u v : Text}

/-- On a sealed line no use stands inside of a string, whatever follows the line: a name at the end
of the line stands behind all strings. -/
theorem Sealed.uses (h : Sealed declared l) (hmem : m ∈ declared) (hm : IsRun m) (k : Text) :
    Shown m k none none l := by
  intro u v hl hu hpassed
  rw [Option.or_none] at hu
  rcases passed_or_gaps hpassed with hv | hgaps
  · exact h.shown m hmem u v hl hu hv
  · have hclosed := h.closed
    rw [hl, openQuote_append, openQuote_append, openQuote_run hm, openQuote_plain] at hclosed
    · exact hclosed
    · exact fun b hb => isQuote_of_not_mark (Text.isMark_of_isGap (hgaps b hb))

/-- **A word of the new line stands in a string if it does where it comes from**: in the old line or
in the value. -/
theorem Sealed.origin (hl : Sealed declared l) (hvalue : openQuote none value = none)
    (hruns : ∀ x ∈ declared, x ≠ [] ∧ IsRun x) (hm : m ∈ declared) (hn : n ∈ declared)
    (line : LineInlined m value k none l o) (ho : WordIn n o u v) :
    (∃ u' v', WordIn n l u' v' ∧ openQuote none u' = openQuote none u ∧
      (m = n → passed (v' ++ k) = false) ∧ LineInlined m value k n.getLast? v' v) ∨
    ∃ a b w, WordIn n value a b ∧ openQuote none a = openQuote none u ∧ v = b ++ w := by
  obtain ⟨hmne, hmrun⟩ := hruns m hm
  obtain ⟨hnne, hnrun⟩ := hruns n hn
  have huses := hl.uses hm hmrun k
  cases line.origin hmne hmrun hnne hnrun ho.split (by rw [Option.or_none]; exact ho.before)
    ho.behind with
  | @kept u' v' split start behind idle front back =>
    rw [Option.or_none] at start
    refine .inl ⟨u', v', ⟨split, start, behind⟩, ?_, idle, back⟩
    rw [split, List.append_assoc] at huses
    exact (front.openQuote_eq hmne hmrun hvalue huses.front).symm
  | @put p p' s a b w split start next front front_eq word back_eq =>
    refine .inr ⟨a, b, w, word, ?_, back_eq⟩
    have hput : openQuote none p' = none := huses p' s split start next
    rw [split, List.append_assoc] at huses
    rw [front_eq, openQuote_append, front.openQuote_eq hmne hmrun hvalue huses.front, hput]

/-- **A sealed line with a sealed value put in is sealed.** -/
theorem Sealed.inlined (hl : Sealed declared l) (hvalue : Sealed declared value)
    (hruns : ∀ x ∈ declared, x ≠ [] ∧ IsRun x) (hm : m ∈ declared)
    (line : LineInlined m value k none l o) : Sealed declared o := by
  obtain ⟨hmne, hmrun⟩ := hruns m hm
  refine ⟨?_, fun n hn u v ho hu hv => ?_⟩
  · rw [line.openQuote_eq hmne hmrun hvalue.closed (hl.uses hm hmrun k)]
    exact hl.closed
  · obtain ⟨hnne, hnrun⟩ := hruns n hn
    rcases hl.origin hvalue.closed hruns hm hn line ⟨ho, hu, bare_of_passed hv⟩ with
      ⟨u', v', hword, hquote, _, back⟩ | ⟨a, b, w, hword, hquote, rfl⟩
    · -- a name inside of a string is passed only where it was passed before
      by_contra hq
      rw [← hquote] at hq
      have huses := hl.uses hm hmrun k
      rw [hword.split] at huses
      have hback := huses.back
      rw [openQuote_append, openQuote_run hnrun, List.getLast?_append, Option.or_none,
        Text.getLast?_or_of_ne_nil hnne] at hback
      exact hq (hl.shown n hn u' v' hword.split hword.before (back.passed_in hback hq hv))
    · rw [← hquote]
      exact hvalue.uses hn hnrun w a b hword.split
        (by rw [Option.or_none]; exact hword.before) hv

end Sealed

/-! ## Values -/

/-- Where the value of a line stands: no quote is outside of it, and nothing is passed behind it. -/
structure ValueFrame (line x y : Text) : Prop where
  split : line = x ++ valueOf line ++ y
  front : ∀ b ∈ x, isQuote b = false
  back : ∀ b ∈ y, isQuote b = false
  before : x.getLast?.any Byte.isName = false
  behind : Bare y
  idle : ∀ k, passed (y ++ k) = false

theorem exists_valueFrame {line : Text} (hnew : Byte.newline ∉ line)
    (hline : isDeclaration line = true) (hname : nameOf line ≠ []) (hrun : IsRun (nameOf line)) :
    ∃ x y, ValueFrame line x y := by
  obtain ⟨_, _, hsplit⟩ := Declaration.exists_nameSplit hline rfl hname hrun
  have hequals : Byte.equals ∈ line := by
    rw [hsplit.line_eq]
    simp
  obtain ⟨x, w, w', htail, hx, hw, hw'⟩ := Declaration.exists_valueSplit hnew hline hequals
  have hwhite : ∀ s : Text, (∀ b ∈ s, isWhite b = true) → ∀ b ∈ s, isQuote b = false :=
    fun s hs b hb => isQuote_of_not_mark (Text.white_bytes (hs b hb)).2
  refine ⟨Declaration.head line ++ Byte.equals :: x, w ++ Byte.semicolon :: w', ?_, ?_, ?_, ?_, ?_, ?_⟩
  · conv_lhs => rw [hsplit.line_eq, htail]
    simp
  · intro b hb
    rcases List.mem_append.mp hb with hb | hb
    · exact isQuote_of_not_mark (hsplit.plain b hb)
    · rcases List.mem_cons.mp hb with rfl | hb
      · rfl
      · exact hwhite x hx b hb
  · intro b hb
    rcases List.mem_append.mp hb with hb | hb
    · exact hwhite w hw b hb
    · rcases List.mem_cons.mp hb with rfl | hb
      · rfl
      · exact hwhite w' hw' b hb
  · rw [List.getLast?_append, ← Option.or_none (o := (Byte.equals :: x).getLast?),
      Text.getLast?_cons_or]
    cases hlast : x.getLast? with
    | none => rfl
    | some c => exact (Text.white_bytes (hx c (List.mem_of_getLast? hlast))).1
  · cases w with
    | nil => rfl
    | cons c w => exact (Text.white_bytes (hw c List.mem_cons_self)).1
  · intro k
    rw [List.append_assoc, List.cons_append]
    exact not_passed (fun c hc => (Text.white_bytes (hw c hc)).2) rfl (by decide) _

section ValueFrame

variable {line x y n a b : Text}

/-- A word of the value is a word of the line. -/
theorem ValueFrame.word (h : ValueFrame line x y) (hword : WordIn n (valueOf line) a b) :
    WordIn n line (x ++ a) (b ++ y) := by
  refine ⟨?_, ?_, Text.bare_append hword.behind h.behind⟩
  · rw [h.split, hword.split]
    simp
  · rw [List.getLast?_append]
    cases hlast : a.getLast? with
    | none => exact h.before
    | some c =>
      have hbefore := hword.before
      rw [hlast] at hbefore
      exact hbefore

theorem ValueFrame.openQuote_eq (h : ValueFrame line x y) (q : Option UInt8) (s : Text) :
    openQuote q (x ++ s) = openQuote q s := by
  rw [openQuote_append, openQuote_plain h.front]

/-- **The value of a sealed line is sealed.** -/
theorem Sealed.valueOf {declared : List Text} (hline : Sealed declared line)
    (h : ValueFrame line x y) : Sealed declared (valueOf line) := by
  refine ⟨?_, fun m hmem u v hvalue hu hv => ?_⟩
  · have hclosed := hline.closed
    rw [h.split, openQuote_append, h.openQuote_eq, openQuote_plain h.back] at hclosed
    exact hclosed
  · have hword := h.word ⟨hvalue, hu, bare_of_passed hv⟩
    rw [← h.openQuote_eq]
    exact hline.shown m hmem _ _ hword.split hword.before (passed_left hv y)

end ValueFrame

end ActionLog.Pass
