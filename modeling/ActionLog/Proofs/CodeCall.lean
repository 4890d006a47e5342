import ActionLog.Proofs.Draft
import ActionLog.Proofs.Encoding
import ActionLog.Proofs.Literal
import ActionLog.Proofs.Resolver

/-!
# Calls on codes in a text

* `CodeCall.text`, `CodeCall.WellFormed` — a call as it stands in a text; `of_codeCall` and
  `codeCall_text` say that the search finds such calls and nothing else;
* `of_takeCode?`, `takeCode?_append` — a code has four characters, read as in UTF-8, a stray byte
  counting as one;
* `CodeCall.WellFormed.word_inside` — a word that starts inside of a call stands in its string, so
  that no call starts inside of another one.
-/

set_option autoImplicit false

namespace ActionLog.Pass

open Text

/-! ## Calls in a text -/

/-- The function that is called on codes. -/
def codeFunction : Text := utf8 "charIDToTypeID"

/-- The function that is called on identifiers. -/
def identifierFunction : Text := utf8 "stringIDToTypeID"

/-- Bytes that a code may hold. -/
def isCodeByte (b : UInt8) : Bool := !(isQuote b || b == Byte.newline)

namespace CodeCall

/-- A function called on a string, with the spacing and quotes of the call. -/
def wrap (c : CodeCall) (name body : Text) : Text :=
  name ++ c.opening ++ [c.openQuote] ++ body ++ [c.closeQuote] ++ c.closing

/-- The call as it stands in a text. -/
def text (c : CodeCall) : Text := c.wrap codeFunction c.code

/-- The bytes of a call, read as such: parentheses with blanks around them, quotes, and a code of
four characters. -/
structure WellFormed (c : CodeCall) : Prop where
  opening : ∃ g g' : Text, (∀ b ∈ g, Byte.isGap b = true) ∧ (∀ b ∈ g', Byte.isGap b = true) ∧
    c.opening = g ++ [Byte.openParen] ++ g'
  openQuote : isQuote c.openQuote = true
  code : ∀ b ∈ c.code, isCodeByte b = true
  four : (pieces c.code).length = 4
  closeQuote : isQuote c.closeQuote = true
  closing : ∃ g : Text, (∀ b ∈ g, Byte.isGap b = true) ∧ c.closing = g ++ [Byte.closeParen]

end CodeCall

theorem takeParen?_eq_some {paren : UInt8} (hparen : Byte.isGap paren = false) {s x t : Text} :
    takeParen? paren s = some (x, t) ↔
      ∃ g : Text, (∀ b ∈ g, Byte.isGap b = true) ∧ x = g ++ [paren] ∧ s = x ++ t := by
  unfold takeParen?
  constructor
  · intro h
    obtain ⟨rest, hrest, hx⟩ := Option.bind_eq_some_iff.mp h
    cases hx
    refine ⟨s.takeWhile Byte.isGap, fun b hb => List.mem_takeWhile_imp hb, rfl, ?_⟩
    rw [List.append_assoc, ← after?_eq_some.mp hrest, List.takeWhile_append_dropWhile]
  · rintro ⟨g, hg, rfl, rfl⟩
    have hdrop : (g ++ [paren] ++ t).dropWhile Byte.isGap = [paren] ++ t := by
      rw [List.append_assoc, List.dropWhile_append_of_pos hg]
      simp [hparen]
    have htake : (g ++ [paren] ++ t).takeWhile Byte.isGap = g := by
      rw [List.append_assoc, List.takeWhile_append_of_pos hg]
      simp [hparen]
    rw [hdrop, htake, after?_append]
    rfl

theorem takeQuote?_eq_some {s t : Text} {q : UInt8} :
    takeQuote? s = some (q, t) ↔ s = q :: t ∧ isQuote q = true := by
  cases s with
  | nil => simp [takeQuote?]
  | cons b s =>
    simp only [takeQuote?, Option.ite_none_right_eq_some, Option.some.injEq, Prod.mk.injEq,
      List.cons.injEq]
    constructor
    · rintro ⟨hb, rfl, rfl⟩
      exact ⟨⟨rfl, rfl⟩, hb⟩
    · rintro ⟨⟨rfl, rfl⟩, hb⟩
      exact ⟨hb, rfl, rfl⟩

theorem isCodeByte_of_le {b : UInt8} (hb : 128 ≤ b.toNat) : isCodeByte b = true := by
  by_contra h
  have hbasic : IsBasic b := by
    simp only [isCodeByte, Bool.not_eq_true, Bool.not_eq_false', Bool.or_eq_true, beq_iff_eq] at h
    rcases h with hquote | rfl
    · exact isBasic_of_isQuote hquote
    · decide
  exact Nat.not_lt.mpr hb hbasic

/-- A code goes on behind a character, if it may hold the byte that the character starts with. -/
theorem takeCode?_cons {b : UInt8} {x s : Text} (n : Nat)
    (hwidth : Utf8.width (b :: (x ++ s)) = (b :: x).length) :
    takeCode? (n + 1) (b :: (x ++ s)) =
      if isCodeByte b then (takeCode? n s).map fun (code, rest) => (b :: x ++ code, rest)
      else none := by
  rw [takeCode?]
  simp only [hwidth]
  rw [← List.cons_append, List.drop_left, List.take_left, isCodeByte]
  cases isQuote b || b == Byte.newline <;> rfl

/-- A character is made of bytes of a code, if its first byte is one. -/
theorem isCodeByte_of_leads {k : Nat} {b : UInt8} {y s : Text} (hy : Utf8.encode k = b :: y)
    (h : Leads k s) (hb : isCodeByte b = true) : ∀ c ∈ b :: y, isCodeByte c = true :=
  List.forall_mem_cons.mpr ⟨hb, fun c hc => isCodeByte_of_le (tail_of_leads hy h c hc)⟩

/-- A code is found where it stands, if no character goes on behind it. -/
theorem takeCode?_append {t : Text} (ht : t.head?.any Utf8.isTail = false) {code : Text}
    (hcode : ∀ b ∈ code, isCodeByte b = true) :
    takeCode? (pieces code).length (code ++ t) = some (code, t) := by
  induction code using pieces_induction with
  | nil => rfl
  | char k x hlead ih =>
    obtain ⟨b, y, hy⟩ := List.exists_cons_of_ne_nil (encode_ne_nil k)
    have hwidth := width_of_leads ((leads_append (x := x) ht).mpr hlead)
    rw [hy, List.cons_append] at hwidth
    have hb : isCodeByte b = true := hcode b (by simp [hy])
    rw [pieces_char hlead, List.length_cons, hy, List.append_assoc, List.cons_append,
      takeCode?_cons _ hwidth, if_pos hb, ih fun b hb => hcode b (List.mem_append_right _ hb)]
    rfl
  | stray b x hnone ih =>
    rw [List.forall_mem_cons] at hcode
    have hwidth : Utf8.width (b :: ([] ++ (x ++ t))) = [b].length :=
      width_of_stray ((decode?_before ht (List.cons_ne_nil b x)).trans hnone)
    have hstep := takeCode?_cons (pieces x).length hwidth
    rw [if_pos hcode.1, List.nil_append, ih hcode.2] at hstep
    rw [pieces_stray hnone]
    exact hstep

/-- What is found as a code is one. -/
theorem of_takeCode? {t : Text} (ht : t.head?.any Utf8.isTail = false) {n : Nat} {s code : Text}
    (h : takeCode? n s = some (code, t)) :
    s = code ++ t ∧ (∀ b ∈ code, isCodeByte b = true) ∧ (pieces code).length = n := by
  induction n generalizing s code with
  | zero =>
    cases h
    exact ⟨rfl, by simp, rfl⟩
  | succ n ih =>
    by_cases hs : s = []
    · subst hs
      cases h
    · rcases lead_cases hs with ⟨k, s, rfl, hlead⟩ | ⟨b, s, rfl, hnone⟩
      · obtain ⟨b, y, hy⟩ := List.exists_cons_of_ne_nil (encode_ne_nil k)
        have hwidth := width_of_leads hlead
        rw [hy, List.cons_append] at hwidth
        rw [hy, List.cons_append, takeCode?_cons n hwidth, Option.ite_none_right_eq_some] at h
        obtain ⟨hb, h⟩ := h
        obtain ⟨⟨code', t'⟩, hrest, heq⟩ := Option.map_eq_some_iff.mp h
        cases heq
        obtain ⟨rfl, hcode, hlength⟩ := ih hrest
        have hpieces := pieces_char ((leads_append ht).mp hlead)
        rw [hy] at hpieces
        refine ⟨by rw [hy, List.append_assoc], ?_, by rw [hpieces, List.length_cons, hlength]⟩
        exact List.forall_mem_append.mpr ⟨isCodeByte_of_leads hy hlead hb, hcode⟩
      · have hwidth : Utf8.width (b :: ([] ++ s)) = [b].length := width_of_stray hnone
        have hstep := takeCode?_cons n hwidth
        rw [List.nil_append, h, eq_comm, Option.ite_none_right_eq_some] at hstep
        obtain ⟨hb, h⟩ := hstep
        obtain ⟨⟨code', t'⟩, hrest, heq⟩ := Option.map_eq_some_iff.mp h
        cases heq
        obtain ⟨rfl, hcode, hlength⟩ := ih hrest
        have hnone' := (decode?_before ht (List.cons_ne_nil b code')).symm.trans hnone
        refine ⟨rfl, List.forall_mem_cons.mpr ⟨hb, hcode⟩, ?_⟩
        show (pieces (b :: code')).length = n + 1
        rw [pieces_stray hnone', List.length_cons, hlength]

theorem not_tail_of_isQuote {q : UInt8} (hq : isQuote q = true) (s : Text) :
    (q :: s).head?.any Utf8.isTail = false :=
  (isBasic_of_isQuote hq).not_tail

/-- What is found is a call on a code. -/
theorem of_codeCall {before : Option UInt8} {s : Text} {n : Nat} {c : CodeCall}
    (h : codeCall before s = some (n, c)) :
    before.any Byte.isWord = false ∧ c.WellFormed ∧ n = c.text.length ∧ ∃ t, s = c.text ++ t := by
  unfold codeCall at h
  obtain ⟨hbefore, h⟩ := Option.ite_none_left_eq_some.mp h
  simp only [Option.bind_eq_bind, Option.bind_eq_some_iff, Prod.exists] at h
  obtain ⟨s₁, hname, opening, s₂, hparen, q, s₃, hquote, code, s₄, hcode, q', s₅, hquote', closing,
    t, hparen', heq⟩ := h
  obtain ⟨g, hg, rfl, rfl⟩ := (takeParen?_eq_some (by decide)).mp hparen
  obtain ⟨hdrop, hq⟩ := takeQuote?_eq_some.mp hquote
  obtain ⟨rfl, hq'⟩ := takeQuote?_eq_some.mp hquote'
  obtain ⟨rfl, hbytes, hfour⟩ := of_takeCode? (not_tail_of_isQuote hq' s₅) hcode
  obtain ⟨g', hg', rfl, rfl⟩ := (takeParen?_eq_some (by decide)).mp hparen'
  have hgap : ∀ b ∈ s₂.takeWhile Byte.isGap, Byte.isGap b = true :=
    fun b hb => List.mem_takeWhile_imp hb
  have hs : s = (CodeCall.text ⟨g ++ [Byte.openParen] ++ s₂.takeWhile Byte.isGap, q, code, q',
      g' ++ [Byte.closeParen]⟩) ++ t := by
    have hsplit := List.takeWhile_append_dropWhile (p := Byte.isGap) (l := s₂)
    rw [hdrop] at hsplit
    generalize s₂.takeWhile Byte.isGap = gap at hsplit
    rw [after?_eq_some.mp hname, ← hsplit]
    simp [CodeCall.text, CodeCall.wrap, codeFunction]
  cases heq
  refine ⟨by simpa using hbefore, ⟨⟨g, _, hg, hgap, rfl⟩, hq, hbytes, hfour, hq', g', hg', rfl⟩, ?_,
    t, hs⟩
  rw [hs, List.length_append, Nat.add_sub_cancel]

/-- A call on a code is found where no word goes before it. -/
theorem codeCall_text {before : Option UInt8} (hbefore : before.any Byte.isWord = false)
    {c : CodeCall} (hc : c.WellFormed) (t : Text) :
    codeCall before (c.text ++ t) = some (c.text.length, c) := by
  obtain ⟨g, g', hg, hg', hopening⟩ := hc.opening
  obtain ⟨g'', hg'', hclosing⟩ := hc.closing
  obtain ⟨opening, q, code, q', closing⟩ := c
  have hname : after? (utf8 "charIDToTypeID") (CodeCall.text ⟨opening, q, code, q', closing⟩ ++ t) =
      some (opening ++ [q] ++ code ++ [q'] ++ closing ++ t) :=
    after?_eq_some.mpr (by simp [CodeCall.text, CodeCall.wrap, codeFunction])
  dsimp only at hopening hclosing
  have hparen : takeParen? Byte.openParen (opening ++ [q] ++ code ++ [q'] ++ closing ++ t) =
      some (g ++ [Byte.openParen], g' ++ q :: (code ++ q' :: (closing ++ t))) :=
    (takeParen?_eq_some (by decide)).mpr ⟨g, hg, rfl, by simp [hopening]⟩
  have hnotGap : Byte.isGap q = false := by
    rcases isQuote_cases hc.openQuote with rfl | rfl <;> decide
  have htake : (g' ++ q :: (code ++ q' :: (closing ++ t))).takeWhile Byte.isGap = g' := by
    rw [List.takeWhile_append_of_pos hg', List.takeWhile_cons_of_neg (by simp [hnotGap]),
      List.append_nil]
  have hdrop : (g' ++ q :: (code ++ q' :: (closing ++ t))).dropWhile Byte.isGap =
      q :: (code ++ q' :: (closing ++ t)) := by
    rw [List.dropWhile_append_of_pos hg', List.dropWhile_cons_of_neg (by simp [hnotGap])]
  have hquote : ∀ s, takeQuote? (q :: s) = some (q, s) :=
    fun s => takeQuote?_eq_some.mpr ⟨rfl, hc.openQuote⟩
  have hcode := takeCode?_append (not_tail_of_isQuote hc.closeQuote (closing ++ t)) hc.code
  have hquote' : ∀ s, takeQuote? (q' :: s) = some (q', s) :=
    fun s => takeQuote?_eq_some.mpr ⟨rfl, hc.closeQuote⟩
  have hparen' : takeParen? Byte.closeParen (closing ++ t) = some (closing, t) :=
    (takeParen?_eq_some (by decide)).mpr ⟨g'', hg'', hclosing, rfl⟩
  rw [hc.four] at hcode
  unfold codeCall
  rw [if_neg (by simp [hbefore]), hname]
  simp only [Option.bind_eq_bind, Option.bind_some, hparen, htake, hdrop, hquote, hcode, hquote',
    hparen', List.length_append, Nat.add_sub_cancel, ← hopening]
  rfl

/-! ## Words inside a call -/

theorem codeFunction_isWord : ∀ b ∈ codeFunction, Byte.isWord b = true :=
  List.all_eq_true.mp (by decide +kernel)

theorem identifierFunction_isWord : ∀ b ∈ identifierFunction, Byte.isWord b = true :=
  List.all_eq_true.mp (by decide +kernel)

namespace CodeCall.WellFormed

variable {c : CodeCall} (hc : c.WellFormed)

include hc

theorem opening_isWord : ∀ b ∈ c.opening ++ [c.openQuote], Byte.isWord b = false := by
  obtain ⟨g, g', hg, hg', hopening⟩ := hc.opening
  intro b hb
  rw [hopening] at hb
  simp only [List.mem_append, List.mem_singleton] at hb
  apply isWord_of_not_isName
  rcases hb with ((hb | rfl) | hb) | rfl
  · exact isName_of_isGap (hg b hb)
  · rfl
  · exact isName_of_isGap (hg' b hb)
  · exact isName_of_isQuote hc.openQuote

theorem closing_isWord : ∀ b ∈ [c.closeQuote] ++ c.closing, Byte.isWord b = false := by
  obtain ⟨g, hg, hclosing⟩ := hc.closing
  intro b hb
  rw [hclosing] at hb
  simp only [List.mem_append, List.mem_singleton] at hb
  apply isWord_of_not_isName
  rcases hb with rfl | hb | rfl
  · exact isName_of_isQuote hc.closeQuote
  · exact isName_of_isGap (hg b hb)
  · rfl

/-- **A word that starts inside of a call stands in its string**, whatever function is called. -/
theorem word_inside {name body s u w v : Text} (hname : ∀ b ∈ name, Byte.isWord b = true)
    (hne : w ≠ []) (hw : ∀ b ∈ w, Byte.isWord b = true) (hu : u ≠ [])
    (hlast : u.getLast?.any Byte.isWord = false) (h : c.wrap name body ++ s = u ++ (w ++ v)) :
    w <:+: body ∨ ∃ u', u = c.wrap name body ++ u' ∧ s = u' ++ (w ++ v) := by
  have hhead : (w ++ v).head?.any Byte.isWord = true := by
    obtain ⟨b, w, rfl⟩ := List.exists_cons_of_ne_nil hne
    exact hw b List.mem_cons_self
  have hsplit : name ++ ((c.opening ++ [c.openQuote]) ++ (body ++
      (([c.closeQuote] ++ c.closing) ++ s))) = u ++ (w ++ v) := by
    rw [← h]
    simp [wrap]
  rcases List.append_eq_append_iff.mp hsplit with ⟨u₁, rfl, h₁⟩ | ⟨name', hname', _⟩
  · obtain ⟨u₂, rfl, h₂⟩ := class_front hc.opening_isWord hhead h₁
    rcases List.append_eq_append_iff.mp h₂ with ⟨u₃, rfl, h₃⟩ | ⟨body', hbody, h₃⟩
    · obtain ⟨u₄, rfl, h₄⟩ := class_front hc.closing_isWord hhead h₃
      exact .inr ⟨u₄, by simp [wrap], h₄⟩
    · refine .inl ?_
      rcases List.append_eq_append_iff.mp h₃ with ⟨body'', hbody', _⟩ | ⟨w', hw', h₄⟩
      · exact ⟨u₂, body'', by rw [hbody, hbody', List.append_assoc]⟩
      · -- the word does not reach over the quote behind the string
        cases w' with
        | nil => exact ⟨u₂, [], by rw [hbody, hw']; simp⟩
        | cons q w' =>
          exfalso
          obtain ⟨rfl, _⟩ := List.cons.inj h₄
          have hquote := hw c.closeQuote (by simp [hw'])
          rw [hc.closing_isWord _ (by simp)] at hquote
          cases hquote
  · -- a word that starts inside of the name has a byte of the name before it
    exfalso
    rw [class_last hname hname' hu] at hlast
    cases hlast

/-- A code has no room for a long word. -/
theorem not_infix_code {w : Text} (hw : ∀ b ∈ w, Byte.isWord b = true) (hlen : 4 < w.length) :
    ¬ w <:+: c.code := by
  rintro ⟨x, y, hxy⟩
  have hbasic : ∀ b ∈ w, IsBasic b := by
    intro b hb
    refine toNat_lt_of_isName ?_
    simp [Byte.isName, hw b hb]
  have hle := length_le_pieces hbasic x y
  rw [hxy, hc.four] at hle
  omega

theorem getLast?_wrap (name body : Text) :
    (c.wrap name body).getLast? = some Byte.closeParen := by
  obtain ⟨g, _, hclosing⟩ := hc.closing
  rw [wrap, hclosing, ← List.append_assoc, List.getLast?_concat]

end CodeCall.WellFormed

end ActionLog.Pass
