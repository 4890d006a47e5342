import ActionLog.Proofs.Search
import ActionLog.Proofs.Trim

/-!
# Texts read character by character

A text is read alike on both sides of a place where no character goes on.  So the parts of a text
that is well-formed UTF-8 are well-formed where it is cut between characters.

* `decode?_eq_some` — a character is encoded by the bytes that it is read from;
* `pieces_induction` — induction along the characters and stray bytes of a text;
* `pieces_append` — a cut before a byte that continues no character;
* `whiteSpace`, `leads_white` — white space is read as a character, whatever follows it;
* `isValid_cut`, `isValid_lines` — a cut at a byte of the basic alphabet, and at newlines;
* `isValid_stripStart` — white space left out at the start;
* `lead_of_isValid` — a well-formed text does not start inside of a character.
-/

set_option autoImplicit false

namespace ActionLog.Text

/-! ## The bytes of a character -/

section Encode

open Utf8

theorem encode_ne_nil (code : Nat) : encode code ≠ [] := by
  unfold encode
  split_ifs <;> simp

theorem encode_basic {b : UInt8} (hb : b < 0x80) : encode b.toNat = [b] := by
  have hlt : b.toNat < 0x80 := UInt8.lt_iff_toNat_lt.mp hb
  rw [encode, if_pos hlt]
  simp

theorem encode_two {a b : UInt8} (ha : leadsTwo a = true) (hb : isTail b = true) :
    encode ((a.toNat - 0xC0) * 64 + low b) = [a, b] := by
  simp only [leadsTwo, isTail, Bool.and_eq_true, decide_eq_true_eq, UInt8.le_iff_toNat_le,
    UInt8.reduceToNat] at ha hb
  generalize hcode : (a.toNat - 0xC0) * 64 + low b = code
  unfold low at hcode
  have hfirst : 0xC0 + code / 64 = a.toNat := by omega
  have hsecond : 0x80 + code % 64 = b.toNat := by omega
  have hrange : ¬ code < 0x80 ∧ code < 0x800 := by omega
  rw [encode, if_neg hrange.1, if_pos hrange.2, hfirst, hsecond]
  simp

theorem encode_three {a b c : UInt8} (hab : leadsThree a b = true) (hc : isTail c = true) :
    encode (((a.toNat - 0xE0) * 64 + low b) * 64 + low c) = [a, b, c] := by
  simp only [leadsThree, isTail, Bool.and_eq_true, Bool.or_eq_true, decide_eq_true_eq, beq_iff_eq,
    ← UInt8.toNat_inj, UInt8.le_iff_toNat_le, UInt8.reduceToNat] at hab hc
  generalize hcode : ((a.toNat - 0xE0) * 64 + low b) * 64 + low c = code
  unfold low at hcode
  have hfirst : 0xE0 + code / 4096 = a.toNat := by omega
  have hsecond : 0x80 + code / 64 % 64 = b.toNat := by omega
  have hthird : 0x80 + code % 64 = c.toNat := by omega
  have hrange : ¬ code < 0x80 ∧ ¬ code < 0x800 ∧ code < 0x10000 := by omega
  rw [encode, if_neg hrange.1, if_neg hrange.2.1, if_pos hrange.2.2, hfirst, hsecond, hthird]
  simp

theorem encode_four {a b c d : UInt8} (hab : leadsFour a b = true) (hc : isTail c = true)
    (hd : isTail d = true) :
    encode ((((a.toNat - 0xF0) * 64 + low b) * 64 + low c) * 64 + low d) = [a, b, c, d] := by
  simp only [leadsFour, isTail, Bool.and_eq_true, Bool.or_eq_true, decide_eq_true_eq, beq_iff_eq,
    ← UInt8.toNat_inj, UInt8.le_iff_toNat_le, UInt8.reduceToNat] at hab hc hd
  generalize hcode : (((a.toNat - 0xF0) * 64 + low b) * 64 + low c) * 64 + low d = code
  unfold low at hcode
  have hfirst : 0xF0 + code / 262144 = a.toNat := by omega
  have hsecond : 0x80 + code / 4096 % 64 = b.toNat := by omega
  have hthird : 0x80 + code / 64 % 64 = c.toNat := by omega
  have hfourth : 0x80 + code % 64 = d.toNat := by omega
  have hrange : ¬ code < 0x80 ∧ ¬ code < 0x800 ∧ ¬ code < 0x10000 := by omega
  rw [encode, if_neg hrange.1, if_neg hrange.2.1, if_neg hrange.2.2, hfirst, hsecond, hthird,
    hfourth]
  simp

/-- **A character is encoded by the bytes that it is read from.** -/
theorem decode?_eq_some {s : Text} {code width : Nat} (h : decode? s = some (code, width)) :
    width = (encode code).length ∧ ∃ t, s = encode code ++ t := by
  rcases s with _ | ⟨a, _ | ⟨b, _ | ⟨c, _ | ⟨d, s⟩⟩⟩⟩
  · cases h
  -- every rule that applies names the bytes of its character
  all_goals
    simp only [decode?] at h
    split_ifs at h
    all_goals simp only [Option.some.injEq, Prod.mk.injEq, Bool.and_eq_true] at *
    all_goals
      obtain ⟨rfl, rfl⟩ := h
      simp [*, encode_basic, encode_two, encode_three, encode_four]

end Encode

/-! ## Characters, one by one -/

/-- A character stands at the start of the text, and is read as such. -/
def Leads (code : Nat) (s : Text) : Prop :=
  Utf8.decode? (Utf8.encode code ++ s) = some (code, (Utf8.encode code).length)

theorem piecesFrom_eq_drop (s : Text) :
    ∀ skip, Utf8.piecesFrom skip s = Utf8.piecesFrom 0 (s.drop skip) := by
  induction s with
  | nil =>
    intro skip
    cases skip <;> rfl
  | cons b s ih =>
    intro skip
    cases skip with
    | zero => rfl
    | succ skip => exact ih skip

theorem pieces_char {code : Nat} {s : Text} (h : Leads code s) :
    pieces (Utf8.encode code ++ s) = .char code :: pieces s := by
  obtain ⟨b, x, hx⟩ := List.exists_cons_of_ne_nil (encode_ne_nil code)
  unfold Leads at h
  rw [hx, List.cons_append] at h
  unfold pieces
  rw [hx, List.cons_append, Utf8.piecesFrom, h]
  simp [piecesFrom_eq_drop]

theorem pieces_stray {b : UInt8} {s : Text} (h : Utf8.decode? (b :: s) = none) :
    pieces (b :: s) = .stray b :: pieces s := by
  unfold pieces
  rw [Utf8.piecesFrom, h]

theorem lead_cases {s : Text} (hs : s ≠ []) :
    (∃ code t, s = Utf8.encode code ++ t ∧ Leads code t) ∨
      ∃ b t, s = b :: t ∧ Utf8.decode? (b :: t) = none := by
  cases h : Utf8.decode? s with
  | none =>
    obtain ⟨b, t, rfl⟩ := List.exists_cons_of_ne_nil hs
    exact .inr ⟨b, t, rfl, h⟩
  | some y =>
    obtain ⟨code, width⟩ := y
    obtain ⟨rfl, t, rfl⟩ := decode?_eq_some h
    exact .inl ⟨code, t, rfl, h⟩

theorem width_of_leads {code : Nat} {s : Text} (h : Leads code s) :
    Utf8.width (Utf8.encode code ++ s) = (Utf8.encode code).length := by
  rw [Utf8.width, h]
  rfl

theorem width_of_stray {b : UInt8} {s : Text} (h : Utf8.decode? (b :: s) = none) :
    Utf8.width (b :: s) = 1 := by
  rw [Utf8.width, h]
  rfl

/-- The bytes of a character behind its first one. -/
theorem tail_of_leads {code : Nat} {b : UInt8} {x s : Text} (hx : Utf8.encode code = b :: x)
    (h : Leads code s) : ∀ c ∈ x, 128 ≤ c.toNat := by
  have hwidth := width_of_leads h
  rw [hx, List.cons_append] at hwidth
  have htail := width_tail b (x ++ s)
  rwa [hwidth, List.length_cons, Nat.add_sub_cancel, List.take_left] at htail

/-- What stands at the start of a text: a character or a stray byte. -/
theorem exists_first {s : Text} (hs : s ≠ []) : ∃ b x t, s = b :: (x ++ t) ∧
    Utf8.width (b :: (x ++ t)) = (b :: x).length ∧ ∀ c ∈ x, 128 ≤ c.toNat := by
  rcases lead_cases hs with ⟨code, t, rfl, hlead⟩ | ⟨b, t, rfl, hnone⟩
  · obtain ⟨b, x, hx⟩ := List.exists_cons_of_ne_nil (encode_ne_nil code)
    have hwidth := width_of_leads hlead
    rw [hx] at hwidth
    exact ⟨b, x, t, by rw [hx]; rfl, hwidth, tail_of_leads hx hlead⟩
  · exact ⟨b, [], t, rfl, width_of_stray hnone, by simp⟩

/-- Induction along the pieces of a text. -/
theorem pieces_induction {motive : Text → Prop} (nil : motive [])
    (char : ∀ code s, Leads code s → motive s → motive (Utf8.encode code ++ s))
    (stray : ∀ b s, Utf8.decode? (b :: s) = none → motive s → motive (b :: s)) (s : Text) :
    motive s := by
  by_cases hs : s = []
  · rw [hs]
    exact nil
  · rcases lead_cases hs with ⟨code, t, heq, hlead⟩ | ⟨b, t, heq, hnone⟩
    · have hlt : t.length < s.length := by
        have hpos := List.length_pos_of_ne_nil (encode_ne_nil code)
        rw [heq, List.length_append]
        omega
      rw [heq]
      exact char code t hlead (pieces_induction nil char stray t)
    · have hlt : t.length < s.length := by
        rw [heq, List.length_cons]
        omega
      rw [heq]
      exact stray b t hnone (pieces_induction nil char stray t)
termination_by s.length
decreasing_by
  · exact hlt
  · exact hlt

/-- The pieces of a text make it up. -/
theorem bytes_pieces (s : Text) : (pieces s).flatMap Piece.bytes = s := by
  induction s using pieces_induction with
  | nil => rfl
  | char code s hlead ih =>
    rw [pieces_char hlead, List.flatMap_cons, ih]
    rfl
  | stray b s hnone ih =>
    rw [pieces_stray hnone, List.flatMap_cons, ih]
    rfl

/-- What is read at the start of a text does not reach a place where no character goes on. -/
theorem decode?_before {x s : Text} (hs : s.head?.any Utf8.isTail = false) (hx : x ≠ []) :
    Utf8.decode? (x ++ s) = Utf8.decode? x := by
  obtain ⟨b, x, rfl⟩ := List.exists_cons_of_ne_nil hx
  cases s with
  | nil => rw [List.append_nil]
  | cons q s => exact decode?_lead hs b x s

theorem leads_append {code : Nat} {x s : Text} (hs : s.head?.any Utf8.isTail = false) :
    Leads code (x ++ s) ↔ Leads code x := by
  unfold Leads
  rw [← List.append_assoc, decode?_before hs (by simp [encode_ne_nil])]

/-- **A text is read piece by piece on both sides of a place where no character goes on.** -/
theorem pieces_append {s : Text} (hs : s.head?.any Utf8.isTail = false) (x : Text) :
    pieces (x ++ s) = pieces x ++ pieces s := by
  induction x using pieces_induction with
  | nil => rfl
  | char code x hlead ih =>
    rw [List.append_assoc, pieces_char ((leads_append hs).mpr hlead), ih, pieces_char hlead]
    rfl
  | stray b x hnone ih =>
    have hnone' : Utf8.decode? (b :: (x ++ s)) = none :=
      (decode?_before hs (List.cons_ne_nil b x)).trans hnone
    rw [List.cons_append, pieces_stray hnone', ih, pieces_stray hnone]
    rfl

theorem leads_basic {q : UInt8} (hq : IsBasic q) (s : Text) : Leads q.toNat s := by
  unfold Leads
  rw [encode_basic hq]
  exact decode?_basic hq s

theorem pieces_basic {q : UInt8} (hq : IsBasic q) (s : Text) :
    pieces (q :: s) = .char q.toNat :: pieces s := by
  have hpieces := pieces_char (leads_basic hq s)
  rwa [encode_basic hq] at hpieces

/-- Bytes of the basic alphabet are characters of a text, wherever they stand in it. -/
theorem length_le_pieces {w : Text} (hw : ∀ b ∈ w, IsBasic b) (x y : Text) :
    w.length ≤ (pieces (x ++ w ++ y)).length := by
  have hstart : w.length ≤ (pieces (w ++ y)).length := by
    induction w with
    | nil => exact Nat.zero_le _
    | cons b w ih =>
      rw [List.forall_mem_cons] at hw
      rw [List.cons_append, pieces_basic hw.1, List.length_cons, List.length_cons]
      exact Nat.succ_le_succ (ih hw.2)
  cases w with
  | nil => exact Nat.zero_le _
  | cons b w =>
    have hb : IsBasic b := hw b List.mem_cons_self
    rw [List.append_assoc, pieces_append (by exact hb.not_tail), List.length_append]
    exact Nat.le_trans hstart (Nat.le_add_left _ _)

/-! ## White space -/

/-- The white space characters. -/
def whiteSpace : List Nat :=
  [0x20, 0x0A, 0x09, 0x0D, 0x0B, 0x0C, 0x85, 0xA0, 0x1680,
   0x2000, 0x2001, 0x2002, 0x2003, 0x2004, 0x2005, 0x2006, 0x2007, 0x2008, 0x2009, 0x200A,
   0x2028, 0x2029, 0x202F, 0x205F, 0x3000]

theorem blanks_eq : blanks = whiteSpace.map Utf8.encode := by decide +kernel

/-- White space is read as a character, whatever follows it. -/
theorem leads_white : ∀ code ∈ whiteSpace, ∀ t, Leads code t := by
  intro code hcode t
  simp only [whiteSpace, List.mem_cons, List.not_mem_nil, or_false] at hcode
  rcases t with _ | ⟨_, _ | ⟨_, _ | ⟨_, _⟩⟩⟩ <;>
    rcases hcode with rfl | rfl | rfl | rfl | rfl | rfl | rfl | rfl | rfl | rfl | rfl | rfl | rfl |
      rfl | rfl | rfl | rfl | rfl | rfl | rfl | rfl | rfl | rfl | rfl | rfl <;> rfl

theorem pieces_blank {m : Text} (hm : m ∈ blanks) (s : Text) :
    ∃ code ∈ whiteSpace, pieces (m ++ s) = .char code :: pieces s := by
  rw [blanks_eq] at hm
  obtain ⟨code, hcode, rfl⟩ := List.mem_map.mp hm
  exact ⟨code, hcode, pieces_char (leads_white code hcode s)⟩

/-! ## Well-formed texts -/

/-- **A byte of the basic alphabet cuts a well-formed text into well-formed parts.** -/
theorem isValid_cut {q : UInt8} (hq : IsBasic q) {t u : Text} (h : isValid (u ++ q :: t) = true) :
    isValid u = true ∧ isValid t = true := by
  have hpieces : pieces (u ++ q :: t) = pieces u ++ .char q.toNat :: pieces t := by
    rw [pieces_append (by exact hq.not_tail), pieces_basic hq]
  unfold isValid at h ⊢
  rw [hpieces, List.all_append, List.all_cons, Bool.and_eq_true, Bool.and_eq_true] at h
  exact ⟨h.1, h.2.2⟩

theorem isValid_lines {s : Text} (h : isValid s = true) : ∀ l ∈ lines s, isValid l = true := by
  have hall : ∀ ls : List Text, isValid (unlines ls) = true → ∀ l ∈ ls, isValid l = true := by
    intro ls
    induction ls with
    | nil => simp
    | cons l ls ih =>
      intro hvalid
      cases ls with
      | nil => simpa [unlines] using hvalid
      | cons l' ls =>
        rw [unlines_cons_cons] at hvalid
        obtain ⟨hl, hrest⟩ := isValid_cut (by decide) hvalid
        exact List.forall_mem_cons.mpr ⟨hl, ih hrest⟩
  exact hall _ (by rwa [unlines_lines])

theorem isValid_stripStart (s : Text) (h : isValid s = true) :
    isValid (stripStart blanks s) = true := by
  obtain ⟨ms, hms, hs⟩ := stripStart_eq blanks s
  rw [hs] at h
  clear hs
  induction ms with
  | nil => exact h
  | cons m ms ih =>
    rw [List.forall_mem_cons] at hms
    obtain ⟨code, _, hpieces⟩ := pieces_blank hms.1 (ms.flatten ++ stripStart blanks s)
    unfold isValid at h
    rw [List.flatten_cons, List.append_assoc, hpieces, List.all_cons, Bool.and_eq_true] at h
    exact ih h.2 hms.2

/-- A well-formed text does not start inside of a character. -/
theorem lead_of_isValid {s : Text} (h : isValid s = true) : s.head?.any Utf8.isTail = false := by
  cases s with
  | nil => rfl
  | cons b s =>
    by_contra htail
    have hb : 128 ≤ b.toNat ∧ b.toNat ≤ 191 := by
      simpa [Utf8.isTail, UInt8.le_iff_toNat_le] using htail
    have hnone : Utf8.decode? (b :: s) = none := by
      have hlow : ¬ b < 0x80 := by
        rw [UInt8.lt_iff_toNat_lt]
        show ¬ b.toNat < 128
        omega
      have htwo : Utf8.leadsTwo b = false := by
        simp [Utf8.leadsTwo, UInt8.le_iff_toNat_le]
        omega
      have hthree : ∀ c, Utf8.leadsThree b c = false := by
        intro c
        simp [Utf8.leadsThree, UInt8.le_iff_toNat_le, ← UInt8.toNat_inj]
        omega
      have hfour : ∀ c, Utf8.leadsFour b c = false := by
        intro c
        simp [Utf8.leadsFour, UInt8.le_iff_toNat_le, ← UInt8.toNat_inj]
        omega
      rcases s with _ | ⟨_, _ | ⟨_, _ | ⟨_, _⟩⟩⟩
      · simp [Utf8.decode?, hlow]
      · simp [Utf8.decode?, hlow, htwo]
      · simp [Utf8.decode?, hlow, htwo, hthree]
      · simp [Utf8.decode?, hlow, htwo, hthree, hfour]
    rw [isValid, pieces_stray hnone] at h
    cases h

theorem isValid_of_isRun {n : Text} (hn : IsRun n) : isValid n = true := by
  induction n with
  | nil => rfl
  | cons b n ih =>
    have hb : IsBasic b := toNat_lt_of_isName (hn b List.mem_cons_self)
    have hrest := ih fun c hc => hn c (List.mem_cons_of_mem _ hc)
    rw [isValid, pieces_basic hb]
    exact hrest

end ActionLog.Text
