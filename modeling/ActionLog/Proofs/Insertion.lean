import ActionLog.Proofs.Encoding
import ActionLog.Proofs.Quote
import ActionLog.Proofs.Substitution

/-!
# Declarations with texts put in

A declaration stays one when arguments in its value are replaced, and its value is the old one with
the same replacements, provided that no white space arises where a text is put in.

* `Declaration.substitute_line` — words before the equals sign are kept;
* `declares_substitute` — a declaration stays one, of the same name;
* `Compact`, `Compact.substitute` — texts that can be put in, and what they make of each other;
* `valueOf_substitute` — the value of the new line;
* `isConstruction_substitute` — the construction of an object stays one.
-/

set_option autoImplicit false

namespace ActionLog

/-! ## Names and heads -/

namespace Declaration

open Text

section Substituted

variable {line : Text} {f : Text → Text}

/-- Before the equals sign stand no words but the keyword and the name. -/
theorem substitute_head (hline : isDeclaration line = true) (hne : nameOf line ≠ [])
    (hrun : IsRun (nameOf line)) (hkeyword : f keyword = keyword)
    (hname : f (nameOf line) = nameOf line) : substitute f (head line) = head line := by
  unfold isDeclaration at hline
  split at hline
  · rename_i g rest hafter
    obtain ⟨indent, rfl, hindent⟩ := afterKeyword?_eq_some hafter
    rw [Bool.and_eq_true] at hline
    obtain ⟨w, w', hgap, hw, hw'⟩ := nameOf_keyword hindent hline.1 rest
    have hplain : ∀ {x : Text}, (∀ b ∈ x, isWhite b = true) → ∀ b ∈ x, Byte.isName b = false :=
      fun hx b hb => (white_bytes (hx b hb)).1
    have hbare : ∀ {x : Text}, (∀ b ∈ x, isWhite b = true) → Bare x := by
      intro x hx
      cases x with
      | nil => rfl
      | cons b x => exact hplain hx b List.mem_cons_self
    have hg : Bare (g :: head rest) := Pass.isName_of_isGap hline.1
    have hinner : substitute f (g :: head rest) = g :: head rest := by
      have hw'self := substitute_plain f (hplain hw') []
      rw [List.append_nil, substitute_nil, List.append_nil] at hw'self
      rw [hgap, List.append_assoc, substitute_plain f (hplain hw),
        substitute_run f hne hrun (hbare hw'), hname, hw'self]
    have hindentplain : ∀ b ∈ indent, Byte.isName b = false :=
      fun b hb => Pass.isName_of_isGap (isGap_of_isTabOrSpace (hindent b hb))
    rw [head_keyword hindent hline.1, List.append_assoc, substitute_plain f hindentplain,
      substitute_run f (by decide) keyword_isRun hg, hkeyword, hinner]
  · cases hline

/-- **Words before the equals sign are kept.** -/
theorem substitute_line (hline : isDeclaration line = true) (hne : nameOf line ≠ [])
    (hrun : IsRun (nameOf line)) (hkeyword : f keyword = keyword)
    (hname : f (nameOf line) = nameOf line) :
    substitute f line = head line ++ Byte.equals :: substitute f (tail line) ∧
      head (substitute f line) = head line ∧
      tail (substitute f line) = substitute f (tail line) := by
  obtain ⟨_, _, hsplit⟩ := exists_nameSplit hline rfl hne hrun
  have hbare : Bare (Byte.equals :: tail line) := rfl
  have heq : substitute f line = head line ++ Byte.equals :: substitute f (tail line) := by
    conv_lhs => rw [hsplit.line_eq]
    rw [substitute_append_bare f _ hbare, substitute_head hline hne hrun hkeyword hname,
      substitute_other f rfl]
  refine ⟨heq, ?_⟩
  obtain ⟨hhead, htail⟩ := head_append (equals_not_mem_head line)
    (Byte.equals :: substitute f (tail line))
  rw [heq, hhead, htail]
  exact ⟨List.append_nil _, rfl⟩

/-- What follows the equals sign, when words of the value are replaced. -/
theorem substitute_tail {x w w' : Text}
    (htail : tail line = x ++ valueOf line ++ (w ++ Byte.semicolon :: w'))
    (hx : ∀ b ∈ x, isWhite b = true) (hw : ∀ b ∈ w, isWhite b = true)
    (hw' : ∀ b ∈ w', isWhite b = true) (f : Text → Text) :
    substitute f (tail line) = x ++ substitute f (valueOf line) ++ (w ++ Byte.semicolon :: w') := by
  have hbehind : ∀ b ∈ w ++ Byte.semicolon :: w', Byte.isName b = false := by
    intro b hb
    rcases List.mem_append.mp hb with hb | hb
    · exact (white_bytes (hw b hb)).1
    · rcases List.mem_cons.mp hb with rfl | hb
      · rfl
      · exact (white_bytes (hw' b hb)).1
  have hbare : Bare (w ++ Byte.semicolon :: w') := by
    cases w with
    | nil => rfl
    | cons b w => exact hbehind b List.mem_cons_self
  have hback := substitute_plain f hbehind []
  rw [List.append_nil, substitute_nil, List.append_nil] at hback
  rw [htail, List.append_assoc, substitute_plain f fun b hb => (white_bytes (hx b hb)).1,
    substitute_append_bare f _ hbare, hback, List.append_assoc]

theorem Opens.substitute (h : Opens line) (hkeyword : f keyword = keyword) :
    Opens (Text.substitute f line) := by
  obtain ⟨indent, g, rest, rfl, hindent, hg⟩ := h
  have hplain : ∀ b ∈ indent, Byte.isName b = false :=
    fun b hb => Pass.isName_of_isGap (isGap_of_isTabOrSpace (hindent b hb))
  refine ⟨indent, g, Text.substitute f rest, ?_, hindent, hg⟩
  rw [List.append_assoc, substitute_plain f hplain,
    substitute_run f (by decide) keyword_isRun (show Bare (g :: rest) from Pass.isName_of_isGap hg),
    hkeyword, substitute_other f (Pass.isName_of_isGap hg), List.append_assoc]

end Substituted

end Declaration

namespace Pass

open Declaration (isDeclaration nameOf valueOf)
open Text (IsRun Bare WordIn trim blanks isMark isWhite)

/-- **A declaration stays one, of the same name**, when words other than its name and the keyword
are replaced. -/
theorem declares_substitute {n line : Text} {f : Text → Text} (hne : n ≠ []) (hn : IsRun n)
    (hkeyword : f Declaration.keyword = Declaration.keyword) (hname : f n = n)
    (hnew : Byte.newline ∉ line) (hnew' : Byte.newline ∉ Text.substitute f line)
    (h : declares n line = true) : declares n (Text.substitute f line) = true := by
  obtain ⟨hline, rfl⟩ := declares_iff.mp h
  obtain ⟨heq, hhead, htail⟩ := Declaration.substitute_line hline hne hn hkeyword hname
  have hequals : Byte.equals ∈ line := by
    obtain ⟨_, _, hsplit⟩ := Declaration.exists_nameSplit hline rfl hne hn
    rw [hsplit.line_eq]
    simp
  refine declares_iff.mpr ⟨?_, ?_⟩
  · obtain ⟨hopen, hlast⟩ := (Declaration.isDeclaration_iff hnew).mp hline
    refine (Declaration.isDeclaration_iff hnew').mpr ⟨hopen.substitute hkeyword, ?_⟩
    obtain ⟨x, w, w', hsplit, hx, hw, hw'⟩ := Declaration.exists_valueSplit hnew hline hequals
    have hnew'tail := Declaration.substitute_tail hsplit hx hw hw' f
    rw [heq, hnew'tail]
    rw [Declaration.head_append_tail hequals, hsplit] at hlast
    rw [← List.singleton_append] at hlast ⊢
    simp only [Text.lastSolid_append, ← List.singleton_append (l := w')] at hlast ⊢
    cases hw'last : Text.lastSolid w' with
    | none => rfl
    | some b =>
      rw [hw'last] at hlast
      exact hlast
  · unfold nameOf
    rw [hhead]

/-! ## Values -/

/-- A text that can be put in the place of a word: it is not empty, has white space at neither end,
and does not start inside of a character. -/
structure Compact (t : Text) : Prop where
  ne_nil : t ≠ []
  trimmed : trim t = t
  lead : t.head?.any Text.Utf8.isTail = false

/-- Every word that is replaced is passed, and what is put in its place is compact. -/
structure Inserts (f : Text → Text) (s : Text) : Prop where
  passed : ∀ r u v, r ≠ [] → IsRun r → WordIn r s u v → f r ≠ r → Pass.passed v = true
  compact : ∀ r, r ≠ [] → IsRun r → Text.hasWord r s = true → f r ≠ r → Compact (f r)

/-- A value is the start of what follows the equals sign, white space left out. -/
theorem valueOf_initial (line : Text) :
    valueOf line <+: Text.stripStart blanks (Declaration.tail line) := by
  have hfirst : trim (Declaration.tail line) <+: Text.stripStart blanks (Declaration.tail line) :=
    Text.stripEnd_initial blanks _
  have hdrop : Text.dropEnd [Byte.semicolon] (trim (Declaration.tail line)) <+:
      Text.stripStart blanks (Declaration.tail line) := by
    unfold Text.dropEnd
    split
    · rename_i r hr
      have hr' := congrArg List.reverse (List.append_eq_of_isPrefixOf?_eq_some hr)
      rw [List.reverse_append, List.reverse_reverse, List.reverse_reverse] at hr'
      exact (List.prefix_append _ _).trans (hr' ▸ hfirst)
    · exact hfirst
  have hself := Text.stripStart_eq_self fun m hm hpre =>
    Text.not_prefix_stripStart (fun m hm => (Text.blanks_head.1 m hm).1) hm _ (hpre.trans hdrop)
  have hvalue : valueOf line =
      Text.stripEnd blanks (Text.dropEnd [Byte.semicolon] (trim (Declaration.tail line))) :=
    congrArg (Text.stripEnd blanks) hself
  rw [hvalue]
  exact (Text.stripEnd_initial blanks _).trans hdrop

/-- The value on a well-formed line does not start inside of a character. -/
theorem lead_valueOf {line : Text} (hvalid : Text.isValid line = true)
    (hequals : Byte.equals ∈ line) : (valueOf line).head?.any Text.Utf8.isTail = false := by
  rw [Declaration.head_append_tail hequals] at hvalid
  obtain ⟨_, htail⟩ := Text.isValid_cut (by decide) hvalid
  have hlead := Text.lead_of_isValid (Text.isValid_stripStart _ htail)
  obtain ⟨rest, hrest⟩ := valueOf_initial line
  cases hvalue : valueOf line with
  | nil => rfl
  | cons b value =>
    rw [← hrest, hvalue] at hlead
    exact hlead

theorem Compact.not_blank {t m : Text} (h : Compact t) (hm : m ∈ blanks) :
    ¬ m <+: t ∧ ¬ m <:+ t := by
  have hbare := Text.trim_bare t m hm
  rwa [h.trimmed] at hbare

/-- The bytes of white space but for the first stand inside of a character. -/
theorem isTail_of_blank : ∀ m ∈ blanks, ∀ b ∈ m.tail, Text.Utf8.isTail b = true := by
  have hall : ∀ m ∈ blanks, m.tail.all Text.Utf8.isTail = true := by decide +kernel
  exact fun m hm => List.all_eq_true.mp (hall m hm)

theorem white_of_blank {m : Text} (hm : m ∈ blanks) {b : UInt8} (hb : b ∈ m) : isWhite b = true :=
  List.any_eq_true.mpr ⟨m, hm, by simpa using hb⟩

/-- The first word of a text. -/
theorem exists_firstWord (s : Text) : (∀ b ∈ s, Byte.isName b = false) ∨
    ∃ x r y, s = x ++ (r ++ y) ∧ (∀ b ∈ x, Byte.isName b = false) ∧ r ≠ [] ∧ IsRun r ∧ Bare y := by
  induction s using Text.run_induction with
  | nil => exact .inl (by simp)
  | other b s hb ih =>
    rcases ih with hall | ⟨x, r, y, rfl, hx, hrest⟩
    · exact .inl (List.forall_mem_cons.mpr ⟨hb, hall⟩)
    · exact .inr ⟨b :: x, r, y, rfl, List.forall_mem_cons.mpr ⟨hb, hx⟩, hrest⟩
  | run r s hne hr hs _ => exact .inr ⟨[], r, s, rfl, by simp, hne, hr, hs⟩

section Compact

variable {f : Text → Text} {s : Text}

/-- No white space arises in front of what is put in, nor of its first bytes. -/
theorem Compact.not_prefix_insert {x e k m : Text} (he : Compact e) (hm : m ∈ blanks)
    (hk : passed k = true) (hx : ¬ m <+: x) : ¬ m <+: x ++ (e ++ k) := by
  intro hpre
  rcases List.prefix_or_prefix_of_prefix hpre (List.prefix_append x _) with h | ⟨d, rfl⟩
  · exact hx h
  · have hd : d <+: e ++ k := (List.prefix_append_right_inj x).mp hpre
    obtain ⟨c, d, rfl⟩ : ∃ c d', d = c :: d' := by
      refine List.exists_cons_of_ne_nil ?_
      rintro rfl
      exact hx (by simp)
    obtain ⟨a, e', rfl⟩ := List.exists_cons_of_ne_nil he.ne_nil
    obtain ⟨rfl, _⟩ := List.cons_prefix_cons.mp hd
    cases x with
    | cons b x =>
      have htail := isTail_of_blank _ hm c (by simp)
      have hlead : Text.Utf8.isTail c = false := he.lead
      rw [htail] at hlead
      cases hlead
    | nil =>
      rcases List.prefix_or_prefix_of_prefix hd (List.prefix_append (c :: e') k) with h | ⟨d', hd'⟩
      · exact (he.not_blank hm).1 h
      · -- the text is the start of the white space, and a gap or a mark goes on with it
        rw [List.nil_append] at hm
        rw [← hd'] at hm hd
        have hdk : d' <+: k := (List.prefix_append_right_inj _).mp hd
        cases d' with
        | nil =>
          rw [List.append_nil] at hm
          exact (he.not_blank hm).1 (List.prefix_refl _)
        | cons b d' =>
          obtain ⟨k', rfl⟩ := hdk
          by_cases hb : Byte.isGap b = true
          · have hone := Text.blank_of_isGap _ hm b (by simp) hb
            simp at hone
          · rw [Bool.not_eq_true] at hb
            rw [List.cons_append, passed_other hb, Bool.or_eq_true, beq_iff_eq, beq_iff_eq] at hk
            have hwhite := (Text.white_bytes (white_of_blank hm (b := b) (by simp))).2
            rcases hk with rfl | rfl <;> cases hwhite

/-- No white space arises in front of a word. -/
theorem not_prefix_word {x r k m : Text} (hne : r ≠ []) (hr : IsRun r) (hm : m ∈ blanks)
    (hx : ¬ m <+: x) : ¬ m <+: x ++ (r ++ k) := by
  intro hpre
  rcases List.prefix_or_prefix_of_prefix hpre (List.prefix_append x _) with h | ⟨d, rfl⟩
  · exact hx h
  · have hd : d <+: r ++ k := (List.prefix_append_right_inj x).mp hpre
    cases d with
    | nil => exact hx (by simp)
    | cons c d =>
      obtain ⟨a, r', rfl⟩ := List.exists_cons_of_ne_nil hne
      obtain ⟨rfl, _⟩ := List.cons_prefix_cons.mp hd
      have hname := (Text.white_bytes (white_of_blank hm (b := c) (by simp))).1
      rw [hr c List.mem_cons_self] at hname
      cases hname

/-- A text without commas and closing parentheses is kept. -/
theorem Inserts.eq_self (h : Inserts f s)
    (hs : ∀ b ∈ s, b ≠ Byte.comma ∧ b ≠ Byte.closeParen) : Text.substitute f s = s := by
  refine Text.substitute_of_words fun r hne hr hword => ?_
  by_contra hchange
  obtain ⟨_, u, v, hin⟩ := Text.hasWord_iff.mp hword
  obtain ⟨b, hb, hmark⟩ := exists_mark_of_passed (h.passed r u v hne hr hin hchange)
  have hnot := hs b (by rw [hin.split]; simp [hb])
  exact hmark.elim hnot.1 hnot.2

/-- What stands behind a byte of no name. -/
theorem Inserts.behind {x : Text} {c : UInt8} (hc : Byte.isName c = false)
    (h : Inserts f (x ++ c :: s)) : Inserts f s := by
  have hwords : ∀ r u v, WordIn r s u v → WordIn r (x ++ c :: s) (x ++ c :: u) v := by
    rintro r u v ⟨rfl, hu, hv⟩
    refine ⟨by simp, ?_, hv⟩
    cases hlast : u.getLast? with
    | none =>
      rw [List.getLast?_eq_none_iff] at hlast
      simp [hlast, hc]
    | some d =>
      rw [hlast] at hu
      simpa [List.getLast?_append, List.getLast?_cons, hlast] using hu
  refine ⟨fun r u v hne hr hin => h.passed r _ v hne hr (hwords r u v hin), ?_⟩
  intro r hne hr hword
  obtain ⟨_, u, v, hin⟩ := Text.hasWord_iff.mp hword
  exact h.compact r hne hr (Text.hasWord_iff.mpr ⟨hne, _, v, hwords r u v hin⟩)

/-- The last byte of a class, if there is one. -/
theorem exists_last {p : UInt8 → Bool} {s : Text} (h : ∃ b ∈ s, p b = true) :
    ∃ x c y, s = x ++ c :: y ∧ p c = true ∧ ∀ b ∈ y, p b = false := by
  obtain ⟨b, hb, hpb⟩ := h
  obtain ⟨w, hw, hwall⟩ := Text.trimEndBy_eq (fun b => !p b) s
  rcases List.eq_nil_or_concat (Text.trimEndBy (fun b => !p b) s) with hnil | ⟨x, c, hx⟩
  · rw [hnil] at hw
    have := hwall b (by rw [← List.nil_append w, ← hw]; exact hb)
    simp [hpb] at this
  · rw [List.concat_eq_append] at hx
    refine ⟨x, c, w, by rw [hw, hx]; simp, ?_, fun b hb => by simpa using hwall b hb⟩
    unfold Text.trimEndBy at hx
    have hhead := congrArg List.reverse hx
    rw [List.reverse_reverse, List.reverse_append] at hhead
    have hc := List.head_dropWhile_not (fun b => !p b) (l := s.reverse) (by rw [hhead]; simp)
    simpa [hhead] using hc

/-- No white space arises at the end: a comma or a parenthesis stands behind what is put in. -/
theorem Inserts.not_suffix (h : Inserts f s) {m : Text} (hm : m ∈ blanks) (hs : ¬ m <:+ s) :
    ¬ m <:+ Text.substitute f s := by
  by_cases hmark : ∃ b ∈ s, (b == Byte.comma || b == Byte.closeParen) = true
  · obtain ⟨x, c, y, rfl, hc, hy⟩ := exists_last hmark
    have hcname : Byte.isName c = false := by
      rw [Bool.or_eq_true, beq_iff_eq, beq_iff_eq] at hc
      rcases hc with rfl | rfl <;> rfl
    have hcmark : isMark c = true := by
      rw [Bool.or_eq_true, beq_iff_eq, beq_iff_eq] at hc
      rcases hc with rfl | rfl <;> rfl
    have hself : Text.substitute f y = y :=
      (h.behind hcname).eq_self fun b hb => by simpa using hy b hb
    rw [Text.substitute_append_bare f x (show Bare (c :: y) from hcname),
      Text.substitute_other f hcname, hself, List.append_cons]
    intro hsuf
    rcases List.suffix_or_suffix_of_suffix hsuf (List.suffix_append _ y) with hshort | ⟨d, hd⟩
    · exact hs (hshort.trans ((List.suffix_cons c y).trans (List.suffix_append x _)))
    · -- the byte before the end would belong to the white space
      obtain ⟨z, hz⟩ := hsuf
      rw [← hd, ← List.append_assoc] at hz
      have hzd := List.append_cancel_right hz
      rcases List.eq_nil_or_concat d with rfl | ⟨d', c', rfl⟩
      · rw [List.nil_append] at hd
        rw [← hd] at hs
        exact hs ((List.suffix_cons c y).trans (List.suffix_append x _))
      · rw [List.concat_eq_append, ← List.append_assoc] at hzd
        obtain ⟨_, hcc⟩ := List.append_inj' hzd rfl
        cases hcc
        have hwhite := (Text.white_bytes (white_of_blank hm (b := c)
          (by rw [← hd]; simp))).2
        rw [hcmark] at hwhite
        cases hwhite
  · have hself := h.eq_self fun b hb => by
      have hnot : ¬ (b == Byte.comma || b == Byte.closeParen) = true :=
        fun hb' => hmark ⟨b, hb, hb'⟩
      simpa using hnot
    rwa [hself]

/-- **A compact text stays so** when arguments in it are replaced by compact texts. -/
theorem Compact.substitute (hs : Compact s) (h : Inserts f s) : Compact (Text.substitute f s) := by
  rcases exists_firstWord s with hplain | ⟨x, r, y, rfl, hx, hne, hr, hy⟩
  · have hself := Text.substitute_plain f hplain []
    rw [List.append_nil, Text.substitute_nil, List.append_nil] at hself
    rwa [hself]
  · have heq : Text.substitute f (x ++ (r ++ y)) = x ++ (f r ++ Text.substitute f y) := by
      rw [Text.substitute_plain f hx, Text.substitute_run f hne hr hy]
    have hword : WordIn r (x ++ (r ++ y)) x y := by
      refine ⟨by simp, ?_, hy⟩
      cases hlast : x.getLast? with
      | none => rfl
      | some b => exact hx b (List.mem_of_getLast? hlast)
    have hfront : ∀ m ∈ blanks, ¬ m <+: x :=
      fun m hm hpre => (hs.not_blank hm).1 (hpre.trans (List.prefix_append x _))
    have hput : f r ≠ r → Compact (f r) ∧ passed (Text.substitute f y) = true := by
      intro hchange
      refine ⟨h.compact r hne hr (Text.hasWord_iff.mpr ⟨hne, x, y, hword⟩) hchange, ?_⟩
      exact passed_substitute_self f (h.passed r x y hne hr hword hchange)
    refine ⟨?_, Text.trim_eq_self fun m hm => ⟨?_, h.not_suffix hm (hs.not_blank hm).2⟩, ?_⟩
    · rw [heq]
      by_cases hchange : f r = r
      · simp [hchange, hne]
      · simp [(hput hchange).1.ne_nil]
    · rw [heq]
      by_cases hchange : f r = r
      · rw [hchange]
        exact not_prefix_word hne hr hm (hfront m hm)
      · exact (hput hchange).1.not_prefix_insert hm (hput hchange).2 (hfront m hm)
    · rw [heq]
      have hlead := hs.lead
      cases x with
      | cons b x => exact hlead
      | nil =>
        by_cases hchange : f r = r
        · obtain ⟨b, r', rfl⟩ := List.exists_cons_of_ne_nil hne
          rw [hchange]
          exact hlead
        · obtain ⟨b, e', hcons⟩ := List.exists_cons_of_ne_nil (hput hchange).1.ne_nil
          have hlead' := (hput hchange).1.lead
          rw [hcons] at hlead' ⊢
          exact hlead'

end Compact

/-- **The value of a declaration in which arguments are replaced** is its value with the same
replacements. -/
theorem valueOf_substitute {n line : Text} {f : Text → Text} (hne : n ≠ []) (hn : IsRun n)
    (hkeyword : f Declaration.keyword = Declaration.keyword) (hname : f n = n)
    (hnew : Byte.newline ∉ line) (h : declares n line = true) (hvalue : Compact (valueOf line))
    (hinserts : Inserts f (valueOf line)) :
    valueOf (Text.substitute f line) = Text.substitute f (valueOf line) := by
  obtain ⟨hline, rfl⟩ := declares_iff.mp h
  obtain ⟨_, _, htail⟩ := Declaration.substitute_line hline hne hn hkeyword hname
  obtain ⟨_, _, hsplit⟩ := Declaration.exists_nameSplit hline rfl hne hn
  have hequals : Byte.equals ∈ line := by
    rw [hsplit.line_eq]
    simp
  obtain ⟨x, w, w', hplace, hx, hw, hw', hread⟩ :=
    Declaration.exists_valuePlace hnew hline hequals
  rw [Declaration.substitute_tail hplace hx hw hw'] at htail
  by_cases hchange : ∃ r, r ≠ [] ∧ IsRun r ∧ Text.hasWord r (valueOf line) = true ∧ f r ≠ r
  · obtain ⟨r, hrne, hr, hword, hchange⟩ := hchange
    obtain ⟨_, u, v, hin⟩ := Text.hasWord_iff.mp hword
    refine hread _ _ htail (hvalue.substitute hinserts).trimmed ?_
    -- the comma or the parenthesis behind the word is left
    have hpassed := passed_substitute_self f (hinserts.passed r u v hrne hr hin hchange)
    obtain ⟨b, hb, hmark⟩ := exists_mark_of_passed hpassed
    refine ⟨b, ?_, by rcases hmark with rfl | rfl <;> rfl⟩
    rw [hin.substitute hrne hr]
    exact List.mem_append_right _ hb
  · have hself : Text.substitute f (valueOf line) = valueOf line := by
      refine Text.substitute_of_words fun r hrne hr hword => ?_
      by_contra hne
      exact hchange ⟨r, hrne, hr, hword, hne⟩
    rw [hself, ← hplace] at htail
    rw [hself]
    unfold valueOf
    rw [htail]

/-! ## Constructions -/

/-- What stands before the opening parenthesis of a construction: the keyword, a dotted name, and
gaps around it. -/
structure ConstructionFront (front name : Text) : Prop where
  split : ∃ gap space, front = utf8 "new" ++ (gap ++ (name ++ space)) ∧ gap ≠ [] ∧
    (∀ b ∈ gap, Byte.isGap b = true) ∧ ∀ b ∈ space, Byte.isGap b = true
  name_ne_nil : name ≠ []
  dotted : ∀ b ∈ name, isDottedName b = true

theorem not_isGap_of_isDottedName {b : UInt8} (h : isDottedName b = true) :
    Byte.isGap b = false := by
  by_contra hgap
  rw [Bool.not_eq_false] at hgap
  rcases Text.isGap_cases hgap with rfl | rfl | rfl | rfl | rfl <;> cases h

theorem takeWhile_dotted {name rest : Text} (hname : ∀ b ∈ name, isDottedName b = true)
    (hrest : rest.head?.any isDottedName = false) :
    (name ++ rest).takeWhile isDottedName = name ∧
      (name ++ rest).dropWhile isDottedName = rest := by
  rw [List.takeWhile_append_of_pos hname, List.dropWhile_append_of_pos hname]
  cases rest with
  | nil => simp
  | cons b rest => simp [show isDottedName b = false from hrest]

theorem exists_front {value name args : Text} (h : constructorCall? value = some (name, args)) :
    ∃ front, ConstructionFront front name ∧ value = front ++ Byte.openParen :: args := by
  unfold constructorCall? at h
  obtain ⟨rest, hrest, h⟩ := Option.bind_eq_some_iff.mp h
  dsimp only at h
  split at h
  · cases h
  · rename_i hcond
    obtain ⟨args', hargs, h⟩ := Option.bind_eq_some_iff.mp h
    cases h
    simp only [Bool.or_eq_true, decide_eq_true_eq, beq_iff_eq, not_or] at hcond
    have hvalue := Text.after?_eq_some.mp hrest
    have hparen := Text.after?_eq_some.mp hargs
    have hgap : rest.takeWhile Byte.isGap ≠ [] := by
      intro hnil
      apply hcond.1
      conv_rhs => rw [← List.takeWhile_append_dropWhile (p := Byte.isGap) (l := rest), hnil]
      rfl
    refine ⟨utf8 "new" ++ (rest.takeWhile Byte.isGap ++
      ((rest.dropWhile Byte.isGap).takeWhile isDottedName ++
        ((rest.dropWhile Byte.isGap).dropWhile isDottedName).takeWhile Byte.isGap)), ?_, ?_⟩
    · exact ⟨⟨_, _, rfl, hgap, fun b hb => List.mem_takeWhile_imp hb,
        fun b hb => List.mem_takeWhile_imp hb⟩, hcond.2, fun b hb => List.mem_takeWhile_imp hb⟩
    · rw [List.singleton_append] at hparen
      simp only [List.append_assoc]
      rw [← hparen, List.takeWhile_append_dropWhile, List.takeWhile_append_dropWhile,
        List.takeWhile_append_dropWhile, ← hvalue]

theorem ConstructionFront.constructorCall?_eq {front name : Text} (h : ConstructionFront front name)
    (args : Text) : constructorCall? (front ++ Byte.openParen :: args) = some (name, args) := by
  obtain ⟨⟨gap, space, rfl, hgapne, hgap, hspace⟩, hne, hdotted⟩ := h
  have hnew : Text.after? (utf8 "new") (utf8 "new" ++ (gap ++ (name ++ space)) ++
      Byte.openParen :: args) = some (gap ++ (name ++ (space ++ Byte.openParen :: args))) := by
    rw [Text.after?_eq_some]
    simp
  obtain ⟨c, name', rfl⟩ := List.exists_cons_of_ne_nil hne
  have hnamed : (gap ++ (c :: name' ++ (space ++ Byte.openParen :: args))).dropWhile Byte.isGap =
      c :: name' ++ (space ++ Byte.openParen :: args) := by
    rw [List.dropWhile_append_of_pos hgap, List.cons_append, List.dropWhile_cons_of_neg]
    rw [not_isGap_of_isDottedName (hdotted c List.mem_cons_self)]
    simp
  have hspacehead : (space ++ Byte.openParen :: args).head?.any isDottedName = false := by
    cases space with
    | nil => rfl
    | cons b space =>
      by_contra hb
      have hdot : isDottedName b = true := by simpa using hb
      have hb' := hspace b List.mem_cons_self
      rw [not_isGap_of_isDottedName hdot] at hb'
      cases hb'
  obtain ⟨htake, hdrop⟩ := takeWhile_dotted hdotted hspacehead
  have hparen : (space ++ Byte.openParen :: args).dropWhile Byte.isGap =
      Byte.openParen :: args := by
    rw [List.dropWhile_append_of_pos hspace, List.dropWhile_cons_of_neg (by decide)]
  have hlen : (c :: name' ++ (space ++ Byte.openParen :: args)).length ≠
      (gap ++ (c :: name' ++ (space ++ Byte.openParen :: args))).length := by
    have hpos := List.length_pos_iff.mpr hgapne
    simp only [List.length_append]
    omega
  unfold constructorCall?
  rw [hnew]
  simp only [Option.bind_eq_bind, Option.bind_some, hnamed, htake, hdrop, hparen]
  rw [if_neg]
  · simp [Text.after?, List.isPrefixOf?]
  · simp only [Bool.or_eq_true, decide_eq_true_eq, beq_iff_eq, not_or]
    exact ⟨hlen, hne⟩

theorem ConstructionFront.plain {front name : Text} (h : ConstructionFront front name) :
    ∀ b ∈ front, isMark b = false := by
  obtain ⟨gap, space, rfl, _, hgap, hspace⟩ := h.split
  have hdotted : ∀ b, isDottedName b = true → isMark b = false := by
    intro b hb
    simp only [isDottedName, Bool.or_eq_true, beq_iff_eq] at hb
    rcases hb with hb | rfl
    · exact Text.isMark_of_isName hb
    · rfl
  intro b hb
  simp only [List.mem_append] at hb
  rcases hb with hb | hb | hb | hb
  · have hnew : ∀ b ∈ utf8 "new", isMark b = false := by decide +kernel
    exact hnew b hb
  · exact Text.isMark_of_isGap (hgap b hb)
  · exact hdotted b (h.dotted b hb)
  · exact Text.isMark_of_isGap (hspace b hb)

/-- **Which values are constructions**: those with such a front before the first parenthesis, and
another parenthesis at the end. -/
theorem isConstruction_iff {value : Text} : isConstruction value = true ↔
    ∃ front name args, ConstructionFront front name ∧ value = front ++ Byte.openParen :: args ∧
      Byte.newline ∉ args ∧ args.getLast? = some Byte.closeParen := by
  have hall : ∀ args : Text, args.all (· != Byte.newline) = true ↔ Byte.newline ∉ args := by
    intro args
    rw [List.all_eq_true]
    simp only [bne_iff_ne]
    exact ⟨fun h hmem => h _ hmem rfl, fun h b hb heq => h (heq ▸ hb)⟩
  unfold isConstruction
  constructor
  · intro h
    split at h
    · rename_i name args hcall
      obtain ⟨front, hfront, hvalue⟩ := exists_front hcall
      rw [Bool.and_eq_true, hall, beq_iff_eq] at h
      exact ⟨front, name, args, hfront, hvalue, h⟩
    · cases h
  · rintro ⟨front, name, args, hfront, rfl, hargs⟩
    rw [hfront.constructorCall?_eq]
    dsimp only
    rw [Bool.and_eq_true, hall, beq_iff_eq]
    exact hargs

/-- **The construction of an object stays one** when arguments in it are replaced. -/
theorem isConstruction_substitute {f : Text → Text} {value : Text}
    (hpassed : ∀ r u v, r ≠ [] → IsRun r → WordIn r value u v → f r ≠ r → passed v = true)
    (hnew : ∀ r, r ≠ [] → IsRun r → Byte.newline ∉ f r) (h : isConstruction value = true) :
    isConstruction (Text.substitute f value) = true := by
  obtain ⟨front, name, args, hfront, rfl, hargs, hlast⟩ := isConstruction_iff.mp h
  -- no word before the parenthesis is passed
  have hself : Text.substitute f front = front := by
    refine Text.substitute_of_words fun r hne hr hword => ?_
    by_contra hchange
    obtain ⟨_, u, v, hin⟩ := Text.hasWord_iff.mp hword
    have hword' : WordIn r (front ++ Byte.openParen :: args) u (v ++ Byte.openParen :: args) :=
      ⟨by rw [hin.split]; simp, hin.before, Text.bare_append hin.behind rfl⟩
    have hidle : passed (v ++ Byte.openParen :: args) = false :=
      not_passed (fun b hb => hfront.plain b (by rw [hin.split]; simp [hb])) rfl (by decide) args
    rw [hpassed r u _ hne hr hword' hchange] at hidle
    cases hidle
  have hparen : Bare (Byte.openParen :: args) := rfl
  refine isConstruction_iff.mpr ⟨front, name, Text.substitute f args, hfront, ?_, ?_, ?_⟩
  · rw [Text.substitute_append_bare f _ hparen, hself, Text.substitute_other f rfl]
  · exact Text.newline_not_mem_substitute hargs hnew
  · obtain ⟨args', rfl⟩ := List.getLast?_eq_some_iff.mp hlast
    rw [Text.substitute_append_bare f _ (show Bare [Byte.closeParen] from rfl),
      Text.substitute_other f rfl, Text.substitute_nil, List.getLast?_concat]

end Pass

end ActionLog
