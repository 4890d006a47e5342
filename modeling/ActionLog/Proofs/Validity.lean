import ActionLog.Proofs.Encoding
import ActionLog.Proofs.Inline

/-!
# Well-formed texts stay well-formed

What is cut out of a text in well-formed UTF-8 between two characters is well-formed, and so is what
is put together from such parts.

* `isValid_append`, `isValid_of_append`, `isValid_initial` — putting together and cutting;
* `isValid_trim`, `isValid_unlines`, `isValid_trimNewlines` — white space and lines left out;
* `isValid_nameOf`, `isValid_valueOf` — the two halves of a declaration;
* `literal?_of_isValid` — in a well-formed text, a name is found only where its bytes stand;
* `mem_findAllFrom_of_isValid` — a search by characters tries no place inside of one;
* `isValid_splice` — edits between characters.
-/

set_option autoImplicit false

namespace ActionLog

namespace Text

/-! ## Putting together and cutting -/

theorem isValid_cons_of_char {code : Nat} {s : Text} (h : Leads code s) :
    isValid (Utf8.encode code ++ s) = isValid s := by
  rw [isValid, pieces_char h]
  rfl

theorem not_isValid_of_stray {b : UInt8} {s : Text} (h : Utf8.decode? (b :: s) = none) :
    isValid (b :: s) = false := by
  rw [isValid, pieces_stray h]
  rfl

theorem isValid_append {x y : Text} (hx : isValid x = true) (hy : isValid y = true) :
    isValid (x ++ y) = true := by
  unfold isValid at hx
  rw [isValid, pieces_append (lead_of_isValid hy), List.all_append, hx]
  exact hy

/-- A character that is read to its end is read so whatever follows. -/
theorem decode?_extend {s : Text} {r : Nat × Nat} (h : Utf8.decode? s = some r) (y : Text) :
    Utf8.decode? (s ++ y) = some r := by
  rcases s with _ | ⟨a, _ | ⟨b, _ | ⟨c, _ | ⟨d, s⟩⟩⟩⟩
  · cases h
  all_goals
    rcases y with _ | ⟨y₁, _ | ⟨y₂, _ | ⟨y₃, y⟩⟩⟩ <;>
      simp only [List.cons_append, List.nil_append, List.append_nil, Utf8.decode?] at h ⊢ <;>
      split_ifs at h ⊢ <;> simp_all

/-- What follows a well-formed part of a well-formed text is well-formed. -/
theorem isValid_of_append {x y : Text} (hx : isValid x = true) (h : isValid (x ++ y) = true) :
    isValid y = true := by
  induction x using pieces_induction with
  | nil => exact h
  | char code x hlead ih =>
    have hlead' : Leads code (x ++ y) := by
      unfold Leads at hlead ⊢
      rw [← List.append_assoc]
      exact decode?_extend hlead y
    rw [isValid_cons_of_char hlead] at hx
    rw [List.append_assoc, isValid_cons_of_char hlead'] at h
    exact ih hx h
  | stray b x hnone _ =>
    rw [not_isValid_of_stray hnone] at hx
    cases hx

/-- What stands before a well-formed part of a well-formed text is well-formed. -/
theorem isValid_initial {x y : Text} (hy : isValid y = true) (h : isValid (x ++ y) = true) :
    isValid x = true := by
  rw [isValid, pieces_append (lead_of_isValid hy), List.all_append, Bool.and_eq_true] at h
  exact h.1

theorem isValid_basic {s : Text} (h : ∀ b ∈ s, IsBasic b) : isValid s = true := by
  induction s with
  | nil => rfl
  | cons b s ih =>
    rw [List.forall_mem_cons] at h
    rw [isValid, pieces_basic h.1]
    exact ih h.2

/-! ## White space and lines -/

theorem isValid_flatten {ms : List Text} (h : ∀ m ∈ ms, isValid m = true) :
    isValid ms.flatten = true := by
  induction ms with
  | nil => rfl
  | cons m ms ih =>
    rw [List.forall_mem_cons] at h
    rw [List.flatten_cons]
    exact isValid_append h.1 (ih h.2)

theorem isValid_blanks : ∀ m ∈ blanks, isValid m = true := by
  have hall : blanks.all isValid = true := by decide +kernel
  exact List.all_eq_true.mp hall

theorem isValid_stripEnd {s : Text} (h : isValid s = true) :
    isValid (stripEnd blanks s) = true := by
  obtain ⟨ms, hms, hs⟩ := stripStart_eq (blanks.map List.reverse) s.reverse
  -- the marks are read from the end of the text
  have hsplit : s = stripEnd blanks s ++ (ms.map List.reverse).reverse.flatten := by
    have hrev := congrArg List.reverse hs
    rwa [List.reverse_reverse, List.reverse_append, List.reverse_flatten] at hrev
  have hmarks : isValid (ms.map List.reverse).reverse.flatten = true := by
    refine isValid_flatten fun m hm => ?_
    obtain ⟨m', hm', rfl⟩ := List.mem_map.mp (List.mem_reverse.mp hm)
    obtain ⟨blank, hblank, rfl⟩ := List.mem_map.mp (hms m' hm')
    rw [List.reverse_reverse]
    exact isValid_blanks blank hblank
  rw [hsplit] at h
  exact isValid_initial hmarks h

theorem isValid_trim {s : Text} (h : isValid s = true) : isValid (trim s) = true :=
  isValid_stripEnd (isValid_stripStart s h)

theorem isValid_unlines {ls : List Text} (h : ∀ l ∈ ls, isValid l = true) :
    isValid (unlines ls) = true := by
  induction ls with
  | nil => rfl
  | cons l ls ih =>
    rw [List.forall_mem_cons] at h
    cases ls with
    | nil =>
      rw [unlines_singleton]
      exact h.1
    | cons l' ls =>
      have hnewline : isValid [Byte.newline] = true := by decide
      rw [unlines_cons_cons]
      exact isValid_append h.1 (isValid_append hnewline (ih h.2))

theorem isValid_trimNewlines {s : Text} (h : isValid s = true) :
    isValid (trimNewlines s) = true := by
  obtain ⟨i, j, hs⟩ := trimNewlines_eq s
  have hnewlines : ∀ k, isValid (List.replicate k Byte.newline) = true := by
    refine fun k => isValid_basic fun b hb => ?_
    rw [List.eq_of_mem_replicate hb]
    decide
  rw [hs, List.append_assoc] at h
  exact isValid_initial (hnewlines j) (isValid_of_append (hnewlines i) h)

/-! ## Searches -/

/-- **In a well-formed text a well-formed name is found only where its bytes stand**: there is no
stray byte to be read as a replacement character.  Bytes `w` have been compared already. -/
theorem literal?_behind {pat s w : Text} {n : Nat} (hpat : isValid (w ++ pat) = true)
    (hs : isValid (w ++ s) = true) (h : literal? pat s = some n) :
    n = pat.length ∧ ∃ t, s = pat ++ t := by
  fun_induction literal? pat s generalizing n w with
  | case1 s =>
    cases h
    exact ⟨rfl, s, rfl⟩
  | case2 pat s ih =>
    obtain ⟨k, hk, rfl⟩ := Option.map_eq_some_iff.mp h
    obtain ⟨rfl, t, rfl⟩ := ih (w := w ++ [0xEF, 0xBF, 0xBD]) (by simpa using hpat)
      (by simpa using hs) hk
    exact ⟨rfl, t, rfl⟩
  | case3 pat b s _ hstray ih =>
    have hw : isValid w = true := by
      unfold isValid at hpat
      rw [pieces_append (by rfl), List.all_append, Bool.and_eq_true] at hpat
      exact hpat.1
    have hrest := isValid_of_append hw hs
    rw [not_isValid_of_stray (Option.isNone_iff_eq_none.mp hstray)] at hrest
    cases hrest
  | case4 => cases h
  | case5 => cases h
  | case6 a pat b s _ hab ih =>
    obtain ⟨k, hk, rfl⟩ := Option.map_eq_some_iff.mp h
    rw [beq_iff_eq] at hab
    subst hab
    obtain ⟨rfl, t, rfl⟩ := ih (w := w ++ [a]) (by simpa using hpat) (by simpa using hs) hk
    exact ⟨rfl, t, rfl⟩
  | case7 => cases h
  | case8 => cases h

theorem literal?_of_isValid {pat s : Text} {n : Nat} (hpat : isValid pat = true)
    (hs : isValid s = true) (h : literal? pat s = some n) : n = pat.length ∧ ∃ t, s = pat ++ t :=
  literal?_behind (w := []) hpat hs h

/-- **A search by characters tries no place inside of one**: what stands before a match and from
there on is well-formed.  Matches have to end between characters as well. -/
theorem mem_findAllFrom_of_isValid {α : Type} {p : Pattern α}
    (hp : ∀ {before : Option UInt8} {r : Text} {n : Nat} {a : α}, isValid r = true →
      p before r = some (n, a) → ∃ b x t, r = b :: x ++ t ∧ n = (b :: x).length ∧ isValid t = true)
    {s : Text} (hs : isValid s = true) {pos : Nat} {before : Option UInt8} :
    ∀ hit ∈ findAllFrom .char p pos before 0 s, ∃ u r n, s = u ++ r ∧ isValid u = true ∧
      isValid r = true ∧ p (u.getLast?.or before) r = some (n, hit.value) ∧
      hit.start = pos + u.length ∧ hit.stop = hit.start + n := by
  intro hit hhit
  -- a match behind a first part that ends between characters
  have hlater : ∀ {b : UInt8} {x t : Text}, s = b :: x ++ t → isValid t = true →
      hit ∈ findAllFrom .char p (pos + 1) (some b) x.length (x ++ t) →
      ∃ u r n, s = u ++ r ∧ isValid u = true ∧ isValid r = true ∧
        p (u.getLast?.or before) r = some (n, hit.value) ∧ hit.start = pos + u.length ∧
        hit.stop = hit.start + n := by
    intro b x t heq ht hmem
    rw [findAllFrom_rest .char p pos before] at hmem
    have hlt : t.length < s.length := by
      rw [heq, List.length_append, List.length_cons]
      omega
    obtain ⟨u, r, n, rfl, hu, hr, hmatch, hstart, hstop⟩ :=
      mem_findAllFrom_of_isValid hp ht hit hmem
    have hfront : isValid (b :: x) = true := isValid_initial ht (heq ▸ hs)
    refine ⟨b :: x ++ u, r, n, by rw [heq, List.append_assoc], isValid_append hfront hu, hr, ?_, ?_,
      hstop⟩
    · rwa [List.getLast?_append, Option.or_assoc]
    · rw [hstart, List.length_append, Nat.add_assoc]
  rcases s with _ | ⟨b, s⟩
  · simp [findAllFrom] at hhit
  · rw [findAllFrom] at hhit
    split at hhit
    · rename_i n a hmatch
      obtain ⟨b', x, t, heq, rfl, ht⟩ := hp hs hmatch
      rcases List.mem_cons.mp hhit with rfl | hhit
      · exact ⟨[], b :: s, _, rfl, rfl, hs, hmatch, rfl, rfl⟩
      · obtain ⟨rfl, rfl⟩ := List.cons.inj heq
        rw [List.length_cons, Nat.add_sub_cancel] at hhit
        exact hlater rfl ht hhit
    · rcases lead_cases (List.cons_ne_nil b s) with ⟨code, t, heq, hlead⟩ | ⟨b', t, heq, hnone⟩
      · obtain ⟨b', x, hx⟩ := List.exists_cons_of_ne_nil (encode_ne_nil code)
        have hwidth := width_of_leads hlead
        rw [heq, isValid_cons_of_char hlead] at hs
        rw [← heq, hx] at hwidth
        rw [hx] at heq
        obtain ⟨rfl, rfl⟩ := List.cons.inj heq
        rw [Grain.width, hwidth, List.length_cons, Nat.add_sub_cancel] at hhit
        exact hlater rfl hs hhit
      · rw [heq, not_isValid_of_stray hnone] at hs
        cases hs
termination_by s.length
decreasing_by exact hlt

end Text

/-! ## Declarations -/

namespace Declaration

open Text (isValid isValid_trim isValid_cut isValid_of_append isValid_initial)

variable {line : Text}

theorem isValid_head (h : isValid line = true) : isValid (head line) = true := by
  by_cases hequals : Byte.equals ∈ line
  · rw [head_append_tail hequals] at h
    exact (isValid_cut (by decide) h).1
  · have hhead : head line = line := by
      refine List.takeWhile_eq_self_iff.mpr fun b hb => ?_
      rw [bne_iff_ne]
      rintro rfl
      exact hequals hb
    rwa [hhead]

theorem isValid_tail (h : isValid line = true) (hequals : Byte.equals ∈ line) :
    isValid (tail line) = true := by
  rw [head_append_tail hequals] at h
  exact (isValid_cut (by decide) h).2

theorem isValid_nameOf (h : isValid line = true) : isValid (nameOf line) = true := by
  have hname := isValid_trim (isValid_head h)
  unfold nameOf
  refine isValid_trim ?_
  cases hafter : Text.after? keyword (Text.trim (head line)) with
  | none => exact hname
  | some rest =>
    rw [Text.after?_eq_some.mp hafter] at hname
    exact isValid_of_append (Text.isValid_of_isRun keyword_isRun) hname

theorem isValid_valueOf (h : isValid line = true) (hequals : Byte.equals ∈ line) :
    isValid (valueOf line) = true := by
  have hvalue := isValid_trim (isValid_tail h hequals)
  unfold valueOf
  refine isValid_trim ?_
  unfold Text.dropEnd
  split
  · rename_i rest hrest
    have hsplit := congrArg List.reverse (List.append_eq_of_isPrefixOf?_eq_some hrest)
    rw [List.reverse_append, List.reverse_reverse, List.reverse_reverse] at hsplit
    rw [← hsplit] at hvalue
    exact isValid_initial (by decide) hvalue
  · exact hvalue

end Declaration

/-! ## Edits -/

namespace Draft

open Text (isValid isValid_append isValid_of_append)

/-- **Edits between characters**, with well-formed texts, keep a text well-formed. -/
theorem isValid_splice {s : Text} (hs : isValid s = true) {es : List Edit}
    (hes : ∀ e ∈ es, isValid (s.take e.start) = true ∧ isValid (s.take e.stop) = true ∧
      isValid e.text = true) {offset : Nat} (hoffset : isValid (s.take offset) = true) :
    isValid (splice s offset es) = true := by
  induction es generalizing offset with
  | nil =>
    rw [← List.take_append_drop offset s] at hs
    exact isValid_of_append hoffset hs
  | cons e es ih =>
    rw [List.forall_mem_cons] at hes
    obtain ⟨⟨hstart, hstop, htext⟩, hes⟩ := hes
    refine isValid_append (isValid_append ?_ htext) (ih hes hstop)
    rcases Nat.le_total offset e.start with hle | hle
    · have hsplit : s.take offset ++ (s.take e.start).drop offset = s.take e.start := by
        rw [← Nat.min_eq_left hle, ← List.take_take, Nat.min_eq_left hle, List.take_append_drop]
      rw [← hsplit] at hstart
      exact isValid_of_append hoffset hstart
    · rw [List.drop_eq_nil_of_le]
      · rfl
      · rw [List.length_take]
        omega

end Draft

end ActionLog
