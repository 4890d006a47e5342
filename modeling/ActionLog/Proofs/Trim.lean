import ActionLog.Text.Blank
import Mathlib.Data.List.Basic
import Mathlib.Data.List.DropRight
import Mathlib.Data.List.TakeWhile

/-!
# Lines, and white space at their ends

* `trimBy_ends`, `trimNewlines_eq` — bytes of a class taken away at the ends of a text;
* `lines_unlines`, `newline_not_mem` — lines hold no newline, and are read back after joining;
* `lines_trimNewlines` — newlines at the ends of a text are empty lines;
* `stripStart_eq`, `trim_eq` — trimming takes white space away and nothing else;
* `stripStart_blanks_frame`, `stripEnd_blanks_frame` — what is taken away around a text is taken away
  around any other;
* `getLast?_trim` — what a trimmed text does not end in;
* `trim_bare`, `trim_eq_self` — the trimmed texts are those with white space at neither end;
* `trim_blank_append`, `trim_append_blank` — white space put in front of a text or behind it is
  trimmed; `trim_invariant` says that trimming changes nothing that such white space does not;
* `trim_eq_nil`, `exists_frame` — the texts that are white space, and what trimming takes away as two
  of them;
* `not_suffix_behind`, `not_prefix_before` — white space next to a trimmed text forms no other white
  space with the bytes of the text;
* `isMark`, `white_bytes` — the bytes that structure a statement are neither white nor part of a name;
* `trim_run` — a text that starts and ends with an identifier byte is what is left of it between
  gaps;
* `lastSolid` — the last byte that is neither tab nor space.
-/

set_option autoImplicit false

namespace ActionLog.Text

/-! ## Bytes removed at the ends -/

theorem trimEndBy_eq (p : UInt8 → Bool) (s : Text) :
    ∃ w, s = trimEndBy p s ++ w ∧ ∀ b ∈ w, p b = true := by
  refine ⟨(s.reverse.takeWhile p).reverse, ?_, ?_⟩
  · unfold trimEndBy
    rw [← List.reverse_append, List.takeWhile_append_dropWhile, List.reverse_reverse]
  · intro b hb
    exact List.mem_takeWhile_imp (List.mem_reverse.mp hb)

theorem trimEndBy_initial (p : UInt8 → Bool) (s : Text) : trimEndBy p s <+: s := by
  have h : s.reverse.dropWhile p <:+ s.reverse := List.dropWhile_suffix p
  rw [← List.reverse_prefix, List.reverse_reverse] at h
  exact h

theorem trimEndBy_trimEndBy (p : UInt8 → Bool) (s : Text) :
    trimEndBy p (trimEndBy p s) = trimEndBy p s := by
  unfold trimEndBy
  rw [List.reverse_reverse, List.dropWhile_idempotent]

theorem trimEndBy_append {p : UInt8 → Bool} (s : Text) {t : Text} (ht : ∀ b ∈ t, p b = true) :
    trimEndBy p (s ++ t) = trimEndBy p s := by
  unfold trimEndBy
  rw [List.reverse_append, List.dropWhile_append_of_pos]
  intro b hb
  exact ht b (List.mem_reverse.mp hb)

theorem mem_trimEndBy_concat {p : UInt8 → Bool} (s : Text) {b : UInt8} (hb : p b = false) :
    b ∈ trimEndBy p (s ++ [b]) := by
  simp [trimEndBy, hb]

theorem head?_dropWhile (p : UInt8 → Bool) (s : Text) :
    (s.dropWhile p).head?.any p = false := by
  have hnot := List.head?_dropWhile_not p s
  cases hd : (s.dropWhile p).head? with
  | none => rfl
  | some b => simpa [hd] using hnot

/-- **What is left starts and ends with no byte of the class.** -/
theorem trimBy_ends (p : UInt8 → Bool) (s : Text) :
    (trimBy p s).head?.any p = false ∧ (trimBy p s).getLast?.any p = false := by
  constructor
  · obtain ⟨t, ht⟩ := trimEndBy_initial p (s.dropWhile p)
    have hhead := head?_dropWhile p s
    rw [← ht] at hhead
    unfold trimBy
    cases hs : trimEndBy p (s.dropWhile p) with
    | nil => rfl
    | cons b r => rwa [hs] at hhead
  · unfold trimBy trimEndBy
    rw [List.getLast?_reverse]
    exact head?_dropWhile p _

/-- Newlines at the ends are taken away, and nothing else. -/
theorem trimNewlines_eq (s : Text) : ∃ i j,
    s = List.replicate i Byte.newline ++ trimNewlines s ++ List.replicate j Byte.newline := by
  obtain ⟨w, hw, hwall⟩ := trimEndBy_eq (· == Byte.newline) (s.dropWhile (· == Byte.newline))
  have hfront : s.takeWhile (· == Byte.newline) =
      List.replicate (s.takeWhile (· == Byte.newline)).length Byte.newline := by
    rw [List.eq_replicate_iff]
    exact ⟨rfl, fun b hb => by simpa using List.mem_takeWhile_imp hb⟩
  have hback : w = List.replicate w.length Byte.newline := by
    rw [List.eq_replicate_iff]
    exact ⟨rfl, fun b hb => by simpa using hwall b hb⟩
  refine ⟨(s.takeWhile (· == Byte.newline)).length, w.length, ?_⟩
  rw [← hfront, ← hback, List.append_assoc]
  unfold trimNewlines trimBy
  rw [← hw, List.takeWhile_append_dropWhile]

/-- Newlines added at the ends are taken away again. -/
theorem trimNewlines_replicate (i j : Nat) (s : Text) :
    trimNewlines (List.replicate i Byte.newline ++ s ++ List.replicate j Byte.newline) =
      trimNewlines s := by
  have hnew : ∀ {k : Nat}, ∀ b ∈ List.replicate k Byte.newline, (b == Byte.newline) = true := by
    intro k b hb
    rw [List.eq_of_mem_replicate hb]
    rfl
  unfold trimNewlines trimBy
  rw [List.append_assoc, List.dropWhile_append_of_pos hnew, List.dropWhile_append]
  split
  · rename_i hempty
    rw [List.isEmpty_iff] at hempty
    rw [hempty, List.dropWhile_eq_nil_iff.mpr hnew]
  · exact trimEndBy_append _ hnew

theorem trimNewlines_trimNewlines (s : Text) : trimNewlines (trimNewlines s) = trimNewlines s := by
  obtain ⟨i, j, hs⟩ := trimNewlines_eq s
  rw [← trimNewlines_replicate i j (trimNewlines s), ← hs]

/-! ## Lines -/

theorem lines_ne_nil (s : Text) : lines s ≠ [] := List.splitOn_ne_nil _ s

theorem unlines_singleton (l : Text) : unlines [l] = l := by simp [unlines]

theorem unlines_cons_cons (l l' : Text) (ls : List Text) :
    unlines (l :: l' :: ls) = l ++ Byte.newline :: unlines (l' :: ls) := by
  simp [unlines, List.intercalate]

theorem lines_unlines {ls : List Text} (h : ∀ l ∈ ls, Byte.newline ∉ l) (hne : ls ≠ []) :
    lines (unlines ls) = ls :=
  List.splitOn_intercalate Byte.newline h hne

theorem lines_eq_singleton {l : Text} (h : Byte.newline ∉ l) : lines l = [l] := by
  have hlines : lines (unlines [l]) = [l] := lines_unlines (by simpa using h) (by simp)
  rwa [unlines_singleton] at hlines

theorem newline_not_mem {s l : Text} (h : l ∈ lines s) : Byte.newline ∉ l := by
  unfold lines at h
  induction s generalizing l with
  | nil =>
    rw [List.splitOn_nil, List.mem_singleton] at h
    subst h
    exact List.not_mem_nil
  | cons b s ih =>
    rw [List.splitOn_cons_eq_if_modifyHead] at h
    split at h
    · rcases List.mem_cons.mp h with rfl | h
      · exact List.not_mem_nil
      · exact ih h
    · rename_i hb
      obtain ⟨l₀, ls, hls⟩ := List.exists_cons_of_ne_nil (List.splitOn_ne_nil Byte.newline s)
      rw [hls, List.modifyHead_cons] at h
      rcases List.mem_cons.mp h with rfl | h
      · intro hmem
        rcases List.mem_cons.mp hmem with hnew | hmem
        · exact hb (by rw [← hnew]; rfl)
        · exact ih (hls ▸ List.mem_cons_self) hmem
      · exact ih (hls ▸ List.mem_cons_of_mem _ h)

theorem lines_append_newline (s t : Text) :
    lines (s ++ Byte.newline :: t) = lines s ++ lines t :=
  List.splitOn_append_cons_self s t

theorem lines_replicate_append (i : Nat) (s : Text) :
    lines (List.replicate i Byte.newline ++ s) = List.replicate i [] ++ lines s := by
  induction i with
  | zero => rfl
  | succ i ih =>
    have hnil := lines_append_newline [] (List.replicate i Byte.newline ++ s)
    rw [ih] at hnil
    exact hnil

theorem lines_append_replicate (s : Text) (j : Nat) :
    lines (s ++ List.replicate j Byte.newline) = lines s ++ List.replicate j [] := by
  cases j with
  | zero => rw [List.replicate_zero, List.replicate_zero, List.append_nil, List.append_nil]
  | succ j =>
    have hrest := lines_replicate_append j []
    rw [List.append_nil] at hrest
    rw [List.replicate_succ, lines_append_newline, hrest, List.replicate_succ']
    rfl

/-- Newlines at the ends of a text are empty lines. -/
theorem lines_trimNewlines (s : Text) : ∃ i j, lines s =
    List.replicate i [] ++ lines (trimNewlines s) ++ List.replicate j [] := by
  obtain ⟨i, j, hs⟩ := trimNewlines_eq s
  refine ⟨i, j, ?_⟩
  rw [← lines_replicate_append, ← lines_append_replicate, ← hs]

/-! ## White space -/

/-- The bytes of the encodings of white space. -/
def isWhite (b : UInt8) : Bool := blanks.any (·.contains b)

/-- **What is taken away at the front is a sequence of marks.** -/
theorem stripStart_eq (marks : List Text) (s : Text) :
    ∃ ms : List Text, (∀ m ∈ ms, m ∈ marks) ∧ s = ms.flatten ++ stripStart marks s := by
  fun_induction stripStart marks s with
  | case1 s r hr _ ih =>
    obtain ⟨m, hm, hmr⟩ := List.exists_of_findSome?_eq_some hr
    obtain ⟨ms, hms, hsplit⟩ := ih
    refine ⟨m :: ms, List.forall_mem_cons.mpr ⟨hm, hms⟩, ?_⟩
    rw [List.flatten_cons, List.append_assoc, ← hsplit]
    exact (List.append_eq_of_isPrefixOf?_eq_some hmr).symm
  | case2 | case3 => exact ⟨[], by simp, rfl⟩

/-- Every encoding of white space, read from either end, starts with a byte of no identifier. -/
theorem blanks_head : (∀ m ∈ blanks, m ≠ [] ∧ m.head?.any Byte.isName = false) ∧
    ∀ m ∈ blanks.map List.reverse, m ≠ [] ∧ m.head?.any Byte.isName = false := by
  decide

/-- No encoding of white space starts another one, read from either end. -/
theorem blanks_apart : (∀ m ∈ blanks, ∀ m' ∈ blanks, m <+: m' → m = m') ∧
    ∀ m ∈ blanks.map List.reverse, ∀ m' ∈ blanks.map List.reverse, m <+: m' → m = m' := by
  decide +kernel

section Marks

variable {marks : List Text} (hne : ∀ m ∈ marks, m ≠ [])
  (hapart : ∀ m ∈ marks, ∀ m' ∈ marks, m <+: m' → m = m')
include hne hapart

/-- **A mark at the front is taken away**, whatever follows it, if no mark starts another one. -/
theorem stripStart_mark {m : Text} (hm : m ∈ marks) (t : Text) :
    stripStart marks (m ++ t) = stripStart marks t := by
  have hfind : marks.findSome? (·.isPrefixOf? (m ++ t)) = some t := by
    cases hx : marks.findSome? (·.isPrefixOf? (m ++ t)) with
    | none =>
      have hnone := List.findSome?_eq_none_iff.mp hx m hm
      rw [List.isPrefixOf?_eq_some_iff_append_eq.mpr rfl] at hnone
      cases hnone
    | some r =>
      obtain ⟨m', hm', hmr⟩ := List.exists_of_findSome?_eq_some hx
      have heq := List.append_eq_of_isPrefixOf?_eq_some hmr
      -- no other mark stands where this one does
      have hsame : m' = m := by
        rcases List.prefix_or_prefix_of_prefix ⟨r, heq⟩ ⟨t, rfl⟩ with h | h
        · exact hapart m' hm' m hm h
        · exact (hapart m hm m' hm' h).symm
      rw [hsame] at heq
      rw [List.append_cancel_left heq]
  rw [stripStart, hfind]
  simp [List.length_pos_iff.mpr (hne m hm)]

/-- **What is taken away in front of a text is taken away in front of any other.** -/
theorem stripStart_frame (s : Text) :
    ∃ w, s = w ++ stripStart marks s ∧ (∀ b ∈ w, ∃ m ∈ marks, b ∈ m) ∧
      ∀ t, stripStart marks (w ++ t) = stripStart marks t := by
  obtain ⟨ms, hms, hs⟩ := stripStart_eq marks s
  refine ⟨ms.flatten, hs, fun b hb => ?_, fun t => ?_⟩
  · obtain ⟨m, hm, hbm⟩ := List.mem_flatten.mp hb
    exact ⟨m, hms m hm, hbm⟩
  · clear hs
    induction ms with
    | nil => rfl
    | cons m ms ih =>
      rw [List.forall_mem_cons] at hms
      rw [List.flatten_cons, List.append_assoc, stripStart_mark hne hapart hms.1, ih hms.2]

end Marks

theorem stripStart_blank {m : Text} (hm : m ∈ blanks) (t : Text) :
    stripStart blanks (m ++ t) = stripStart blanks t ∧
      stripStart (blanks.map List.reverse) (m.reverse ++ t) =
        stripStart (blanks.map List.reverse) t :=
  ⟨stripStart_mark (fun m hm => (blanks_head.1 m hm).1) blanks_apart.1 hm t,
    stripStart_mark (fun m hm => (blanks_head.2 m hm).1) blanks_apart.2 (List.mem_map_of_mem hm) t⟩

theorem stripStart_blanks_frame (s : Text) : ∃ w, s = w ++ stripStart blanks s ∧
    (∀ b ∈ w, isWhite b = true) ∧ ∀ t, stripStart blanks (w ++ t) = stripStart blanks t := by
  obtain ⟨w, hw, hbytes, hframe⟩ :=
    stripStart_frame (fun m hm => (blanks_head.1 m hm).1) blanks_apart.1 s
  refine ⟨w, hw, fun b hb => ?_, hframe⟩
  obtain ⟨m, hm, hbm⟩ := hbytes b hb
  exact List.any_eq_true.mpr ⟨m, hm, by simpa using hbm⟩

theorem stripEnd_blanks_frame (s : Text) : ∃ w, s = stripEnd blanks s ++ w ∧
    (∀ b ∈ w, isWhite b = true) ∧ ∀ t, stripEnd blanks (t ++ w) = stripEnd blanks t := by
  obtain ⟨w, hw, hbytes, hframe⟩ :=
    stripStart_frame (fun m hm => (blanks_head.2 m hm).1) blanks_apart.2 s.reverse
  refine ⟨w.reverse, ?_, fun b hb => ?_, fun t => ?_⟩
  · rw [← List.reverse_inj, hw]
    simp [stripEnd]
  · obtain ⟨m, hm, hbm⟩ := hbytes b (List.mem_reverse.mp hb)
    obtain ⟨m', hm', rfl⟩ := List.mem_map.mp hm
    exact List.any_eq_true.mpr ⟨m', hm', by simpa using hbm⟩
  · unfold stripEnd
    rw [List.reverse_append, List.reverse_reverse, hframe]

theorem stripStart_blanks_eq (s : Text) :
    ∃ w, s = w ++ stripStart blanks s ∧ ∀ b ∈ w, isWhite b = true := by
  obtain ⟨w, hw, hwhite, _⟩ := stripStart_blanks_frame s
  exact ⟨w, hw, hwhite⟩

theorem stripEnd_blanks_eq (s : Text) :
    ∃ w, s = stripEnd blanks s ++ w ∧ ∀ b ∈ w, isWhite b = true := by
  obtain ⟨w, hw, hwhite, _⟩ := stripEnd_blanks_frame s
  exact ⟨w, hw, hwhite⟩

/-- **Trimming takes white space away at both ends, and nothing else.** -/
theorem trim_eq (s : Text) :
    ∃ w w', s = w ++ trim s ++ w' ∧ (∀ b ∈ w, isWhite b = true) ∧ ∀ b ∈ w', isWhite b = true := by
  obtain ⟨w, hw, hwm⟩ := stripStart_blanks_eq s
  obtain ⟨w', hw', hwm'⟩ := stripEnd_blanks_eq (stripStart blanks s)
  refine ⟨w, w', ?_, hwm, hwm'⟩
  rw [List.append_assoc]
  unfold trim
  rw [← hw']
  exact hw

/-- A text that starts with no mark keeps its front. -/
theorem stripStart_eq_self {marks : List Text} {s : Text} (h : ∀ m ∈ marks, ¬ m <+: s) :
    stripStart marks s = s := by
  have hnone : marks.findSome? (·.isPrefixOf? s) = none := by
    rw [List.findSome?_eq_none_iff]
    intro m hm
    cases hr : m.isPrefixOf? s with
    | none => rfl
    | some r => exact absurd ⟨r, List.isPrefixOf?_eq_some_iff_append_eq.mp hr⟩ (h m hm)
  rw [stripStart, hnone]

theorem stripStart_run {marks : List Text}
    (hmarks : ∀ m ∈ marks, m ≠ [] ∧ m.head?.any Byte.isName = false) {b : UInt8}
    (hb : Byte.isName b = true) (s : Text) : stripStart marks (b :: s) = b :: s := by
  apply stripStart_eq_self
  intro m hm hpre
  obtain ⟨hne, hhead⟩ := hmarks m hm
  obtain ⟨c, m', rfl⟩ := List.exists_cons_of_ne_nil hne
  obtain ⟨rfl, _⟩ := List.cons_prefix_cons.mp hpre
  rw [List.head?_cons, Option.any_some, hb] at hhead
  cases hhead

theorem isGap_cases {b : UInt8} (h : Byte.isGap b = true) :
    b = 0x09 ∨ b = 0x0A ∨ b = 0x0C ∨ b = 0x0D ∨ b = 0x20 := by
  simpa [Byte.isGap, or_assoc] using h

theorem isGap_of_isTabOrSpace {b : UInt8} (h : Byte.isTabOrSpace b = true) :
    Byte.isGap b = true := by
  simp only [Byte.isTabOrSpace, Bool.or_eq_true, beq_iff_eq] at h
  rcases h with rfl | rfl <;> rfl

theorem blank_singleton {b : UInt8} (h : Byte.isGap b = true) : [b] ∈ blanks := by
  rcases isGap_cases h with rfl | rfl | rfl | rfl | rfl <;> decide

theorem stripStart_gaps {w : Text} (hw : ∀ b ∈ w, Byte.isGap b = true) (s : Text) :
    stripStart blanks (w ++ s) = stripStart blanks s ∧
      stripStart (blanks.map List.reverse) (w ++ s) =
        stripStart (blanks.map List.reverse) s := by
  induction w with
  | nil => exact ⟨rfl, rfl⟩
  | cons b w ih =>
    obtain ⟨ih₁, ih₂⟩ := ih fun x hx => hw x (List.mem_cons_of_mem _ hx)
    obtain ⟨hone₁, hone₂⟩ := stripStart_blank (blank_singleton (hw b List.mem_cons_self)) (w ++ s)
    exact ⟨hone₁.trans ih₁, hone₂.trans ih₂⟩

/-- **What is left between gaps** of a text that starts and ends with an identifier byte. -/
theorem trim_run {w x w' : Text} (hw : ∀ b ∈ w, Byte.isGap b = true)
    (hw' : ∀ b ∈ w', Byte.isGap b = true) (hhead : x.head?.any Byte.isName = true)
    (hlast : x.getLast?.any Byte.isName = true) : trim (w ++ x ++ w') = x := by
  have hstart : stripStart blanks (w ++ x ++ w') = x ++ w' := by
    rw [List.append_assoc, (stripStart_gaps hw _).1]
    cases x with
    | nil => cases hhead
    | cons b x => exact stripStart_run blanks_head.1 hhead (x ++ w')
  unfold trim stripEnd
  rw [hstart, List.reverse_append,
    (stripStart_gaps (fun b hb => hw' b (List.mem_reverse.mp hb)) _).2]
  cases hx : x.reverse with
  | nil =>
    rw [List.reverse_eq_nil_iff] at hx
    subst hx
    cases hhead
  | cons b y =>
    have hb : Byte.isName b = true := by
      rw [← List.head?_reverse, hx] at hlast
      exact hlast
    rw [stripStart_run blanks_head.2 hb, ← hx, List.reverse_reverse]

/-- The bytes that structure a statement: they end arguments, names and values, or surround
strings. -/
def isMark (b : UInt8) : Bool :=
  [Byte.comma, Byte.closeParen, Byte.semicolon, Byte.equals, Byte.doubleQuote,
    Byte.singleQuote].contains b

theorem isMark_of_isName {b : UInt8} (h : Byte.isName b = true) : isMark b = false := by
  by_contra hb
  simp only [isMark, Bool.not_eq_false, List.contains_iff_mem, List.mem_cons, List.not_mem_nil,
    or_false] at hb
  rcases hb with rfl | rfl | rfl | rfl | rfl | rfl <;> cases h

theorem isMark_of_isGap {b : UInt8} (h : Byte.isGap b = true) : isMark b = false := by
  rcases isGap_cases h with rfl | rfl | rfl | rfl | rfl <;> rfl

/-- White space is no part of a name and no mark. -/
theorem white_bytes {b : UInt8} (h : isWhite b = true) :
    Byte.isName b = false ∧ isMark b = false := by
  have hall : ∀ m ∈ blanks, m.all (fun b => !Byte.isName b && !isMark b) = true := by
    decide +kernel
  obtain ⟨m, hm, hb⟩ := List.any_eq_true.mp h
  simpa using List.all_eq_true.mp (hall m hm) b (by simpa using hb)

/-- What is left of a text starts with no mark. -/
theorem not_prefix_stripStart {marks : List Text} (hmarks : ∀ m ∈ marks, m ≠ []) {m : Text}
    (hm : m ∈ marks) (s : Text) : ¬ m <+: stripStart marks s := by
  rw [stripStart]
  split
  · rename_i r hr
    split
    · rename_i hlt
      exact not_prefix_stripStart hmarks hm r
    · rename_i hlt
      obtain ⟨m', hm', hmr⟩ := List.exists_of_findSome?_eq_some hr
      have heq := List.append_eq_of_isPrefixOf?_eq_some hmr
      have hpos := List.length_pos_iff.mpr (hmarks m' hm')
      have hlen := congrArg List.length heq
      rw [List.length_append] at hlen
      omega
  · rename_i hnone
    rintro ⟨r, hr⟩
    have hsome := List.isPrefixOf?_eq_some_iff_append_eq.mpr hr
    rw [List.findSome?_eq_none_iff.mp hnone m hm] at hsome
    cases hsome
termination_by s.length

/-- What is left of a text at its front is no mark. -/
theorem stripStart_head {marks : List Text} (hmarks : ∀ m ∈ marks, m ≠ []) {b : UInt8}
    (hb : [b] ∈ marks) (s : Text) : (stripStart marks s).head? ≠ some b := by
  intro hhead
  obtain ⟨rest, hrest⟩ := List.head?_eq_some_iff.mp hhead
  exact not_prefix_stripStart hmarks hb s ⟨rest, hrest.symm⟩

/-- A trimmed text starts with no gap. -/
theorem head?_trim (s : Text) {b : UInt8} (hb : Byte.isGap b = true) : (trim s).head? ≠ some b := by
  intro hhead
  obtain ⟨w, hw, _⟩ := stripEnd_blanks_eq (stripStart blanks s)
  refine stripStart_head (fun m hm => (blanks_head.1 m hm).1) ?_ s (b := b) ?_
  · rcases isGap_cases hb with rfl | rfl | rfl | rfl | rfl <;> decide
  · rw [hw, List.head?_append]
    show (trim s).head?.or _ = _
    rw [hhead, Option.some_or]

theorem getLast?_trim (s : Text) {b : UInt8} (hb : Byte.isTabOrSpace b = true) :
    (trim s).getLast? ≠ some b := by
  unfold trim stripEnd
  rw [List.getLast?_reverse]
  refine stripStart_head (fun m hm => (blanks_head.2 m hm).1) ?_ _
  simp only [Byte.isTabOrSpace, Bool.or_eq_true, beq_iff_eq] at hb
  rcases hb with rfl | rfl <;> decide

/-! ## Trimmed texts -/

theorem stripEnd_initial (marks : List Text) (s : Text) : stripEnd marks s <+: s := by
  obtain ⟨ms, _, hs⟩ := stripStart_eq (marks.map List.reverse) s.reverse
  refine ⟨ms.flatten.reverse, ?_⟩
  unfold stripEnd
  rw [← List.reverse_append, ← hs, List.reverse_reverse]

/-- **A trimmed text has white space at neither end.** -/
theorem trim_bare (s : Text) : ∀ m ∈ blanks, ¬ m <+: trim s ∧ ¬ m <:+ trim s := by
  intro m hm
  constructor
  · intro hpre
    exact not_prefix_stripStart (fun m hm => (blanks_head.1 m hm).1) hm s
      (hpre.trans (stripEnd_initial blanks _))
  · intro hsuf
    unfold trim stripEnd at hsuf
    rw [← List.reverse_prefix, List.reverse_reverse] at hsuf
    exact not_prefix_stripStart (fun m hm => (blanks_head.2 m hm).1)
      (List.mem_map_of_mem hm) _ hsuf

/-- **A text with white space at neither end is trimmed.** -/
theorem trim_eq_self {s : Text} (h : ∀ m ∈ blanks, ¬ m <+: s ∧ ¬ m <:+ s) : trim s = s := by
  unfold trim stripEnd
  rw [stripStart_eq_self fun m hm => (h m hm).1, stripStart_eq_self, List.reverse_reverse]
  intro m hm hpre
  obtain ⟨m', hm', rfl⟩ := List.mem_map.mp hm
  exact (h m' hm').2 (List.reverse_prefix.mp hpre)

theorem trim_trim (s : Text) : trim (trim s) = trim s := trim_eq_self (trim_bare s)

theorem trim_isInfix (s : Text) : trim s <:+: s := by
  obtain ⟨w, w', hs, _⟩ := trim_eq s
  exact ⟨w, w', hs.symm⟩

theorem trim_nil : trim [] = [] := List.infix_nil.mp (trim_isInfix [])

/-- An encoding of white space that holds a gap is that gap. -/
theorem blank_of_isGap : ∀ m ∈ blanks, ∀ b ∈ m, Byte.isGap b = true → m = [b] := by
  have hall : ∀ m ∈ blanks, (m.filter Byte.isGap).all (m == [·]) = true := by decide +kernel
  intro m hm b hb hgap
  exact beq_iff_eq.mp (List.all_eq_true.mp (hall m hm) b (List.mem_filter.mpr ⟨hb, hgap⟩))

/-- No encoding of white space starts inside of another one. -/
theorem blanks_lead : ∀ m ∈ blanks, ∀ m' ∈ blanks, ∀ b ∈ m'.tail, m.head? ≠ some b := by
  have hall : ∀ m ∈ blanks, ∀ m' ∈ blanks, m'.tail.all (m.head? != some ·) = true := by
    decide +kernel
  intro m hm m' hm' b hb
  exact bne_iff_ne.mp (List.all_eq_true.mp (hall m hm m' hm') b hb)

/-- **White space in front of a text is trimmed**, whatever the text is. -/
theorem trim_blank_append {m : Text} (hm : m ∈ blanks) (s : Text) : trim (m ++ s) = trim s := by
  unfold trim
  rw [(stripStart_blank hm s).1]

/-- **White space behind a text is trimmed**: it makes no other white space of the bytes before
it. -/
theorem trim_append_blank {m : Text} (hm : m ∈ blanks) (s : Text) : trim (s ++ m) = trim s := by
  obtain ⟨w, hw, _, hframe⟩ := stripStart_blanks_frame s
  have hleft : ∀ m ∈ blanks, ¬ m <+: stripStart blanks s := fun m hm =>
    not_prefix_stripStart (fun m hm => (blanks_head.1 m hm).1) hm s
  have hstart : stripStart blanks (s ++ m) = stripStart blanks (stripStart blanks s ++ m) := by
    conv_lhs => rw [hw, List.append_assoc, hframe]
  unfold trim
  rw [hstart]
  generalize stripStart blanks s = r at hleft
  cases r with
  | nil =>
    have hnothing := (stripStart_blank hm []).1
    rw [List.append_nil] at hnothing
    rw [List.nil_append, hnothing, stripStart_eq_self]
    intro m' hm' hpre
    exact (blanks_head.1 m' hm').1 (List.prefix_nil.mp hpre)
  | cons b r =>
    have hfront : stripStart blanks (b :: r ++ m) = b :: r ++ m := by
      apply stripStart_eq_self
      intro m' hm' hpre
      rcases List.prefix_or_prefix_of_prefix hpre (List.prefix_append (b :: r) m) with
        hshort | ⟨u, rfl⟩
      · exact hleft m' hm' hshort
      · have hu : u <+: m := (List.prefix_append_right_inj (b :: r)).mp hpre
        cases u with
        | nil => exact hleft _ hm' (by simp)
        | cons c u =>
          obtain ⟨v, rfl⟩ := hu
          exact blanks_lead _ hm _ hm' c (by simp) rfl
    rw [hfront]
    unfold stripEnd
    rw [List.reverse_append, (stripStart_blank hm _).2]

theorem trim_append_gaps {w : Text} (hw : ∀ b ∈ w, Byte.isGap b = true) (s : Text) :
    trim (s ++ w) = trim s := by
  induction w generalizing s with
  | nil => rw [List.append_nil]
  | cons b w ih =>
    rw [List.forall_mem_cons] at hw
    rw [← List.singleton_append, ← List.append_assoc, ih hw.2, trim_append_blank (blank_singleton hw.1)]

theorem stripStart_invariant {α : Type} {marks : List Text} {f : Text → α}
    (hf : ∀ m ∈ marks, ∀ s, f (m ++ s) = f s) (s : Text) : f (stripStart marks s) = f s := by
  fun_induction stripStart marks s with
  | case1 s r hr _ ih =>
    obtain ⟨m, hm, hmr⟩ := List.exists_of_findSome?_eq_some hr
    rw [ih, ← List.append_eq_of_isPrefixOf?_eq_some hmr, hf m hm]
  | case2 | case3 => rfl

/-- **Trimming changes nothing that white space at the ends does not change.** -/
theorem trim_invariant {α : Type} {f : Text → α} (hfront : ∀ m ∈ blanks, ∀ s, f (m ++ s) = f s)
    (hback : ∀ m ∈ blanks, ∀ s, f (s ++ m) = f s) (s : Text) : f (trim s) = f s := by
  have hreverse : ∀ m ∈ blanks.map List.reverse, ∀ t, f (m ++ t).reverse = f t.reverse := by
    intro m hm t
    obtain ⟨m', hm', rfl⟩ := List.mem_map.mp hm
    rw [List.reverse_append, List.reverse_reverse, hback m' hm']
  have hend := stripStart_invariant (f := fun t => f t.reverse) hreverse (stripStart blanks s).reverse
  rw [List.reverse_reverse] at hend
  exact hend.trans (stripStart_invariant hfront s)

/-- **A text of which trimming leaves nothing is a sequence of white space**, and conversely. -/
theorem trim_eq_nil {s : Text} :
    trim s = [] ↔ ∃ ms : List Text, (∀ m ∈ ms, m ∈ blanks) ∧ s = ms.flatten := by
  constructor
  · intro h
    obtain ⟨ms, hms, hs⟩ := stripStart_eq blanks s
    obtain ⟨ms', hms', hs'⟩ := stripStart_eq (blanks.map List.reverse) (stripStart blanks s).reverse
    unfold trim stripEnd at h
    rw [List.reverse_eq_nil_iff.mp h, List.append_nil, List.reverse_eq_iff,
      List.reverse_flatten] at hs'
    refine ⟨ms ++ (ms'.map List.reverse).reverse, fun m hm => ?_, ?_⟩
    · rcases List.mem_append.mp hm with hm | hm
      · exact hms m hm
      · obtain ⟨m', hm', rfl⟩ := List.mem_map.mp (List.mem_reverse.mp hm)
        obtain ⟨m, hm, rfl⟩ := List.mem_map.mp (hms' m' hm')
        rwa [List.reverse_reverse]
    · rw [List.flatten_append, ← hs', ← hs]
  · rintro ⟨ms, hms, rfl⟩
    induction ms with
    | nil => exact trim_nil
    | cons m ms ih =>
      rw [List.forall_mem_cons] at hms
      rw [List.flatten_cons, trim_blank_append hms.1, ih hms.2]

/-! ## White space around a text -/

theorem trim_frame {w w' : Text} (hw : trim w = []) (hw' : trim w' = []) (s : Text) :
    trim (w ++ s ++ w') = trim s := by
  obtain ⟨ms, hms, rfl⟩ := trim_eq_nil.mp hw
  obtain ⟨ms', hms', rfl⟩ := trim_eq_nil.mp hw'
  have hfront : ∀ t, trim (ms.flatten ++ t) = trim t := by
    intro t
    clear hw
    induction ms with
    | nil => rfl
    | cons m ms ih =>
      rw [List.forall_mem_cons] at hms
      rw [List.flatten_cons, List.append_assoc, trim_blank_append hms.1, ih hms.2]
  rw [List.append_assoc, hfront]
  clear hw'
  induction ms' generalizing s with
  | nil => rw [List.flatten_nil, List.append_nil]
  | cons m ms' ih =>
    rw [List.forall_mem_cons] at hms'
    rw [List.flatten_cons, ← List.append_assoc, ih _ hms'.2, trim_append_blank hms'.1]

theorem trim_append_white (s : Text) {w : Text} (hw : trim w = []) : trim (s ++ w) = trim s :=
  trim_frame trim_nil hw s

theorem trim_white_append {w : Text} (hw : trim w = []) (s : Text) : trim (w ++ s) = trim s := by
  simpa using trim_frame hw trim_nil s

theorem trim_gaps {w : Text} (hw : ∀ b ∈ w, Byte.isGap b = true) : trim w = [] :=
  (trim_append_gaps hw []).trans trim_nil

theorem isWhite_of_trim {w : Text} (hw : trim w = []) : ∀ b ∈ w, isWhite b = true := by
  intro b hb
  obtain ⟨ms, hms, rfl⟩ := trim_eq_nil.mp hw
  obtain ⟨m, hm, hbm⟩ := List.mem_flatten.mp hb
  exact List.any_eq_true.mpr ⟨m, hms m hm, by simpa using hbm⟩

theorem mark_not_mem_white {w : Text} (hw : trim w = []) {b : UInt8} (hb : isMark b = true) :
    b ∉ w := by
  intro hmem
  rw [(white_bytes (isWhite_of_trim hw b hmem)).2] at hb
  cases hb

/-- **What trimming takes away is white space.** -/
theorem exists_frame (s : Text) : ∃ w w', s = w ++ trim s ++ w' ∧ trim w = [] ∧ trim w' = [] := by
  obtain ⟨ms, hms, hs⟩ := stripStart_eq blanks s
  obtain ⟨ms', hms', hs'⟩ := stripStart_eq (blanks.map List.reverse) (stripStart blanks s).reverse
  rw [List.reverse_eq_iff, List.reverse_append, List.reverse_flatten] at hs'
  refine ⟨ms.flatten, (ms'.map List.reverse).reverse.flatten, ?_, trim_eq_nil.mpr ⟨ms, hms, rfl⟩,
    trim_eq_nil.mpr ⟨_, fun m hm => ?_, rfl⟩⟩
  · rw [List.append_assoc]
    unfold trim stripEnd
    rw [← hs', ← hs]
  · obtain ⟨m', hm', rfl⟩ := List.mem_map.mp (List.mem_reverse.mp hm)
    obtain ⟨m, hm, rfl⟩ := List.mem_map.mp (hms' m' hm')
    rwa [List.reverse_reverse]

theorem bare_of_trimmed {s : Text} (h : trim s = s) : ∀ m ∈ blanks, ¬ m <+: s ∧ ¬ m <:+ s := by
  have hbare := trim_bare s
  rwa [h] at hbare

/-- No encoding of white space that starts before the end of a text goes on behind it, if the text
ends with one. -/
theorem blanks_border {y m c s : Text} (hm : m ∈ blanks) (hmy : m <:+ y) (hcs : c ++ s ∈ blanks)
    (hcy : c <:+ y) (hcne : c ≠ []) (hne : s ≠ []) : False := by
  have hdiff : m ≠ c := by
    rintro rfl
    have hsame := blanks_apart.1 _ hm _ hcs (List.prefix_append m s)
    exact hne (List.append_right_eq_self.mp hsame.symm)
  obtain ⟨a, m, rfl⟩ := List.exists_cons_of_ne_nil (blanks_head.1 m hm).1
  obtain ⟨b, c, rfl⟩ := List.exists_cons_of_ne_nil hcne
  -- else one of them starts inside of the other
  rcases List.suffix_or_suffix_of_suffix hcy hmy with ⟨d, hd⟩ | ⟨d, hd⟩
  · cases d with
    | nil => exact hdiff hd.symm
    | cons e d =>
      obtain ⟨rfl, rfl⟩ := List.cons.inj hd
      exact blanks_lead _ hcs _ hm b (by simp) rfl
  · cases d with
    | nil => exact hdiff hd
    | cons e d =>
      obtain ⟨rfl, rfl⟩ := List.cons.inj hd
      exact blanks_lead _ hm _ hcs a (by simp) rfl

/-- **Behind white space a trimmed text ends with no other white space**, however few its bytes
are. -/
theorem not_suffix_behind {w s : Text} (hw : trim w = []) (hwne : w ≠ []) (hs : trim s = s)
    (hne : s ≠ []) (x : Text) : ∀ m ∈ blanks, ¬ m <:+ x ++ w ++ s := by
  intro m hm hsuf
  obtain ⟨ms, hms, rfl⟩ := trim_eq_nil.mp hw
  rcases List.eq_nil_or_concat ms with rfl | ⟨front, last, rfl⟩
  · exact hwne rfl
  rcases List.suffix_or_suffix_of_suffix hsuf (List.suffix_append _ s) with h | ⟨c, rfl⟩
  · exact (bare_of_trimmed hs m hm).2 h
  · have hlast : last <:+ x ++ (front.concat last).flatten := ⟨x ++ front.flatten, by simp⟩
    have hc : c <:+ x ++ (front.concat last).flatten := by
      obtain ⟨y, hy⟩ := hsuf
      exact ⟨y, List.append_cancel_right (by rwa [List.append_assoc])⟩
    have hcne : c ≠ [] := by
      rintro rfl
      exact (bare_of_trimmed hs _ hm).2 List.suffix_rfl
    exact blanks_border (hms last (by simp)) hlast hm hc hcne hne

/-- No white space ends with a mark. -/
theorem not_suffix_mark {b : UInt8} (hb : isMark b = true) (s : Text) :
    ∀ m ∈ blanks, ¬ m <:+ s ++ [b] := by
  intro m hm hsuf
  rcases List.suffix_concat_iff.mp hsuf with rfl | ⟨t, rfl, _⟩
  · exact (blanks_head.1 [] hm).1 rfl
  · have hwhite : isWhite b = true := List.any_eq_true.mpr ⟨_, hm, by simp⟩
    rw [(white_bytes hwhite).2] at hb
    cases hb

/-- **Before white space and a mark a trimmed text starts with no other white space.** -/
theorem not_prefix_before {s w : Text} (hs : trim s = s) (hne : s ≠ []) (hw : trim w = [])
    {b : UInt8} (hb : isMark b = true) (y : Text) : ∀ m ∈ blanks, ¬ m <+: s ++ (w ++ b :: y) := by
  intro m hm hpre
  rcases List.prefix_or_prefix_of_prefix hpre (List.prefix_append s _) with h | ⟨c, rfl⟩
  · exact (bare_of_trimmed hs m hm).1 h
  · have hc : c <+: w ++ b :: y := (List.prefix_append_right_inj s).mp hpre
    cases c with
    | nil => exact (bare_of_trimmed hs _ hm).1 (by simp)
    | cons a c =>
      -- the text goes on with a mark, or with the first byte of an encoding
      obtain ⟨ms, hms, rfl⟩ := trim_eq_nil.mp hw
      obtain ⟨e, s, rfl⟩ := List.exists_cons_of_ne_nil hne
      cases ms with
      | nil =>
        obtain ⟨rfl, _⟩ := List.cons_prefix_cons.mp hc
        have hwhite : isWhite a = true := List.any_eq_true.mpr ⟨_, hm, by simp⟩
        rw [(white_bytes hwhite).2] at hb
        cases hb
      | cons m' ms =>
        have hm' : m' ∈ blanks := hms m' List.mem_cons_self
        obtain ⟨a', m', rfl⟩ := List.exists_cons_of_ne_nil (blanks_head.1 m' hm').1
        obtain ⟨rfl, _⟩ := List.cons_prefix_cons.mp hc
        exact blanks_lead _ hm' _ hm a (by simp) rfl

/-! ## The last byte that is no blank -/

/-- The last byte that is neither tab nor space. -/
def lastSolid (s : Text) : Option UInt8 := (s.reverse.dropWhile Byte.isTabOrSpace).head?

theorem lastSolid_append (s t : Text) : lastSolid (s ++ t) = (lastSolid t).or (lastSolid s) := by
  unfold lastSolid
  rw [List.reverse_append, List.dropWhile_append]
  cases ht : t.reverse.dropWhile Byte.isTabOrSpace with
  | nil => rfl
  | cons b rest => rfl

/-- A text that does not end in a blank ends in its last solid byte. -/
theorem lastSolid_eq_getLast? {s : Text}
    (h : ∀ b, Byte.isTabOrSpace b = true → s.getLast? ≠ some b) : lastSolid s = s.getLast? := by
  unfold lastSolid
  rw [← List.head?_reverse] at h ⊢
  cases hs : s.reverse with
  | nil => rfl
  | cons b rest =>
    have hb : ¬ Byte.isTabOrSpace b = true := fun hb => h b hb (by rw [hs]; rfl)
    rw [List.dropWhile_cons_of_neg hb]

theorem lastSolid_mem {s : Text} {b : UInt8} (h : lastSolid s = some b) : b ∈ s := by
  have hmem := List.mem_of_head? h
  exact List.mem_reverse.mp ((List.dropWhile_suffix _).subset hmem)

theorem lastSolid_eq_none {s : Text} (h : lastSolid s = none) :
    ∀ b ∈ s, Byte.isTabOrSpace b = true := by
  intro b hb
  by_contra hnot
  obtain ⟨u, v, rfl⟩ := List.append_of_mem hb
  have hb' : lastSolid [b] = some b := by simp [lastSolid, hnot]
  rw [← List.singleton_append, lastSolid_append, lastSolid_append, hb'] at h
  cases hv : lastSolid v <;> simp [hv] at h

end ActionLog.Text
