import ActionLog.Log.Junk
import ActionLog.Proofs.RoundTrip

/-!
# Logs without junk

The entries that are left of a log are written and can be read again.  They need not be read as they
were: carriage returns are left out, and with them new separators can arise.  Yet a signature has no
newline, so it stands on a line, and each line that is read again is part of a line that was written.

* `Text.infix_of_unixLines` — what stands on a line has stood there with the carriage returns;
* `Text.splitOn_append` — a text that ends with its only newline is found wherever it stands;
* `Text.unixLines_newline` — lines are converted one by one;
* `infix_of_mem_entries_write` — what stands on a line of a log that is read again has stood in one of
  the entries that were written.

Principal result: `removeJunk_settles` — the junk entries of a log are counted and left out, and then
there is no junk.
-/

set_option autoImplicit false

namespace ActionLog

/-! ## Lines -/

namespace Text

variable {s t x : Text}

/-- A text without newlines stands on one side of a newline. -/
theorem infix_line (hs : Byte.newline ∉ s) (u v : Text) (h : s <:+: u ++ Byte.newline :: v) :
    s <:+: u ∨ s <:+: v := by
  rcases List.infix_append_iff.mp h with hu | hv | ⟨l₁, l₂, rfl, hl₁, hl₂⟩
  · exact .inl hu
  · rcases List.infix_cons_iff.mp hv with hpre | hv
    · cases s with
      | nil => exact .inl List.nil_infix
      | cons b s =>
        obtain ⟨rfl, _⟩ := List.cons_prefix_cons.mp hpre
        exact absurd List.mem_cons_self hs
    · exact .inr hv
  · cases l₂ with
    | nil =>
      rw [List.append_nil]
      exact .inl hl₁.isInfix
    | cons b l₂ =>
      obtain ⟨rfl, _⟩ := List.cons_prefix_cons.mp hl₂
      exact absurd (by simp) hs

theorem infix_of_cut {pat l r : Text} (h : cut pat s = some (l, r)) : l <:+: s ∧ r <:+: s := by
  rw [cut_eq_some h]
  exact ⟨⟨[], pat ++ r, by simp⟩, (List.suffix_append _ r).isInfix⟩

/-- **What stands on a line has stood there before** carriage returns were left out. -/
theorem infix_of_unixLines (hs : Byte.newline ∉ s) (h : s <:+: unixLines t) : s <:+: t := by
  induction t using cut_induction (by decide : crlf ≠ []) with
  | last t ht =>
    rw [unixLines_eq, ht] at h
    exact h
  | next t l r ht ih =>
    rw [unixLines_eq, ht] at h
    rcases infix_line hs l (unixLines r) (by simpa using h) with hl | hr
    · exact hl.trans (infix_of_cut ht).1
    · exact (ih hr).trans (infix_of_cut ht).2

theorem infix_of_mem_splitOn {pat : Text} (hne : pat ≠ []) (ht : t ∈ splitOn pat s) : t <:+: s := by
  induction s using cut_induction hne with
  | last s hs =>
    rw [splitOn_eq hne, hs] at ht
    rw [List.mem_singleton.mp ht]
  | next s l r hs ih =>
    rw [splitOn_eq hne, hs] at ht
    rcases List.mem_cons.mp ht with rfl | ht
    · exact (infix_of_cut hs).1
    · exact (ih ht).trans (infix_of_cut hs).2

section Mark

variable {mark : Text} (hmark : Byte.newline ∉ mark)

/-- A text that ends with a newline does not reach into one without newlines. -/
theorem infix_before {y : Text} (hy : Byte.newline ∉ y) (h : mark ++ [Byte.newline] <:+: x ++ y) :
    mark ++ [Byte.newline] <:+: x := by
  rcases List.infix_append_iff.mp h with hx | hin | ⟨l₁, l₂, heq, hl₁, hl₂⟩
  · exact hx
  · exact absurd hin (not_infix_of_not_mem hy)
  · rcases List.eq_nil_or_concat l₂ with rfl | ⟨l₂, b, rfl⟩
    · rw [List.append_nil] at heq
      exact heq ▸ hl₁.isInfix
    · rw [List.concat_eq_append, ← List.append_assoc] at heq
      obtain ⟨_, hb⟩ := List.append_inj' heq rfl
      obtain ⟨rfl, _⟩ := List.cons.inj hb
      exact absurd (hl₂.subset (by simp)) hy

include hmark

theorem cut_mark {l : Text} (hl : ¬ mark ++ [Byte.newline] <:+: l) (r : Text) :
    cut (mark ++ [Byte.newline]) (l ++ (mark ++ [Byte.newline]) ++ r) = some (l, r) := by
  apply cut_first
  rw [List.dropLast_concat]
  exact fun h => hl (infix_before hmark h)

/-- **A text that ends with its only newline is found wherever it stands**: no other occurrence
overlaps it. -/
theorem splitOn_append (x y : Text) :
    splitOn (mark ++ [Byte.newline]) (x ++ (mark ++ [Byte.newline]) ++ y) =
      splitOn (mark ++ [Byte.newline]) x ++ splitOn (mark ++ [Byte.newline]) y := by
  have hne : mark ++ [Byte.newline] ≠ [] := by simp
  induction x using cut_induction hne with
  | last x hx =>
    rw [splitOn_eq hne, cut_mark hmark (cut_eq_none.mp hx), splitOn_eq hne x, hx]
    rfl
  | next x l r hx ih =>
    have hfirst := cut_mark hmark (not_infix_of_cut hne hx) (r ++ (mark ++ [Byte.newline]) ++ y)
    have hsplit : x ++ (mark ++ [Byte.newline]) ++ y =
        l ++ (mark ++ [Byte.newline]) ++ (r ++ (mark ++ [Byte.newline]) ++ y) := by
      rw [cut_eq_some hx]
      simp
    rw [splitOn_eq hne, hsplit, hfirst, splitOn_eq hne x, hx]
    exact congrArg (l :: ·) ih

end Mark

theorem unixLines_cut {l : Text} (hl : ¬ crlf <:+: l) (r : Text) :
    unixLines (l ++ crlf ++ r) = l ++ Byte.newline :: unixLines r := by
  have hcut : cut crlf (l ++ crlf ++ r) = some (l, r) :=
    cut_mark (by decide : Byte.newline ∉ [Byte.carriageReturn]) hl r
  rw [unixLines_eq, hcut]
  simp

/-- **Lines are converted one by one.** -/
theorem unixLines_newline (hx : ¬ [Byte.carriageReturn] <:+ x) (y : Text) :
    unixLines (x ++ Byte.newline :: y) = unixLines x ++ Byte.newline :: unixLines y := by
  induction x using cut_induction (by decide : crlf ≠ []) with
  | last x hnone =>
    -- no carriage return is left out before the newline, so the first one is that of `y`
    have hbefore : ∀ {v : Text}, ¬ crlf <:+: v → ¬ crlf <:+: x ++ Byte.newline :: v := by
      intro v hv h
      rcases (Log.crlf_isInfix x v).mp h with h | h | h
      · exact cut_eq_none.mp hnone h
      · exact hx h
      · exact hv h
    rw [unixLines_eq_self (cut_eq_none.mp hnone)]
    cases hy : cut crlf y with
    | none =>
      have hplain := cut_eq_none.mp hy
      rw [unixLines_eq_self (hbefore hplain), unixLines_eq_self hplain]
    | some p =>
      obtain ⟨l, r⟩ := p
      have hl := not_infix_of_cut (by decide) hy
      have hfirst := unixLines_cut (hbefore hl) r
      rw [cut_eq_some hy, unixLines_cut hl]
      simpa using hfirst
  | next x l r hcut ih =>
    have hl := not_infix_of_cut (by decide) hcut
    have hr : ¬ [Byte.carriageReturn] <:+ r := by
      intro h
      apply hx
      rw [cut_eq_some hcut]
      exact h.trans (List.suffix_append _ _)
    have hfirst := unixLines_cut hl (r ++ Byte.newline :: y)
    rw [ih hr] at hfirst
    rw [cut_eq_some hcut, unixLines_cut hl]
    simpa using hfirst

end Text

/-! ## What is read again -/

namespace Log

theorem unixLines_separator (s : Text) :
    Text.unixLines (separator ++ s) = separator ++ Text.unixLines s := by
  have hend : ¬ [Byte.carriageReturn] <:+ rule := fun h => rule_bytes.2.2 (h.subset (by simp))
  have hplain : ¬ Text.crlf <:+: rule := fun h => rule_bytes.2.1 (h.subset (by decide))
  have hline := Text.unixLines_newline hend s
  rw [Text.unixLines_eq_self hplain] at hline
  rw [separator_eq]
  simpa using hline

/-- Entries are converted one by one: a trimmed text does not end with a carriage return. -/
theorem unixLines_seam {e : Text} (he : Text.trim e = e) (s : Text) :
    Text.unixLines (e ++ seam ++ s) = Text.unixLines e ++ seam ++ Text.unixLines s := by
  have hend : ¬ [Byte.carriageReturn] <:+ e := (Text.bare_of_trimmed he _ (by decide)).2
  have hblank : Text.unixLines (Byte.newline :: (separator ++ s)) =
      Byte.newline :: Text.unixLines (separator ++ s) := by
    have hnil : Text.unixLines [] = [] := Text.unixLines_eq_self (by decide)
    have hfront := Text.unixLines_newline (x := []) (by decide) (separator ++ s)
    rwa [hnil] at hfront
  have hline := Text.unixLines_newline hend (Byte.newline :: (separator ++ s))
  rw [hblank, unixLines_separator] at hline
  rw [seam_eq]
  simpa using hline

theorem splitOn_separator (x y : Text) : Text.splitOn separator (x ++ separator ++ y) =
    Text.splitOn separator x ++ Text.splitOn separator y := by
  rw [separator_eq]
  exact Text.splitOn_append rule_bytes.2.1 x y

/-- What stands on a line of an entry that is read again. -/
theorem infix_of_mem_splitOn_entry {s e t : Text} (hs : Byte.newline ∉ s)
    (ht : t ∈ Text.splitOn separator (Text.unixLines e ++ [Byte.newline, Byte.newline]))
    (h : s <:+: t) (hne : s ≠ []) : s <:+: e := by
  have hin := h.trans (Text.infix_of_mem_splitOn separator_ne_nil ht)
  rcases Text.infix_line hs (Text.unixLines e) [Byte.newline] hin with he | hnl
  · exact Text.infix_of_unixLines hs he
  · rcases Text.infix_line hs [] [] hnl with hnil | hnil
    all_goals exact absurd (List.infix_nil.mp hnil) hne

/-- **What stands on a line between separators has stood in an entry.**  A separator that was written
is found again, whatever the entry before it ends with. -/
theorem infix_of_mem_splitOn_join {s : Text} (hs : Byte.newline ∉ s) (hne : s ≠ []) :
    ∀ {es : List Text}, (∀ e ∈ es, Text.trim e = e) →
      ∀ {t : Text}, t ∈ Text.splitOn separator (Text.unixLines (Text.join seam es)) → s <:+: t →
        ∃ e ∈ es, s <:+: e
  | [], _, t, ht, h => by
    have hnil := h.trans (Text.infix_of_mem_splitOn separator_ne_nil ht)
    exact absurd (List.infix_nil.mp (Text.infix_of_unixLines hs hnil)) hne
  | [e], _, t, ht, h => by
    rw [join_singleton] at ht
    have hin := h.trans (Text.infix_of_mem_splitOn separator_ne_nil ht)
    exact ⟨e, List.mem_cons_self, Text.infix_of_unixLines hs hin⟩
  | e :: f :: es, hes, t, ht, h => by
    have hcut : Text.unixLines (Text.join seam (e :: f :: es)) =
        Text.unixLines e ++ [Byte.newline, Byte.newline] ++ separator ++
          Text.unixLines (Text.join seam (f :: es)) := by
      rw [join_cons_cons, unixLines_seam (hes e List.mem_cons_self), seam_eq]
      simp
    rw [hcut, splitOn_separator] at ht
    rcases List.mem_append.mp ht with ht | ht
    · exact ⟨e, List.mem_cons_self, infix_of_mem_splitOn_entry hs ht h hne⟩
    · obtain ⟨e', he', hin⟩ := infix_of_mem_splitOn_join hs hne
        (fun e' he' => hes e' (List.mem_cons_of_mem _ he')) ht h
      exact ⟨e', List.mem_cons_of_mem _ he', hin⟩

/-- Entries are trimmed. -/
theorem trim_of_mem_entries {log e : Text} (he : e ∈ entries log) : Text.trim e = e := by
  obtain ⟨t, _, rfl, _⟩ := exists_of_mem_entries he
  exact Text.trim_trim t

/-- **What stands on a line of a log that is read again** has stood in one of the entries that were
written. -/
theorem infix_of_mem_entries_write {s : Text} (hs : Byte.newline ∉ s) (hne : s ≠ [])
    (separated : Bool) {es : List Text} (hes : ∀ e ∈ es, Text.trim e = e) {e : Text}
    (he : e ∈ entries (write separated es)) (h : s <:+: e) : ∃ e' ∈ es, s <:+: e' := by
  obtain ⟨t, ht, rfl, _⟩ := exists_of_mem_entries he
  have hin : s <:+: t := h.trans (Text.trim_isInfix t)
  rcases write_cases separated es with hwrite | hwrite
  · rw [hwrite] at ht
    exact infix_of_mem_splitOn_join hs hne hes ht hin
  · have hfront := splitOn_separator [] (Text.unixLines (Text.join seam es))
    rw [List.nil_append] at hfront
    rw [hwrite, unixLines_separator, hfront] at ht
    rcases List.mem_append.mp ht with ht | ht
    · have hnil := hin.trans (Text.infix_of_mem_splitOn separator_ne_nil ht)
      exact absurd (List.infix_nil.mp hnil) hne
    · exact infix_of_mem_splitOn_join hs hne hes ht hin

/-! ## Removal -/

/-- An entry that contains a signature which is not empty. -/
def Marked (signatures : List Text) (e : Text) : Prop := ∃ s ∈ signatures, s ≠ [] ∧ s <:+: e

instance (signatures : List Text) (e : Text) : Decidable (Marked signatures e) :=
  inferInstanceAs (Decidable (∃ s ∈ signatures, s ≠ [] ∧ s <:+: e))

theorem isJunk_eq (signatures : List Text) (e : Text) :
    isJunk signatures e = decide (Marked signatures e) := by
  rw [Bool.eq_iff_iff, decide_eq_true_iff]
  simp [isJunk, Marked, Text.includes_iff]

/-- The entries of a log that are not junk, in order. -/
def kept (signatures : List Text) (log : Text) : List Text :=
  (entries log).filter fun e => ¬ Marked signatures e

theorem removeJunk_eq (signatures : List Text) (log : Text) :
    removeJunk signatures log =
      ⟨if (entries log).countP (Marked signatures ·) = 0 then log
        else write (isSeparated log) (kept signatures log),
        (entries log).countP (Marked signatures ·), signatures⟩ := by
  have hkept : ((entries log).filter fun e => !isJunk signatures e) = kept signatures log := by
    simp [kept, isJunk_eq]
  have hremoved : (entries log).length - (kept signatures log).length =
      (entries log).countP (Marked signatures ·) := by
    have hsum := List.length_eq_countP_add_countP (Marked signatures ·) (l := entries log)
    unfold kept
    rw [← List.countP_eq_length_filter]
    simp at hsum ⊢
    omega
  unfold removeJunk
  simp only [hkept, hremoved]

/-- Without junk a log is kept. -/
theorem removeJunk_clean {signatures : List Text} {log : Text}
    (h : ∀ e ∈ entries log, ¬ Marked signatures e) :
    removeJunk signatures log = ⟨log, 0, signatures⟩ := by
  have hzero : (entries log).countP (Marked signatures ·) = 0 := by
    rw [List.countP_eq_zero]
    simpa using h
  rw [removeJunk_eq, hzero, if_pos rfl]

/-- **No signature arises** when the other entries are written and read again. -/
theorem not_marked_of_mem_entries {signatures : List Text}
    (hline : ∀ s ∈ signatures, Byte.newline ∉ s) {log e : Text}
    (he : e ∈ entries (removeJunk signatures log).log) : ¬ Marked signatures e := by
  rw [removeJunk_eq] at he
  split at he
  · rename_i hzero
    have hnone := List.countP_eq_zero.mp hzero e he
    simpa using hnone
  · rintro ⟨s, hs, hne, hin⟩
    have htrim : ∀ e ∈ kept signatures log, Text.trim e = e := fun e he =>
      trim_of_mem_entries (List.mem_of_mem_filter he)
    obtain ⟨e', he', hin'⟩ := infix_of_mem_entries_write (hline s hs) hne _ htrim he hin
    have hclean : ¬ Marked signatures e' := by
      simpa using (List.mem_filter.mp he').2
    exact hclean ⟨s, hs, hne, hin'⟩

/-- **Junk is removed at once.**  The entries that contain a signature are counted; a log without any
is kept byte for byte, and otherwise the other entries are written in order.  No entry that is read
from the new log is junk, although it need not be one of those written, so nothing more is removed. -/
theorem removeJunk_settles (signatures : List Text) (hline : ∀ s ∈ signatures, Byte.newline ∉ s)
    (log : Text) :
    (removeJunk signatures log).removed = (entries log).countP (Marked signatures ·) ∧
      ((removeJunk signatures log).changed = true ↔ 0 < (entries log).countP (Marked signatures ·)) ∧
      (removeJunk signatures log).log =
        (if (entries log).countP (Marked signatures ·) = 0 then log
          else write (isSeparated log) ((entries log).filter fun e => ¬ Marked signatures e)) ∧
      (∀ e ∈ entries (removeJunk signatures log).log, isJunk signatures e = false) ∧
      removeJunk signatures (removeJunk signatures log).log =
        ⟨(removeJunk signatures log).log, 0, signatures⟩ := by
  have hclean : ∀ e ∈ entries (removeJunk signatures log).log, ¬ Marked signatures e :=
    fun e he => not_marked_of_mem_entries hline he
  refine ⟨?_, ?_, ?_, ?_, removeJunk_clean hclean⟩
  · rw [removeJunk_eq]
  · rw [removeJunk_eq]
    simp [Tidied.changed]
  · rw [removeJunk_eq]
    rfl
  · intro e he
    rw [isJunk_eq]
    simpa using hclean e he

/-- An entry with a rule at its end, before two carriage returns; then junk and another entry. -/
def tornLog : Text :=
  separator ++ utf8 "keep\n" ++ rule ++ utf8 "\r\r\n" ++ separator ++ utf8 "undo it\n" ++ separator ++
    utf8 "more"

/-- The entry with the rule is read differently from the new log, which has no junk all the same. -/
theorem removeJunk_settles_torn :
    (∀ s ∈ [utf8 "undo", []], Byte.newline ∉ s) ∧
      kept [utf8 "undo", []] tornLog = [utf8 "keep\n" ++ rule, utf8 "more"] ∧
      entries (removeJunk [utf8 "undo", []] tornLog).log = [utf8 "keep", utf8 "more"] ∧
      (removeJunk [utf8 "undo", []] tornLog).removed =
        (entries tornLog).countP (Marked [utf8 "undo", []] ·) ∧
      removeJunk [utf8 "undo", []] (removeJunk [utf8 "undo", []] tornLog).log =
        ⟨(removeJunk [utf8 "undo", []] tornLog).log, 0, [utf8 "undo", []]⟩ := by
  have hline : ∀ s ∈ [utf8 "undo", []], Byte.newline ∉ s := by decide +kernel
  have hsettles := removeJunk_settles _ hline tornLog
  exact ⟨hline, by decide +kernel, by decide +kernel, hsettles.1, hsettles.2.2.2.2⟩

end Log

end ActionLog
