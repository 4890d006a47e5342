import ActionLog.LineDiff.Render
import ActionLog.Proofs.EditScript
import ActionLog.Proofs.Trim
import ActionLog.Proofs.Word

/-!
# Differences that show both texts

A difference of two texts shows every line of both.  Either text can be read off it again, whatever
script was used to make it, and whether or not the texts end with a newline.

* `counted` — the lines of a text, a final empty one not counted;
* `Whole` — whole lines with their newlines, of which only the last may lack its own;
  `Whole.linesWithEnds_flatten` says that they are found again in their text;
* `IsLineScript` — a script between two texts whose chunks are made of whole lines;
  `lineScript_isLineScript` says that comparing lines gives one;
* `visible_deletionsFirst` — moving deletions forward changes neither text;
* `marked`, `counted_render` — the lines of a difference;
* `Reconstructs` — a difference from which both texts can be read.

Principal result: `render_reconstructs`.
-/

set_option autoImplicit false

namespace ActionLog.LineDiff

/-! ## Lines that are counted -/

/-- The lines of a text without their newlines; a final empty line is not counted. -/
def counted (s : Text) : List Text :=
  if (Text.lines s).getLast? = some [] then (Text.lines s).dropLast else Text.lines s

theorem counted_nil : counted [] = [] := by decide

theorem counted_last {l : Text} (hne : l ≠ []) (hl : Byte.newline ∉ l) : counted l = [l] := by
  simp [counted, Text.lines_eq_singleton hl, hne]

theorem counted_line {l : Text} (hl : Byte.newline ∉ l) (t : Text) :
    counted (l ++ Byte.newline :: t) = l :: counted t := by
  unfold counted
  rw [Text.lines_append_newline, Text.lines_eq_singleton hl, List.singleton_append]
  obtain ⟨l', ls, hls⟩ := List.exists_cons_of_ne_nil (Text.lines_ne_nil t)
  rw [hls, List.getLast?_cons_cons, List.dropLast_cons_cons]
  split <;> rfl

/-- Texts from their last line on: a line without newline, or a line with one before a text. -/
theorem line_induction {P : Text → Prop} (last : ∀ l, Byte.newline ∉ l → P l)
    (line : ∀ l t, Byte.newline ∉ l → P t → P (l ++ Byte.newline :: t)) (s : Text) : P s := by
  have hlines : ∀ ls : List Text, ls ≠ [] → (∀ l ∈ ls, Byte.newline ∉ l) → P (Text.unlines ls) := by
    intro ls
    induction ls with
    | nil =>
      intro hne
      exact absurd rfl hne
    | cons l ls ih =>
      intro _ hls
      rw [List.forall_mem_cons] at hls
      cases ls with
      | nil =>
        rw [Text.unlines_singleton]
        exact last l hls.1
      | cons l' ls =>
        rw [Text.unlines_cons_cons]
        exact line l _ hls.1 (ih (List.cons_ne_nil _ _) hls.2)
  rw [← Text.unlines_lines s]
  exact hlines _ (Text.lines_ne_nil s) fun l hl => Text.newline_not_mem hl

/-! ## Whole lines -/

/-- A line that lacks its newline is kept. -/
theorem dropEnd_of_not_mem {b : UInt8} {l : Text} (h : b ∉ l) : Text.dropEnd [b] l = l := by
  unfold Text.dropEnd
  split
  · rename_i r hr
    have hmem : b ∈ l.reverse := by
      rw [← List.isPrefixOf?_eq_some_iff_append_eq.mp hr]
      simp
    exact absurd (List.mem_reverse.mp hmem) h
  · rfl

/-- Lines with their newlines; only the last may lack its own. -/
inductive Whole : List Text → Prop
  | nil : Whole []
  | last {l : Text} (hne : l ≠ []) (hl : Byte.newline ∉ l) : Whole [l]
  | line {l : Text} {ls : List Text} (hl : Byte.newline ∉ l) (hrest : Whole ls) :
      Whole ((l ++ [Byte.newline]) :: ls)

theorem linesWithEnds_last {l : Text} (hne : l ≠ []) (hl : Byte.newline ∉ l) :
    linesWithEnds l = [l] := by
  induction l with
  | nil => exact absurd rfl hne
  | cons b l ih =>
    rw [List.mem_cons, not_or] at hl
    rw [linesWithEnds, if_neg (by simpa using Ne.symm hl.1)]
    cases l with
    | nil => rfl
    | cons b' l => rw [ih (List.cons_ne_nil _ _) hl.2]

theorem linesWithEnds_line {l : Text} (hl : Byte.newline ∉ l) (t : Text) :
    linesWithEnds (l ++ Byte.newline :: t) = (l ++ [Byte.newline]) :: linesWithEnds t := by
  induction l with
  | nil => rfl
  | cons b l ih =>
    rw [List.mem_cons, not_or] at hl
    rw [List.cons_append, linesWithEnds, if_neg (by simpa using Ne.symm hl.1), ih hl.2]
    rfl

/-- **The lines of a text are whole.** -/
theorem whole_linesWithEnds (s : Text) : Whole (linesWithEnds s) := by
  induction s using line_induction with
  | last l hl =>
    by_cases hne : l = []
    · subst hne
      exact .nil
    · rw [linesWithEnds_last hne hl]
      exact .last hne hl
  | line l t hl ih =>
    rw [linesWithEnds_line hl]
    exact .line hl ih

namespace Whole

variable {ls ls' : List Text}

/-- **Whole lines are found again** when their text is cut on its own. -/
theorem linesWithEnds_flatten (h : Whole ls) : linesWithEnds ls.flatten = ls := by
  induction h with
  | nil => rfl
  | last hne hl => rw [List.flatten_singleton, linesWithEnds_last hne hl]
  | line hl _ ih =>
    rw [List.flatten_cons, List.append_assoc, List.singleton_append, linesWithEnds_line hl, ih]

theorem counted_flatten (h : Whole ls) :
    counted ls.flatten = ls.map (Text.dropEnd [Byte.newline]) := by
  induction h with
  | nil => exact counted_nil
  | last hne hl =>
    rw [List.flatten_singleton, counted_last hne hl, List.map_singleton, dropEnd_of_not_mem hl]
  | line hl _ ih =>
    rw [List.flatten_cons, List.append_assoc, List.singleton_append, counted_line hl, ih,
      List.map_cons, Text.dropEnd_append]

/-- A line without its newline holds none. -/
theorem newline_not_mem_dropEnd (h : Whole ls) :
    ∀ l ∈ ls, Byte.newline ∉ Text.dropEnd [Byte.newline] l := by
  induction h with
  | nil => exact List.forall_mem_nil _
  | last hne hl =>
    rw [List.forall_mem_singleton, dropEnd_of_not_mem hl]
    exact hl
  | line hl _ ih =>
    rw [List.forall_mem_cons, Text.dropEnd_append]
    exact ⟨hl, ih⟩

/-- Parts of whole lines are whole. -/
theorem of_append (h : Whole (ls ++ ls')) : Whole ls ∧ Whole ls' := by
  generalize happend : ls ++ ls' = all at h
  induction h generalizing ls with
  | nil =>
    obtain ⟨rfl, rfl⟩ := List.append_eq_nil_iff.mp happend
    exact ⟨.nil, .nil⟩
  | last hne hl =>
    rcases List.append_eq_singleton_iff.mp happend with ⟨rfl, rfl⟩ | ⟨rfl, rfl⟩
    · exact ⟨.nil, .last hne hl⟩
    · exact ⟨.last hne hl, .nil⟩
  | line hl hrest ih =>
    cases ls with
    | nil =>
      rw [List.nil_append] at happend
      rw [happend]
      exact ⟨.nil, .line hl hrest⟩
    | cons l ls =>
      obtain ⟨rfl, htail⟩ := List.cons.inj happend
      obtain ⟨hls, hls'⟩ := ih htail
      exact ⟨.line hl hls, hls'⟩

end Whole

theorem flatten_linesWithEnds (s : Text) : (linesWithEnds s).flatten = s := by
  induction s using line_induction with
  | last l hl =>
    by_cases hne : l = []
    · subst hne
      rfl
    · rw [linesWithEnds_last hne hl, List.flatten_singleton]
  | line l t hl ih =>
    rw [linesWithEnds_line hl, List.flatten_cons, ih, List.append_assoc, List.singleton_append]

theorem counted_eq (s : Text) : counted s = (linesWithEnds s).map (Text.dropEnd [Byte.newline]) := by
  rw [← (whole_linesWithEnds s).counted_flatten, flatten_linesWithEnds]

/-- Lines that are each given a newline are counted. -/
theorem counted_ended {ls : List Text} (h : ∀ l ∈ ls, Byte.newline ∉ l) :
    counted (ls.flatMap (· ++ [Byte.newline])) = ls := by
  induction ls with
  | nil => exact counted_nil
  | cons l ls ih =>
    rw [List.forall_mem_cons] at h
    rw [List.flatMap_cons, List.append_assoc, List.singleton_append, counted_line h.1, ih h.2]

/-! ## Scripts between the lines of two texts -/

/-- **Moving deletions forward changes neither text.** -/
theorem visible_deletionsFirst {α : Type} {hidden : Op} (hkeep : hidden ≠ .keep) (script : Script α) :
    visible hidden (deletionsFirst script) = visible hidden script := by
  fun_induction deletionsFirst script with
  | case1 a b rest hops ih =>
    obtain ⟨ha, hb⟩ : a.op = .insert ∧ b.op = .delete := by simpa using hops
    rw [visible_cons, ih]
    -- one of the two chunks is hidden
    cases hidden with
    | keep => exact absurd rfl hkeep
    | insert => simp [ha, hb]
    | delete => simp [ha, hb]
  | case2 a b rest _ ih => rw [visible_cons, ih, visible_cons _ a]
  | case3 => rfl

theorem deletionsFirst_joined (script : Script Text) :
    deletionsFirst (script.map Chunk.joined) = (deletionsFirst script).map Chunk.joined := by
  fun_induction deletionsFirst script with
  | case1 a b rest hops ih =>
    simp only [List.map_cons] at ih ⊢
    rw [deletionsFirst, ih]
    exact if_pos hops
  | case2 a b rest hops ih =>
    simp only [List.map_cons] at ih ⊢
    rw [deletionsFirst, ih]
    exact if_neg hops
  | case3 script hshort =>
    rcases script with _ | ⟨a, _ | ⟨b, rest⟩⟩
    · simp [deletionsFirst]
    · simp [deletionsFirst]
    · exact absurd rfl (hshort a b rest)

/-- A script between two texts, made of chunks of whole lines: what it deletes and keeps are the lines
of the old text, and what it inserts and keeps those of the new one. -/
def IsLineScript (script : Script UInt8) (old new : Text) : Prop :=
  ∃ lines : Script Text, Between lines (linesWithEnds old) (linesWithEnds new) ∧
    script = lines.map Chunk.joined

/-- **Comparing the lines of two texts gives such a script.** -/
theorem lineScript_isLineScript (old new : Text) : IsLineScript (lineScript old new) old new :=
  ⟨_, between_compare (linesWithEnds old) (linesWithEnds new), rfl⟩

/-- The chunks of a script between the lines of two texts are made of whole lines. -/
theorem whole_of_between {script : Script Text} {old new : Text}
    (h : Between script (linesWithEnds old) (linesWithEnds new)) :
    ∀ c ∈ script, Whole c.items := by
  intro c hc
  obtain ⟨front, back, rfl⟩ := List.append_of_mem hc
  by_cases hop : c.op = .insert
  · have hwhole := h.after ▸ whole_linesWithEnds new
    rw [after_eq, visible_append, visible_cons, if_neg (by simp [hop])] at hwhole
    exact hwhole.of_append.2.of_append.1
  · have hwhole := h.before ▸ whole_linesWithEnds old
    rw [before_eq, visible_append, visible_cons, if_neg hop] at hwhole
    exact hwhole.of_append.2.of_append.1

/-- The lines of a difference. -/
def marked (script : Script Text) : List Text :=
  script.flatMap fun c => c.items.map fun line => c.op.mark :: Text.dropEnd [Byte.newline] line

/-- Each chunk is cut into the lines it was joined from. -/
theorem render_eq {script : Script Text} (h : ∀ c ∈ script, Whole c.items) :
    (script.map Chunk.joined).flatMap renderChunk =
      (marked script).flatMap (· ++ [Byte.newline]) := by
  unfold marked
  rw [List.flatMap_assoc, List.flatMap_map]
  refine List.flatMap_congr fun c hc => ?_
  unfold renderChunk Chunk.joined
  rw [(h c hc).linesWithEnds_flatten, List.flatMap_map]

theorem counted_render {script : Script Text} (h : ∀ c ∈ script, Whole c.items) :
    counted ((script.map Chunk.joined).flatMap renderChunk) = marked script := by
  rw [render_eq h]
  apply counted_ended
  intro l hl
  obtain ⟨c, hc, hl⟩ := List.mem_flatMap.mp hl
  obtain ⟨line, hline, rfl⟩ := List.mem_map.mp hl
  rw [List.mem_cons, not_or]
  refine ⟨?_, (h c hc).newline_not_mem_dropEnd line hline⟩
  cases c.op <;> decide

/-- The lines under some marks are the lines of the text that shows these operations. -/
theorem filter_marked (hidden : Op) {p : UInt8 → Bool}
    (hp : ∀ op : Op, p op.mark = true ↔ op ≠ hidden) (script : Script Text) :
    ((marked script).filter fun l => l.head?.any p).map List.tail =
      (visible hidden script).map (Text.dropEnd [Byte.newline]) := by
  induction script with
  | nil => rfl
  | cons c script ih =>
    have hcons : marked (c :: script) =
        (c.items.map fun line => c.op.mark :: Text.dropEnd [Byte.newline] line) ++ marked script := rfl
    rw [hcons, List.filter_append, List.map_append, ih, visible_cons, List.map_append]
    congr 1
    by_cases hop : c.op = hidden
    · have hnone : p c.op.mark = false := by
        rw [Bool.eq_false_iff]
        exact fun h => (hp c.op).mp h hop
      simp [hop, hop ▸ hnone]
    · have hsome := (hp c.op).mpr hop
      rw [if_neg hop, List.filter_map, List.filter_eq_self.mpr (by simp [hsome]), List.map_map]
      rfl

/-! ## Reading both texts -/

/-- A difference from which two texts can be read: each of its lines is marked, the lines marked as
deleted or kept are those of the old text, and the lines marked as inserted or kept are those of the
new one. -/
structure Reconstructs (old new body : Text) : Prop where
  marked : ∀ l ∈ counted body, ∃ op : Op, l.head? = some op.mark
  old : ((counted body).filter fun l =>
    l.head?.any fun b => b == Op.delete.mark || b == Op.keep.mark).map List.tail = counted old
  new : ((counted body).filter fun l =>
    l.head?.any fun b => b == Op.insert.mark || b == Op.keep.mark).map List.tail = counted new

/-- The marks are a minus sign, a plus sign and a blank. -/
example : [Op.delete.mark, Op.insert.mark, Op.keep.mark] = utf8 "-+ " := by decide

/-- **Every script between the lines of two texts shows both of them.** -/
theorem reconstructs_of_between {script : Script Text} {old new : Text}
    (h : Between script (linesWithEnds old) (linesWithEnds new)) :
    Reconstructs old new ((script.map Chunk.joined).flatMap renderChunk) := by
  have hcounted := counted_render (whole_of_between h)
  constructor
  · intro l hl
    rw [hcounted] at hl
    obtain ⟨c, _, hl⟩ := List.mem_flatMap.mp hl
    obtain ⟨line, _, rfl⟩ := List.mem_map.mp hl
    exact ⟨c.op, rfl⟩
  · rw [hcounted, filter_marked .insert (fun op => by cases op <;> decide), ← before_eq,
      h.before, counted_eq]
  · rw [hcounted, filter_marked .delete (fun op => by cases op <;> decide), ← after_eq,
      h.after, counted_eq]

theorem render?_eq_none_iff (script : Text → Text → Script UInt8) (oldName old newName new : Text) :
    render? script oldName old newName new = none ↔ old = new := by
  unfold render?
  split <;> simp_all

/-- **A difference shows both texts.**  There is none exactly for equal texts.  Otherwise, behind the
header, every line is marked as deleted, inserted or kept; the deleted and kept lines are in order the
lines of the old text, and the inserted and kept ones those of the new text.  This holds of whatever finds
the script between the texts, as long as it goes by whole lines; comparing the lines does. -/
theorem render_reconstructs (script : Text → Text → Script UInt8) (oldName old newName new : Text) :
    (render? script oldName old newName new = none ↔ old = new) ∧
    (old ≠ new → IsLineScript (script old new) old new →
      ∃ body, render? script oldName old newName new = some (header oldName newName ++ body) ∧
        Reconstructs old new body) ∧
    IsLineScript (lineScript old new) old new := by
  refine ⟨render?_eq_none_iff script oldName old newName new, ?_, lineScript_isLineScript old new⟩
  rintro hne ⟨lines, hlines, hscript⟩
  have hforward : Between (deletionsFirst lines) (linesWithEnds old) (linesWithEnds new) :=
    hlines.of_visible fun _ hkeep => visible_deletionsFirst hkeep lines
  refine ⟨(deletionsFirst (script old new)).flatMap renderChunk, if_neg hne, ?_⟩
  rw [hscript, deletionsFirst_joined]
  exact reconstructs_of_between hforward

/-- A script in which an insertion stands before a deletion; neither text ends with a newline. -/
def longerEnd : Script UInt8 :=
  [⟨.keep, utf8 "a\n"⟩, ⟨.insert, utf8 "x\ny"⟩, ⟨.delete, utf8 "x"⟩]

/-- The last line of the old text is deleted although the new text has it too, but for the newline. -/
theorem render_reconstructs_longerEnd :
    utf8 "a\nx" ≠ utf8 "a\nx\ny" ∧ IsLineScript longerEnd (utf8 "a\nx") (utf8 "a\nx\ny") ∧
      (∃ body, render? (fun _ _ => longerEnd) (utf8 "old") (utf8 "a\nx") (utf8 "new")
          (utf8 "a\nx\ny") = some (header (utf8 "old") (utf8 "new") ++ body) ∧
        body = utf8 " a\n-x\n+x\n+y\n" ∧ Reconstructs (utf8 "a\nx") (utf8 "a\nx\ny") body) ∧
      ∃ body, render? lineScript (utf8 "old") (utf8 "a\nx") (utf8 "new") (utf8 "a\nx\ny") =
          some (header (utf8 "old") (utf8 "new") ++ body) ∧
        Reconstructs (utf8 "a\nx") (utf8 "a\nx\ny") body := by
  have hne : utf8 "a\nx" ≠ utf8 "a\nx\ny" := by decide +kernel
  have hlines : IsLineScript longerEnd (utf8 "a\nx") (utf8 "a\nx\ny") :=
    ⟨[⟨.keep, [utf8 "a\n"]⟩, ⟨.insert, [utf8 "x\n", utf8 "y"]⟩, ⟨.delete, [utf8 "x"]⟩],
      ⟨by decide +kernel, by decide +kernel⟩, by decide +kernel⟩
  have hprinted : render? (fun _ _ => longerEnd) (utf8 "old") (utf8 "a\nx") (utf8 "new")
      (utf8 "a\nx\ny") = some (header (utf8 "old") (utf8 "new") ++ utf8 " a\n-x\n+x\n+y\n") := by
    decide +kernel
  obtain ⟨_, hshown, _⟩ := render_reconstructs (fun _ _ => longerEnd) (utf8 "old") (utf8 "a\nx")
    (utf8 "new") (utf8 "a\nx\ny")
  obtain ⟨body, hbody, hboth⟩ := hshown hne hlines
  have hsame : body = utf8 " a\n-x\n+x\n+y\n" :=
    List.append_cancel_left (Option.some.inj (hbody.symm.trans hprinted))
  obtain ⟨_, hcompared, hlineScript⟩ := render_reconstructs lineScript (utf8 "old") (utf8 "a\nx")
    (utf8 "new") (utf8 "a\nx\ny")
  exact ⟨hne, hlines, ⟨body, hbody, hsame, hboth⟩, hcompared hne hlineScript⟩

end ActionLog.LineDiff
