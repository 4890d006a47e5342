import ActionLog.Proofs.Draft
import ActionLog.Proofs.Inline

/-!
# Lines with one part replaced

Edits of which every line has at most one, as the parts of the lines around them.

* `LineChange` — a line that is kept, or one in which a part is replaced;
* `LineChange.edits` — the edits of changes, at the offsets of their lines;
* `LineChange.flip` — the change back.

Principal results: `LineChange.revise_edits` — all edits can be made, and change the lines one by
one; `LineChange.revise_flip` — the edits of the flipped changes undo them.
-/

set_option autoImplicit false

namespace ActionLog

open Text (unlines)
open Pass (following following_cons unlines_cons)

/-- What becomes of a line: it is kept, or `new` takes the place of `old`. -/
inductive LineChange where
  | keep (line : Text)
  | swap (front old new back : Text)
  deriving DecidableEq, Repr

namespace LineChange

/-- The line as it was. -/
def before : LineChange → Text
  | keep line => line
  | swap front old _ back => front ++ (old ++ back)

/-- The line as it becomes. -/
def after : LineChange → Text
  | keep line => line
  | swap front _ new back => front ++ (new ++ back)

/-- The change back. -/
def flip : LineChange → LineChange
  | keep line => keep line
  | swap front old new back => swap front new old back

/-- The edit of a line that starts at `offset`, if it is changed. -/
def edit (offset : Nat) : LineChange → List Edit
  | keep _ => []
  | swap front old new _ => [⟨offset + front.length, offset + front.length + old.length, new⟩]

/-- The edits of lines, the first of which starts at `offset`. -/
def edits : (offset : Nat) → List LineChange → List Edit
  | _, [] => []
  | offset, c :: cs => c.edit offset ++ edits (offset + c.before.length + 1) cs

@[simp] theorem before_flip (c : LineChange) : c.flip.before = c.after := by cases c <;> rfl

@[simp] theorem after_flip (c : LineChange) : c.flip.after = c.before := by cases c <;> rfl

variable {offset : Nat} {c : LineChange} {cs : List LineChange}

theorem edit_within {e : Edit} (he : e ∈ c.edit offset) :
    offset ≤ e.start ∧ e.start ≤ e.stop ∧ e.stop ≤ offset + c.before.length := by
  cases c with
  | keep line => cases he
  | swap front old new back =>
    rw [edit, List.mem_singleton] at he
    subst he
    simp only [before, List.length_append]
    omega

theorem edits_within {e : Edit} (he : e ∈ edits offset cs) :
    offset ≤ e.start ∧ e.start ≤ e.stop ∧
      e.stop ≤ offset + (unlines (cs.map before)).length := by
  induction cs generalizing offset with
  | nil => cases he
  | cons c cs ih =>
    rw [List.map_cons, unlines_cons, List.length_append]
    rcases List.mem_append.mp he with he | he
    · have := edit_within he
      omega
    · have hrest := ih he
      cases cs with
      | nil => cases he
      | cons c' cs =>
        simp only [List.map_cons, unlines_cons, following_cons, List.length_cons,
          List.length_append] at hrest ⊢
        omega

theorem edits_apart (offset : Nat) (cs : List LineChange) :
    (edits offset cs).Pairwise fun a b => a.stop ≤ b.start := by
  induction cs generalizing offset with
  | nil => exact List.Pairwise.nil
  | cons c cs ih =>
    rw [edits, List.pairwise_append]
    refine ⟨?_, ih _, fun a ha b hb => ?_⟩
    · cases c with
      | keep line => exact List.Pairwise.nil
      | swap front old new back => exact List.pairwise_singleton _ _
    · have hfirst := edit_within ha
      have hrest := edits_within hb
      omega

/-- Making the edit of one line, with the rest of the edits behind it. -/
theorem splice_edit_line (u s : Text) (c : LineChange) {es : List Edit}
    (h : ∀ e ∈ es, (u ++ c.before).length ≤ e.start) :
    Draft.splice (u ++ (c.before ++ s)) u.length (c.edit u.length ++ es) =
      c.after ++ Draft.splice (u ++ (c.before ++ s)) (u ++ c.before).length es := by
  cases c with
  | keep line =>
    have hkeep := Draft.splice_append (s := s) h
    rwa [List.append_assoc] at hkeep
  | swap front old new back =>
    have hline : u ++ (front ++ (old ++ back)) = u ++ front ++ old ++ back := by simp
    have htext : u ++ (front ++ (old ++ back) ++ s) = u ++ front ++ (old ++ (back ++ s)) := by simp
    have htext' : u ++ front ++ (old ++ (back ++ s)) = u ++ front ++ old ++ back ++ s := by simp
    have hlen : u.length + front.length = (u ++ front).length := List.length_append.symm
    have hstop : (u ++ front).length + old.length = (u ++ front ++ old).length :=
      List.length_append.symm
    simp only [before, after, edit, List.singleton_append] at h ⊢
    rw [hline] at h
    rw [hline, htext, hlen, hstop, Draft.splice_append, Draft.splice_edit, htext',
      Draft.splice_append h]
    · simp
    · intro e he
      rcases List.mem_cons.mp he with rfl | he
      · exact Nat.le_refl _
      · have := h e he
        simp only [List.length_append] at this ⊢
        omega

/-- Making the edits of the lines behind a text. -/
theorem splice_following (u : Text) (cs : List LineChange) :
    Draft.splice (u ++ following (cs.map before)) u.length (edits (u.length + 1) cs) =
      following (cs.map after) := by
  induction cs generalizing u with
  | nil => simp [edits, Draft.splice, following]
  | cons c cs ih =>
    have hlen : u.length + 1 = (u ++ [Byte.newline]).length := by simp
    have hnext : (u ++ [Byte.newline]).length + c.before.length + 1 =
        (u ++ [Byte.newline] ++ c.before).length + 1 := by
      rw [← List.length_append]
    have hassoc : u ++ Byte.newline :: (c.before ++ following (cs.map before)) =
        u ++ [Byte.newline] ++ (c.before ++ following (cs.map before)) := by simp
    have hstarts : ∀ e ∈ edits ((u ++ [Byte.newline] ++ c.before).length + 1) cs,
        (u ++ [Byte.newline] ++ c.before).length ≤ e.start := fun e he => by
      have := edits_within he
      omega
    rw [List.map_cons, List.map_cons, following_cons, following_cons, hassoc, edits, hlen, hnext,
      Draft.splice_append, splice_edit_line _ _ _ hstarts, ← List.append_assoc _ c.before, ih]
    · rfl
    · intro e he
      rcases List.mem_append.mp he with he | he
      · exact (edit_within he).1
      · have := hstarts e he
        rw [List.length_append] at this
        omega

theorem makeable_edits (cs : List LineChange) :
    Makeable (unlines (cs.map before)) (edits 0 cs) := by
  refine ⟨fun e he => ?_, edits_apart 0 cs⟩
  have hwithin := (edits_within he).2
  rwa [Nat.zero_add] at hwithin

/-- **All edits can be made, and change the lines one by one.** -/
theorem revise_edits (cs : List LineChange) :
    revise (unlines (cs.map before)) (edits 0 cs) = .ok (unlines (cs.map after)) := by
  rw [(makeable_edits cs).revise_eq]
  congr 1
  cases cs with
  | nil => rfl
  | cons c cs =>
    have hstarts : ∀ e ∈ edits (c.before.length + 1) cs,
        ([] ++ c.before).length ≤ e.start := fun e he => by
      have := edits_within he
      rw [List.nil_append]
      omega
    have hline := splice_edit_line [] (following (cs.map before)) c hstarts
    rw [List.map_cons, List.map_cons, unlines_cons, unlines_cons, edits, Nat.zero_add,
      ← splice_following c.before cs]
    exact hline

/-- **The edits of the flipped changes undo them.** -/
theorem revise_flip (cs : List LineChange) :
    revise (unlines (cs.map after)) (edits 0 (cs.map flip)) = .ok (unlines (cs.map before)) := by
  have hback := revise_edits (cs.map flip)
  simpa [List.map_map, Function.comp_def] using hback

end LineChange

end ActionLog
