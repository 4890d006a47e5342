import ActionLog.Proofs.Describe
import ActionLog.Proofs.Substitution
import Mathlib.Data.List.SplitBy

/-!
# One word, searched in two ways

A name is searched as a text, with a look at both neighbours of every place where it stands, or it
is compared with the identifiers of a text, one after another.  Both searches find the same places,
also where the name overlaps itself.

* `segments` — a text cut into its maximal runs of identifier bytes and single other bytes;
* `substitute_eq_segments` — substitution replaces the runs and keeps all else;
* `values_findAllFrom_nameRun` — the identifiers found are the runs;
* `findAllFrom_wordPattern` — a word is found where one of them is equal to it;
* `replaceWord_restored` — a word that was not there can be renamed back.

Principal result: `Pass.whole_words_agree`.
-/

set_option autoImplicit false

namespace ActionLog

namespace Text

/-! ## Segments -/

/-- A text cut into its maximal runs of identifier bytes and, around them, single other bytes. -/
def segments (s : Text) : List Text := s.splitBy fun a b => Byte.isName a && Byte.isName b

@[simp] theorem segments_nil : segments [] = [] := rfl

theorem segments_other {b : UInt8} (hb : Byte.isName b = false) (s : Text) :
    segments (b :: s) = [b] :: segments s := by
  refine List.splitBy_append (l := [b]) fun x hx y _ => ?_
  have hxb : b = x := by simpa using hx
  rw [← hxb, hb, Bool.false_and]

theorem segments_run {r s : Text} (hne : r ≠ []) (hr : IsRun r) (hs : Bare s) :
    segments (r ++ s) = r :: segments s := by
  have hchain : r.IsChain fun a b => (Byte.isName a && Byte.isName b) = true := by
    refine (List.pairwise_of_forall_mem_list fun a ha b hb => ?_).isChain
    rw [hr a ha, hr b hb, Bool.and_self]
  have hborder : ∀ a ∈ r.getLast?, ∀ b ∈ s.head?, (Byte.isName a && Byte.isName b) = false := by
    intro a _ b hb
    have hbare : s.head?.any Byte.isName = false := hs
    rw [Option.mem_def.mp hb, Option.any_some] at hbare
    rw [hbare, Bool.and_false]
  unfold segments
  rw [List.splitBy_append hborder, List.splitBy_of_isChain hne hchain, List.singleton_append]

theorem not_isRun_other {b : UInt8} (hb : Byte.isName b = false) : ¬ IsRun [b] := by
  simp [IsRun, hb]

/-- **Substitution replaces the maximal runs of a text and keeps all else.** -/
theorem substitute_eq_segments (f : Text → Text) (s : Text) :
    substitute f s = (segments s).flatMap fun t => if IsRun t then f t else t := by
  induction s using run_induction with
  | nil => rfl
  | other b s hb ih =>
    rw [substitute_other f hb, segments_other hb, List.flatMap_cons,
      if_neg (not_isRun_other hb), ih]
    rfl
  | run r s hne hr hs ih =>
    rw [substitute_run f hne hr hs, segments_run hne hr hs, List.flatMap_cons, if_pos hr, ih]

/-! ## Both searches -/

/-- The identifiers found in a text are its maximal runs. -/
theorem values_findAllFrom_nameRun (s : Text) : ∀ pos before,
    (findAllFrom .byte nameRun pos before 0 s).map Hit.value =
      (segments s).filter fun t => decide (IsRun t) := by
  induction s using run_induction with
  | nil =>
    intro pos before
    rfl
  | other b s hb ih =>
    intro pos before
    rw [findAllFrom_nameRun_other hb, segments_other hb,
      List.filter_cons_of_neg (by simpa using not_isRun_other hb), ih]
  | run r s hne hr hs ih =>
    intro pos before
    rw [findAllFrom_nameRun_run hne hr hs, segments_run hne hr hs,
      List.filter_cons_of_pos (by simpa using hr), List.map_cons, ih]

/-- **A word is found where an identifier is equal to it**, however it overlaps itself: the search
does not start inside of a run, and a run is either found as a whole or passed. -/
theorem findAllFrom_wordPattern {w : Text} (hne : w ≠ []) (hw : IsRun w) (s : Text) :
    ∀ pos (before : Option UInt8), before.any Byte.isName = false ∨ Bare s →
      findAllFrom .byte (wordPattern w) pos before 0 s =
        ((findAllFrom .byte nameRun pos before 0 s).filter fun hit => decide (hit.value = w)).map
          fun hit => ⟨hit.start, hit.stop, ()⟩ := by
  induction s using run_induction with
  | nil =>
    intro pos before _
    rfl
  | other b s hb ih =>
    intro pos before _
    rw [findAllFrom_nameRun_other hb, ← ih (pos + 1) (some b) (.inl hb), findAllFrom,
      wordPattern_other hw hb]
    rfl
  | run r s hrne hr hs ih =>
    intro pos before hstart
    have hbefore : before.any Byte.isName = false :=
      hstart.resolve_right (not_bare_run hrne hr)
    have hrest := ih (pos + r.length) r.getLast? (.inr hs)
    rw [findAllFrom_nameRun_run hrne hr hs]
    by_cases hrw : r = w
    · have hfound : wordPattern w before (r ++ s) = some (r.length, ()) := by
        rw [wordPattern_run hne hw before hr hs, if_pos ⟨hbefore, hrw⟩, hrw]
      rw [findAllFrom_hit hrne hfound, hrest, List.filter_cons_of_pos (by simpa using hrw)]
      rfl
    · rw [findAllFrom_keep fun u v huv _ => wordPattern_differs hne hw hr hs hrw huv,
        getLast?_or_of_ne_nil hrne, hrest, List.filter_cons_of_neg (by simpa using hrw)]

/-- **A word occurs in a text exactly if it is one of its maximal runs.** -/
theorem hasWord_iff_mem_segments {w : Text} (hne : w ≠ []) (hw : IsRun w) (s : Text) :
    hasWord w s = true ↔ w ∈ segments s := by
  have hruns := values_findAllFrom_nameRun s 0 none
  have hmem : w ∈ segments s ↔ w ∈ (findAll .byte nameRun s).map Hit.value := by
    rw [findAll, hruns]
    simp [hw]
  unfold hasWord find? findAll
  rw [hmem, findAllFrom_wordPattern hne hw s 0 none (.inl rfl)]
  simp [findAll]

/-! ## Replacing -/

theorem replaceWord_eq_segments {old : Text} (hne : old ≠ []) (hold : IsRun old) (new s : Text) :
    replaceWord old new s = (segments s).flatMap fun t => if t = old then new else t := by
  rw [replaceWord_eq_substitute hne hold, substitute_eq_segments]
  congr 1
  funext t
  by_cases ht : t = old
  · rw [if_pos (ht ▸ hold)]
  · rw [if_neg ht, ite_self]

/-- **A word that was not there can be renamed back.** -/
theorem replaceWord_restored {old new s : Text} (hne : old ≠ []) (hold : IsRun old)
    (hnew : new ≠ []) (hrun : IsRun new) (hfree : hasWord new s = false) :
    replaceWord new old (replaceWord old new s) = s := by
  rw [replaceWord_eq_substitute hne hold, replaceWord_eq_substitute hnew hrun, substitute_comp]
  refine substitute_of_words fun r hrne hr hword => ?_
  by_cases hro : r = old
  · rw [if_pos hro, substitute_word _ hnew hrun, if_pos rfl, hro]
  · have hrn : r ≠ new := by
      rintro rfl
      rw [hfree] at hword
      cases hword
    rw [if_neg hro, substitute_word _ hrne hr, if_neg hrn]

end Text

namespace Pass

open Text (IsRun segments)

theorem Renames.newName_singleton (old new r : Text) :
    Renames.newName [(old, new)] r = if r = old then new else r := by
  by_cases h : r = old
  · simp [newName, h]
  · simp [newName, List.lookup_cons, beq_false_of_ne h, h]

/-- **Both ways to replace a whole word agree.**  A word that consists of identifier bytes is found
as a text exactly where an identifier is equal to it.  Replacing it gives the text in which this one
variable is renamed: every maximal run equal to the word is replaced, and every other byte is kept.
The word occurs exactly if it is one of the runs, and a new word that is none of them can be renamed
back. -/
theorem whole_words_agree {old : Text} (hne : old ≠ []) (hold : IsRun old) (new s : Text) :
    Text.findAll .byte (Text.wordPattern old) s =
      ((Text.findAll .byte Text.nameRun s).filter fun hit => decide (hit.value = old)).map
        (fun hit => ⟨hit.start, hit.stop, ()⟩) ∧
    (reviseOrAbort s (renameEdits [(old, new)] s) : Outcome (Text × Registry) Text) =
      .ok (Text.replaceWord old new s) ∧
    Text.replaceWord old new s = ((segments s).flatMap fun t => if t = old then new else t) ∧
    (Text.hasWord old s = true ↔ old ∈ segments s) ∧
    (new ≠ [] → IsRun new → new ∉ segments s →
      Text.replaceWord new old (Text.replaceWord old new s) = s) := by
  refine ⟨Text.findAllFrom_wordPattern hne hold s 0 none (.inl rfl), ?_,
    Text.replaceWord_eq_segments hne hold new s, Text.hasWord_iff_mem_segments hne hold s, ?_⟩
  · rw [reviseOrAbort_renameEdits, Text.replaceWord_eq_substitute hne hold]
    congr 2
    funext r
    exact Renames.newName_singleton old new r
  · intro hnew hrun hfree
    rw [← Text.hasWord_iff_mem_segments hnew hrun, Bool.not_eq_true] at hfree
    exact Text.replaceWord_restored hne hold hnew hrun hfree

/-- A text with words that start, end and overlap like `aa`. -/
def doubled : Text := utf8 "aaa.aa-aa $aa(aaaa"

theorem whole_words_agree_doubled :
    utf8 "aa" ≠ [] ∧ IsRun (utf8 "aa") ∧
    (Text.findAll .byte (Text.wordPattern (utf8 "aa")) doubled).map (·.start) = [4, 7] ∧
    (reviseOrAbort doubled (renameEdits [(utf8 "aa", utf8 "b")] doubled) :
      Outcome (Text × Registry) Text) = .ok (utf8 "aaa.b-b $aa(aaaa") ∧
    Text.hasWord (utf8 "aa") doubled = true ∧
    utf8 "b" ≠ [] ∧ IsRun (utf8 "b") ∧ utf8 "b" ∉ segments doubled ∧
    Text.replaceWord (utf8 "b") (utf8 "aa") (utf8 "aaa.b-b $aa(aaaa") = doubled := by
  have hne : utf8 "aa" ≠ [] := by decide +kernel
  have hold : IsRun (utf8 "aa") := by decide +kernel
  have hnew : utf8 "b" ≠ [] := by decide +kernel
  have hrun : IsRun (utf8 "b") := by decide +kernel
  have hmem : utf8 "aa" ∈ segments doubled := by decide +kernel
  have hfree : utf8 "b" ∉ segments doubled := by decide +kernel
  obtain ⟨hplaces, hedits, hout, hhas, hback⟩ := whole_words_agree hne hold (utf8 "b") doubled
  have hvalue : Text.replaceWord (utf8 "aa") (utf8 "b") doubled = utf8 "aaa.b-b $aa(aaaa" := by
    rw [hout]
    decide +kernel
  rw [hvalue] at hedits hback
  refine ⟨hne, hold, ?_, hedits, hhas.mpr hmem, hnew, hrun, hfree, hback hnew hrun hfree⟩
  rw [hplaces]
  decide +kernel

end Pass

end ActionLog
