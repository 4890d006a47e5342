import ActionLog.Text.Word
import Mathlib.Data.List.Basic
import Mathlib.Data.List.TakeWhile

/-!
# Whole words and maximal runs

A text is a sequence of maximal runs of identifier bytes with other bytes between them.  Where a
name consists of identifier bytes, its whole words are the runs equal to it, and replacing them is
a substitution of runs.

* `class_cases`, `run_induction` — texts cut into runs, and induction along the runs of a text;
* `word_border` — a word does not cross the border of a text that starts with no name;
* `substitute_run`, `replaceWord_run` — what the operations do to a run;
* `replaceWord_eq_substitute` — one word replaced is one run substituted;
* `substitute_substitute` — one substitution after another is a single one;
* `WordIn`, `hasWord_iff` — a word between bytes that belong to no name;
* `substitute_congr_words`, `substitute_of_words` — substitution looks at the words of a text only, and
  a text keeps the words that are not renamed;
* `Spliced`, `replaceWord_spliced` — of any word at all: the result arises by putting the new text
  in place of occurrences of the old one.
-/

set_option autoImplicit false

namespace ActionLog.Text

theorem after?_eq_some {pat s t : Text} : after? pat s = some t ↔ s = pat ++ t := by
  unfold after?
  rw [List.isPrefixOf?_eq_some_iff_append_eq]
  exact eq_comm

theorem after?_append (pat s : Text) : after? pat (pat ++ s) = some s := after?_eq_some.mpr rfl

theorem dropEnd_append (s pat : Text) : dropEnd pat (s ++ pat) = s := by
  have h : pat.reverse.isPrefixOf? (s ++ pat).reverse = some s.reverse :=
    List.isPrefixOf?_eq_some_iff_append_eq.mpr (by simp)
  simp only [dropEnd, h, List.reverse_reverse]

/-- Identifier bytes only. -/
def IsRun (s : Text) : Prop := ∀ b ∈ s, Byte.isName b = true

instance (s : Text) : Decidable (IsRun s) := inferInstanceAs (Decidable (∀ b ∈ s, _))

/-- The text does not start inside a run. -/
def Bare (s : Text) : Prop := s.head?.any Byte.isName = false

theorem bare_left {s t : Text} (h : Bare (s ++ t)) : Bare s := by
  cases s with
  | nil => rfl
  | cons b s => exact h

theorem bare_append {s t : Text} (hs : Bare s) (ht : Bare t) : Bare (s ++ t) := by
  cases s with
  | nil => exact ht
  | cons b s => exact hs

/-- Before a name stands what stands before it in a longer text. -/
theorem last_append {u v : Text} (h : (u ++ v).getLast?.any Byte.isName = false) :
    v.getLast?.any Byte.isName = false := by
  cases hlast : v.getLast? with
  | none => rfl
  | some b =>
    rw [List.getLast?_append, hlast] at h
    exact h

theorem not_bare_run {r s : Text} (hne : r ≠ []) (hr : IsRun r) : ¬ Bare (r ++ s) := by
  obtain ⟨b, r', rfl⟩ := List.exists_cons_of_ne_nil hne
  intro h
  have hb : Byte.isName b = false := h
  rw [hr b List.mem_cons_self] at hb
  cases hb

/-- A run does not cross the border before a bare text. -/
theorem word_border {s t u w v : Text} (hne : w ≠ []) (hw : IsRun w) (ht : Bare t)
    (h : s ++ t = u ++ w ++ v) :
    (∃ c, c ≠ [] ∧ u = s ++ c ∧ t = c ++ w ++ v) ∨ ∃ e, s = u ++ w ++ e ∧ v = e ++ t := by
  rw [List.append_assoc] at h
  rcases List.append_eq_append_iff.mp h with ⟨c, hu, htc⟩ | ⟨c, hs, hc⟩
  · refine .inl ⟨c, ?_, hu, by rw [htc, List.append_assoc]⟩
    rintro rfl
    exact not_bare_run hne hw (htc ▸ ht)
  · rcases List.append_eq_append_iff.mp hc with ⟨e, rfl, hv⟩ | ⟨e, rfl, hte⟩
    · exact .inr ⟨e, by rw [hs, List.append_assoc], hv⟩
    · cases e with
      | nil => exact .inr ⟨[], by rw [hs]; simp, hte.symm⟩
      | cons x e =>
        refine absurd (hte ▸ ht) (not_bare_run (List.cons_ne_nil x e) fun b hb => ?_)
        exact hw b (List.mem_append_right _ hb)

/-! ## Runs of a class of bytes -/

/-- Bytes outside of a class are passed before a text that starts inside of it. -/
theorem class_front {p : UInt8 → Bool} {x s u w : Text} (hx : ∀ b ∈ x, p b = false)
    (hw : w.head?.any p = true) (h : x ++ s = u ++ w) : ∃ c, u = x ++ c ∧ s = c ++ w := by
  rcases List.append_eq_append_iff.mp h with ⟨c, hu, hs⟩ | ⟨c, rfl, hc⟩
  · exact ⟨c, hu, hs⟩
  · cases c with
    | nil => exact ⟨[], by simp, hc.symm⟩
    | cons b c =>
      rw [hc] at hw
      have hb : p b = true := hw
      rw [hx b (by simp)] at hb
      cases hb

/-- A run starts behind a text without identifier bytes. -/
theorem word_front {x s u w v : Text} (hne : w ≠ []) (hw : IsRun w)
    (hx : ∀ b ∈ x, Byte.isName b = false) (h : x ++ s = u ++ w ++ v) :
    ∃ c, u = x ++ c ∧ s = c ++ w ++ v := by
  obtain ⟨b, w', rfl⟩ := List.exists_cons_of_ne_nil hne
  rw [List.append_assoc] at h
  have hhead : (b :: w' ++ v).head?.any Byte.isName = true := hw b List.mem_cons_self
  obtain ⟨c, hu, hs⟩ := class_front hx hhead h
  exact ⟨c, hu, by rw [hs, List.append_assoc]⟩

/-- A start of a run ends inside of the class. -/
theorem class_last {p : UInt8 → Bool} {r u v : Text} (hr : ∀ b ∈ r, p b = true) (h : r = u ++ v)
    (hu : u ≠ []) : u.getLast?.any p = true := by
  rw [List.getLast?_eq_some_getLast hu, Option.any_some]
  exact hr _ (h ▸ List.mem_append_left v (List.getLast_mem hu))

theorem run_last {r : Text} (hne : r ≠ []) (hr : IsRun r) : r.getLast?.any Byte.isName = true :=
  class_last hr (List.append_nil r).symm hne

theorem head?_dropWhile_class (p : UInt8 → Bool) (s : Text) :
    (s.dropWhile p).head?.any p = false := by
  cases hd : s.dropWhile p with
  | nil => rfl
  | cons c rest =>
    have hc := List.head_dropWhile_not p (l := s) (by rw [hd]; simp)
    simpa [hd] using hc

theorem takeWhile_class {p : UInt8 → Bool} {r s : Text} (hr : ∀ b ∈ r, p b = true)
    (hs : s.head?.any p = false) : (r ++ s).takeWhile p = r := by
  rw [List.takeWhile_append_of_pos hr]
  cases s with
  | nil => simp
  | cons b s => simp [show p b = false from hs]

/-- A text is empty, or starts with a byte outside of a class or with a maximal run inside of it. -/
theorem class_cases (p : UInt8 → Bool) (s : Text) :
    s = [] ∨ (∃ b t, s = b :: t ∧ p b = false) ∨
      ∃ r t, s = r ++ t ∧ r ≠ [] ∧ (∀ b ∈ r, p b = true) ∧ t.head?.any p = false := by
  cases s with
  | nil => exact .inl rfl
  | cons b s =>
    by_cases hb : p b = true
    · refine .inr (.inr ⟨b :: s.takeWhile p, s.dropWhile p, ?_, List.cons_ne_nil _ _, ?_,
        head?_dropWhile_class p s⟩)
      · rw [List.cons_append, List.takeWhile_append_dropWhile]
      · exact List.forall_mem_cons.mpr ⟨hb, fun x hx => List.mem_takeWhile_imp hx⟩
    · exact .inr (.inl ⟨b, s, rfl, Bool.eq_false_iff.mpr hb⟩)

/-- Induction along the maximal runs of a text. -/
theorem run_induction {motive : Text → Prop} (nil : motive [])
    (other : ∀ b s, Byte.isName b = false → motive s → motive (b :: s))
    (run : ∀ r s, r ≠ [] → IsRun r → Bare s → motive s → motive (r ++ s)) (s : Text) :
    motive s := by
  rcases class_cases Byte.isName s with heq | ⟨b, t, heq, hb⟩ | ⟨r, t, heq, hne, hr, ht⟩
  · rw [heq]
    exact nil
  · have hlt : t.length < s.length := by
      rw [heq, List.length_cons]
      omega
    rw [heq]
    exact other b t hb (run_induction nil other run t)
  · have hlt : t.length < s.length := by
      have hpos := List.length_pos_of_ne_nil hne
      rw [heq, List.length_append]
      omega
    rw [heq]
    exact run r t hne hr ht (run_induction nil other run t)
termination_by s.length
decreasing_by
  · exact hlt
  · exact hlt

theorem takeWhile_run {r s : Text} (hr : IsRun r) (hs : Bare s) :
    (r ++ s).takeWhile Byte.isName = r :=
  takeWhile_class hr hs

/-! ## Replacing hits -/

/-- The byte before a place, after one more byte. -/
theorem getLast?_cons_or (b : UInt8) (u : Text) (before : Option UInt8) :
    (b :: u).getLast?.or before = u.getLast?.or (some b) := by
  cases u with
  | nil => rfl
  | cons c u => rw [List.getLast?_cons_cons, List.getLast?_cons]; rfl

theorem getLast?_or_of_ne_nil {r : Text} (hne : r ≠ []) (before : Option UInt8) :
    r.getLast?.or before = r.getLast? := by
  rw [List.getLast?_eq_some_getLast hne, Option.some_or]

theorem getLast?_append_or {r : Text} (hne : r ≠ []) (u : Text) (before : Option UInt8) :
    (r ++ u).getLast?.or before = u.getLast?.or r.getLast? := by
  rw [List.getLast?_append, Option.or_assoc, getLast?_or_of_ne_nil hne]

theorem replaceHitsFrom_skip (g : Grain) (p : Pattern Text) (r s : Text) :
    ∀ before, replaceHitsFrom g p before r.length (r ++ s) =
      replaceHitsFrom g p (r.getLast?.or before) 0 s := by
  induction r with
  | nil => intro before; rfl
  | cons b r ih =>
    intro before
    show replaceHitsFrom g p (some b) r.length (r ++ s) = _
    rw [ih, getLast?_cons_or]

/-- A match at the start is replaced, and the search goes on behind it. -/
theorem replaceHitsFrom_hit {p : Pattern Text} {before : Option UInt8} {x s new : Text} (hx : x ≠ [])
    (h : p before (x ++ s) = some (x.length, new)) (g : Grain) :
    replaceHitsFrom g p before 0 (x ++ s) =
      new ++ replaceHitsFrom g p (x.getLast?.or before) 0 s := by
  obtain ⟨b, x, rfl⟩ := List.exists_cons_of_ne_nil hx
  rw [List.cons_append] at h ⊢
  rw [replaceHitsFrom, h, getLast?_cons_or, ← replaceHitsFrom_skip]
  rfl

/-- Bytes at which no match starts are kept. -/
theorem replaceHitsFrom_keep {p : Pattern Text} {x s : Text} : ∀ {before : Option UInt8},
    (∀ u v, x = u ++ v → v ≠ [] → p (u.getLast?.or before) (v ++ s) = none) →
      replaceHitsFrom .byte p before 0 (x ++ s) =
        x ++ replaceHitsFrom .byte p (x.getLast?.or before) 0 s := by
  induction x with
  | nil =>
    intro before _
    rfl
  | cons b x ih =>
    intro before h
    have hb : p before (b :: (x ++ s)) = none := h [] (b :: x) rfl (List.cons_ne_nil b x)
    rw [List.cons_append, replaceHitsFrom, hb, getLast?_cons_or]
    show b :: replaceHitsFrom .byte p (some b) 0 (x ++ s) = _
    rw [ih]
    · rfl
    · intro u v huv hv
      rw [← getLast?_cons_or b u before]
      exact h (b :: u) v (by rw [huv]; rfl) hv

/-- Substitution does not look at the byte before a place. -/
theorem substitute_from (f : Text → Text) (before : Option UInt8) (s : Text) :
    replaceHitsFrom .byte
      (fun before rest => (nameRun before rest).map fun (n, run) => (n, f run)) before 0 s =
      substitute f s := by
  cases s <;> rfl

@[simp] theorem substitute_nil (f : Text → Text) : substitute f [] = [] := rfl

theorem substitute_other (f : Text → Text) {b : UInt8} (hb : Byte.isName b = false) (s : Text) :
    substitute f (b :: s) = b :: substitute f s := by
  have hnone : nameRun none (b :: s) = none := by simp [nameRun, hb]
  rw [← substitute_from f (some b) s]
  simp [substitute, replaceHits, replaceHitsFrom, hnone, Grain.width]

theorem substitute_run (f : Text → Text) {r s : Text} (hne : r ≠ []) (hr : IsRun r) (hs : Bare s) :
    substitute f (r ++ s) = f r ++ substitute f s := by
  have hrun : nameRun none (r ++ s) = some (r.length, r) := by
    obtain ⟨b, r', rfl⟩ := List.exists_cons_of_ne_nil hne
    simp only [nameRun, takeWhile_run hr hs]
  rw [← substitute_from f (r.getLast?.or none) s]
  exact replaceHitsFrom_hit hne (by rw [hrun]; rfl) .byte

/-- **One substitution after another is a single one**, if the first turns runs into runs. -/
theorem substitute_substitute (f g : Text → Text)
    (hf : ∀ r, r ≠ [] → IsRun r → f r ≠ [] ∧ IsRun (f r)) (s : Text) :
    substitute g (substitute f s) = substitute (fun r => g (f r)) s ∧
      (Bare s → Bare (substitute f s)) := by
  induction s using run_induction with
  | nil => exact ⟨rfl, id⟩
  | other b s hb ih =>
    rw [substitute_other f hb, substitute_other g hb, substitute_other _ hb, ih.1]
    exact ⟨rfl, fun _ => hb⟩
  | run r s hne hr hs ih =>
    obtain ⟨hfne, hfr⟩ := hf r hne hr
    rw [substitute_run f hne hr hs, substitute_run _ hne hr hs,
      substitute_run g hfne hfr (ih.2 hs), ih.1]
    refine ⟨rfl, fun hbare => ?_⟩
    obtain ⟨b, r', rfl⟩ := List.exists_cons_of_ne_nil hne
    have hb : Byte.isName b = false := hbare
    rw [hr b List.mem_cons_self] at hb
    cases hb

theorem substitute_congr {f g : Text → Text} (h : ∀ r, r ≠ [] → IsRun r → f r = g r) (s : Text) :
    substitute f s = substitute g s := by
  induction s using run_induction with
  | nil => rfl
  | other b s hb ih => rw [substitute_other f hb, substitute_other g hb, ih]
  | run r s hne hr hs ih =>
    rw [substitute_run f hne hr hs, substitute_run g hne hr hs, ih, h r hne hr]

theorem substitute_id (s : Text) : substitute (fun r => r) s = s := by
  induction s using run_induction with
  | nil => rfl
  | other b s hb ih => rw [substitute_other _ hb, ih]
  | run r s hne hr hs ih => rw [substitute_run _ hne hr hs, ih]

/-- Only bytes of the text and of the new names are in a text with new names. -/
theorem mem_substitute {f : Text → Text} {s : Text} {b : UInt8} (h : b ∈ substitute f s) :
    b ∈ s ∨ ∃ r, r ≠ [] ∧ IsRun r ∧ b ∈ f r := by
  induction s using run_induction with
  | nil => exact .inl h
  | other c s hc ih =>
    rw [substitute_other f hc] at h
    rcases List.mem_cons.mp h with rfl | h
    · exact .inl List.mem_cons_self
    · exact (ih h).imp (List.mem_cons_of_mem _) id
  | run r s hne hr hs ih =>
    rw [substitute_run f hne hr hs] at h
    rcases List.mem_append.mp h with h | h
    · exact .inr ⟨r, hne, hr, h⟩
    · exact (ih h).imp (List.mem_append_right _) id

/-! ## One word -/

theorem wordPattern_eq_some {w : Text} {before : Option UInt8} {s : Text} {x : Nat × Unit}
    (h : wordPattern w before s = some x) :
    w ≠ [] ∧ x = (w.length, ()) ∧ ∃ tail, s = w ++ tail ∧ before.any Byte.isName = false ∧
      Bare tail := by
  unfold wordPattern at h
  split at h
  · cases h
  · rename_i hw
    split at h
    · rename_i tail htail
      split at h
      · rename_i hbound
        cases h
        simp only [Bool.and_eq_true, Bool.not_eq_true'] at hbound
        refine ⟨by simpa using hw, rfl, tail, ?_, hbound.1, hbound.2⟩
        exact (List.append_eq_of_isPrefixOf?_eq_some htail).symm
      · cases h
    · cases h

theorem wordPattern_isSome {w r : Text} {before : Option UInt8} :
    (wordPattern w before r).isSome = true ↔
      w ≠ [] ∧ ∃ v, r = w ++ v ∧ before.any Byte.isName = false ∧ Bare v := by
  constructor
  · intro h
    obtain ⟨x, hx⟩ := Option.isSome_iff_exists.mp h
    obtain ⟨hw, _, v, hr, hbefore, hv⟩ := wordPattern_eq_some hx
    exact ⟨hw, v, hr, hbefore, hv⟩
  · rintro ⟨hw, v, rfl, hbefore, hv⟩
    have hpre : w.isPrefixOf? (w ++ v) = some v := by
      rw [List.isPrefixOf?_eq_some_iff_append_eq]
    unfold Bare at hv
    simp [wordPattern, hw, hpre, hbefore, hv]

/-- A word that consists of identifier bytes is only found at the start of a run. -/
theorem wordPattern_run {w : Text} (hne : w ≠ []) (hw : IsRun w) (before : Option UInt8)
    {r s : Text} (hr : IsRun r) (hs : Bare s) :
    wordPattern w before (r ++ s) =
      if before.any Byte.isName = false ∧ r = w then some (w.length, ()) else none := by
  cases hx : wordPattern w before (r ++ s) with
  | some x =>
    obtain ⟨_, rfl, tail, heq, hbefore, hbare⟩ := wordPattern_eq_some hx
    have hrw : r = w := by rw [← takeWhile_run hr hs, heq, takeWhile_run hw hbare]
    rw [if_pos ⟨hbefore, hrw⟩]
  | none =>
    rw [if_neg]
    rintro ⟨hbefore, rfl⟩
    have hsome := wordPattern_isSome.mpr ⟨hne, s, rfl, hbefore, hs⟩
    rw [hx] at hsome
    cases hsome

/-- A word is not found at or inside of a run that differs from it. -/
theorem wordPattern_differs {w r s u v : Text} {before : Option UInt8} (hne : w ≠ []) (hw : IsRun w)
    (hr : IsRun r) (hs : Bare s) (hrw : r ≠ w) (h : r = u ++ v) :
    wordPattern w (u.getLast?.or before) (v ++ s) = none := by
  have hv : IsRun v := fun b hb => hr b (by rw [h]; exact List.mem_append_right u hb)
  rw [wordPattern_run hne hw _ hv hs, if_neg]
  rintro ⟨hbefore, rfl⟩
  -- the word would be an end of the run, and the byte before it belongs to the run as well
  have hu : u ≠ [] := by
    rintro rfl
    exact hrw h
  rw [getLast?_or_of_ne_nil hu, class_last hr h hu] at hbefore
  cases hbefore

/-- The rest of a text with a word replaced, after the byte given. -/
def replaceWordFrom (old new : Text) (before : Option UInt8) (s : Text) : Text :=
  replaceHitsFrom .byte (fun before rest => (wordPattern old before rest).map fun (n, _) => (n, new))
    before 0 s

theorem replaceWord_eq_from (old new s : Text) :
    replaceWord old new s = replaceWordFrom old new none s := rfl

theorem replaceWordFrom_cons {old : Text} (new : Text) {before : Option UInt8} {b : UInt8}
    {s : Text} (h : wordPattern old before (b :: s) = none) :
    replaceWordFrom old new before (b :: s) = b :: replaceWordFrom old new (some b) s := by
  simp [replaceWordFrom, replaceHitsFrom, h, Grain.width]

theorem replaceWordFrom_match {old : Text} (new : Text) {before : Option UInt8} {s : Text}
    (h : wordPattern old before (old ++ s) = some (old.length, ())) :
    replaceWordFrom old new before (old ++ s) = new ++ replaceWordFrom old new old.getLast? s := by
  have hne := (wordPattern_eq_some h).1
  unfold replaceWordFrom
  rw [replaceHitsFrom_hit hne (by rw [h]; rfl), getLast?_or_of_ne_nil hne]

theorem replaceWordFrom_keep {old : Text} (new : Text) {before : Option UInt8} {x s : Text}
    (h : ∀ u v, x = u ++ v → v ≠ [] → wordPattern old (u.getLast?.or before) (v ++ s) = none) :
    replaceWordFrom old new before (x ++ s) =
      x ++ replaceWordFrom old new (x.getLast?.or before) s :=
  replaceHitsFrom_keep fun u v huv hv => by rw [h u v huv hv]; rfl

theorem wordPattern_other {w : Text} (hw : IsRun w) {b : UInt8} (hb : Byte.isName b = false)
    (before : Option UInt8) (s : Text) : wordPattern w before (b :: s) = none := by
  cases hx : wordPattern w before (b :: s) with
  | none => rfl
  | some x =>
    obtain ⟨hne, _, tail, heq, _⟩ := wordPattern_eq_some hx
    obtain ⟨c, w', rfl⟩ := List.exists_cons_of_ne_nil hne
    cases heq
    rw [hw b List.mem_cons_self] at hb
    cases hb

theorem replaceWordFrom_before (old new : Text) (before : Option UInt8)
    (h : before.any Byte.isName = false) (s : Text) :
    replaceWordFrom old new before s = replaceWordFrom old new none s := by
  cases s with
  | nil => rfl
  | cons b s =>
    have hpattern : wordPattern old before (b :: s) = wordPattern old none (b :: s) := by
      simp [wordPattern, h]
    simp only [replaceWordFrom, replaceHitsFrom, hpattern]

theorem replaceWordFrom_bare {old : Text} (hold : IsRun old) (new : Text) (before : Option UInt8)
    {s : Text} (hs : Bare s) :
    replaceWordFrom old new before s = replaceWordFrom old new none s := by
  cases s with
  | nil => rfl
  | cons b s =>
    rw [replaceWordFrom_cons new (wordPattern_other hold hs before s),
      replaceWordFrom_cons new (wordPattern_other hold hs none s)]

theorem replaceWord_other {old : Text} (hold : IsRun old) (new : Text) {b : UInt8}
    (hb : Byte.isName b = false) (s : Text) :
    replaceWord old new (b :: s) = b :: replaceWord old new s := by
  rw [replaceWord_eq_from, replaceWordFrom_cons new (wordPattern_other hold hb none s),
    replaceWordFrom_before old new (some b) hb]
  rfl

theorem replaceWord_run {old : Text} (hne : old ≠ []) (hold : IsRun old) (new : Text) {r s : Text}
    (hr : IsRun r) (hs : Bare s) :
    replaceWord old new (r ++ s) = (if r = old then new else r) ++ replaceWord old new s := by
  by_cases heq : r = old
  · subst heq
    have hpattern := wordPattern_run hne hold none hr hs
    rw [if_pos ⟨rfl, rfl⟩] at hpattern
    rw [if_pos rfl, replaceWord_eq_from, replaceWordFrom_match new hpattern,
      replaceWordFrom_bare hold new _ hs]
    rfl
  · rw [if_neg heq, replaceWord_eq_from,
      replaceWordFrom_keep new fun u v huv _ => wordPattern_differs hne hold hr hs heq huv,
      replaceWordFrom_bare hold new _ hs]
    rfl

/-- **Replacing a word of identifier bytes is substituting the runs equal to it.** -/
theorem replaceWord_eq_substitute {old : Text} (hne : old ≠ []) (hold : IsRun old) (new s : Text) :
    replaceWord old new s = substitute (fun r => if r = old then new else r) s := by
  induction s using run_induction with
  | nil => rfl
  | other b s hb ih => rw [replaceWord_other hold new hb, substitute_other _ hb, ih]
  | run r s hrne hr hs ih =>
    rw [replaceWord_run hne hold new hr hs, substitute_run _ hrne hr hs, ih]

/-! ## Places where a word stands -/

theorem findAllFrom_eq_nil {α : Type} (p : Pattern α) (s : Text) :
    ∀ pos before, findAllFrom .byte p pos before 0 s = [] ↔
      ∀ u v, s = u ++ v → v ≠ [] → p (u.getLast?.or before) v = none := by
  induction s with
  | nil =>
    intro pos before
    refine ⟨fun _ u v h hv => ?_, fun _ => rfl⟩
    exact absurd (List.append_eq_nil_iff.mp h.symm).2 hv
  | cons b s ih =>
    intro pos before
    unfold findAllFrom
    cases hp : p before (b :: s) with
    | some x =>
      refine ⟨nofun, fun h => ?_⟩
      have hnone : p before (b :: s) = none := h [] (b :: s) rfl (List.cons_ne_nil _ _)
      rw [hp] at hnone
      cases hnone
    | none =>
      show findAllFrom .byte p (pos + 1) (some b) 0 s = [] ↔ _
      rw [ih]
      constructor
      · intro h u v huv hv
        cases u with
        | nil => cases huv; exact hp
        | cons c u =>
          cases huv
          rw [getLast?_cons_or]
          exact h u v rfl hv
      · intro h u v huv hv
        rw [← getLast?_cons_or b u before]
        exact h (b :: u) v (by rw [huv]; rfl) hv

/-- The word `w` of the text `s` that stands between `u` and `v`. -/
structure WordIn (w s u v : Text) : Prop where
  split : s = u ++ w ++ v
  before : u.getLast?.any Byte.isName = false
  behind : Bare v

/-- **A word occurs where it stands between bytes that belong to no identifier.** -/
theorem hasWord_iff {w s : Text} :
    hasWord w s = true ↔ w ≠ [] ∧ ∃ u v, WordIn w s u v := by
  have hnil : hasWord w s = true ↔ ¬ findAllFrom .byte (wordPattern w) 0 none 0 s = [] := by
    unfold hasWord find? findAll
    cases findAllFrom .byte (wordPattern w) 0 none 0 s <;> simp
  rw [hnil, findAllFrom_eq_nil]
  constructor
  · intro h
    push Not at h
    obtain ⟨u, v, rfl, _, hsome⟩ := h
    obtain ⟨hw, tail, rfl, hu, htail⟩ :=
      wordPattern_isSome.mp (Option.isSome_iff_ne_none.mpr hsome)
    exact ⟨hw, u, tail, by simp, by simpa using hu, htail⟩
  · rintro ⟨hw, u, v, rfl, hu, hv⟩ h
    have hnone := h u (w ++ v) (by simp) (by simp [hw])
    rw [Option.or_none] at hnone
    have hsome := wordPattern_isSome.mpr ⟨hw, v, rfl, hu, hv⟩
    rw [hnone] at hsome
    cases hsome

theorem replaceWord_of_not_hasWord {old s : Text} (new : Text) (h : hasWord old s = false) :
    replaceWord old new s = s := by
  have hnil : findAllFrom .byte (wordPattern old) 0 none 0 s = [] := by
    unfold hasWord find? findAll at h
    cases hf : findAllFrom .byte (wordPattern old) 0 none 0 s with
    | nil => rfl
    | cons x xs => rw [hf] at h; cases h
  have hnone := (findAllFrom_eq_nil (wordPattern old) s 0 none).mp hnil
  have hkept : replaceWordFrom old new none (s ++ []) = s ++ [] := by
    refine replaceWordFrom_keep new fun u v huv hv => ?_
    rw [List.append_nil]
    exact hnone u v huv hv
  rwa [List.append_nil] at hkept

/-- A word on one side of a byte that belongs to no name is one of the whole. -/
theorem hasWord_cut {b : UInt8} (hb : Byte.isName b = false) {w x s : Text}
    (h : hasWord w (x ++ b :: s) = false) : hasWord w x = false ∧ hasWord w s = false := by
  constructor
  · by_contra hword
    rw [Bool.not_eq_false, hasWord_iff] at hword
    obtain ⟨hne, u, v, rfl, hu, hv⟩ := hword
    have hbehind : Bare (v ++ b :: s) := bare_append hv (by simp [Bare, hb])
    rw [hasWord_iff.mpr ⟨hne, u, v ++ b :: s, by simp, hu, hbehind⟩] at h
    cases h
  · by_contra hword
    rw [Bool.not_eq_false, hasWord_iff] at hword
    obtain ⟨hne, u, v, rfl, hu, hv⟩ := hword
    have hbefore : (x ++ b :: u).getLast?.any Byte.isName = false := by
      cases hlast : u.getLast? with
      | none =>
        rw [List.getLast?_eq_none_iff] at hlast
        simp [hlast, hb]
      | some c =>
        rw [hlast] at hu
        simpa [List.getLast?_append, List.getLast?_cons, hlast] using hu
    rw [hasWord_iff.mpr ⟨hne, x ++ b :: u, v, by simp, hbefore, hv⟩] at h
    cases h

/-- Substitution looks at the words of a text only. -/
theorem substitute_congr_words {f g : Text → Text} {s : Text}
    (h : ∀ r, r ≠ [] → IsRun r → hasWord r s = true → f r = g r) :
    substitute f s = substitute g s := by
  induction s using run_induction with
  | nil => rfl
  | other b s hb ih =>
    rw [substitute_other f hb, substitute_other g hb, ih]
    intro r hne hr hword
    refine h r hne hr ?_
    by_contra hnot
    rw [(hasWord_cut (x := []) hb (by simpa using hnot)).2] at hword
    cases hword
  | run r s hne hr hs ih =>
    have hself : hasWord r (r ++ s) = true :=
      hasWord_iff.mpr ⟨hne, [], s, by simp, rfl, hs⟩
    rw [substitute_run f hne hr hs, substitute_run g hne hr hs, h r hne hr hself, ih]
    intro r' hne' hr' hword
    obtain ⟨_, u, v, rfl, hu, hv⟩ := hasWord_iff.mp hword
    refine h r' hne' hr' (hasWord_iff.mpr ⟨hne', r ++ u, v, by simp, ?_, hv⟩)
    -- the word does not stand right behind the run, since no name goes on there
    have hune : u ≠ [] := by
      rintro rfl
      exact not_bare_run hne' hr' (by simpa using hs)
    rw [List.getLast?_append, getLast?_or_of_ne_nil hune]
    exact hu

/-- A text keeps the words that are not renamed. -/
theorem substitute_of_words {f : Text → Text} {s : Text}
    (h : ∀ r, r ≠ [] → IsRun r → hasWord r s = true → f r = r) : substitute f s = s :=
  (substitute_congr_words h).trans (substitute_id s)

/-! ## Any word at all -/

/-- The second text arises from the first by putting `new` in place of occurrences of `old`. -/
inductive Spliced (old new : Text) : Text → Text → Prop
  | nil : Spliced old new [] []
  | keep (b : UInt8) {s o : Text} : Spliced old new s o → Spliced old new (b :: s) (b :: o)
  | put {s o : Text} : Spliced old new s o → Spliced old new (old ++ s) (new ++ o)

theorem replaceWordFrom_spliced (old new : Text) :
    ∀ (s : Text) (before : Option UInt8), Spliced old new s (replaceWordFrom old new before s)
  | [], _ => .nil
  | b :: s, before => by
    cases hx : wordPattern old before (b :: s) with
    | none =>
      rw [replaceWordFrom_cons new hx]
      exact .keep b (replaceWordFrom_spliced old new s (some b))
    | some x =>
      obtain ⟨hne, rfl, tail, heq, _⟩ := wordPattern_eq_some hx
      have hlen : tail.length < (b :: s).length := by
        have hpos := List.length_pos_iff.mpr hne
        rw [heq, List.length_append]
        omega
      rw [heq] at hx ⊢
      rw [replaceWordFrom_match new hx]
      exact .put (replaceWordFrom_spliced old new tail old.getLast?)
termination_by s => s.length
decreasing_by
  · exact Nat.lt_succ_self _
  · exact hlen

theorem replaceWord_spliced (old new s : Text) : Spliced old new s (replaceWord old new s) :=
  replaceWordFrom_spliced old new s none

namespace Spliced

variable {old new s o : Text}

theorem mem (h : Spliced old new s o) {b : UInt8} (hb : b ∈ o) : b ∈ s ∨ b ∈ new := by
  induction h with
  | nil => exact .inl hb
  | keep c _ ih =>
    rcases List.mem_cons.mp hb with rfl | hb
    · exact .inl List.mem_cons_self
    · rcases ih hb with hb | hb
      · exact .inl (List.mem_cons_of_mem _ hb)
      · exact .inr hb
  | put _ ih =>
    rcases List.mem_append.mp hb with hb | hb
    · exact .inr hb
    · rcases ih hb with hb | hb
      · exact .inl (List.mem_append_right _ hb)
      · exact .inr hb

/-- A start of the result into which no new text reaches is a start of the text. -/
theorem start (h : Spliced old new s o) {pre rest : Text} (ho : o = pre ++ rest)
    (hpre : ∀ c, c <:+ pre → c ≠ [] → ¬ new <+: c ∧ ¬ c <+: new) : ∃ s', s = pre ++ s' := by
  induction pre generalizing s o with
  | nil => exact ⟨s, rfl⟩
  | cons p pre ih =>
    cases h with
    | nil => cases ho
    | keep b h =>
      cases ho
      obtain ⟨s', rfl⟩ := ih h rfl fun c hc hne => hpre c (hc.trans (List.suffix_cons p pre)) hne
      exact ⟨s', rfl⟩
    | put h =>
      obtain ⟨hnew, hold⟩ := hpre (p :: pre) (List.suffix_refl _) (List.cons_ne_nil _ _)
      rcases List.append_eq_append_iff.mp ho with ⟨a, ha, _⟩ | ⟨a, ha, _⟩
      · exact absurd ⟨a, ha.symm⟩ hnew
      · exact absurd ⟨a, ha.symm⟩ hold

end Spliced

end ActionLog.Text
