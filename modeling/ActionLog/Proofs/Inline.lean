import ActionLog.Proofs.Declaration
import ActionLog.Proofs.Use

/-!
# Variables inlined line by line

* `LineInlined`, `InlinedLines` — what inlining makes of a line and of all lines;
  `inlinedLines_of_revise` says that this is what becomes of a text;
* `WordOrigin`, `LineInlined.origin` — a word of the new line stood in the old one or in the value;
* `InlinedLines.passed_out` — what is passed to the end of a line stays so;
* `inline_eq_ok`, `current?_eq_some` — what inlining one variable does, and which one is inlined.
-/

set_option autoImplicit false

namespace ActionLog.Pass

open Declaration (isDeclaration nameOf valueOf onLine? extract)
open Text (IsRun Bare)

/-! ## Lines of a text -/

/-- The text of the lines that follow a line. -/
def following (ls : List Text) : Text := ls.flatMap (Byte.newline :: ·)

theorem following_cons (l : Text) (ls : List Text) :
    following (l :: ls) = Byte.newline :: (l ++ following ls) := rfl

theorem following_append (ls ls' : List Text) :
    following (ls ++ ls') = following ls ++ following ls' := by
  simp [following]

theorem bare_following (ls : List Text) : Bare (following ls) := by
  cases ls <;> rfl

theorem unlines_cons (l : Text) (ls : List Text) : Text.unlines (l :: ls) = l ++ following ls := by
  induction ls generalizing l with
  | nil => simp [Text.unlines, following]
  | cons l' ls ih =>
    rw [following_cons, ← ih l', Text.unlines_cons_cons]

/-- A use on a line with the text `k` behind it. -/
def LineUse (m k : Text) (before : Option UInt8) (r : Text) : Prop :=
  before.any Byte.isName = false ∧ ∃ s, r = m ++ s ∧ passed (s ++ k) = true

/-- A line with every use of `m` replaced by `value`, the text `k` following it. -/
inductive LineInlined (m value k : Text) : Option UInt8 → Text → Text → Prop
  | nil {before : Option UInt8} : LineInlined m value k before [] []
  | keep {before : Option UInt8} {b : UInt8} {s o : Text} (h : ¬ LineUse m k before (b :: s))
      (rest : LineInlined m value k (some b) s o) : LineInlined m value k before (b :: s) (b :: o)
  | put {before : Option UInt8} {s o : Text} (h : LineUse m k before (m ++ s))
      (rest : LineInlined m value k m.getLast? s o) :
      LineInlined m value k before (m ++ s) (value ++ o)

/-- Lines with every use of `m` replaced by `value`, but for the declarations of `m`. -/
inductive InlinedLines (m value : Text) : List Text → List Text → Prop
  | nil : InlinedLines m value [] []
  | own {l : Text} {ls os : List Text} (h : declares m l = true)
      (rest : InlinedLines m value ls os) : InlinedLines m value (l :: ls) (l :: os)
  | other {l o : Text} {ls os : List Text} (h : declares m l = false)
      (line : LineInlined m value (following ls) none l o) (rest : InlinedLines m value ls os) :
      InlinedLines m value (l :: ls) (o :: os)

theorem takeWhile_line {q : Text} (hq : Byte.newline ∉ q) (ls : List Text) :
    (q ++ following ls).takeWhile (· != Byte.newline) = q := by
  have hpos : ∀ b ∈ q, (b != Byte.newline) = true := by
    intro b hb
    rw [bne_iff_ne]
    rintro rfl
    exact hq hb
  rw [List.takeWhile_append_of_pos hpos]
  cases ls with
  | nil => simp [following]
  | cons l ls => simp [following_cons]

/-- A name does not go on to the next line. -/
theorem name_on_line {m s q : Text} (hm : IsRun m) {ls : List Text}
    (h : m ++ s = q ++ following ls) : ∃ q', q = m ++ q' ∧ s = q' ++ following ls := by
  rcases List.append_eq_append_iff.mp h with ⟨c, hq, hs⟩ | ⟨c, hc, hs⟩
  · exact ⟨c, hq, hs⟩
  · cases c with
    | nil =>
      rw [List.append_nil] at hc
      exact ⟨[], by rw [hc, List.append_nil], hs.symm⟩
    | cons b c =>
      exfalso
      cases ls with
      | nil => cases hs
      | cons l ls =>
        obtain ⟨rfl, _⟩ := List.cons.inj hs
        exact newline_not_mem_of_isRun hm (by rw [hc]; simp)

/-- The rest of a line, and the lines behind it, when every use is replaced. -/
theorem Inlined.split_line {m value p t o : Text} (h : Inlined m value p t o) (hne : m ≠ [])
    (hm : IsRun m) {q : Text} {ls : List Text} (ht : t = q ++ following ls) (hq : Byte.newline ∉ q)
    (hls : ∀ l ∈ ls, Byte.newline ∉ l) :
    ∃ q' os, o = q' ++ following os ∧ (declares m (p ++ q) = true → q' = q) ∧
      (declares m (p ++ q) = false → LineInlined m value (following ls) p.getLast? q q') ∧
      InlinedLines m value ls os := by
  induction h generalizing q ls with
  | nil =>
    obtain ⟨rfl, hfollowing⟩ := List.append_eq_nil_iff.mp ht.symm
    cases ls with
    | nil => exact ⟨[], [], rfl, fun _ => rfl, fun _ => .nil, .nil⟩
    | cons l ls => cases hfollowing
  | @keep p b s o huse _ ih =>
    cases q with
    | nil =>
      cases ls with
      | nil => cases ht
      | cons l ls =>
        rw [List.forall_mem_cons] at hls
        cases ht
        obtain ⟨l', os, rfl, hown, hother, hlines⟩ := ih rfl hls.1 hls.2
        have hfirst : extendLine p Byte.newline = [] := rfl
        rw [hfirst, List.nil_append] at hown hother
        refine ⟨[], l' :: os, rfl, fun _ => rfl, fun _ => .nil, ?_⟩
        cases hl : declares m l with
        | true =>
          rw [hown hl]
          exact .own hl hlines
        | false => exact .other hl (hother hl) hlines
    | cons c q =>
      obtain ⟨rfl, hs⟩ : b = c ∧ s = q ++ following ls := List.cons.inj ht
      have hb : b ≠ Byte.newline := fun heq => hq (heq ▸ List.mem_cons_self)
      have hfirst : extendLine p b = p ++ [b] := if_neg hb
      obtain ⟨q', os, rfl, hown, hother, hlines⟩ :=
        ih hs (fun hmem => hq (List.mem_cons_of_mem _ hmem)) hls
      rw [hfirst, List.append_assoc] at hown hother
      refine ⟨b :: q', os, rfl, fun hd => by rw [hown hd], fun hd => ?_, hlines⟩
      have hrest := hother hd
      rw [List.getLast?_concat] at hrest
      refine .keep (fun hline => huse ⟨hline.1, ?_, ?_⟩) hrest
      · obtain ⟨s', heq, hpassed⟩ := hline.2
        refine ⟨s' ++ following ls, ?_, hpassed⟩
        rw [hs, ← List.append_assoc, ← heq]
        rfl
      · rw [hs, ← List.cons_append, takeWhile_line hq]
        exact hd
  | @put p s o huse _ ih =>
    obtain ⟨q, rfl, hs⟩ := name_on_line hm ht
    obtain ⟨q', os, rfl, hown, hother, hlines⟩ :=
      ih hs (fun hmem => hq (List.mem_append_right _ hmem)) hls
    rw [List.append_assoc] at hown hother
    have hforeign := huse.foreign
    rw [hs, ← List.append_assoc, takeWhile_line hq] at hforeign
    refine ⟨value ++ q', os, (List.append_assoc _ _ _).symm, fun hd => ?_, fun hd => ?_, hlines⟩
    · rw [hforeign] at hd
      cases hd
    · have hrest := hother hd
      rw [List.getLast?_append, Text.getLast?_or_of_ne_nil hne] at hrest
      refine .put ⟨huse.start, q, rfl, ?_⟩ hrest
      obtain ⟨s', heq, hpassed⟩ := huse.next
      rw [← hs, List.append_cancel_left heq]
      exact hpassed

namespace LineInlined

variable {m value k l o : Text} {before : Option UInt8}

theorem newline_not_mem (h : LineInlined m value k before l o) (hvalue : Byte.newline ∉ value)
    (hl : Byte.newline ∉ l) : Byte.newline ∉ o := by
  induction h with
  | nil => exact hl
  | keep _ _ ih =>
    rw [List.mem_cons, not_or] at hl ⊢
    exact ⟨hl.1, ih hl.2⟩
  | put _ _ ih =>
    rw [List.mem_append, not_or] at hl ⊢
    exact ⟨hvalue, ih hl.2⟩

/-- A name that goes on is kept. -/
theorem run_kept {r o' : Text} (h : LineInlined m value k before l (r ++ o'))
    (hbefore : before.any Byte.isName = true) (hr : IsRun r) :
    ∃ l', l = r ++ l' ∧ LineInlined m value k (r.getLast?.or before) l' o' := by
  induction r generalizing before l with
  | nil => exact ⟨l, rfl, h⟩
  | cons b r ih =>
    generalize ho : b :: r ++ o' = o at h
    cases h with
    | nil => cases ho
    | keep _ rest =>
      cases ho
      obtain ⟨l', rfl, h'⟩ :=
        ih rest (hr b List.mem_cons_self) fun x hx => hr x (List.mem_cons_of_mem _ hx)
      refine ⟨l', rfl, ?_⟩
      rw [Text.getLast?_cons_or]
      exact h'
    | put huse _ =>
      rw [huse.1] at hbefore
      cases hbefore

/-- Where a name goes on, nothing is put in. -/
theorem bare_of_bare (h : LineInlined m value k before l o)
    (hbefore : before.any Byte.isName = true) (ho : Bare o) : Bare l := by
  cases h with
  | nil => rfl
  | keep _ _ => exact ho
  | put huse _ =>
    rw [huse.1] at hbefore
    cases hbefore

theorem bare_out (h : LineInlined m value k before l o) (hne : m ≠ []) (hm : IsRun m)
    (hl : Bare l) : Bare o := by
  cases h with
  | nil => rfl
  | keep _ _ => exact hl
  | put _ _ =>
    obtain ⟨b, m', rfl⟩ := List.exists_cons_of_ne_nil hne
    have hb : Byte.isName b = false := hl
    rw [hm b List.mem_cons_self] at hb
    cases hb

end LineInlined

/-- Where the word `n` between `u` and `v` of a new line comes from: it stood in the old line, and is
no use there, or it stands in the value that was put in. -/
inductive WordOrigin (m value k : Text) (before : Option UInt8) (l n u v : Text) : Prop
  | kept {u' v' : Text} (split : l = u' ++ n ++ v')
      (start : (u'.getLast?.or before).any Byte.isName = false) (behind : Bare v')
      (idle : m = n → passed (v' ++ k) = false)
      (front : LineInlined m value (n ++ v' ++ k) before u' u)
      (back : LineInlined m value k n.getLast? v' v)
  | put {p p' s a b w : Text} (split : l = p' ++ m ++ s)
      (start : (p'.getLast?.or before).any Byte.isName = false) (next : passed (s ++ k) = true)
      (front : LineInlined m value (m ++ s ++ k) before p' p) (front_eq : u = p ++ a)
      (word : Text.WordIn n value a b) (back_eq : v = b ++ w)

/-- A use stays one when the text behind it is cut off the line. -/
theorem LineUse.append {m k t r : Text} {before : Option UInt8}
    (h : LineUse m (t ++ k) before r) : LineUse m k before (r ++ t) := by
  obtain ⟨hbefore, s, rfl, hpassed⟩ := h
  refine ⟨hbefore, s ++ t, List.append_assoc _ _ _, ?_⟩
  rw [List.append_assoc]
  exact hpassed

theorem LineUse.next {m k s : Text} {before : Option UInt8} (h : LineUse m k before (m ++ s)) :
    passed (s ++ k) = true := by
  obtain ⟨_, s', heq, hpassed⟩ := h
  rw [List.append_cancel_left heq]
  exact hpassed

/-- One more byte is kept in front. -/
theorem WordOrigin.keep {m value k l n u v : Text} {before : Option UInt8} {b : UInt8}
    (huse : ¬ LineUse m k before (b :: l)) (h : WordOrigin m value k (some b) l n u v) :
    WordOrigin m value k before (b :: l) n (b :: u) v := by
  cases h with
  | @kept u' v' split start behind idle front back =>
    have hsplit : b :: l = (b :: u') ++ n ++ v' := by rw [split]; rfl
    refine .kept hsplit ?_ behind idle (.keep ?_ front) back
    · rw [Text.getLast?_cons_or]
      exact start
    · intro hfront
      exact huse (by simpa [split] using hfront.append)
  | @put p p' s a b' w split start next front front_eq word back_eq =>
    have hsplit : b :: l = (b :: p') ++ m ++ s := by rw [split]; rfl
    refine .put hsplit ?_ next (.keep ?_ front) (by rw [front_eq]; rfl) word back_eq
    · rw [Text.getLast?_cons_or]
      exact start
    · intro hfront
      exact huse (by simpa [split] using hfront.append)

/-- One more use is replaced in front. -/
theorem WordOrigin.append {m value k l n u v : Text} {before : Option UInt8} (hne : m ≠ [])
    (huse : LineUse m k before (m ++ l)) (h : WordOrigin m value k m.getLast? l n u v) :
    WordOrigin m value k before (m ++ l) n (value ++ u) v := by
  have hnext := huse.next
  cases h with
  | @kept u' v' split start behind idle front back =>
    have hsplit : m ++ l = (m ++ u') ++ n ++ v' := by simp [split]
    refine .kept hsplit ?_ behind idle
      (.put ⟨huse.1, u', rfl, by simpa [split] using hnext⟩ front) back
    rw [Text.getLast?_append_or hne]
    exact start
  | @put p p' s a b w split start next front front_eq word back_eq =>
    have hsplit : m ++ l = (m ++ p') ++ m ++ s := by simp [split]
    refine .put hsplit ?_ next (.put ⟨huse.1, p', rfl, by simpa [split] using hnext⟩ front)
      (by simp [front_eq]) word back_eq
    rw [Text.getLast?_append_or hne]
    exact start

/-- **A word of the new line stood in the old one, and is no use there, or it stands in the
value.**  What was put in is surrounded by bytes of no name, so that no word goes across its
borders. -/
theorem LineInlined.origin {m value k l o n u v : Text} {before : Option UInt8}
    (h : LineInlined m value k before l o) (hne : m ≠ []) (hm : IsRun m) (hnne : n ≠ [])
    (hn : IsRun n) (ho : o = u ++ n ++ v) (hu : (u.getLast?.or before).any Byte.isName = false)
    (hv : Bare v) : WordOrigin m value k before l n u v := by
  induction h generalizing u with
  | nil => simp [hnne] at ho
  | @keep before b s o huse rest ih =>
    cases u with
    | nil =>
      obtain ⟨c, n', rfl⟩ := List.exists_cons_of_ne_nil hnne
      obtain ⟨rfl, rfl⟩ : b = c ∧ o = n' ++ v := List.cons.inj ho
      have hb : Byte.isName b = true := hn b List.mem_cons_self
      obtain ⟨v', rfl, h'⟩ := rest.run_kept hb fun x hx => hn x (List.mem_cons_of_mem _ hx)
      rw [← Text.getLast?_cons_or b n' none, Option.or_none] at h'
      have hlast : (b :: n').getLast?.any Byte.isName = true := Text.run_last hnne hn
      have hsplit : b :: (n' ++ v') = [] ++ (b :: n') ++ v' := rfl
      refine .kept hsplit hu (h'.bare_of_bare hlast hv) (fun hmn => ?_) .nil h'
      by_contra hpassed
      exact huse ⟨hu, v', by rw [hmn]; rfl, by simpa using hpassed⟩
    | cons c u =>
      obtain ⟨rfl, rfl⟩ : b = c ∧ o = u ++ n ++ v := List.cons.inj ho
      rw [Text.getLast?_cons_or] at hu
      exact (ih rfl hu).keep huse
  | @put before s o huse rest ih =>
    have hso : Bare o := rest.bare_out hne hm (Text.bare_left (bare_of_passed huse.next))
    rcases Text.word_border hnne hn hso ho with ⟨c, hcne, rfl, hc⟩ | ⟨e, hvalue, he⟩
    · rw [List.getLast?_append, List.getLast?_eq_some_getLast hcne] at hu
      exact (ih hc (by rw [List.getLast?_eq_some_getLast hcne]; exact hu)).append hne huse
    · have hsplit : m ++ s = [] ++ m ++ s := rfl
      refine .put hsplit huse.1 huse.next .nil rfl ⟨hvalue, ?_, ?_⟩ he
      · cases hlast : u.getLast? with
        | none => rfl
        | some x =>
          rw [hlast] at hu
          exact hu
      · rw [he] at hv
        exact Text.bare_left hv

/-- A line on which no use stands is kept. -/
theorem LineInlined.eq_self {m value k l o : Text} {before : Option UInt8}
    (h : LineInlined m value k before l o)
    (hno : ∀ u v, l = u ++ m ++ v → (u.getLast?.or before).any Byte.isName = false →
      passed (v ++ k) = false) : o = l := by
  induction h with
  | nil => rfl
  | @keep before b s o _ _ ih =>
    rw [ih fun u v hs hu => hno (b :: u) v (by rw [hs]; rfl) (by rwa [Text.getLast?_cons_or])]
  | @put before s o huse _ _ =>
    obtain ⟨s', heq, hpassed⟩ := huse.2
    rw [hno [] s' heq huse.1] at hpassed
    cases hpassed

theorem InlinedLines.newline_not_mem {m value : Text} {ls os : List Text}
    (h : InlinedLines m value ls os) (hvalue : Byte.newline ∉ value)
    (hls : ∀ l ∈ ls, Byte.newline ∉ l) : ∀ o ∈ os, Byte.newline ∉ o := by
  induction h with
  | nil => exact hls
  | own _ _ ih =>
    rw [List.forall_mem_cons] at hls ⊢
    exact ⟨hls.1, ih hls.2⟩
  | other _ line _ ih =>
    rw [List.forall_mem_cons] at hls ⊢
    exact ⟨line.newline_not_mem hvalue hls.1, ih hls.2⟩

/-- What comes next stays so when uses are replaced. -/
theorem LineInlined.passed_out {m value k k' l o : Text} {before : Option UInt8}
    (h : LineInlined m value k before l o) (hne : m ≠ []) (hm : IsRun m)
    (hk : passed k = true → passed k' = true) (hl : passed (l ++ k) = true) :
    passed (o ++ k') = true := by
  induction h with
  | nil => exact hk hl
  | @keep before b s o _ _ ih =>
    rw [List.cons_append] at hl ⊢
    by_cases hb : Byte.isGap b = true
    · rw [passed_gap hb] at hl ⊢
      exact ih hl
    · rw [Bool.not_eq_true] at hb
      rw [passed_other hb] at hl ⊢
      exact hl
  | put _ _ _ =>
    rw [List.append_assoc] at hl
    exact absurd (bare_of_passed hl) (Text.not_bare_run hne hm)

theorem InlinedLines.passed_out {m value : Text} {ls os : List Text}
    (h : InlinedLines m value ls os) (hne : m ≠ []) (hm : IsRun m)
    (hl : passed (following ls) = true) : passed (following os) = true := by
  induction h with
  | nil => exact hl
  | own _ _ ih =>
    rw [following_cons, passed_gap rfl] at hl ⊢
    exact passed_append ih hl
  | other _ line _ ih =>
    rw [following_cons, passed_gap rfl] at hl ⊢
    exact line.passed_out hne hm ih hl

/-! ## Inlining one variable -/

/-- **The lines of a text revised by the edits of a variable.** -/
theorem inlinedLines_of_revise {d : Declaration} (hne : d.name ≠ []) (hrun : IsRun d.name)
    (hvalue : Byte.newline ∉ d.value) {s out : Text}
    (h : revise s (inlineEdits d s) = .ok out) :
    InlinedLines d.name d.value (Text.lines s) (Text.lines out) := by
  have hnew : ∀ l ∈ Text.lines s, Byte.newline ∉ l := fun l hl => Text.newline_not_mem hl
  obtain ⟨l, ls, hlines⟩ := List.exists_cons_of_ne_nil (Text.lines_ne_nil s)
  have hs : s = l ++ following ls := by
    rw [← unlines_cons, ← hlines, Text.unlines_lines]
  rw [hlines] at hnew ⊢
  rw [List.forall_mem_cons] at hnew
  obtain ⟨l', os, rfl, hown, hother, hrest⟩ :=
    (inlined_of_revise hne hrun h).split_line hne hrun hs hnew.1 hnew.2
  have hall : InlinedLines d.name d.value (l :: ls) (l' :: os) := by
    cases hd : declares d.name l with
    | true =>
      rw [hown hd]
      exact .own hd hrest
    | false => exact .other hd (hother hd) hrest
  have hnew' := hall.newline_not_mem hvalue (List.forall_mem_cons.mpr hnew)
  rw [← unlines_cons, Text.lines_unlines hnew' (List.cons_ne_nil _ _)]
  exact hall

/-- What inlining a variable does: nothing, if there is no edit; else every use is replaced and
the lines of the declaration are dropped. -/
theorem inline_eq_ok {d : Declaration} {s out : Text} (h : inline d s = .ok out) :
    out = s ∨ ∃ revised, revise s (inlineEdits d s) = .ok revised ∧
      out = Text.trimNewlines (Text.unlines ((Text.lines revised).filter (· != d.line))) := by
  unfold inline at h
  split at h
  · cases h
  · split at h
    · cases h
      exact .inl rfl
    · rename_i edits hedits
      unfold reviseOrAbort at h
      cases hr : revise s (inlineEdits d s) with
      | error e =>
        rw [hr] at h
        cases h
      | ok revised =>
        rw [hr] at h
        cases h
        exact .inr ⟨revised, rfl, rfl⟩

/-- The first declaration of a name stands on a line of the text. -/
theorem current?_eq_some {m s : Text} {d : Declaration} (h : current? m s = some d) :
    d.line ∈ Text.lines s ∧ declares m d.line = true ∧ d.name = m ∧ d.value = valueOf d.line ∧
      Byte.equals ∈ d.line := by
  unfold current? at h
  obtain ⟨line, hfind, hparse⟩ := Option.bind_eq_some_iff.mp h
  obtain ⟨hequals, rfl, _, _⟩ := Declaration.parse?_eq_some hparse
  have hname := List.find?_some hfind
  obtain ⟨hline, hdecl⟩ := List.mem_filter.mp (List.mem_of_find?_eq_some hfind)
  have hm : nameOf line = m := by simpa using hname
  refine ⟨hline, ?_, hm, rfl, hequals⟩
  simp [declares, hdecl, hm]

end ActionLog.Pass
