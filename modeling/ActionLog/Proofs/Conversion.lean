import ActionLog.Proofs.CodeCall

/-!
# Calls on codes, converted

* `CodeCall.answer` — the identifier that a call is converted to, if there is one;
* `Converted` — a text with every call that has an answer replaced, and all else kept;
  `converted_splice` says that the edits make such a text, and `Converted.unique` that there is one
  only;
* `Converted.not_convertible` — what is put in makes no new call with its surroundings.

Principal result: `convertCodes_exact` — the calls with an answer are converted, nothing else is
changed, and nothing is left to convert.
-/

set_option autoImplicit false

namespace ActionLog

/-- An identifier that is found stands in the table. -/
theorem Codebook.mem_of_resolve {t : CodeTable} {ambiguous : List Text} {code id : Text}
    (h : (Codebook.ofTable t ambiguous).resolve code = some id) : (code, id) ∈ t := by
  have hfound := (Option.filter_eq_some_iff.mp (Option.ite_none_left_eq_some.mp h).2).1
  dsimp only [ofTable, CodeTable.lookup] at hfound
  split at hfound
  · rename_i id' hlookup
    cases hfound
    obtain ⟨l₁, l₂, heq, _⟩ := List.lookup_eq_some_iff.mp hlookup
    rw [heq]
    simp
  · cases hfound

namespace Pass

open Text
open Resolver (Answers after answersTo)

/-- The identifier that a call is converted to: its quotes are alike, and its code is not ambiguous
and has an identifier. -/
def CodeCall.answer (ambiguous : Text → Bool) (ids : Text → Option Text) (c : CodeCall) :
    Option Text :=
  if c.openQuote != c.closeQuote || ambiguous c.code then none else ids c.code

/-- A call with an answer starts at this place of a text. -/
def Convertible (answer : CodeCall → Option Text) (before : Option UInt8) (s : Text) : Prop :=
  before.any Byte.isWord = false ∧
    ∃ c : CodeCall, c.WellFormed ∧ (∃ t, s = c.text ++ t) ∧ (answer c).isSome = true

/-- The second text is the first one with every convertible call replaced by the call on its
identifier, and every other byte kept. -/
inductive Converted (answer : CodeCall → Option Text) : Option UInt8 → Text → Text → Prop
  | nil {before : Option UInt8} : Converted answer before [] []
  | call {before : Option UInt8} {c : CodeCall} {id s out : Text}
      (hbefore : before.any Byte.isWord = false) (hc : c.WellFormed) (hanswer : answer c = some id)
      (rest : Converted answer (some Byte.closeParen) s out) :
      Converted answer before (c.text ++ s) (c.onIdentifier id ++ out)
  | keep {before : Option UInt8} {b : UInt8} {s out : Text}
      (hother : ¬ Convertible answer before (b :: s)) (rest : Converted answer (some b) s out) :
      Converted answer before (b :: s) (b :: out)

section Splice

variable {answer : CodeCall → Option Text} {before : Option UInt8}

theorem convertible_text {c : CodeCall} (hc : c.WellFormed) {t : Text} :
    Convertible answer before (c.text ++ t) ↔
      before.any Byte.isWord = false ∧ (answer c).isSome = true := by
  constructor
  · rintro ⟨hbefore, c', hc', ⟨t', ht'⟩, hanswer⟩
    have hfound := codeCall_text hbefore hc t
    rw [ht', codeCall_text hbefore hc' t'] at hfound
    obtain rfl : c' = c := (Prod.mk.inj (Option.some.inj hfound)).2
    exact ⟨hbefore, hanswer⟩
  · rintro ⟨hbefore, hanswer⟩
    exact ⟨hbefore, c, hc, ⟨t, rfl⟩, hanswer⟩

theorem not_convertible_of_none {s : Text} (h : codeCall before s = none) :
    ¬ Convertible answer before s := by
  rintro ⟨hbefore, c, hc, ⟨t, rfl⟩, _⟩
  rw [codeCall_text hbefore hc t] at h
  cases h

/-- A call starts with the name of its function. -/
theorem text_eq (c : CodeCall) : ∃ r, c.text = codeFunction ++ r :=
  ⟨_, by simp only [CodeCall.text, CodeCall.wrap, List.append_assoc]; rfl⟩

theorem not_convertible_of_head {s : Text} (h : s.head?.any Byte.isWord = false) :
    ¬ Convertible answer before s := by
  rintro ⟨_, c, _, ⟨t, rfl⟩, _⟩
  obtain ⟨r, hr⟩ := text_eq c
  rw [hr] at h
  cases h

/-- No call starts inside of another one. -/
theorem not_convertible_inside {c : CodeCall} (hc : c.WellFormed) {y z : Text} (hyz : c.text = y ++ z)
    (hy : y ≠ []) (hz : z ≠ []) (t : Text) : ¬ Convertible answer y.getLast? (z ++ t) := by
  rintro ⟨hlast, d, _, ⟨t', ht'⟩, _⟩
  obtain ⟨r, hr⟩ := text_eq d
  have hword : c.wrap codeFunction c.code ++ t = y ++ (codeFunction ++ (r ++ t')) := by
    show c.text ++ t = _
    rw [hyz, List.append_assoc, ht', hr, List.append_assoc]
  rcases hc.word_inside codeFunction_isWord (by decide) codeFunction_isWord hy hlast hword with
    hcode | ⟨y', hy', _⟩
  · exact hc.not_infix_code codeFunction_isWord (by decide) hcode
  · apply hz
    have hlen := congrArg List.length (hyz.trans (congrArg (· ++ z) hy'))
    show z = []
    rw [← List.length_eq_zero_iff]
    simp only [List.length_append, CodeCall.text] at hlen
    omega

theorem Converted.keeps {x s out : Text} (hother : ∀ y z, x = y ++ z → z ≠ [] →
      ¬ Convertible answer (y.getLast?.or before) (z ++ s))
    (rest : Converted answer (x.getLast?.or before) s out) :
    Converted answer before (x ++ s) (x ++ out) := by
  induction x generalizing before with
  | nil => exact rest
  | cons b x ih =>
    rw [getLast?_cons_or] at rest
    refine .keep (hother [] (b :: x) rfl (List.cons_ne_nil b x)) (ih ?_ rest)
    intro y z hyz hz
    rw [← getLast?_cons_or]
    exact hother (b :: y) z (by rw [hyz]; rfl) hz

/-- A character at which no call starts is kept: none starts inside of it. -/
theorem Converted.keeps_character {b : UInt8} {x s out : Text} (htail : ∀ c ∈ x, 128 ≤ c.toNat)
    (hother : ¬ Convertible answer before (b :: (x ++ s)))
    (rest : Converted answer ((b :: x).getLast?.or before) s out) :
    Converted answer before (b :: x ++ s) (b :: x ++ out) := by
  refine .keeps (fun y z hyz hz => ?_) rest
  rcases List.cons_eq_append_iff.mp hyz with ⟨rfl, rfl⟩ | ⟨y', rfl, hx⟩
  · exact hother
  · apply not_convertible_of_head
    obtain ⟨c, z, rfl⟩ := List.exists_cons_of_ne_nil hz
    exact isWord_of_not_isName (isName_of_high (htail c (by simp [hx])))

/-- A call without an answer is kept: none starts inside of it. -/
theorem Converted.keeps_text {c : CodeCall} {s out : Text} (hc : c.WellFormed)
    (hanswer : answer c = none) (rest : Converted answer (c.text.getLast?.or before) s out) :
    Converted answer before (c.text ++ s) (c.text ++ out) := by
  refine .keeps (fun y z hyz hz => ?_) rest
  by_cases hy : y = []
  · subst hy
    rw [List.nil_append] at hyz
    rw [← hyz, convertible_text hc, hanswer]
    simp
  · rw [getLast?_or_of_ne_nil hy]
    exact not_convertible_inside hc hyz hy hz s

end Splice

/-! ## The edits -/

section Edits

variable {ambiguous : Text → Bool} {ids : Text → Option Text}

theorem conversion?_eq (hit : Hit CodeCall) : conversion? ambiguous ids hit =
    (hit.value.answer ambiguous ids).map
      fun id => ⟨hit.start, hit.stop, hit.value.onIdentifier id⟩ := by
  unfold conversion? CodeCall.answer asks
  cases hit.value.openQuote != hit.value.closeQuote || ambiguous hit.value.code <;> rfl

/-- The edits for the rest of a text, behind its first part `u`. -/
def conversionsFrom (ambiguous : Text → Bool) (ids : Text → Option Text) (u s : Text) : List Edit :=
  (findAllFrom .char codeCall u.length u.getLast? 0 s).filterMap (conversion? ambiguous ids)

theorem conversionsFrom_start {u s : Text} :
    ∀ e ∈ conversionsFrom ambiguous ids u s, u.length ≤ e.start := by
  intro e he
  obtain ⟨hit, hhit, hedit⟩ := List.mem_filterMap.mp he
  rw [conversion?_eq] at hedit
  obtain ⟨id, _, rfl⟩ := Option.map_eq_some_iff.mp hedit
  exact findAllFrom_start .char codeCall s hit hhit

theorem findAllFrom_behind (u x t : Text) (b : UInt8) :
    findAllFrom .char codeCall (u.length + 1) (some b) x.length (x ++ t) =
      findAllFrom .char codeCall (u ++ b :: x).length (u ++ b :: x).getLast? 0 t := by
  rw [List.length_append, List.getLast?_append]
  exact findAllFrom_rest .char codeCall u.length u.getLast? b x t

theorem conversionsFrom_none {u x t : Text} {b : UInt8}
    (hfind : codeCall u.getLast? (b :: (x ++ t)) = none)
    (hwidth : Utf8.width (b :: (x ++ t)) = (b :: x).length) :
    conversionsFrom ambiguous ids u (b :: (x ++ t)) =
      conversionsFrom ambiguous ids (u ++ b :: x) t := by
  unfold conversionsFrom
  rw [findAllFrom, hfind]
  simp only [Grain.width, hwidth, List.length_cons, Nat.add_sub_cancel]
  rw [findAllFrom_behind]

theorem conversionsFrom_text {u t : Text} {c : CodeCall} (hc : c.WellFormed)
    (hlast : u.getLast?.any Byte.isWord = false) :
    conversionsFrom ambiguous ids u (c.text ++ t) =
      ((c.answer ambiguous ids).map fun id =>
        (⟨u.length, (u ++ c.text).length, c.onIdentifier id⟩ : Edit)).toList ++
      conversionsFrom ambiguous ids (u ++ c.text) t := by
  have hfind := codeCall_text hlast hc t
  obtain ⟨b, x, hx⟩ : ∃ b x, c.text = b :: x := by
    obtain ⟨r, hr⟩ := text_eq c
    exact ⟨_, _, hr⟩
  unfold conversionsFrom
  rw [hx, List.cons_append] at hfind ⊢
  rw [findAllFrom, hfind]
  simp only [List.length_cons, Nat.add_sub_cancel]
  rw [findAllFrom_behind, List.filterMap_cons, conversion?_eq, List.length_append, List.length_cons]
  cases c.answer ambiguous ids <;> rfl

/-- **The edits convert every convertible call and nothing else.**  Places that the search does not
try stand inside of a call or of a character. -/
theorem converted_splice (u s : Text) :
    Converted (CodeCall.answer ambiguous ids) u.getLast? s
      (Draft.splice (u ++ s) u.length (conversionsFrom ambiguous ids u s)) := by
  by_cases hs : s = []
  · subst hs
    rw [show conversionsFrom ambiguous ids u [] = [] from rfl, Draft.splice, List.append_nil,
      List.drop_length]
    exact .nil
  · cases hfind : codeCall u.getLast? s with
    | none =>
      -- the character at this place is kept, and no call starts inside of it
      obtain ⟨b, x, t, heq, hwidth, htail⟩ := exists_first hs
      have hlt : t.length < s.length := by
        rw [heq, List.length_cons, List.length_append]
        omega
      have hrest := converted_splice (u ++ b :: x) t
      rw [List.getLast?_append] at hrest
      rw [heq] at hfind ⊢
      rw [conversionsFrom_none hfind hwidth, ← List.cons_append, ← List.append_assoc,
        Draft.splice_append conversionsFrom_start]
      exact .keeps_character htail (not_convertible_of_none hfind) hrest
    | some y =>
      obtain ⟨n, c⟩ := y
      obtain ⟨hlast, hc, _, t, heq⟩ := of_codeCall hfind
      have hlt : t.length < s.length := by
        obtain ⟨r, hr⟩ := text_eq c
        rw [heq, hr, List.length_append, List.length_append, show codeFunction.length = 14 from rfl]
        omega
      have hrest := converted_splice (u ++ c.text) t
      rw [heq, conversionsFrom_text hc hlast, ← List.append_assoc]
      cases hanswer : c.answer ambiguous ids with
      | none =>
        rw [Option.map_none, Option.toList_none, List.nil_append,
          Draft.splice_append conversionsFrom_start]
        rw [List.getLast?_append] at hrest
        exact .keeps_text hc hanswer hrest
      | some id =>
        show Converted _ _ _ (Draft.splice _ _ (_ :: _))
        rw [List.append_assoc, Draft.splice_edit, ← List.append_assoc]
        rw [List.getLast?_append, CodeCall.text, hc.getLast?_wrap] at hrest
        exact .call hlast hc hanswer hrest
termination_by s.length
decreasing_by
  · exact hlt
  · exact hlt

/-- The text with its calls converted to the identifiers that codes have. -/
def convertBy (ambiguous : Text → Bool) (ids : Text → Option Text) (s : Text) : Text :=
  Draft.splice s 0 (conversionsFrom ambiguous ids [] s)

theorem convertBy_converted (s : Text) :
    Converted (CodeCall.answer ambiguous ids) none s (convertBy ambiguous ids s) :=
  converted_splice [] s

theorem codeCall_fits {before : Option UInt8} {s : Text} {n : Nat} {c : CodeCall}
    (h : codeCall before s = some (n, c)) : n ≤ s.length := by
  obtain ⟨_, _, rfl, t, rfl⟩ := of_codeCall h
  simp

/-- Calls are converted in their places, whatever the resolver answers. -/
theorem madeAt_convertEdits {ρ : Type} [Resolver ρ] (ambiguous : Text → Bool)
    {hits : List (Hit CodeCall)} (hhits : ∀ hit ∈ hits, hit.start ≤ hit.stop) (r : ρ) :
    MadeAt hits (convertEdits ambiguous hits r).1 := by
  induction hits generalizing r with
  | nil => exact .nil
  | cons hit hits ih =>
    rw [List.forall_mem_cons] at hhits
    unfold convertEdits
    dsimp only
    split
    · exact .skip (ih hhits.2 r)
    · cases (Resolver.resolve r hit.value.code).1 with
      | none => exact .skip (ih hhits.2 _)
      | some id => exact .edit rfl hhits.1 (Nat.le_refl _) (ih hhits.2 _)

theorem makeable_convertEdits {ρ : Type} [Resolver ρ] (ambiguous : Text → Bool) (r : ρ) (s : Text) :
    Makeable s (convertEdits ambiguous (findAll .char codeCall s) r).1 := by
  have hhits : ∀ hit ∈ findAll .char codeCall s, hit.start ≤ hit.stop := fun hit hhit =>
    (findAllFrom_within .char codeCall_fits s hit hhit).1
  exact (madeAt_convertEdits ambiguous hhits r).makeable codeCall_fits

/-- **What any resolver makes of a text.**  It is asked for the codes of the calls in order, except
for those that are left alone, and whatever it answers each time, also if it answers the same code in
two ways or with nothing, stands in the place of the code that was asked for. -/
theorem convertCodes_run {ρ : Type} [Resolver ρ] (ambiguous : Text → Bool) (r : ρ) (s : Text) :
    convertCodes ambiguous r s =
      .ok (Draft.splice s 0 (onAnswers ambiguous (findAll .char codeCall s)
          (answersTo r (askedCodes ambiguous (findAll .char codeCall s)))),
        after r (askedCodes ambiguous (findAll .char codeCall s))) := by
  have hmake := makeable_convertEdits ambiguous r s
  unfold convertCodes
  rw [convertEdits_eq] at hmake ⊢
  simp only [hmake.reviseOrAbort_eq]
  rfl

/-- **Calls are converted to the identifiers that codes have**, whatever the resolver has been asked
before. -/
theorem convertCodes_eq {ρ : Type} [Resolver ρ] (ambiguous : Text → Bool) {r : ρ}
    (hr : Answers r ids) (s : Text) :
    ∃ r', convertCodes ambiguous r s = .ok (convertBy ambiguous ids s, r') ∧ Answers r' ids := by
  obtain ⟨hedits, hnext⟩ := convertEdits_spec ambiguous (findAll .char codeCall s) hr
  rw [convertEdits_eq] at hedits hnext
  dsimp only at hedits hnext
  refine ⟨_, ?_, hnext⟩
  rw [convertCodes_run, hedits]
  rfl

end Edits

/-! ## Nothing is left to convert -/

section Left

variable {answer : CodeCall → Option Text} {before : Option UInt8} {s out : Text}

/-- A call that starts in kept bytes has been kept as a whole: a converted call starts with a word
that fits into no code. -/
theorem Converted.text_kept (h : Converted answer before s out) {c : CodeCall} (hc : c.WellFormed) :
    ∀ {x v : Text}, x ≠ [] → x.getLast? = before → x ++ out = c.text ++ v →
      ∃ v', x ++ s = c.text ++ v' := by
  induction h with
  | nil =>
    intro x v _ _ hx
    exact ⟨v, hx⟩
  | @call before d id s out hbefore hd hanswer rest ih =>
    intro x v hne hlast hx
    have hword : c.wrap codeFunction c.code ++ v =
        x ++ (identifierFunction ++ (d.opening ++ [d.openQuote] ++ id ++ [d.closeQuote] ++
          d.closing ++ out)) := by
      show c.text ++ v = _
      rw [← hx]
      simp [CodeCall.onIdentifier, identifierFunction]
    rcases hc.word_inside codeFunction_isWord (by decide) identifierFunction_isWord hne
        (by rw [hlast]; exact hbefore) hword with hcode | ⟨x', hx', _⟩
    · exact absurd hcode (hc.not_infix_code identifierFunction_isWord (by decide))
    · exact ⟨x' ++ (d.text ++ s), by rw [hx', List.append_assoc]; rfl⟩
  | @keep before b s out hother rest ih =>
    intro x v hne hlast hx
    have hstep := ih (x := x ++ [b]) (v := v) (by simp) (by simp)
      (by rw [List.append_assoc]; exact hx)
    rwa [List.append_assoc] at hstep

/-- **No convertible call is left**, if no identifier holds the name of the function. -/
theorem Converted.not_convertible (h : Converted answer before s out)
    (hids : ∀ c id, answer c = some id → ¬ codeFunction <:+: id) :
    ∀ {u v : Text}, out = u ++ v → ¬ Convertible answer (u.getLast?.or before) v := by
  induction h with
  | nil =>
    intro u v hout
    obtain ⟨rfl, rfl⟩ := List.append_eq_nil_iff.mp hout.symm
    exact not_convertible_of_head rfl
  | @call before d id s out hbefore hd hanswer rest ih =>
    rintro u v hout ⟨hlast, c, hc, ⟨t, rfl⟩, hsome⟩
    obtain ⟨r, hr⟩ := text_eq c
    by_cases hu : u = []
    · subst hu
      rw [hr] at hout
      cases hout
    · have hword : d.wrap identifierFunction id ++ out = u ++ (codeFunction ++ (r ++ t)) := by
        rw [← List.append_assoc codeFunction, ← hr, ← hout]
        rfl
      rw [getLast?_or_of_ne_nil hu] at hlast
      rcases hd.word_inside identifierFunction_isWord (by decide) codeFunction_isWord hu hlast hword
        with hid | ⟨u', rfl, hout'⟩
      · exact hids d id hanswer hid
      · have hlast' : (u'.getLast?.or (some Byte.closeParen)).any Byte.isWord = false := by
          rwa [List.getLast?_append, hd.getLast?_wrap] at hlast
        refine ih ?_ ⟨hlast', c, hc, ⟨t, rfl⟩, hsome⟩
        rw [hout', hr, List.append_assoc]
  | @keep before b s out hother rest ih =>
    intro u v hout
    rcases List.cons_eq_append_iff.mp hout with ⟨rfl, rfl⟩ | ⟨u', rfl, hrest⟩
    · rintro ⟨hbefore, c, hc, ⟨t, ht⟩, hsome⟩
      obtain ⟨t', ht'⟩ := rest.text_kept hc (x := [b]) (by simp) rfl ht
      exact hother ⟨hbefore, c, hc, ⟨t', ht'⟩, hsome⟩
    · rw [getLast?_cons_or]
      exact ih hrest

/-- A text is converted in one way only. -/
theorem Converted.unique (h : Converted answer before s out) :
    ∀ {out' : Text}, Converted answer before s out' → out' = out := by
  induction h with
  | nil =>
    intro out' h'
    generalize hs : ([] : Text) = s at h'
    cases h' with
    | nil => rfl
    | call => cases hs
    | keep => cases hs
  | @call before c id s out hbefore hc hanswer rest ih =>
    intro out' h'
    have hconvertible : Convertible answer before (c.text ++ s) :=
      (convertible_text hc).mpr ⟨hbefore, by rw [hanswer]; rfl⟩
    have hfind := codeCall_text hbefore hc s
    generalize hs : c.text ++ s = z at h' hconvertible hfind
    cases h' with
    | nil => cases hs
    | @call _ c' id' s' out' _ hc' hanswer' rest' =>
      rw [codeCall_text hbefore hc' s'] at hfind
      obtain rfl : c' = c := (Prod.mk.inj (Option.some.inj hfind)).2
      obtain rfl := List.append_cancel_left hs
      obtain rfl : id' = id := Option.some.inj (hanswer'.symm.trans hanswer)
      rw [ih rest']
    | keep hother _ => exact absurd hconvertible hother
  | @keep before b s out hother rest ih =>
    intro out' h'
    generalize hs : b :: s = z at h' hother
    cases h' with
    | nil => cases hs
    | @call _ c' id' s' out' _ hc' hanswer' rest' =>
      exact absurd ((convertible_text hc').mpr ⟨‹_›, by rw [hanswer']; rfl⟩) hother
    | keep _ rest' =>
      cases hs
      rw [ih rest']

/-- Without convertible calls, all is kept. -/
theorem Converted.refl : ∀ {before : Option UInt8} {s : Text},
    (∀ u v, s = u ++ v → ¬ Convertible answer (u.getLast?.or before) v) →
      Converted answer before s s
  | _, [], _ => .nil
  | _, b :: s, hnone => by
    refine .keep (hnone [] _ rfl) (.refl fun u v huv => ?_)
    rw [← getLast?_cons_or]
    exact hnone (b :: u) v (by rw [huv]; rfl)

end Left

/-- **Exactly the convertible calls are converted, and once.**  The calls whose quotes are alike and
whose code has an identifier become calls on it, and every other byte is kept.  If no identifier
holds the name of the function that is called on codes, no convertible call is left, so converting
the text again changes nothing.  This holds of every resolver that is free of side effects. -/
theorem convertCodes_exact {ρ : Type} [Resolver ρ] (ambiguous : Text → Bool) {r : ρ}
    {ids : Text → Option Text} (hr : Answers r ids)
    (hids : ∀ code id, ids code = some id → ¬ codeFunction <:+: id) (s : Text) :
    ∃ out r', convertCodes ambiguous r s = .ok (out, r') ∧ Answers r' ids ∧
      (∀ out', Converted (CodeCall.answer ambiguous ids) none s out' ↔ out' = out) ∧
      (∀ u v, out = u ++ v → ¬ Convertible (CodeCall.answer ambiguous ids) u.getLast? v) ∧
      ∀ {ρ' : Type} [Resolver ρ'] (r₂ : ρ'), Answers r₂ ids →
        ∃ r₃, convertCodes ambiguous r₂ out = .ok (out, r₃) := by
  have hanswers : ∀ c id, CodeCall.answer ambiguous ids c = some id → ¬ codeFunction <:+: id := by
    intro c id hanswer
    exact hids c.code id (Option.ite_none_left_eq_some.mp hanswer).2
  obtain ⟨r', hout, hnext⟩ := convertCodes_eq ambiguous hr s
  have hconverted := @convertBy_converted ambiguous ids s
  have hleft : ∀ u v, convertBy ambiguous ids s = u ++ v →
      ¬ Convertible (CodeCall.answer ambiguous ids) (u.getLast?.or none) v :=
    fun _ _ => hconverted.not_convertible hanswers
  refine ⟨_, r', hout, hnext, fun out' => ⟨hconverted.unique, ?_⟩, ?_, ?_⟩
  · rintro rfl
    exact hconverted
  · intro u v huv
    have hplace := hleft u v huv
    rwa [Option.or_none] at hplace
  · intro ρ' _ r₂ hr₂
    obtain ⟨r₃, hagain, _⟩ := convertCodes_eq ambiguous hr₂ (convertBy ambiguous ids s)
    rw [(Converted.refl hleft).unique (convertBy_converted _)] at hagain
    exact ⟨r₃, hagain⟩

/-- A codebook with two codes, one of them ambiguous. -/
def makeBook : Codebook :=
  .ofTable [(utf8 "Mk  ", utf8 "make"), (utf8 "Nm  ", utf8 "name")] [utf8 "Nm  "]

/-- Calls with and without an answer, one of them with two quotes and one inside of a word. -/
def mixedCalls : Text :=
  utf8 "charIDToTypeID( \"Mk  \" ),charIDToTypeID('Nm  '),charIDToTypeID('Mk  \")" ++
  utf8 "xcharIDToTypeID('Mk  '),charIDToTypeID\n('Mk  ' )"

theorem convertCodes_exact_mixed :
    Answers (BookResolver.ofBook makeBook) makeBook.resolve ∧
    (∀ code id, makeBook.resolve code = some id → ¬ codeFunction <:+: id) ∧ ∃ out r',
    convertCodes (fun _ => false) (BookResolver.ofBook makeBook) mixedCalls = .ok (out, r') ∧
      out = utf8 "stringIDToTypeID( \"make\" ),charIDToTypeID('Nm  '),charIDToTypeID('Mk  \")" ++
        utf8 "xcharIDToTypeID('Mk  '),stringIDToTypeID\n('make' )" ∧
      (∀ u v, out = u ++ v →
        ¬ Convertible (CodeCall.answer (fun _ => false) makeBook.resolve) u.getLast? v) ∧
      ∃ r₃, convertCodes (fun _ => false) r' out = .ok (out, r₃) := by
  have hids : ∀ code id, makeBook.resolve code = some id → ¬ codeFunction <:+: id := by
    intro code id h
    have hentries : ∀ e ∈ [(utf8 "Mk  ", utf8 "make"), (utf8 "Nm  ", utf8 "name")],
        ¬ codeFunction <:+: e.2 := by decide +kernel
    exact hentries (code, id) (Codebook.mem_of_resolve h)
  have hr := (BookResolver.ofBook makeBook).answers
  obtain ⟨out, r', hout, hnext, hexact, hleft, hagain⟩ :=
    convertCodes_exact (fun _ => false) hr hids mixedCalls
  refine ⟨hr, hids, out, r', hout, ?_, hleft, hagain r' hnext⟩
  rw [← (hexact _).mp (convertBy_converted mixedCalls)]
  decide +kernel

end Pass

end ActionLog
