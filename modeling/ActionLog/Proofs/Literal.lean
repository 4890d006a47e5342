import ActionLog.Proofs.Quote
import ActionLog.Proofs.Search
import ActionLog.Text.Literal

/-!
# The strings of a text

* `literals` — the strings of a text with their quotes, from left to right; a quote without a partner
  starts no string, so that what follows it is searched as if it were not there;
* `literal_induction` — induction along the strings of a text;
* `literals_append` — where a text closes its strings, those of what follows it are found alone;
* `Kept` — two texts with the same quotes, in which pieces between quotes are the same wherever a
  condition holds of them.

Principal result: `Kept.literals` — such texts have the same number of strings, and a string of which
the condition holds is the same in both.
-/

set_option autoImplicit false

namespace ActionLog.Text

open Pass (isQuote openQuote)

/-- A string with its quotes. -/
def literalPattern : Pattern Text := fun before rest =>
  (quotedPattern before rest).map fun (n, _) => (n, rest.take n)

/-- The strings of a text with their quotes, from left to right. -/
def literals (s : Text) : List Text := (findAll .byte literalPattern s).map (·.value)

/-- No quotes. -/
def Plain (s : Text) : Prop := ∀ b ∈ s, isQuote b = false

instance (s : Text) : Decidable (Plain s) := inferInstanceAs (Decidable (∀ b ∈ s, _))

theorem Plain.append {s t : Text} (hs : Plain s) (ht : Plain t) : Plain (s ++ t) := by
  intro b hb
  rcases List.mem_append.mp hb with hb | hb
  · exact hs b hb
  · exact ht b hb

theorem Plain.not_mem {s : Text} (hs : Plain s) {q : UInt8} (hq : isQuote q = true) : q ∉ s := by
  intro hmem
  rw [hs q hmem] at hq
  cases hq

section Quotes

variable {q : UInt8}

theorem isQuote_cases (h : isQuote q = true) : q = Byte.doubleQuote ∨ q = Byte.singleQuote := by
  simpa [isQuote] using h

theorem isBasic_of_isQuote (h : isQuote q = true) : IsBasic q := by
  rcases isQuote_cases h with rfl | rfl <;> decide

theorem isName_of_isQuote (h : isQuote q = true) : Byte.isName q = false := by
  rcases isQuote_cases h with rfl | rfl <;> rfl

theorem plain_of_isRun {s : Text} (hs : IsRun s) : Plain s :=
  fun b hb => Pass.isQuote_of_not_mark (isMark_of_isName (hs b hb))

theorem plain_of_white {s : Text} (hs : ∀ b ∈ s, isWhite b = true) : Plain s :=
  fun b hb => Pass.isQuote_of_not_mark (white_bytes (hs b hb)).2

theorem plain_newline : Plain [Byte.newline] := by decide +kernel

end Quotes

/-! ## Strings from the left -/

theorem literals_from (s : Text) (pos : Nat) (before : Option UInt8) :
    (findAllFrom .byte literalPattern pos before 0 s).map (·.value) = literals s := by
  have hsame : ∀ s, literalPattern before s = literalPattern none s := fun _ => rfl
  exact values_findAllFrom .byte hsame s pos 0 0

/-- A byte that starts no string is passed over. -/
theorem literals_cons {b : UInt8} {s : Text} (h : ¬ (isQuote b = true ∧ b ∈ s)) :
    literals (b :: s) = literals s := by
  have hnone : literalPattern none (b :: s) = none := by
    have hcond : ((b == Byte.doubleQuote || b == Byte.singleQuote) && s.contains b) = false := by
      rw [Bool.eq_false_iff]
      intro htrue
      rw [Bool.and_eq_true, List.contains_iff_mem] at htrue
      exact h htrue
    simp only [literalPattern, quotedPattern, hcond]
    rfl
  rw [← literals_from s 1 (some b), literals, findAll, findAllFrom, hnone]
  rfl

/-- A string goes from a quote to the next one of its kind. -/
theorem literals_string {q : UInt8} {c : Text} (hq : isQuote q = true) (hc : q ∉ c) (s : Text) :
    literals (q :: (c ++ q :: s)) = (q :: (c ++ [q])) :: literals s := by
  have hcontent : (c ++ q :: s).takeWhile (· != q) = c := by
    rw [List.takeWhile_append_of_pos]
    · simp
    · intro b hb
      rw [bne_iff_ne]
      rintro rfl
      exact hc hb
  have hsome : literalPattern none (q :: (c ++ q :: s)) =
      some (c.length + 2, q :: (c ++ [q])) := by
    have hcond : ((q == Byte.doubleQuote || q == Byte.singleQuote) &&
        (c ++ q :: s).contains q) = true := by
      rw [Bool.and_eq_true, List.contains_iff_mem]
      exact ⟨hq, by simp⟩
    have htake : (q :: (c ++ q :: s)).take (c.length + 2) = q :: (c ++ [q]) := by
      rw [List.take_succ_cons, List.take_length_add_append]
      rfl
    simp only [literalPattern, quotedPattern, hcond, if_true, hcontent, Option.map_some, htake]
  have hassoc : q :: (c ++ q :: s) = q :: (c ++ [q]) ++ s := by simp
  have hlen : c.length + 2 = (q :: (c ++ [q])).length := by simp
  rw [hassoc, hlen] at hsome
  rw [literals, findAll, hassoc, findAllFrom_hit (List.cons_ne_nil _ _) hsome, List.map_cons,
    literals_from]

/-- Induction along the strings of a text. -/
theorem literal_induction {motive : Text → Prop} (nil : motive [])
    (other : ∀ b s, ¬ (isQuote b = true ∧ b ∈ s) → motive s → motive (b :: s))
    (string : ∀ q c s, isQuote q = true → q ∉ c → motive s → motive (q :: (c ++ q :: s))) :
    ∀ s, motive s
  | [] => nil
  | b :: s => by
    by_cases h : isQuote b = true ∧ b ∈ s
    · obtain ⟨c, rest, hs, hc⟩ := List.eq_append_cons_of_mem h.2
      have hlen : rest.length < (b :: s).length := by
        rw [hs]
        simp
        omega
      rw [hs]
      exact string b c rest h.1 hc (literal_induction nil other string rest)
    · exact other b s h (literal_induction nil other string s)
termination_by s => s.length
decreasing_by
  · exact hlen
  · exact Nat.lt_succ_self _

theorem literals_plain_append {w : Text} (hw : Plain w) (s : Text) :
    literals (w ++ s) = literals s := by
  induction w with
  | nil => rfl
  | cons b w ih =>
    have hb := hw b List.mem_cons_self
    rw [List.cons_append, literals_cons (by simp [hb])]
    exact ih fun c hc => hw c (List.mem_cons_of_mem _ hc)

theorem literals_append_plain (s : Text) {w : Text} (hw : Plain w) :
    literals (s ++ w) = literals s := by
  induction s using literal_induction with
  | nil =>
    rw [List.nil_append, ← List.append_nil w]
    exact literals_plain_append hw []
  | other b s h ih =>
    have hnot : ¬ (isQuote b = true ∧ b ∈ s ++ w) := by
      rintro ⟨hb, hmem⟩
      rcases List.mem_append.mp hmem with hmem | hmem
      · exact h ⟨hb, hmem⟩
      · exact hw.not_mem hb hmem
    rw [List.cons_append, literals_cons hnot, literals_cons h, ih]
  | string q c s hq hc ih =>
    have hassoc : q :: (c ++ q :: s) ++ w = q :: (c ++ q :: (s ++ w)) := by simp
    rw [hassoc, literals_string hq hc, literals_string hq hc, ih]

/-- **Where a text closes its strings, those of what follows it are found alone.** -/
theorem literals_append {s : Text} (hs : openQuote none s = none) (t : Text) :
    literals (s ++ t) = literals s ++ literals t := by
  induction s using literal_induction with
  | nil => rfl
  | other b s h ih =>
    have hb : isQuote b = false := by
      by_contra hb
      rw [Bool.not_eq_false] at hb
      rw [Pass.openQuote_cons, Pass.quoteAfter_open hb,
        Pass.openQuote_some fun hmem => h ⟨hb, hmem⟩] at hs
      cases hs
    rw [Pass.openQuote_cons, Pass.quoteAfter_other hb] at hs
    rw [List.cons_append, literals_cons (by simp [hb]), literals_cons (by simp [hb]), ih hs]
  | string q c s hq hc ih =>
    rw [Pass.openQuote_cons, Pass.quoteAfter_open hq, Pass.openQuote_append, Pass.openQuote_some hc,
      Pass.openQuote_cons, Pass.quoteAfter_close hq] at hs
    have hassoc : q :: (c ++ q :: s) ++ t = q :: (c ++ q :: (s ++ t)) := by simp
    rw [hassoc, literals_string hq hc, literals_string hq hc, ih hs, List.cons_append]

/-! ## Pieces between quotes -/

/-- Induction along the quotes of a text. -/
theorem quote_induction {motive : Text → Prop} (last : ∀ x, Plain x → motive x)
    (next : ∀ x q s, Plain x → isQuote q = true → motive s → motive (x ++ q :: s)) :
    ∀ s, motive s
  | [] => last [] (by simp [Plain])
  | b :: s => by
    by_cases h : Plain (b :: s)
    · exact last _ h
    · have hdrop : (b :: s).dropWhile (fun c => !isQuote c) ≠ [] := by
        intro hnil
        rw [List.dropWhile_eq_nil_iff] at hnil
        exact h fun c hc => by simpa using hnil c hc
      obtain ⟨q, rest, hrest⟩ := List.exists_cons_of_ne_nil hdrop
      have hq : isQuote q = true := by
        have hhead := List.head_dropWhile_not (fun c => !isQuote c) hdrop
        simpa [hrest] using hhead
      have hsplit := List.takeWhile_append_dropWhile (p := fun c => !isQuote c) (l := b :: s)
      rw [hrest] at hsplit
      have hlen : rest.length < (b :: s).length := by
        rw [← hsplit]
        simp
        omega
      rw [← hsplit]
      refine next _ q rest (fun c hc => ?_) hq (quote_induction last next rest)
      simpa using List.mem_takeWhile_imp hc
termination_by s => s.length
decreasing_by exact hlen

/-- What stands before the first quote, that quote and what stands behind it are determined. -/
theorem plain_split {x x' s s' : Text} {q q' : UInt8} (hx : Plain x) (hx' : Plain x')
    (hq : isQuote q = true) (hq' : isQuote q' = true) (h : x ++ q :: s = x' ++ q' :: s') :
    x = x' ∧ q = q' ∧ s = s' := by
  rcases List.append_eq_append_iff.mp h with ⟨a, ha, hb⟩ | ⟨a, ha, hb⟩
  · cases a with
    | nil =>
      obtain ⟨rfl, rfl⟩ := List.cons.inj hb
      exact ⟨by simpa using ha.symm, rfl, rfl⟩
    | cons c a =>
      obtain ⟨rfl, _⟩ := List.cons.inj hb
      exact absurd (by rw [ha]; simp) (hx'.not_mem hq)
  · cases a with
    | nil =>
      obtain ⟨rfl, rfl⟩ := List.cons.inj hb
      exact ⟨by simpa using ha, rfl, rfl⟩
    | cons c a =>
      obtain ⟨rfl, _⟩ := List.cons.inj hb
      exact absurd (by rw [ha]; simp) (hx.not_mem hq')

/-- Two texts with the same quotes, in which a piece between quotes is the same if `P` holds of it. -/
inductive Kept (P : Text → Prop) : Text → Text → Prop
  | last {x y : Text} (hx : Plain x) (hy : Plain y) (h : P x → y = x) : Kept P x y
  | next {x y s t : Text} {q : UInt8} (hx : Plain x) (hy : Plain y) (h : P x → y = x)
      (hq : isQuote q = true) (rest : Kept P s t) : Kept P (x ++ q :: s) (y ++ q :: t)

namespace Kept

variable {P : Text → Prop} {s t u : Text}

theorem refl (P : Text → Prop) (s : Text) : Kept P s s := by
  induction s using quote_induction with
  | last x hx => exact .last hx hx fun _ => rfl
  | next x q s hx hq ih => exact .next hx hx (fun _ => rfl) hq ih

theorem trans (h : Kept P s t) (h' : Kept P t u) : Kept P s u := by
  induction h generalizing u with
  | @last x y hx hy hxy =>
    generalize hw : y = w at h'
    cases h' with
    | last _ hz hyz =>
      subst hw
      refine .last hx hz fun hp => ?_
      rw [← hxy hp]
      exact hyz (hxy hp ▸ hp)
    | @next y' z s' t' q _ _ _ hq _ =>
      exact absurd (by rw [hw]; simp) (hy.not_mem hq)
  | @next x y s t q hx hy hxy hq _ ih =>
    generalize hw : y ++ q :: t = w at h'
    cases h' with
    | last hw' _ _ => exact absurd (by rw [← hw]; simp) (hw'.not_mem hq)
    | @next y' z t' u' q' hy' hz hyz hq' rest =>
      obtain ⟨rfl, rfl, rfl⟩ := plain_split hy hy' hq hq' hw
      exact .next hx hz (fun hp => by rw [← hxy hp]; exact hyz (hxy hp ▸ hp)) hq (ih rest)

/-- Texts put together with something without quotes between them, where the condition on a piece
is one on its parts. -/
theorem append {s' t' m m' : Text} (hm : Plain m) (hm' : Plain m')
    (hglue : ∀ x x', P (x ++ m ++ x') → P x ∧ P x' ∧ m' = m) (h : Kept P s t)
    (h' : Kept P s' t') : Kept P (s ++ m ++ s') (t ++ m' ++ t') := by
  induction h with
  | @last x y hx hy hxy =>
    have hjoin : ∀ x' y', (P x' → y' = x') → P (x ++ m ++ x') → y ++ m' ++ y' = x ++ m ++ x' := by
      intro x' y' hxy' hp
      obtain ⟨hpx, hpx', rfl⟩ := hglue x x' hp
      rw [hxy hpx, hxy' hpx']
    cases h' with
    | last hx' hy' hxy' =>
      exact .last ((hx.append hm).append hx') ((hy.append hm').append hy') (hjoin _ _ hxy')
    | @next x' y' s₁ t₁ q hx' hy' hxy' hq rest =>
      have hnext := Kept.next ((hx.append hm).append hx') ((hy.append hm').append hy')
        (hjoin _ _ hxy') hq rest
      simpa using hnext
  | next hx hy hxy hq _ ih =>
    have hnext := Kept.next hx hy hxy hq ih
    simpa using hnext

theorem join {s' t' : Text} (hsplit : ∀ x x', P (x ++ x') → P x ∧ P x') (h : Kept P s t)
    (h' : Kept P s' t') : Kept P (s ++ s') (t ++ t') := by
  have hnil : Plain [] := by simp [Plain]
  have hall := Kept.append hnil hnil (fun x x' hp => ?_) h h'
  · rwa [List.append_nil, List.append_nil] at hall
  · rw [List.append_nil] at hp
    exact ⟨(hsplit x x' hp).1, (hsplit x x' hp).2, rfl⟩

/-- A front without quotes is changed, if the condition holds of nothing that starts with it. -/
theorem front {x y : Text} (hx : Plain x) (hy : Plain y) (hnot : ∀ z, ¬ P (x ++ z)) (s : Text) :
    Kept P (x ++ s) (y ++ s) := by
  induction s using quote_induction with
  | last z hz => exact .last (hx.append hz) (hy.append hz) fun h => absurd h (hnot z)
  | next z q s hz hq _ =>
    rw [← List.append_assoc, ← List.append_assoc]
    exact .next (hx.append hz) (hy.append hz) (fun h => absurd h (hnot z)) hq (Kept.refl P s)

/-- The same quotes stand in both texts. -/
theorem mem_iff (h : Kept P s t) {q : UInt8} (hq : isQuote q = true) : q ∈ t ↔ q ∈ s := by
  induction h with
  | last hx hy _ => exact iff_of_false (hy.not_mem hq) (hx.not_mem hq)
  | next hx hy _ _ _ ih =>
    simp only [List.mem_append, List.mem_cons, hx.not_mem hq, hy.not_mem hq, false_or, ih]

/-- Both texts are cut at the first quote of a kind. -/
theorem cut (h : Kept P s t) {q : UInt8} (hq : isQuote q = true) (hmem : q ∈ s) :
    ∃ c s' c' t', s = c ++ q :: s' ∧ q ∉ c ∧ t = c' ++ q :: t' ∧ q ∉ c' ∧ Kept P c c' ∧
      Kept P s' t' := by
  induction h with
  | last hx _ _ => exact absurd hmem (hx.not_mem hq)
  | @next x y s t q' hx hy hxy hq' rest ih =>
    by_cases heq : q' = q
    · subst heq
      exact ⟨x, s, y, t, rfl, hx.not_mem hq, rfl, hy.not_mem hq, .last hx hy hxy, rest⟩
    · have hs : q ∈ s := by
        rcases List.mem_append.mp hmem with hmem | hmem
        · exact absurd hmem (hx.not_mem hq)
        · rcases List.mem_cons.mp hmem with rfl | hmem
          · exact absurd rfl heq
          · exact hmem
      obtain ⟨c, s', c', t', rfl, hc, rfl, hc', hkept, hrest⟩ := ih hs
      have hne : q ≠ q' := Ne.symm heq
      refine ⟨x ++ q' :: c, s', y ++ q' :: c', t', by simp, ?_, by simp, ?_,
        .next hx hy hxy hq' hkept, hrest⟩
      · simp [hx.not_mem hq, hc, hne]
      · simp [hy.not_mem hq, hc', hne]

/-- A condition on a text that holds of all pieces between its quotes. -/
def Cuts (P : Text → Prop) : Prop :=
  ∀ x q s, isQuote q = true → P (x ++ q :: s) → P x ∧ P s

theorem eq_self (hcuts : Cuts P) (h : Kept P s t) (hs : P s) : t = s := by
  induction h with
  | last _ _ hxy => exact hxy hs
  | @next x y s t q _ _ hxy hq _ ih =>
    obtain ⟨hx, hrest⟩ := hcuts x q s hq hs
    rw [hxy hx, ih hrest]

/-- **The strings of both texts correspond**, and those of which the condition holds are the same. -/
theorem literals (hcuts : Cuts P) {s t : Text} (h : Kept P s t) :
    List.Forall₂ (fun l l' => P l → l' = l) (literals s) (literals t) := by
  cases h with
  | last hx hy _ =>
    have hs : Text.literals s = [] := literals_append_plain [] hx
    have ht : Text.literals t = [] := literals_append_plain [] hy
    rw [hs, ht]
    exact .nil
  | @next x y s t q hx hy _ hq rest =>
    rw [literals_plain_append hx, literals_plain_append hy]
    -- the quote opens a string in both texts or in none of them
    by_cases hmem : q ∈ s
    · obtain ⟨c, s', c', t', rfl, hc, rfl, hc', hkept, hrest⟩ := rest.cut hq hmem
      rw [literals_string hq hc, literals_string hq hc']
      refine .cons (fun hl => ?_) (literals hcuts hrest)
      -- a string may hold quotes of the other kind, so it is several pieces
      obtain ⟨_, hcq⟩ := hcuts [] q (c ++ [q]) hq hl
      rw [hkept.eq_self hcuts (hcuts c q [] hq hcq).1]
    · rw [literals_cons fun h => hmem h.2, literals_cons fun h => hmem ((rest.mem_iff hq).mp h.2)]
      exact literals hcuts rest
termination_by s.length
decreasing_by
  all_goals
    subst_vars
    simp only [List.length_append, List.length_cons]
    omega

/-- A rewriting that goes on by itself behind every quote, and leaves a piece without quotes as it
is where the condition holds of it. -/
theorem of_cut {f : Text → Text} (hcut : ∀ x q s, Plain x → isQuote q = true →
      f (x ++ q :: s) = f x ++ q :: f s) (hplain : ∀ x, Plain x → Plain (f x))
    (hkeep : ∀ x, Plain x → P x → f x = x) (s : Text) : Kept P s (f s) := by
  induction s using quote_induction with
  | last x hx => exact .last hx (hplain x hx) (hkeep x hx)
  | next x q s hx hq ih =>
    rw [hcut x q s hx hq]
    exact .next hx (hplain x hx) (hkeep x hx) hq ih

end Kept

end ActionLog.Text
