import ActionLog.Pass.Shorten
import ActionLog.Proofs.Encoding

/-!
# Uses of methods

Methods are words, and may have a host before them.  A text is cut into its words, maximal runs of
word bytes, with other bytes between them.

* `Occurs` — a word between word boundaries; `occurs_other` and `occurs_word` find it word by word;
* `methodUse` — a method at a place, together with its host if there is one;
* `shortened` — a text with its methods replaced in one pass from the left;
* `shortened_method`, `shortened_hosted`, `shortened_kept` — what the pass makes of a word.

Principal result: `shortened_induction` — induction along the words of a text, with what the pass
makes of them.
-/

set_option autoImplicit false

namespace ActionLog

namespace Text

/-! ## Words -/

/-- Word bytes only, and at least one. -/
structure IsWord (r : Text) : Prop where
  ne_nil : r ≠ []
  bytes : ∀ b ∈ r, Byte.isWord b = true

instance (r : Text) : Decidable (IsWord r) :=
  decidable_of_iff (r ≠ [] ∧ r.all Byte.isWord = true)
    ⟨fun h => ⟨h.1, List.all_eq_true.mp h.2⟩, fun h => ⟨h.1, List.all_eq_true.mpr h.2⟩⟩

/-- The text does not start inside of a word. -/
def Parted (s : Text) : Prop := s.head?.any Byte.isWord = false

instance (s : Text) : Decidable (Parted s) := inferInstanceAs (Decidable (_ = _))

/-- The word that the text starts with; empty if there is none. -/
def firstWord (s : Text) : Text := s.takeWhile Byte.isWord

/-- The word stands in the text between word boundaries. -/
def Occurs (w s : Text) : Prop :=
  ∃ u v, s = u ++ w ++ v ∧ u.getLast?.any Byte.isWord = false ∧ Parted v

theorem occurs_iff {w s : Text} : Occurs w s ↔ ∃ k, k < s.length + 1 ∧ w <+: s.drop k ∧
    (s.take k).getLast?.any Byte.isWord = false ∧ Parted ((s.drop k).drop w.length) := by
  constructor
  · rintro ⟨u, v, rfl, hu, hv⟩
    rw [List.append_assoc]
    refine ⟨u.length, by rw [List.length_append]; omega, ?_, ?_, ?_⟩
    · rw [List.drop_left]
      exact List.prefix_append w v
    · rwa [List.take_left]
    · rwa [List.drop_left, List.drop_left]
  · rintro ⟨k, _, ⟨v, hv⟩, hu, hparted⟩
    refine ⟨s.take k, v, ?_, hu, ?_⟩
    · rw [List.append_assoc, hv, List.take_append_drop]
    · rwa [← hv, List.drop_left] at hparted

instance (w s : Text) : Decidable (Occurs w s) := decidable_of_iff _ occurs_iff.symm

variable {r s w : Text} {b : UInt8}

theorem IsWord.isRun (hr : IsWord r) : IsRun r := by
  intro b hb
  simp [Byte.isName, hr.bytes b hb]

theorem IsWord.head (hr : IsWord r) (s : Text) : (r ++ s).head?.any Byte.isWord = true := by
  obtain ⟨b, r, rfl⟩ := List.exists_cons_of_ne_nil hr.ne_nil
  exact hr.bytes b List.mem_cons_self

theorem IsWord.last (hr : IsWord r) (u : Text) : (u ++ r).getLast?.any Byte.isWord = true := by
  rw [List.getLast?_append, getLast?_or_of_ne_nil hr.ne_nil]
  exact class_last hr.bytes (List.append_nil r).symm hr.ne_nil

theorem IsWord.not_parted (hr : IsWord r) : ¬ Parted (r ++ s) := by
  intro hparted
  rw [Parted, hr.head s] at hparted
  cases hparted

theorem firstWord_append (hr : IsWord r) (hs : Parted s) : firstWord (r ++ s) = r :=
  takeWhile_class hr.bytes hs

theorem firstWord_parted (hs : Parted s) : firstWord s = [] :=
  takeWhile_class (r := []) (by simp) hs

theorem exists_firstWord (s : Text) : ∃ t, s = firstWord s ++ t ∧ Parted t :=
  ⟨s.dropWhile Byte.isWord, List.takeWhile_append_dropWhile.symm, head?_dropWhile_class Byte.isWord s⟩

theorem firstWord_append_iff (hr : IsWord r) : firstWord (r ++ s) = r ↔ Parted s := by
  constructor
  · intro h
    obtain ⟨t, ht, hparted⟩ := exists_firstWord (r ++ s)
    rw [h] at ht
    rwa [List.append_cancel_left ht]
  · exact firstWord_append hr

/-! ## Occurrences, word by word -/

theorem occurs_nil (hw : IsWord w) : ¬ Occurs w [] := by
  rintro ⟨u, v, h, _⟩
  have hnil := (List.append_eq_nil_iff.mp h.symm).1
  exact hw.ne_nil (List.append_eq_nil_iff.mp hnil).2

theorem occurs_other (hw : IsWord w) (hb : Byte.isWord b = false) :
    Occurs w (b :: s) ↔ Occurs w s := by
  constructor
  · rintro ⟨u, v, h, hu, hv⟩
    cases u with
    | nil =>
      exfalso
      have hhead := hw.head v
      rw [← List.nil_append w, ← h] at hhead
      exact absurd (hhead.symm.trans hb) (by decide)
    | cons c u =>
      obtain ⟨rfl, rfl⟩ := List.cons.inj h
      refine ⟨u, v, rfl, ?_, hv⟩
      cases u with
      | nil => rfl
      | cons d u => simpa using hu
  · rintro ⟨u, v, rfl, hu, hv⟩
    refine ⟨b :: u, v, rfl, ?_, hv⟩
    cases u with
    | nil => exact hb
    | cons d u => simpa using hu

theorem occurs_word (hw : IsWord w) (hr : IsWord r) (hs : Parted s) :
    Occurs w (r ++ s) ↔ w = r ∨ Occurs w s := by
  constructor
  · rintro ⟨u, v, h, hu, hv⟩
    rw [List.append_assoc] at h
    rcases List.append_eq_append_iff.mp h with ⟨c, rfl, hc⟩ | ⟨c, hcut, hc⟩
    · cases c with
      | nil =>
        have hlast := hr.last []
        rw [List.append_nil] at hu
        exact absurd (hlast.symm.trans hu) (by decide)
      | cons d c =>
        refine .inr ⟨d :: c, v, by rw [hc, List.append_assoc], ?_, hv⟩
        rwa [List.getLast?_append_cons] at hu
    · cases u with
      | nil =>
        refine .inl ?_
        rw [List.nil_append] at hcut
        rw [← firstWord_append hw hv, ← firstWord_append hr hs, hc, hcut]
      | cons d u =>
        exfalso
        rw [class_last hr.bytes hcut (List.cons_ne_nil d u)] at hu
        cases hu
  · rintro (rfl | ⟨u, v, rfl, hu, hv⟩)
    · exact ⟨[], s, rfl, rfl, hs⟩
    · cases u with
      | nil =>
        rw [List.nil_append] at hs
        exact absurd hs hw.not_parted
      | cons d u =>
        refine ⟨r ++ d :: u, v, by simp, ?_, hv⟩
        rwa [List.getLast?_append_cons]

end Text

namespace Pass

open Text

/-! ## Methods at a place -/

/-- The name of the host. -/
def hostName : Text := utf8 "app"

theorem host_eq : host = hostName ++ [Byte.dot] := by decide +kernel

theorem hostName_isWord : IsWord hostName := ⟨by decide +kernel, by decide +kernel⟩

/-- The short name of the word that the text starts with, and the number of bytes of the word. -/
def wordUse (shortOf : Text → Option Text) (s : Text) : Option (Nat × Text) :=
  (shortOf (firstWord s)).map fun short => ((firstWord s).length, short)

/-- A method at a place where a word may start, together with the host before it if there is one. -/
def methodUse (shortOf : Text → Option Text) : Pattern Text := fun before rest =>
  if before.any Byte.isWord then none
  else
    ((after? host rest).bind fun method =>
      (wordUse shortOf method).map fun (n, short) => (host.length + n, short)).or
        (wordUse shortOf rest)

/-- **The text with all methods replaced by their short names**, in one pass from the left. -/
def shortened (shortOf : Text → Option Text) (s : Text) : Text :=
  replaceHits .byte (methodUse shortOf) s

/-- Words that have short names, which are words again; the host is neither. -/
structure Proper (shortOf : Text → Option Text) : Prop where
  long : ∀ {r n}, shortOf r = some n → IsWord r
  short : ∀ {r n}, shortOf r = some n → IsWord n ∧ n ≠ hostName
  host : shortOf hostName = none

/-- The word is the host of a method that follows it. -/
def Hosts (shortOf : Text → Option Text) (r s : Text) : Prop :=
  r = hostName ∧ ∃ t, s = Byte.dot :: t ∧ (shortOf (firstWord t)).isSome = true

section Places

variable {f : Text → Option Text} {before : Option UInt8} {b : UInt8} {r s t w n : Text}

theorem parted_dot (s : Text) : Parted (Byte.dot :: s) := rfl

theorem hosted_eq (w s : Text) : host ++ w ++ s = hostName ++ Byte.dot :: (w ++ s) := by
  rw [host_eq, List.append_assoc, List.append_assoc]
  rfl

theorem Proper.nil (hf : Proper f) : f [] = none := by
  cases h : f [] with
  | none => rfl
  | some n => exact absurd rfl (hf.long h).ne_nil

theorem wordUse_append (hr : IsWord r) (hs : Parted s) :
    wordUse f (r ++ s) = (f r).map fun short => (r.length, short) := by
  rw [wordUse, firstWord_append hr hs]

/-- What stands behind the host, if a text starts with it. -/
theorem after?_host (hr : IsWord r) (hs : Parted s) {m : Text}
    (h : after? host (r ++ s) = some m) : r = hostName ∧ s = Byte.dot :: m := by
  have heq : r ++ s = hostName ++ (Byte.dot :: m) := by
    rw [after?_eq_some.mp h, host_eq, List.append_assoc]
    rfl
  have hword := firstWord_append hostName_isWord (parted_dot m)
  rw [← heq, firstWord_append hr hs] at hword
  subst hword
  exact ⟨rfl, List.append_cancel_left heq⟩

theorem methodUse_parted (hf : Proper f) (hs : Parted s) : methodUse f before s = none := by
  have hnone : after? host s = none := by
    cases h : after? host s with
    | none => rfl
    | some m =>
      rw [after?_eq_some.mp h, host_eq, List.append_assoc] at hs
      exact absurd hs hostName_isWord.not_parted
  rw [methodUse, hnone, wordUse, firstWord_parted hs, hf.nil]
  simp

theorem methodUse_inside (h : before.any Byte.isWord = true) : methodUse f before s = none := by
  rw [methodUse, if_pos h]

theorem methodUse_hosted (hf : Proper f) (hbefore : before.any Byte.isWord = false)
    (hw : f w = some n) (ht : Parted t) :
    methodUse f before (host ++ w ++ t) = some ((host ++ w).length, n) := by
  rw [methodUse, if_neg (by simp [hbefore]), List.append_assoc, after?_append,
    Option.bind_some, wordUse_append (hf.long hw) ht, hw, List.length_append]
  rfl

theorem methodUse_method (hf : Proper f) (hbefore : before.any Byte.isWord = false)
    (hr : f r = some n) (hs : Parted s) : methodUse f before (r ++ s) = some (r.length, n) := by
  have hnone : after? host (r ++ s) = none := by
    cases h : after? host (r ++ s) with
    | none => rfl
    | some m =>
      rw [(after?_host (hf.long hr) hs h).1, hf.host] at hr
      cases hr
  rw [methodUse, if_neg (by simp [hbefore]), hnone, wordUse_append (hf.long hr) hs, hr]
  rfl

theorem methodUse_kept (hword : IsWord r) (hs : Parted s) (hr : f r = none) (hhost : ¬ Hosts f r s) :
    methodUse f before (r ++ s) = none := by
  have hnone : (after? host (r ++ s)).bind (fun method =>
      (wordUse f method).map fun (n, short) => (host.length + n, short)) = none := by
    cases h : after? host (r ++ s) with
    | none => rfl
    | some m =>
      obtain ⟨hname, hdot⟩ := after?_host hword hs h
      have hm : f (firstWord m) = none := by
        by_contra hsome
        exact hhost ⟨hname, m, hdot, Option.isSome_iff_ne_none.mpr hsome⟩
      rw [Option.bind_some, wordUse, hm]
      rfl
  rw [methodUse, hnone, wordUse_append hword hs, hr]
  simp

end Places

/-! ## One pass, word by word -/

section OnePass

variable {f : Text → Option Text} {before : Option UInt8} {b : UInt8} {r s t w n : Text}

/-- The pass goes on alike behind all bytes that belong to no word. -/
theorem replaceHitsFrom_apart (h : before.any Byte.isWord = false) :
    replaceHitsFrom .byte (methodUse f) before 0 s = shortened f s := by
  have hsame : ∀ s, methodUse f before s = methodUse f none s := by
    intro s
    rw [methodUse, methodUse, h]
    rfl
  unfold shortened replaceHits
  cases s with
  | nil => rfl
  | cons b s => rw [replaceHitsFrom, replaceHitsFrom, hsame]

/-- Where no word starts, the pass does not look at the byte before. -/
theorem replaceHitsFrom_parted (hf : Proper f) (hs : Parted s) :
    replaceHitsFrom .byte (methodUse f) before 0 s = shortened f s := by
  unfold shortened replaceHits
  cases s with
  | nil => rfl
  | cons b s => rw [replaceHitsFrom, replaceHitsFrom, methodUse_parted hf hs, methodUse_parted hf hs]

theorem shortened_other (hf : Proper f) (hb : Byte.isWord b = false) :
    shortened f (b :: s) = b :: shortened f s := by
  have hnone : methodUse f none (b :: s) = none := methodUse_parted hf hb
  have hrest : replaceHitsFrom .byte (methodUse f) (some b) 0 s = shortened f s :=
    replaceHitsFrom_apart (by simpa using hb)
  rw [← hrest]
  show replaceHitsFrom .byte (methodUse f) none 0 (b :: s) = _
  rw [replaceHitsFrom, hnone]
  rfl

theorem shortened_method (hf : Proper f) (hr : f r = some n) (hs : Parted s) :
    shortened f (r ++ s) = n ++ shortened f s := by
  rw [← replaceHitsFrom_parted hf hs]
  exact replaceHitsFrom_hit (hf.long hr).ne_nil (methodUse_method hf rfl hr hs) .byte

theorem shortened_hosted (hf : Proper f) (hw : f w = some n) (hs : Parted s) :
    shortened f (host ++ w ++ s) = n ++ shortened f s := by
  rw [← replaceHitsFrom_parted hf hs]
  exact replaceHitsFrom_hit (by simp [host_eq]) (methodUse_hosted hf rfl hw hs) .byte

theorem shortened_kept (hf : Proper f) (hword : IsWord r) (hs : Parted s) (hr : f r = none)
    (hhost : ¬ Hosts f r s) : shortened f (r ++ s) = r ++ shortened f s := by
  rw [← replaceHitsFrom_parted hf hs]
  refine replaceHitsFrom_keep fun u v huv hv => ?_
  cases u with
  | nil =>
    rw [List.nil_append] at huv
    rw [← huv]
    exact methodUse_kept hword hs hr hhost
  | cons c u =>
    -- a word byte stands before all other places of the word
    refine methodUse_inside ?_
    have hne : c :: u ≠ [] := List.cons_ne_nil c u
    rw [getLast?_or_of_ne_nil hne]
    exact class_last hword.bytes huv hne

/-- Induction along the words of a text, with what the pass makes of them. -/
theorem shortened_induction (hf : Proper f) {motive : Text → Text → Prop} (nil : motive [] [])
    (other : ∀ b s, Byte.isWord b = false → motive s (shortened f s) →
      motive (b :: s) (b :: shortened f s))
    (method : ∀ r s n, f r = some n → Parted s → motive s (shortened f s) →
      motive (r ++ s) (n ++ shortened f s))
    (hosted : ∀ w s n, f w = some n → Parted s → motive s (shortened f s) →
      motive (host ++ w ++ s) (n ++ shortened f s))
    (kept : ∀ r s, IsWord r → Parted s → f r = none → ¬ Hosts f r s → motive s (shortened f s) →
      motive (r ++ s) (r ++ shortened f s)) (s : Text) :
    motive s (shortened f s) := by
  rcases class_cases Byte.isWord s with heq | ⟨b, t, heq, hb⟩ | ⟨r, t, heq, hne, hr, ht⟩
  · rw [heq]
    exact nil
  · have hlt : t.length < s.length := by
      rw [heq, List.length_cons]
      omega
    rw [heq, shortened_other hf hb]
    exact other b t hb (shortened_induction hf nil other method hosted kept t)
  · have hpos := List.length_pos_of_ne_nil hne
    have hlen : s.length = r.length + t.length := by rw [heq, List.length_append]
    cases hshort : f r with
    | some n =>
      have hlt : t.length < s.length := by omega
      rw [heq, shortened_method hf hshort ht]
      exact method r t n hshort ht (shortened_induction hf nil other method hosted kept t)
    | none =>
      by_cases hhost : Hosts f r t
      · obtain ⟨rfl, t', rfl, hsome⟩ := hhost
        obtain ⟨n, hn⟩ := Option.isSome_iff_exists.mp hsome
        obtain ⟨t'', ht', hparted⟩ := exists_firstWord t'
        have hs : s = host ++ firstWord t' ++ t'' := by rw [heq, hosted_eq, ← ht']
        have hlt : t''.length < s.length := by
          rw [hs, List.length_append, List.length_append, show host.length = 4 from rfl]
          omega
        rw [hs, shortened_hosted hf hn hparted]
        exact hosted _ t'' n hn hparted (shortened_induction hf nil other method hosted kept t'')
      · have hlt : t.length < s.length := by omega
        rw [heq, shortened_kept hf ⟨hne, hr⟩ ht hshort hhost]
        exact kept r t ⟨hne, hr⟩ ht hshort hhost
          (shortened_induction hf nil other method hosted kept t)
termination_by s.length
decreasing_by
  · exact hlt
  · exact hlt
  · exact hlt
  · exact hlt

theorem parted_shortened (hf : Proper f) (hs : Parted s) : Parted (shortened f s) := by
  cases s with
  | nil => rfl
  | cons b s =>
    rw [shortened_other hf hs]
    exact hs

end OnePass

end Pass

end ActionLog
