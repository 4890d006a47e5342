import ActionLog.Proofs.Method
import Mathlib.Data.List.Nodup

/-!
# Methods shortened one after another

Aliases are applied one after another, each to what the others have left.

* `occurs_shortened` — a pass takes away the methods that have short names, and no other word;
* `shortened_shortened` — two passes are one, if what the first one puts in is no method of the
  second;
* `replaceHits_longName`, `find?_longName` — one alias is a pass with one word, and is used where
  the word stands between word boundaries;
* `Suited` — tables whose aliases keep out of each other's way.

Principal results: `applyAliases_eq` and `shorten_simultaneous` — all aliases are applied at once, in
whatever order the table has them.
-/

set_option autoImplicit false

namespace ActionLog.Pass

open Text

/-! ## One pass after another -/

section Passes

variable {f g : Text → Option Text} {r s t w : Text}

/-- **A pass takes away the methods that have short names, and no other word.** -/
theorem occurs_shortened (hf : Proper f) (hw : IsWord w) (hhost : w ≠ hostName)
    (hnew : ∀ r, f r ≠ some w) (s : Text) :
    Occurs w (shortened f s) ↔ Occurs w s ∧ f w = none := by
  refine shortened_induction hf (motive := fun s o => Occurs w o ↔ Occurs w s ∧ f w = none)
    ?_ ?_ ?_ ?_ ?_ s
  · simp [occurs_nil hw]
  · intro b s hb ih
    rw [occurs_other hw hb, occurs_other hw hb, ih]
  · intro r s n hr hs ih
    have hn : w ≠ n := fun h => hnew r (h ▸ hr)
    have hold : f w = none → w ≠ r := by
      rintro hnone rfl
      rw [hnone] at hr
      cases hr
    rw [occurs_word hw (hf.short hr).1 (parted_shortened hf hs), occurs_word hw (hf.long hr) hs, ih]
    tauto
  · intro w' s n hw' hs ih
    have hn : w ≠ n := fun h => hnew w' (h ▸ hw')
    have hold : f w = none → w ≠ w' := by
      rintro hnone rfl
      rw [hnone] at hw'
      cases hw'
    rw [hosted_eq, occurs_word hw (hf.short hw').1 (parted_shortened hf hs),
      occurs_word hw hostName_isWord (parted_dot _), occurs_other hw rfl, occurs_word hw (hf.long hw') hs, ih]
    tauto
  · intro r s hword hs hr _ ih
    have hold : w = r → f w = none := by
      rintro rfl
      exact hr
    rw [occurs_word hw hword (parted_shortened hf hs), occurs_word hw hword hs, ih]
    tauto

/-- A pass with two tables: the second one has the words that the first one lacks. -/
def both (f g : Text → Option Text) (r : Text) : Option Text := (f r).or (g r)

theorem both_proper (hf : Proper f) (hg : Proper g) : Proper (both f g) where
  long h := by
    rcases Option.or_eq_some_iff.mp h with h | ⟨_, h⟩
    · exact hf.long h
    · exact hg.long h
  short h := by
    rcases Option.or_eq_some_iff.mp h with h | ⟨_, h⟩
    · exact hf.short h
    · exact hg.short h
  host := by rw [both, hf.host, hg.host]; rfl

/-- The first word of a text is a method of the second table before the first pass, if it is one
after it. -/
theorem firstWord_shortened (hf : Proper f) (hg : Proper g) (hfg : ∀ r n, f r = some n → g n = none)
    (s : Text) (hs : f (firstWord s) = none) :
    g (firstWord (shortened f s)) = g (firstWord s) := by
  have hfirst : ∀ {b : UInt8} {s : Text}, Byte.isWord b = false → firstWord (b :: s) = [] :=
    fun hb => firstWord_parted hb
  revert hs
  refine shortened_induction hf
    (motive := fun s o => f (firstWord s) = none → g (firstWord o) = g (firstWord s)) ?_ ?_ ?_ ?_ ?_ s
  · exact fun _ => rfl
  · intro b s hb _ _
    rw [hfirst hb, hfirst hb]
  · intro r s n hr hs _ hnone
    rw [firstWord_append (hf.long hr) hs, hr] at hnone
    cases hnone
  · intro w s n hw hs _ _
    rw [hosted_eq, firstWord_append hostName_isWord (parted_dot _), hg.host,
      firstWord_append (hf.short hw).1 (parted_shortened hf hs), hfg w n hw]
  · intro r s hword hs _ _ _ _
    rw [firstWord_append hword hs, firstWord_append hword (parted_shortened hf hs)]

/-- A host has its method before the first pass, too. -/
theorem hosts_of_shortened (hf : Proper f) (hg : Proper g) (hfg : ∀ r n, f r = some n → g n = none)
    (hs : Parted s) (hhost : ¬ Hosts f r s) (h : Hosts g r (shortened f s)) :
    Hosts (both f g) r s := by
  obtain ⟨rfl, t', ht', hsome⟩ := h
  cases s with
  | nil => cases ht'
  | cons b t =>
    rw [shortened_other hf hs] at ht'
    obtain ⟨rfl, rfl⟩ := List.cons.inj ht'
    have hnone : f (firstWord t) = none := by
      by_contra hword
      exact hhost ⟨rfl, t, rfl, Option.isSome_iff_ne_none.mpr hword⟩
    refine ⟨rfl, t, rfl, ?_⟩
    rwa [both, hnone, Option.none_or, ← firstWord_shortened hf hg hfg t hnone]

/-- **Two passes are one**, if what the first one puts in is no method of the second. -/
theorem shortened_shortened (hf : Proper f) (hg : Proper g)
    (hfg : ∀ r n, f r = some n → g n = none) (s : Text) :
    shortened g (shortened f s) = shortened (both f g) s := by
  have hboth := both_proper hf hg
  refine shortened_induction hf (motive := fun s o => shortened g o = shortened (both f g) s)
    ?_ ?_ ?_ ?_ ?_ s
  · rfl
  · intro b s hb ih
    rw [shortened_other hg hb, shortened_other hboth hb, ih]
  · intro r s n hr hs ih
    have hn : ¬ Hosts g n (shortened f s) := fun h => (hf.short hr).2 h.1
    rw [shortened_kept hg (hf.short hr).1 (parted_shortened hf hs) (hfg r n hr) hn, ih,
      shortened_method hboth (by rw [both, hr]; rfl) hs]
  · intro w s n hw hs ih
    have hn : ¬ Hosts g n (shortened f s) := fun h => (hf.short hw).2 h.1
    rw [shortened_kept hg (hf.short hw).1 (parted_shortened hf hs) (hfg w n hw) hn, ih,
      shortened_hosted hboth (by rw [both, hw]; rfl) hs]
  · intro r s hword hs hr hhost ih
    have hparted := parted_shortened hf hs
    cases hn : g r with
    | some n =>
      rw [shortened_method hg hn hparted, ih, shortened_method hboth (by rw [both, hr, hn]; rfl) hs]
    | none =>
      have hnone : both f g r = none := by rw [both, hr, hn]; rfl
      by_cases hhost' : Hosts (both f g) r s
      · -- the host of a method of the second table: the first pass keeps both
        obtain ⟨rfl, t, rfl, hsome⟩ := hhost'
        have hfirst : f (firstWord t) = none := by
          by_contra hword
          exact hhost ⟨rfl, t, rfl, Option.isSome_iff_ne_none.mpr hword⟩
        rw [both, hfirst, Option.none_or] at hsome
        obtain ⟨n, hw⟩ := Option.isSome_iff_exists.mp hsome
        obtain ⟨t', ht, ht'⟩ := exists_firstWord t
        generalize firstWord t = w at hfirst hw ht
        subst ht
        have hother : ¬ Hosts f w t' := by
          rintro ⟨rfl, _⟩
          rw [hg.host] at hw
          cases hw
        have hw' : both f g w = some n := by rw [both, hfirst, hw]; rfl
        have hkept : shortened f (Byte.dot :: (w ++ t')) = Byte.dot :: (w ++ shortened f t') := by
          rw [shortened_other hf rfl, shortened_kept hf (hg.long hw) ht' hfirst hother]
        have hparted' := parted_shortened hf ht'
        rw [hkept, shortened_other hg rfl, shortened_method hg hw hparted', shortened_other hboth rfl,
          shortened_method hboth hw' ht'] at ih
        rw [hkept, ← hosted_eq, shortened_hosted hg hw hparted', ← hosted_eq,
          shortened_hosted hboth hw' ht']
        exact (List.cons.inj ih).2
      · have hhost'' : ¬ Hosts g r (shortened f s) :=
          fun h => hhost' (hosts_of_shortened hf hg hfg hs hhost h)
        rw [shortened_kept hg hword hparted hn hhost'', ih,
          shortened_kept hboth hword hs hnone hhost']

end Passes

/-! ## One alias -/

/-- One word with its short name. -/
def only (long short r : Text) : Option Text := if r = long then some short else none

section Alias

variable {l n s : Text} {before : Option UInt8}

theorem only_proper (hl : IsWord l) (hn : IsWord n) (hl' : l ≠ hostName) (hn' : n ≠ hostName) :
    Proper (only l n) where
  long h := by
    obtain ⟨rfl, _⟩ := Option.ite_none_right_eq_some.mp h
    exact hl
  short h := by
    obtain ⟨_, heq⟩ := Option.ite_none_right_eq_some.mp h
    cases heq
    exact ⟨hn, hn'⟩
  host := if_neg (Ne.symm hl')

/-- A name between word boundaries is the first word of the text. -/
theorem bounded?_eq (hl : IsWord l) (before : Option UInt8) (s : Text) :
    bounded? l before s =
      if before.any Byte.isWord = false ∧ firstWord s = l then some l.length else none := by
  unfold bounded?
  cases hn : literal? l s with
  | none =>
    have hfirst : firstWord s ≠ l := by
      intro h
      obtain ⟨t, hs, _⟩ := exists_firstWord s
      rw [hs, h, literal?_append hl.isRun] at hn
      cases hn
    rw [if_neg fun h => hfirst h.2]
    rfl
  | some k =>
    obtain ⟨t, rfl, rfl⟩ := literal?_eq_some hl.isRun hn
    have hlast : l.getLast?.any Byte.isWord = true := hl.last []
    simp only [Option.bind_eq_bind, Option.bind_some, List.take_left, List.drop_left, isBoundary,
      hl.head t, hlast, firstWord_append_iff hl, Parted]
    cases before.any Byte.isWord <;> cases t.head?.any Byte.isWord <;> rfl

/-- The search for a long method looks for the method as a word, and for the host before it. -/
theorem longName_eq (hl : IsWord l) (n : Text) (before : Option UInt8) (s : Text) :
    (longName l before s).map (fun (k, _) => (k, n)) = methodUse (only l n) before s := by
  have hword : ∀ s, wordUse (only l n) s =
      if firstWord s = l then some (l.length, n) else none := by
    intro s
    unfold wordUse only
    split
    · rename_i h
      rw [h]
      rfl
    · rfl
  unfold longName methodUse
  simp only [bounded?_eq hl, hword]
  cases hhost : after? host s with
  | none => cases before.any Byte.isWord <;> by_cases h : firstWord s = l <;> simp [h]
  | some m =>
    have hhead : s.head?.any Byte.isWord = true := by
      rw [after?_eq_some.mp hhost]
      rfl
    have hdot : host.getLast?.any Byte.isWord = false := by decide +kernel
    simp only [Option.bind_eq_bind, Option.bind_some, isBoundary, hhead, hdot]
    cases before.any Byte.isWord <;> by_cases h : firstWord s = l <;>
      by_cases h' : firstWord m = l <;> simp [h, h']

theorem methodUse_basic {f : Text → Option Text} (hf : Proper f) : (methodUse f).Basic := by
  intro before b s hb
  exact methodUse_parted hf (isWord_of_not_isName (isName_of_high hb))

/-- A method is used somewhere, if one of the words with short names stands in the text. -/
theorem exists_methodUse {f : Text → Option Text} (hf : Proper f) :
    (∃ u v, s = u ++ v ∧ v ≠ [] ∧ methodUse f u.getLast? v ≠ none) ↔
      ∃ w, f w ≠ none ∧ Occurs w s := by
  constructor
  · rintro ⟨u, v, rfl, _, huse⟩
    have hbefore : u.getLast?.any Byte.isWord = false := by
      by_contra h
      exact huse (methodUse_inside (by simpa using h))
    by_cases hword : f (firstWord v) = none
    · rw [methodUse, wordUse, hword, Option.map_none, Option.or_none, ite_ne_left_iff] at huse
      obtain ⟨m, hm⟩ : ∃ m, after? host v = some m := by
        refine Option.ne_none_iff_exists'.mp fun h => huse.2 ?_
        rw [h]
        rfl
      obtain ⟨t, ht, hparted⟩ := exists_firstWord m
      refine ⟨firstWord m, fun h => huse.2 ?_, u ++ host, t, ?_, ?_, hparted⟩
      · rw [hm, Option.bind_some, wordUse, h]
        rfl
      · rw [after?_eq_some.mp hm, List.append_assoc, List.append_assoc, ← ht]
      · rw [host_eq, ← List.append_assoc, List.getLast?_concat]
        rfl
    · obtain ⟨t, ht, hparted⟩ := exists_firstWord v
      exact ⟨firstWord v, hword, u, t, by rw [List.append_assoc, ← ht], hbefore, hparted⟩
  · rintro ⟨w, hw, u, v, rfl, hu, hv⟩
    obtain ⟨n, hn⟩ := Option.ne_none_iff_exists'.mp hw
    refine ⟨u, w ++ v, by simp, by simp [(hf.long hn).ne_nil], ?_⟩
    rw [methodUse_method hf hu hn hv]
    simp

/-- A text in which no method stands is kept. -/
theorem shortened_of_not_occurs {f : Text → Option Text} (hf : Proper f)
    (h : ∀ w, f w ≠ none → ¬ Occurs w s) : shortened f s = s := by
  have hkept : replaceHitsFrom .byte (methodUse f) none 0 (s ++ []) = s ++ [] := by
    refine replaceHitsFrom_keep fun u v huv hv => ?_
    rw [Option.or_none, List.append_nil]
    by_contra huse
    obtain ⟨w, hw, hoccurs⟩ := (exists_methodUse hf).mp ⟨u, v, huv, hv, huse⟩
    exact h w hw hoccurs
  rwa [List.append_nil] at hkept

/-- **A long method is found where it stands between word boundaries.** -/
theorem find?_longName (hl : IsWord l) (hl' : l ≠ hostName) (s : Text) :
    find? .char (longName l) s = none ↔ ¬ Occurs l s := by
  have hnone : ∀ before rest, longName l before rest = none ↔
      methodUse (only l l) before rest = none := by
    intro before rest
    rw [← longName_eq hl l, Option.map_eq_none_iff]
  have hproper := only_proper hl hl hl' hl'
  have hbasic : (longName l).Basic :=
    fun before b s hb => (hnone before (b :: s)).mpr (methodUse_basic hproper before b s hb)
  unfold find? findAll
  rw [List.head?_eq_none_iff, findAllFrom_grain hbasic, findAllFrom_eq_nil]
  have hused := exists_methodUse (s := s) hproper
  constructor
  · intro h hoccurs
    obtain ⟨u, v, hs, hne, huse⟩ := hused.mpr ⟨l, by simp [only], hoccurs⟩
    have hplace := h u v hs hne
    rw [Option.or_none, hnone] at hplace
    exact huse hplace
  · intro h u v hs hne
    rw [Option.or_none, hnone]
    by_contra huse
    obtain ⟨w, hw, hoccurs⟩ := hused.mp ⟨u, v, hs, hne, huse⟩
    have heq : w = l := by
      by_contra hne
      exact hw (if_neg hne)
    exact h (heq ▸ hoccurs)

/-- **Replacing a long method is a pass with one word.** -/
theorem replaceHits_longName (hl : IsWord l) (hn : IsWord n) (hl' : l ≠ hostName)
    (hn' : n ≠ hostName) (s : Text) :
    replaceHits .char (fun before rest => (longName l before rest).map fun (k, _) => (k, n)) s =
      shortened (only l n) s := by
  have hpattern : (fun before rest => (longName l before rest).map fun (k, _) => (k, n)) =
      methodUse (only l n) := by
    funext before rest
    exact longName_eq hl n before rest
  rw [hpattern]
  exact replaceHitsFrom_grain (methodUse_basic (only_proper hl hn hl' hn')) s none 0

end Alias

/-! ## A table of aliases -/

/-- Long methods and short names are words other than the host; no long method has two short names,
and no short name is a long method. -/
structure Suited (aliases : List Alias) : Prop where
  long : ∀ a ∈ aliases, IsWord a.long ∧ a.long ≠ hostName
  short : ∀ a ∈ aliases, IsWord a.short ∧ a.short ≠ hostName
  distinct : (aliases.map Alias.long).Nodup
  apart : ∀ a ∈ aliases, ∀ a' ∈ aliases, a.short ≠ a'.long

/-- The short name of a long method. -/
def shortOf (aliases : List Alias) (r : Text) : Option Text :=
  (aliases.find? fun a => a.long = r).map Alias.short

section Table

variable {aliases : List Alias} {a : Alias} {r n s : Text}

theorem mem_of_shortOf (h : shortOf aliases r = some n) :
    ∃ a ∈ aliases, a.long = r ∧ a.short = n := by
  obtain ⟨a, ha, rfl⟩ := Option.map_eq_some_iff.mp h
  exact ⟨a, List.mem_of_find?_eq_some ha, by simpa using List.find?_some ha, rfl⟩

theorem Suited.shortOf_long (h : Suited aliases) (ha : a ∈ aliases) :
    shortOf aliases a.long = some a.short := by
  cases hfind : shortOf aliases a.long with
  | none =>
    rw [shortOf, Option.map_eq_none_iff, List.find?_eq_none] at hfind
    exact absurd (by simp) (hfind a ha)
  | some n =>
    obtain ⟨a', ha', hlong, rfl⟩ := mem_of_shortOf hfind
    rw [List.inj_on_of_nodup_map h.distinct ha' ha hlong]

theorem Suited.proper (h : Suited aliases) : Proper (shortOf aliases) where
  long hn := by
    obtain ⟨a, ha, rfl, _⟩ := mem_of_shortOf hn
    exact (h.long a ha).1
  short hn := by
    obtain ⟨a, ha, _, rfl⟩ := mem_of_shortOf hn
    exact h.short a ha
  host := by
    cases hn : shortOf aliases hostName with
    | none => rfl
    | some n =>
      obtain ⟨a, ha, hlong, _⟩ := mem_of_shortOf hn
      exact absurd hlong (h.long a ha).2

theorem Suited.tail (h : Suited (a :: aliases)) : Suited aliases where
  long a' ha' := h.long a' (List.mem_cons_of_mem a ha')
  short a' ha' := h.short a' (List.mem_cons_of_mem a ha')
  distinct := (List.nodup_cons.mp h.distinct).2
  apart a' ha' a'' ha'' := h.apart a' (List.mem_cons_of_mem a ha') a'' (List.mem_cons_of_mem a ha'')

theorem Suited.perm (h : Suited aliases) {aliases' : List Alias} (hp : aliases'.Perm aliases) :
    Suited aliases' where
  long a ha := h.long a (hp.subset ha)
  short a ha := h.short a (hp.subset ha)
  distinct := (hp.map Alias.long).nodup_iff.mpr h.distinct
  apart a ha a' ha' := h.apart a (hp.subset ha) a' (hp.subset ha')

theorem shortOf_perm (h : Suited aliases) {aliases' : List Alias} (hp : aliases'.Perm aliases) :
    shortOf aliases' = shortOf aliases := by
  funext r
  cases hr : shortOf aliases' r with
  | some n =>
    obtain ⟨a, ha, rfl, rfl⟩ := mem_of_shortOf hr
    exact (h.shortOf_long (hp.subset ha)).symm
  | none =>
    cases hr' : shortOf aliases r with
    | none => rfl
    | some n =>
      obtain ⟨a, ha, rfl, rfl⟩ := mem_of_shortOf hr'
      rw [(h.perm hp).shortOf_long (hp.symm.subset ha)] at hr
      cases hr

theorem shortOf_cons : shortOf (a :: aliases) = both (only a.long a.short) (shortOf aliases) := by
  funext r
  unfold shortOf both only
  rw [List.find?_cons]
  by_cases hr : a.long = r
  · simp [hr]
  · simp [hr, Ne.symm hr]

section Step

variable (h : Suited (a :: aliases)) (s : Text)

include h

theorem Suited.only_proper : Proper (only a.long a.short) :=
  Pass.only_proper (h.long a List.mem_cons_self).1 (h.short a List.mem_cons_self).1
    (h.long a List.mem_cons_self).2 (h.short a List.mem_cons_self).2

/-- The other aliases are applied to what the first one leaves. -/
theorem Suited.shortened_step :
    shortened (shortOf aliases) (shortened (only a.long a.short) s) =
      shortened (shortOf (a :: aliases)) s := by
  rw [shortOf_cons]
  refine shortened_shortened h.only_proper h.tail.proper (fun r n hr => ?_) s
  cases hn : shortOf aliases n with
  | none => rfl
  | some n' =>
    obtain ⟨_, heq⟩ := Option.ite_none_right_eq_some.mp hr
    obtain ⟨a', ha', hlong, _⟩ := mem_of_shortOf hn
    rw [← Option.some.inj heq] at hlong
    exact absurd hlong.symm (h.apart a List.mem_cons_self a' (List.mem_cons_of_mem a ha'))

/-- The first alias neither makes nor takes away a use of another one. -/
theorem Suited.filter_step :
    (aliases.filter fun a' => Occurs a'.long (shortened (only a.long a.short) s)) =
      aliases.filter fun a' => Occurs a'.long s := by
  refine List.filter_congr fun a' ha' => ?_
  have hmem := List.mem_cons_of_mem a ha'
  have hother : only a.long a.short a'.long = none := by
    refine if_neg fun heq => (List.nodup_cons.mp h.distinct).1 ?_
    rw [← heq]
    exact List.mem_map_of_mem ha'
  have hnew : ∀ r, only a.long a.short r ≠ some a'.long := by
    intro r hr
    obtain ⟨_, heq⟩ := Option.ite_none_right_eq_some.mp hr
    exact h.apart a List.mem_cons_self a' hmem (Option.some.inj heq)
  rw [decide_eq_decide, occurs_shortened h.only_proper (h.long a' hmem).1 (h.long a' hmem).2 hnew]
  exact and_iff_left hother

end Step

/-- **Aliases that are applied one after another are applied at once**, and those are used that stand
in the text at the start. -/
theorem applyAliases_eq (h : Suited aliases) : ∀ s, applyAliases aliases s =
    (shortened (shortOf aliases) s, aliases.filter fun a => Occurs a.long s) := by
  induction aliases with
  | nil =>
    intro s
    rw [shortened_of_not_occurs h.proper fun w hw => absurd rfl hw]
    rfl
  | cons a aliases ih =>
    intro s
    obtain ⟨hlong, hlong'⟩ := h.long a List.mem_cons_self
    obtain ⟨hshort, hshort'⟩ := h.short a List.mem_cons_self
    have hone := replaceHits_longName hlong hshort hlong' hshort' s
    rw [applyAliases]
    by_cases hoccurs : Occurs a.long s
    · have hfound : find? .char (longName a.long) s ≠ none :=
        fun hnone => (find?_longName hlong hlong' s).mp hnone hoccurs
      rw [if_neg (by simp [hlong.ne_nil, hfound]), hone]
      dsimp only
      rw [ih h.tail, h.shortened_step, h.filter_step,
        List.filter_cons_of_pos (by simpa using hoccurs)]
    · have hnone := (find?_longName hlong hlong' s).mpr hoccurs
      have hsame : shortened (only a.long a.short) s = s := by
        refine shortened_of_not_occurs h.only_proper fun w hw => ?_
        rwa [of_not_not fun hne => hw (if_neg hne)]
      have hstep := h.shortened_step s
      rw [hsame] at hstep
      rw [if_pos (by simp [hnone]), ih h.tail, hstep,
        List.filter_cons_of_neg (by simpa using hoccurs)]

end Table

/-- **Shortening one method after another is one simultaneous pass.**  A text in which no long method
stands between word boundaries is kept.  Otherwise the helper lines of those that do stand in it are
put in front, in the order of the table, and a blank line.  The rest is the text with all long
methods, and the hosts right before them, replaced in one pass from the left; it is the same for
every order of the table, and no long method is left in it. -/
theorem shorten_simultaneous {aliases : List Alias} (h : Suited aliases) (s : Text) :
    (∀ aliases' : List Alias, aliases'.Perm aliases → shorten aliases' s = .ok
      (if ∀ a ∈ aliases, ¬ Occurs a.long s then s
      else unlines ((aliases'.filter fun a => Occurs a.long s).map Alias.helperLine) ++
        utf8 "\n\n" ++ shortened (shortOf aliases) s)) ∧
    ∀ a ∈ aliases, ¬ Occurs a.long (shortened (shortOf aliases) s) := by
  constructor
  · intro aliases' hp
    rw [shorten_eq fun a ha => isValid_of_isRun (h.long a (hp.subset ha)).1.isRun, withHelpers,
      applyAliases_eq (h.perm hp), shortOf_perm h hp]
    refine congrArg Except.ok ?_
    by_cases hnone : ∀ a ∈ aliases, ¬ Occurs a.long s
    · have hfilter : (aliases'.filter fun a => Occurs a.long s) = [] := by
        rw [List.filter_eq_nil_iff]
        intro a ha
        simpa using hnone a (hp.subset ha)
      have hsame : shortened (shortOf aliases) s = s := by
        refine shortened_of_not_occurs h.proper fun w hw => ?_
        obtain ⟨n, hn⟩ := Option.ne_none_iff_exists'.mp hw
        obtain ⟨a, ha, rfl, _⟩ := mem_of_shortOf hn
        exact hnone a ha
      rw [if_pos hnone, hfilter, hsame]
    · have hfilter : (aliases'.filter fun a => Occurs a.long s) ≠ [] := by
        intro hnil
        rw [List.filter_eq_nil_iff] at hnil
        exact hnone fun a ha => by simpa using hnil a (hp.symm.subset ha)
      rw [if_neg hnone]
      obtain ⟨a, used, hused⟩ := List.exists_cons_of_ne_nil hfilter
      rw [hused]
  · intro a ha hoccurs
    have hnew : ∀ r, shortOf aliases r ≠ some a.long := by
      intro r hr
      obtain ⟨a', ha', _, hshort⟩ := mem_of_shortOf hr
      exact h.apart a' ha' a ha hshort
    obtain ⟨hword, hother⟩ := h.long a ha
    have hnone := ((occurs_shortened h.proper hword hother hnew s).mp hoccurs).2
    rw [h.shortOf_long ha] at hnone
    cases hnone

/-- Three aliases, one of them with a helper line of its own. -/
def threeAliases : List Alias :=
  [⟨utf8 "stringIDToTypeID", utf8 "s2t", []⟩, ⟨utf8 "charIDToTypeID", utf8 "c2t", utf8 "c2t();"⟩,
    ⟨utf8 "typeIDToStringID", utf8 "t2s", []⟩]

/-- Methods with and without their host, and a word that only starts like one. -/
def hostedCalls : Text :=
  utf8 "app.charIDToTypeID(a, xapp.stringIDToTypeID);\napp.app.charIDToTypeID;typeIDToStringIDs"

theorem shorten_simultaneous_hosted :
    shorten threeAliases.reverse hostedCalls = .ok
      (utf8 "c2t();\nvar s2t = function (s) \x7b return app.stringIDToTypeID(s); \x7d;\n\n" ++
        utf8 "c2t(a, xapp.s2t);\napp.c2t;typeIDToStringIDs") ∧
    ∀ a ∈ threeAliases, ¬ Occurs a.long (shortened (shortOf threeAliases) hostedCalls) := by
  have hsuited : Suited threeAliases :=
    ⟨by decide +kernel, by decide +kernel, by decide +kernel, by decide +kernel⟩
  have hall := shorten_simultaneous hsuited hostedCalls
  refine ⟨(hall.1 threeAliases.reverse (List.reverse_perm threeAliases)).trans ?_, hall.2⟩
  decide +kernel

end ActionLog.Pass
