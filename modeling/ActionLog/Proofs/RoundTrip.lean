import ActionLog.Log.Entry
import ActionLog.Proofs.Occurrence

/-!
# Logs written and read again

Entries are written with a blank line and a separator between them.  A separator ends with its only
newline, so an entry can be mistaken for a separator in one way: it ends with all of a separator but
the newline, and the blank line begins with one.

* `rule` — the separator without its newline;
* `IsEntry` — the texts that can be entries of a log;
* `reread` — what is read of an entry that others follow; `entries_write` says that this is read
  entry by entry;
* `isEntry_of_mem` — what is read from any log is an entry, but for carriage returns before newlines.

Principal results: `entries_write_iff` — which entries are read back from the log that they are
written to; `entries_rewritten_iff` — which logs keep their entries when they are written anew.
-/

set_option autoImplicit false

namespace ActionLog.Log

open Text (crlf)

/-! ## Separators and rules -/

/-- The separator without its newline. -/
def rule : Text := separator.dropLast

theorem separator_eq : separator = rule ++ [Byte.newline] := by decide +kernel

theorem separator_ne_nil : separator ≠ [] := by
  rw [separator_eq]
  simp

theorem rule_bytes : rule ≠ [] ∧ Byte.newline ∉ rule ∧ Byte.carriageReturn ∉ rule := by
  decide +kernel

/-- Where a separator can occur around a newline. -/
theorem separator_isInfix (u v : Text) : separator <:+: u ++ Byte.newline :: v ↔
    separator <:+: u ∨ rule <:+ u ∨ separator <:+: v := by
  rw [separator_eq]
  exact Text.infix_newline rule_bytes.2.1 u v

theorem not_separator_rule : ¬ separator <:+: rule := by
  rw [separator_eq]
  exact Text.not_infix_of_not_mem rule_bytes.2.1

/-- A rule at the front of a line is no separator either. -/
theorem not_separator_newline_rule : ¬ separator <:+: [Byte.newline] ++ rule := by
  intro h
  rcases (separator_isInfix [] rule).mp h with h | h | h
  · exact separator_ne_nil (List.infix_nil.mp h)
  · exact rule_bytes.1 (List.suffix_nil.mp h)
  · exact not_separator_rule h

/-- What stands between an entry and the next one: a blank line and a separator. -/
def seam : Text := utf8 "\n\n" ++ separator

theorem seam_eq : seam = Byte.newline :: Byte.newline :: separator := by decide +kernel

/-- Texts that can be entries of a log. -/
structure IsEntry (e : Text) : Prop where
  ne_nil : e ≠ []
  trimmed : Text.trim e = e
  plain : ¬ crlf <:+: e
  unseparated : ¬ separator <:+: e

theorem isEntry_iff {e : Text} : IsEntry e ↔
    e ≠ [] ∧ Text.trim e = e ∧ ¬ crlf <:+: e ∧ ¬ separator <:+: e :=
  ⟨fun h => ⟨h.1, h.2, h.3, h.4⟩, fun h => ⟨h.1, h.2.1, h.2.2.1, h.2.2.2⟩⟩

instance (e : Text) : Decidable (IsEntry e) := decidable_of_iff _ isEntry_iff.symm

/-! ## What is read -/

/-- The entry that the text between two separators is, if it is one. -/
def entryOf (t : Text) : List Text := [Text.trim t].filter (· != [])

/-- The entries of a log with plain newlines. -/
def parts (s : Text) : List Text := ((Text.splitOn separator s).map Text.trim).filter (· != [])

theorem entries_eq (log : Text) : entries log = parts (Text.unixLines log) := rfl

theorem parts_single {s : Text} (h : ¬ separator <:+: s) : parts s = entryOf s := by
  unfold parts entryOf
  rw [Text.splitOn_single h]
  rfl

theorem parts_first {l : Text} (h : ¬ separator <:+: l ++ rule) (r : Text) :
    parts (l ++ separator ++ r) = entryOf l ++ parts r := by
  unfold parts entryOf
  rw [Text.splitOn_first h, ← List.filter_append]
  rfl

theorem entryOf_append_gaps {e w : Text} (he : IsEntry e) (hw : ∀ b ∈ w, Byte.isGap b = true) :
    entryOf (e ++ w) = [e] := by
  unfold entryOf
  rw [Text.trim_append_gaps hw, he.trimmed]
  simp [he.ne_nil]

theorem entryOf_entry {e : Text} (he : IsEntry e) : entryOf e = [e] := by
  have h := entryOf_append_gaps he (List.forall_mem_nil _)
  rwa [List.append_nil] at h

theorem flatten_entryOf_length (t : Text) : (entryOf t).flatten.length ≤ t.length := by
  have hlen := (Text.trim_isInfix t).length_le
  have hread : entryOf t = [Text.trim t] ∨ entryOf t = [] := by
    unfold entryOf
    rw [List.filter_cons]
    split
    · exact .inl rfl
    · exact .inr rfl
  rcases hread with hread | hread
  · rw [hread]
    simpa using hlen
  · rw [hread]
    exact Nat.zero_le _

/-- What is read of an entry that a blank line and a separator follow.  A rule at its end is taken
for a separator. -/
def reread (e : Text) : List Text :=
  if rule <:+ e then entryOf (e.take (e.length - rule.length)) else [e]

theorem parts_seam {e : Text} (he : IsEntry e) (s : Text) :
    parts (e ++ seam ++ s) = reread e ++ parts s := by
  unfold reread
  split
  · rename_i hrule
    obtain ⟨x, rfl⟩ := hrule
    have hcut : x ++ rule ++ seam ++ s =
        x ++ separator ++ ([Byte.newline] ++ separator ++ s) := by
      simp [seam_eq, separator_eq]
    have hblank : entryOf [Byte.newline] = [] := by decide +kernel
    have hfront : (x ++ rule).take ((x ++ rule).length - rule.length) = x := by simp
    rw [hcut, hfront, parts_first he.unseparated, parts_first not_separator_newline_rule, hblank,
      List.nil_append]
  · rename_i hrule
    have hcut : e ++ seam ++ s = (e ++ [Byte.newline, Byte.newline]) ++ separator ++ s := by
      simp [seam_eq]
    have hfirst : ¬ separator <:+: e ++ [Byte.newline, Byte.newline] ++ rule := by
      rw [List.append_assoc]
      intro h
      rcases (separator_isInfix e ([Byte.newline] ++ rule)).mp h with h | h | h
      · exact he.unseparated h
      · exact hrule h
      · exact not_separator_newline_rule h
    have hgaps : ∀ b ∈ [Byte.newline, Byte.newline], Byte.isGap b = true := by decide +kernel
    rw [hcut, parts_first hfirst, entryOf_append_gaps he hgaps]

theorem join_cons_cons (sep e e' : Text) (es : List Text) :
    Text.join sep (e :: e' :: es) = e ++ sep ++ Text.join sep (e' :: es) :=
  List.intercalate_cons_cons

theorem join_singleton (sep e : Text) : Text.join sep [e] = e := by
  simp [Text.join]

/-- **Entries are read one by one**: the last as it is, the others as they are followed. -/
theorem parts_join : ∀ {es : List Text}, es ≠ [] → (∀ e ∈ es, IsEntry e) →
    parts (Text.join seam es) = es.dropLast.flatMap reread ++ es.getLast?.toList
  | [], hne, _ => absurd rfl hne
  | [e], _, hes => by
    have he : IsEntry e := hes e List.mem_cons_self
    rw [join_singleton, parts_single he.unseparated, entryOf_entry he]
    rfl
  | e :: e' :: es, _, hes => by
    have ih := parts_join (List.cons_ne_nil e' es) fun x hx => hes x (List.mem_cons_of_mem _ hx)
    rw [join_cons_cons, parts_seam (hes e List.mem_cons_self), ih, List.dropLast_cons_cons,
      List.flatMap_cons, List.getLast?_cons_cons, List.append_assoc]

/-! ## What is written -/

theorem write_true {es : List Text} (hne : es ≠ []) :
    write true es = separator ++ Text.join seam es := by
  match es, hne with
  | [], hne => exact absurd rfl hne
  | [e], _ => rw [join_singleton]; rfl
  | e :: e' :: es, _ => rfl

/-- Several entries are separated in any case. -/
theorem write_several (separated : Bool) (e e' : Text) (es : List Text) :
    write separated (e :: e' :: es) = write true (e :: e' :: es) := rfl

/-- Where a carriage return before a newline can occur around a newline. -/
theorem crlf_isInfix (u v : Text) : crlf <:+: u ++ Byte.newline :: v ↔
    crlf <:+: u ∨ [Byte.carriageReturn] <:+ u ∨ crlf <:+: v :=
  Text.infix_newline (by decide : Byte.newline ∉ [Byte.carriageReturn]) u v

theorem IsEntry.not_crlf_newline {e v : Text} (he : IsEntry e) (hv : ¬ crlf <:+: v) :
    ¬ crlf <:+: e ++ Byte.newline :: v := by
  intro h
  rcases (crlf_isInfix e v).mp h with h | h | h
  · exact he.plain h
  · exact (Text.bare_of_trimmed he.trimmed _ (by decide)).2 h
  · exact hv h

theorem not_crlf_separator {v : Text} (hv : ¬ crlf <:+: v) : ¬ crlf <:+: separator ++ v := by
  rw [separator_eq, List.append_assoc]
  intro h
  rcases (crlf_isInfix rule v).mp h with h | h | h
  · exact rule_bytes.2.1 (h.subset (by decide))
  · exact rule_bytes.2.2 (h.subset List.mem_cons_self)
  · exact hv h

theorem not_crlf_newline {v : Text} (hv : ¬ crlf <:+: v) : ¬ crlf <:+: Byte.newline :: v := by
  intro h
  rcases (crlf_isInfix [] v).mp h with h | h | h
  · exact absurd h (by decide)
  · exact absurd h (by decide)
  · exact hv h

/-- Between entries no carriage return comes before a newline. -/
theorem not_crlf_join : ∀ {es : List Text}, (∀ e ∈ es, IsEntry e) → ¬ crlf <:+: Text.join seam es
  | [], _ => by decide
  | [e], hes => by
    rw [join_singleton]
    exact (hes e List.mem_cons_self).plain
  | e :: e' :: es, hes => by
    have ih : ¬ crlf <:+: Text.join seam (e' :: es) :=
      not_crlf_join fun x hx => hes x (List.mem_cons_of_mem _ hx)
    rw [join_cons_cons, seam_eq, List.append_assoc, List.cons_append, List.cons_append]
    exact (hes e List.mem_cons_self).not_crlf_newline (not_crlf_newline (not_crlf_separator ih))

theorem unixLines_write {es : List Text} (hne : es ≠ []) (hes : ∀ e ∈ es, IsEntry e) :
    Text.unixLines (write true es) = write true es := by
  apply Text.unixLines_eq_self
  rw [write_true hne]
  exact not_crlf_separator (not_crlf_join hes)

/-- **What is read from a log that entries were written to.** -/
theorem entries_write {es : List Text} (hne : es ≠ []) (hes : ∀ e ∈ es, IsEntry e) :
    entries (write true es) = es.dropLast.flatMap reread ++ es.getLast?.toList := by
  have hempty : entryOf [] = [] := by decide +kernel
  have hfront : parts (separator ++ Text.join seam es) = entryOf [] ++ parts (Text.join seam es) :=
    parts_first (l := []) not_separator_rule _
  rw [entries_eq, unixLines_write hne hes, write_true hne, hfront, hempty, List.nil_append,
    parts_join hne hes]

theorem entries_alone {e : Text} (he : IsEntry e) : entries e = [e] := by
  rw [entries_eq, Text.unixLines_eq_self he.plain, parts_single he.unseparated, entryOf_entry he]

/-! ## Which entries are read back -/

/-- Of an entry that ends with a rule, less is read than was written. -/
theorem reread_length (e : Text) : (reread e).flatten.length ≤ e.length ∧
    (rule <:+ e → (reread e).flatten.length < e.length) := by
  unfold reread
  split
  · rename_i hrule
    have hpos := List.length_pos_iff.mpr rule_bytes.1
    have hle := hrule.length_le
    have hread := flatten_entryOf_length (e.take (e.length - rule.length))
    rw [List.length_take] at hread
    constructor
    · omega
    · intro _
      omega
  · rename_i hrule
    exact ⟨by simp, fun h => absurd h hrule⟩

theorem flatMap_reread_length (es : List Text) :
    (es.flatMap reread).flatten.length ≤ es.flatten.length ∧
      ((∃ e ∈ es, rule <:+ e) → (es.flatMap reread).flatten.length < es.flatten.length) := by
  induction es with
  | nil => simp
  | cons e es ih =>
    obtain ⟨hle, hlt⟩ := reread_length e
    simp only [List.flatMap_cons, List.flatten_append, List.flatten_cons, List.length_append]
    constructor
    · omega
    · rintro ⟨x, hx, hrule⟩
      rcases List.mem_cons.mp hx with rfl | hx
      · have := hlt hrule
        omega
      · have := ih.2 ⟨x, hx, hrule⟩
        omega

theorem flatMap_reread_iff (es : List Text) :
    es.flatMap reread = es ↔ ∀ e ∈ es, ¬ rule <:+ e := by
  constructor
  · intro h e he hrule
    have hlt := (flatMap_reread_length es).2 ⟨e, he, hrule⟩
    rw [h] at hlt
    omega
  · intro h
    induction es with
    | nil => rfl
    | cons e es ih =>
      have he : reread e = [e] := if_neg (h e List.mem_cons_self)
      rw [List.flatMap_cons, he, ih fun x hx => h x (List.mem_cons_of_mem _ hx)]
      rfl

theorem entries_write_eq_iff {es : List Text} (hne : es ≠ []) (hes : ∀ e ∈ es, IsEntry e) :
    entries (write true es) = es ↔ ∀ e ∈ es.dropLast, ¬ rule <:+ e := by
  have hlast : es.dropLast ++ es.getLast?.toList = es := by
    rw [List.getLast?_eq_some_getLast hne]
    exact List.dropLast_append_getLast hne
  rw [entries_write hne hes, ← flatMap_reread_iff]
  constructor
  · intro h
    apply List.append_cancel_right
    exact h.trans hlast.symm
  · intro h
    rw [h, hlast]

/-- **Entries are read back from the log that they are written to unless one that others follow ends
with a rule.**  The log is separated.  A single entry that is written without a separator is always
read back, and its log is not separated. -/
theorem entries_write_iff (es : List Text) (hne : es ≠ []) (hes : ∀ e ∈ es, IsEntry e) :
    isSeparated (write true es) = true ∧
    (entries (write true es) = es ↔ ∀ e ∈ es.dropLast, ¬ rule <:+ e) ∧
    ∀ e ∈ es, entries (write false [e]) = [e] ∧ isSeparated (write false [e]) = false := by
  refine ⟨?_, entries_write_eq_iff hne hes, ?_⟩
  · unfold isSeparated
    rw [unixLines_write hne hes, Text.includes_iff, write_true hne]
    exact (List.prefix_append _ _).isInfix
  · intro e he
    refine ⟨entries_alone (hes e he), ?_⟩
    show Text.includes separator (Text.unixLines e) = false
    rw [Text.unixLines_eq_self (hes e he).plain, ← Bool.not_eq_true, Text.includes_iff]
    exact (hes e he).unseparated

/-- Entries with rules in them, one of them at the end of the last entry. -/
def ruledEntries : List Text := [rule ++ utf8 ";", utf8 "a\n" ++ rule ++ utf8 " \nb", rule]

/-- A rule does no harm where anything but a newline follows it. -/
theorem entries_write_iff_ruled :
    ruledEntries ≠ [] ∧ (∀ e ∈ ruledEntries, IsEntry e) ∧
    (∀ e ∈ ruledEntries.dropLast, ¬ rule <:+ e) ∧
    entries (write true ruledEntries) = ruledEntries ∧ entries (write false [rule]) = [rule] := by
  have hne : ruledEntries ≠ [] := by decide +kernel
  have hes : ∀ e ∈ ruledEntries, IsEntry e := by decide +kernel
  have hends : ∀ e ∈ ruledEntries.dropLast, ¬ rule <:+ e := by decide +kernel
  obtain ⟨_, hback, halone⟩ := entries_write_iff ruledEntries hne hes
  exact ⟨hne, hes, hends, hback.mpr hends, (halone rule (by decide +kernel)).1⟩

/-- Of an entry that is a rule nothing is read. -/
example : entries (write true [rule, utf8 "a"]) = [utf8 "a"] := by decide +kernel

/-! ## Logs written anew -/

/-- An entry is what trimming leaves of the text between two separators. -/
theorem exists_of_mem_entries {log e : Text} (he : e ∈ entries log) :
    ∃ t ∈ Text.splitOn separator (Text.unixLines log), e = Text.trim t ∧ e ≠ [] := by
  rw [entries_eq, parts, List.mem_filter, List.mem_map] at he
  obtain ⟨⟨t, ht, rfl⟩, hne⟩ := he
  exact ⟨t, ht, rfl, by simpa using hne⟩

/-- **What is read from a log is an entry**, if no carriage return comes before a newline in it. -/
theorem isEntry_of_mem {log e : Text} (he : e ∈ entries log) (hcr : ¬ crlf <:+: e) : IsEntry e := by
  obtain ⟨t, ht, rfl, hne⟩ := exists_of_mem_entries he
  exact ⟨hne, Text.trim_trim t, hcr,
    fun h => Text.not_infix_splitOn separator_ne_nil ht (h.trans (Text.trim_isInfix t))⟩

theorem flatten_trimmed (ts : List Text) :
    (((ts.map Text.trim).filter (· != [])).flatten).Sublist ts.flatten := by
  induction ts with
  | nil => exact List.Sublist.refl _
  | cons t ts ih =>
    rw [List.map_cons, List.filter_cons, List.flatten_cons]
    split
    · rw [List.flatten_cons]
      exact (Text.trim_isInfix t).sublist.append ih
    · exact ih.trans (List.sublist_append_right t _)

/-- Reading adds no carriage return. -/
theorem count_entries (log : Text) : (entries log).flatten.count Byte.carriageReturn ≤
    (Text.unixLines log).count Byte.carriageReturn := by
  have hsub : ((entries log).flatten).Sublist (Text.unixLines log) :=
    (flatten_trimmed _).trans (Text.flatten_splitOn separator_ne_nil _)
  exact hsub.count_le _

/-- Neither does writing. -/
theorem count_join : ∀ es : List Text, (Text.join seam es).count Byte.carriageReturn =
    es.flatten.count Byte.carriageReturn
  | [] => rfl
  | [e] => by simp [join_singleton]
  | e :: e' :: es => by
    have hseam : seam.count Byte.carriageReturn = 0 := by decide +kernel
    rw [join_cons_cons, List.count_append, List.count_append, hseam, count_join (e' :: es),
      Nat.add_zero, ← List.count_append]
    rfl

theorem infix_join {e : Text} : ∀ {es : List Text}, e ∈ es → e <:+: Text.join seam es
  | [x], he => by
    rw [List.mem_singleton.mp he, join_singleton]
  | x :: x' :: es, he => by
    rw [join_cons_cons]
    rcases List.mem_cons.mp he with rfl | he
    · rw [List.append_assoc]
      exact (List.prefix_append e _).isInfix
    · exact (infix_join he).trans (List.suffix_append _ _).isInfix

/-- A log holds its entries and what separates them, after a separator or without one. -/
theorem write_cases (separated : Bool) (es : List Text) :
    write separated es = Text.join seam es ∨ write separated es = separator ++ Text.join seam es := by
  match es with
  | [] => exact .inl rfl
  | [e] =>
    rw [join_singleton]
    cases separated with
    | false => exact .inl rfl
    | true => exact .inr rfl
  | e :: e' :: es => exact .inr rfl

theorem count_write (separated : Bool) (es : List Text) :
    (write separated es).count Byte.carriageReturn = es.flatten.count Byte.carriageReturn := by
  have hsep : separator.count Byte.carriageReturn = 0 := by decide +kernel
  rcases write_cases separated es with h | h
  · rw [h, count_join]
  · rw [h, List.count_append, hsep, count_join, Nat.zero_add]

theorem infix_write (separated : Bool) {e : Text} {es : List Text} (he : e ∈ es) :
    e <:+: write separated es := by
  rcases write_cases separated es with h | h
  · rw [h]
    exact infix_join he
  · rw [h]
    exact (infix_join he).trans (List.suffix_append _ _).isInfix

/-- A carriage return before a newline of an entry does not outlast another reading. -/
theorem entries_write_ne (separated : Bool) {e : Text} {es : List Text} (he : e ∈ es)
    (hcr : crlf <:+: e) : entries (write separated es) ≠ es := by
  intro h
  have hread := count_entries (write separated es)
  have hlost := Text.count_unixLines (hcr.trans (infix_write separated he))
  have hwritten := count_write separated es
  rw [h] at hread
  omega

/-- **A log keeps its entries when it is written anew exactly if** no entry holds a carriage return
before a newline and none but the last ends with a rule. -/
theorem entries_rewritten_iff (log : Text) :
    entries (write (isSeparated log) (entries log)) = entries log ↔
      (∀ e ∈ entries log, ¬ crlf <:+: e) ∧ ∀ e ∈ (entries log).dropLast, ¬ rule <:+ e := by
  by_cases hcr : ∀ e ∈ entries log, ¬ crlf <:+: e
  · have hes : ∀ e ∈ entries log, IsEntry e := fun e he => isEntry_of_mem he (hcr e he)
    rw [and_iff_right hcr]
    generalize entries log = es at hes
    match es with
    | [] => exact ⟨fun _ => by simp, fun _ => by cases isSeparated log <;> decide +kernel⟩
    | [e] =>
      cases isSeparated log with
      | false =>
        refine iff_of_true (entries_alone (hes e List.mem_cons_self)) ?_
        simp
      | true => exact entries_write_eq_iff (List.cons_ne_nil e []) hes
    | e :: e' :: es =>
      rw [write_several]
      exact entries_write_eq_iff (List.cons_ne_nil e _) hes
  · refine iff_of_false ?_ fun h => hcr h.1
    push Not at hcr
    obtain ⟨e, he, hcr⟩ := hcr
    exact entries_write_ne _ he hcr

/-- A log whose first entry is a rule, with a blank behind it that keeps it from being a separator. -/
def ruledLog : Text := separator ++ rule ++ utf8 " \n" ++ separator ++ utf8 "a"

/-- **An entry is lost** when this log is written anew: the blank is trimmed, and the rule becomes a
separator. -/
theorem entry_lost :
    entries ruledLog = [rule, utf8 "a"] ∧
    entries (write (isSeparated ruledLog) (entries ruledLog)) = [utf8 "a"] ∧
    entries (write (isSeparated ruledLog) (entries ruledLog)) ≠ entries ruledLog := by
  decide +kernel

/-- Of two carriage returns before a newline each reading takes one. -/
example : entries (utf8 "a\r\r\nb") = [utf8 "a\r\nb"] ∧
    entries (write false [utf8 "a\r\nb"]) = [utf8 "a\nb"] := by decide +kernel

end ActionLog.Log
