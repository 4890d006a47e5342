import ActionLog.Pipeline
import ActionLog.Proofs.Encoding
import ActionLog.Proofs.Statement

/-!
# What normalizing keeps

Normalizing moves the ends of lines and trims them.  All that it takes away or puts in is white
space, wherever that stands.

* `visible` — a text without its white space, characters read as in UTF-8 and stray bytes kept;
* `visible_append`, `visible_blank_append`, `visible_trim` — how white space is left out of a text
  that is put together;
* `visible_eq_nil` — the texts of white space only are those that are trimmed to nothing.

Principal result: `normalize_canonical` — a normalized text has one form, all the visible bytes, and
is the same for a text as it stands and for the entry that is read from it.
-/

set_option autoImplicit false

namespace ActionLog

namespace Text

/-! ## Visible bytes -/

/-- Whether the piece is a white space character. -/
def Piece.isWhite : Piece → Bool
  | .char code => whiteSpace.contains code
  | .stray _ => false

/-- The text without its white space. -/
def visible (s : Text) : Text := ((pieces s).filter fun p => !p.isWhite).flatMap Piece.bytes

theorem visible_append {s : Text} (hs : s.head?.any Utf8.isTail = false) (x : Text) :
    visible (x ++ s) = visible x ++ visible s := by
  unfold visible
  rw [pieces_append hs, List.filter_append, List.flatMap_append]

theorem visible_blank_append {m : Text} (hm : m ∈ blanks) (s : Text) :
    visible (m ++ s) = visible s := by
  obtain ⟨code, hcode, hpieces⟩ := pieces_blank hm s
  unfold visible
  rw [hpieces, List.filter_cons_of_neg (by simpa [Piece.isWhite] using hcode)]

theorem visible_append_blank {m : Text} (hm : m ∈ blanks) (s : Text) :
    visible (s ++ m) = visible s := by
  have hlead : ∀ m ∈ blanks, m.head?.any Utf8.isTail = false := by decide +kernel
  have hnone := visible_blank_append hm []
  rw [List.append_nil] at hnone
  rw [visible_append (hlead m hm), hnone]
  exact List.append_nil _

theorem visible_trim (s : Text) : visible (trim s) = visible s :=
  trim_invariant (fun _ hm => visible_blank_append hm) (fun _ hm => visible_append_blank hm) s

theorem visible_line (x s : Text) : visible (x ++ Byte.newline :: s) = visible x ++ visible s := by
  have hnewline : [Byte.newline] ∈ blanks := by decide
  rw [visible_append (by rfl)]
  exact congrArg _ (visible_blank_append hnewline s)

theorem visible_unlines (ls : List Text) : visible (unlines ls) = ls.flatMap visible := by
  induction ls with
  | nil => rfl
  | cons l ls ih =>
    cases ls with
    | nil => simp [unlines]
    | cons l' ls =>
      rw [unlines_cons_cons, visible_line, ih]
      rfl

/-- **A text has no visible bytes if trimming leaves nothing of it, and only then.** -/
theorem visible_eq_nil {s : Text} : visible s = [] ↔ trim s = [] := by
  constructor
  · intro h
    have hwhite : ∀ p ∈ pieces s, p.bytes ∈ blanks := by
      intro p hp
      have hbytes : p.isWhite = false → p.bytes = [] := by
        intro hvisible
        refine List.flatMap_eq_nil_iff.mp h p (List.mem_filter.mpr ⟨hp, ?_⟩)
        simp [hvisible]
      cases p with
      | char code =>
        have hcode : code ∈ whiteSpace := by
          by_contra hcode
          exact encode_ne_nil code (hbytes (by simpa [Piece.isWhite] using hcode))
        rw [blanks_eq]
        exact List.mem_map_of_mem hcode
      | stray b => cases hbytes rfl
    refine trim_eq_nil.mpr ⟨(pieces s).map Piece.bytes, ?_, ?_⟩
    · rintro m hm
      obtain ⟨p, hp, rfl⟩ := List.mem_map.mp hm
      exact hwhite p hp
    · rw [← List.flatMap_def, bytes_pieces]
  · intro h
    rw [← visible_trim, h]
    rfl

end Text

namespace Pass

open Text

/-! ## Visible bytes of statements -/

theorem visible_kept (t : Text) : (kept t).flatMap visible = visible t := by
  rw [← visible_trim t]
  by_cases hnil : trim t = []
  · rw [kept_eq_nil.mpr hnil, hnil]
    rfl
  · simp [kept, hnil]

theorem visible_statements (s : Text) : (statements s).flatMap visible = visible s := by
  induction s using clean_induction with
  | last x hx => rw [statements_clean hx, visible_kept]
  | line x s hx ih =>
    rw [statements_line, statements_clean hx, List.flatMap_append, visible_kept, ih, visible_line]
  | semicolon x s hx ih =>
    have hsemicolon : IsBasic Byte.semicolon := by decide
    have hfirst : visible (Byte.semicolon :: s) = visible [Byte.semicolon] ++ visible s := by
      unfold visible
      rw [pieces_basic hsemicolon, pieces_basic hsemicolon]
      rfl
    rw [statements_semicolon hx, List.flatMap_append, visible_kept, ih, visible_append (by rfl),
      visible_append (by rfl), hfirst, List.append_assoc]

/-- **Normalizing takes away and puts in nothing but white space.** -/
theorem visible_normalize (s : Text) : visible (normalize s) = visible s := by
  rw [normalize_eq, visible_unlines, visible_statements]

theorem normalize_eq_nil {s : Text} : normalize s = [] ↔ trim s = [] := by
  constructor
  · intro h
    rw [← visible_eq_nil, ← visible_normalize, h]
    rfl
  · intro h
    rw [← normalize_trim, h]
    decide +kernel

/-! ## Entries -/

/-- Trimming the parts of a log, and leaving out those of white space only, is not seen in the
normalized entries. -/
theorem map_normalize_entries (log : Text) : (Log.entries log).map normalize =
    ((splitOn Log.separator (unixLines log)).map normalize).filter (· != []) := by
  unfold Log.entries
  induction splitOn Log.separator (unixLines log) with
  | nil => rfl
  | cons t ts ih =>
    have hsame : (normalize t != []) = (trim t != []) := by
      rw [Bool.eq_iff_iff]
      simp [normalize_eq_nil]
    rw [List.map_cons, List.map_cons, List.filter_cons, List.filter_cons, hsame, ← ih]
    split
    · rw [List.map_cons, normalize_trim]
    · rfl

/-- **A normalized text is in canonical form, and has lost nothing but white space.**  Its lines, if
there are any, are trimmed and hold a semicolon at most at their end; normalizing it again changes
nothing.  The entries of a log are normalized to what the parts between the separators are, so a
text is cleaned alike as it stands and as an entry of a log. -/
theorem normalize_canonical (s : Text) :
    IsNormal (normalize s) ∧ normalize (normalize s) = normalize s ∧
    visible (normalize s) = visible s ∧ normalize (trim (unixLines s)) = normalize s ∧
    (Log.entries s).map normalize =
      ((splitOn Log.separator (unixLines s)).map normalize).filter (· != []) ∧
    ∀ {ρ : Type} [Resolver ρ] (p : Pipeline ρ),
      p.cleanEntry (trim (unixLines s)) = p.cleanEntry s := by
  have hsame : normalize (trim (unixLines s)) = normalize s := by
    rw [normalize_trim, normalize_unixLines]
  refine ⟨isNormal_normalize s, normalize_of_isNormal (isNormal_normalize s), visible_normalize s,
    hsame, map_normalize_entries s, fun p => ?_⟩
  unfold Pipeline.cleanEntry
  rw [hsame]

end Pass

end ActionLog
