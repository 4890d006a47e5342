import ActionLog.Proofs.FaultSet
import ActionLog.Proofs.Sorting
import Mathlib.Algebra.BigOperators.Group.Finset.Basic

/-!
# The summary of all faults

A message that occurs in many entries is shown once, with its number.  While the summary is written, it
remembers which messages it has shown so; here it is said once for all which faults are shown.

* `FaultList.InOrder` — faults in order of position, where faults of one position stand as they did;
* `FaultList.shown` — the faults that a summary shows; `length_shown` counts them;
* `FaultList.line` — the line of a fault, with the number of its message if that is frequent;
* `FaultList.texts_shown` — the lines of a summary are those of the faults shown;
* `FaultList.sort_congr` — faults at different positions have one order.

Principal result: `FaultList.summary_accounts`.
-/

set_option autoImplicit false

namespace ActionLog

/-! ## The order of positions -/

namespace Position

/-- Order by entry, then by line. -/
def Precedes (p q : Position) : Prop := p.block < q.block ∨ (p.block = q.block ∧ p.line ≤ q.line)

theorem le_iff {p q : Position} : p.le q = true ↔ p.Precedes q := by
  simp [le, Precedes]

theorem le_trans {p q r : Position} (hpq : p.le q = true) (hqr : q.le r = true) :
    p.le r = true := by
  rw [le_iff, Precedes] at *
  omega

theorem le_total (p q : Position) : (p.le q || q.le p) = true := by
  rw [Bool.or_eq_true, le_iff, le_iff, Precedes, Precedes]
  omega

theorem le_refl (p : Position) : p.le p = true := le_iff.mpr (.inr ⟨rfl, Int.le_refl _⟩)

theorem le_antisymm {p q : Position} (hpq : p.le q = true) (hqp : q.le p = true) : p = q := by
  rw [le_iff, Precedes] at *
  cases p
  cases q
  simp only [mk.injEq] at *
  omega

end Position

namespace Fault

theorem position_le_trans (f g h : Fault) (hfg : f.position.le g.position = true)
    (hgh : g.position.le h.position = true) : f.position.le h.position = true :=
  Position.le_trans hfg hgh

theorem position_le_total (f g : Fault) :
    (f.position.le g.position || g.position.le f.position) = true :=
  Position.le_total f.position g.position

/-- A fault with a message has a text. -/
theorem text_ne_nil {f : Fault} (h : f.message ≠ []) : f.text ≠ [] := by
  unfold Fault.text
  exact List.append_ne_nil_of_right_ne_nil _ h

end Fault

namespace FaultList

/-! ## Faults in order -/

/-- Faults in order of position; those of one position stand as they did. -/
structure InOrder (fs sorted : List Fault) : Prop where
  same : sorted.Perm fs
  ordered : sorted.Pairwise fun f g => f.position.Precedes g.position
  stable : ∀ p, sorted.filter (·.position = p) = fs.filter (·.position = p)

theorem inOrder_sort (l : FaultList) : InOrder l.faults l.sort.faults := by
  refine ⟨List.mergeSort_perm _ _, ?_, ?_⟩
  · exact (List.pairwise_mergeSort Fault.position_le_trans Fault.position_le_total l.faults).imp
      Position.le_iff.mp
  · intro p
    refine filter_mergeSort Fault.position_le_trans Fault.position_le_total ?_ l.faults
    intro f g hf hg
    rw [of_decide_eq_true hf, of_decide_eq_true hg]
    exact Position.le_refl p

/-- Faults that are in order stay as they are. -/
theorem sort_sort (l : FaultList) : l.sort.sort = l.sort := by
  have hordered := (inOrder_sort l).ordered.imp fun h => Position.le_iff.mpr h
  exact congrArg FaultList.mk (List.mergeSort_of_pairwise hordered)

/-- **Faults at different positions have one order.** -/
theorem sort_congr {l l' : FaultList} (hperm : l.faults.Perm l'.faults)
    (hapart : (l.faults.map Fault.position).Nodup) : l.sort = l'.sort := by
  refine congrArg FaultList.mk
    (mergeSort_congr Fault.position_le_trans Fault.position_le_total hperm ?_)
  intro f hf g hg hfg hgf
  exact List.inj_on_of_nodup_map hapart hf hg (Position.le_antisymm hfg hgf)

/-! ## The faults that are shown -/

/-- Of faults given in order: all with a message that is not frequent, and the first one with each
message that is. -/
def shown (frequent : Text → Bool) (fs : List Fault) : List Fault :=
  (fs.zipIdx.filter fun p =>
    !frequent p.1.message || (fs.take p.2).all fun g => g.message != p.1.message).map Prod.fst

/-- One more fault is shown unless its message is frequent and was shown before. -/
theorem shown_concat (frequent : Text → Bool) (fs : List Fault) (f : Fault) :
    shown frequent (fs ++ [f]) = shown frequent fs ++
      if frequent f.message ∧ f.message ∈ fs.map Fault.message then [] else [f] := by
  unfold shown
  rw [List.zipIdx_append, List.filter_append, List.map_append]
  congr 1
  · -- the faults before the last one do not see it
    congr 1
    apply List.filter_congr
    intro p hp
    have hlt : p.2 < fs.length := by
      have := List.snd_lt_add_of_mem_zipIdx hp
      omega
    rw [List.take_append_of_le_length (Nat.le_of_lt hlt)]
  · have hcond : (!frequent f.message || fs.all fun g => g.message != f.message) = true ↔
        ¬ (frequent f.message ∧ f.message ∈ fs.map Fault.message) := by
      cases frequent f.message <;> simp
    simp only [List.zipIdx_singleton, Nat.zero_add, List.filter_cons, List.take_left, List.filter_nil]
    by_cases hrepeated : frequent f.message ∧ f.message ∈ fs.map Fault.message
    · rw [if_neg fun h => hcond.mp h hrepeated, if_pos hrepeated, List.map_nil]
    · rw [if_pos (hcond.mpr hrepeated), if_neg hrepeated, List.map_singleton]

/-- Whether a message occurs more than three times. -/
def frequent (l : FaultList) (message : Text) : Bool := 3 < l.count message

/-- The line of a fault in a summary. -/
def line (l : FaultList) (f : Fault) : Text :=
  if l.frequent f.message then
    f.text ++ utf8 " [× " ++ Text.decimal (l.count f.message) ++ utf8 "]"
  else f.text

/-- The messages remembered behind some faults are the frequent ones that occurred there. -/
def Remembers (l : FaultList) (front : List Fault) (collapsed : List Text) : Prop :=
  ∀ m, m ∈ collapsed ↔ l.frequent m = true ∧ m ∈ front.map Fault.message

namespace Remembers

variable {l : FaultList} {front : List Fault} {collapsed : List Text} {f : Fault}

/-- A fault that is not frequent, or was shown before, is not remembered. -/
theorem concat (h : Remembers l front collapsed)
    (hf : l.frequent f.message = true → f.message ∈ front.map Fault.message) :
    Remembers l (front ++ [f]) collapsed := by
  intro m
  rw [h m, List.map_append, List.mem_append, List.map_singleton, List.mem_singleton]
  constructor
  · exact fun hm => ⟨hm.1, .inl hm.2⟩
  · rintro ⟨hm, hm' | rfl⟩
    · exact ⟨hm, hm'⟩
    · exact ⟨hm, hf hm⟩

theorem cons (h : Remembers l front collapsed) (hf : l.frequent f.message = true) :
    Remembers l (front ++ [f]) (f.message :: collapsed) := by
  intro m
  rw [List.mem_cons, h m, List.map_append, List.mem_append, List.map_singleton, List.mem_singleton]
  constructor
  · rintro (rfl | hm)
    · exact ⟨hf, .inr rfl⟩
    · exact ⟨hm.1, .inl hm.2⟩
  · rintro ⟨hm, hm' | rfl⟩
    · exact .inr ⟨hm, hm'⟩
    · exact .inl rfl

end Remembers

/-- **The lines of a summary are those of the faults shown.**  The induction is on the faults that are
still to come, behind those of `front`. -/
theorem texts_shown (l : FaultList) (rest : List Fault) :
    ∀ {front : List Fault} {collapsed : List Text}, Remembers l front collapsed →
      (shown l.frequent (front ++ rest)).map l.line =
        (shown l.frequent front).map l.line ++ texts l collapsed rest := by
  induction rest with
  | nil =>
    intro front collapsed _
    simp [texts]
  | cons f rest ih =>
    intro front collapsed h
    rw [List.append_cons, texts]
    by_cases hseen : f.message ∈ collapsed
    · have hrepeated := (h f.message).mp hseen
      rw [if_pos (by simpa using hseen), ih (h.concat fun _ => hrepeated.2), shown_concat,
        if_pos hrepeated, List.append_nil]
    · have hnew : ¬ (l.frequent f.message = true ∧ f.message ∈ front.map Fault.message) :=
        fun hrepeated => hseen ((h f.message).mpr hrepeated)
      rw [if_neg (by simpa using hseen)]
      by_cases hfrequent : l.frequent f.message = true
      · rw [if_pos (by simpa [frequent] using hfrequent), ih (h.cons hfrequent), shown_concat,
          if_neg hnew, List.map_append, List.append_assoc]
        simp [line, hfrequent]
      · rw [if_neg (by simpa [frequent] using hfrequent),
          ih (h.concat fun hf => absurd hf hfrequent), shown_concat, if_neg hnew, List.map_append,
          List.append_assoc]
        simp [line, hfrequent]

theorem line_ne_nil (l : FaultList) {f : Fault} (h : f.message ≠ []) : l.line f ≠ [] := by
  have htext := Fault.text_ne_nil h
  unfold line
  split
  · simp [htext]
  · exact htext

theorem mem_of_mem_shown {frequent : Text → Bool} {fs : List Fault} {f : Fault}
    (h : f ∈ shown frequent fs) : f ∈ fs := by
  obtain ⟨p, hp, rfl⟩ := List.mem_map.mp h
  exact List.fst_mem_of_mem_zipIdx (List.mem_filter.mp hp).1

/-- **A summary is made of the lines of the faults shown.** -/
theorem summary_eq {l : FaultList} (hne : l.faults ≠ [])
    (hmessage : ∀ f ∈ l.faults, f.message ≠ []) :
    l.summary = Text.unlines ((shown l.frequent l.sort.faults).map l.line) := by
  have hstart : Remembers l [] [] := by
    intro m
    simp
  have hlines := texts_shown l l.sort.faults hstart
  rw [List.nil_append] at hlines
  have hnonempty : ∀ t ∈ (shown l.frequent l.sort.faults).map l.line, t ≠ [] := by
    intro t ht
    obtain ⟨f, hf, rfl⟩ := List.mem_map.mp ht
    apply line_ne_nil
    exact hmessage f ((inOrder_sort l).same.mem_iff.mp (mem_of_mem_shown hf))
  have hdrop : ((shown l.frequent l.sort.faults).map l.line).dropWhile (· == []) =
      (shown l.frequent l.sort.faults).map l.line := by
    cases hshown : (shown l.frequent l.sort.faults).map l.line with
    | nil => rfl
    | cons t ts =>
      rw [hshown, List.forall_mem_cons] at hnonempty
      exact List.dropWhile_cons_of_neg (by simpa using hnonempty.1)
  unfold summary
  rw [if_neg (by simpa using hne), ← hdrop, hlines]
  rfl

/-! ## Counting -/

theorem count_eq (l : FaultList) (m : Text) :
    l.count m = (l.faults.map Fault.message).countP fun m' => m' = m := by
  unfold count
  rw [← List.countP_eq_length_filter, List.countP_map]
  congr 1
  funext f
  exact beq_eq_decide f.message m

theorem count_congr {l l' : FaultList} (h : l.faults.Perm l'.faults) : l.count = l'.count := by
  funext m
  rw [count_eq, count_eq, (h.map Fault.message).countP_eq]

/-- How many faults are shown: those without a frequent message, and one for each that is frequent. -/
theorem length_shown (frequent : Text → Bool) (fs : List Fault) :
    (shown frequent fs).length = (fs.map Fault.message).countP (! frequent ·) +
      ((fs.map Fault.message).toFinset.filter (frequent · = true)).card := by
  induction fs using List.reverseRecOn with
  | nil => rfl
  | append_singleton fs f ih =>
    have hmessages : (fs ++ [f]).map Fault.message = fs.map Fault.message ++ [f.message] := by simp
    have hset : (fs.map Fault.message ++ [f.message]).toFinset =
        insert f.message (fs.map Fault.message).toFinset := by
      ext m
      simp
    rw [shown_concat, List.length_append, ih, hmessages, List.countP_append, hset, Finset.filter_insert]
    by_cases hfrequent : frequent f.message = true
    · by_cases hmem : f.message ∈ fs.map Fault.message
      · have hknown : f.message ∈ (fs.map Fault.message).toFinset.filter (frequent · = true) := by
          rw [Finset.mem_filter, List.mem_toFinset]
          exact ⟨hmem, hfrequent⟩
        rw [if_pos ⟨hfrequent, hmem⟩, if_pos hfrequent, Finset.insert_eq_of_mem hknown]
        simp [hfrequent]
      · have hunknown : f.message ∉ (fs.map Fault.message).toFinset.filter (frequent · = true) := by
          rw [Finset.mem_filter, List.mem_toFinset]
          exact fun h => hmem h.1
        rw [if_neg fun h => hmem h.2, if_pos hfrequent, Finset.card_insert_of_notMem hunknown]
        simp [hfrequent, Nat.add_assoc]
    · rw [if_neg fun h => hfrequent h.1, if_neg hfrequent]
      simp [hfrequent]
      omega

/-- The faults with a frequent message, counted message by message. -/
theorem sum_count (l : FaultList) (frequent : Text → Bool) :
    ∑ m ∈ (l.faults.map Fault.message).toFinset with frequent m = true, l.count m =
      (l.faults.map Fault.message).countP frequent := by
  have hsum := Finset.sum_filter_count_eq_countP (frequent · = true) (l.faults.map Fault.message)
  simp only [Bool.decide_eq_true] at hsum
  rw [← hsum]
  apply Finset.sum_congr rfl
  intro m _
  rw [count_eq]
  exact List.countP_congr fun _ _ => Iff.rfl

/-- **Every fault is accounted for**: it is shown, or it is one of the others with its message. -/
theorem length_shown_add_sum (l : FaultList) (frequent : Text → Bool) :
    (shown frequent l.faults).length +
      ∑ m ∈ (l.faults.map Fault.message).toFinset with frequent m = true, (l.count m - 1) =
      l.size := by
  have hsum : ∑ m ∈ (l.faults.map Fault.message).toFinset with frequent m = true, (l.count m - 1) +
      ((l.faults.map Fault.message).toFinset.filter (frequent · = true)).card =
      (l.faults.map Fault.message).countP frequent := by
    rw [Finset.card_eq_sum_ones, ← Finset.sum_add_distrib, ← sum_count]
    apply Finset.sum_congr rfl
    intro m hm
    have hmem := List.mem_toFinset.mp (Finset.mem_filter.mp hm).1
    have hpos : 0 < l.count m := by
      rw [count_eq, List.countP_pos_iff]
      exact ⟨m, hmem, decide_eq_true rfl⟩
    omega
  have hlen := List.length_eq_countP_add_countP frequent (l := l.faults.map Fault.message)
  simp only [List.length_map, Bool.not_eq_true, Bool.decide_eq_false] at hlen
  rw [length_shown, size]
  omega

/-! ## The summary as a whole -/

theorem frequent_congr {l l' : FaultList} (h : l.count = l'.count) : l.frequent = l'.frequent := by
  funext m
  simp only [frequent, h]

theorem line_congr {l l' : FaultList} (h : l.count = l'.count) : l.line = l'.line := by
  funext f
  simp only [line, frequent_congr h, h]

/-- Lists with the same faults have the same summary if sorting makes them equal. -/
theorem summary_congr {l l' : FaultList} (hne : l.faults ≠ [])
    (hmessage : ∀ f ∈ l.faults, f.message ≠ []) (hperm : l.faults.Perm l'.faults)
    (hsort : l.sort = l'.sort) : l.summary = l'.summary := by
  have hne' : l'.faults ≠ [] := fun hnil => hne (List.perm_nil.mp (hnil ▸ hperm))
  have hmessage' : ∀ f ∈ l'.faults, f.message ≠ [] := fun f hf => hmessage f (hperm.mem_iff.mpr hf)
  rw [summary_eq hne hmessage, summary_eq hne' hmessage', hsort, frequent_congr (count_congr hperm),
    line_congr (count_congr hperm)]

/-- Faults at different positions are collected whatever the order in which they are added, and however
often. -/
theorem foldl_add_perm {l : FaultList} (hapart : (l.faults.map Fault.position).Nodup)
    {fs : List Fault} (hfs : ∀ f, f ∈ fs ↔ f ∈ l.faults) :
    l.faults.Perm (fs.foldl add empty).faults := by
  have hcollects : Collects fs (fs.foldl add empty) := Collects.empty.foldl_add fs
  rw [List.perm_ext_iff_of_nodup hapart.of_map hcollects.once.of_map]
  intro f
  rw [hcollects.member, ← hfs]
  constructor
  · intro hf
    cases hfind : fs.find? (·.key = f.key) with
    | none => simpa using List.find?_eq_none.mp hfind f hf
    | some g =>
      -- the fault found stands at the position of `f`
      have hkey : g.key = f.key := by simpa using List.find?_some hfind
      have hg := (hfs g).mp (List.mem_of_find?_eq_some hfind)
      rw [List.inj_on_of_nodup_map hapart hg ((hfs f).mp hf) (congrArg Prod.fst hkey)]
  · exact List.mem_of_find?_eq_some

/-- **A summary accounts for every fault.**  It is made of the faults in stable order of their positions,
one line for each: all those whose message occurs at most three times, and of every other message the
first fault, with the number of occurrences behind it.  Those shown, and for each collapsed message all
occurrences but one, are all the faults there are.  Asking for it again, now that the faults are in order,
gives the same text.  If the positions differ, the order in which the faults were added plays no part, nor
how often they were. -/
theorem summary_accounts (l : FaultList) (hne : l.faults ≠ [])
    (hmessage : ∀ f ∈ l.faults, f.message ≠ []) :
    InOrder l.faults l.sort.faults ∧
    l.summary = Text.unlines ((shown l.frequent l.sort.faults).map l.line) ∧
    (shown l.frequent l.sort.faults).length +
      ∑ m ∈ (l.faults.map Fault.message).toFinset with l.frequent m = true, (l.count m - 1) =
      l.size ∧
    (l.perform .summarize).summary = l.summary ∧
    ((l.faults.map Fault.position).Nodup → ∀ fs : List Fault, (∀ f, f ∈ fs ↔ f ∈ l.faults) →
      (fs.foldl add empty).summary = l.summary) := by
  have hperm : l.faults.Perm l.sort.faults := (inOrder_sort l).same.symm
  refine ⟨inOrder_sort l, summary_eq hne hmessage, ?_, ?_, ?_⟩
  · have htotal := length_shown_add_sum l.sort l.frequent
    rw [← count_congr hperm, ← List.toFinset_eq_of_perm _ _ (hperm.map Fault.message), size,
      ← hperm.length_eq] at htotal
    exact htotal
  · exact (summary_congr hne hmessage hperm (sort_sort l).symm).symm
  · intro hapart fs hfs
    have hadded := foldl_add_perm hapart hfs
    exact (summary_congr hne hmessage hadded (sort_congr hadded hapart)).symm

/-- Four entries with one message, and another message in between. -/
def brokenEntries : FaultList :=
  ⟨[⟨⟨1, 0⟩, [], utf8 "same", false⟩, ⟨⟨1, 2⟩, utf8 "hoist", utf8 "other", false⟩,
    ⟨⟨2, 0⟩, [], utf8 "same", false⟩, ⟨⟨3, 1⟩, [], utf8 "same", false⟩,
    ⟨⟨7, 0⟩, utf8 "wrap", utf8 "same", false⟩]⟩

/-- The faults are added from the last to the first, and once more. -/
theorem summary_accounts_backwards :
    brokenEntries.faults ≠ [] ∧ (∀ f ∈ brokenEntries.faults, f.message ≠ []) ∧
      (brokenEntries.faults.map Fault.position).Nodup ∧
      ((brokenEntries.faults.reverse ++ brokenEntries.faults).foldl add empty).summary =
        utf8 "block 1: same [× 4]\nblock 1:2: hoist: other" := by
  have hne : brokenEntries.faults ≠ [] := by decide +kernel
  have hmessage : ∀ f ∈ brokenEntries.faults, f.message ≠ [] := by decide +kernel
  have hapart : (brokenEntries.faults.map Fault.position).Nodup := by decide +kernel
  obtain ⟨_, htext, _, _, hagain⟩ := summary_accounts brokenEntries hne hmessage
  have hsorted : brokenEntries.sort.faults = brokenEntries.faults :=
    List.mergeSort_of_pairwise (by decide +kernel)
  refine ⟨hne, hmessage, hapart, ?_⟩
  rw [hagain hapart _ (by simp), htext, hsorted]
  decide +kernel

end FaultList

end ActionLog
