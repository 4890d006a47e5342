import ActionLog.LineDiff.Basic
import Mathlib.Data.List.Basic

/-!
# Scripts between two sequences

A script stands between two sequences if what it deletes and keeps is the one, and what it inserts and
keeps is the other.  Every step in the making of a script keeps the two sequences as they are.

* `Between` — a script stands between two sequences; `Between.append` puts scripts together;
* `visible` — the items of a script that one of the two sequences shows;
* `visible_mergeRuns`, `visible_shiftEdits`, `visible_tidyFor` — tidying changes neither sequence;
* `Halves.Cuts` — a cut of two sequences at a run that they share; `cuts_of_halves?` says that the run
  found is one;
* `between_compareMiddle`, `between_compareTo` — comparing parts gives a script for the whole.

Principal result: `between_compare`.
-/

set_option autoImplicit false

namespace ActionLog.LineDiff

variable {α : Type}

/-! ## The two sequences of a script -/

/-- The items of a script that are not under the operation given. -/
def visible (hidden : Op) (script : Script α) : List α :=
  script.flatMap fun c => if c.op = hidden then [] else c.items

theorem before_eq (script : Script α) : before script = visible .insert script := rfl

theorem after_eq (script : Script α) : after script = visible .delete script := rfl

@[simp] theorem visible_nil (hidden : Op) : visible hidden ([] : Script α) = [] := rfl

@[simp] theorem visible_cons (hidden : Op) (c : Chunk α) (script : Script α) :
    visible hidden (c :: script) =
      (if c.op = hidden then [] else c.items) ++ visible hidden script := rfl

@[simp] theorem visible_append (hidden : Op) (s t : Script α) :
    visible hidden (s ++ t) = visible hidden s ++ visible hidden t :=
  List.flatMap_append

/-- A script stands between two sequences. -/
structure Between (script : Script α) (as bs : List α) : Prop where
  before : before script = as
  after : after script = bs

namespace Between

theorem nil : Between ([] : Script α) [] [] := ⟨rfl, rfl⟩

theorem append {s t : Script α} {as bs as' bs' : List α} (hs : Between s as bs)
    (ht : Between t as' bs') : Between (s ++ t) (as ++ as') (bs ++ bs') := by
  constructor
  · rw [before_eq, visible_append, ← before_eq, ← before_eq, hs.before, ht.before]
  · rw [after_eq, visible_append, ← after_eq, ← after_eq, hs.after, ht.after]

theorem delete (as : List α) : Between [⟨.delete, as⟩] as [] := by
  constructor <;> simp [before_eq, after_eq]

theorem insert (bs : List α) : Between [⟨.insert, bs⟩] [] bs := by
  constructor <;> simp [before_eq, after_eq]

theorem keep (cs : List α) : Between [⟨.keep, cs⟩] cs cs := by
  constructor <;> simp [before_eq, after_eq]

/-- Kept items that are not there leave no chunk. -/
theorem keep_or_nil (cs : List α) :
    Between (if cs.isEmpty then [] else [⟨.keep, cs⟩]) cs cs := by
  split
  · rename_i hempty
    rw [List.isEmpty_iff.mp hempty]
    exact .nil
  · exact .keep cs

/-- A step that shows the same items on both sides may follow. -/
theorem of_visible {s t : Script α} {as bs : List α} (h : Between s as bs)
    (hvisible : ∀ hidden, hidden ≠ .keep → visible hidden t = visible hidden s) :
    Between t as bs :=
  ⟨(hvisible .insert (by decide)).trans h.before, (hvisible .delete (by decide)).trans h.after⟩

theorem replaceAll (as bs : List α) : Between (LineDiff.replaceAll as bs) as bs := by
  constructor <;> simp [before_eq, after_eq, LineDiff.replaceAll]

end Between

/-! ## What sequences share at their ends -/

theorem dropLast_append {back as : List α} (h : back <:+ as) :
    dropLast back.length as ++ back = as :=
  List.suffix_iff_eq_append.mp h

/-- A sequence is put together from its two ends and what is left between them. -/
theorem append_ends {as front back : List α} (hfront : front <+: as)
    (hback : back <:+ as.drop front.length) :
    front ++ (dropLast back.length (as.drop front.length) ++ back) = as := by
  rw [dropLast_append hback]
  exact List.prefix_iff_eq_append.mp hfront

section Ends

variable [BEq α]

theorem commonPrefix_left (as bs : List α) : commonPrefix as bs <+: as := by
  fun_induction commonPrefix as bs with
  | case1 a as b bs _ ih => exact (List.prefix_cons_inj a).mpr ih
  | case2 => exact List.nil_prefix
  | case3 => exact List.nil_prefix

theorem commonSuffix_left (as bs : List α) : commonSuffix as bs <:+ as := by
  unfold commonSuffix
  rw [← List.reverse_prefix, List.reverse_reverse]
  exact commonPrefix_left _ _

variable [LawfulBEq α]

theorem commonPrefix_right (as bs : List α) : commonPrefix as bs <+: bs := by
  fun_induction commonPrefix as bs with
  | case1 a as b bs h ih =>
    rw [eq_of_beq h]
    exact (List.prefix_cons_inj b).mpr ih
  | case2 => exact List.nil_prefix
  | case3 => exact List.nil_prefix

theorem commonSuffix_right (as bs : List α) : commonSuffix as bs <:+ bs := by
  unfold commonSuffix
  rw [← List.reverse_prefix, List.reverse_reverse]
  exact commonPrefix_right _ _

end Ends

/-! ## Tidying -/

/-- The items of edits under the two operations, seen from the side that does not hide them. -/
theorem visible_eq_gather {hidden shown : Op} (hne : hidden ≠ shown) (hhidden : hidden ≠ .keep)
    (hshown : shown ≠ .keep) {run : Script α} (hrun : ∀ c ∈ run, c.op ≠ .keep) :
    visible hidden run = gather shown run := by
  induction run with
  | nil => rfl
  | cons c run ih =>
    rw [List.forall_mem_cons] at hrun
    have hop : c.op = hidden ∨ c.op = shown := by
      cases hidden <;> cases shown <;> cases h : c.op <;> simp_all
    unfold gather at ih ⊢
    rw [visible_cons, ih hrun.2, List.filter_cons]
    rcases hop with hop | hop
    · simp [hop, hne]
    · simp [hop, hne.symm]

theorem visible_insert_run {run : Script α} (hrun : ∀ c ∈ run, c.op ≠ .keep) :
    visible .insert run = gather .delete run :=
  visible_eq_gather (by decide) (by decide) (by decide) hrun

theorem visible_delete_run {run : Script α} (hrun : ∀ c ∈ run, c.op ≠ .keep) :
    visible .delete run = gather .insert run :=
  visible_eq_gather (by decide) (by decide) (by decide) hrun

theorem gather_eq_nil {op : Op} {run : Script α} (h : run.any (·.op = op) = false) :
    gather op run = [] := by
  unfold gather
  have hnone : run.filter (·.op = op) = [] := by
    simpa [List.filter_eq_nil_iff] using h
  rw [hnone, List.flatMap_nil]

theorem visible_keepAtEnd {hidden : Op} (hkeep : hidden ≠ .keep) (items : List α) (done : Script α) :
    visible hidden (keepAtEnd items done).reverse = visible hidden done.reverse ++ items := by
  cases done with
  | nil => simp [keepAtEnd, hkeep.symm]
  | cons c done =>
    rw [keepAtEnd]
    split
    · rename_i hop
      simp [hop, hkeep.symm]
    · simp [hkeep.symm]

/-- Items moved out of the front of a run are kept behind what is done. -/
theorem visible_keepFront {hidden : Op} (hkeep : hidden ≠ .keep) (front : List α) (done : Script α) :
    visible hidden (if front.isEmpty then done else keepAtEnd front done).reverse =
      visible hidden done.reverse ++ front := by
  split
  · rename_i hempty
    rw [List.isEmpty_iff.mp hempty, List.append_nil]
  · exact visible_keepAtEnd hkeep front done

section Merge

variable [BEq α] [LawfulBEq α]

/-- A run of edits and the items kept after it stand at the end, whatever is moved out of the edits. -/
theorem visible_closeRun {hidden : Op} (hkeep : hidden ≠ .keep) (done : Script α) {run : Script α}
    (hrun : ∀ c ∈ run, c.op ≠ .keep) (kept : List α) :
    visible hidden (closeRun done run kept).reverse =
      visible hidden done.reverse ++ visible hidden run ++ kept := by
  unfold closeRun
  split
  · rename_i hlen
    rcases run with _ | ⟨c, _ | ⟨d, run⟩⟩
    · simp [visible_keepAtEnd hkeep]
    · simp [hkeep.symm]
    · simp at hlen
  · simp only
    generalize hfront : commonPrefix (gather .insert run) (gather .delete run) = front
    generalize hback : commonSuffix ((gather .insert run).drop front.length)
      ((gather .delete run).drop front.length) = back
    have hdeleted : front ++ (dropLast back.length ((gather .delete run).drop front.length) ++ back) =
        gather .delete run :=
      append_ends (hfront ▸ commonPrefix_right _ _) (hback ▸ commonSuffix_right _ _)
    have hinserted : front ++ (dropLast back.length ((gather .insert run).drop front.length) ++ back) =
        gather .insert run :=
      append_ends (hfront ▸ commonPrefix_left _ _) (hback ▸ commonSuffix_left _ _)
    have hdone := visible_keepFront hkeep front done
    generalize (if front.isEmpty then done else keepAtEnd front done) = done' at hdone ⊢
    cases hidden with
    | keep => exact absurd rfl hkeep
    | insert =>
      rw [visible_insert_run hrun]
      split
      · nth_rewrite 2 [← hdeleted]
        simp [hdone]
      · split
        · simp
        · rename_i hdeletes
          simp [gather_eq_nil (by simpa using hdeletes)]
    | delete =>
      rw [visible_delete_run hrun]
      split
      · nth_rewrite 2 [← hinserted]
        simp [hdone]
      · rename_i hboth
        split
        · rename_i hdeletes
          have hinserts : run.any (·.op = .insert) = false := by
            simpa [hdeletes] using hboth
          simp [gather_eq_nil hinserts]
        · simp

/-- Merging changes neither sequence. -/
theorem visible_mergeFrom {hidden : Op} (hkeep : hidden ≠ .keep) (script : Script α) :
    ∀ {done run : Script α}, (∀ c ∈ run, c.op ≠ .keep) →
      visible hidden (mergeFrom done run script) =
        visible hidden done.reverse ++ visible hidden run ++ visible hidden script := by
  induction script with
  | nil =>
    intro done run hrun
    rw [mergeFrom, visible_closeRun hkeep done hrun, visible_nil]
  | cons c script ih =>
    intro done run hrun
    rw [mergeFrom]
    split
    · rename_i hop
      rw [ih (List.forall_mem_nil _), visible_closeRun hkeep done hrun]
      simp [hop, hkeep.symm]
    · rename_i hop
      rw [ih]
      · simp
      · rw [List.forall_mem_append]
        exact ⟨hrun, by simpa using hop⟩

end Merge

theorem visible_dropEmptyEnd (hidden : Op) (script : Script α) :
    visible hidden (dropEmptyEnd script) = visible hidden script := by
  unfold dropEmptyEnd
  split
  · rename_i c hlast
    split
    · rename_i hempty
      obtain ⟨init, rfl⟩ := List.getLast?_eq_some_iff.mp hlast
      have hitems : c.items = [] := List.isEmpty_iff.mp hempty
      simp [hitems]
    · rfl
  · rfl

theorem visible_mergeRuns [BEq α] [LawfulBEq α] {hidden : Op} (hkeep : hidden ≠ .keep)
    (script : Script α) : visible hidden (mergeRuns script) = visible hidden script := by
  unfold mergeRuns
  rw [visible_dropEmptyEnd, visible_mergeFrom hkeep script (List.forall_mem_nil _)]
  rfl

theorem visible_shiftEdits [BEq α] [LawfulBEq α] {hidden : Op} (hkeep : hidden ≠ .keep)
    (script : Script α) : visible hidden (shiftEdits script).1 = visible hidden script := by
  fun_induction shiftEdits script with
  | case1 p c n rest hops hsuffix moved rest' _ heq ih =>
    obtain ⟨hp, hn⟩ : p.op = .keep ∧ n.op = .keep := by simpa using hops
    have hitems := dropLast_append (List.isSuffixOf_iff_suffix.mp hsuffix)
    rw [heq] at ih
    -- the kept items go from before the edit to behind it, as they do at the end of its items
    simp only [visible_cons, moved, ih, hp, hn, if_neg hkeep.symm]
    split
    · simp
    · nth_rewrite 2 [← hitems]
      simp
  | case2 p c n rest hops _ hprefix moved rest' _ heq ih =>
    obtain ⟨hp, hn⟩ : p.op = .keep ∧ n.op = .keep := by simpa using hops
    have hitems := List.prefix_iff_eq_append.mp (List.isPrefixOf_iff_prefix.mp hprefix)
    rw [heq] at ih
    simp only [visible_cons, moved, ih, hp, hn, if_neg hkeep.symm]
    split
    · simp
    · nth_rewrite 2 [← hitems]
      simp
  | case3 p c n rest _ _ _ rest' _ heq ih =>
    rw [heq] at ih
    rw [visible_cons, ih, visible_cons _ p]
  | case4 p c n rest _ rest' _ heq ih =>
    rw [heq] at ih
    rw [visible_cons, ih, visible_cons _ p]
  | case5 => rfl

theorem visible_tidyFor [BEq α] [LawfulBEq α] {hidden : Op} (hkeep : hidden ≠ .keep) (rounds : Nat) :
    ∀ script : Script α, visible hidden (tidyFor rounds script) = visible hidden script := by
  induction rounds with
  | zero =>
    intro script
    rfl
  | succ rounds ih =>
    intro script
    have hround : visible hidden (shiftEdits (mergeRuns script)).1 = visible hidden script := by
      rw [visible_shiftEdits hkeep, visible_mergeRuns hkeep]
    rw [tidyFor]
    split
    rename_i shifted any heq
    rw [heq] at hround
    split
    · rw [ih, hround]
    · exact hround

/-- **Tidying a script changes neither sequence.** -/
theorem Between.tidy [BEq α] [LawfulBEq α] {script : Script α} {as bs : List α}
    (h : Between script as bs) : Between (tidy script) as bs :=
  h.of_visible fun _ hkeep => visible_tidyFor hkeep _ script

/-! ## Cuts at a shared run -/

/-- Both sequences are cut at one run. -/
structure Halves.Cuts (h : Halves α) (as bs : List α) : Prop where
  first : h.left₁ ++ h.middle ++ h.right₁ = as
  second : h.left₂ ++ h.middle ++ h.right₂ = bs

theorem Halves.Cuts.swap {h : Halves α} {as bs : List α} (hcuts : h.Cuts as bs) :
    h.swap.Cuts bs as :=
  ⟨hcuts.second, hcuts.first⟩

/-- A sequence is put together from what surrounds a run around one of its places. -/
theorem append_around {as preceding following : List α} {i : Nat} (hi : i ≤ as.length)
    (hpreceding : preceding <:+ as.take i) (hfollowing : following <+: as.drop i) :
    as.take (i - preceding.length) ++ (preceding ++ following) ++ as.drop (i + following.length) =
      as := by
  have hleft := List.suffix_iff_eq_append.mp hpreceding
  have hright := List.prefix_iff_eq_append.mp hfollowing
  rw [List.length_take, Nat.min_eq_left hi, List.take_take, Nat.min_eq_left (Nat.sub_le _ _)] at hleft
  rw [List.drop_drop] at hright
  calc as.take (i - preceding.length) ++ (preceding ++ following) ++ as.drop (i + following.length)
      = (as.take (i - preceding.length) ++ preceding) ++
          (following ++ as.drop (i + following.length)) := by simp
    _ = as.take i ++ as.drop i := by rw [hleft, hright]
    _ = as := List.take_append_drop i as

section Cuts

variable [BEq α]

/-- A seed stands inside the sequence. -/
theorem lt_of_mem_seedPlaces {seed : List α} {bs : List α} {j : Nat} :
    ∀ {i : Nat}, j ∈ seedPlaces seed i bs → j < i + bs.length := by
  induction bs with
  | nil =>
    intro i h
    cases h
  | cons b bs ih =>
    intro i h
    rw [seedPlaces, List.mem_append] at h
    rcases h with h | h
    · have hj : j = i := by
        split at h
        · exact List.mem_singleton.mp h
        · cases h
      simp [hj]
    · have := ih h
      rw [List.length_cons]
      omega

/-- The run that is kept as the best is one around a place of the seed. -/
theorem exists_of_seeded? {long short : List α} {i : Nat} {h : Halves α}
    (hbest : seeded? long short i = some h) :
    ∃ j, j < short.length ∧ h = runAround long short i j := by
  unfold seeded? at hbest
  -- every candidate so far is such a run, and so is the next one
  refine List.foldlRecOn (motive := fun best => ∀ h, best = some h →
    ∃ j, j < short.length ∧ h = runAround long short i j) _ _ ?_ ?_ h
    (Option.filter_eq_some_iff.mp hbest).1
  · intro h hnone
    cases hnone
  · intro best hbest j hj h hnext
    have hlt := lt_of_mem_seedPlaces hj
    rw [Nat.zero_add] at hlt
    cases best with
    | none =>
      simp only at hnext
      split at hnext
      · cases hnext
      · exact ⟨j, hlt, (Option.some.inj hnext).symm⟩
    | some b =>
      simp only at hnext
      split at hnext
      · exact ⟨j, hlt, (Option.some.inj hnext).symm⟩
      · exact hbest h hnext

variable [LawfulBEq α]

theorem runAround_cuts {long short : List α} {i j : Nat} (hi : i ≤ long.length)
    (hj : j ≤ short.length) : (runAround long short i j).Cuts long short := by
  constructor
  · exact append_around hi (commonSuffix_left _ _) (commonPrefix_left _ _)
  · exact append_around hj (commonSuffix_right _ _) (commonPrefix_right _ _)

theorem cuts_of_halvesOfLonger? {long short : List α} {h : Halves α}
    (hhalves : halvesOfLonger? long short = some h) : h.Cuts long short := by
  unfold halvesOfLonger? at hhalves
  split at hhalves
  · cases hhalves
  · rename_i hlen
    have hseeded : ∀ {i : Nat}, i ≤ long.length → seeded? long short i = some h →
        h.Cuts long short := by
      intro i hi hbest
      obtain ⟨j, hj, rfl⟩ := exists_of_seeded? hbest
      exact runAround_cuts hi (Nat.le_of_lt hj)
    have hfour : 4 ≤ long.length := by
      simp only [Bool.or_eq_true, decide_eq_true_eq, not_or, Nat.not_lt] at hlen
      exact hlen.1
    simp only at hhalves
    split at hhalves
    · rename_i x y hx hy
      split at hhalves
      · exact hseeded (by omega) (hx.trans hhalves)
      · exact hseeded (by omega) (hy.trans hhalves)
    · rename_i x hx _
      exact hseeded (by omega) (hx.trans hhalves)
    · exact hseeded (by omega) hhalves

theorem cuts_of_halves? {as bs : List α} {h : Halves α} (hhalves : halves? as bs = some h) :
    h.Cuts as bs := by
  unfold halves? at hhalves
  split at hhalves
  · exact cuts_of_halvesOfLonger? hhalves
  · obtain ⟨h', hlonger, rfl⟩ := Option.map_eq_some_iff.mp hhalves
    exact (cuts_of_halvesOfLonger? hlonger).swap

end Cuts

/-! ## Comparing -/

section Compare

variable [BEq α] [LawfulBEq α]

/-- A sequence is cut at the place where another one stands in it. -/
theorem append_of_indexOf? {sub as : List α} {i : Nat} (h : indexOf? sub as = some i) :
    as.take i ++ (sub ++ as.drop (i + sub.length)) = as := by
  induction as generalizing i with
  | nil =>
    rw [indexOf?] at h
    split at h
    · rename_i hempty
      rw [List.isEmpty_iff.mp hempty]
      simp
    · cases h
  | cons a as ih =>
    rw [indexOf?] at h
    split at h
    · rename_i hfront
      obtain rfl := Option.some.inj h
      rw [List.take_zero, List.nil_append, Nat.zero_add]
      exact List.prefix_iff_eq_append.mp (List.isPrefixOf_iff_prefix.mp hfront)
    · obtain ⟨j, hj, rfl⟩ := Option.map_eq_some_iff.mp h
      have hrest := ih hj
      rw [List.take_succ_cons, List.cons_append, Nat.add_right_comm, List.drop_succ_cons, hrest]

/-- **Scripts for the parts give a script for the whole.** -/
theorem between_compareMiddle {recur : List α → List α → Script α}
    (hrecur : ∀ as bs, Between (recur as bs) as bs) (as bs : List α) :
    Between (compareMiddle recur as bs) as bs := by
  unfold compareMiddle
  split
  · rename_i hempty
    rw [List.isEmpty_iff.mp hempty]
    exact .insert bs
  split
  · rename_i hempty
    rw [List.isEmpty_iff.mp hempty]
    exact .delete as
  simp only
  split
  · rename_i i hindex
    have hlong := append_of_indexOf? hindex
    by_cases hdeleting : bs.length < as.length
    · simp only [hdeleting, if_true] at hlong ⊢
      have hparts := (Between.delete (as.take i)).append
        ((Between.keep bs).append (.delete (as.drop (i + bs.length))))
      rwa [hlong, List.append_nil, List.nil_append] at hparts
    · simp only [hdeleting, if_false] at hlong ⊢
      have hparts := (Between.insert (bs.take i)).append
        ((Between.keep as).append (.insert (bs.drop (i + as.length))))
      rwa [hlong, List.append_nil, List.nil_append] at hparts
  by_cases hone : (if bs.length < as.length then bs else as).length = 1
  · rw [if_pos hone]
    exact .replaceAll as bs
  rw [if_neg hone]
  split
  · rename_i h hhalves
    obtain ⟨hfirst, hsecond⟩ := cuts_of_halves? hhalves
    have hparts := ((hrecur h.left₁ h.left₂).append (.keep h.middle)).append
      (hrecur h.right₁ h.right₂)
    rwa [hfirst, hsecond] at hparts
  split
  · rename_i x y _
    have hparts := (hrecur (as.take x) (bs.take y)).append (hrecur (as.drop x) (bs.drop y))
    rwa [List.take_append_drop, List.take_append_drop] at hparts
  · exact .replaceAll as bs

/-- The induction is on the depth of the splits. -/
theorem between_compareTo [DecidableEq α] (depth : Nat) :
    ∀ as bs : List α, Between (compareTo depth as bs) as bs := by
  induction depth with
  | zero =>
    intro as bs
    exact .replaceAll as bs
  | succ depth ih =>
    intro as bs
    rw [compareTo]
    split
    · rename_i heq
      rw [← heq]
      exact .keep_or_nil as
    · simp only
      generalize hfront : commonPrefix as bs = front
      generalize hback : commonSuffix (as.drop front.length) (bs.drop front.length) = back
      have has : front ++ (dropLast back.length (as.drop front.length) ++ back) = as :=
        append_ends (hfront ▸ commonPrefix_left _ _) (hback ▸ commonSuffix_left _ _)
      have hbs : front ++ (dropLast back.length (bs.drop front.length) ++ back) = bs :=
        append_ends (hfront ▸ commonPrefix_right _ _) (hback ▸ commonSuffix_right _ _)
      have hparts := (Between.keep_or_nil front).append ((between_compareMiddle ih
        (dropLast back.length (as.drop front.length))
        (dropLast back.length (bs.drop front.length))).append (.keep_or_nil back))
      rw [has, hbs, ← List.append_assoc] at hparts
      exact hparts.tidy

/-- **Comparing two sequences gives a script between them.** -/
theorem between_compare [DecidableEq α] (as bs : List α) : Between (compare as bs) as bs :=
  between_compareTo _ as bs

end Compare

end ActionLog.LineDiff
