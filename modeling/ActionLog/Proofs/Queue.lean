import ActionLog.Proofs.Draft
import ActionLog.Proofs.Sorting

/-!
# Edits made together

A draft may be read between its edits, and every reading puts the queue in order.  What is read is
settled by the edits alone.

* `Interchangeable` — queues with the same edits of every range, queued in the same order;
* `Ordered` — the edits of a queue in order; `Ordered.unique` and `ordered_settle` say that there is
  one such list, and that reading makes it;
* `Edit.applyTo` — one edit made by itself; `splice_eq_foldr` says that edits which keep apart are
  made one by one, from the last to the first;
* `Draft.Call`, `Draft.call` — what a draft is used for; `call_eq_ok` says what one call leaves of
  the queue, and `calls_eq_ok` what all of them leave.

Principal result: `Draft.result_simultaneous` — what is read after any calls.
-/

set_option autoImplicit false

namespace ActionLog

namespace Edit

/-- Whether an edit has the range from `start` up to `stop`. -/
def hasRange (start stop : Nat) (e : Edit) : Bool := e.start == start && e.stop == stop

theorem hasRange_iff {start stop : Nat} {e : Edit} :
    e.hasRange start stop = true ↔ e.start = start ∧ e.stop = stop := by
  simp [hasRange]

theorem hasRange_self (e : Edit) : e.hasRange e.start e.stop = true := hasRange_iff.mpr ⟨rfl, rfl⟩

/-- The text with one edit made by itself. -/
def applyTo (e : Edit) (s : Text) : Text := s.take e.start ++ e.text ++ s.drop e.stop

/-- What an edit adds to the length of a text. -/
def growth (e : Edit) : Int := e.text.length - (e.stop - e.start : Int)

/-- What edits add together. -/
def totalGrowth : List Edit → Int
  | [] => 0
  | e :: es => e.growth + totalGrowth es

theorem totalGrowth_perm {es es' : List Edit} (h : es.Perm es') :
    totalGrowth es = totalGrowth es' := by
  induction h with
  | nil => rfl
  | cons e _ ih => rw [totalGrowth, totalGrowth, ih]
  | swap e e' es =>
    simp only [totalGrowth]
    omega
  | trans _ _ ih ih' => exact ih.trans ih'

/-- An edit comes first if it starts first, or if it starts at the same place and ends first. -/
def Precedes (a b : Edit) : Prop := a.start < b.start ∨ (a.start = b.start ∧ a.stop ≤ b.stop)

instance : DecidableRel Precedes := fun a b =>
  inferInstanceAs (Decidable (a.start < b.start ∨ (a.start = b.start ∧ a.stop ≤ b.stop)))

theorem le_iff {a b : Edit} : a.le b = true ↔ a.Precedes b := by
  simp [le, Precedes]

theorem le_trans (a b c : Edit) (hab : a.le b = true) (hbc : b.le c = true) : a.le c = true := by
  rw [le_iff, Precedes] at *
  omega

theorem le_total (a b : Edit) : (a.le b || b.le a) = true := by
  rw [Bool.or_eq_true, le_iff, le_iff, Precedes, Precedes]
  omega

/-- Edits that precede each other have the same range. -/
theorem Precedes.antisymm {a b : Edit} (hab : a.Precedes b) (hba : b.Precedes a) :
    b.hasRange a.start a.stop = true := by
  unfold Precedes at hab hba
  rw [hasRange_iff]
  omega

end Edit

namespace Draft

/-! ## Queues in order -/

/-- Queues with the same edits of every range, queued in the same order. -/
def Interchangeable (queue queue' : List Edit) : Prop :=
  ∀ start stop, queue.filter (Edit.hasRange start stop) = queue'.filter (Edit.hasRange start stop)

namespace Interchangeable

variable {queue queue' queue'' : List Edit}

theorem symm (h : Interchangeable queue queue') : Interchangeable queue' queue :=
  fun start stop => (h start stop).symm

theorem trans (h : Interchangeable queue queue') (h' : Interchangeable queue' queue'') :
    Interchangeable queue queue'' :=
  fun start stop => (h start stop).trans (h' start stop)

theorem append_right (h : Interchangeable queue queue') (es : List Edit) :
    Interchangeable (queue ++ es) (queue' ++ es) := by
  intro start stop
  rw [List.filter_append, List.filter_append, h start stop]

theorem mem_iff (h : Interchangeable queue queue') {e : Edit} : e ∈ queue ↔ e ∈ queue' := by
  have hrange := e.hasRange_self
  constructor
  · intro he
    have hmem := List.mem_filter.mpr ⟨he, hrange⟩
    rw [h] at hmem
    exact (List.mem_filter.mp hmem).1
  · intro he
    have hmem := List.mem_filter.mpr ⟨he, hrange⟩
    rw [← h] at hmem
    exact (List.mem_filter.mp hmem).1

theorem perm (h : Interchangeable queue queue') : queue.Perm queue' := by
  rw [List.perm_iff_count]
  intro e
  rw [← List.count_filter e.hasRange_self, h, List.count_filter e.hasRange_self]

theorem eq_nil (h : Interchangeable queue []) : queue = [] := List.perm_nil.mp h.perm

theorem tail {e : Edit} (h : Interchangeable (e :: queue) (e :: queue')) :
    Interchangeable queue queue' := by
  intro start stop
  have hfilter := h start stop
  rw [List.filter_cons, List.filter_cons] at hfilter
  split at hfilter
  · exact (List.cons.inj hfilter).2
  · exact hfilter

/-- Only the ranges of the edits themselves have to be looked at. -/
theorem iff_forall_mem : Interchangeable queue queue' ↔ ∀ e ∈ queue ++ queue',
    queue.filter (Edit.hasRange e.start e.stop) = queue'.filter (Edit.hasRange e.start e.stop) := by
  refine ⟨fun h e _ => h e.start e.stop, fun h start stop => ?_⟩
  by_cases hex : ∃ e ∈ queue ++ queue', e.hasRange start stop = true
  · obtain ⟨e, he, hrange⟩ := hex
    obtain ⟨rfl, rfl⟩ := Edit.hasRange_iff.mp hrange
    exact h e he
  · have hnone : ∀ e ∈ queue ++ queue', ¬ e.hasRange start stop = true :=
      fun e he hrange => hex ⟨e, he, hrange⟩
    rw [List.forall_mem_append] at hnone
    rw [List.filter_eq_nil_iff.mpr hnone.1, List.filter_eq_nil_iff.mpr hnone.2]

instance : Decidable (Interchangeable queue queue') := decidable_of_iff' _ iff_forall_mem

end Interchangeable

/-- The edits of a queue in the order of their ranges; those of the same range stand as they were
queued. -/
structure Ordered (queue es : List Edit) : Prop where
  sorted : es.Pairwise Edit.Precedes
  stable : Interchangeable es queue

instance (queue es : List Edit) : Decidable (Ordered queue es) :=
  decidable_of_iff (es.Pairwise Edit.Precedes ∧ Interchangeable es queue)
    ⟨fun h => ⟨h.1, h.2⟩, fun h => ⟨h.sorted, h.stable⟩⟩

/-- The first of edits in order precedes all edits of a queue that has the same ones. -/
theorem precedes_head {a b : Edit} {es es' : List Edit}
    (hsorted : (b :: es').Pairwise Edit.Precedes)
    (h : Interchangeable (a :: es) (b :: es')) : b.Precedes a := by
  rcases List.mem_cons.mp (h.mem_iff.mp List.mem_cons_self) with rfl | ha
  · exact .inr ⟨rfl, Nat.le_refl _⟩
  · exact List.rel_of_pairwise_cons hsorted ha

theorem eq_of_interchangeable : ∀ {es es' : List Edit}, es.Pairwise Edit.Precedes →
    es'.Pairwise Edit.Precedes → Interchangeable es es' → es = es'
  | [], _, _, _, h => h.symm.eq_nil.symm
  | _ :: _, [], _, _, h => h.eq_nil
  | a :: es, b :: es', hes, hes', h => by
    -- the two heads precede each other, so that both are the first of their range
    have hrange := (precedes_head hes h.symm).antisymm (precedes_head hes' h)
    have hhead := h a.start a.stop
    rw [List.filter_cons_of_pos a.hasRange_self, List.filter_cons_of_pos hrange] at hhead
    obtain ⟨rfl, _⟩ := List.cons.inj hhead
    rw [eq_of_interchangeable hes.of_cons hes'.of_cons h.tail]

/-- **A queue is put in order in one way only.** -/
theorem Ordered.unique {queue es es' : List Edit} (h : Ordered queue es) (h' : Ordered queue es') :
    es = es' :=
  eq_of_interchangeable h.sorted h'.sorted (h.stable.trans h'.stable.symm)

/-- **Reading puts the queue in order.** -/
theorem ordered_settle (d : Draft) : Ordered d.queue d.settle.queue := by
  have hsorted := List.pairwise_mergeSort Edit.le_trans Edit.le_total d.queue
  refine ⟨hsorted.imp Edit.le_iff.mp, fun start stop => ?_⟩
  refine filter_mergeSort Edit.le_trans Edit.le_total ?_ d.queue
  intro a b ha hb
  obtain ⟨hstart, hstop⟩ := Edit.hasRange_iff.mp ha
  obtain ⟨hstart', hstop'⟩ := Edit.hasRange_iff.mp hb
  exact Edit.le_iff.mpr (.inr ⟨hstart.trans hstart'.symm, Nat.le_of_eq (hstop.trans hstop'.symm)⟩)

/-! ## Edits that keep apart -/

theorem not_apart_iff {es : List Edit} :
    ¬ Apart es ↔ ∃ a b, [a, b].Sublist es ∧ b.start < a.stop := by
  rw [Apart, List.pairwise_iff_forall_sublist]
  constructor
  · intro h
    by_contra hnone
    refine h fun {a b} hab => Nat.not_lt.mp fun hlt => hnone ⟨a, b, hab, hlt⟩
  · rintro ⟨a, b, hab, hlt⟩ h
    exact Nat.not_lt.mpr (h hab) hlt

/-- Edits keep apart if neighbours do. -/
theorem apart_of_firstOverlap {s : Text} : ∀ {es : List Edit}, (∀ e ∈ es, e.Within s) →
    firstOverlap es = none → Apart es
  | [], _, _ => .nil
  | [_], _, _ => List.pairwise_singleton _ _
  | a :: b :: es, hwithin, h => by
    rw [firstOverlap] at h
    split at h
    · cases h
    · next hab =>
      rw [List.forall_mem_cons] at hwithin
      have hrest := apart_of_firstOverlap hwithin.2 h
      refine .cons (fun e he => ?_) hrest
      rcases List.mem_cons.mp he with rfl | he
      · exact Nat.not_lt.mp hab
      · have hbe := List.rel_of_pairwise_cons hrest he
        have hb := (hwithin.2 b List.mem_cons_self).1
        omega

theorem firstOverlap_eq_some {a b : Edit} : ∀ {es : List Edit}, firstOverlap es = some (a, b) →
    [a, b] <:+: es ∧ b.start < a.stop
  | [], h => by cases h
  | [_], h => by cases h
  | x :: y :: es, h => by
    rw [firstOverlap] at h
    split at h
    · next hxy =>
      cases h
      exact ⟨⟨[], es, rfl⟩, hxy⟩
    · obtain ⟨hpair, hlt⟩ := firstOverlap_eq_some h
      exact ⟨List.infix_cons hpair, hlt⟩

/-- **Bytes before all edits are kept.** -/
theorem take_foldr {s : Text} {k : Nat} (hk : k ≤ s.length) : ∀ {es : List Edit},
    (∀ e ∈ es, k ≤ e.start) → (es.foldr Edit.applyTo s).take k = s.take k
  | [], _ => rfl
  | e :: es, h => by
    rw [List.forall_mem_cons] at h
    have hrest := take_foldr hk h.2
    rw [List.foldr_cons]
    generalize es.foldr Edit.applyTo s = t at hrest
    have hlength : k ≤ t.length := by
      have := congrArg List.length hrest
      rw [List.length_take, List.length_take] at this
      omega
    have hstart : k ≤ (t.take e.start).length := by
      rw [List.length_take]
      omega
    rw [Edit.applyTo, List.append_assoc, List.take_append_of_le_length hstart, List.take_take,
      Nat.min_eq_left h.1, hrest]

section Apart

variable {s : Text} {e : Edit} {es : List Edit}

/-- The text before an edit is not reached by the edits behind it. -/
theorem le_length_foldr (hwithin : ∀ a ∈ e :: es, a.Within s) (hapart : Apart (e :: es)) :
    e.stop ≤ (es.foldr Edit.applyTo s).length := by
  rw [List.forall_mem_cons] at hwithin
  have htake := congrArg List.length
    (take_foldr hwithin.1.2 fun a ha => List.rel_of_pairwise_cons hapart ha)
  have hstop := hwithin.1.2
  rw [List.length_take, List.length_take] at htake
  omega

/-- **Edits that keep apart are made from the last to the first.** -/
theorem splice_eq_drop_foldr {offset : Nat} (hwithin : ∀ a ∈ es, a.Within s) (hapart : Apart es)
    (hoffset : ∀ a ∈ es, offset ≤ a.start) :
    splice s offset es = (es.foldr Edit.applyTo s).drop offset := by
  induction es generalizing offset with
  | nil => rfl
  | cons e es ih =>
    have htake : (es.foldr Edit.applyTo s).take e.start = s.take e.start := by
      obtain ⟨hle, hstop⟩ := hwithin e List.mem_cons_self
      refine take_foldr (Nat.le_trans hle hstop) fun a ha => ?_
      exact Nat.le_trans hle (List.rel_of_pairwise_cons hapart ha)
    rw [List.forall_mem_cons] at hwithin hoffset
    have hrest := ih hwithin.2 hapart.of_cons fun a ha => List.rel_of_pairwise_cons hapart ha
    have hfront : offset ≤ (s.take e.start).length := by
      obtain ⟨hle, hstop⟩ := hwithin.1
      have hstart := hoffset.1
      rw [List.length_take]
      omega
    rw [splice, hrest, List.foldr_cons, Edit.applyTo, htake, List.append_assoc, List.append_assoc,
      List.drop_append_of_le_length hfront]

theorem splice_eq_foldr (hwithin : ∀ a ∈ es, a.Within s) (hapart : Apart es) :
    splice s 0 es = es.foldr Edit.applyTo s := by
  rw [splice_eq_drop_foldr hwithin hapart fun _ _ => Nat.zero_le _, List.drop_zero]

theorem length_foldr (hwithin : ∀ a ∈ es, a.Within s) (hapart : Apart es) :
    ((es.foldr Edit.applyTo s).length : Int) = s.length + Edit.totalGrowth es := by
  induction es with
  | nil => simp [Edit.totalGrowth]
  | cons e es ih =>
    have hlength := le_length_foldr hwithin hapart
    have hle := (hwithin e List.mem_cons_self).1
    have hrest := ih (List.forall_mem_cons.mp hwithin).2 hapart.of_cons
    simp only [List.foldr_cons, Edit.applyTo, List.length_append, List.length_take,
      List.length_drop, Edit.totalGrowth, Edit.growth]
    omega

end Apart

/-! ## Reading a draft -/

section Result

variable {d : Draft}

theorem result_eq_error {error : EditError} (h : d.result = .error error) :
    ∃ a b, error = .overlap a b ∧ [a, b] <:+: d.settle.queue ∧ b.start < a.stop := by
  simp only [result] at h
  split at h
  · next a b hsome =>
    cases h
    exact ⟨a, b, rfl, firstOverlap_eq_some hsome⟩
  · cases h

theorem result_eq_ok {s out : Text} (hwithin : ∀ e ∈ d.settle.queue, e.Within s)
    (h : d.result = .ok out) :
    out = splice d.base 0 d.settle.queue ∧ Apart d.settle.queue := by
  simp only [result] at h
  split at h
  · cases h
  · next hnone =>
    cases h
    exact ⟨rfl, apart_of_firstOverlap hwithin hnone⟩

/-- **Reading fails exactly if some edits do not keep apart**, neighbours or not. -/
theorem result_eq_error_iff {s : Text} (hwithin : ∀ e ∈ d.settle.queue, e.Within s) :
    (∃ error, d.result = .error error) ↔ ¬ Apart d.settle.queue := by
  constructor
  · rintro ⟨error, herror⟩
    obtain ⟨a, b, _, hpair, hlt⟩ := result_eq_error herror
    exact not_apart_iff.mpr ⟨a, b, hpair.sublist, hlt⟩
  · intro hnot
    cases hresult : d.result with
    | error error => exact ⟨error, rfl⟩
    | ok out => exact absurd (result_eq_ok hwithin hresult).2 hnot

end Result

/-! ## Uses of a draft -/

/-- What a draft is used for: its edits, and reading the edited text. -/
inductive Call where
  | insert (place : Int) (text : Text)
  | delete (start stop : Int)
  | replace (start stop : Int) (text : Text)
  | read
  deriving DecidableEq, Repr

/-- The draft after a call.  Reading puts the queue in order, also where edits overlap. -/
def call (d : Draft) : Call → Except EditError Draft
  | .insert place text => d.insert place text
  | .delete start stop => d.delete start stop
  | .replace start stop text => d.replace start stop text
  | .read => .ok d.settle

/-- The edit that a call queues. -/
def Call.edit? : Call → Option Edit
  | .insert place text => some ⟨place.toNat, place.toNat, text⟩
  | .delete start stop => some ⟨start.toNat, stop.toNat, []⟩
  | .replace start stop text => some ⟨start.toNat, stop.toNat, text⟩
  | .read => none

/-- The edits that calls queue, in that order. -/
def queued (calls : List Call) : List Edit := calls.filterMap Call.edit?

theorem replace_queued {d d' : Draft} {start stop : Int} {text : Text}
    (h : d.replace start stop text = .ok d') :
    d' = ⟨d.base, d.queue ++ [⟨start.toNat, stop.toNat, text⟩]⟩ ∧
      Edit.Within d.base ⟨start.toNat, stop.toNat, text⟩ := by
  unfold replace at h
  split at h
  · cases h
  · next hrange =>
    cases h
    simp only [Bool.or_eq_true, decide_eq_true_eq] at hrange
    exact ⟨rfl, by dsimp only; omega, by dsimp only; omega⟩

/-- **What one call leaves**: the queue with its edit behind all others, or put in order. -/
theorem call_eq_ok {d d' : Draft} {c : Call} (h : d.call c = .ok d') :
    d'.base = d.base ∧ Interchangeable d'.queue (d.queue ++ c.edit?.toList) ∧
      ∀ e ∈ c.edit?, e.Within d.base := by
  cases c with
  | read =>
    cases h
    rw [Call.edit?, Option.toList_none, List.append_nil]
    exact ⟨rfl, (ordered_settle d).stable, fun e he => by cases he⟩
  | insert place text =>
    obtain ⟨rfl, hwithin⟩ := replace_queued h
    exact ⟨rfl, fun _ _ => rfl, fun e he => by cases he; exact hwithin⟩
  | delete start stop =>
    obtain ⟨rfl, hwithin⟩ := replace_queued h
    exact ⟨rfl, fun _ _ => rfl, fun e he => by cases he; exact hwithin⟩
  | replace start stop text =>
    obtain ⟨rfl, hwithin⟩ := replace_queued h
    exact ⟨rfl, fun _ _ => rfl, fun e he => by cases he; exact hwithin⟩

/-- **What all calls leave**: a queue with the edits of the calls, however often it was read. -/
theorem calls_eq_ok {d d' : Draft} {calls : List Call} (h : calls.foldlM call d = .ok d') :
    d'.base = d.base ∧ Interchangeable d'.queue (d.queue ++ queued calls) ∧
      ∀ e ∈ queued calls, e.Within d.base := by
  induction calls generalizing d with
  | nil =>
    cases h
    rw [queued, List.filterMap_nil, List.append_nil]
    exact ⟨rfl, fun _ _ => rfl, fun e he => absurd he List.not_mem_nil⟩
  | cons c calls ih =>
    rw [List.foldlM_cons] at h
    cases hc : d.call c with
    | error e =>
      rw [hc] at h
      cases h
    | ok d₁ =>
      rw [hc] at h
      obtain ⟨hbase, hqueue, hwithin⟩ := call_eq_ok hc
      obtain ⟨hbase', hqueue', hwithin'⟩ := ih h
      have hqueued : queued (c :: calls) = c.edit?.toList ++ queued calls := by
        cases hedit : c.edit? <;> simp [queued, hedit]
      rw [hqueued]
      refine ⟨hbase'.trans hbase, ?_, fun e he => ?_⟩
      · rw [← List.append_assoc]
        exact hqueue'.trans (hqueue.append_right _)
      · rcases List.mem_append.mp he with he | he
        · exact hwithin e (Option.mem_toList.mp he)
        · exact hbase ▸ hwithin' e he

/-- **Edits are made together.**  After any accepted calls, whether and how often the draft was read
between them, the edits stand in one order, by their ranges and then as they were queued.  Reading
fails exactly if an edit starts before an earlier one of that order ends.  Otherwise it makes the
edits one by one, from the last to the first, and the lengths add up.  Calls that queue the same
edits of every range in the same order give the same result. -/
theorem result_simultaneous {s : Text} {calls : List Call} {d : Draft}
    (h : calls.foldlM call (ofText s) = .ok d) :
    ∃ es, Ordered (queued calls) es ∧ (∀ es', Ordered (queued calls) es' → es' = es) ∧
      ((∃ error, d.result = .error error) ↔ ∃ a b, [a, b].Sublist es ∧ b.start < a.stop) ∧
      (∀ error, d.result = .error error →
        ∃ a b, error = .overlap a b ∧ [a, b] <:+: es ∧ b.start < a.stop) ∧
      (∀ out, d.result = .ok out → out = es.foldr Edit.applyTo s ∧
        (out.length : Int) = s.length + Edit.totalGrowth (queued calls)) ∧
      ∀ (calls' : List Call) (d' : Draft), calls'.foldlM call (ofText s) = .ok d' →
        Interchangeable (queued calls') (queued calls) → d'.result = d.result := by
  obtain ⟨hbase, hqueue, hwithin⟩ := calls_eq_ok h
  have hordered : Ordered (queued calls) d.settle.queue :=
    ⟨(ordered_settle d).sorted, (ordered_settle d).stable.trans hqueue⟩
  have hinside : ∀ e ∈ d.settle.queue, e.Within s :=
    fun e he => hwithin e (hordered.stable.mem_iff.mp he)
  refine ⟨d.settle.queue, hordered, fun es' hes' => hes'.unique hordered, ?_, ?_, ?_, ?_⟩
  · rw [← not_apart_iff, result_eq_error_iff hinside]
  · intro error herror
    exact result_eq_error herror
  · intro out hout
    obtain ⟨hsplice, hapart⟩ := result_eq_ok hinside hout
    have hfoldr : out = d.settle.queue.foldr Edit.applyTo s := by
      rw [hsplice, hbase]
      exact splice_eq_foldr hinside hapart
    refine ⟨hfoldr, ?_⟩
    rw [hfoldr, length_foldr hinside hapart, Edit.totalGrowth_perm hordered.stable.perm]
  · intro calls' d' h' hsame
    obtain ⟨hbase', hqueue', _⟩ := calls_eq_ok h'
    have hordered' : Ordered (queued calls) d'.settle.queue :=
      ⟨(ordered_settle d').sorted, ((ordered_settle d').stable.trans hqueue').trans hsame⟩
    unfold result
    rw [hordered'.unique hordered, hbase, hbase']

/-- A replacement, a reading, two insertions where it starts, a removal and another reading. -/
def readBetween : List Call :=
  [.replace 2 4 (utf8 "x"), .read, .insert 2 (utf8 "a"), .insert 2 (utf8 "b"), .delete 6 7, .read]

theorem result_simultaneous_readBetween :
    ∃ d, readBetween.foldlM call (ofText (utf8 "01234567")) = .ok d ∧
      Ordered (queued readBetween)
        [⟨2, 2, utf8 "a"⟩, ⟨2, 2, utf8 "b"⟩, ⟨2, 4, utf8 "x"⟩, ⟨6, 7, []⟩] ∧
      d.result = .ok (utf8 "01abx457") := by
  obtain ⟨d, hd⟩ : ∃ d, readBetween.foldlM call (ofText (utf8 "01234567")) = .ok d := ⟨_, rfl⟩
  obtain ⟨es, _, hunique, hfails, _, hresult, _⟩ := result_simultaneous hd
  have hordered : Ordered (queued readBetween)
      [⟨2, 2, utf8 "a"⟩, ⟨2, 2, utf8 "b"⟩, ⟨2, 4, utf8 "x"⟩, ⟨6, 7, []⟩] := by
    decide +kernel
  rw [← hunique _ hordered] at hfails hresult
  refine ⟨d, hd, hordered, ?_⟩
  cases hout : d.result with
  | error error =>
    exact absurd (by decide +kernel) (not_apart_iff.mpr (hfails.mp ⟨error, hout⟩))
  | ok out => rw [(hresult out hout).1]; rfl

end Draft

end ActionLog
