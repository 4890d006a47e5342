import ActionLog.Proofs.History

/-!
# What a cache holds

A cache that forgets the least recent answer first holds the codes asked for most recently, each with
the answer of the resolver behind it, and nothing else.  So what it holds is known from the codes asked
for alone, in whichever way hits and misses have followed each other.

* `LeastRecent.latest` — the codes asked for most recently, without repetition, newest first;
* `Cached.Recalls` — a resolver for a codebook whose cache holds exactly the latest codes;
* `Cached.Recalls.resolve` — one more code: the answer, whether the lookup is consulted, and what is
  held then.

Principal result: `Cached.cache_transparent`.
-/

set_option autoImplicit false

namespace ActionLog

open Resolver (after after_concat Answers)

namespace LeastRecent

/-- The last `size` different codes that were asked for, newest first. -/
def latest (size : Nat) (asked : List Text) : List Text := asked.reverse.eraseDups.take size

theorem eraseDups_filter (p : Text → Bool) :
    ∀ l : List Text, (l.filter p).eraseDups = l.eraseDups.filter p
  | [] => by simp
  | a :: l => by
    have hlen : (l.filter fun b => !b == a).length < (a :: l).length :=
      Nat.lt_succ_of_le (List.length_filter_le _ _)
    have ih := eraseDups_filter p (l.filter fun b => !b == a)
    rw [List.filter_filter] at ih
    rw [List.eraseDups_cons]
    by_cases ha : p a = true
    · rw [List.filter_cons_of_pos ha, List.filter_cons_of_pos ha, List.eraseDups_cons, ← ih,
        List.filter_filter]
      simp only [Bool.and_comm]
    · rw [List.filter_cons_of_neg ha, List.filter_cons_of_neg ha, ← ih]
      congr 1
      refine List.filter_congr fun b _ => ?_
      by_cases hb : b = a
      · simp [hb, ha]
      · simp [hb]
termination_by l => l.length
decreasing_by exact hlen

/-- Without one code, the first `k + 1` codes are `k` of those that are left, or all of them. -/
theorem take_filter_take (code : Text) :
    ∀ (l : List Text) (k : Nat), ((l.eraseDups.take (k + 1)).filter (· != code)).take k =
      (l.eraseDups.filter (· != code)).take k
  | [], k => by simp
  | a :: l, k => by
    have hlen : (l.filter fun b => !b == a).length < (a :: l).length :=
      Nat.lt_succ_of_le (List.length_filter_le _ _)
    rw [List.eraseDups_cons, List.take_succ_cons]
    by_cases ha : a = code
    · -- the code stands at the front, and nowhere else
      have hrest : ∀ x ∈ (l.filter fun b => !b == a).eraseDups, (x != code) = true := by
        intro x hx
        simpa [ha] using (List.mem_filter.mp (List.mem_eraseDups.mp hx)).2
      have hdrop : ∀ xs : List Text, (a :: xs).filter (· != code) = xs.filter (· != code) := by
        intro xs
        simp [ha]
      rw [hdrop, hdrop, List.filter_eq_self.mpr hrest,
        List.filter_eq_self.mpr fun x hx => hrest x (List.mem_of_mem_take hx), List.take_take,
        Nat.min_self]
    · have hkeep : ∀ xs : List Text, (a :: xs).filter (· != code) = a :: xs.filter (· != code) := by
        intro xs
        simp [ha]
      rw [hkeep, hkeep]
      cases k with
      | zero => rfl
      | succ k =>
        rw [List.take_succ_cons, List.take_succ_cons,
          take_filter_take code (l.filter fun b => !b == a) k]
termination_by l => l.length
decreasing_by exact hlen

/-- **A code that is asked for becomes the newest**, and beyond the size the oldest one goes. -/
theorem latest_concat (size : Nat) (asked : List Text) (code : Text) :
    latest size (asked ++ [code]) =
      (code :: (latest size asked).filter (· != code)).take size := by
  unfold latest
  rw [List.reverse_append, List.reverse_singleton, List.singleton_append, List.eraseDups_cons]
  cases size with
  | zero => rfl
  | succ k =>
    rw [List.take_succ_cons, List.take_succ_cons, take_filter_take, ← eraseDups_filter]
    rfl

/-- A code that is asked for again is renewed, and none is dropped. -/
theorem latest_concat_of_mem {size : Nat} {asked : List Text} {code : Text}
    (h : code ∈ latest size asked) :
    latest size (asked ++ [code]) = code :: (latest size asked).filter (· != code) := by
  have hfewer : ((latest size asked).filter (· != code)).length < (latest size asked).length :=
    List.length_filter_lt_length_iff_exists.mpr ⟨code, h, by simp⟩
  have hroom : (latest size asked).length ≤ size := List.length_take_le _ _
  rw [latest_concat, List.take_of_length_le]
  rw [List.length_cons]
  omega

theorem lookup_map (answer : Text → Option Text) (codes : List Text) (code : Text) :
    List.lookup code (codes.map fun c => (c, answer c)) =
      if code ∈ codes then some (answer code) else none := by
  induction codes with
  | nil => simp
  | cons c codes ih =>
    rw [List.map_cons, List.lookup_cons, ih]
    by_cases hc : code = c
    · simp [hc]
    · have hne : (code == c) = false := by simpa using hc
      simp [hc, hne]

end LeastRecent

namespace Cached

open LeastRecent (latest latest_concat latest_concat_of_mem)

variable {κ : Type} [Cache κ] {lru : LeastRecent κ} {r : Cached BookResolver κ} {book : Codebook}
  {size : Nat} {asked : List Text}

/-- The resolver answers from the codebook, and its cache holds the latest codes with its answers. -/
structure Recalls (lru : LeastRecent κ) (r : Cached BookResolver κ) (book : Codebook) (size : Nat)
    (asked : List Text) : Prop where
  book_eq : r.resolver.book = book
  capacity_eq : lru.capacity r.cache = size
  held_eq : lru.held r.cache = (latest size asked).map fun code => (code, book.resolve code)

/-- A resolver that has not been asked yet. -/
theorem ofSize_recalls (lru : LeastRecent κ) (book : Codebook) {size : Int} (hsize : 1 ≤ size) :
    ∃ r : Cached BookResolver κ, ofSize (.ofBook book) size = .ok r ∧ r.resolver.consulted = 0 ∧
      r.Recalls lru book size.toNat [] := by
  obtain ⟨cache, hcache, hcapacity, hheld⟩ := lru.made size hsize
  refine ⟨⟨.ofBook book, cache⟩, ?_, rfl, rfl, hcapacity, ?_⟩
  · rw [ofSize, hcache]
    rfl
  · rw [hheld]
    simp [latest]

/-- **One more code**: it is answered as by the codebook, the lookup is consulted unless the code is
ambiguous or one of the latest, and it becomes the newest. -/
theorem Recalls.resolve (h : r.Recalls lru book size asked) (code : Text) :
    (Resolver.resolve r code).1 = book.resolve code ∧
    (Resolver.resolve r code).2.resolver.consulted = r.resolver.consulted +
      (if book.isAmbiguous code = false ∧ code ∉ latest size asked then 1 else 0) ∧
    (Resolver.resolve r code).2.Recalls lru book size (asked ++ [code]) := by
  have hlookup := LeastRecent.lookup_map book.resolve (latest size asked) code
  rw [← h.held_eq] at hlookup
  have hnewest : (code, book.resolve code) :: (lru.held r.cache).filter (·.1 != code) =
      (code :: (latest size asked).filter (· != code)).map fun c => (c, book.resolve c) := by
    rw [h.held_eq, List.filter_map]
    rfl
  rw [resolve_eq lru]
  by_cases hlatest : code ∈ latest size asked
  · rw [if_pos hlatest] at hlookup
    rw [hlookup, if_neg fun hmiss => hmiss.2 hlatest]
    refine ⟨rfl, rfl, h.book_eq, (lru.capacity_get _ _).trans h.capacity_eq, ?_⟩
    rw [(lru.hit _ _ _ hlookup).2, hnewest, latest_concat_of_mem hlatest]
  · rw [if_neg hlatest] at hlookup
    rw [hlookup]
    have hanswer : (r.resolver.consult code).1 = book.resolve code := by
      rw [← h.book_eq]
      rfl
    refine ⟨hanswer, ?_, (r.resolver.consult_book code).trans h.book_eq,
      (lru.capacity_add _ _ _).trans ((lru.capacity_get _ _).trans h.capacity_eq), ?_⟩
    · show (r.resolver.consult code).2.consulted = _
      unfold BookResolver.consult
      rw [h.book_eq]
      cases book.isAmbiguous code <;> simp [hlatest]
    · show lru.held (Cache.add _ code (r.resolver.consult code).1) = _
      rw [hanswer, lru.added, lru.capacity_get, h.capacity_eq, (lru.miss _ _ hlookup).2, hnewest,
        latest_concat, List.map_take]

/-- **What is held after any codes.** -/
theorem Recalls.after (h : r.Recalls lru book size []) (codes : List Text) :
    (Resolver.after r codes).Recalls lru book size codes := by
  induction codes using List.reverseRecOn with
  | nil => exact h
  | append_singleton codes code ih =>
    rw [after_concat]
    exact (ih.resolve code).2.2

/-- **A cache is not seen in the answers.**  Whatever the cache is, as long as it forgets the least
recent answer first: over any codes, a resolver behind a cache with room for some positive number of
answers gives those of the resolver alone, and the lookup is consulted exactly for a code that is
neither ambiguous nor one of the latest, as many as there is room for.  So a pipeline gives the same
reports with either of them, whatever it was used for before. -/
theorem cache_transparent (lru : LeastRecent κ) (book : Codebook) (size : Int) (hsize : 1 ≤ size) :
    ∃ r : Cached BookResolver κ, ofSize (.ofBook book) size = .ok r ∧ r.resolver.consulted = 0 ∧
      (∀ (asked : List Text) (code : Text),
        (Resolver.resolve (after r asked) code).1 =
          (Resolver.resolve (after (BookResolver.ofBook book) asked) code).1 ∧
        (Resolver.resolve (after r asked) code).1 = book.resolve code ∧
        (after r (asked ++ [code])).resolver.consulted = (after r asked).resolver.consulted +
          (if book.isAmbiguous code = false ∧ code ∉ latest size.toNat asked then 1 else 0)) ∧
      ∀ (o : Options) (t : Tables) (calls : List Call) (log : Text),
        (((Pipeline.make o t r).after calls).process log).1 =
          (((Pipeline.make o t (BookResolver.ofBook book)).after calls).process log).1 := by
  obtain ⟨r, hr, hzero, hrecalls⟩ := ofSize_recalls lru book hsize
  have hplain : Answers (BookResolver.ofBook book) book.resolve := (BookResolver.ofBook book).answers
  refine ⟨r, hr, hzero, ?_, ?_⟩
  · intro asked code
    obtain ⟨hanswer, hconsulted, _⟩ := (hrecalls.after asked).resolve code
    rw [after_concat]
    exact ⟨hanswer.trans (hplain asked code).symm, hanswer, hconsulted⟩
  · intro o t calls log
    have halike : (Pipeline.make o t r).Alike (Pipeline.make o t (BookResolver.ofBook book)) :=
      ⟨rfl, rfl, rfl, book.resolve, Cached.answers (ofSize_faithful lru hplain hr), hplain⟩
    exact (((halike.after calls).symm.after calls).symm).process log

/-- A codebook with a known code, an ambiguous one, and no other. -/
def twoCodes : Codebook where
  lookup code := if code = utf8 "setd" then some (utf8 "set") else none
  ambiguous := [utf8 "null"]

/-- With room for two answers, a code that was asked for again is still known, and the one asked for
in between is forgotten, although the lookup does not know it. -/
theorem cache_transparent_two : 1 ≤ (2 : Int) ∧
    ∃ (r : Cached BookResolver Recall) (asked : List Text), ofSize (.ofBook twoCodes) 2 = .ok r ∧
      asked = [utf8 "setd", utf8 "none", utf8 "setd", utf8 "null"] ∧
      (Resolver.resolve (after r asked) (utf8 "setd")).1 = some (utf8 "set") ∧
      (after r (asked ++ [utf8 "setd"])).resolver.consulted = (after r asked).resolver.consulted ∧
      (after r (asked ++ [utf8 "null"])).resolver.consulted = (after r asked).resolver.consulted ∧
      (after r (asked ++ [utf8 "none"])).resolver.consulted =
        (after r asked).resolver.consulted + 1 := by
  refine ⟨by decide, ?_⟩
  obtain ⟨r, hr, _, hrun, _⟩ := cache_transparent Recall.leastRecent twoCodes 2 (by decide)
  refine ⟨r, _, hr, rfl, ?_, ?_, ?_, ?_⟩
  · exact (hrun _ _).2.1.trans (by decide +kernel)
  · exact (hrun _ _).2.2.trans (by rw [if_neg (by decide +kernel), Nat.add_zero])
  · exact (hrun _ _).2.2.trans (by rw [if_neg (by decide +kernel), Nat.add_zero])
  · exact (hrun _ _).2.2.trans (by rw [if_pos (by decide +kernel)])

end Cached

end ActionLog
