import ActionLog.Fault
import Mathlib.Data.List.Dedup
import Mathlib.Data.List.Perm.Basic

/-!
# Lists of faults as sets

A list of faults is asked for many things one after another: faults are added to it, other lists are
merged into it, and it is put in order whenever it is summarized.  What it holds is said by the faults
that were added so far, not by the order of the calls in between.

* `Fault.key` — position and text, by which faults count as the same;
* `FaultList.Call`, `FaultList.after` — what a list is asked for, and the list after a run of calls;
* `FaultList.added` — the faults that the calls of a run add;
* `FaultList.Collects` — a list holds the first fault of every key, each once; `Collects.perform` says
  that every call keeps this up;
* `Ledger` — a list that looks its keys up in a store of their own; `Ledger.after_inStep` says that the
  store and the list never disagree.

Principal result: `FaultList.collected_in_every_run`.
-/

set_option autoImplicit false

namespace ActionLog

/-- What decides whether faults are the same: position and text. -/
def Fault.key (f : Fault) : Position × Text := (f.position, f.text)

theorem Fault.same_iff {f g : Fault} : f.same g = true ↔ f.key = g.key := by
  simp [Fault.same, Fault.key]

namespace FaultList

/-! ## Calls -/

/-- What is asked of a list of faults. -/
inductive Call where
  /-- Nothing is added where no error occurred. -/
  | addNothing
  /-- An error that names neither an entry nor a pass. -/
  | addMessage (message : Text) (malformed : Bool)
  | add (f : Fault)
  | merge (other : FaultList)
  /-- The list is merged into itself. -/
  | mergeSelf
  | summarize
  | err
  | unwrap
  deriving DecidableEq, Repr

/-- The faults that a call adds.  Another list adds its faults one by one, an empty one none, and a
list has nothing to add to itself. -/
def Call.faults : Call → List Fault
  | .addMessage message malformed => [.ofMessage message malformed]
  | .add f => [f]
  | .merge other => other.faults
  | .addNothing | .mergeSelf | .summarize | .err | .unwrap => []

/-- The list after a call.  The summary leaves its faults in order. -/
def perform (l : FaultList) : Call → FaultList
  | .addMessage message malformed => l.add (.ofMessage message malformed)
  | .add f => l.add f
  | .merge other => l.merge other
  | .mergeSelf => l.merge l
  | .summarize => l.sort
  | .addNothing | .err | .unwrap => l

/-- The list after calls that were made one after another. -/
def after (calls : List Call) : FaultList := calls.foldl perform empty

/-- The faults added by calls, in the order in which they were added. -/
def added (calls : List Call) : List Fault := calls.flatMap Call.faults

/-- The list as an error: none if it is empty. -/
def err? (l : FaultList) : Option FaultList := if l.faults.isEmpty then none else some l

/-! ## Adding -/

theorem any_same_iff (l : FaultList) (f : Fault) :
    l.faults.any (·.same f) = true ↔ f.key ∈ l.faults.map Fault.key := by
  simp [List.any_eq_true, Fault.same_iff]

theorem add_of_mem {l : FaultList} {f : Fault} (h : f.key ∈ l.faults.map Fault.key) :
    l.add f = l := by
  unfold add
  rw [if_pos ((any_same_iff l f).mpr h)]

theorem add_of_not_mem {l : FaultList} {f : Fault} (h : f.key ∉ l.faults.map Fault.key) :
    l.add f = ⟨l.faults ++ [f]⟩ := by
  unfold add
  rw [if_neg fun hany => h ((any_same_iff l f).mp hany)]

/-- A fault is left out exactly if the list holds its key. -/
theorem add_eq_self_iff {l : FaultList} {f : Fault} :
    l.add f = l ↔ f.key ∈ l.faults.map Fault.key := by
  constructor
  · intro heq
    by_contra h
    rw [add_of_not_mem h] at heq
    have hlen := congrArg (fun l : FaultList => l.faults.length) heq
    simp at hlen
  · exact add_of_mem

/-- Faults whose keys the list holds change nothing. -/
theorem foldl_add_of_mem {l : FaultList} {fs : List Fault}
    (h : ∀ f ∈ fs, f.key ∈ l.faults.map Fault.key) : fs.foldl add l = l := by
  induction fs with
  | nil => rfl
  | cons f fs ih =>
    rw [List.forall_mem_cons] at h
    rw [List.foldl_cons, add_of_mem h.1, ih h.2]

theorem merge_self (l : FaultList) : l.merge l = l :=
  foldl_add_of_mem fun _ hf => List.mem_map_of_mem hf

/-! ## What a list holds -/

/-- Of the faults added, a list holds the first one of every key, and each once. -/
structure Collects (fs : List Fault) (l : FaultList) : Prop where
  member : ∀ f, f ∈ l.faults ↔ fs.find? (·.key = f.key) = some f
  once : (l.faults.map Fault.key).Nodup

namespace Collects

variable {fs : List Fault} {l l' : FaultList}

theorem empty : Collects [] FaultList.empty := by
  refine ⟨?_, List.nodup_nil⟩
  intro f
  simp [FaultList.empty]

/-- The keys held are the keys added. -/
theorem mem_keys (h : Collects fs l) (k : Position × Text) :
    k ∈ l.faults.map Fault.key ↔ k ∈ fs.map Fault.key := by
  constructor
  · intro hk
    obtain ⟨f, hf, rfl⟩ := List.mem_map.mp hk
    exact List.mem_map_of_mem (List.mem_of_find?_eq_some ((h.member f).mp hf))
  · intro hk
    obtain ⟨g, hg, rfl⟩ := List.mem_map.mp hk
    -- the first fault with the key of `g` is held
    cases hfind : fs.find? (·.key = g.key) with
    | none => simpa using List.find?_eq_none.mp hfind g hg
    | some f =>
      have hkey : f.key = g.key := by simpa using List.find?_some hfind
      rw [← hkey] at hfind ⊢
      exact List.mem_map_of_mem ((h.member f).mpr hfind)

/-- A fault is found among those added exactly if its key is held. -/
theorem find?_isSome (h : Collects fs l) (f : Fault) :
    (fs.find? (·.key = f.key)).isSome = true ↔ f.key ∈ l.faults.map Fault.key := by
  rw [h.mem_keys, List.find?_isSome]
  simp

theorem add (h : Collects fs l) (f : Fault) : Collects (fs ++ [f]) (l.add f) := by
  by_cases hf : f.key ∈ l.faults.map Fault.key
  · rw [add_of_mem hf]
    refine ⟨?_, h.once⟩
    intro g
    rw [h.member, List.find?_append]
    cases hg : fs.find? (·.key = g.key) with
    | some x => rw [Option.some_or]
    | none =>
      -- the key of `g` was not added before, but that of `f` was
      have hne : f.key ≠ g.key := by
        intro hkey
        rw [← hkey] at hg
        simpa [hg] using (h.find?_isSome f).mpr hf
      simp [hne]
  · rw [add_of_not_mem hf]
    constructor
    · intro g
      rw [List.mem_append, List.mem_singleton, h.member, List.find?_append]
      by_cases hkey : f.key = g.key
      · have hnone : fs.find? (·.key = g.key) = none := by
          rw [← hkey, ← Option.not_isSome_iff_eq_none, h.find?_isSome]
          exact hf
        simp [hnone, hkey, eq_comm (a := g)]
      · have hne : g ≠ f := fun heq => hkey (heq ▸ rfl)
        simp [hkey, hne]
    · rw [List.map_append, List.nodup_append]
      refine ⟨h.once, List.nodup_singleton _, ?_⟩
      intro k hk k' hk' heq
      rw [List.map_singleton, List.mem_singleton] at hk'
      exact hf (hk' ▸ heq ▸ hk)

theorem foldl_add (h : Collects fs l) (gs : List Fault) :
    Collects (fs ++ gs) (gs.foldl FaultList.add l) := by
  induction gs generalizing fs l with
  | nil => simpa using h
  | cons g gs ih =>
    have hnext := ih (h.add g)
    rwa [List.append_assoc] at hnext

theorem of_perm (h : Collects fs l) (hperm : l'.faults.Perm l.faults) : Collects fs l' := by
  constructor
  · intro f
    rw [hperm.mem_iff, h.member]
  · exact (hperm.map Fault.key).nodup_iff.mpr h.once

/-- **Every call keeps up what a list holds.** -/
theorem perform (h : Collects fs l) (c : Call) : Collects (fs ++ c.faults) (l.perform c) := by
  cases c with
  | addMessage message malformed => exact h.add _
  | add f => exact h.add f
  | merge other => exact h.foldl_add other.faults
  | mergeSelf =>
    show Collects (fs ++ []) (l.merge l)
    rw [List.append_nil, merge_self]
    exact h
  | summarize =>
    show Collects (fs ++ []) l.sort
    rw [List.append_nil]
    exact h.of_perm (List.mergeSort_perm _ _)
  | addNothing | err | unwrap =>
    show Collects (fs ++ []) l
    rwa [List.append_nil]

theorem foldl_perform (h : Collects fs l) (calls : List Call) :
    Collects (fs ++ added calls) (calls.foldl FaultList.perform l) := by
  induction calls generalizing fs l with
  | nil => simpa [added] using h
  | cons c calls ih =>
    have hnext := ih (h.perform c)
    rwa [List.append_assoc] at hnext

/-- Lists that hold the faults of the same calls differ in their order only. -/
theorem perm (h : Collects fs l) (h' : Collects fs l') : l.faults.Perm l'.faults := by
  rw [List.perm_ext_iff_of_nodup h.once.of_map h'.once.of_map]
  intro f
  rw [h.member, h'.member]

theorem size_eq (h : Collects fs l) : l.size = (fs.map Fault.key).dedup.length := by
  have hperm : (l.faults.map Fault.key).Perm (fs.map Fault.key).dedup := by
    rw [List.perm_ext_iff_of_nodup h.once (List.nodup_dedup _)]
    intro k
    rw [h.mem_keys, List.mem_dedup]
  rw [← hperm.length_eq, List.length_map]
  rfl

theorem err?_eq_none_iff (h : Collects fs l) : l.err? = none ↔ fs = [] := by
  have hempty : l.err? = none ↔ l.size = 0 := by
    simp [err?, size]
  rw [hempty, h.size_eq, List.length_eq_zero_iff, List.dedup_eq_nil, List.map_eq_nil_iff]

end Collects

theorem after_append (calls later : List Call) :
    after (calls ++ later) = later.foldl perform (after calls) := by
  simp only [after, List.foldl_append]

/-- **After every run, a list holds the first of the faults that were added with each key.** -/
theorem collects_after (calls : List Call) : Collects (added calls) (after calls) :=
  Collects.empty.foldl_perform calls

/-- Which faults are left out depends on the faults added so far. -/
theorem add_after_eq_self_iff (calls : List Call) (f : Fault) :
    (after calls).add f = after calls ↔ f.key ∈ (added calls).map Fault.key := by
  rw [add_eq_self_iff, (collects_after calls).mem_keys]

theorem after_concat_merge (calls : List Call) (other : FaultList) :
    after (calls ++ [.merge other]) = after (calls ++ other.faults.map .add) := by
  rw [after_append, after_append, List.foldl_map]
  rfl

/-- A list whose faults were added before brings nothing new. -/
theorem merge_after_eq_self {calls : List Call} {other : FaultList}
    (h : other.faults ⊆ added calls) : (after calls).merge other = after calls := by
  apply foldl_add_of_mem
  intro f hf
  rw [(collects_after calls).mem_keys]
  exact List.mem_map_of_mem (h hf)

/-! ## Keys in a store of their own -/

/-- Faults, and the keys of those that are held, in two places.  Whether a fault is held is looked up
among the keys, and the faults alone are put in order. -/
structure Ledger where
  faults : List Fault
  keys : List (Position × Text)
  deriving DecidableEq, Repr

namespace Ledger

def empty : Ledger := ⟨[], []⟩

def add (r : Ledger) (f : Fault) : Ledger :=
  if f.key ∈ r.keys then r else ⟨r.faults ++ [f], f.key :: r.keys⟩

def sort (r : Ledger) : Ledger := { r with faults := (FaultList.mk r.faults).sort.faults }

/-- The ledger after a call. -/
def perform (r : Ledger) : Call → Ledger
  | .addMessage message malformed => r.add (.ofMessage message malformed)
  | .add f => r.add f
  | .merge other => other.faults.foldl add r
  | .mergeSelf => r.faults.foldl add r
  | .summarize => r.sort
  | .addNothing | .err | .unwrap => r

/-- The ledger after calls that were made one after another. -/
def after (calls : List Call) : Ledger := calls.foldl perform empty

/-- A ledger that holds the faults of a list, and their keys and no others. -/
structure InStep (r : Ledger) (l : FaultList) : Prop where
  faults : r.faults = l.faults
  keys : ∀ k, k ∈ r.keys ↔ k ∈ l.faults.map Fault.key

namespace InStep

variable {r : Ledger} {l : FaultList}

theorem add (h : InStep r l) (f : Fault) : InStep (r.add f) (l.add f) := by
  unfold Ledger.add
  by_cases hf : f.key ∈ l.faults.map Fault.key
  · rw [if_pos ((h.keys _).mpr hf), add_of_mem hf]
    exact h
  · rw [if_neg fun hkey => hf ((h.keys _).mp hkey), add_of_not_mem hf]
    refine ⟨by rw [h.faults], ?_⟩
    intro k
    simp [h.keys k, or_comm]

theorem foldl_add (h : InStep r l) (fs : List Fault) :
    InStep (fs.foldl Ledger.add r) (fs.foldl FaultList.add l) := by
  induction fs generalizing r l with
  | nil => exact h
  | cons f fs ih => exact ih (h.add f)

/-- Putting the faults in order does not touch the keys, and need not. -/
theorem sort (h : InStep r l) : InStep r.sort l.sort := by
  refine ⟨by simp only [Ledger.sort, h.faults], ?_⟩
  intro k
  have hperm : (l.sort.faults.map Fault.key).Perm (l.faults.map Fault.key) :=
    (List.mergeSort_perm _ _).map Fault.key
  rw [hperm.mem_iff]
  exact h.keys k

theorem perform (h : InStep r l) (c : Call) : InStep (r.perform c) (l.perform c) := by
  cases c with
  | addMessage message malformed => exact h.add _
  | add f => exact h.add f
  | merge other => exact h.foldl_add other.faults
  | mergeSelf =>
    show InStep (r.faults.foldl Ledger.add r) (l.faults.foldl FaultList.add l)
    rw [h.faults]
    exact h.foldl_add l.faults
  | summarize => exact h.sort
  | addNothing | err | unwrap => exact h

end InStep

/-- **The faults and the keys never disagree**, although only adding a fault changes both. -/
theorem after_inStep (calls : List Call) : InStep (after calls) (FaultList.after calls) := by
  suffices h : ∀ (r : Ledger) (l : FaultList), InStep r l →
      InStep (calls.foldl perform r) (calls.foldl FaultList.perform l) from
    h empty FaultList.empty ⟨rfl, fun _ => Iff.rfl⟩
  induction calls with
  | nil =>
    intro r l h
    exact h
  | cons c calls ih =>
    intro r l h
    exact ih _ _ (h.perform c)

end Ledger

/-! ## Every run -/

/-- **A list of faults is a set under any history of calls.**  Its faults are the first ones added with
their position and text, each once, and there are as many as different keys were added; as an error it
is nothing exactly if no fault was added.  A fault is left out exactly if its key was added before,
however often the list was put in order in between; had it not been, the same faults would be held,
and the same ones left out.  Another list counts as its faults one by one, and merging it once more, or
a list into itself, changes nothing.  The same faults are held, in the same order, by a ledger that looks
only at a store of keys, and the store holds the keys of these faults. -/
theorem collected_in_every_run (calls : List Call) :
    (∀ f, f ∈ (after calls).faults ↔ (added calls).find? (·.key = f.key) = some f) ∧
    ((after calls).faults.map Fault.key).Nodup ∧
    (after calls).size = ((added calls).map Fault.key).dedup.length ∧
    ((after calls).err? = none ↔ added calls = []) ∧
    (∀ f, (after calls).add f = after calls ↔ f.key ∈ (added calls).map Fault.key) ∧
    (∀ later, (after (calls ++ .summarize :: later)).faults.Perm (after (calls ++ later)).faults ∧
      ∀ f, (after (calls ++ .summarize :: later)).add f = after (calls ++ .summarize :: later) ↔
        (after (calls ++ later)).add f = after (calls ++ later)) ∧
    (∀ other, after (calls ++ [.merge other]) = after (calls ++ other.faults.map .add)) ∧
    (∀ other later, after (calls ++ .merge other :: later ++ [.merge other]) =
      after (calls ++ .merge other :: later)) ∧
    after (calls ++ [.mergeSelf]) = after calls ∧
    (Ledger.after calls).faults = (after calls).faults ∧
    ∀ k, k ∈ (Ledger.after calls).keys ↔ k ∈ (after calls).faults.map Fault.key := by
  have hcollects := collects_after calls
  have hstep := Ledger.after_inStep calls
  refine ⟨hcollects.member, hcollects.once, hcollects.size_eq, hcollects.err?_eq_none_iff,
    add_after_eq_self_iff calls, ?_, after_concat_merge calls, ?_, ?_, hstep.faults, hstep.keys⟩
  · intro later
    -- a summary adds nothing, so that both runs add the same faults
    have hadded : added (calls ++ .summarize :: later) = added (calls ++ later) := by
      simp [added, Call.faults]
    refine ⟨?_, ?_⟩
    · apply (collects_after _).perm
      rw [hadded]
      exact collects_after _
    · intro f
      rw [add_after_eq_self_iff, add_after_eq_self_iff, hadded]
  · intro other later
    rw [after_append (calls ++ .merge other :: later)]
    apply merge_after_eq_self
    intro f hf
    simp only [added, List.flatMap_append, List.flatMap_cons, Call.faults, List.mem_append]
    exact .inr (.inl hf)
  · rw [after_append]
    exact merge_self (after calls)

/-- Faults that differ in pass and message may say the same, and the first of them is held. -/
example : (after [.add ⟨⟨1, 2⟩, utf8 "hoist", utf8 "x: y", false⟩, .addNothing,
    .add ⟨⟨1, 2⟩, utf8 "hoist: x", utf8 "y", true⟩, .addMessage (utf8 "plain") false, .mergeSelf]).faults =
    [⟨⟨1, 2⟩, utf8 "hoist", utf8 "x: y", false⟩, .ofMessage (utf8 "plain") false] := by
  decide +kernel

end FaultList

end ActionLog
