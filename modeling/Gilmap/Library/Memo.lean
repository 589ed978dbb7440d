import Gilmap.Library.Transition

/-! # Memo tables

A table that several callers share. Each looks for the key of its input, and where it finds
nothing it computes the value on its own and puts it in. Two callers may compute for one key
at the same time; the later value replaces the earlier one.
-/
namespace Gilmap.Library

/-- The table, and the inputs whose callers have been answered from it. -/
structure Memo (ι κ ν : Type*) where
  table : κ → Option ν
  answered : Set ι

inductive MemoAction (ι : Type*)
  /-- the key is there -/
  | find (i : ι)
  /-- a value is put in -/
  | store (i : ι)

namespace Memo
variable {ι κ ν : Type*} [DecidableEq κ] {key : ι → κ} {compute : ι → Option ν}
  {m m' : Memo ι κ ν} {a : MemoAction ι} {as : List (MemoAction ι)} {i : ι}

def empty : Memo ι κ ν := ⟨fun _ => none, ∅⟩

def step (key : ι → κ) (compute : ι → Option ν) (m : Memo ι κ ν) :
    MemoAction ι → Option (Memo ι κ ν)
  | .find i =>
    if (m.table (key i)).isSome then some { m with answered := insert i m.answered } else none
  | .store i =>
    (compute i).map fun v => ⟨Function.update m.table (key i) (some v), insert i m.answered⟩

/-- What is in the table has been computed for an answered input of its key, and the key of
every answered input is there. -/
structure Sound (key : ι → κ) (compute : ι → Option ν) (m : Memo ι κ ν) : Prop where
  computed : ∀ k v, m.table k = some v → ∃ i ∈ m.answered, key i = k ∧ compute i = some v
  present : ∀ i ∈ m.answered, (m.table (key i)).isSome = true

omit [DecidableEq κ] in
theorem sound_empty : Sound key compute (empty : Memo ι κ ν) where
  computed _ _ h := nomatch h
  present _ h := h.elim

omit [DecidableEq κ] in
theorem Sound.find (h : Sound key compute m) (hi : (m.table (key i)).isSome = true) :
    Sound key compute { m with answered := insert i m.answered } where
  computed k v hv := by
    obtain ⟨j, hj, hk⟩ := h.computed k v hv
    exact ⟨j, Set.mem_insert_of_mem _ hj, hk⟩
  present j hj := by
    rcases Set.mem_insert_iff.mp hj with rfl | hj
    · exact hi
    · exact h.present j hj

theorem Sound.store {v : ν} (h : Sound key compute m) (hv : compute i = some v) :
    Sound key compute ⟨Function.update m.table (key i) (some v), insert i m.answered⟩ where
  computed k u hu := by
    change Function.update m.table (key i) (some v) k = some u at hu
    rw [Function.update_apply] at hu
    split at hu
    · cases hu
      exact ⟨i, Set.mem_insert _ _, Eq.symm ‹_›, hv⟩
    · obtain ⟨j, hj, hk⟩ := h.computed k u hu
      exact ⟨j, Set.mem_insert_of_mem _ hj, hk⟩
  present j hj := by
    change (Function.update m.table (key i) (some v) (key j)).isSome = true
    rw [Function.update_apply]
    split
    · rfl
    · rcases Set.mem_insert_iff.mp hj with rfl | hj
      · contradiction
      · exact h.present j hj

theorem Sound.step (h : Sound key compute m) (hs : m.step key compute a = some m') :
    Sound key compute m' := by
  cases a with
  | find i =>
    simp only [Memo.step, Option.ite_none_right_eq_some] at hs
    obtain ⟨hi, hs⟩ := hs
    cases hs
    exact h.find hi
  | store i =>
    obtain ⟨v, hv, rfl⟩ := Option.map_eq_some_iff.mp hs
    exact h.store hv

theorem sound_of_run {ok : Memo ι κ ν → MemoAction ι → Prop}
    (h : Run (step key compute) ok empty as m) : Sound key compute m :=
  h.invariant sound_empty fun hm _ hs => hm.step hs

omit [DecidableEq κ] in
/-- **A memo table cannot be told from the computation** by a caller that it has answered,
unless another input shares its key. -/
theorem Sound.table_eq (h : Sound key compute m) (hi : i ∈ m.answered)
    (hkey : ∀ j ∈ m.answered, key j = key i → j = i) : m.table (key i) = compute i := by
  obtain ⟨v, hv⟩ := Option.isSome_iff_exists.mp (h.present i hi)
  obtain ⟨j, hj, hk, hcompute⟩ := h.computed _ _ hv
  rw [hv, ← hcompute, hkey j hj hk]

end Memo
end Gilmap.Library
