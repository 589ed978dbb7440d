import Mathlib.Tactic

/-! # Lists with one entry changed or added

The threads of a system are entries of a list: a step changes one of them, and a new thread
comes to the end. Threads of a kind are counted.
-/
namespace Gilmap.Library
variable {α β : Type*}

theorem getElem?_set_some {l : List α} {i j : ℕ} {a b : α} (hi : l[i]? = some a) :
    (l.set i b)[j]? = if i = j then some b else l[j]? := by
  rw [List.getElem?_set]
  split
  · rename_i h
    subst h
    rw [if_pos (List.getElem?_eq_some_iff.mp hi).1]
  · rfl

theorem getElem?_set_self_some {l : List α} {i : ℕ} {a b c : α} (hi : l[i]? = some a)
    (h : (l.set i b)[i]? = some c) : c = b := by
  rw [getElem?_set_some hi, if_pos rfl] at h
  exact (Option.some.inj h).symm

theorem getElem?_set_cases {l : List α} {i j : ℕ} {a b : α} (h : (l.set i a)[j]? = some b) :
    l[j]? = some b ∨ b = a := by
  rw [List.getElem?_set] at h
  split at h
  · split at h
    · exact .inr (Option.some.inj h).symm
    · cases h
  · exact .inl h

theorem getElem?_concat_some {l : List α} {i : ℕ} {a b : α} (h : (l ++ [a])[i]? = some b) :
    l[i]? = some b ∨ i = l.length ∧ b = a := by
  rw [List.getElem?_append] at h
  split at h
  · exact .inl h
  · have hlast := (List.getElem?_eq_some_iff.mp h).1
    rw [List.length_singleton] at hlast
    exact .inr ⟨by omega, List.mem_singleton.mp (List.mem_of_getElem? h)⟩

theorem getElem?_concat_cases {l : List α} {i : ℕ} {a b : α} (h : (l ++ [a])[i]? = some b) :
    l[i]? = some b ∨ b = a :=
  (getElem?_concat_some h).imp_right And.right

theorem map_set_of_eq {g : α → β} {l : List α} {i : ℕ} {a b : α} (hi : l[i]? = some a)
    (h : g b = g a) : (l.set i b).map g = l.map g := by
  obtain ⟨hlt, rfl⟩ := List.getElem?_eq_some_iff.mp hi
  rw [List.map_set, h, ← List.getElem_map g (h := by simpa using hlt), List.set_getElem_self]

theorem countP_set_add {p : α → Bool} {l : List α} {i : ℕ} {a b : α}
    (hi : l[i]? = some a) :
    (l.set i b).countP p + (if p a then 1 else 0) = l.countP p + if p b then 1 else 0 := by
  obtain ⟨hlt, rfl⟩ := List.getElem?_eq_some_iff.mp hi
  have hle := List.boole_getElem_le_countP (p := p) hlt
  rw [List.countP_set hlt]
  omega

theorem sum_countP_key [DecidableEq β] {key : α → β} {p : α → Bool} {S : Finset β} {l : List α}
    (hl : ∀ a ∈ l, key a ∈ S) :
    ∑ k ∈ S, l.countP (fun a => p a && key a == k) = l.countP p := by
  induction l with
  | nil => simp
  | cons a l ih =>
    have ha := hl a List.mem_cons_self
    have hrest := ih fun b hb => hl b (List.mem_cons_of_mem a hb)
    simp only [List.countP_cons, Finset.sum_add_distrib, hrest, Bool.and_eq_true, beq_iff_eq]
    cases p a <;> simp [ha]

end Gilmap.Library
