import Mathlib.Tactic

/-! # Breadth-first search in trees

A tree is walked with a queue. The walk reads the tree level by level, and each level from
left to right, so that the first match is the leftmost on the first level that has one.
-/
namespace Gilmap.Library

inductive RoseTree (α : Type*)
  | node (label : α) (children : List (RoseTree α))

namespace RoseTree
variable {α : Type*}

def label : RoseTree α → α
  | node a _ => a

def children : RoseTree α → List (RoseTree α)
  | node _ ts => ts

theorem sizeOf_append_children (t : RoseTree α) (ts : List (RoseTree α)) :
    sizeOf (ts ++ t.children) < sizeOf (t :: ts) := by
  have happ : ∀ us : List (RoseTree α), sizeOf (us ++ t.children) + 1 = sizeOf us + sizeOf t.children := by
    intro us
    induction us with
    | nil => simp [Nat.add_comm]
    | cons u us ih => simp only [List.cons_append, List.cons.sizeOf_spec]; omega
  cases t
  have := happ ts
  simp only [children, List.cons.sizeOf_spec, node.sizeOf_spec] at this ⊢
  omega

/-- The nodes in the order in which a queue yields them. -/
def walk : List (RoseTree α) → List (RoseTree α)
  | [] => []
  | t :: queue => t :: walk (queue ++ t.children)
  termination_by queue => sizeOf queue
  decreasing_by exact sizeOf_append_children t queue

/-- The nodes `k` levels below the roots, from left to right. -/
def level : ℕ → List (RoseTree α) → List (RoseTree α)
  | 0, ts => ts
  | k + 1, ts => level k (ts.flatMap children)

@[simp] theorem walk_nil : walk ([] : List (RoseTree α)) = [] := by rw [walk]

theorem walk_cons (t : RoseTree α) (queue : List (RoseTree α)) :
    walk (t :: queue) = t :: walk (queue ++ t.children) := by rw [walk]

theorem walk_append (ts us : List (RoseTree α)) :
    walk (ts ++ us) = ts ++ walk (us ++ ts.flatMap children) := by
  induction ts generalizing us with
  | nil => simp
  | cons t ts ih =>
    rw [List.cons_append, walk_cons, List.append_assoc, ih]
    simp

/-- The walk reads a level and then those below it. -/
theorem walk_eq_level (ts : List (RoseTree α)) : walk ts = ts ++ walk (ts.flatMap children) := by
  simpa using walk_append ts []

theorem length_walk_children {t : RoseTree α} {ts : List (RoseTree α)} :
    (walk ((t :: ts).flatMap children)).length < (walk (t :: ts)).length := by
  rw [walk_eq_level (t :: ts), List.length_append, List.length_cons]
  omega

/-- An induction over the levels of a forest. -/
theorem levelInduction {motive : List (RoseTree α) → Prop} (nil : motive [])
    (cons : ∀ t ts, motive ((t :: ts).flatMap children) → motive (t :: ts)) (ts : List (RoseTree α)) :
    motive ts := by
  induction hn : (walk ts).length using Nat.strong_induction_on generalizing ts with
  | _ n ih =>
    cases ts with
    | nil => exact nil
    | cons t ts => exact cons t ts (ih _ (hn ▸ length_walk_children) _ rfl)

theorem mem_walk {t : RoseTree α} {ts : List (RoseTree α)} : t ∈ walk ts ↔ ∃ k, t ∈ level k ts := by
  induction ts using levelInduction with
  | nil =>
    have hnil : ∀ k, level k ([] : List (RoseTree α)) = [] := by
      intro k
      induction k with
      | zero => rfl
      | succ k ih => exact ih
    simp [hnil]
  | cons u us ih =>
    rw [walk_eq_level, List.mem_append, ih]
    constructor
    · rintro (h | ⟨k, h⟩)
      · exact ⟨0, h⟩
      · exact ⟨k + 1, h⟩
    · rintro ⟨k, h⟩
      cases k with
      | zero => exact .inl h
      | succ k => exact .inr ⟨k, h⟩

section First
variable {p : RoseTree α → Bool} {Q : RoseTree α → Prop} {t : RoseTree α} {ts : List (RoseTree α)}

/-- The first match: none above it, and none to its left. -/
theorem first_of_find?_walk (h : (walk ts).find? p = some t) :
    ∃ k before after, level k ts = before ++ t :: after ∧ (∀ u ∈ before, ¬ p u) ∧
      ∀ j < k, ∀ u ∈ level j ts, ¬ p u := by
  induction ts using levelInduction with
  | nil => simp at h
  | cons u us ih =>
    rw [walk_eq_level, List.find?_append] at h
    cases hf : (u :: us).find? p with
    | some v =>
      rw [hf] at h
      cases h
      obtain ⟨-, before, after, heq, hbefore⟩ := List.find?_eq_some_iff_append.mp hf
      exact ⟨0, before, after, heq, by simpa using hbefore, by simp⟩
    | none =>
      rw [hf] at h
      obtain ⟨k, before, after, heq, hbefore, habove⟩ := ih h
      refine ⟨k + 1, before, after, heq, hbefore, fun j hj => ?_⟩
      cases j with
      | zero => exact List.find?_eq_none.mp hf
      | succ j => exact habove j (Nat.lt_of_succ_lt_succ hj)

/-- Each match has a node with `Q` above it, or to its left on its own level, or has `Q`. -/
def Guarded (p : RoseTree α → Bool) (Q : RoseTree α → Prop) (ts : List (RoseTree α)) : Prop :=
  ∀ k before t after, level k ts = before ++ t :: after → p t →
    (∃ j < k, ∃ u ∈ level j ts, Q u) ∨ (∃ u ∈ before, Q u) ∨ Q t

/-- The first match has `Q` exactly when every match is guarded by a node with `Q`. -/
theorem find?_walk_iff (hQ : ∀ t, Q t → p t) :
    (∀ t, (walk ts).find? p = some t → Q t) ↔ Guarded p Q ts := by
  constructor
  · intro h k before other after heq hp
    have hmem : other ∈ walk ts := mem_walk.mpr ⟨k, by simp [heq]⟩
    cases hf : (walk ts).find? p with
    | none => exact absurd hp (List.find?_eq_none.mp hf other hmem)
    | some t =>
      obtain ⟨k', before', after', heq', hbefore', habove'⟩ := first_of_find?_walk hf
      have ht := h t hf
      rcases lt_trichotomy k' k with hlt | rfl | hgt
      · exact .inl ⟨k', hlt, t, by simp [heq'], ht⟩
      · -- on one level, `other` is not to the left of the first match
        rw [heq'] at heq
        rcases List.append_eq_append_iff.mp heq with ⟨mid, hb, hmid⟩ | ⟨mid, hb, hmid⟩
        · cases mid with
          | nil =>
            obtain ⟨rfl, -⟩ := List.cons.inj hmid
            exact .inr (.inr ht)
          | cons u mid =>
            obtain ⟨rfl, -⟩ := List.cons.inj hmid
            exact .inr (.inl ⟨t, by simp [hb], ht⟩)
        · cases mid with
          | nil =>
            obtain ⟨rfl, -⟩ := List.cons.inj hmid
            exact .inr (.inr ht)
          | cons u mid =>
            obtain ⟨rfl, -⟩ := List.cons.inj hmid
            exact absurd hp (hbefore' other (by simp [hb]))
      · exact absurd hp (habove' k hgt other (by simp [heq]))
  · intro h t hf
    obtain ⟨k, before, after, heq, hbefore, habove⟩ := first_of_find?_walk hf
    rcases h k before t after heq (List.find?_some hf) with ⟨j, hj, u, hu, hQu⟩ | ⟨u, hu, hQu⟩ | hQt
    · exact absurd (hQ u hQu) (habove j hj u hu)
    · exact absurd (hQ u hQu) (hbefore u hu)
    · exact hQt

end First

end RoseTree

end Gilmap.Library
