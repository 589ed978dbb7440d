import Mathlib.Tactic

/-! # JSON values between a writer and a reader

Values as a writer holds them and as a reader gets them back from the text: objects are the
same up to the order of their keys, and a number outside the 64-bit ranges is not the same
number any more.
-/
namespace Gilmap.Library

inductive Json (F : Type)
  | int (n : ℤ)
  | float (x : F)
  | bool (b : Bool)
  | str (s : String)
  | arr (items : List (Json F))
  | obj (fields : List (String × Json F))
  deriving Repr

variable {F : Type}

namespace Json

def str? : Json F → Option String
  | .str s => some s
  | _ => none

def bool? : Json F → Option Bool
  | .bool b => some b
  | _ => none

def arr? : Json F → Option (List (Json F))
  | .arr items => some items
  | _ => none

/-- The value of a key that occurs once. -/
def field (fields : List (String × Json F)) (key : String) : Option (Json F) :=
  match fields.filter (·.1 = key) with
  | [(_, v)] => some v
  | _ => none

def InI64 (n : ℤ) : Prop := -2 ^ 63 ≤ n ∧ n < 2 ^ 63

instance (n : ℤ) : Decidable (InI64 n) := inferInstanceAs (Decidable (_ ∧ _))

mutual

/-- Nesting of objects and arrays. -/
def depth : Json F → ℕ
  | .int _ | .float _ | .bool _ | .str _ => 0
  | .arr items => itemsDepth items + 1
  | .obj fields => fieldsDepth fields + 1

def itemsDepth : List (Json F) → ℕ
  | [] => 0
  | v :: rest => max v.depth (itemsDepth rest)

def fieldsDepth : List (String × Json F) → ℕ
  | [] => 0
  | (_, v) :: rest => max v.depth (fieldsDepth rest)

end

mutual

/-- All integers are 64-bit, and all floats are finite. -/
def plain (isFinite : F → Bool) : Json F → Bool
  | .int n => decide (InI64 n)
  | .float x => isFinite x
  | .bool _ | .str _ => true
  | .arr items => itemsPlain isFinite items
  | .obj fields => fieldsPlain isFinite fields

def itemsPlain (isFinite : F → Bool) : List (Json F) → Bool
  | [] => true
  | v :: rest => v.plain isFinite && itemsPlain isFinite rest

def fieldsPlain (isFinite : F → Bool) : List (String × Json F) → Bool
  | [] => true
  | (_, v) :: rest => v.plain isFinite && fieldsPlain isFinite rest

end

mutual

/-- What a reader may get back for a value: unsigned integers have their own range, and
beyond it an integer becomes a float; a float that is not finite has no text. -/
inductive ReadsAs (isFinite : F → Bool) : Json F → Json F → Prop
  | int {n : ℤ} : -2 ^ 63 ≤ n → n < 2 ^ 64 → ReadsAs isFinite (.int n) (.int n)
  | wide {n : ℤ} {x : F} : ¬ (-2 ^ 63 ≤ n ∧ n < 2 ^ 64) → ReadsAs isFinite (.int n) (.float x)
  | float {x : F} : isFinite x = true → ReadsAs isFinite (.float x) (.float x)
  | bool {b : Bool} : ReadsAs isFinite (.bool b) (.bool b)
  | str {s : String} : ReadsAs isFinite (.str s) (.str s)
  | arr {items items' : List (Json F)} : ItemsRead isFinite items items' →
      ReadsAs isFinite (.arr items) (.arr items')
  | obj {fields fields₁ fields' : List (String × Json F)} : FieldsRead isFinite fields fields₁ →
      fields₁.Perm fields' → ReadsAs isFinite (.obj fields) (.obj fields')

inductive ItemsRead (isFinite : F → Bool) : List (Json F) → List (Json F) → Prop
  | nil : ItemsRead isFinite [] []
  | cons {v v' : Json F} {rest rest' : List (Json F)} : ReadsAs isFinite v v' →
      ItemsRead isFinite rest rest' → ItemsRead isFinite (v :: rest) (v' :: rest')

inductive FieldsRead (isFinite : F → Bool) :
    List (String × Json F) → List (String × Json F) → Prop
  | nil : FieldsRead isFinite [] []
  | cons {key : String} {v v' : Json F} {rest rest' : List (String × Json F)} :
      ReadsAs isFinite v v' → FieldsRead isFinite rest rest' →
      FieldsRead isFinite ((key, v) :: rest) ((key, v') :: rest')

end

variable {isFinite : F → Bool}

mutual

theorem ReadsAs.self : ∀ j : Json F, j.plain isFinite = true → ReadsAs isFinite j j
  | .int n, h => by
    obtain ⟨hl, hr⟩ := of_decide_eq_true h
    exact .int hl (by omega)
  | .float _, h => .float h
  | .bool _, _ => .bool
  | .str _, _ => .str
  | .arr items, h => .arr (ItemsRead.self items h)
  | .obj fields, h => .obj (FieldsRead.self fields h) (.refl _)

theorem ItemsRead.self : ∀ items : List (Json F), itemsPlain isFinite items = true →
    ItemsRead isFinite items items
  | [], _ => .nil
  | v :: rest, h => by
    obtain ⟨hv, hrest⟩ := Bool.and_eq_true_iff.mp h
    exact .cons (ReadsAs.self v hv) (ItemsRead.self rest hrest)

theorem FieldsRead.self : ∀ fields : List (String × Json F), fieldsPlain isFinite fields = true →
    FieldsRead isFinite fields fields
  | [], _ => .nil
  | (_, v) :: rest, h => by
    obtain ⟨hv, hrest⟩ := Bool.and_eq_true_iff.mp h
    exact .cons (ReadsAs.self v hv) (FieldsRead.self rest hrest)

end

theorem FieldsRead.keys {fields fields' : List (String × Json F)}
    (h : FieldsRead isFinite fields fields') : fields'.map Prod.fst = fields.map Prod.fst := by
  induction fields generalizing fields' with
  | nil =>
    cases h
    rfl
  | cons p rest ih =>
    cases h with
    | cons _ hrest => simp [ih hrest]

theorem FieldsRead.of_mem {fields fields' : List (String × Json F)}
    (h : FieldsRead isFinite fields fields') {key : String} {v : Json F} (hmem : (key, v) ∈ fields) :
    ∃ v', (key, v') ∈ fields' ∧ ReadsAs isFinite v v' := by
  induction fields generalizing fields' with
  | nil => cases hmem
  | cons p rest ih =>
    cases h with
    | cons hv hrest =>
      rcases List.mem_cons.mp hmem with he | hmem
      · cases he
        exact ⟨_, List.mem_cons_self, hv⟩
      · obtain ⟨v', hmem', hv'⟩ := ih hrest hmem
        exact ⟨v', List.mem_cons_of_mem _ hmem', hv'⟩

/-- Looking up a key that occurs once. -/
theorem field_of_mem {fields : List (String × Json F)} (hn : (fields.map Prod.fst).Nodup)
    {key : String} {v : Json F} (h : (key, v) ∈ fields) : field fields key = some v := by
  have hone : fields.filter (·.1 = key) = [(key, v)] := by
    induction fields with
    | nil => cases h
    | cons p rest ih =>
      obtain ⟨hp, hrest⟩ := List.nodup_cons.mp hn
      rcases List.mem_cons.mp h with rfl | hmem
      · have hnone : rest.filter (·.1 = key) = [] := by
          apply List.filter_eq_nil_iff.mpr
          intro q hq
          simp only [decide_eq_true_eq]
          intro he
          have hq' := List.mem_map_of_mem (f := Prod.fst) hq
          rw [he] at hq'
          exact hp hq'
        simp [hnone]
      · have hne : p.1 ≠ key := by
          intro he
          exact hp (he ▸ List.mem_map_of_mem hmem)
        simp [hne, ih hrest hmem]
  simp only [field, hone]

/-- A field is read from wherever it stands. -/
theorem ReadsAs.field {fields : List (String × Json F)} {j : Json F} (h : ReadsAs isFinite (.obj fields) j)
    (hn : (fields.map Prod.fst).Nodup) :
    ∃ fields', j = .obj fields' ∧ ∀ p ∈ fields,
      ∃ v', Json.field fields' p.1 = some v' ∧ ReadsAs isFinite p.2 v' := by
  cases h with
  | @obj _ fields₁ fields' hread hperm =>
    refine ⟨fields', rfl, fun p hmem => ?_⟩
    obtain ⟨v', hmem', hv⟩ := hread.of_mem hmem
    have hn' : (fields'.map Prod.fst).Nodup := by
      rw [← (hperm.map Prod.fst).nodup_iff, hread.keys]
      exact hn
    exact ⟨v', field_of_mem hn' (hperm.mem_iff.mp hmem'), hv⟩

theorem ReadsAs.str_eq {s : String} {j : Json F} (h : ReadsAs isFinite (.str s) j) : j.str? = some s := by
  cases h
  rfl

theorem ReadsAs.bool_eq {b : Bool} {j : Json F} (h : ReadsAs isFinite (.bool b) j) : j.bool? = some b := by
  cases h
  rfl

theorem ReadsAs.arr_eq {items : List (Json F)} {j : Json F} (h : ReadsAs isFinite (.arr items) j) :
    ∃ items', j.arr? = some items' ∧ ItemsRead isFinite items items' := by
  cases h with
  | arr hitems => exact ⟨_, rfl, hitems⟩

/-! ## Writers and readers -/

/-- A writer and a reader of JSON texts; `none` is an error. -/
structure Codec (F : Type) where
  Text : Type
  dumps : Json F → Option Text
  parse : Text → Option (Json F)

def Codec.roundTrip (c : Codec F) (j : Json F) : Option (Json F) := (c.dumps j).bind c.parse

/-- What is written of plain values nested at most `limit` deep is read back; nothing else
comes back in its place, and nothing deeper comes back at all. -/
structure Codec.Laws (c : Codec F) (isFinite : F → Bool) (limit : ℕ) : Prop where
  reads : ∀ j j', c.roundTrip j = some j' → ReadsAs isFinite j j'
  accepts : ∀ j, j.plain isFinite = true → j.depth ≤ limit → (c.roundTrip j).isSome = true
  rejects : ∀ j, limit < j.depth → c.roundTrip j = none

end Json
end Gilmap.Library
