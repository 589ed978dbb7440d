import Mathlib.Tactic

/-! # Computations on columns

A column is an array of rows, or one value that stands in all of them. A kernel lifts a
function of single values if it computes the rows of its result by this function from the
rows of its operands; so does a tree of such kernels.
-/
namespace Gilmap.Library
variable {α σ ε : Type*}

inductive Column (α : Type*)
  | array (rows : List α)
  | scalar (value : α)

namespace Column

def isArray : Column α → Bool
  | array _ => true
  | scalar _ => false

def row : Column α → ℕ → Option α
  | array rows, i => rows[i]?
  | scalar value, _ => some value

/-- The column stands beside arrays of `n` rows. -/
def Fits (n : ℕ) : Column α → Prop
  | array rows => rows.length = n
  | scalar _ => True

/-- The number of rows, if any operand has one. -/
def height : List (Column α) → Option ℕ
  | [] => none
  | array rows :: _ => some rows.length
  | scalar _ :: cs => height cs

/-- `f` of the row `i`; there is none if the arrays differ in length. -/
def liftAt (unequal : ε) (f : List α → Except ε α) (cs : List (Column α)) (i : ℕ) : Except ε α :=
  match cs.mapM (·.row i) with
  | some xs => f xs
  | none => .error unequal

/-- The kernel that computes `f` row by row. -/
def lift (unequal : ε) (f : List α → Except ε α) (cs : List (Column α)) : Except ε (Column α) :=
  match height cs with
  | none => (liftAt unequal f cs 0).map .scalar
  | some n => ((List.range n).mapM (liftAt unequal f cs)).map .array

end Column

/-- The operands' values in the row `i`. -/
def RowsAt (view : σ → Column α) (i : ℕ) (cs : List σ) (xs : List α) : Prop :=
  List.Forall₂ (fun c x => (view c).row i = some x) cs xs

/-- What the computation `C` of a column comes to: `f` of each of the `n` rows. If there are rows,
it fails only where `f` fails at one of them. -/
structure RowReads (view : σ → Column α) (n : ℕ) (C : Except ε σ) (f : ℕ → Except ε α) (isArray : Bool) :
    Prop where
  fits : ∀ d, C = .ok d → (view d).Fits n
  isArray : ∀ d, C = .ok d → (view d).isArray = isArray
  row : ∀ d, C = .ok d → ∀ i < n, ∃ y, f i = .ok y ∧ (view d).row i = some y
  exists_ok : 0 < n → (∀ i < n, ∃ y, f i = .ok y) → ∃ d, C = .ok d

theorem RowReads.congr {view : σ → Column α} {n : ℕ} {C : Except ε σ} {f g : ℕ → Except ε α}
    {isArray : Bool} (h : RowReads view n C f isArray) (hfg : ∀ i < n, f i = g i) :
    RowReads view n C g isArray where
  fits := h.fits
  isArray := h.isArray
  row d hd i hi := hfg i hi ▸ h.row d hd i hi
  exists_ok hn hall := h.exists_ok hn fun i hi => (hfg i hi).symm ▸ hall i hi

/-- The kernel `k` of `m` operands lifts `f`. -/
structure Lifts (view : σ → Column α) (m : ℕ) (k : List σ → Except ε σ) (f : List α → Except ε α) :
    Prop where
  reads : ∀ {n : ℕ} {cs : List σ} {xs : ℕ → List α}, cs.length = m → (∀ c ∈ cs, (view c).Fits n) →
    (∀ i < n, RowsAt view i cs (xs i)) →
    RowReads view n (k cs) (fun i => f (xs i)) (cs.any fun c => (view c).isArray)

theorem Lifts.congr {view : σ → Column α} {m : ℕ} {k k' : List σ → Except ε σ}
    {f : List α → Except ε α} (h : Lifts view m k f) (hk : ∀ cs, cs.length = m → k' cs = k cs) :
    Lifts view m k' f := by
  constructor
  intro n cs xs hm hfits hrows
  rw [hk cs hm]
  exact h.reads hm hfits hrows

/-! ## Trees of kernels -/

/-- An operand of a kernel: how its column is computed, and each of its rows. -/
structure Operand (σ α ε : Type*) where
  column : Except ε σ
  rows : ℕ → Except ε α
  isArray : Bool

def Operand.Ok (view : σ → Column α) (n : ℕ) (o : Operand σ α ε) : Prop :=
  RowReads view n o.column o.rows o.isArray

/-- The column of a kernel over operands. -/
def Operand.apply (k : List σ → Except ε σ) (f : List α → Except ε α) (os : List (Operand σ α ε)) :
    Operand σ α ε where
  column := os.mapM Operand.column >>= k
  rows i := os.mapM (·.rows i) >>= f
  isArray := os.any (·.isArray)

theorem mapM_ok_iff {β γ : Type*} {g : β → Except ε γ} {xs : List β} {ys : List γ} :
    xs.mapM g = .ok ys ↔ List.Forall₂ (fun x y => g x = .ok y) xs ys := by
  induction xs generalizing ys with
  | nil =>
    rw [List.mapM_nil, List.forall₂_nil_left_iff]
    exact ⟨fun h => (Except.ok.inj h).symm, fun h => congrArg Except.ok h.symm⟩
  | cons x xs ih =>
    rw [List.mapM_cons, List.forall₂_cons_left_iff]
    constructor
    · intro h
      cases hx : g x with
      | error e =>
        rw [hx] at h
        cases h
      | ok y =>
        rw [hx] at h
        cases hxs : xs.mapM g with
        | error e =>
          rw [hxs] at h
          cases h
        | ok rest =>
          rw [hxs] at h
          cases h
          exact ⟨y, rest, rfl, ih.mp hxs, rfl⟩
    · rintro ⟨y, rest, hy, hrest, rfl⟩
      rw [hy, ih.mpr hrest]
      rfl

theorem exists_mapM_ok {β γ : Type*} {g : β → Except ε γ} {xs : List β}
    (h : ∀ x ∈ xs, ∃ y, g x = .ok y) : ∃ ys, xs.mapM g = .ok ys := by
  induction xs with
  | nil => exact ⟨[], rfl⟩
  | cons x xs ih =>
    obtain ⟨y, hy⟩ := h x List.mem_cons_self
    obtain ⟨ys, hys⟩ := ih fun x' hx' => h x' (List.mem_cons_of_mem _ hx')
    exact ⟨y :: ys, mapM_ok_iff.mpr (.cons hy (mapM_ok_iff.mp hys))⟩

/-- A computation of an array is a map. -/
theorem RowReads.mapM_iff {β : Type*} {view : σ → Column α} {C : Except ε σ} {f : ℕ → Except ε α}
    {xs : List β} {g : β → Except ε α} (h : RowReads view xs.length C f true)
    (hf : ∀ (i : ℕ) x, xs[i]? = some x → f i = g x) :
    (∀ d, C = .ok d → ∃ ys, view d = .array ys ∧ xs.mapM g = .ok ys) ∧
      ∀ ys, xs ≠ [] → xs.mapM g = .ok ys → ∃ d, C = .ok d ∧ view d = .array ys := by
  have hmap : ∀ d, C = .ok d → ∃ ys, view d = .array ys ∧ xs.mapM g = .ok ys := by
    intro d hd
    have harray := h.isArray d hd
    have hfits := h.fits d hd
    have hrow := h.row d hd
    cases hview : view d with
    | scalar value =>
      rw [hview] at harray
      cases harray
    | array ys =>
      rw [hview] at hfits hrow
      refine ⟨ys, rfl, mapM_ok_iff.mpr (List.forall₂_iff_get.mpr ⟨hfits.symm, fun i hi hi' => ?_⟩)⟩
      obtain ⟨y, hy, hys⟩ := hrow i hi
      have hget : some ys[i] = some y := (List.getElem?_eq_getElem hi').symm.trans hys
      rw [List.get_eq_getElem, List.get_eq_getElem, Option.some_inj.mp hget,
        ← hf i _ (List.getElem?_eq_getElem hi)]
      exact hy
  refine ⟨hmap, fun ys hne hys => ?_⟩
  obtain ⟨d, hd⟩ := h.exists_ok (List.length_pos_of_ne_nil hne) fun i hi => by
    have hlen := (mapM_ok_iff.mp hys).length_eq
    have hy := (mapM_ok_iff.mp hys).get hi (hlen ▸ hi)
    exact ⟨_, (hf i _ (List.getElem?_eq_getElem hi)).trans hy⟩
  obtain ⟨ys', hview, hys'⟩ := hmap d hd
  rw [hys] at hys'
  cases hys'
  exact ⟨d, hd, hview⟩

section Operands
variable {view : σ → Column α} {m n i : ℕ} {os : List (Operand σ α ε)} {cs : List σ}
  {k : List σ → Except ε σ} {f : List α → Except ε α}

theorem exists_rows (hos : ∀ o ∈ os, o.Ok view n) (hcs : os.mapM Operand.column = .ok cs) (hi : i < n) :
    ∃ xs, os.mapM (·.rows i) = .ok xs ∧ RowsAt view i cs xs := by
  rw [mapM_ok_iff] at hcs
  induction hcs with
  | nil => exact ⟨[], rfl, .nil⟩
  | @cons o c os cs hc _ ih =>
    obtain ⟨x, hx, hrow⟩ := (hos o List.mem_cons_self).row c hc i hi
    obtain ⟨xs, hxs, hrows⟩ := ih fun o ho => hos o (List.mem_cons_of_mem _ ho)
    refine ⟨x :: xs, ?_, .cons hrow hrows⟩
    rw [List.mapM_cons, hx, hxs]
    rfl

theorem fits_columns (hos : ∀ o ∈ os, o.Ok view n) (hcs : os.mapM Operand.column = .ok cs) :
    ∀ c ∈ cs, (view c).Fits n := by
  rw [mapM_ok_iff] at hcs
  induction hcs with
  | nil => exact fun c hc => (List.not_mem_nil hc).elim
  | @cons o c os cs hc _ ih =>
    intro c' hc'
    rcases List.mem_cons.mp hc' with rfl | hmem
    · exact (hos o List.mem_cons_self).fits c' hc
    · exact ih (fun o ho => hos o (List.mem_cons_of_mem _ ho)) c' hmem

theorem any_isArray (hos : ∀ o ∈ os, o.Ok view n) (hcs : os.mapM Operand.column = .ok cs) :
    (cs.any fun c => (view c).isArray) = os.any (·.isArray) := by
  rw [mapM_ok_iff] at hcs
  induction hcs with
  | nil => rfl
  | @cons o c os cs hc _ ih =>
    rw [List.any_cons, List.any_cons, (hos o List.mem_cons_self).isArray c hc,
      ih fun o ho => hos o (List.mem_cons_of_mem _ ho)]

theorem exists_columns (hn : 0 < n) (hos : ∀ o ∈ os, o.Ok view n)
    (hrows : ∀ i < n, ∃ xs, os.mapM (·.rows i) = .ok xs) : ∃ cs, os.mapM Operand.column = .ok cs := by
  induction os with
  | nil => exact ⟨[], rfl⟩
  | cons o os ih =>
    have hsplit : ∀ i < n, (∃ x, o.rows i = .ok x) ∧ ∃ xs, os.mapM (·.rows i) = .ok xs := by
      intro i hi
      obtain ⟨xs, hxs⟩ := hrows i hi
      rw [mapM_ok_iff, List.forall₂_cons_left_iff] at hxs
      obtain ⟨x, rest, hx, hrest, -⟩ := hxs
      exact ⟨⟨x, hx⟩, rest, mapM_ok_iff.mpr hrest⟩
    obtain ⟨c, hc⟩ := (hos o List.mem_cons_self).exists_ok hn fun i hi => (hsplit i hi).1
    obtain ⟨cs, hcs⟩ := ih (fun o ho => hos o (List.mem_cons_of_mem _ ho)) fun i hi => (hsplit i hi).2
    refine ⟨c :: cs, ?_⟩
    rw [List.mapM_cons, hc, hcs]
    rfl

/-- A kernel that lifts a function, over operands that are computed row by row. -/
theorem Lifts.apply (hk : Lifts view m k f) (hlen : os.length = m)
    (hos : ∀ o ∈ os, o.Ok view n) : (Operand.apply k f os).Ok view n := by
  have hkernel : ∀ {cs}, os.mapM Operand.column = .ok cs →
      RowReads view n (k cs) (fun i => os.mapM (·.rows i) >>= f) (os.any (·.isArray)) := by
    intro cs hcs
    choose! xs hxs using fun i => exists_rows (i := i) hos hcs
    have hcols := (mapM_ok_iff.mp hcs).length_eq.symm.trans hlen
    have hreads := hk.reads hcols (fits_columns hos hcs) fun i hi => (hxs i hi).2
    rw [any_isArray hos hcs] at hreads
    refine ⟨hreads.fits, hreads.isArray, fun d hd i hi => ?_, fun hn hrows => hreads.exists_ok hn ?_⟩
    · rw [(hxs i hi).1]
      exact hreads.row d hd i hi
    · intro i hi
      have hrow := hrows i hi
      rwa [(hxs i hi).1] at hrow
  have hsplit : ∀ {d}, os.mapM Operand.column >>= k = .ok d →
      ∃ cs, os.mapM Operand.column = .ok cs ∧ k cs = .ok d := by
    intro d hd
    cases hcs : os.mapM Operand.column with
    | error e =>
      rw [hcs] at hd
      cases hd
    | ok cs =>
      rw [hcs] at hd
      exact ⟨cs, rfl, hd⟩
  constructor
  · intro d hd
    obtain ⟨cs, hcs, hd⟩ := hsplit hd
    exact (hkernel hcs).fits d hd
  · intro d hd
    obtain ⟨cs, hcs, hd⟩ := hsplit hd
    exact (hkernel hcs).isArray d hd
  · intro d hd
    obtain ⟨cs, hcs, hd⟩ := hsplit hd
    exact (hkernel hcs).row d hd
  · intro hn hrows
    have hoperands : ∀ i < n, ∃ xs, os.mapM (·.rows i) = .ok xs := by
      intro i hi
      obtain ⟨y, hy⟩ := hrows i hi
      cases hxs : os.mapM (·.rows i) with
      | error e =>
        simp only [Operand.apply, hxs] at hy
        cases hy
      | ok xs => exact ⟨xs, rfl⟩
    obtain ⟨cs, hcs⟩ := exists_columns hn hos hoperands
    obtain ⟨d, hd⟩ := (hkernel hcs).exists_ok hn hrows
    refine ⟨d, ?_⟩
    rw [Operand.apply, hcs]
    exact hd

section Arities
variable {C C₁ C₂ C₃ : Except ε σ} {g g₁ g₂ g₃ : ℕ → Except ε α} {b b₁ b₂ b₃ : Bool}

theorem Lifts.one (hk : Lifts view 1 k f) (h : RowReads view n C g b) :
    RowReads view n (do k [← C]) (fun i => do f [← g i]) b := by
  have hread : (Operand.apply k f [⟨C, g, b⟩]).Ok view n :=
    hk.apply rfl (List.forall_mem_singleton.mpr h)
  simpa [Operand.Ok, Operand.apply] using hread

theorem Lifts.two (hk : Lifts view 2 k f) (h₁ : RowReads view n C₁ g₁ b₁)
    (h₂ : RowReads view n C₂ g₂ b₂) :
    RowReads view n (do k [← C₁, ← C₂]) (fun i => do f [← g₁ i, ← g₂ i]) (b₁ || b₂) := by
  have hread : (Operand.apply k f [⟨C₁, g₁, b₁⟩, ⟨C₂, g₂, b₂⟩]).Ok view n := by
    apply hk.apply rfl
    exact List.forall_mem_cons.mpr ⟨h₁, List.forall_mem_singleton.mpr h₂⟩
  simpa [Operand.Ok, Operand.apply] using hread

theorem Lifts.three (hk : Lifts view 3 k f) (h₁ : RowReads view n C₁ g₁ b₁)
    (h₂ : RowReads view n C₂ g₂ b₂) (h₃ : RowReads view n C₃ g₃ b₃) :
    RowReads view n (do k [← C₁, ← C₂, ← C₃]) (fun i => do f [← g₁ i, ← g₂ i, ← g₃ i])
      (b₁ || (b₂ || b₃)) := by
  have hread : (Operand.apply k f [⟨C₁, g₁, b₁⟩, ⟨C₂, g₂, b₂⟩, ⟨C₃, g₃, b₃⟩]).Ok view n := by
    apply hk.apply rfl
    exact List.forall_mem_cons.mpr ⟨h₁, List.forall_mem_cons.mpr ⟨h₂, List.forall_mem_singleton.mpr h₃⟩⟩
  simpa [Operand.Ok, Operand.apply] using hread

end Arities

end Operands

/-! ## Kernels that lift a function -/

namespace Column
variable {unequal : ε} {f : List α → Except ε α} {view : σ → Column α} {cs : List σ} {xs : List α}
  {n i : ℕ}

theorem liftAt_of_rows (h : RowsAt view i cs xs) : liftAt unequal f (cs.map view) i = f xs := by
  have hrows : (cs.map view).mapM (·.row i) = some xs := by
    induction h with
    | nil => rfl
    | cons hrow _ ih =>
      rw [List.map_cons, List.mapM_cons, hrow, ih]
      rfl
  rw [liftAt, hrows]

theorem height_eq (h : ∀ c ∈ cs, (view c).Fits n) : height (cs.map view) =
    if (cs.any fun c => (view c).isArray) = true then some n else none := by
  induction cs with
  | nil => rfl
  | cons c cs ih =>
    have hrest := ih fun c' hc' => h c' (List.mem_cons_of_mem _ hc')
    have hfits := h c List.mem_cons_self
    rw [List.map_cons, List.any_cons]
    cases hc : view c with
    | array rows =>
      rw [hc] at hfits
      rw [height, isArray, Bool.true_or, if_pos rfl]
      exact congrArg some hfits
    | scalar value =>
      rw [height, isArray, Bool.false_or]
      exact hrest

/-- The rows of scalars are all the same. -/
theorem rowsAt_unique {ys : List α} {j : ℕ} (hscalar : (cs.any fun c => (view c).isArray) = false)
    (hi : RowsAt view i cs xs) (hj : RowsAt view j cs ys) : xs = ys := by
  induction hi generalizing ys with
  | nil =>
    cases hj
    rfl
  | @cons c x cs xs hc _ ih =>
    cases hj with
    | cons hc' hj =>
      rw [List.any_cons, Bool.or_eq_false_iff] at hscalar
      obtain ⟨hview, hrest⟩ := hscalar
      cases hcol : view c with
      | array rows =>
        rw [hcol] at hview
        cases hview
      | scalar value =>
        rw [hcol] at hc hc'
        cases hc
        cases hc'
        rw [ih hrest hj]

/-- A kernel may put whatever it likes beside the rows. -/
theorem lifts_lift (m : ℕ) (f : List α → Except ε α) {wrap : Column α → σ}
    (hwrap : ∀ c, view (wrap c) = c) :
    Lifts view m (fun cs => (lift unequal f (cs.map view)).map wrap) f := by
  constructor
  intro n cs xs _ hfits hrows
  have hvalue : ∀ i < n, liftAt unequal f (cs.map view) i = f (xs i) :=
    fun i hi => liftAt_of_rows (hrows i hi)
  cases hany : (cs.any fun c => (view c).isArray) with
  | false =>
    have hconst : ∀ i < n, liftAt unequal f (cs.map view) 0 = f (xs i) := by
      intro i hi
      have hn := Nat.zero_lt_of_lt hi
      rw [hvalue 0 hn, rowsAt_unique hany (hrows 0 hn) (hrows i hi)]
    have hlift : lift unequal f (cs.map view) = (liftAt unequal f (cs.map view) 0).map .scalar := by
      rw [lift, height_eq hfits, hany, if_neg Bool.false_ne_true]
    rw [hlift]
    cases hf : liftAt unequal f (cs.map view) 0 with
    | error e =>
      refine ⟨nofun, nofun, nofun, fun hn hall => ?_⟩
      obtain ⟨y, hy⟩ := hall 0 hn
      rw [← hconst 0 hn, hf] at hy
      cases hy
    | ok y =>
      refine ⟨?_, ?_, ?_, fun _ _ => ⟨_, rfl⟩⟩
      · rintro d ⟨⟩
        rw [hwrap]
        trivial
      · rintro d ⟨⟩
        rw [hwrap]
        rfl
      · rintro d ⟨⟩ i hi
        rw [hwrap]
        exact ⟨y, (hconst i hi).symm.trans hf, rfl⟩
  | true =>
    have hlift : lift unequal f (cs.map view) =
        ((List.range n).mapM (liftAt unequal f (cs.map view))).map .array := by
      rw [lift, height_eq hfits, hany, if_pos rfl]
    rw [hlift]
    cases hm : (List.range n).mapM (liftAt unequal f (cs.map view)) with
    | error e =>
      refine ⟨nofun, nofun, nofun, fun _ hall => ?_⟩
      obtain ⟨ys, hys⟩ : ∃ ys, (List.range n).mapM (liftAt unequal f (cs.map view)) = .ok ys := by
        apply exists_mapM_ok
        intro i hi
        rw [hvalue i (List.mem_range.mp hi)]
        exact hall i (List.mem_range.mp hi)
      rw [hm] at hys
      cases hys
    | ok ys =>
      rw [mapM_ok_iff] at hm
      have hlen : ys.length = n := by rw [← hm.length_eq, List.length_range]
      refine ⟨?_, ?_, ?_, fun _ _ => ⟨_, rfl⟩⟩
      · rintro d ⟨⟩
        rw [hwrap]
        exact hlen
      · rintro d ⟨⟩
        rw [hwrap]
        rfl
      · rintro d ⟨⟩ i hi
        rw [hwrap]
        have hy := hm.get (by rwa [List.length_range]) (by rwa [hlen])
        rw [List.get_eq_getElem, List.getElem_range, hvalue i hi] at hy
        exact ⟨_, hy, List.getElem?_eq_getElem (by rwa [hlen])⟩

end Column

end Gilmap.Library
