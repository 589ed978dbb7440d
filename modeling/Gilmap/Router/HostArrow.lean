import Gilmap.Router.ArrowClosures

/-! # Kernels that compute

The kernels on `int64` and `bool`, element by element.
-/
namespace Gilmap
open Library
variable {F : Type}

namespace Datum

def ty : Datum F → Option PaTy
  | .array t _ => some t
  | .scalar (.int n) => if Fits 64 n then some .int64 else none
  | .scalar (.bool _) => some .bool
  | .scalar (.float _) | .scalar (.str _) | .scalar (.other _) => none

def len : Datum F → Option ℕ
  | .array _ vals => some vals.length
  | .scalar _ => none

/-- A result from its rows. -/
def build (t : PaTy) (len : Option ℕ) (g : ℕ → PyConst F) : Datum F :=
  match len with
  | none => .scalar (g 0)
  | some n => .array t ((List.range n).map g)

def hasZero (d : Datum F) (rows : ℕ) : Bool :=
  (List.range rows).any fun i => match d.row i with
    | some (.int n) => n = 0
    | _ => false

variable {d : Datum F} {t : PaTy} {len : Option ℕ} {g : ℕ → PyConst F} {i n : ℕ} {v : PyConst F}

theorem HasShape.ty_eq (h : d.HasShape t len) : d.ty = some t := by
  cases h with
  | array => rfl
  | @scalar _ v hv =>
    cases v with
    | int n =>
      cases t with
      | int64 => exact if_pos hv
      | bool | other _ => cases hv
    | bool b =>
      cases t with
      | bool => rfl
      | int64 | other _ => cases hv
    | float _ | str _ | other _ => cases t <;> cases hv

theorem HasShape.len_eq (h : d.HasShape t len) : d.len = len := by
  cases h <;> rfl

theorem HasShape.row_eq (h : d.HasShape t none) (i : ℕ) : d.row i = d.row 0 := by
  cases h
  rfl

theorem tooBig_ty {k : ℤ} (h : ¬ Fits 64 k) : (tooBig F k).ty = none := if_neg h

theorem build_hasShape (h : ∀ i, (g i).OfTy t) : (build t len g).HasShape t len := by
  cases len with
  | none => exact .scalar (h 0)
  | some n =>
    have hlen : n = ((List.range n).map g).length := by simp
    conv => rhs; rw [hlen]
    refine .array fun v hv => ?_
    obtain ⟨i, -, rfl⟩ := List.mem_map.mp hv
    exact h i

theorem row_build (hg : len = none → g i = g 0) (h : (build t len g).row i = some v) :
    v = g i ∧ ∀ n, len = some n → i < n := by
  cases len with
  | none =>
    rw [hg rfl]
    cases h
    exact ⟨rfl, by simp⟩
  | some n =>
    simp only [build, row, List.getElem?_map] at h
    obtain ⟨j, hj, rfl⟩ := Option.map_eq_some_iff.mp h
    obtain ⟨hlt, hij⟩ := List.getElem?_eq_some_iff.mp hj
    rw [List.getElem_range] at hij
    subst hij
    exact ⟨rfl, by simpa using hlt⟩

theorem hasZero_iff : d.hasZero n = true ↔ ∃ i < n, d.row i = some (.int 0) := by
  simp only [hasZero, List.any_eq_true, List.mem_range]
  refine exists_congr fun i => and_congr_right fun _ => ?_
  split
  · next k hk => simp [hk]
  · next hno => simpa using hno 0

end Datum

theorem fits_bmod (n : ℤ) : Fits 64 (n.bmod (2 ^ 64)) := by
  have h := fits_toInt (BitVec.ofInt 64 n)
  rwa [BitVec.toInt_ofInt] at h

theorem fits_wordUnary {op : PyUnaryOp} {n : ℤ} (h : Fits 64 n) : Fits 64 (wordUnary op n) := by
  cases op with
  | uSub => exact fits_bmod _
  | invert =>
    unfold Fits at h ⊢
    simp only [wordUnary]
    omega
  | uAdd | not => exact h

/-! ## The kernels -/

def binOpRow (op : PyBinOp) : Option (PyConst F) → Option (PyConst F) → PyConst F
  | some (.int x), some (.int y) => .int (wordBinOp 0 op x y)
  | _, _ => .int 0

def unaryRow (op : PyUnaryOp) : Option (PyConst F) → PyConst F
  | some (.int x) => .int (wordUnary op x)
  | _ => .int 0

def compareRow (op : PyCmpOp) (l r : Option (PyConst F)) : PyConst F :=
  match l.bind PyConst.number, r.bind PyConst.number with
  | some p, some q => .bool (op.onRats p q)
  | _, _ => .bool false

def PaTy.zero : PaTy → PyConst F
  | .bool => .bool false
  | .int64 | .other _ => .int 0

def ifElseRow (t : PaTy) (cond yes no : Option (PyConst F)) : PyConst F :=
  match cond with
  | some (.bool true) => yes.getD t.zero
  | _ => no.getD t.zero

/-- The kernels on `int64` and `bool`. -/
def hostArrow (F : Type) : PaCompute F where
  binOp op l r :=
    if (op = .div || op.onInts.isSome) = true ∧ l.ty = some .int64 ∧ r.ty = some .int64 then
      if op = .div ∧ r.hasZero (rowsOf (l.len.or r.len)) then .error (.arrowInvalid "divide by zero")
      else .ok (.build .int64 (l.len.or r.len) fun i => binOpRow op (l.row i) (r.row i))
    else .error (.arrowNotImplemented "no kernel")
  unaryOp op d :=
    if d.ty = some .int64 then .ok (.build .int64 d.len fun i => unaryRow op (d.row i))
    else .error (.arrowNotImplemented "no kernel")
  math _ _ := .error (.arrowNotImplemented "no kernel")
  compare op l r :=
    if l.ty = r.ty ∧ l.ty.isSome then
      .ok (.build .bool (l.len.or r.len) fun i => compareRow op (l.row i) (r.row i))
    else .error (.arrowNotImplemented "no kernel")
  ifElse cond yes no :=
    match cond.ty, yes.ty, no.ty with
    | some .bool, some t, some u =>
      if t = u then
        .ok (.build t (cond.len.or (yes.len.or no.len)) fun i =>
          ifElseRow t (cond.row i) (yes.row i) (no.row i))
      else .error (.arrowNotImplemented "no kernel")
    | _, _, _ => .error (.arrowNotImplemented "no kernel")
  array vals :=
    match vals with
    | [] => .ok (.array (.other "null") vals)
    | .bool _ :: _ => .ok (.array .bool vals)
    | _ => .ok (.array .int64 vals)

section Kernels
variable {l r cond yes no d : Datum F} {s t : PaTy} {n : ℕ} {a b c : Option ℕ}

theorem row_or_none (hl : l.HasShape s a) (hr : r.HasShape t b) (h : a.or b = none) (i : ℕ) :
    l.row i = l.row 0 ∧ r.row i = r.row 0 := by
  obtain ⟨rfl, rfl⟩ := Option.or_eq_none_iff.mp h
  exact ⟨hl.row_eq i, hr.row_eq i⟩

theorem binOpRow_ofTy (op : PyBinOp) (x y : Option (PyConst F)) : (binOpRow op x y).OfTy .int64 := by
  unfold binOpRow
  split
  · exact fits_bmod _
  · exact ⟨by decide, by decide⟩

theorem compareRow_ofTy (op : PyCmpOp) (x y : Option (PyConst F)) : (compareRow op x y).OfTy .bool := by
  unfold compareRow
  split <;> trivial

theorem unaryRow_ofTy {op : PyUnaryOp} (hd : d.HasShape .int64 a) (i : ℕ) :
    (unaryRow op (d.row i)).OfTy .int64 := by
  unfold unaryRow
  split
  · next x hx => exact fits_wordUnary (hd.ofTy hx)
  · exact ⟨by decide, by decide⟩

theorem ifElseRow_ofTy (ht : t = .int64 ∨ t = .bool) (x : Option (PyConst F)) (hy : yes.HasShape t b)
    (hn : no.HasShape t c) (i : ℕ) : (ifElseRow t x (yes.row i) (no.row i)).OfTy t := by
  have hzero : (t.zero : PyConst F).OfTy t := by
    rcases ht with rfl | rfl
    · exact ⟨by decide, by decide⟩
    · trivial
  have harm : ∀ {e : Datum F} {k}, e.HasShape t k → ((e.row i).getD t.zero).OfTy t := fun {e _} he => by
    cases hrow : e.row i with
    | none => exact hzero
    | some v => exact he.ofTy hrow
  unfold ifElseRow
  split
  · exact harm hy
  · exact harm hn

theorem hostArrow_binOp {op : PyBinOp} (hop : (op = .div || op.onInts.isSome) = true)
    (hl : l.HasShape .int64 a) (hr : r.HasShape .int64 b) : (hostArrow F).binOp op l r =
      if op = .div ∧ r.hasZero (rowsOf (a.or b)) then .error (.arrowInvalid "divide by zero")
      else .ok (.build .int64 (a.or b) fun i => binOpRow op (l.row i) (r.row i)) := by
  simp only [hostArrow, hl.ty_eq, hr.ty_eq, hl.len_eq, hr.len_eq, hop, true_and, if_true]

theorem hostArrow_compare (op : PyCmpOp) (hl : l.HasShape t a) (hr : r.HasShape t b) :
    (hostArrow F).compare op l r =
      .ok (.build .bool (a.or b) fun i => compareRow op (l.row i) (r.row i)) := by
  simp [hostArrow, hl.ty_eq, hr.ty_eq, hl.len_eq, hr.len_eq]

theorem hostArrow_ifElse (hc : cond.HasShape .bool a) (hy : yes.HasShape t b) (hn : no.HasShape t c) :
    (hostArrow F).ifElse cond yes no = .ok (.build t (a.or (b.or c)) fun i =>
      ifElseRow t (cond.row i) (yes.row i) (no.row i)) := by
  simp only [hostArrow, hc.ty_eq, hy.ty_eq, hn.ty_eq, hc.len_eq, hy.len_eq, hn.len_eq, if_true]

/-- Each row of the taken arm is there. -/
theorem ifElseRow_eq {i : ℕ} {q : Bool} (ha : IsLen n a) (hb : IsLen n b) (hc : IsLen n c)
    (hy : yes.HasShape t b) (hn : no.HasShape t c) (hi : ∀ k, a.or (b.or c) = some k → i < k) :
    (if q then yes.row i else no.row i) = some (ifElseRow t (some (.bool q)) (yes.row i) (no.row i)) := by
  have hlt : ∀ k, b = some k ∨ c = some k → i < k := fun k hk => by
    have hkn : k = n := by
      rcases hk with rfl | rfl
      · simpa [IsLen] using hb
      · simpa [IsLen] using hc
    subst hkn
    refine hi k ?_
    rcases ha with rfl | rfl
    · rcases hb with rfl | rfl
      · rcases hk with hk | rfl
        · cases hk
        · rfl
      · rfl
    · rfl
  obtain ⟨v, hv⟩ := hy.exists_row (i := i) fun k hk => hlt k (.inl hk)
  obtain ⟨w, hw⟩ := hn.exists_row (i := i) fun k hk => hlt k (.inr hk)
  cases q <;> simp [ifElseRow, hv, hw]

theorem hostArrow_documented : (hostArrow F).Documented 0 where
  binOp {op n a b l r} hop _ _ hl hr hdiv := by
    have hzero : ¬ (op = .div ∧ r.hasZero (rowsOf (a.or b))) := fun ⟨hop, hz⟩ => by
      obtain ⟨i, hi, hrow⟩ := Datum.hasZero_iff.mp hz
      exact hdiv hop i hi hrow
    refine ⟨_, (hostArrow_binOp hop hl hr).trans (if_neg hzero),
      Datum.build_hasShape fun i => binOpRow_ofTy _ _ _, fun i x y z hx hy hz => ?_⟩
    obtain ⟨rfl, -⟩ := Datum.row_build (fun h => by
      rw [(row_or_none hl hr h i).1, (row_or_none hl hr h i).2]) hz
    rw [hx, hy]
    rfl
  divideZero {n a b l r i} _ _ hl hr hi hrow :=
    ⟨_, (hostArrow_binOp rfl hl hr).trans (if_pos ⟨rfl, Datum.hasZero_iff.mpr ⟨i, hi, hrow⟩⟩)⟩
  boolOperand {op n a b s t l r} _ _ _ hl hr hbool := by
    refine ⟨_, if_neg fun ⟨_, hs, ht⟩ => ?_⟩
    rw [hl.ty_eq] at hs
    rw [hr.ty_eq] at ht
    cases hs
    cases ht
    rcases hbool with h | h <;> cases h
  unary {op a e} _ he := by
    refine ⟨_, if_pos he.ty_eq, ?_, fun i x z hx hz => ?_⟩
    · rw [he.len_eq]
      exact Datum.build_hasShape fun i => unaryRow_ofTy he i
    · rw [he.len_eq] at hz
      obtain ⟨rfl, -⟩ := Datum.row_build (fun h => by
        subst h
        rw [he.row_eq i]) hz
      rw [hx]
      rfl
  boolUnary {op a e} _ he := ⟨_, if_neg (by simp [he.ty_eq])⟩
  compare {op t n a b l r} _ _ _ hl hr _ := by
    refine ⟨_, hostArrow_compare op hl hr, Datum.build_hasShape fun i => compareRow_ofTy _ _ _,
      fun i v w p q z hv hp hw hq hz => ?_⟩
    obtain ⟨rfl, -⟩ := Datum.row_build (fun h => by
      rw [(row_or_none hl hr h i).1, (row_or_none hl hr h i).2]) hz
    simp only [compareRow, hv, hw, Option.bind_some, hp, hq]
  compareMixed {op s t n a b l r} _ _ _ hl hr hst :=
    ⟨_, if_neg fun ⟨h, _⟩ => hst (by simpa [hl.ty_eq, hr.ty_eq] using h)⟩
  ifElse {t n a b c cond yes no} ha hb hc hcond hyes hno ht := by
    refine ⟨_, hostArrow_ifElse hcond hyes hno,
      Datum.build_hasShape fun i => ifElseRow_ofTy ht _ hyes hno i, fun i q v hq hv => ?_⟩
    obtain ⟨rfl, hi⟩ := Datum.row_build (fun h => by
      obtain ⟨rfl, h⟩ := Option.or_eq_none_iff.mp h
      rw [hcond.row_eq i, (row_or_none hyes hno h i).1, (row_or_none hyes hno h i).2]) hv
    rw [hq]
    exact ifElseRow_eq ha hb hc hyes hno hi
  ifElseTest {s t n a b c cond yes no} _ _ _ hcond _ _ := by
    simp [hostArrow, hcond.ty_eq]
  ifElseArms {s t n a b c cond yes no} _ _ _ hcond hyes hno hst := by
    simp [hostArrow, hcond.ty_eq, hyes.ty_eq, hno.ty_eq, hst]
  bigOperand {op k l r} hk hlr := by
    refine ⟨_, if_neg fun ⟨_, hl, hr⟩ => ?_⟩
    rcases hlr with rfl | rfl
    · simp [Datum.tooBig_ty hk] at hl
    · simp [Datum.tooBig_ty hk] at hr
  bigUnary {op k} hk := ⟨_, if_neg (by simp [Datum.tooBig_ty hk])⟩
  bigCompare {op k l r} hk hlr := by
    refine ⟨_, if_neg fun ⟨heq, hsome⟩ => ?_⟩
    rcases hlr with rfl | rfl
    · simp [Datum.tooBig_ty hk] at hsome
    · simp [heq, Datum.tooBig_ty hk] at hsome
  bigIfElse {k cond yes no} hk hbranch := by
    simp only [hostArrow]
    split
    · next hc hy hn =>
      rcases hbranch with rfl | rfl | rfl
      · simp [Datum.tooBig_ty hk] at hc
      · simp [Datum.tooBig_ty hk] at hy
      · simp [Datum.tooBig_ty hk] at hn
    · exact ⟨_, rfl⟩
  array {v} n _ := by
    simp only [hostArrow]
    split <;> exact ⟨_, rfl⟩

end Kernels

end Gilmap
