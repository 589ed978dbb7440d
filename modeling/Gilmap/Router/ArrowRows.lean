import Gilmap.Library.Columns
import Gilmap.Router.ArrowKernel
import Gilmap.Router.Paths

/-! # Closures row by row

The kernels that a closure of the Arrow backend calls are element-wise. Whatever its body, the
array that it returns has in each place what they make of the element there, and it raises
where they raise at one of the elements; both arms of a conditional are computed for all.
-/
namespace Gilmap
open Library
variable {F : Type}

/-! ## Kernels on data and on single values -/

def Datum.column : Datum F → Column (PyConst F)
  | .array _ vals => .array vals
  | .scalar value => .scalar value

theorem Datum.eq_array_of_column {d : Datum F} {ys : List (PyConst F)} (h : d.column = .array ys) :
    ∃ t, d = .array t ys := by
  cases d with
  | array t vals =>
    cases h
    exact ⟨t, rfl⟩
  | scalar value => cases h

/-- The functions that a closure chains. -/
inductive PaKernel
  | binOp (op : PyBinOp)
  | unaryOp (op : PyUnaryOp)
  | math (name : String)
  | compare (op : PyCmpOp)
  | ifElse
  deriving DecidableEq, Repr

def PaKernel.arity : PaKernel → ℕ
  | .binOp _ | .compare _ => 2
  | .unaryOp _ | .math _ => 1
  | .ifElse => 3

def PaCompute.call (pc : PaCompute F) : PaKernel → List (Datum F) → Except PaError (Datum F)
  | .binOp op, [l, r] => pc.binOp op l r
  | .unaryOp op, [e] => pc.unaryOp op e
  | .math name, [e] => pc.math name e
  | .compare op, [l, r] => pc.compare op l r
  | .ifElse, [cond, yes, no] => pc.ifElse cond yes no
  | _, _ => .error (.other "operands")

/-- What the kernels make of single values, and which constants `pa.array` stores. -/
structure RowKernels (F : Type) where
  call : PaKernel → List (PyConst F) → Except PaError (PyConst F)
  store : PyConst F → Except PaError (PyConst F)

/-- The kernels are element-wise. -/
structure PaCompute.ElementWise (pc : PaCompute F) (K : RowKernels F) : Prop where
  kernel : ∀ k : PaKernel, Lifts Datum.column k.arity (pc.call k) (K.call k)
  array : ∀ {v y} (n : ℕ), K.store v = .ok y →
    ∃ t, pc.array (List.replicate n v) = .ok (.array t (List.replicate n y))
  arrayFails : ∀ {n v e}, 0 < n → K.store v = .error e → ∃ e', pc.array (List.replicate n v) = .error e'
  arrayNil : ∃ t, pc.array [] = .ok (.array t [])

/-! ## The fast path -/

/-- The element as a Python constant. -/
def Val.constant : Val F → Option (PyConst F)
  | .i64 b => some (.int b.toInt)
  | .f64 x => some (.float x)
  | .i8 _ | .i64x2 _ _ | .f64x2 _ _ => none

/-- The name that `pyarrow` gives its type. -/
def laneTy : Dtype → PaTy
  | .i64 => .int64
  | .f64 => .other "double"

/-- `decision.fast_path(func, arr)` with a body that lowers. -/
def PaCompute.callBody (pc : PaCompute F) (paramName : String) (body : PyExpr F) (arr : PaArray F) :
    Except PaError (Datum F) :=
  match arr.type, arr.values.mapM Val.constant, pc.lower paramName body with
  | .lane d, some xs, some compiled => pc.fast compiled (.array (laneTy d) xs) xs.length
  | _, _, _ => .error (.other "no kernel")

/-! ## Bodies at one element -/

namespace PyExpr

/-- What the kernels make of the body where the parameter is `x`. -/
def rowAt (K : RowKernels F) (param : String) (x : PyConst F) : PyExpr F → Except PaError (PyConst F)
  | .name id => if id = param then .ok x else .error (.other "no kernel")
  | .constant value => .ok value
  | .unaryOp op operand =>
    if op = .uAdd then operand.rowAt K param x
    else do K.call (.unaryOp op) [← operand.rowAt K param x]
  | .binOp left op right =>
    do K.call (.binOp op) [← left.rowAt K param x, ← right.rowAt K param x]
  | .call (.attribute (.name "math") attr) [arg] [] => do K.call (.math attr) [← arg.rowAt K param x]
  | .ifExp test body orelse =>
    do K.call .ifElse [← test.rowAt K param x, ← body.rowAt K param x, ← orelse.rowAt K param x]
  | .compare left [op] [comparator] =>
    do K.call (.compare op) [← left.rowAt K param x, ← comparator.rowAt K param x]
  | _ => .error (.other "no kernel")

/-- The closure of the body returns an array. -/
def onArray (param : String) : PyExpr F → Bool
  | .name id => id = param
  | .unaryOp _ operand => operand.onArray param
  | .binOp left _ right => left.onArray param || right.onArray param
  | .call (.attribute (.name "math") _) [arg] [] => arg.onArray param
  | .ifExp test body orelse => test.onArray param || (body.onArray param || orelse.onArray param)
  | .compare left [_] [comparator] => left.onArray param || comparator.onArray param
  | _ => false

/-- The element of the result for `x`: a scalar is put into an array at the end. -/
def elementAt (K : RowKernels F) (param : String) (body : PyExpr F) (x : PyConst F) :
    Except PaError (PyConst F) :=
  if body.onArray param then body.rowAt K param x else body.rowAt K param x >>= K.store

end PyExpr

/-! ## Closures -/

section Closures
variable {pc : PaCompute F} {K : RowKernels F} {param : String} {e : PyExpr F} {arr : Datum F} {n : ℕ}
  {x : ℕ → PyConst F} {compiled : Datum F → Except PaError (Datum F)}

theorem reads_input (hfits : arr.column.Fits n) (harr : arr.column.isArray = true)
    (hrows : ∀ i < n, arr.column.row i = some (x i)) :
    RowReads (ε := PaError) Datum.column n (.ok arr) (fun i => .ok (x i)) true := by
  constructor
  · rintro d ⟨⟩
    exact hfits
  · rintro d ⟨⟩
    exact harr
  · rintro d ⟨⟩ i hi
    exact ⟨x i, rfl, hrows i hi⟩
  · exact fun _ _ => ⟨arr, rfl⟩

theorem reads_scalar (value : PyConst F) :
    RowReads (ε := PaError) Datum.column n (.ok (.scalar value)) (fun _ => .ok value) false := by
  constructor
  · rintro d ⟨⟩
    trivial
  · rintro d ⟨⟩
    rfl
  · rintro d ⟨⟩ i hi
    exact ⟨value, rfl, rfl⟩
  · exact fun _ _ => ⟨_, rfl⟩

theorem reads_unary {op : PyUnaryOp} {C : Except PaError (Datum F)} {g : ℕ → Except PaError (PyConst F)}
    {b : Bool} (hpc : pc.ElementWise K) (h : RowReads Datum.column n C g b) :
    RowReads Datum.column n (do pc.unary op (← C))
      (fun i => if op = .uAdd then g i else do K.call (.unaryOp op) [← g i]) b := by
  by_cases hop : op = .uAdd
  · have hsame : (do pc.unary op (← C)) = C := by
      simp only [PaCompute.unary, if_pos hop]
      cases C <;> rfl
    simpa only [hsame, if_pos hop] using h
  · simp only [PaCompute.unary, if_neg hop]
    exact (hpc.kernel (.unaryOp op)).one h

/-- A closure computes its body in every row. -/
theorem lower_reads (hpc : pc.ElementWise K) (hfits : arr.column.Fits n)
    (harr : arr.column.isArray = true) (hrows : ∀ i < n, arr.column.row i = some (x i))
    (h : pc.lower param e = some compiled) :
    RowReads Datum.column n (compiled arr) (fun i => e.rowAt K param (x i)) (e.onArray param) := by
  fun_induction PaCompute.lower pc param e generalizing compiled with
  | case1 =>
    cases h
    simpa [PyExpr.rowAt, PyExpr.onArray] using reads_input hfits harr hrows
  | case3 value =>
    cases h
    exact reads_scalar value
  | case4 op operand hop ih =>
    obtain ⟨inner, hinner, h⟩ := Option.bind_eq_some_iff.mp h
    cases h
    exact reads_unary hpc (ih hinner)
  | case6 left op right hop ihl ihr =>
    obtain ⟨l, hl, h⟩ := Option.bind_eq_some_iff.mp h
    obtain ⟨r, hr, h⟩ := Option.bind_eq_some_iff.mp h
    cases h
    exact (hpc.kernel (.binOp op)).two (ihl hl) (ihr hr)
  | case8 attr arg hattr ih =>
    obtain ⟨inner, hinner, h⟩ := Option.bind_eq_some_iff.mp h
    cases h
    exact (hpc.kernel (.math attr)).one (ih hinner)
  | case10 test body orelse ihc ihy ihn =>
    obtain ⟨c, hc, h⟩ := Option.bind_eq_some_iff.mp h
    obtain ⟨y, hy, h⟩ := Option.bind_eq_some_iff.mp h
    obtain ⟨no, hno, h⟩ := Option.bind_eq_some_iff.mp h
    cases h
    exact (hpc.kernel .ifElse).three (ihc hc) (ihy hy) (ihn hno)
  | case11 left op right hop ihl ihr =>
    obtain ⟨l, hl, h⟩ := Option.bind_eq_some_iff.mp h
    obtain ⟨r, hr, h⟩ := Option.bind_eq_some_iff.mp h
    cases h
    exact (hpc.kernel (.compare op)).two (ihl hl) (ihr hr)
  | case2 | case5 | case7 | case9 | case12 | case13 => cases h

theorem PyExpr.elementAt_ok {v y : PyConst F} (h : e.elementAt K param v = .ok y) :
    ∃ u, e.rowAt K param v = .ok u := by
  unfold elementAt at h
  split at h
  · exact ⟨y, h⟩
  · cases hrow : e.rowAt K param v with
    | error err =>
      rw [hrow] at h
      cases h
    | ok u => exact ⟨u, rfl⟩

/-- A scalar result, stored once for each element. -/
theorem reads_stored {value : PyConst F} (hpc : pc.ElementWise K) :
    RowReads Datum.column n (pc.array (List.replicate n value)) (fun _ => K.store value) true := by
  rcases Nat.eq_zero_or_pos n with rfl | hn
  · obtain ⟨t, ht⟩ := hpc.arrayNil
    rw [List.replicate_zero, ht]
    refine ⟨?_, ?_, fun _ _ i hi => (Nat.not_lt_zero i hi).elim, fun _ _ => ⟨_, rfl⟩⟩
    · rintro d ⟨⟩
      rfl
    · rintro d ⟨⟩
      rfl
  cases hstore : K.store value with
  | error err =>
    obtain ⟨e', he⟩ := hpc.arrayFails hn hstore
    rw [he]
    refine ⟨nofun, nofun, nofun, fun _ hall => ?_⟩
    obtain ⟨y, hy⟩ := hall 0 hn
    cases hy
  | ok y =>
    obtain ⟨t, ht⟩ := hpc.array n hstore
    rw [ht]
    constructor
    · rintro d ⟨⟩
      exact List.length_replicate
    · rintro d ⟨⟩
      rfl
    · rintro d ⟨⟩ i hi
      refine ⟨y, rfl, ?_⟩
      rw [Datum.column, Column.row, List.getElem?_replicate_of_lt hi]
    · exact fun _ _ => ⟨_, rfl⟩

/-- The array that `fast` returns, row by row. -/
theorem fast_reads (hpc : pc.ElementWise K) (hfits : arr.column.Fits n)
    (harr : arr.column.isArray = true) (hrows : ∀ i < n, arr.column.row i = some (x i))
    (h : pc.lower param e = some compiled) :
    RowReads Datum.column n (pc.fast compiled arr n) (fun i => e.elementAt K param (x i)) true := by
  have hreads := lower_reads hpc hfits harr hrows h
  cases hd : compiled arr with
  | error err =>
    have hfast : pc.fast compiled arr n = .error err := by
      rw [PaCompute.fast, hd]
      rfl
    rw [hfast]
    refine ⟨nofun, nofun, nofun, fun hn hall => ?_⟩
    obtain ⟨d, hok⟩ := hreads.exists_ok hn fun i hi => by
      obtain ⟨y, hy⟩ := hall i hi
      exact PyExpr.elementAt_ok hy
    rw [hd] at hok
    cases hok
  | ok d =>
    rw [hd] at hreads
    have honArray := hreads.isArray d rfl
    cases d with
    | array t vals =>
      have hfast : pc.fast compiled arr n = .ok (.array t vals) := by
        rw [PaCompute.fast, hd]
        rfl
      rw [hfast]
      simp only [PyExpr.elementAt, ← honArray]
      rwa [← honArray] at hreads
    | scalar value =>
      have hfast : pc.fast compiled arr n = pc.array (List.replicate n value) := by
        rw [PaCompute.fast, hd]
        rfl
      have helement : ∀ i < n, e.elementAt K param (x i) = K.store value := by
        intro i hi
        obtain ⟨y, hy, hrow⟩ := hreads.row _ rfl i hi
        cases hrow
        rw [PyExpr.elementAt, ← honArray, hy]
        rfl
      rw [hfast]
      exact (reads_stored hpc).congr fun i hi => (helement i hi).symm

end Closures

section Rows
variable {fl : FloatOps F} {cast : ArrowCast F} {func : PyFunc F} {arr iterable : PaArray F} {r : Router F}
  {pc : PaCompute F} {K : RowKernels F} {param : String} {body : PyExpr F} {d : Dtype}

theorem PaArray.Valid.exists_constants (hv : arr.Valid) (hlane : arr.type = .lane d) :
    ∃ xs, arr.values.mapM Val.constant = some xs := by
  have hall : ∀ v ∈ arr.values, ∃ x, v.constant = some x := by
    intro v hmem
    have hty := hv.typed d hlane v hmem
    cases d with
    | i64 =>
      obtain ⟨b, rfl⟩ := eq_i64_of_ty hty
      exact ⟨_, rfl⟩
    | f64 =>
      obtain ⟨x, rfl⟩ := eq_f64_of_ty hty
      exact ⟨_, rfl⟩
  generalize arr.values = vs at hall
  induction vs with
  | nil => exact ⟨[], rfl⟩
  | cons v vs ih =>
    obtain ⟨x, hx⟩ := hall v List.mem_cons_self
    obtain ⟨xs, hxs⟩ := ih fun v' hv' => hall v' (List.mem_cons_of_mem _ hv')
    refine ⟨x :: xs, ?_⟩
    rw [List.mapM_cons, hx, hxs]
    rfl

/-- **The Arrow backend is element-wise.** Whatever the router has been asked before, a map call
that it lowers to kernels gives the array of what the kernels make of each element by itself, in
order, and on an array with elements it raises only where they raise at one of them. -/
theorem arrow_map_rows (hpc : pc.ElementWise K) (hr : Reachable (Router.step fl) Router.empty r)
    (hlive : func ∈ r.live) (hcast : CastReturns cast) (hv : iterable.Valid)
    (hmap : r.map fl cast func iterable = .ok (.native (.arrow body param) arr)) :
    funcBodyExpr func = some (body, param) ∧ ∃ xs, arr.values.mapM Val.constant = some xs ∧
      (∀ out, pc.callBody param body arr = .ok out →
        ∃ t ys, out = .array t ys ∧ xs.mapM (body.elementAt K param) = .ok ys) ∧
      ∀ ys, xs ≠ [] → xs.mapM (body.elementAt K param) = .ok ys →
        ∃ t, pc.callBody param body arr = .ok (.array t ys) := by
  obtain ⟨decision, arr', hpath, harr, hdispatch⟩ := Router.map_cases hr hlive hmap
  obtain ⟨hfast, rfl⟩ := BackendDecision.dispatch_native hdispatch
  obtain ⟨hvalid, d, hlane⟩ := toArrow_valid hcast hv harr
  rw [hfast] at hpath
  cases hpath with
  | arrow hbody hlowers =>
    obtain ⟨xs, hxs⟩ := hvalid.exists_constants hlane
    obtain ⟨compiled, hcompiled⟩ : ∃ compiled, pc.lower param body = some compiled := by
      rw [← Option.isSome_iff_exists, lower_isSome]
      exact hlowers
    have hcall : pc.callBody param body arr = pc.fast compiled (.array (laneTy d) xs) xs.length := by
      simp only [PaCompute.callBody, hlane, hxs, hcompiled]
    have hreads : RowReads Datum.column xs.length (pc.fast compiled (.array (laneTy d) xs) xs.length)
        (fun i => body.elementAt K param (xs.getD i (.bool false))) true := by
      apply fast_reads hpc _ _ _ hcompiled
      · rfl
      · rfl
      · intro i hi
        simp [Datum.column, Column.row, hi]
    obtain ⟨hok, htotal⟩ := hreads.mapM_iff fun i x hx => congrArg (body.elementAt K param)
      (show xs.getD i (.bool false) = x by simp [hx])
    rw [← hcall] at hok htotal
    refine ⟨hbody, xs, hxs, fun out hout => ?_, fun ys hne hys => ?_⟩
    · obtain ⟨ys, hcolumn, hys⟩ := hok out hout
      obtain ⟨t, rfl⟩ := Datum.eq_array_of_column hcolumn
      exact ⟨t, ys, rfl, hys⟩
    · obtain ⟨out, hout, hcolumn⟩ := htotal ys hne hys
      obtain ⟨t, rfl⟩ := Datum.eq_array_of_column hcolumn
      exact ⟨t, hout⟩

end Rows

/-! ## Kernels made of their rows -/

namespace RowKernels
variable (K : RowKernels F)

/-- The type of an array with these elements. -/
def tyOf : List (PyConst F) → PaTy
  | .int _ :: _ => .int64
  | .bool _ :: _ => .bool
  | .float _ :: _ => .other "double"
  | .str _ :: _ => .other "string"
  | .other _ :: _ | [] => .other "null"

def datum : Column (PyConst F) → Datum F
  | .array vals => .array (tyOf vals) vals
  | .scalar value => .scalar value

def onColumns (k : PaKernel) (ds : List (Datum F)) : Except PaError (Datum F) :=
  (Column.lift (.arrowInvalid "lengths differ") (K.call k) (ds.map Datum.column)).map datum

def compute : PaCompute F where
  binOp op l r := K.onColumns (.binOp op) [l, r]
  unaryOp op e := K.onColumns (.unaryOp op) [e]
  math name e := K.onColumns (.math name) [e]
  compare op l r := K.onColumns (.compare op) [l, r]
  ifElse cond yes no := K.onColumns .ifElse [cond, yes, no]
  array
    | [] => .ok (.array (.other "null") [])
    | v :: vs => (K.store v).map fun y => .array (tyOf [y]) (List.replicate (vs.length + 1) y)

theorem compute_elementWise : K.compute.ElementWise K where
  kernel k := by
    have hwrap : ∀ c : Column (PyConst F), (datum c).column = c := by
      intro c
      cases c <;> rfl
    have hlift : Lifts Datum.column k.arity (K.onColumns k) (K.call k) :=
      Column.lifts_lift k.arity (K.call k) hwrap
    apply hlift.congr
    intro cs hcs
    cases k with
    | unaryOp | math =>
      obtain ⟨e, rfl⟩ := List.length_eq_one_iff.mp hcs
      rfl
    | binOp | compare =>
      obtain ⟨l, r, rfl⟩ := List.length_eq_two.mp hcs
      rfl
    | ifElse =>
      obtain ⟨cond, yes, no, rfl⟩ := List.length_eq_three.mp hcs
      rfl
  array {v y} n hstore := by
    cases n with
    | zero => exact ⟨_, rfl⟩
    | succ n =>
      refine ⟨tyOf [y], ?_⟩
      simp only [List.replicate_succ, compute, hstore, List.length_replicate]
      rfl
  arrayFails {n v e} hn hstore := by
    obtain ⟨n, rfl⟩ := Nat.exists_eq_succ_of_ne_zero hn.ne'
    refine ⟨e, ?_⟩
    simp only [List.replicate_succ, compute, hstore]
    rfl
  arrayNil := ⟨_, rfl⟩

end RowKernels

/-- `multiply`, `greater` and `if_else`. -/
def hostRows : RowKernels (BitVec 64) where
  call
    | .binOp .mult, [.int a, .int b] => .ok (.int ((a * b).bmod (2 ^ 64)))
    | .compare .gt, [.int a, .int b] => .ok (.bool (b < a))
    | .ifElse, [.bool cond, yes, no] => .ok (if cond then yes else no)
    | _, _ => .error (.arrowNotImplemented "no kernel")
  store v := .ok v

/-- `lambda x: x * 2 if x > 0 else x` -/
def doubledAbove : PyFunc (BitVec 64) :=
  plainFunc (.lambda ["x"] (.ifExp (.compare (.name "x") [.gt] [.constant (.int 0)])
    (.binOp (.name "x") .mult (.constant (.int 2))) (.name "x")))

theorem arrow_map_rows_doubledAbove : ∃ body arr,
    (routerOf doubledAbove).map hostFloatBits strictCast doubledAbove ⟨.lane .i64, [.i64 3, .i64 (-3)]⟩ =
      .ok (.native (.arrow body "x") arr) ∧
    ∃ t, hostRows.compute.callBody "x" body arr = .ok (.array t [.int 6, .int (-3)]) := by
  have hv : PaArray.Valid (⟨.lane .i64, [.i64 3, .i64 (-3)]⟩ : PaArray (BitVec 64)) := by
    refine ⟨?_, by decide⟩
    rintro d ⟨⟩
    exact List.forall_mem_cons.mpr ⟨rfl, List.forall_mem_singleton.mpr rfl⟩
  obtain ⟨-, xs, hxs, -, htotal⟩ := arrow_map_rows hostRows.compute_elementWise
    (routerOf_reachable hostFloatBits doubledAbove) List.mem_cons_self strictCast_returns hv rfl
  cases hxs
  exact ⟨_, _, rfl, htotal _ nofun rfl⟩

end Gilmap
