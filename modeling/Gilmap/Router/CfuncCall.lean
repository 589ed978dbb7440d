import Gilmap.Dispatch.Parallel
import Gilmap.Pool.PerElement
import Gilmap.Router.Paths

/-! # Calls of a numba `@cfunc`

`cfunc_apply` of `src/lib.rs` and the closure of `_detect_numba_cfunc` in front of it. The
array is cast to the lane of the signature, and the function is called by its address on each
element, on any number of threads.
-/
namespace Gilmap
open Library
variable {F : Type}

/-! ## Slices -/

namespace Elem

def toVal : (d : Dtype) → Elem F d → Val F
  | .i64, b => .i64 b
  | .f64, x => .f64 x

/-- The element of a slice that is a value of the array. -/
def ofVal : (d : Dtype) → Val F → Option (Elem F d)
  | .i64, .i64 b => some b
  | .f64, .f64 x => some x
  | _, _ => none

theorem exists_ofVal {d : Dtype} {v : Val F} (h : v.ty = clType d) :
    ∃ x : Elem F d, ofVal d v = some x ∧ toVal d x = v := by
  cases d with
  | i64 =>
    obtain ⟨b, rfl⟩ := eq_i64_of_ty h
    exact ⟨b, rfl, rfl⟩
  | f64 =>
    obtain ⟨x, rfl⟩ := eq_f64_of_ty h
    exact ⟨x, rfl, rfl⟩

end Elem

/-- `downcast_ref` and `values()` -/
def PaArray.downcast (arr : PaArray F) (d : Dtype) : Option (List (Elem F d)) :=
  if arr.type = .lane d then arr.values.mapM (Elem.ofVal d) else none

/-- The array of a slice. -/
def PaArray.ofSlice (d : Dtype) (xs : List (Elem F d)) : PaArray F := ⟨.lane d, xs.map (Elem.toVal d)⟩

theorem PaArray.Valid.exists_slice {arr : PaArray F} {d : Dtype} (hv : arr.Valid)
    (hlane : arr.type = .lane d) : ∃ xs, arr.downcast d = some xs ∧ arr = .ofSlice d xs := by
  obtain ⟨type, values⟩ := arr
  cases hlane
  have hall : ∀ v ∈ values, ∃ x : Elem F d, Elem.ofVal d v = some x ∧ Elem.toVal d x = v :=
    fun v hmem => Elem.exists_ofVal (hv.typed d rfl v hmem)
  simp only [downcast, ofSlice, if_pos]
  clear hv
  induction values with
  | nil => exact ⟨[], rfl, rfl⟩
  | cons v vs ih =>
    obtain ⟨x, hx, rfl⟩ := hall v List.mem_cons_self
    obtain ⟨xs, hxs, hvs⟩ := ih fun v' hv' => hall v' (List.mem_cons_of_mem _ hv')
    refine ⟨x :: xs, ?_, ?_⟩
    · rw [List.mapM_cons, hx, hxs]
      rfl
    · cases hvs
      rfl

/-! ## `cfunc_apply` -/

inductive CfuncError
  | map (error : MapError)
  /-- an address that is no `usize` -/
  | overflowError
  deriving DecidableEq, Repr

/-- `parse_dtype` -/
def parseDtype : String → Except MapError Dtype
  | "i64" => .ok .i64
  | "f64" => .ok .f64
  | other => .error (.valueError s!"unsupported dtype '{other}': expected 'i64' or 'f64'")

/-- What `cfunc_apply` hands to `apply_i64` or `apply_f64`. -/
structure CfuncCall (F : Type) where
  addr : ℕ
  dtype : Dtype
  input : List (Elem F dtype)

/-- `cfunc_apply`, whose arguments are converted first. -/
def cfuncApply (addr : ℤ) (dtype : String) (array : PaArray F) : Except CfuncError (CfuncCall F) :=
  if 0 ≤ addr ∧ addr < 2 ^ 64 then
    match parseDtype dtype with
    | .error e => .error (.map e)
    | .ok d =>
      match array.downcast d with
      | some input => .ok ⟨addr.toNat, d, input⟩
      | none => .error (.map (.valueError s!"cfunc_apply: expected {arrowTypeName d} input array"))
  else .error .overflowError

/-- `fast` of `_detect_numba_cfunc` -/
def cfuncFast (cast : ArrowCast F) (addr : ℤ) (dtype : Dtype) (arr : PaArray F) :
    Except CfuncError (CfuncCall F) := do
  let arr ← (castToDtypeTag cast arr dtype).mapError .map
  cfuncApply addr (dtypeTag dtype) arr

/-- The functions `extern "C" fn(T) -> T` by their addresses. -/
abbrev NativeCode (F : Type) := ℕ → (d : Dtype) → Elem F d → Elem F d

inductive CfuncResult (F : Type)
  | raised (error : CfuncError)
  | array (arr : PaArray F)
  | hangs

namespace CfuncCall
variable (call : CfuncCall F)

/-- The input in its buffer, and the zeros of the output. -/
def cells (fl : FloatOps F) : Cell → Elem F call.dtype
  | .input i => call.input.getD i (zeroElem fl call.dtype)
  | .output _ => zeroElem fl call.dtype

/-- The array of the output buffer. -/
def output (mem : Cell → Elem F call.dtype) : PaArray F :=
  .ofSlice call.dtype ((List.range call.input.length).map fun i => mem (.output i))

/-- `apply_i64` and `apply_f64`, under every schedule of their threads. -/
inductive Ends (fl : FloatOps F) (native : NativeCode F) (threads : ℕ) : CfuncResult F → Prop
  | array {chunks : List ((ℕ × ℕ) × (ℕ × ℕ))}
      {T : List (Fin chunks.length × List (Access Cell (Elem F call.dtype)))}
      {t : System Cell (Elem F call.dtype) (ApplyLocal (Elem F call.dtype)) (Fin chunks.length)} :
      applyInParallel (call.input.length + 1) threads call.input.length call.input.length = some chunks →
      Sched (applyNext (native call.addr call.dtype)) (applySpawned chunks (call.cells fl)) T t →
      (∀ c, applyNext (native call.addr call.dtype) (t.threads c) = none) →
      Ends fl native threads (.array (call.output t.mem))
  | hangs {chunks : List ((ℕ × ℕ) × (ℕ × ℕ))}
      {s : ℕ → System Cell (Elem F call.dtype) (ApplyLocal (Elem F call.dtype)) (Fin chunks.length)} :
      applyInParallel (call.input.length + 1) threads call.input.length call.input.length = some chunks →
      s 0 = applySpawned chunks (call.cells fl) →
      RunsForever (applyNext (native call.addr call.dtype)) s → Ends fl native threads .hangs

end CfuncCall

/-- `decision.fast_path(func, arr)` with a `@cfunc` at `addr`. -/
inductive CfuncEnds (fl : FloatOps F) (cast : ArrowCast F) (native : NativeCode F) (threads : ℕ)
    (addr : ℤ) (dtype : Dtype) (arr : PaArray F) : CfuncResult F → Prop
  | raised {e : CfuncError} : cfuncFast cast addr dtype arr = .error e →
      CfuncEnds fl cast native threads addr dtype arr (.raised e)
  | call {call : CfuncCall F} {r : CfuncResult F} : cfuncFast cast addr dtype arr = .ok call →
      call.Ends fl native threads r → CfuncEnds fl cast native threads addr dtype arr r

/-! ## How a call ends -/

section Ends
variable {fl : FloatOps F} {native : NativeCode F} {threads : ℕ} {cast : ArrowCast F} {func : PyFunc F}
  {addr : ℤ} {dtype d : Dtype} {arr arr' iterable : PaArray F} {r : Router F}

theorem parseDtype_dtypeTag (d : Dtype) : parseDtype (dtypeTag d) = .ok d := by cases d <;> rfl

/-- Every schedule ends, with the values of the function. -/
theorem CfuncCall.ends_iff (call : CfuncCall F) {result : CfuncResult F} :
    call.Ends fl native threads result ↔
      result = .array (.ofSlice call.dtype (call.input.map (native call.addr call.dtype))) := by
  obtain ⟨chunks, hchunks, htiles, hsame⟩ :=
    applyInParallel_chunks threads (Nat.lt_succ_self call.input.length)
  have hmap := applySpawned_parallelMap (native call.addr call.dtype) (call.cells fl) htiles hsame
  have hpass := hmap.likeOnePass (applyNext_mapsChunk (native call.addr call.dtype) (call.cells fl) 0 _)
  have houtput : ∀ {T t}, Sched (applyNext (native call.addr call.dtype))
      (applySpawned chunks (call.cells fl)) T t →
      (∀ c, applyNext (native call.addr call.dtype) (t.threads c) = none) →
      call.output t.mem = .ofSlice call.dtype (call.input.map (native call.addr call.dtype)) := by
    intro T t hT hhalt
    unfold CfuncCall.output
    congr 1
    apply List.ext_getElem
    · simp
    · intro i hi _
      have hlt : i < call.input.length := by simpa using hi
      have hvalue := hpass.value T t hT hhalt i hlt
      simpa [CfuncCall.cells, List.getElem?_eq_getElem hlt] using hvalue
  have honly : call.Ends fl native threads result →
      result = .array (.ofSlice call.dtype (call.input.map (native call.addr call.dtype))) := by
    intro h
    cases h with
    | array hdispatch hT hhalt =>
      rw [hchunks] at hdispatch
      cases hdispatch
      rw [houtput hT hhalt]
    | hangs hdispatch hstart hruns =>
      rw [hchunks] at hdispatch
      cases hdispatch
      exact absurd hruns (hmap.not_runsForever hstart)
  refine ⟨honly, ?_⟩
  rintro rfl
  rcases Sched.halts_or_runsForever (applyNext (native call.addr call.dtype))
    (applySpawned chunks (call.cells fl)) with ⟨T, t, hT, hhalt⟩ | ⟨s, hstart, hruns, -⟩
  · rw [← houtput hT hhalt]
    exact .array hchunks hT hhalt
  · exact absurd hruns (hmap.not_runsForever hstart)

theorem cfuncFast_cast {e : MapError} (h : castToDtypeTag cast arr dtype = .error e) :
    cfuncFast cast addr dtype arr = .error (.map e) := by
  rw [cfuncFast, h]
  rfl

/-- Behind the cast, the address is all that can be wrong. -/
theorem cfuncFast_ok (addr : ℤ) (hcast : CastReturns cast) (hv : arr.Valid)
    (h : castToDtypeTag cast arr dtype = .ok arr') : ∃ xs, arr' = .ofSlice dtype xs ∧
      cfuncFast cast addr dtype arr =
        if 0 ≤ addr ∧ addr < 2 ^ 64 then .ok ⟨addr.toNat, dtype, xs⟩ else .error .overflowError := by
  obtain ⟨hvalid, hlane⟩ := castToDtypeTag_valid hcast hv h
  obtain ⟨xs, hxs, hslice⟩ := hvalid.exists_slice hlane
  refine ⟨xs, hslice, ?_⟩
  have hfast : cfuncFast cast addr dtype arr = cfuncApply addr (dtypeTag dtype) arr' := by
    rw [cfuncFast, h]
    rfl
  rw [hfast, cfuncApply, parseDtype_dtypeTag]
  simp only [hxs]

theorem cfuncEnds_error {e : CfuncError} (h : cfuncFast cast addr dtype arr = .error e)
    {result : CfuncResult F} :
    CfuncEnds fl cast native threads addr dtype arr result ↔ result = .raised e := by
  constructor
  · intro hends
    cases hends with
    | raised he =>
      rw [h] at he
      cases he
      rfl
    | call hcall _ =>
      rw [h] at hcall
      cases hcall
  · rintro rfl
    exact .raised h

theorem cfuncEnds_ok {call : CfuncCall F} (h : cfuncFast cast addr dtype arr = .ok call)
    {result : CfuncResult F} :
    CfuncEnds fl cast native threads addr dtype arr result ↔ call.Ends fl native threads result := by
  constructor
  · intro hends
    cases hends with
    | raised he =>
      rw [h] at he
      cases he
    | call hcall hresult =>
      rw [h] at hcall
      cases hcall
      exact hresult
  · exact fun hresult => .call h hresult

/-- **A `@cfunc` is mapped.** Whatever the router has been asked before, a map call that it sends
to a `@cfunc` ends, under every schedule of every number of threads, in exactly one way: with the
exception of the cast to the lane of the signature, with an `OverflowError` if the address is no
`usize`, and else with the function's values at the elements, in order. The native function is
taken to return, with a value that depends on the element only. -/
theorem cfunc_map_exact (hr : Reachable (Router.step fl) Router.empty r) (hlive : func ∈ r.live)
    (hcast : CastReturns cast) (hv : iterable.Valid)
    (hmap : r.map fl cast func iterable = .ok (.native (.cfunc addr dtype) arr))
    (native : NativeCode F) (threads : ℕ) :
    func.address = some addr ∧ readCfuncDtypeSig func = some dtype ∧
    (∀ e, castToDtypeTag cast arr dtype = .error e → ∀ result,
      CfuncEnds fl cast native threads addr dtype arr result ↔ result = .raised (.map e)) ∧
    ∀ arr', castToDtypeTag cast arr dtype = .ok arr' → ∃ xs, arr' = .ofSlice dtype xs ∧
      ∀ result, CfuncEnds fl cast native threads addr dtype arr result ↔
        result = if 0 ≤ addr ∧ addr < 2 ^ 64 then
            .array (.ofSlice dtype (xs.map (native addr.toNat dtype)))
          else .raised .overflowError := by
  obtain ⟨decision, arr₀, hpath, harr, hdispatch⟩ := Router.map_cases hr hlive hmap
  obtain ⟨hfast, rfl⟩ := BackendDecision.dispatch_native hdispatch
  obtain ⟨hvalid, -⟩ := toArrow_valid hcast hv harr
  rw [hfast] at hpath
  cases hpath with
  | cfunc haddr hsig =>
    refine ⟨haddr, hsig, fun e he result => cfuncEnds_error (cfuncFast_cast he), fun arr' harr' => ?_⟩
    obtain ⟨xs, hslice, hcall⟩ := cfuncFast_ok addr hcast hvalid harr'
    refine ⟨xs, hslice, fun result => ?_⟩
    by_cases hrange : 0 ≤ addr ∧ addr < 2 ^ 64
    · rw [if_pos hrange] at hcall ⊢
      rw [cfuncEnds_ok hcall]
      exact CfuncCall.ends_iff ⟨addr.toNat, dtype, xs⟩
    · rw [if_neg hrange] at hcall ⊢
      exact cfuncEnds_error hcall

end Ends

/-- A `@cfunc(float64(float64))` at the address 4096. -/
def scaled : PyFunc (BitVec 64) :=
  ⟨0, true, none, some 4096, some (["float64"], "float64"), false, false, "numba"⟩

/-- There is one function, which flips the sign. -/
def negating : NativeCode (BitVec 64)
  | 4096, .f64, x => x ^^^ 0x8000000000000000
  | _, _, x => x

theorem cfunc_map_exact_scaled : ∃ arr,
    (routerOf scaled).map hostFloatBits strictCast scaled ⟨.lane .f64, [.f64 0, .f64 1]⟩ =
      .ok (.native (.cfunc 4096 .f64) arr) ∧
    ∀ result, CfuncEnds hostFloatBits strictCast negating 4 4096 .f64 arr result ↔
      result = .array ⟨.lane .f64, [.f64 0x8000000000000000, .f64 0x8000000000000001]⟩ := by
  have hv : PaArray.Valid (⟨.lane .f64, [.f64 0, .f64 1]⟩ : PaArray (BitVec 64)) := by
    refine ⟨?_, by decide⟩
    rintro d ⟨⟩
    exact List.forall_mem_cons.mpr ⟨rfl, List.forall_mem_singleton.mpr rfl⟩
  obtain ⟨-, -, -, hok⟩ := cfunc_map_exact (routerOf_reachable hostFloatBits scaled)
    List.mem_cons_self strictCast_returns hv rfl negating 4
  obtain ⟨xs, hxs, hends⟩ := hok _ rfl
  have hvalues : xs.map (Elem.toVal .f64) = [.f64 0, .f64 1] := (congrArg PaArray.values hxs).symm
  obtain ⟨x, xs, rfl, hx, hxs⟩ := List.map_eq_cons_iff.mp hvalues
  obtain ⟨y, xs, rfl, hy, hxs⟩ := List.map_eq_cons_iff.mp hxs
  cases List.map_eq_nil_iff.mp hxs
  cases hx
  cases hy
  exact ⟨_, rfl, hends⟩

end Gilmap
