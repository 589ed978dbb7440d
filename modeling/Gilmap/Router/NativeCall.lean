import Gilmap.Jit.BoundedLoops
import Gilmap.Jit.ExactCalls
import Gilmap.Router.Paths

/-! # Native map calls that return

Where the kernel on its own passes over every buffer of the array's elements, the whole call
returns the array of their values, for every number of threads and under every schedule. So
a map call on elements at which Python's calls are exact is Python's list of their results.
-/
namespace Gilmap
open Library
variable {F : Type}

/-! ## From kernels to calls -/

/-- What a call ends in when its kernel maps `R`: the array of the values of its elements, or
one of them traps or has no end. -/
inductive JitCall.ComesTo (call : JitCall F) (R : Val F → ElemResult F → Prop) : MapResult F → Prop
  | array {ys : List (Val F)} : List.Forall₂ (fun x y => R x (.value y)) call.array.values ys →
      ComesTo call R (.array ys)
  | trapped {x : Val F} {f : Fault} : x ∈ call.array.values → R x (.fault f) → ComesTo call R (.trapped f)
  | hangs {x : Val F} : x ∈ call.array.values → R x .diverge → ComesTo call R .hangs

section Calls
variable {fl : FloatOps F} {threads kernelHash fuel n : ℕ} {call : JitCall F} {g : Compiled F}
  {R : Val F → ElemResult F → Prop} {m m' : Mem F} {inPtr outPtr len : Addr}
  {calls : List (KernelCall F)} {tr : List (Access Addr (Val F))} {l : Local F} {b : BufferResult F}
  {T : List (Fin calls.length × List (Access Addr (Val F)))}
  {t : System Addr (Val F) (Local F) (Fin calls.length)} {c : Fin calls.length}

/-- The kernel is in the registry, so the dispatcher has no error to report. -/
theorem JitCall.invoke_calls {r : Except String (List (KernelCall F))}
    (h : call.invoke fuel threads kernelHash inPtr outPtr len = some r) :
    ∃ calls, r = .ok calls ∧ DispatchCalls call.code inPtr outPtr len.toNat calls := by
  cases r with
  | ok calls => exact ⟨calls, rfl, invokeKernelParallel_calls h⟩
  | error e =>
    simp only [invoke, invokeKernelParallel] at h
    split at h
    · cases h
    · split at h
      · cases h
      · simp at h

theorem JitCall.Placed.mem_values (h : call.Placed m inPtr outPtr len) {i : ℕ} (hi : i < len.toNat) :
    m (slot inPtr i) ∈ call.array.values := by
  rw [← h.values]
  exact List.mem_map_of_mem (List.mem_range.mpr hi)

/-- A run that has halted is the whole run of the call. -/
theorem Runs.halted (h : Runs fl g inPtr outPtr len m b)
    (hrun : Takes (clifNext fl g.code) n (g.enter fl inPtr outPtr len, m) tr (l, m'))
    (hhalt : clifNext fl g.code l = none) :
    (b = .done (elements m' outPtr len) ∧ l.ctl = .returned) ∨
      ∃ f, b = .fault f ∧ l.ctl = .faulted f := by
  cases h with
  | done hrun' hret _ =>
    obtain ⟨-, -, he⟩ := hrun.halted_unique hhalt hrun' (clifNext_returned hret)
    cases he
    exact .inl ⟨rfl, hret⟩
  | fault hrun' hf =>
    obtain ⟨-, -, he⟩ := hrun.halted_unique hhalt hrun' (clifNext_faulted hf)
    cases he
    exact .inr ⟨_, rfl, hf⟩
  | diverge hd => exact absurd hd (hrun.not_diverges hhalt)

/-- The elements of a chunk are elements of the array. -/
theorem JitCall.Placed.chunk_values (hp : call.Placed m inPtr outPtr len)
    (hcalls : DispatchCalls g inPtr outPtr len.toNat calls) (c : Fin calls.length) :
    ∀ i < (BitVec.ofNat 64 (calls.get c).this : Addr).toNat,
      m (slot (slot inPtr (calls.get c).start) i) ∈ call.array.values := by
  intro i hi
  obtain ⟨-, hle, hsize⟩ := hcalls.bounds c
  rw [slot_slot]
  exact hp.mem_values ((Nat.add_lt_add_left (hi.trans_eq hsize) _).trans_le hle)

section Maps
variable (h : call.code.Maps fl (clType call.inDtype) R call.array.values)
  (hp : call.Placed m inPtr outPtr len) (hcalls : DispatchCalls call.code inPtr outPtr len.toNat calls)
include h hp hcalls

theorem Compiled.Maps.confined :
    Confined (clifNext fl call.code.code) (spawned fl calls m) {a | ∃ i < len.toNat, a = slot inPtr i}
      (fun c => chunkCells (slot outPtr) (calls.get c).range) := by
  apply hcalls.confined_of_footprint hp.buffers
  intro c n tr cfg hrun
  rw [hcalls.thread c] at hrun
  have hf := h.footprint (hcalls.part hp.buffers c) (hp.chunk_values hcalls c) hrun
  rwa [(hcalls.bounds c).2.2] at hf

/-- What a thread that has halted under a schedule has done. -/
theorem Compiled.Maps.halted (hT : Sched (clifNext fl call.code.code) (spawned fl calls m) T t)
    (hhalt : clifNext fl call.code.code (t.threads c) = none) :
    ((t.threads c).ctl = .returned ∧ List.Forall₂ (fun x y => R x (.value y))
        (elements m (slot inPtr (calls.get c).start) (BitVec.ofNat 64 (calls.get c).this))
        (elements t.mem (slot outPtr (calls.get c).start) (BitVec.ofNat 64 (calls.get c).this))) ∨
      ∃ f, (t.threads c).ctl = .faulted f ∧ ∃ x ∈ call.array.values, R x (.fault f) := by
  obtain ⟨m', hrun, hmem⟩ := (hT.interleaved (h.confined hp hcalls)).progress c
  obtain ⟨b, hmap, hruns⟩ := h.ends (hcalls.part hp.buffers c) (hp.chunk_values hcalls c)
  rw [hcalls.thread c] at hrun
  rcases hruns.halted hrun hhalt with ⟨rfl, hret⟩ | ⟨f, rfl, hf⟩
  · left
    refine ⟨hret, ?_⟩
    have hsame : elements m' (slot outPtr (calls.get c).start) (BitVec.ofNat 64 (calls.get c).this) =
        elements t.mem (slot outPtr (calls.get c).start) (BitVec.ofNat 64 (calls.get c).this) := by
      apply List.map_congr_left
      intro i hi
      have hi := (List.mem_range.mp hi).trans_eq (hcalls.bounds c).2.2
      rw [slot_slot]
      exact hmem _ (.inr ⟨(calls.get c).start + i, Nat.le_add_right _ _, Nat.add_lt_add_left hi _, rfl⟩)
    rw [← hsame]
    exact hmap.forall₂ rfl
  · right
    obtain ⟨x, hx, hR⟩ := hmap.exists_fault rfl
    refine ⟨f, hf, x, ?_, hR⟩
    obtain ⟨i, hi, rfl⟩ := List.mem_map.mp hx
    exact hp.chunk_values hcalls c i (List.mem_range.mp hi)

end Maps

/-- The call that an element belongs to. -/
theorem DispatchCalls.exists_chunk (hcalls : DispatchCalls g inPtr outPtr len.toNat calls) {i : ℕ}
    (hi : i < len.toNat) :
    ∃ c : Fin calls.length,
      (calls.get c).start ≤ i ∧ i < (calls.get c).start + (calls.get c).this := by
  have hlast : (calls.map KernelCall.range)[calls.length]? = none := by simp
  obtain ⟨j, hj, p, hp, hlo, hhi⟩ := hcalls.tiles.covers (k := calls.length) (Nat.zero_le i) (by
    rw [hlast]
    exact hi)
  rw [List.getElem?_map, List.getElem?_eq_getElem hj] at hp
  cases hp
  exact ⟨⟨j, hj⟩, hlo, hhi⟩

/-- **Every end of a call comes from its elements**, whatever the number of threads and the
schedule. -/
theorem JitCall.Ends.comesTo (h : call.code.Maps fl (clType call.inDtype) R call.array.values)
    {r : MapResult F} (hr : call.Ends fl threads kernelHash r) : call.ComesTo R r := by
  cases hr with
  | runtimeError hp hinvoke =>
    obtain ⟨calls, hok, -⟩ := JitCall.invoke_calls hinvoke
    cases hok
  | @array calls _ _ _ _ _ hstart hT hret =>
    obtain ⟨m, inPtr, fuel, hp, hinvoke, rfl⟩ := hstart
    have hcalls := invokeKernelParallel_calls hinvoke
    apply JitCall.ComesTo.array
    rw [← hp.values, elements, elements, List.forall₂_map_left_iff, List.forall₂_map_right_iff,
      List.forall₂_same]
    intro i hi
    obtain ⟨c, hlo, hhi⟩ := hcalls.exists_chunk (List.mem_range.mp hi)
    rcases h.halted hp hcalls hT (clifNext_returned (hret c)) with ⟨-, hvalues⟩ | ⟨f, hf, -⟩
    · rw [elements, elements, List.forall₂_map_left_iff, List.forall₂_map_right_iff,
        List.forall₂_same] at hvalues
      have hlt : i - (calls.get c).start < (calls.get c).this := by omega
      have hvalue := hvalues (i - (calls.get c).start)
        (List.mem_range.mpr (hlt.trans_eq (hcalls.bounds c).2.2.symm))
      rwa [slot_slot, slot_slot, Nat.add_sub_cancel' hlo] at hvalue
    · rw [hret c] at hf
      cases hf
  | trapped hstart hT hf =>
    obtain ⟨m, inPtr, fuel, hp, hinvoke, rfl⟩ := hstart
    rcases h.halted hp (invokeKernelParallel_calls hinvoke) hT (clifNext_faulted hf) with
      ⟨hret, -⟩ | ⟨f', hf', x, hx, hR⟩
    · rw [hf] at hret
      cases hret
    · rw [hf] at hf'
      cases hf'
      exact .trapped hx hR
  | ranOff hstart hT hat hnone =>
    obtain ⟨m, inPtr, fuel, hp, hinvoke, rfl⟩ := hstart
    rcases h.halted hp (invokeKernelParallel_calls hinvoke) hT hnone with ⟨hret, -⟩ | ⟨f, hf, -⟩
    · rw [hat] at hret
      cases hret
    · rw [hat] at hf
      cases hf
  | hangs hstart hforever _ =>
    obtain ⟨m, inPtr, fuel, hp, hinvoke, hs⟩ := hstart
    have hcalls := invokeKernelParallel_calls hinvoke
    obtain ⟨c, hendless⟩ := (h.confined hp hcalls).exists_endless hs hforever
    obtain ⟨b, hmap, hruns⟩ := h.ends (hcalls.part hp.buffers c) (hp.chunk_values hcalls c)
    rw [hcalls.thread c] at hendless
    cases hruns with
    | done hrun hret _ => exact absurd (clifNext_returned hret) (hendless _ _ _ hrun)
    | fault hrun hf => exact absurd (clifNext_faulted hf) (hendless _ _ _ hrun)
    | diverge _ =>
      obtain ⟨x, hx, hR⟩ := hmap.exists_diverge rfl
      obtain ⟨i, hi, rfl⟩ := List.mem_map.mp hx
      exact .hangs (hp.chunk_values hcalls c i (List.mem_range.mp hi)) hR

end Calls

/-! ## The kernel of a call -/

section Routed
variable {fl : FloatOps F} {cast : ArrowCast F} {func : PyFunc F} {decision : BackendDecision F}
  {arr arr' iterable : PaArray F} {call : JitCall F} {r : Router F}

/-- A call that `map` makes: its kernel is the one `try_compile` has made of the callable for
the lane of the array that the kernel runs over. -/
structure JitCall.For (call : JitCall F) (fl : FloatOps F) (func : PyFunc F) : Prop where
  compiled : tryCompile fl func.node call.inDtype = .compiled call.kernel call.code
  output : call.outDtype = call.kernel.outputDtype
  lane : call.array.type = .lane call.inDtype
  valid : call.array.Valid

theorem BackendDecision.dispatch_jit (hcast : CastReturns cast) (hv : arr.Valid)
    (hpath : FastPath.Captures fl func decision.fastPath)
    (h : decision.dispatch cast arr = .ok (.jit call)) : call.For fl func := by
  unfold BackendDecision.dispatch at h
  split at h
  · rename_i kernel code inDtype outDtype hfast
    rw [hfast] at hpath
    cases hpath with
    | jit hk =>
      obtain ⟨a, ha, h⟩ := Except.bind_eq_ok.mp h
      obtain ⟨hva, hty⟩ := castToDtypeTag_valid hcast hv ha
      rw [jitApply, if_pos hty] at h
      cases h
      exact ⟨hk, rfl, hty, hva⟩
  · cases h
  · cases h

theorem Router.map_jit (hr : Reachable (Router.step fl) Router.empty r) (hlive : func ∈ r.live)
    (hcast : CastReturns cast) (hv : iterable.Valid)
    (h : r.map fl cast func iterable = .ok (.jit call)) : call.For fl func := by
  obtain ⟨decision, arr, hpath, harr, hdispatch⟩ := Router.map_cases hr hlive h
  exact BackendDecision.dispatch_jit hcast (toArrow_valid hcast hv harr).1 hpath hdispatch

end Routed

/-! ## Every call -/

section Ends
variable {fl : FloatOps F} {cast : ArrowCast F} {func : PyFunc F} {node : FnNode F}
  {iterable : PaArray F} {call : JitCall F} {r : Router F} {threads kernelHash : ℕ}
  {result : MapResult F}

/-- Scalar code maps what its body comes to. -/
theorem JitCall.For.maps_outcome (h : call.For fl func)
    (hscalar : call.kernel.isVectorizablePhase1 = false) :
    call.code.Maps fl (clType call.inDtype) (call.kernel.Outcome fl) call.array.values := by
  obtain ⟨⟨node, -, hwalk⟩, -, hc⟩ := tryCompile_eq_compiled h.compiled
  rw [← walkFunction_inputDtype hwalk]
  have hty := compile_bodyTyped hc false
  rw [compile, if_neg (by simp [hscalar])] at hc
  exact compileScalar_maps_outcome hc hty _

/-- Vector code has a value for every element. -/
theorem JitCall.For.maps_typed (h : call.For fl func) (hvec : call.kernel.isVectorizablePhase1 = true) :
    call.code.Maps fl (clType call.inDtype) (fun _ => ValueOf (clType call.outDtype)) call.array.values := by
  obtain ⟨⟨node, -, hwalk⟩, -, hc⟩ := tryCompile_eq_compiled h.compiled
  rw [← walkFunction_inputDtype hwalk, h.output]
  exact compileSimd_maps_value hwalk hvec hc _

theorem JitCall.ComesTo.typed (h : call.ComesTo (fun _ => ValueOf (clType call.outDtype)) result) :
    ∃ ys, result = .array ys ∧ ys.length = call.array.values.length ∧
      ∀ y ∈ ys, y.ty = clType call.outDtype := by
  cases h with
  | @array ys hys =>
    refine ⟨ys, rfl, hys.length_eq.symm, fun y hy => ?_⟩
    obtain ⟨i, hi, rfl⟩ := List.getElem_of_mem hy
    cases hys.get (hys.length_eq ▸ hi) hi with
    | value hty => exact hty
  | trapped _ hx => cases hx
  | hangs _ hx => cases hx

/-- **How a native map call ends.** Whatever the router has been asked before, a call that it
sends to vector code returns an array as long as its own, and a call that it sends to scalar
code returns what its body can compute at each element, unless the body can trap or run forever
at one of them: it neither raises nor leaves its code, under any schedule of any number of
threads. What the body can do at an element may depend on what the elements before it have left
in locals that it reads unassigned. -/
theorem native_call_ends (hr : Reachable (Router.step fl) Router.empty r) (hlive : func ∈ r.live)
    (hcast : CastReturns cast) (hv : iterable.Valid)
    (hmap : r.map fl cast func iterable = .ok (.jit call))
    (h : call.Ends fl threads kernelHash result) :
    (call.kernel.isVectorizablePhase1 = true → ∃ ys, result = .array ys ∧
      ys.length = call.array.values.length ∧ ∀ y ∈ ys, y.ty = clType call.outDtype) ∧
    (call.kernel.isVectorizablePhase1 = false → call.ComesTo (call.kernel.Outcome fl) result) := by
  have hfor := Router.map_jit hr hlive hcast hv hmap
  constructor
  · intro hvec
    exact (JitCall.Ends.comesTo (hfor.maps_typed hvec) h).typed
  · intro hscalar
    exact JitCall.Ends.comesTo (hfor.maps_outcome hscalar) h

def Dispatched.isJit : Dispatched F → Bool
  | .jit _ => true
  | .native _ _ | .fallback _ => false

theorem exists_jit {x : Except MapError (Dispatched F)} (h : x.toOption.any Dispatched.isJit = true) :
    ∃ call, x = .ok (.jit call) := by
  cases x with
  | error e => cases h
  | ok out =>
    cases out with
    | jit call => exact ⟨call, rfl⟩
    | native | fallback => cases h

theorem native_call_ends_weekday : ∃ call result,
    (routerOf weekday).map bitPython.fl strictCast weekday ⟨.lane .i64, [.i64 9]⟩ = .ok (.jit call) ∧
    call.Ends bitPython.fl 4 0 result ∧
    (call.kernel.isVectorizablePhase1 = true → ∃ ys, result = .array ys ∧
      ys.length = call.array.values.length ∧ ∀ y ∈ ys, y.ty = clType call.outDtype) ∧
    (call.kernel.isVectorizablePhase1 = false →
      call.ComesTo (call.kernel.Outcome bitPython.fl) result) := by
  obtain ⟨call, hcall⟩ := exists_jit (x := (routerOf weekday).map bitPython.fl strictCast weekday
    ⟨.lane .i64, [.i64 9]⟩) (by decide +kernel)
  have hr := routerOf_reachable bitPython.fl weekday
  have hfor := Router.map_jit hr List.mem_cons_self strictCast_returns (singleton_valid rfl) hcall
  obtain ⟨result, hresult, -⟩ := JitCall.exists_ends call bitPython.fl 4 0 hfor.valid hfor.lane
  exact ⟨call, result, hcall, hresult,
    native_call_ends hr List.mem_cons_self strictCast_returns (singleton_valid rfl) hcall hresult⟩

/-- A call of a bounded function does not hang. -/
theorem JitCall.For.not_hangs (hfor : call.For fl func) (hnode : func.node = some node)
    (hbounded : node.bounded = true) : ¬ call.Ends fl threads kernelHash .hangs := by
  intro h
  by_cases hvec : call.kernel.isVectorizablePhase1 = true
  · obtain ⟨ys, hys, -⟩ := (JitCall.Ends.comesTo (hfor.maps_typed hvec) h).typed
    cases hys
  · have hscalar : call.kernel.isVectorizablePhase1 = false := by simpa using hvec
    cases JitCall.Ends.comesTo (hfor.maps_outcome hscalar) h with
    | hangs hx hout =>
      obtain ⟨⟨node', hnode', hwalk⟩, -, hc⟩ := tryCompile_eq_compiled hfor.compiled
      rw [hnode] at hnode'
      cases hnode'
      have hty := hfor.valid.typed _ hfor.lane _ hx
      rw [← walkFunction_inputDtype hwalk] at hty
      exact Kernel.Outcome.not_diverge (walkFunction_bounded hwalk hbounded)
        (compile_bodyTyped hc false _) hty hout

/-- **Counted loops end.** A map call of a function without `while`, none of whose `for` loops
binds its own target, does not hang: it returns an array as long as its own, or a machine trap
ends it, under every schedule of every number of threads. -/
theorem counted_loops_end (hr : Reachable (Router.step fl) Router.empty r) (hlive : func ∈ r.live)
    (hnode : func.node = some node) (hbounded : node.bounded = true) (hcast : CastReturns cast)
    (hv : iterable.Valid) (hmap : r.map fl cast func iterable = .ok (.jit call))
    (h : call.Ends fl threads kernelHash result) :
    (∃ ys, result = .array ys ∧ ys.length = call.array.values.length) ∨
      ∃ code, result = .trapped (.trap code) := by
  have hfor := Router.map_jit hr hlive hcast hv hmap
  by_cases hvec : call.kernel.isVectorizablePhase1 = true
  · obtain ⟨ys, hys, hlen, -⟩ := (JitCall.Ends.comesTo (hfor.maps_typed hvec) h).typed
    exact .inl ⟨ys, hys, hlen⟩
  · have hscalar : call.kernel.isVectorizablePhase1 = false := by simpa using hvec
    cases JitCall.Ends.comesTo (hfor.maps_outcome hscalar) h with
    | array hys => exact .inl ⟨_, rfl, hys.length_eq.symm⟩
    | trapped _ hout =>
      cases hout with
      | trap => exact .inr ⟨_, rfl⟩
    | hangs => exact absurd h (hfor.not_hangs hnode hbounded)

/-- `def f(x): n = 0; for i in range(x): n += i; return n` -/
def triangle : FnNode (BitVec 64) :=
  .functionDef ["x"] [.assign [.name "n"] (.constant (.int 0)),
    .forStmt (.name "i") (.call (.name "range") [.name "x"] [])
      [.augAssign (.name "n") .add (.name "i")] [],
    .ret (some (.name "n"))]

theorem counted_loops_end_triangle : ∃ call result,
    (routerOf (plainFunc triangle)).map bitPython.fl strictCast (plainFunc triangle)
      ⟨.lane .f64, [.f64 0x4022000000000000]⟩ = .ok (.jit call) ∧
    call.Ends bitPython.fl 4 0 result ∧
    ((∃ ys, result = .array ys ∧ ys.length = call.array.values.length) ∨
      ∃ code, result = .trapped (.trap code)) := by
  obtain ⟨call, hcall⟩ := exists_jit (x := (routerOf (plainFunc triangle)).map bitPython.fl strictCast
    (plainFunc triangle) ⟨.lane .f64, [.f64 0x4022000000000000]⟩) (by decide +kernel)
  have hr := routerOf_reachable bitPython.fl (plainFunc triangle)
  have hfor := Router.map_jit hr List.mem_cons_self strictCast_returns (singleton_valid rfl) hcall
  obtain ⟨result, hresult, -⟩ := JitCall.exists_ends call bitPython.fl 4 0 hfor.valid hfor.lane
  exact ⟨call, result, hcall, hresult, counted_loops_end hr List.mem_cons_self
    (show _ = some triangle from rfl) (by decide) strictCast_returns (singleton_valid rfl) hcall hresult⟩

end Ends

/-! ## Exact calls -/

/-- The element as `to_pylist` gives it. -/
def Val.toPyObject : Val F → Option (PyVal F)
  | .i64 b => some (.int b.toInt)
  | .f64 x => some (.float x)
  | .i8 _ | .i64x2 _ _ | .f64x2 _ _ => none

theorem Represents.of_toPyObject {d : Dtype} {x : Val F} {u : PyVal F} (h : x.toPyObject = some u)
    (hty : x.ty = clType d) : Represents d u x := by
  cases d with
  | i64 =>
    obtain ⟨b, rfl⟩ := eq_i64_of_ty hty
    cases h
    exact .word rfl rfl
  | f64 =>
    obtain ⟨y, rfl⟩ := eq_f64_of_ty hty
    cases h
    exact .float y

/-- Python's call on the element is exact. -/
def PyFloats.ExactAt (py : PyFloats F) (k : Kernel F) (node : FnNode F) (x : Val F) : Prop :=
  ∃ u v, x.toPyObject = some u ∧ py.ExactCall k node u v

/-- `y` is what Python's call returns for `x`, as a value of the lane. -/
def PyFloats.MapsElement (py : PyFloats F) (node : FnNode F) (d : Dtype) (x y : Val F) : Prop :=
  ∃ u v, x.toPyObject = some u ∧ (∃ m, ∀ n ≥ m, py.call n node u = some (.ok (some v))) ∧
    Represents d v y ∧ y.ty = clType d

section Exact
variable {py : PyFloats F} {node : FnNode F} {k : Kernel F} {g : Compiled F} {d : Dtype} {x : Val F}
  {call : JitCall F} {func : PyFunc F} {cast : ArrowCast F} {iterable : PaArray F} {r : Router F}

/-- The one value that the body computes for the element, from whatever leftovers. -/
theorem PyFloats.ExactAt.exists_value (h : py.ExactAt k node x)
    (hwalk : walkFunction d node = some k) (hc : compile py.fl k = .ok g) (hx : x.ty = clType d) :
    ∃ y, py.MapsElement node k.outputDtype x y ∧
      ∀ ρ, k.HoldsLocals ρ → (k.sem py.fl false x).Computes k.body ρ (.value y) := by
  obtain ⟨u, v, hu, hexact⟩ := h
  have hgives := fun ρ => hexact.computes (ρ := ρ) hwalk (compile_bodyTyped hc false) hx
    (.of_toPyObject hu hx)
  obtain ⟨y, hrep, hty, -⟩ := hgives Env.empty fun _ _ _ _ he => by cases he
  refine ⟨y, ⟨u, v, hu, hexact.python, hrep, hty⟩, fun ρ hρ => ?_⟩
  obtain ⟨y', hrep', hty', hcomputes⟩ := hgives ρ hρ
  rwa [hrep.unique hrep']

/-- The kernel of elements that have one value each. -/
theorem JitCall.For.maps_value {fl : FloatOps F} (h : call.For fl func) {f : Val F → Val F}
    (hf : ∀ x ∈ call.array.values, (f x).ty = clType call.kernel.outputDtype ∧
      ∀ ρ, call.kernel.HoldsLocals ρ →
        (call.kernel.sem fl false x).Computes call.kernel.body ρ (.value (f x)))
    (hnum : call.kernel.isVectorizablePhase1 = true →
      fl.BitExact ∧ ∀ x ∈ call.array.values, call.kernel.reading fl x = some .number) :
    call.code.Maps fl (clType call.inDtype) (fun x r => r = .value (f x)) call.array.values := by
  obtain ⟨⟨node, -, hwalk⟩, -, hc⟩ := tryCompile_eq_compiled h.compiled
  apply maps_of_fullPass
  intro m inPtr outPtr len hb hmem
  refine ⟨fun i => f (m (slot inPtr i)), fun _ _ => rfl, ?_⟩
  rw [← walkFunction_inputDtype hwalk] at hb
  by_cases hvec : call.kernel.isVectorizablePhase1 = true
  · rw [compile, if_pos hvec] at hc
    obtain ⟨hfl, hnum⟩ := hnum hvec
    refine compileSimd_typedPass hfl hvec hc ?_ ?_ ?_ hb
    · intro i hi
      exact (hf _ (hmem i hi)).2 _ fun _ _ _ _ he => by cases he
    · exact fun i hi => (hf _ (hmem i hi)).1
    · exact fun i hi => hnum _ (hmem i hi)
  · rw [compile, if_neg hvec] at hc
    exact compileScalar_typedPass hc (fun i hi => (hf _ (hmem i hi)).2) hb

theorem forall₂_value {f : Val F → Val F} {xs ys : List (Val F)}
    (h : List.Forall₂ (fun x y => ElemResult.value y = .value (f x)) xs ys) : ys = xs.map f := by
  induction h with
  | nil => rfl
  | cons hx _ ih =>
    cases hx
    rw [ih, List.map_cons]

/-- **A native map call is Python's list of results.** Whatever the router has been asked
before, a call that it sends to a kernel returns, under every schedule of every number of
threads, the results that Python's calls on the elements return, in their order, where these
calls are exact. Vector code writes a true boolean as `-1`: on every element, what it computes
has to be a number to both (`Kernel.reading`), with no true boolean used as a number or
returned. -/
theorem native_map_exact (hr : Reachable (Router.step py.fl) Router.empty r)
    (hlive : func ∈ r.live) (hnode : func.node = some node) (hcast : CastReturns cast)
    (hv : iterable.Valid) (hmap : r.map py.fl cast func iterable = .ok (.jit call))
    (hexact : ∀ x ∈ call.array.values, py.ExactAt call.kernel node x)
    (hnum : call.kernel.isVectorizablePhase1 = true → py.fl.BitExact ∧
      ∀ x ∈ call.array.values, call.kernel.reading py.fl x = some .number) (threads kernelHash : ℕ) :
    ∃ ys, List.Forall₂ (py.MapsElement node call.outDtype) call.array.values ys ∧
      ∀ result, call.Ends py.fl threads kernelHash result ↔ result = .array ys := by
  have hfor := Router.map_jit hr hlive hcast hv hmap
  obtain ⟨⟨node', hnode', hwalk⟩, -, hc⟩ := tryCompile_eq_compiled hfor.compiled
  rw [hnode] at hnode'
  cases hnode'
  have hvalue : ∀ x, ∃ y, x ∈ call.array.values →
      py.MapsElement node call.outDtype x y ∧ ∀ ρ, call.kernel.HoldsLocals ρ →
        (call.kernel.sem py.fl false x).Computes call.kernel.body ρ (.value y) := by
    intro x
    by_cases hx : x ∈ call.array.values
    · obtain ⟨y, hy⟩ := (hexact x hx).exists_value hwalk hc (hfor.valid.typed _ hfor.lane x hx)
      exact ⟨y, fun _ => by rwa [hfor.output]⟩
    · exact ⟨x, fun h => absurd h hx⟩
  choose f hf using hvalue
  have hmaps := hfor.maps_value (f := f) (fun x hx => by
    obtain ⟨⟨-, -, -, -, -, hty⟩, hcomputes⟩ := hf x hx
    exact ⟨by rwa [← hfor.output], hcomputes⟩) hnum
  have honly : ∀ result, call.Ends py.fl threads kernelHash result →
      result = .array (call.array.values.map f) := by
    intro result hresult
    cases JitCall.Ends.comesTo hmaps hresult with
    | array hys => rw [forall₂_value hys]
    | trapped _ h => cases h
    | hangs _ h => cases h
  refine ⟨call.array.values.map f, ?_, fun result => ⟨honly result, ?_⟩⟩
  · rw [List.forall₂_map_right_iff, List.forall₂_same]
    exact fun x hx => (hf x hx).1
  · rintro rfl
    obtain ⟨result, hresult, -⟩ := JitCall.exists_ends call py.fl threads kernelHash hfor.valid hfor.lane
    rwa [← honly result hresult]

end Exact

/-- `lambda x: float(x) + x`, for which there are vector instructions and no Arrow kernel -/
def twice : FnNode (BitVec 64) :=
  .lambda ["x"] (.binOp (.call (.name "float") [.name "x"] []) .add (.name "x"))

def twiceKernel : Kernel (BitVec 64) where
  inputDtype := .f64
  outputDtype := .f64
  body := [.ret (.binOp .add .param .param)]

/-- Python's call of `twice` is exact at every float. -/
theorem twice_exact (x : BitVec 64) :
    bitPython.ExactCall twiceKernel twice (.float x) (.float (bitPython.fl.bin .fadd x x)) := by
  have hname : bitPython.SafeFloat (twiceKernel.walker "x") (twice.safeStart "x" (.float x)).known.view
      (.name "x") x := .name rfl rfl
  have hsum : bitPython.SafeFloat (twiceKernel.walker "x") (twice.safeStart "x" (.float x)).known.view
      (.binOp (.call (.name "float") [.name "x"] []) .add (.name "x")) (bitPython.fl.bin .fadd x x) :=
    .binOp bitPython_lawful rfl (.float (hname.toFloat rfl rfl)) (.float hname) rfl rfl rfl rfl
  exact ⟨"x", _, _, rfl, .first (.here ⟨rfl, rfl⟩), hsum.safe, rfl, agrees_f64.mpr rfl⟩

/-- `twice` on `1.5` and `-3.0`. -/
theorem native_map_exact_twice : ∃ call ys,
    (routerOf (plainFunc twice)).map bitPython.fl strictCast (plainFunc twice)
      ⟨.lane .f64, [.f64 0x3FF8000000000000, .f64 0xC008000000000000]⟩ = .ok (.jit call) ∧
    call.kernel.isVectorizablePhase1 = true ∧
    List.Forall₂ (bitPython.MapsElement twice call.outDtype)
      [.f64 0x3FF8000000000000, .f64 0xC008000000000000] ys ∧
    ∀ result, call.Ends bitPython.fl 4 0 result ↔ result = .array ys := by
  have hruns : ((routerOf (plainFunc twice)).map bitPython.fl strictCast (plainFunc twice)
      ⟨.lane .f64, [.f64 0x3FF8000000000000, .f64 0xC008000000000000]⟩).toOption.any (fun
        | .jit call => call.inDtype = .f64 &&
          call.array.values = [.f64 0x3FF8000000000000, .f64 0xC008000000000000]
        | _ => false) = true := by decide +kernel
  have hvalid : PaArray.Valid (⟨.lane .f64, [.f64 0x3FF8000000000000, .f64 0xC008000000000000]⟩ :
      PaArray (BitVec 64)) := by
    refine ⟨fun d hd v hm => ?_, by decide⟩
    cases hd
    simp only [List.mem_cons, List.not_mem_nil, or_false] at hm
    rcases hm with rfl | rfl <;> rfl
  cases hmap : (routerOf (plainFunc twice)).map bitPython.fl strictCast (plainFunc twice)
      ⟨.lane .f64, [.f64 0x3FF8000000000000, .f64 0xC008000000000000]⟩ with
  | error e =>
    rw [hmap] at hruns
    cases hruns
  | ok out =>
    rw [hmap] at hruns
    cases out with
    | native | fallback => cases hruns
    | jit call =>
      have hcall : call.inDtype = .f64 ∧
          call.array.values = [.f64 0x3FF8000000000000, .f64 0xC008000000000000] := by
        simpa [Except.toOption] using hruns
      have hfor := Router.map_jit (routerOf_reachable bitPython.fl (plainFunc twice)) List.mem_cons_self
        strictCast_returns hvalid hmap
      have hkernel : call.kernel = twiceKernel := by
        obtain ⟨⟨node, hnode, hwalk⟩, -, -⟩ := tryCompile_eq_compiled hfor.compiled
        rw [hcall.1] at hwalk
        cases hnode
        exact (Option.some.inj hwalk).symm
      have hfloat : ∀ x ∈ call.array.values, ∃ b, x = .f64 b := by
        intro x hx
        rw [hcall.2] at hx
        simp only [List.mem_cons, List.not_mem_nil, or_false] at hx
        rcases hx with rfl | rfl <;> exact ⟨_, rfl⟩
      obtain ⟨ys, hys, hends⟩ := native_map_exact
        (routerOf_reachable bitPython.fl (plainFunc twice)) List.mem_cons_self rfl strictCast_returns
        hvalid hmap
        (fun x hx => by
          obtain ⟨b, rfl⟩ := hfloat x hx
          rw [hkernel]
          exact ⟨_, _, rfl, twice_exact b⟩)
        (fun _ => ⟨⟨fun _ => rfl, fun _ => rfl⟩, fun x hx => by
          obtain ⟨b, rfl⟩ := hfloat x hx
          rw [hkernel]
          rfl⟩) 4 0
      exact ⟨call, ys, rfl, by rw [hkernel]; decide, hcall.2 ▸ hys, hends⟩

end Gilmap
