import Gilmap.Dispatch.ChunkSize
import Gilmap.Jit.SimdLoop

/-! # Parallel native dispatch

`invoke_kernel_parallel` of `src/jit.rs` and `apply_in_parallel` of
`src/cfunc_dispatch.rs`. A dispatcher fixes which chunks are spawned; the spawned
threads then run in any order, one instruction of one thread at a time.
-/
namespace Gilmap
open Library
variable {F : Type}

/-! ## `invoke_kernel_parallel` -/

/-- One spawned (or direct) call of a kernel: the elements `start` to `start + this` of the
caller's buffers, at the addresses that the call passes. -/
structure KernelCall (F : Type) where
  kernel : Compiled F
  start : ℕ
  this : ℕ
  chunkIn : Addr
  chunkOut : Addr

/-- `dtype_size` -/
def dtypeSize : Dtype → Addr
  | .i64 | .f64 => 8

/-- The calls that `invoke_kernel_parallel` makes; `lookup` is the registry's entry for
`kernelHash` and `currentNumThreads` what rayon reports. -/
def invokeKernelParallel (fuel currentNumThreads : ℕ) (lookup : Option (Compiled F))
    (kernelHash : ℕ) (inDtype outDtype : Dtype) (inPtr outPtr : Addr) (len : ℕ) :
    Option (Except String (List (KernelCall F))) :=
  if len = 0 then some (.ok [])
  else
    match lookup with
    | none => some (.error s!"kernel {kernelHash} not registered")
    | some kernel =>
      let numThreads := max currentNumThreads 1
      if len < numThreads then some (.ok [⟨kernel, 0, len, inPtr, outPtr⟩])
      else
        (spawnLoop len (pickChunkSize len numThreads) fuel 0).map fun chunks =>
          .ok (chunks.map fun (start, this) =>
            ⟨kernel, start, this, inPtr + BitVec.ofNat 64 start * dtypeSize inDtype,
              outPtr + BitVec.ofNat 64 start * dtypeSize outDtype⟩)

/-- All calls about to start on the memory `m`. -/
def spawned (fl : FloatOps F) (calls : List (KernelCall F)) (m : Mem F) :
    System Addr (Val F) (Local F) (Fin calls.length) where
  threads c := calls[c].kernel.enter fl calls[c].chunkIn calls[c].chunkOut (BitVec.ofNat 64 calls[c].this)
  mem := m

/-! ## `apply_in_parallel` -/

inductive Cell
  | input (i : ℕ)
  | output (i : ℕ)
  deriving DecidableEq

/-- A chunk's `for (i, &x) in xs.iter().enumerate() { ys[i] = f(x) }`; `loaded` is `x` once it
has been read. -/
structure ApplyLocal (α : Type) where
  i : ℕ
  count : ℕ
  inStart : ℕ
  outStart : ℕ
  loaded : Option α

def applyNext {α : Type} (f : α → α) : Program Cell α (ApplyLocal α) := fun l =>
  match l.loaded with
  | none =>
    if l.i < l.count then
      some (.load [.input (l.inStart + l.i)] fun vs => { l with loaded := vs.head? })
    else none
  | some x =>
    some (.store [(.output (l.outStart + l.i), f x)] { l with i := l.i + 1, loaded := none })

/-- The pairs of input and output chunks that `apply_in_parallel` runs its body on, each as
first index and size. -/
def applyInParallel (fuel currentNumThreads inputLen outputLen : ℕ) :
    Option (List ((ℕ × ℕ) × (ℕ × ℕ))) :=
  if inputLen = 0 then some []
  else
    let numThreads := max currentNumThreads 1
    if inputLen < numThreads then some [((0, inputLen), (0, outputLen))]
    else do
      let chunkSize := pickChunkSize inputLen numThreads
      let inChunks ← sliceChunks chunkSize fuel 0 inputLen
      let outChunks ← sliceChunks chunkSize fuel 0 outputLen
      some (inChunks.zip outChunks)

def applySpawned {α : Type} (chunks : List ((ℕ × ℕ) × (ℕ × ℕ))) (m : Cell → α) :
    System Cell α (ApplyLocal α) (Fin chunks.length) where
  threads c := ⟨0, chunks[c].1.2, chunks[c].1.1, chunks[c].2.1, none⟩
  mem := m

/-! ## The calls of a dispatcher -/

def KernelCall.range (call : KernelCall F) : ℕ × ℕ := (call.start, call.this)

/-- The calls of one dispatch of `g` follow each other over two buffers of `len` slots. -/
structure DispatchCalls (g : Compiled F) (inPtr outPtr : Addr) (len : ℕ)
    (calls : List (KernelCall F)) : Prop where
  tiles : Tiles len 0 (calls.map KernelCall.range)
  calls : ∀ call ∈ calls, call.kernel = g ∧ call.chunkIn = slot inPtr call.start ∧
    call.chunkOut = slot outPtr call.start

/-- With fuel for every element the loop ends. -/
theorem invokeKernelParallel_total {fuel threads len : ℕ} (hfuel : len < fuel) (g : Compiled F)
    (kernelHash : ℕ) (inDtype outDtype : Dtype) (inPtr outPtr : Addr) :
    ∃ calls, invokeKernelParallel fuel threads (some g) kernelHash inDtype outDtype inPtr outPtr len =
      some (.ok calls) := by
  unfold invokeKernelParallel
  split
  · exact ⟨_, rfl⟩
  · dsimp only
    split
    · exact ⟨_, rfl⟩
    · obtain ⟨chunks, hloop⟩ := spawnLoop_total (pickChunkSize_pos len (max threads 1))
        (by omega : len - 0 < fuel)
      exact ⟨_, by rw [hloop]; rfl⟩

theorem slot_eq (base : Addr) (d : Dtype) (i : ℕ) :
    base + BitVec.ofNat 64 i * dtypeSize d = slot base i := by
  cases d <;> rfl

theorem invokeKernelParallel_calls {fuel threads kernelHash len : ℕ} {g : Compiled F}
    {inDtype outDtype : Dtype} {inPtr outPtr : Addr} {calls : List (KernelCall F)}
    (h : invokeKernelParallel fuel threads (some g) kernelHash inDtype outDtype inPtr outPtr len =
      some (.ok calls)) : DispatchCalls g inPtr outPtr len calls := by
  unfold invokeKernelParallel at h
  split at h
  · rename_i hlen
    cases h
    exact ⟨hlen.symm, fun _ h => nomatch h⟩
  · rename_i hlen
    dsimp only at h
    split at h
    · cases h
      exact ⟨⟨rfl, Nat.pos_of_ne_zero hlen, Nat.zero_add len⟩, by simp [slot]⟩
    · obtain ⟨chunks, hloop, hcalls⟩ := Option.map_eq_some_iff.mp h
      cases hcalls
      have htiles := spawnLoop_tiles (pickChunkSize_pos len (max threads 1)) hloop (Nat.zero_le len)
      refine ⟨?_, fun call hcall => ?_⟩
      · rw [List.map_map]
        simpa [Function.comp_def, KernelCall.range] using htiles
      · obtain ⟨chunk, -, rfl⟩ := List.mem_map.mp hcall
        exact ⟨rfl, slot_eq _ _ _, slot_eq _ _ _⟩

theorem applyInParallel_chunks {fuel len : ℕ} (threads : ℕ) (hfuel : len < fuel) :
    ∃ chunks, applyInParallel fuel threads len len = some chunks ∧
      Tiles len 0 (chunks.map Prod.fst) ∧ ∀ p ∈ chunks, p.1 = p.2 := by
  unfold applyInParallel
  split
  · rename_i hlen
    exact ⟨[], rfl, hlen.symm, by simp⟩
  · rename_i hlen
    dsimp only
    split
    · exact ⟨[((0, len), (0, len))], rfl,
        ⟨rfl, Nat.pos_of_ne_zero hlen, Nat.zero_add len⟩, by simp⟩
    · obtain ⟨chunks, hslices, htiles⟩ := sliceChunks_tiles (pickChunkSize_pos len (max threads 1))
        (Nat.zero_add len) (by omega : len < fuel)
      refine ⟨chunks.zip chunks, by rw [hslices]; rfl, ?_, ?_⟩
      · rwa [List.map_fst_zip le_rfl]
      · intro p hp
        rw [List.zip_eq_zipWith, List.zipWith_self] at hp
        obtain ⟨q, -, rfl⟩ := List.mem_map.mp hp
        rfl

/-! ## One chunk -/

section Chunk
variable {fl : FloatOps F} {k : Kernel F} {g : Compiled F} {f : Val F → Val F}
  {inPtr outPtr len : Addr} {m : Mem F}

theorem Elementwise.fullPass (h : Elementwise fl k g f)
    (hb : Buffers m inPtr outPtr len (clType k.inputDtype)) :
    FullPass fl g (fun i => f (m (slot inPtr i))) inPtr outPtr len m := by
  cases h with
  | scalar hc hf => exact compileScalar_fullPass hc (fun i hi => hf _ (hb.typed i hi)) hb
  | simd hc hf hlanes =>
    refine compileSimd_fullPass hc (fun value c hsr hlower j hj _ => ?_)
      (fun i _ hi => (hf _ (hb.typed i hi)).2) hb
    have hx := hb.typed j (by omega)
    have hy := hb.typed (j + 1) (by omega)
    exact ⟨fun vars vals => hlanes value c hsr hlower _ _ vars vals hx hy, (hf _ hx).1, (hf _ hy).1⟩

/-- A part of two buffers. -/
theorem Buffers.part {ty : ClTy} (hb : Buffers m inPtr outPtr len ty) {s c : ℕ}
    (hc : 0 < c) (hle : s + c ≤ len.toNat) :
    Buffers m (slot inPtr s) (slot outPtr s) (BitVec.ofNat 64 c) ty := by
  have hin := slot_toNat hb.inFits (show s < len.toNat by omega)
  have hout := slot_toNat hb.outFits (show s < len.toNat by omega)
  have hsize : (BitVec.ofNat 64 c).toNat = c := by
    have := len.isLt
    rw [BitVec.toNat_ofNat, Nat.mod_eq_of_lt (by omega)]
  have := hb.inFits
  have := hb.outFits
  have := hb.apart
  refine ⟨by omega, by omega, by omega, fun i hi => ?_⟩
  rw [slot_slot]
  exact hb.typed (s + i) (by omega)

/-- A single-threaded call. -/
theorem FullPass.mapsWhole {v : ℕ → Val F} (h : FullPass fl g v inPtr outPtr len m) :
    MapsChunk (clifNext fl g.code) (·.ctl = .returned) (slot inPtr) (slot outPtr) v m (g.enter fl inPtr outPtr len) 0 len.toNat := by
  obtain ⟨n, tr, l, m', hrun, hret, hreads, hwrites⟩ := h
  rw [List.range_eq_range'] at hreads hwrites
  exact ⟨n, tr, l, m', hrun, by simp [clifNext, hret], hret, hreads, hwrites⟩

theorem FullPass.mapsChunk {s c : ℕ} (hsize : (BitVec.ofNat 64 c : Addr).toNat = c)
    {v : ℕ → Val F} (h : FullPass fl g (fun i => v (s + i)) (slot inPtr s) (slot outPtr s)
      (BitVec.ofNat 64 c) m) :
    MapsChunk (clifNext fl g.code) (fun l => l.ctl = .returned) (slot inPtr) (slot outPtr) v m
      (g.enter fl (slot inPtr s) (slot outPtr s) (BitVec.ofNat 64 c)) s c := by
  obtain ⟨n, tr, l, m', hrun, hret, hreads, hwrites⟩ := h
  refine ⟨n, tr, l, m', hrun, by simp [clifNext, hret], hret, ?_, ?_⟩
  · rw [hreads, hsize, List.range'_eq_map_range, List.map_map]
    exact List.map_congr_left fun i _ => slot_slot inPtr s i
  · rw [hwrites, hsize, List.range'_eq_map_range, List.map_map]
    apply List.map_congr_left
    intro i _
    simp only [Function.comp, slot_slot]

end Chunk

section ApplyChunk
variable {α : Type} (f : α → α) {i s c : ℕ} {m : Cell → α}

/-- One element: read it, write `f` of it. -/
theorem applyNext_turn (hi : i < c) :
    Takes (applyNext f) 2 (⟨i, c, s, s, none⟩, m)
      [.read (.input (s + i)), .write (.output (s + i)) (f (m (.input (s + i))))]
      (⟨i + 1, c, s, s, none⟩,
        Function.update m (.output (s + i)) (f (m (.input (s + i))))) := by
  have hload : soloStep (applyNext f) (⟨i, c, s, s, none⟩, m) =
      some ([.read (.input (s + i))], ⟨i, c, s, s, some (m (.input (s + i)))⟩, m) := by
    simp [soloStep, applyNext, hi]
  have hstore : soloStep (applyNext f) (⟨i, c, s, s, some (m (.input (s + i)))⟩, m) =
      some ([.write (.output (s + i)) (f (m (.input (s + i))))], ⟨i + 1, c, s, s, none⟩,
        Function.update m (.output (s + i)) (f (m (.input (s + i))))) := by
    simp [soloStep, applyNext, writeAll]
  exact (Takes.single hload).trans (Takes.single hstore)

/-- The rest of a chunk from its element `i` on. -/
theorem applyNext_rest (d : ℕ) (hd : i + d = c) {v : ℕ → α} (hv : ∀ j, v j = f (m (.input j))) :
    ∃ n tr l m', Takes (applyNext f) n (⟨i, c, s, s, none⟩, m) tr (l, m') ∧
      applyNext f l = none ∧ l.loaded = none ∧
      readsOf tr = (List.range' (s + i) d).map Cell.input ∧
      writesOf tr = (List.range' (s + i) d).map fun j => (Cell.output j, v j) := by
  induction d generalizing i m with
  | zero => exact ⟨0, [], _, m, .refl _, by simp [applyNext, ← hd], rfl, rfl, rfl⟩
  | succ d ih =>
    have hturn := applyNext_turn f (s := s) (m := m) (show i < c by omega)
    obtain ⟨n, tr, l, m', hrun, hhalt, hidle, hreads, hwrites⟩ :=
      ih (m := Function.update m (.output (s + i)) (f (m (.input (s + i)))))
        (show i + 1 + d = c by omega) (fun j => by
          rw [hv j, Function.update_of_ne (by simp)])
    refine ⟨2 + n, _, l, m', hturn.trans hrun, hhalt, hidle, ?_, ?_⟩
    · rw [readsOf_append, hreads, List.range'_succ]
      rfl
    · rw [writesOf_append, hwrites, List.range'_succ, List.map_cons, hv (s + i)]
      rfl

theorem applyNext_mapsChunk (m : Cell → α) (s c : ℕ) :
    MapsChunk (applyNext f) (·.loaded = none) Cell.input Cell.output
      (fun i => f (m (.input i))) m ⟨0, c, s, s, none⟩ s c :=
  applyNext_rest f c (Nat.zero_add c) fun _ => rfl

end ApplyChunk

/-! ## All chunks -/

section Whole
variable {fl : FloatOps F} {k : Kernel F} {g : Compiled F} {f : Val F → Val F}
  {inPtr outPtr len : Addr} {m : Mem F}

theorem DispatchCalls.thread {calls : List (KernelCall F)} {n : ℕ}
    (h : DispatchCalls g inPtr outPtr n calls) (c : Fin calls.length) :
    (spawned fl calls m).threads c = g.enter fl (slot inPtr calls[c].start)
      (slot outPtr calls[c].start) (BitVec.ofNat 64 calls[c].this) := by
  obtain ⟨hkernel, hin, hout⟩ := h.calls calls[c] (List.getElem_mem _)
  simp only [spawned, hkernel, hin, hout]

theorem DispatchCalls.bounds {calls : List (KernelCall F)}
    (h : DispatchCalls g inPtr outPtr len.toNat calls) (c : Fin calls.length) :
    0 < calls[c].this ∧ calls[c].start + calls[c].this ≤ len.toNat ∧
      (BitVec.ofNat 64 calls[c].this : Addr).toNat = calls[c].this := by
  have hmem : calls[c].range ∈ calls.map KernelCall.range := List.mem_map_of_mem (List.getElem_mem _)
  have hle : calls[c].start + calls[c].this ≤ len.toNat := (h.tiles.bounds _ hmem).2
  have := len.isLt
  refine ⟨h.tiles.pos _ hmem, hle, ?_⟩
  rw [BitVec.toNat_ofNat, Nat.mod_eq_of_lt (by omega)]

/-- The chunk of a call. -/
theorem DispatchCalls.part {calls : List (KernelCall F)}
    (h : DispatchCalls g inPtr outPtr len.toNat calls) {ty : ClTy}
    (hb : Buffers m inPtr outPtr len ty) (c : Fin calls.length) :
    Buffers m (slot inPtr calls[c].start) (slot outPtr calls[c].start)
      (BitVec.ofNat 64 calls[c].this) ty :=
  hb.part (h.bounds c).1 (h.bounds c).2.1

theorem DispatchCalls.tiles_ofFn {calls : List (KernelCall F)} {n : ℕ}
    (h : DispatchCalls g inPtr outPtr n calls) :
    Tiles n 0 (List.ofFn fun c : Fin calls.length => calls[c].range) := by
  have htiles := h.tiles
  rw [← List.ofFn_getElem_eq_map] at htiles
  exact htiles

theorem spawned_parallelMap (h : Elementwise fl k g f)
    (hb : Buffers m inPtr outPtr len (clType k.inputDtype)) {calls : List (KernelCall F)}
    (hcalls : DispatchCalls g inPtr outPtr len.toNat calls) :
    ParallelMap (clifNext fl g.code) (·.ctl = .returned) (slot inPtr) (slot outPtr)
      (fun i => f (m (slot inPtr i))) len.toNat (fun c : Fin calls.length => calls[c].range)
      (spawned fl calls m) where
  tiles := hcalls.tiles_ofFn
  apart i hi j hj := hb.slot_ne hi hj
  inj i hi j hj := slot_inj hb.outFits hi hj
  maps c := by
    rw [hcalls.thread c]
    have hpass := h.fullPass (hcalls.part hb c)
    simp only [slot_slot] at hpass
    exact FullPass.mapsChunk (v := fun i => f (m (slot inPtr i))) (hcalls.bounds c).2.2 hpass

theorem applySpawned_parallelMap {α : Type} (f : α → α) (m : Cell → α) {n : ℕ}
    {chunks : List ((ℕ × ℕ) × (ℕ × ℕ))} (htiles : Tiles n 0 (chunks.map Prod.fst))
    (hsame : ∀ p ∈ chunks, p.1 = p.2) :
    ParallelMap (applyNext f) (·.loaded = none) Cell.input Cell.output (fun i => f (m (.input i))) n
      (fun c : Fin chunks.length => chunks[c].1) (applySpawned chunks m) where
  tiles := by
    rw [← List.ofFn_getElem_eq_map] at htiles
    exact htiles
  apart _ _ _ _ := Cell.noConfusion
  inj _ _ _ _ h := Cell.output.inj h
  maps c := by
    have hout : chunks[c].2.1 = chunks[c].1.1 :=
      (congrArg Prod.fst (hsame chunks[c] (List.getElem_mem _))).symm
    simp only [applySpawned, hout]
    exact applyNext_mapsChunk f m _ _

/-- **Exact coverage.** For every number of threads, the chunks of both dispatchers tile the
buffer, and every schedule of them ends and does exactly what one pass does. -/
theorem parallel_dispatch_exact (h : Elementwise fl k g f)
    (hb : Buffers m inPtr outPtr len (clType k.inputDtype)) (threads kernelHash : ℕ)
    {α : Type} (cfunc : α → α) (cells : Cell → α) (n : ℕ) :
    (∀ fuel, len.toNat < fuel → ∃ calls,
      invokeKernelParallel fuel threads (some g) kernelHash k.inputDtype k.outputDtype inPtr outPtr
          len.toNat = some (.ok calls) ∧
        Tiles len.toNat 0 (calls.map KernelCall.range) ∧
        LikeOnePass (clifNext fl g.code) (·.ctl = .returned) (slot inPtr) (slot outPtr)
          (fun i => f (m (slot inPtr i))) len.toNat (spawned fl calls m)
          (g.enter fl inPtr outPtr len)) ∧
    ∀ fuel, n < fuel → ∃ chunks, applyInParallel fuel threads n n = some chunks ∧
      Tiles n 0 (chunks.map Prod.fst) ∧ (∀ p ∈ chunks, p.1 = p.2) ∧
      LikeOnePass (applyNext cfunc) (·.loaded = none) Cell.input Cell.output
        (fun i => cfunc (cells (.input i))) n (applySpawned chunks cells) ⟨0, n, 0, 0, none⟩ := by
  constructor
  · intro fuel hfuel
    obtain ⟨calls, hdispatch⟩ := invokeKernelParallel_total hfuel g kernelHash k.inputDtype
      k.outputDtype inPtr outPtr
    have hcalls := invokeKernelParallel_calls hdispatch
    have hwhole := (h.fullPass hb).mapsWhole
    exact ⟨calls, hdispatch, hcalls.tiles, (spawned_parallelMap h hb hcalls).likeOnePass hwhole⟩
  · intro fuel hfuel
    obtain ⟨chunks, hdispatch, htiles, hsame⟩ := applyInParallel_chunks threads hfuel
    exact ⟨chunks, hdispatch, htiles, hsame,
      (applySpawned_parallelMap cfunc cells htiles hsame).likeOnePass
        (applyNext_mapsChunk cfunc cells 0 n)⟩

end Whole

/-- `return x + 1` on the i64 lane -/
def increment : Kernel Float where
  inputDtype := .i64
  outputDtype := .i64
  body := [.ret (.binOp .add .param (.constI64 1))]

def incrementValue : Val Float → Val Float
  | .i64 a => .i64 (a + 1)
  | v => v

theorem increment_elementwise {g : Compiled Float} (hc : compileSimd increment = .ok g) :
    Elementwise hostFloats increment g incrementValue := by
  refine .simd hc (fun x hx => ?_) fun value c hsr hlower x y vars vals hx hy h4 => ?_
  · obtain ⟨a, rfl⟩ := eq_i64_of_ty hx
    exact ⟨rfl, fun ρ => .ends (n := 1) rfl rfl⟩
  · obtain ⟨a, rfl⟩ := eq_i64_of_ty hx
    obtain ⟨b, rfl⟩ := eq_i64_of_ty hy
    cases hsr
    cases hlower
    simp only [increment, simdCoerce, ClExpr.eval, h4]
    rfl

/-- Nine elements on two threads: four chunks of a pair and one of a single element. -/
theorem parallel_dispatch_exact_increment :
    ∃ g, compileSimd increment = .ok g ∧ ∃ calls,
      invokeKernelParallel 10 2 (some g) 0 .i64 .i64 0 1024 9 = some (.ok calls) ∧
      LikeOnePass (clifNext hostFloats g.code) (·.ctl = .returned) (slot 0) (slot 1024)
        (fun _ => .i64 4) 9 (spawned hostFloats calls fun _ => .i64 3)
        (g.enter hostFloats 0 1024 9) := by
  cases hc : compileSimd increment with
  | error e =>
    have hok : (compileSimd increment).toBool = true := by decide
    rw [hc] at hok
    cases hok
  | ok g =>
    have hb : Buffers (fun _ => .i64 3 : Mem Float) 0 1024 9 (clType increment.inputDtype) :=
      ⟨by decide, by decide, by decide, fun _ _ => rfl⟩
    obtain ⟨calls, hdispatch, -, hpass⟩ :=
      (parallel_dispatch_exact (increment_elementwise hc) hb 2 0 id (fun _ => ()) 0).1 10 (by decide)
    exact ⟨g, rfl, calls, hdispatch, hpass⟩

end Gilmap
