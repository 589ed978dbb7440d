import Gilmap.Library.ListUpdate
import Gilmap.Library.Memo
import Gilmap.Python.JsonRoundTrip

/-! # The kernel registry

`jit_compile` of `src/lib.rs` with `lookup` and `compile_and_register` of `src/jit.rs`. The
registry is behind a mutex, which is dropped while a kernel is compiled: between two
critical sections of a call any others may run. Modules are leaked, so that the pointers to
their code stay valid.
-/
namespace Gilmap
open Library Json
variable {F : Type}

/-- The JSON libraries on both sides, and `DefaultHasher` on a text. -/
structure KernelTexts (F : Type) extends Codec F where
  asF64 : ℤ → F
  hash : Text → ℕ

/-- `serde_json::from_str` -/
def KernelTexts.kernel (W : KernelTexts F) (text : W.Text) : Option (Kernel F) :=
  (W.parse text).bind (decodeKernel W.asF64 jsonDepthLimit)

theorem KernelTexts.fromStr_eq (W : KernelTexts F) (dict : Json F) :
    fromStr W.asF64 W.toCodec dict = (W.dumps dict).bind W.kernel := Option.bind_assoc ..

/-! ## State and steps -/

/-- What a call of `jit_compile` raises. -/
inductive RegisterError
  /-- `PyValueError`: "invalid kernel JSON" -/
  | invalidKernel
  /-- `PyRuntimeError`, or the `PanicException` of a panic -/
  | compile (error : CompileError)
  deriving DecidableEq, Repr

inductive RegisterPhase (F : Type)
  /-- in front of `jit::lookup` -/
  | lookingUp (kernel : Kernel F)
  /-- in front of `map.get` in `compile_and_register` -/
  | getting (kernel : Kernel F)
  | compiling (kernel : Kernel F)
  /-- in front of `insert` -/
  | inserting (fnPtr : ℕ)
  /-- `Ok(h)` -/
  | returned
  | failed (error : RegisterError)
  deriving Repr

def RegisterPhase.ended : RegisterPhase F → Bool
  | .returned | .failed _ => true
  | .lookingUp _ | .getting _ | .compiling _ | .inserting _ => false

/-- A call of `jit_compile`. -/
structure RegisterCall (F Text : Type) where
  text : Text
  phase : RegisterPhase F

/-- `KERNEL_REGISTRY`, the leaked modules, and the calls of `jit_compile`. The pointer to a
module's code is its place among the leaked ones; a later entry of a hash shadows the
earlier ones. -/
structure KernelRegistry (F Text : Type) where
  kernels : List (ℕ × ℕ)
  leaked : List (Compiled F)
  calls : List (RegisterCall F Text)

inductive RegistryAction (Text : Type)
  | jitCompile (text : Text)
  | call (i : ℕ)

namespace KernelRegistry
variable {Text : Type}

def empty : KernelRegistry F Text := ⟨[], [], []⟩

/-- `jit::lookup` -/
def lookup (s : KernelRegistry F Text) (h : ℕ) : Option ℕ := s.kernels.lookup h

/-- The code that `invoke_kernel_parallel` runs for a hash. -/
def code (s : KernelRegistry F Text) (h : ℕ) : Option (Compiled F) :=
  (s.lookup h).bind (s.leaked[·]?)

def setCall (s : KernelRegistry F Text) (i : ℕ) (call : RegisterCall F Text) : KernelRegistry F Text :=
  { s with calls := s.calls.set i call }

end KernelRegistry

variable (fl : FloatOps F) (W : KernelTexts F)

/-- A call up to its first look at the registry. -/
def KernelTexts.begin (text : W.Text) : RegisterCall F W.Text where
  text := text
  phase :=
    match W.kernel text with
    | some kernel => .lookingUp kernel
    | none => .failed .invalidKernel

/-- A call goes on to behind its next critical section, or to the end of `compile`. -/
def KernelTexts.stepCall (s : KernelRegistry F W.Text) (i : ℕ) : Option (KernelRegistry F W.Text) := do
  let call ← s.calls[i]?
  let h := W.hash call.text
  match call.phase with
  | .lookingUp kernel =>
    some (s.setCall i { call with phase := if (s.lookup h).isSome then .returned else .getting kernel })
  | .getting kernel =>
    some (s.setCall i { call with phase := if (s.lookup h).isSome then .returned else .compiling kernel })
  | .compiling kernel =>
    match compile fl kernel with
    | .ok compiled =>
      some { s.setCall i { call with phase := .inserting s.leaked.length } with
        leaked := s.leaked ++ [compiled] }
    | .error e => some (s.setCall i { call with phase := .failed (.compile e) })
  | .inserting fnPtr =>
    some { s.setCall i { call with phase := .returned } with kernels := (h, fnPtr) :: s.kernels }
  | .returned | .failed _ => none

def KernelTexts.step (s : KernelRegistry F W.Text) :
    RegistryAction W.Text → Option (KernelRegistry F W.Text)
  | .jitCompile text => some { s with calls := s.calls ++ [W.begin text] }
  | .call i => W.stepCall fl s i

/-- The cases of `stepCall`. -/
inductive RegisterStep (s : KernelRegistry F W.Text) (i : ℕ) (call : RegisterCall F W.Text) :
    KernelRegistry F W.Text → Prop
  | found {kernel : Kernel F} : call.phase = .lookingUp kernel ∨ call.phase = .getting kernel →
      (s.lookup (W.hash call.text)).isSome = true →
      RegisterStep s i call (s.setCall i { call with phase := .returned })
  | missing {kernel : Kernel F} : call.phase = .lookingUp kernel →
      s.lookup (W.hash call.text) = none →
      RegisterStep s i call (s.setCall i { call with phase := .getting kernel })
  | stillMissing {kernel : Kernel F} : call.phase = .getting kernel →
      s.lookup (W.hash call.text) = none →
      RegisterStep s i call (s.setCall i { call with phase := .compiling kernel })
  | compiled {kernel : Kernel F} {compiled : Compiled F} : call.phase = .compiling kernel →
      compile fl kernel = .ok compiled →
      RegisterStep s i call { s.setCall i { call with phase := .inserting s.leaked.length } with
        leaked := s.leaked ++ [compiled] }
  | compileFailed {kernel : Kernel F} {e : CompileError} : call.phase = .compiling kernel →
      compile fl kernel = .error e →
      RegisterStep s i call (s.setCall i { call with phase := .failed (.compile e) })
  | insert {fnPtr : ℕ} : call.phase = .inserting fnPtr →
      RegisterStep s i call { s.setCall i { call with phase := .returned } with
        kernels := (W.hash call.text, fnPtr) :: s.kernels }

variable {fl W} {s s' : KernelRegistry F W.Text} {i : ℕ} {call : RegisterCall F W.Text}

theorem registerStep_cases (hs : W.stepCall fl s i = some s') :
    ∃ call, s.calls[i]? = some call ∧ RegisterStep fl W s i call s' := by
  obtain ⟨call, hcall, hs⟩ := Option.bind_eq_some_iff.mp hs
  refine ⟨call, hcall, ?_⟩
  split at hs
  · rename_i kernel hphase
    cases hs
    cases hlookup : s.lookup (W.hash call.text) with
    | none => exact .missing hphase hlookup
    | some fnPtr => exact .found (.inl hphase) (by rw [hlookup]; rfl)
  · rename_i kernel hphase
    cases hs
    cases hlookup : s.lookup (W.hash call.text) with
    | none => exact .stillMissing hphase hlookup
    | some fnPtr => exact .found (.inr hphase) (by rw [hlookup]; rfl)
  · rename_i kernel hphase
    split at hs
    · cases hs
      exact .compiled hphase ‹_›
    · cases hs
      exact .compileFailed hphase ‹_›
  · cases hs
    exact .insert ‹_›
  · cases hs
  · cases hs

/-- A call that takes a step has not ended, and it keeps its text. -/
theorem RegisterStep.calls (hs : RegisterStep fl W s i call s') : call.phase.ended = false ∧
    ∃ phase, s'.calls = s.calls.set i { call with phase := phase } := by
  cases hs with
  | found hphase => rcases hphase with hphase | hphase <;> exact ⟨by rw [hphase]; rfl, _, rfl⟩
  | missing hphase | stillMissing hphase | compiled hphase | compileFailed hphase | insert hphase =>
    exact ⟨by rw [hphase]; rfl, _, rfl⟩

/-! ## What every call has found out -/

/-- The code that a text stands for. -/
def KernelTexts.compileText (fl : FloatOps F) (W : KernelTexts F) (text : W.Text) : Option (Compiled F) :=
  (W.kernel text).bind fun kernel => (compile fl kernel).toOption

theorem compileText_eq_some {text : W.Text} {compiled : Compiled F} {kernel : Kernel F}
    (hkernel : W.kernel text = some kernel) (hcompile : compile fl kernel = .ok compiled) :
    W.compileText fl text = some compiled := by
  rw [KernelTexts.compileText, hkernel, Option.bind_some, hcompile]
  rfl

def RegisterPhase.Fits (fl : FloatOps F) (W : KernelTexts F) (leaked : List (Compiled F)) (text : W.Text) :
    RegisterPhase F → Prop
  | .lookingUp kernel | .getting kernel | .compiling kernel => W.kernel text = some kernel
  | .inserting fnPtr => ∃ compiled, W.compileText fl text = some compiled ∧ leaked[fnPtr]? = some compiled
  | .returned => (W.kernel text).isSome = true
  | .failed .invalidKernel => W.kernel text = none
  | .failed (.compile e) => ∃ kernel, W.kernel text = some kernel ∧ compile fl kernel = .error e

theorem RegisterPhase.Fits.append {leaked more : List (Compiled F)} {text : W.Text} {phase : RegisterPhase F}
    (h : phase.Fits fl W leaked text) : phase.Fits fl W (leaked ++ more) text := by
  cases phase with
  | inserting fnPtr =>
    obtain ⟨compiled, hcompiled, hptr⟩ := h
    refine ⟨compiled, hcompiled, ?_⟩
    rwa [List.getElem?_append_left (List.getElem?_eq_some_iff.mp hptr).1]
  | failed error =>
    cases error with
    | invalidKernel | compile => exact h
  | lookingUp | getting | compiling | returned => exact h

/-- Pointers lead to code, and what a call has found out so far is true of its text. -/
structure KernelRegistry.Ok (fl : FloatOps F) (s : KernelRegistry F W.Text) : Prop where
  pointers : ∀ h p, s.lookup h = some p → p < s.leaked.length
  calls : ∀ (i : ℕ) call, s.calls[i]? = some call → call.phase.Fits fl W s.leaked call.text

namespace KernelRegistry

theorem ok_empty : Ok fl (empty : KernelRegistry F W.Text) where
  pointers _ _ h := nomatch h
  calls _ _ h := nomatch h

theorem Ok.setCall {call' : RegisterCall F W.Text} (h : Ok fl s)
    (hfits : call'.phase.Fits fl W s.leaked call'.text) : Ok fl (s.setCall i call') where
  pointers := h.pointers
  calls j other hother := by
    rcases getElem?_set_cases hother with hother | rfl
    · exact h.calls j other hother
    · exact hfits

theorem Ok.leak (h : Ok fl s) (compiled : Compiled F) :
    Ok fl { s with leaked := s.leaked ++ [compiled] } where
  pointers k p hp := by
    rw [List.length_append]
    exact Nat.lt_add_right _ (h.pointers k p hp)
  calls j other hother := (h.calls j other hother).append

theorem Ok.insert {h p : ℕ} (hs : Ok fl s) (hp : p < s.leaked.length) :
    Ok fl { s with kernels := (h, p) :: s.kernels } where
  pointers k q hq := by
    change ((h, p) :: s.kernels).lookup k = some q at hq
    rw [List.lookup_cons] at hq
    split at hq
    · cases hq
      exact hp
    · exact hs.pointers k q hq
  calls := hs.calls

theorem Ok.stepCall (h : Ok fl s) (hs : W.stepCall fl s i = some s') : Ok fl s' := by
  obtain ⟨call, hcall, hstep⟩ := registerStep_cases hs
  have hfits := h.calls i call hcall
  cases hstep with
  | found hphase =>
    apply h.setCall
    rcases hphase with hphase | hphase
    · rw [hphase] at hfits
      exact Option.isSome_of_eq_some hfits
    · rw [hphase] at hfits
      exact Option.isSome_of_eq_some hfits
  | missing hphase | stillMissing hphase =>
    rw [hphase] at hfits
    exact h.setCall hfits
  | compiled hphase hcompile =>
    rw [hphase] at hfits
    apply (h.leak _).setCall
    exact ⟨_, compileText_eq_some hfits hcompile, List.getElem?_concat_length ..⟩
  | compileFailed hphase hcompile =>
    rw [hphase] at hfits
    exact h.setCall ⟨_, hfits, hcompile⟩
  | insert hphase =>
    rw [hphase] at hfits
    obtain ⟨compiled, hcompiled, hptr⟩ := hfits
    apply (h.insert (List.getElem?_eq_some_iff.mp hptr).1).setCall
    obtain ⟨kernel, hkernel, -⟩ := Option.bind_eq_some_iff.mp hcompiled
    exact Option.isSome_of_eq_some hkernel

theorem Ok.step {a : RegistryAction W.Text} (h : Ok fl s) (hs : W.step fl s a = some s') : Ok fl s' := by
  cases a with
  | call i => exact h.stepCall hs
  | jitCompile text =>
    cases hs
    refine ⟨h.pointers, fun i call hcall => ?_⟩
    rcases getElem?_concat_cases hcall with hcall | rfl
    · exact h.calls i call hcall
    · unfold KernelTexts.begin
      dsimp only
      split
      · assumption
      · assumption

theorem ok_of_reachable (h : Reachable (W.step fl) empty s) : Ok fl s :=
  h.invariant ok_empty fun h hs => h.step hs

/-! ## The registry as a memo table -/

/-- The texts whose calls have returned. -/
def answered (s : KernelRegistry F W.Text) : Set W.Text :=
  {text | ∃ (i : ℕ) (call : RegisterCall F W.Text),
    s.calls[i]? = some call ∧ call.text = text ∧ call.phase = .returned}

/-- The registry without its pointers and without the calls under way. -/
def memo (s : KernelRegistry F W.Text) : Memo W.Text ℕ (Compiled F) := ⟨s.code, s.answered⟩

theorem answered_return (hcall : s.calls[i]? = some call) :
    (s.setCall i { call with phase := .returned }).answered = insert call.text s.answered := by
  ext text
  constructor
  · rintro ⟨j, other, hother, rfl, hphase⟩
    rcases getElem?_set_cases hother with hother | rfl
    · exact .inr ⟨j, other, hother, rfl, hphase⟩
    · exact .inl rfl
  · have hself : (s.setCall i { call with phase := .returned }).calls[i]? =
        some { call with phase := .returned } := by
      rw [setCall, getElem?_set_some hcall, if_pos rfl]
    rintro (rfl | ⟨j, other, hother, rfl, hphase⟩)
    · exact ⟨i, _, hself, rfl, rfl⟩
    · by_cases hij : i = j
      · subst hij
        rw [hcall] at hother
        cases hother
        exact ⟨i, _, hself, rfl, rfl⟩
      · refine ⟨j, other, ?_, rfl, hphase⟩
        rwa [setCall, getElem?_set_some hcall, if_neg hij]

/-- A call that goes on and does not return. -/
theorem answered_setCall {call' : RegisterCall F W.Text} (hcall : s.calls[i]? = some call)
    (hphase : call.phase ≠ .returned) (hphase' : call'.phase ≠ .returned) :
    (s.setCall i call').answered = s.answered := by
  ext text
  constructor
  · rintro ⟨j, other, hother, rfl, hreturned⟩
    rcases getElem?_set_cases hother with hother | rfl
    · exact ⟨j, other, hother, rfl, hreturned⟩
    · exact absurd hreturned hphase'
  · rintro ⟨j, other, hother, rfl, hreturned⟩
    refine ⟨j, other, ?_, rfl, hreturned⟩
    rwa [setCall, getElem?_set_some hcall, if_neg]
    rintro rfl
    rw [hcall] at hother
    cases hother
    exact hphase hreturned

theorem answered_begin (text : W.Text) :
    ({ s with calls := s.calls ++ [W.begin text] } : KernelRegistry F W.Text).answered = s.answered := by
  ext text'
  constructor
  · rintro ⟨j, other, hother, rfl, hreturned⟩
    rcases getElem?_concat_cases hother with hother | rfl
    · exact ⟨j, other, hother, rfl, hreturned⟩
    · unfold KernelTexts.begin at hreturned
      dsimp only at hreturned
      split at hreturned <;> cases hreturned
  · rintro ⟨j, other, hother, rfl, hreturned⟩
    refine ⟨j, other, ?_, rfl, hreturned⟩
    exact (List.getElem?_append_left (List.getElem?_eq_some_iff.mp hother).1).trans hother

/-- The code of a hash stays where it is when another module is leaked. -/
theorem Ok.code_leak (h : Ok fl s) (compiled : Compiled F) :
    ({ s with leaked := s.leaked ++ [compiled] } : KernelRegistry F W.Text).code = s.code := by
  funext k
  unfold code
  cases hk : s.lookup k with
  | none =>
    change (s.lookup k).bind _ = _
    rw [hk]
    rfl
  | some p =>
    change (s.lookup k).bind _ = _
    rw [hk]
    exact List.getElem?_append_left (h.pointers k p hk)

theorem code_insert {h p : ℕ} {compiled : Compiled F} (hp : s.leaked[p]? = some compiled) :
    ({ s with kernels := (h, p) :: s.kernels } : KernelRegistry F W.Text).code =
      Function.update s.code h (some compiled) := by
  funext k
  rw [Function.update_apply]
  change (((h, p) :: s.kernels).lookup k).bind (s.leaked[·]?) = _
  rw [List.lookup_cons]
  split
  · rename_i hk
    rw [if_pos (beq_iff_eq.mp hk), Option.bind_some, hp]
  · rename_i hk
    rw [if_neg (ne_of_beq_false hk)]
    rfl

theorem Ok.code_isSome (h : Ok fl s) (k : ℕ) : (s.code k).isSome = (s.lookup k).isSome := by
  unfold code
  cases hk : s.lookup k with
  | none => rfl
  | some p => rw [Option.bind_some, List.getElem?_eq_getElem (h.pointers k p hk)]; rfl

/-- A critical section is a step of the memo table, or changes nothing in it. -/
theorem Ok.memo_stepCall (h : Ok fl s) (hs : W.stepCall fl s i = some s') :
    s'.memo = s.memo ∨ ∃ b, s.memo.step W.hash (W.compileText fl) b = some s'.memo := by
  obtain ⟨call, hcall, hstep⟩ := registerStep_cases hs
  cases hstep with
  | found hphase hfound =>
    right
    refine ⟨.find call.text, ?_⟩
    have hcode : (s.memo.table (W.hash call.text)).isSome = true := by
      rw [memo, h.code_isSome, hfound]
    rw [Memo.step, if_pos hcode, memo, memo, answered_return hcall]
    rfl
  | missing hphase | stillMissing hphase | compileFailed hphase =>
    left
    rw [memo, memo]
    congr 1
    apply answered_setCall hcall
    · rw [hphase]
      intro hreturned
      cases hreturned
    · intro hreturned
      cases hreturned
  | @compiled kernel compiled hphase =>
    left
    rw [memo, memo]
    congr 1
    · exact h.code_leak compiled
    · apply answered_setCall hcall
      · rw [hphase]
        intro hreturned
        cases hreturned
      · intro hreturned
        cases hreturned
  | insert hphase =>
    right
    refine ⟨.store call.text, ?_⟩
    have hfits := h.calls i call hcall
    rw [hphase] at hfits
    obtain ⟨compiled, hcompiled, hptr⟩ := hfits
    rw [Memo.step, hcompiled, Option.map_some, memo, memo]
    congr 2
    · exact (code_insert hptr).symm
    · exact (answered_return hcall).symm

theorem Ok.memo_step {a : RegistryAction W.Text} (h : Ok fl s) (hs : W.step fl s a = some s') :
    s'.memo = s.memo ∨ ∃ b, s.memo.step W.hash (W.compileText fl) b = some s'.memo := by
  cases a with
  | call i => exact h.memo_stepCall hs
  | jitCompile text =>
    cases hs
    left
    rw [memo, memo, answered_begin]
    rfl

/-- **The registry refines a memo table**, whatever calls run at the same time. -/
theorem memo_run (h : Reachable (W.step fl) empty s) :
    Reachable (Memo.step W.hash (W.compileText fl)) Memo.empty s.memo := by
  obtain ⟨as, hrun⟩ := h
  have hempty : (empty : KernelRegistry F W.Text).memo = Memo.empty := by
    unfold memo Memo.empty
    congr 1
    ext text
    constructor
    · rintro ⟨i, call, hcall, -⟩
      cases hcall
    · exact False.elim
  have hrefines : ∃ bs, Run (Memo.step W.hash (W.compileText fl)) (fun _ _ => True)
      (empty : KernelRegistry F W.Text).memo bs s.memo := by
    apply hrun.refines (I := Ok fl) ok_empty
    · intro s s' a h _ hs
      exact h.step hs
    · intro s s' a h _ hs
      rcases h.memo_step hs with hsame | ⟨b, hb⟩
      · exact .inl hsame
      · exact .inr ⟨b, trivial, hb⟩
  rwa [hempty] at hrefines

end KernelRegistry

end Gilmap
