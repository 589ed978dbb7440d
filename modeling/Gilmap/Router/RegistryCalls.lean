import Gilmap.Router.Registry

/-! # Calls of `jit_compile`

What `try_compile` gets from the registry while other calls run, and how many modules the
process leaks.
-/
namespace Gilmap
open Library Json
variable {F : Type} {fl : FloatOps F} {W : KernelTexts F} {s s' : KernelRegistry F W.Text} {i : ℕ}
  {call : RegisterCall F W.Text}

/-! ## `try_compile` through the registry -/

/-- What `try_compile` makes of a call of `jit_compile` that has ended, once `code` is found
under its hash: a panic passes its handler. -/
def RegisterPhase.outcome (kernel : Kernel F) (code : Option (Compiled F)) :
    RegisterPhase F → Option (CompileResult F)
  | .returned => code.map (.compiled kernel)
  | .failed (.compile .panic) => some .raises
  | .failed _ => some .rejected
  | .lookingUp _ | .getting _ | .compiling _ | .inserting _ => none

theorem KernelTexts.kernel_toDict (hc : W.Laws fl.isFinite jsonDepthLimit) {k : Kernel F} {text : W.Text}
    (htext : W.dumps k.toDict = some text) : W.kernel text = keepIf (k.decodes fl) k := by
  have hround : fromStr W.asF64 W.toCodec k.toDict = keepIf (k.decodes fl) k := fromStr_toDict hc k
  rw [← hround, W.fromStr_eq, htext, Option.bind_some]

namespace KernelRegistry

/-- A call that has ended stays as it is. -/
theorem ended_stays (h : Reachable (W.step fl) s s') (hcall : s.calls[i]? = some call)
    (hended : call.phase.ended = true) : s'.calls[i]? = some call := by
  refine h.invariant (I := fun s => s.calls[i]? = some call) hcall ?_
  intro s s' a hcall hs
  cases a with
  | jitCompile text =>
    cases hs
    exact (List.getElem?_append_left (List.getElem?_eq_some_iff.mp hcall).1).trans hcall
  | call j =>
    obtain ⟨other, hother, hstep⟩ := registerStep_cases hs
    obtain ⟨hrunning, phase, hcalls⟩ := hstep.calls
    rw [hcalls, getElem?_set_some hother, if_neg, hcall]
    rintro rfl
    rw [hcall] at hother
    cases hother
    rw [hended] at hrunning
    cases hrunning

/-- Every call's text has been asked for. -/
theorem asked_of_run {ok : KernelRegistry F W.Text → RegistryAction W.Text → Prop}
    {as : List (RegistryAction W.Text)} (h : Run (W.step fl) ok empty as s) :
    ∀ call ∈ s.calls, .jitCompile call.text ∈ as := by
  refine h.induction (I := fun as s => ∀ call ∈ s.calls, .jitCompile call.text ∈ as) nofun ?_
  intro as s s' a _ hasked _ hs call hcall
  cases a with
  | jitCompile text =>
    cases hs
    rcases List.mem_append.mp hcall with hcall | hcall
    · exact List.mem_append_left _ (hasked call hcall)
    · rw [List.mem_singleton.mp hcall]
      exact List.mem_append_right _ (List.mem_singleton_self _)
  | call i =>
    obtain ⟨old, hold, hstep⟩ := registerStep_cases hs
    obtain ⟨-, phase, hcalls⟩ := hstep.calls
    rw [hcalls] at hcall
    rcases List.mem_or_eq_of_mem_set hcall with hcall | rfl
    · exact List.mem_append_left _ (hasked call hcall)
    · exact List.mem_append_left _ (hasked old (List.mem_of_getElem? hold))

/-- What is found under the hash of a call that has returned. -/
theorem code_of_returned (hs : Reachable (W.step fl) empty s)
    (hcall : s.calls[i]? = some call) (hphase : call.phase = .returned)
    (hhash : ∀ other ∈ s.calls, W.hash other.text = W.hash call.text → other.text = call.text) :
    (s.code (W.hash call.text)).isSome = true ∧
      s.code (W.hash call.text) = W.compileText fl call.text := by
  obtain ⟨bs, hrun⟩ := memo_run hs
  have hsound := Memo.sound_of_run hrun
  have hmem : call.text ∈ s.memo.answered := ⟨i, call, hcall, rfl, hphase⟩
  refine ⟨hsound.present _ hmem, hsound.table_eq hmem ?_⟩
  rintro text ⟨j, other, hother, rfl, -⟩
  exact hhash other (List.mem_of_getElem? hother)

/-- **The registry cannot be told from the compiler**, whatever other calls of `jit_compile`
run at the same time, as long as no other text has the hash of the call's: the call ends as
the compilation of its function does, and from then on the code found under its hash is the
code of that function. -/
theorem registry_transparent {d : Dtype} {node : FnNode F} {k : Kernel F}
    (hc : W.Laws fl.isFinite jsonDepthLimit) (hs : Reachable (W.step fl) empty s)
    (hlater : Reachable (W.step fl) s s') (hwalk : walkFunction d node = some k)
    (hcall : s.calls[i]? = some call) (htext : W.dumps k.toDict = some call.text)
    (hhash : ∀ other ∈ s'.calls, W.hash other.text = W.hash call.text → other.text = call.text)
    (hended : call.phase.ended = true) :
    call.phase.outcome k (s'.code (W.hash call.text)) = some (tryCompile fl (some node) d) := by
  have hcall' := ended_stays hlater hcall hended
  have hs' := hs.trans hlater
  have hfits := (ok_of_reachable hs').calls i call hcall'
  have hkernel := W.kernel_toDict hc htext
  cases hphase : call.phase with
  | lookingUp | getting | compiling | inserting =>
    rw [hphase] at hended
    cases hended
  | returned =>
    obtain ⟨hsome, hcode⟩ := code_of_returned hs' hcall' hphase hhash
    obtain ⟨compiled, hcompiled⟩ := Option.isSome_iff_exists.mp hsome
    rw [hcode] at hcompiled
    obtain ⟨kernel, hk, hcompile⟩ := Option.bind_eq_some_iff.mp hcompiled
    rw [hkernel] at hk
    obtain ⟨hdecodes, rfl⟩ := keepIf_eq_some.mp hk
    cases hresult : compile fl k with
    | error e =>
      rw [hresult] at hcompile
      cases hcompile
    | ok g =>
      rw [hresult] at hcompile
      cases hcompile
      rw [RegisterPhase.outcome, hcode, hcompiled, Option.map_some,
        tryCompile_of_compile hwalk hdecodes hresult]
  | failed error =>
    rw [hphase] at hfits
    cases error with
    | invalidKernel =>
      have hdecodes : k.decodes fl = false := by
        rw [← Bool.not_eq_true]
        intro hdecodes
        rw [RegisterPhase.Fits, hkernel, hdecodes] at hfits
        cases hfits
      rw [tryCompile, Option.bind_some, hwalk]
      simp only [hdecodes, Bool.false_eq_true, if_false]
      rfl
    | compile e =>
      obtain ⟨kernel, hk, hresult⟩ := hfits
      rw [hkernel] at hk
      obtain ⟨hdecodes, rfl⟩ := keepIf_eq_some.mp hk
      rw [tryCompile, Option.bind_some, hwalk]
      simp only [hdecodes, hresult, if_true]
      cases e with
      | panic | err | verifier => rfl

end KernelRegistry

/-- Texts that are the values themselves, with their depths as hashes. -/
abbrev bitTexts : KernelTexts (BitVec 64) where
  Text := Json (BitVec 64)
  dumps := some
  parse j := if j.plain hostFloatBits.isFinite = true ∧ j.depth ≤ jsonDepthLimit then some j else none
  asF64 n := hostFloatBits.ofInt (BitVec.ofInt 64 n)
  hash := Json.depth

theorem bitTexts_laws : bitTexts.Laws hostFloatBits.isFinite jsonDepthLimit where
  reads j j' h := by
    simp only [Codec.roundTrip, Option.bind_some, Option.ite_none_right_eq_some] at h
    obtain ⟨⟨hplain, -⟩, h⟩ := h
    cases h
    exact .self j hplain
  accepts j hplain hdepth := by
    simp [Codec.roundTrip, hplain, hdepth]
  rejects j hdepth := by
    simp [Codec.roundTrip, hdepth]

/-- Two calls for one text that both find nothing, and both compile. -/
def racingCalls : List (RegistryAction (Json (BitVec 64))) :=
  [.jitCompile halveOrSevenKernel.toDict, .jitCompile halveOrSevenKernel.toDict, .call 0, .call 1,
    .call 1, .call 0, .call 0, .call 1, .call 0, .call 1]

/-- A call for the text of `lambda x: x`. -/
def identityCall : List (RegistryAction (Json (BitVec 64))) :=
  [.jitCompile (⟨.i64, .i64, [.ret .param]⟩ : Kernel (BitVec 64)).toDict, .call 2, .call 2, .call 2,
    .call 2]

theorem registry_transparent_race : ∃ s s' : KernelRegistry (BitVec 64) (Json (BitVec 64)),
    Reachable (bitTexts.step hostFloatBits) .empty s ∧ Reachable (bitTexts.step hostFloatBits) s s' ∧
      s'.leaked.length = 3 ∧ ∃ call, s.calls[0]? = some call ∧ call.phase.ended = true ∧
        call.phase.outcome halveOrSevenKernel (s'.code (bitTexts.hash call.text)) =
          some (tryCompile hostFloatBits (some halveOrSeven) .i64) := by
  have hrace : (exec (bitTexts.step hostFloatBits) (fun _ _ => True) KernelRegistry.empty racingCalls).any
      (fun s => (s.calls[0]?.any fun call => call.phase.ended) &&
        (exec (bitTexts.step hostFloatBits) (fun _ _ => True) s identityCall).any
          fun s' => s'.leaked.length == 3) = true := by decide +kernel
  obtain ⟨s, hs, hrest⟩ := (Option.any_eq_true _ _).mp hrace
  obtain ⟨hcalls, hlater⟩ := Bool.and_eq_true_iff.mp hrest
  obtain ⟨call, hcall, hended⟩ := (Option.any_eq_true _ _).mp hcalls
  obtain ⟨s', hs', hleaked⟩ := (Option.any_eq_true _ _).mp hlater
  have hrun := run_of_exec hs
  have hasked := KernelRegistry.asked_of_run (hrun.append_exec hs')
  have htext : call.text = halveOrSevenKernel.toDict := by
    have hmem := KernelRegistry.asked_of_run hrun call (List.mem_of_getElem? hcall)
    simpa [racingCalls] using hmem
  refine ⟨s, s', ⟨_, hrun⟩, ⟨_, run_of_exec hs'⟩, beq_iff_eq.mp hleaked, call, hcall, hended, ?_⟩
  apply KernelRegistry.registry_transparent bitTexts_laws ⟨_, hrun⟩ ⟨_, run_of_exec hs'⟩ rfl hcall
    ?_ ?_ hended
  · rw [htext]
  · intro other hother hhash
    rw [htext] at hhash ⊢
    have hmem := hasked other hother
    simp only [racingCalls, identityCall, List.cons_append, List.nil_append, List.mem_cons,
      RegistryAction.jitCompile.injEq, reduceCtorEq, false_or, List.not_mem_nil, or_false] at hmem
    rcases hmem with he | he | he
    · exact he
    · exact he
    · rw [he] at hhash
      exact absurd hhash (by decide)

/-! ## How many modules are leaked -/

/-- The call has found no entry of its hash, and its own is still to come. -/
def RegisterPhase.pending : RegisterPhase F → Bool
  | .compiling _ | .inserting _ => true
  | .lookingUp _ | .getting _ | .returned | .failed _ => false

def RegisterPhase.inserts : RegisterPhase F → Bool
  | .inserting _ => true
  | .lookingUp _ | .getting _ | .compiling _ | .returned | .failed _ => false

theorem RegisterPhase.pending_of_inserts (phase : RegisterPhase F) (h : phase.inserts = true) :
    phase.pending = true := by
  cases phase with
  | inserting => rfl
  | lookingUp | getting | compiling | returned | failed => cases h

namespace KernelRegistry

/-- The calls of `jit_compile` that have not ended. -/
def underWay (s : KernelRegistry F W.Text) : ℕ := s.calls.countP fun call => !call.phase.ended

def pending (s : KernelRegistry F W.Text) (h : ℕ) : ℕ :=
  s.calls.countP fun call => call.phase.pending && W.hash call.text == h

/-- The entries made under a hash, with those that a later one shadows. -/
def entries (s : KernelRegistry F W.Text) (h : ℕ) : ℕ := s.kernels.countP fun e => e.1 == h

/-- At most `n` calls run at a time. -/
def AtMost (n : ℕ) (s : KernelRegistry F W.Text) : RegistryAction W.Text → Prop
  | .jitCompile _ => s.underWay < n
  | .call _ => True

structure Bounded (n : ℕ) (s : KernelRegistry F W.Text) : Prop where
  underWay : s.underWay ≤ n
  entries : ∀ h, s.entries h + s.pending h ≤ n
  leaked : s.leaked.length = s.kernels.length + s.calls.countP (·.phase.inserts)
  hashes : ∀ e ∈ s.kernels, e.1 ∈ s.calls.map fun c => W.hash c.text

theorem pending_le_underWay (s : KernelRegistry F W.Text) (h : ℕ) : s.pending h ≤ s.underWay := by
  apply List.countP_mono_left
  intro call _ hcall
  cases hphase : call.phase with
  | compiling | inserting => rfl
  | lookingUp | getting | returned | failed => simp [hphase, RegisterPhase.pending] at hcall

theorem entries_of_missing {h : ℕ} (hmissing : s.lookup h = none) : s.entries h = 0 := by
  apply List.countP_eq_zero.mpr
  intro e he
  have hne := List.lookup_eq_none_iff.mp hmissing e he
  rw [beq_iff_eq]
  exact (bne_iff_ne.mp hne).symm

end KernelRegistry

section Counts
open KernelRegistry
variable {n h : ℕ}

theorem RegisterStep.underWay_le (hs : RegisterStep fl W s i call s') (hcall : s.calls[i]? = some call) :
    s'.underWay ≤ s.underWay := by
  obtain ⟨hrunning, phase, hcalls⟩ := hs.calls
  have hcount := countP_set_add (p := fun call => !call.phase.ended)
    (b := { call with phase := phase }) hcall
  rw [← hcalls, hrunning] at hcount
  simp only [KernelRegistry.underWay]
  split at hcount
  · split at hcount <;> omega
  · contradiction

/-- Only a call that has found nothing comes to make an entry. -/
theorem RegisterStep.entries_le (hs : RegisterStep fl W s i call s') (hcall : s.calls[i]? = some call)
    (hwork : s.underWay ≤ n) (hentries : s.entries h + s.pending h ≤ n) :
    s'.entries h + s'.pending h ≤ n := by
  have hcount : ∀ phase, (s.setCall i { call with phase := phase }).pending h +
      (if call.phase.pending && W.hash call.text == h then 1 else 0) =
        s.pending h + if phase.pending && W.hash call.text == h then 1 else 0 :=
    fun phase => countP_set_add hcall
  have hnext := (pending_le_underWay s' h).trans ((hs.underWay_le hcall).trans hwork)
  cases hs with
  | found =>
    refine le_trans (Nat.add_le_add_left ?_ _) hentries
    exact Nat.le_of_add_right_le (hcount .returned).le
  | @missing kernel =>
    refine le_trans (Nat.add_le_add_left ?_ _) hentries
    exact Nat.le_of_add_right_le (hcount (.getting kernel)).le
  | @compileFailed kernel e =>
    refine le_trans (Nat.add_le_add_left ?_ _) hentries
    exact Nat.le_of_add_right_le (hcount (.failed (.compile e))).le
  | @stillMissing kernel hphase hmissing =>
    have hsame := hcount (.compiling kernel)
    rw [hphase] at hsame
    by_cases hh : W.hash call.text = h
    · subst hh
      change s.entries _ + _ ≤ n
      rw [entries_of_missing hmissing, Nat.zero_add]
      exact hnext
    · refine le_trans (Nat.add_le_add_left ?_ _) hentries
      simp only [beq_eq_false_iff_ne.mpr hh, Bool.and_false] at hsame
      exact hsame.le
  | compiled hphase =>
    have hsame := hcount (.inserting s.leaked.length)
    rw [hphase] at hsame
    exact (congrArg (s.entries h + ·) (Nat.add_right_cancel hsame)).trans_le hentries
  | @insert fnPtr hphase =>
    have hsame := hcount .returned
    rw [hphase] at hsame
    have hentry : ((W.hash call.text, fnPtr) :: s.kernels).countP (fun e => e.1 == h) =
        s.entries h + if true && W.hash call.text == h then 1 else 0 := by
      rw [Bool.true_and]
      exact List.countP_cons ..
    change List.countP _ (_ :: _) + (s.setCall i { call with phase := .returned }).pending h ≤ n
    rw [hentry, Nat.add_assoc, Nat.add_comm (ite ..)]
    exact (congrArg (s.entries h + ·) hsame).trans_le hentries

theorem RegisterStep.leaked_eq (hs : RegisterStep fl W s i call s') (hcall : s.calls[i]? = some call)
    (hleaked : s.leaked.length = s.kernels.length + s.calls.countP (·.phase.inserts)) :
    s'.leaked.length = s'.kernels.length + s'.calls.countP (·.phase.inserts) := by
  have hcount : ∀ phase, (s.setCall i { call with phase := phase }).calls.countP (·.phase.inserts) +
      (if call.phase.inserts then 1 else 0) =
        s.calls.countP (·.phase.inserts) + if phase.inserts then 1 else 0 :=
    fun phase => countP_set_add hcall
  cases hs with
  | found hphase =>
    have hsame := hcount .returned
    rcases hphase with hphase | hphase
    · rw [hphase] at hsame
      exact hleaked.trans (congrArg _ hsame.symm)
    · rw [hphase] at hsame
      exact hleaked.trans (congrArg _ hsame.symm)
  | @missing kernel hphase =>
    have hsame := hcount (.getting kernel)
    rw [hphase] at hsame
    exact hleaked.trans (congrArg _ hsame.symm)
  | @stillMissing kernel hphase =>
    have hsame := hcount (.compiling kernel)
    rw [hphase] at hsame
    exact hleaked.trans (congrArg _ hsame.symm)
  | @compileFailed kernel e hphase =>
    have hsame := hcount (.failed (.compile e))
    rw [hphase] at hsame
    exact hleaked.trans (congrArg _ hsame.symm)
  | @compiled kernel compiled hphase =>
    have hmore := hcount (.inserting s.leaked.length)
    rw [hphase] at hmore
    change (s.leaked ++ [compiled]).length = s.kernels.length + _
    rw [List.length_append]
    exact (congrArg (· + 1) hleaked).trans ((Nat.add_assoc ..).trans (congrArg _ hmore.symm))
  | insert hphase =>
    have hfewer := hcount .returned
    rw [hphase] at hfewer
    change s.leaked.length = s.kernels.length + 1 + _
    rw [hleaked, Nat.add_assoc, Nat.add_comm 1]
    exact congrArg _ hfewer.symm

/-- Every entry is under the hash of a text that was asked for. -/
theorem RegisterStep.hashes (hs : RegisterStep fl W s i call s') (hcall : s.calls[i]? = some call)
    (hhashes : ∀ e ∈ s.kernels, e.1 ∈ s.calls.map fun c => W.hash c.text) :
    ∀ e ∈ s'.kernels, e.1 ∈ s'.calls.map fun c => W.hash c.text := by
  obtain ⟨-, phase, hcalls⟩ := hs.calls
  have htexts : (s'.calls.map fun c => W.hash c.text) = s.calls.map fun c => W.hash c.text := by
    rw [hcalls]
    exact map_set_of_eq hcall rfl
  rw [htexts]
  cases hs with
  | insert =>
    intro e he
    rcases List.mem_cons.mp he with rfl | he
    · exact List.mem_map.mpr ⟨call, List.mem_of_getElem? hcall, rfl⟩
    · exact hhashes e he
  | found | missing | stillMissing | compiled | compileFailed => exact hhashes

theorem KernelRegistry.Bounded.step {a : RegistryAction W.Text} (hb : Bounded n s) (ha : AtMost n s a)
    (hs : W.step fl s a = some s') : Bounded n s' := by
  cases a with
  | call i =>
    obtain ⟨call, hcall, hstep⟩ := registerStep_cases hs
    exact {
      underWay := (hstep.underWay_le hcall).trans hb.underWay
      entries := fun h => hstep.entries_le hcall hb.underWay (hb.entries h)
      leaked := hstep.leaked_eq hcall hb.leaked
      hashes := hstep.hashes hcall hb.hashes }
  | jitCompile text =>
    cases hs
    have hbegins : (W.begin text).phase.pending = false ∧ (W.begin text).phase.inserts = false := by
      unfold KernelTexts.begin
      dsimp only
      split <;> exact ⟨rfl, rfl⟩
    constructor
    · refine le_trans ?_ (Nat.succ_le_of_lt ha)
      change List.countP _ (_ ++ _) ≤ _
      rw [List.countP_append]
      exact Nat.add_le_add_left List.countP_le_length _
    · intro h
      change s.entries h + List.countP _ (_ ++ _) ≤ n
      rw [List.countP_append, List.countP_singleton, hbegins.1]
      exact hb.entries h
    · change s.leaked.length = s.kernels.length + List.countP _ (_ ++ _)
      rw [List.countP_append, List.countP_singleton, hbegins.2]
      exact hb.leaked
    · intro e he
      change e.1 ∈ List.map _ (_ ++ _)
      rw [List.map_append]
      exact List.mem_append_left _ (hb.hashes e he)

theorem bounded_empty : Bounded n (empty : KernelRegistry F W.Text) where
  underWay := Nat.zero_le _
  entries _ := Nat.zero_le _
  leaked := rfl
  hashes _ he := nomatch he

/-- **Modules are not compiled again and again.** Where at most `n` calls of `jit_compile` run at
a time, no more modules are leaked than `n` times the number of different hashes that were asked
for, however many calls there are. -/
theorem modules_bounded {as : List (RegistryAction W.Text)}
    (hrun : Run (W.step fl) (AtMost n) empty as s) :
    s.leaked.length ≤ n * (s.calls.map fun call => W.hash call.text).toFinset.card := by
  have hb : Bounded n s := hrun.invariant bounded_empty fun hb ha hs => hb.step ha hs
  let hashes := (s.calls.map fun call => W.hash call.text).toFinset
  have hentries : ∑ h ∈ hashes, s.entries h = s.kernels.length := by
    have hsum := sum_countP_key (p := fun _ => true) fun e he =>
      List.mem_toFinset.mpr (hb.hashes e he)
    simp only [Bool.true_and, List.countP_true] at hsum
    exact hsum
  have hpending : ∑ h ∈ hashes, s.pending h = s.calls.countP (·.phase.pending) := by
    apply sum_countP_key
    intro call hcall
    exact List.mem_toFinset.mpr (List.mem_map_of_mem hcall)
  have hinserts : s.calls.countP (·.phase.inserts) ≤ s.calls.countP (·.phase.pending) := by
    apply List.countP_mono_left
    intro call _ hcall
    exact call.phase.pending_of_inserts hcall
  calc s.leaked.length = s.kernels.length + s.calls.countP (·.phase.inserts) := hb.leaked
    _ ≤ ∑ h ∈ hashes, s.entries h + ∑ h ∈ hashes, s.pending h := by
      rw [hentries, hpending]
      exact Nat.add_le_add_left hinserts _
    _ = ∑ h ∈ hashes, (s.entries h + s.pending h) := Finset.sum_add_distrib.symm
    _ ≤ hashes.card • n := Finset.sum_le_card_nsmul _ _ _ fun h _ => hb.entries h
    _ = n * hashes.card := by rw [smul_eq_mul, Nat.mul_comm]

instance (n : ℕ) (s : KernelRegistry F W.Text) (a : RegistryAction W.Text) : Decidable (AtMost n s a) :=
  match a with
  | .jitCompile _ => inferInstanceAs (Decidable (s.underWay < n))
  | .call _ => inferInstanceAs (Decidable True)

end Counts

theorem modules_bounded_race : ∃ s : KernelRegistry (BitVec 64) (Json (BitVec 64)),
    Run (bitTexts.step hostFloatBits) (KernelRegistry.AtMost 2) .empty racingCalls s ∧
      s.leaked.length = 2 ∧
      s.leaked.length ≤ 2 * (s.calls.map fun call => bitTexts.hash call.text).toFinset.card := by
  have hrace : (exec (bitTexts.step hostFloatBits) (KernelRegistry.AtMost 2) .empty racingCalls).any
      (fun s => s.leaked.length == 2) = true := by decide +kernel
  obtain ⟨s, hs, hleaked⟩ := (Option.any_eq_true _ _).mp hrace
  exact ⟨s, run_of_exec hs, beq_iff_eq.mp hleaked, modules_bounded (run_of_exec hs)⟩

end Gilmap
