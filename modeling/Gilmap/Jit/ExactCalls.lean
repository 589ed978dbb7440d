import Gilmap.Jit.SpuriousTrap

/-! # The value that comes back

A safe run need not return what Python returns: the expression of its `return` is only calm.
Where that expression is safe as well, the code of the element computes Python's value, with
whatever an earlier element has left in the variables.
-/
namespace Gilmap
open Library
variable {F : Type}

/-! ## Values of a lane -/

/-- The machine value is Python's value itself, in the dtype. -/
inductive Represents : Dtype → PyVal F → Val F → Prop
  | word {v : PyVal F} {n : ℤ} {b : BitVec 64} : v.num = .ok (.int n) → b.toInt = n →
      Represents .i64 v (.i64 b)
  | float (x : F) : Represents .f64 (.float x) (.f64 x)

section Values
variable {py : PyFloats F} {d : Dtype} {v : PyVal F} {x y : Val F}

/-- Python's number is its value where that has the kind of the dtype. -/
theorem PyFloats.Stands.represents (h : py.Stands d v x) (hv : Agrees d v) (hty : x.ty = clType d) :
    Represents d v x := by
  cases h with
  | word hn hb =>
    rcases hn with hn | ⟨z, rfl, -⟩
    · exact .word hn hb
    · cases agrees_i64.mp hv
  | flag => cases hty
  | float z => exact .float z
  | integer hn _ =>
    cases v with
    | float => cases hn
    | int | bool | complex => cases agrees_f64.mp hv

theorem Represents.stands (h : Represents d v x) : py.Stands d v x := by
  cases h with
  | word hn hb => exact .word (.inl hn) hb
  | float z => exact .float z

/-- A value of the type of its dtype is known by what it stands for. -/
theorem Represents.unique (h : Represents d v x) (h' : Represents d v y) : x = y := by
  cases h with
  | @word _ n b hn hb =>
    cases h' with
    | @word _ n' b' hn' hb' =>
      rw [hn] at hn'
      cases hn'
      rw [BitVec.eq_of_toInt_eq (hb.trans hb'.symm)]
  | float =>
    cases h'
    rfl

end Values

/-! ## The return of a run -/

/-- The task is the `return` of the expression, in the state `last`. -/
def ReturnOf (value : PyExpr F) (last : SafeState F) (task : PyTask F) (s : SafeState F) : Prop :=
  task = .stmt (.ret (some value)) ∧ s = last

section Returns
variable {py : PyFloats F} {w : Walker} {S : Sem F} {value : PyExpr F} {last s : SafeState F}
  {task : PyTask F} {ctask : CodeTask F} {ρ : Env F} {v : PyVal F}

/-- A run that comes to a calm `return` is safe. -/
theorem PyFloats.SafelyReaches.safeRun (h : py.SafelyReaches w (ReturnOf value last) task s)
    (hcalm : py.Calm w last.known.view value) (hv : py.eval last.frame value = .ok v) :
    py.SafeRun w task s (.ret v) := by
  induction h with
  | here hat =>
    obtain ⟨rfl, rfl⟩ := hat
    exact .ret hcalm hv
  | ifStmt htest _ ih => exact .ifStmt htest ih
  | forStmt hrange _ ih => exact .forStmt hrange ih
  | whileStmt _ ih => exact .whileStmt ih
  | first _ ih => exact .leave ih fun _ he => by cases he
  | later hfirst _ ih => exact .cons hfirst ih
  | turn _ ih => exact .turnsLeave ih rfl
  | laterTurn hrun hagain hvar _ ih => exact .turnsNext hrun hagain hvar ih
  | round htest _ ih => exact .loopLeave htest ih rfl
  | laterRound htest hrun hagain _ ih => exact .loopNext htest hrun hagain ih

/-- The code of a `return` has Python's number where its expression is safe. -/
theorem PyFloats.Safe.return_code (hw : w.Tables S) (hsafe : py.Safe w s.known.view value)
    (hv : py.eval s.frame value = .ok v) (hc : Compiles w.param S (.stmt (.ret (some value))) ctask)
    (hs : s.known.Tracks py w S ρ) :
    ∃ x, py.Stands S.outputDtype v x ∧ x.ty = clType S.outputDtype ∧
      Enough fun n k => ctask.exec S n k ρ = some (.ok (.ret x ρ)) := by
  cases hc with
  | stmt hcode =>
    obtain ⟨hacc, h₁, hty, hout⟩ := hcode
    cases hacc with
    | ret hvalue hret =>
      obtain ⟨rfl, -⟩ := Walker.recordReturn_eq_ok hret
      obtain rfl := hout _ rfl
      obtain ⟨hcode, hown, heq⟩ := hvalue.onWay h₁ hw hty
      obtain ⟨x, hx, hstands⟩ := hsafe.code_stands hv hs hcode
      rw [← heq] at hx
      have htraps := hty.traps hs.heldBy.held
      rw [hx] at htraps
      cases htraps with
      | ok hxty => exact ⟨x, hown ▸ hstands, hxty, Sem.StmtEnds.ret hx⟩

/-- **The code returns Python's number** where the expression that is returned is safe. -/
theorem PyFloats.SafelyReaches.return_code (hw : w.Tables S)
    (h : py.SafelyReaches w (ReturnOf value last) task s) (hsafe : py.Safe w last.known.view value)
    (hv : py.eval last.frame value = .ok v) (hc : Compiles w.param S task ctask)
    (hready : Ready py w S ρ task s) :
    ∃ x ρ', py.Stands S.outputDtype v x ∧ x.ty = clType S.outputDtype ∧
      Enough fun n k => ctask.exec S n k ρ = some (.ok (.ret x ρ')) := by
  obtain ⟨_, ⟨x, ρ', rfl, hstands, hxty⟩, hexec⟩ := h.code hw
    (Q := fun o => ∃ x ρ', o = .ok (.ret x ρ') ∧ py.Stands S.outputDtype v x ∧ x.ty = clType S.outputDtype)
    (fun ⟨x, ρ', ho, _⟩ => ho ▸ .ret x ρ')
    (fun stmt s hat => by
      obtain ⟨hstmt, -⟩ := hat
      cases hstmt
      rfl)
    (fun hat hc hready => by
      obtain ⟨rfl, rfl⟩ := hat
      obtain ⟨x, hstands, hxty, hexec⟩ := hsafe.return_code hw hv hc hready
      exact ⟨_, ⟨x, _, rfl, hstands, hxty⟩, hexec⟩) hc hready
  exact ⟨x, ρ', hstands, hxty, hexec⟩

end Returns

/-! ## One element -/

/-- Python's call is safe and returns `v`, the value of a safe expression, which has the kind
of the dtype that the kernel returns. -/
def PyFloats.ExactCall (py : PyFloats F) (k : Kernel F) (node : FnNode F) (x v : PyVal F) : Prop :=
  ∃ param value last, node.params = [param] ∧
    py.SafelyReaches (k.walker param) (ReturnOf value last) (.body node.stmts) (node.safeStart param x) ∧
    py.Safe (k.walker param) last.known.view value ∧ py.eval last.frame value = .ok v ∧
    Agrees k.outputDtype v

section Element
variable {py : PyFloats F} {node : FnNode F} {k : Kernel F} {g : Compiled F} {ρ : Env F}
  {u v : PyVal F} {x : Val F} {d : Dtype}

theorem PyFloats.ExactCall.python (h : py.ExactCall k node u v) :
    ∃ m, ∀ n ≥ m, py.call n node u = some (.ok (some v)) := by
  obtain ⟨param, value, last, hparams, hat, hsafe, hv, -⟩ := h
  exact (hat.safeRun (.safe hsafe) hv).call hparams

/-- The body computes Python's value, whatever the variables of the locals hold. -/
theorem PyFloats.ExactCall.computes (h : py.ExactCall k node u v) (hwalk : walkFunction d node = some k)
    (hty : ∀ x, (k.sem py.fl false x).bodyTyped k.body) (hx : x.ty = clType d) (hrep : Represents d u x)
    (hρ : k.HoldsLocals ρ) :
    ∃ y, Represents k.outputDtype v y ∧ y.ty = clType k.outputDtype ∧
      (k.sem py.fl false x).Computes k.body ρ (.value y) := by
  obtain ⟨param, value, last, hparams, hat, hsafe, hv, hagrees⟩ := h
  have hcode := walkFunction_bodyCode hwalk hparams (hty x)
  rw [← walkFunction_inputDtype hwalk] at hx hrep
  obtain ⟨y, ρ', hstands, hyty, hexec⟩ := hat.return_code (k.walker_tables py.fl param x) hsafe hv
    (.body hcode) (FnNode.safeStart_tracks param hρ hx hrep.stands)
  obtain ⟨n, hn⟩ := hexec.exists_self
  exact ⟨y, hstands.represents hagrees hyty, hyty, .ends hn rfl⟩

end Element

/-! ## Whole calls -/

section Calls
variable {fl : FloatOps F} {k : Kernel F} {g : Compiled F} {cx : LowerCx} {start final : LowerState}
  {bodyCode : List (Item F)} {header entry out : ℕ} {inPtr outPtr len : Addr} {m : Mem F}
  {v : ℕ → Val F}

/-- The rounds of elements whose values do not depend on what the locals hold. -/
theorem ElementLoop.typedRounds (E : ElementLoop fl k g cx start final bodyCode header entry out)
    {i : ℕ} {l : Local F} (hb : Buffers m inPtr outPtr len (clType k.inputDtype)) (c : ℕ)
    (hc : i + c ≤ len.toNat) (hv : ∀ j, i ≤ j → j < i + c → ∀ l, Typed g.varTy g.valTy l →
      (k.sem fl false (m (slot inPtr j))).Computes k.body (leftovers g.locals l) (.value (v j)))
    (h : AtHeader g header inPtr outPtr len i l) :
    ∃ n l', Takes (clifNext fl g.code) n (l, m) (roundTrace inPtr outPtr v i c)
        (l', storeRounds m outPtr v i c) ∧ AtHeader g header inPtr outPtr len (i + c) l' := by
  induction c generalizing i l m with
  | zero => exact ⟨0, l, .refl _, h⟩
  | succ c ih =>
    obtain ⟨n₁, l₁, hrun₁, hat₁⟩ := E.round h (by omega) (hb.typed i (by omega))
      (hv i le_rfl (by omega) l h.typed)
    have hws : ∀ w ∈ [(slot outPtr i, v i)], ∃ j < len.toNat, w.1 = slot outPtr j :=
      fun w hw => ⟨i, by omega, congrArg Prod.fst (List.mem_singleton.mp hw)⟩
    obtain ⟨n₂, l₂, hrun₂, hat₂⟩ := ih (hb.written hws) (by omega)
      (fun j h₁ h₂ => by
        rw [hb.input_kept hws (by omega)]
        exact hv j (by omega) (by omega)) hat₁
    refine ⟨n₁ + n₂, l₂, ?_, by rwa [show i + (c + 1) = i + 1 + c by omega]⟩
    have hrun := hrun₁.trans hrun₂
    simpa [roundTrace, storeRounds, List.range'_succ, writeAll] using hrun

/-- A scalar call passes over its buffer. -/
theorem compileScalar_typedPass (hc : compileScalar fl k = .ok g)
    (hv : ∀ i < len.toNat, ∀ ρ, k.HoldsLocals ρ →
      (k.sem fl false (m (slot inPtr i))).Computes k.body ρ (.value (v i)))
    (hb : Buffers m inPtr outPtr len (clType k.inputDtype)) : FullPass fl g v inPtr outPtr len m := by
  obtain ⟨hg, ⟨_, hentry⟩, bodyCode, final, E⟩ := compileScalar_loop hc
  obtain ⟨l, hs, hat⟩ := enter_header fl hg E.verified hentry inPtr outPtr len
  obtain ⟨n, l₁, hrun, hat₁⟩ := E.typedRounds hb len.toNat (by omega)
    (fun j _ hj l hl => hv j (by omega) _ (compileScalar_holdsLocals hc hl)) hat
  rw [Nat.zero_add] at hat₁
  obtain ⟨l₂, hend, hret⟩ := E.return hat₁
  refine ⟨_, _, l₂, _, ((hs m).silent_trans hrun).trans (hend _), hret, ?_, ?_⟩
  · rw [readsOf_append, readsOf_roundTrace, List.range_eq_range']
    exact List.append_nil _
  · rw [writesOf_append, writesOf_roundTrace, List.range_eq_range']
    exact List.append_nil _

/-- The value of a body that is a single `return`. -/
theorem Sem.Computes.eval_eq {S : Sem F} {value : Expr F} {ρ : Env F} {y : Val F}
    (h : S.Computes [.ret value] ρ (.value y)) : S.eval ρ value S.outputDtype = .ok y := by
  cases h with
  | @ends n o _ ho hres =>
    simp only [execBody, execStmt] at ho
    cases heval : S.eval ρ value S.outputDtype with
    | error f =>
      rw [heval] at ho
      cases ho
      cases hres
    | ok z =>
      rw [heval] at ho
      cases ho
      cases hres
      rfl

/-- A two-lane call passes over its buffer with the values of the scalar code, where these
are numbers to both. -/
theorem compileSimd_typedPass (hfl : fl.BitExact) (hvec : k.isVectorizablePhase1 = true)
    (hs : compileSimd k = .ok g)
    (hv : ∀ i < len.toNat, (k.sem fl false (m (slot inPtr i))).Computes k.body Env.empty (.value (v i)))
    (hty : ∀ i < len.toNat, (v i).ty = clType k.outputDtype)
    (hnum : ∀ i < len.toNat, k.reading fl (m (slot inPtr i)) = some .number)
    (hb : Buffers m inPtr outPtr len (clType k.inputDtype)) : FullPass fl g v inPtr outPtr len m := by
  obtain ⟨value, hsr, hpure⟩ := singleReturn_of_vectorizable hvec
  have hvalue : ∀ i < len.toNat,
      (k.sem fl false (m (slot inPtr i))).eval Env.empty value k.outputDtype = .ok (v i) := by
    intro i hi
    have hret := hv i hi
    rw [singleReturn_body hsr] at hret
    exact hret.eval_eq
  refine compileSimd_fullPass hs (fun value' c hsr' hlower j hj hje => ?_) ?_ hb
  · rw [hsr] at hsr'
    cases hsr'
    have hj₁ : j < len.toNat := by omega
    have hj₂ : j + 1 < len.toNat := by omega
    obtain ⟨h₁, h₂, hlanes⟩ := compileSimd_pair hfl hpure hs hsr hlower (hb.typed j hj₁) (hb.typed _ hj₂)
      (hvalue j hj₁) (hvalue _ hj₂) (hnum j hj₁) (hnum _ hj₂)
    rw [(h₁.eq_iff (hty j hj₁)).mpr rfl, (h₂.eq_iff (hty _ hj₂)).mpr rfl] at hlanes
    exact ⟨hlanes, hty j hj₁, hty _ hj₂⟩
  · intro i _ hi ρ
    exact (hv i hi).of_pure hsr hpure ρ

end Calls

end Gilmap
