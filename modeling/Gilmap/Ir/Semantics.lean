import Gilmap.Jit.Lower

/-! # Structured semantics of the IR

Big-step semantics of kernel bodies: the bounds of a `for` are evaluated once and its
variable is the counter, `while` re-tests its condition, `break` and `continue` concern
the innermost loop, `return` leaves all of them. Loops carry a fuel bound, so a run that
needs more iterations has no result yet.

Reading a local that has no value is a fault in the strict semantics. The permissive one
answers as the emitted code does, whose variables start at zero and keep what an earlier
element left in them; it is started with those leftovers.
-/
namespace Gilmap

/-- What the meaning of a body refers to. The local dtypes are the code generator's. -/
structure Sem (F : Type) where
  fl : FloatOps F
  inputDtype : Dtype
  outputDtype : Dtype
  locals : String → Option Dtype
  param : Val F
  strict : Bool

abbrev Env (F : Type) := String → Option (Val F)

inductive Flow (F : Type)
  | normal (ρ : Env F)
  | brk (ρ : Env F)
  | cont (ρ : Env F)
  | ret (v : Val F) (ρ : Env F)

/-- `none`: out of fuel. -/
abbrev Res (F : Type) := Option (Except Fault (Flow F))

variable {F : Type}

def Env.empty : Env F := fun _ => none

def Env.set (ρ : Env F) (name : String) (v : Val F) : Env F := Function.update ρ name (some v)

@[simp] theorem Env.set_self (ρ : Env F) (name : String) (v : Val F) :
    ρ.set name v name = some v := by simp [Env.set]

theorem Env.set_of_ne (ρ : Env F) {name n : String} (h : n ≠ name) (v : Val F) :
    ρ.set name v n = ρ n := by simp [Env.set, h]

def coerceVal (fl : FloatOps F) (v : Val F) (actual expected : Dtype) : Except Fault (Val F) :=
  match actual, expected with
  | .i64, .i64 | .f64, .f64 => .ok v
  | .i64, .f64 => v.fcvtFromSint fl
  | .f64, .i64 => v.fcvtToSint fl

def evalUnary (fl : FloatOps F) (op : UnaryOp) (v : Val F) (dtype : Dtype) :
    Except Fault (Val F) :=
  match op, dtype with
  | .neg, .i64 => v.ineg
  | .neg, .f64 => v.fneg fl
  | .plus, _ => .ok v

def evalBinOp (fl : FloatOps F) (op : BinOp) (l r : Val F) (dtype : Dtype) :
    Except Fault (Val F) :=
  match op, dtype with
  | .add, .i64 => l.intBin .iadd r
  | .sub, .i64 => l.intBin .isub r
  | .mul, .i64 => l.intBin .imul r
  | .div, .i64 | .floorDiv, .i64 => l.sdiv r
  | .mod, .i64 => l.srem r
  | .add, .f64 => l.floatBin fl .fadd r
  | .sub, .f64 => l.floatBin fl .fsub r
  | .mul, .f64 => l.floatBin fl .fmul r
  | .div, .f64 => l.floatBin fl .fdiv r
  | .pow, .f64 => l.callPow fl r
  | .pow, .i64 | .floorDiv, .f64 | .mod, .f64 => .error .illTyped

def evalCmpOp (fl : FloatOps F) (op : CmpOp) (l r : Val F) (dtype : Dtype) :
    Except Fault (Val F) :=
  match dtype with
  | .i64 => l.icmp op.intCC r
  | .f64 => l.fcmp fl op.floatCC r

namespace Sem
variable (S : Sem F)

def readLocal (ρ : Env F) (name : String) : Except Fault (Val F) :=
  match ρ name with
  | some v => .ok v
  | none =>
    if S.strict then .error (.unassigned name)
    else match S.locals name with
      | some dtype => .ok (Val.zeroOf S.fl (clType dtype))
      | none => .error .illTyped

/-- Both arms of a ternary are evaluated. -/
def eval (ρ : Env F) : Expr F → Dtype → Except Fault (Val F)
  | .param, expected => coerceVal S.fl S.param S.inputDtype expected
  | .localVar name, expected =>
    match S.locals name with
    | none => .error .illTyped
    | some dtype => do coerceVal S.fl (← S.readLocal ρ name) dtype expected
  | .constI64 value, expected => coerceVal S.fl (.i64 (BitVec.ofInt 64 value)) .i64 expected
  | .constF64 value, expected => coerceVal S.fl (.f64 value) .f64 expected
  | .constBool value, _ => .ok (.i64 (if value then 1 else 0))
  | .unary op operand, expected => do evalUnary S.fl op (← eval ρ operand expected) expected
  | .binOp op left right, expected => do
    evalBinOp S.fl op (← eval ρ left expected) (← eval ρ right expected) expected
  | .compare op left right, _ => do
    let cmpDtype := guessCmpDtype S.inputDtype S.locals left right
    evalCmpOp S.fl op (← eval ρ left cmpDtype) (← eval ρ right cmpDtype) cmpDtype
  | .ifExpr test yes no, expected => do
    (← eval ρ test .i64).select (← eval ρ yes expected) (← eval ρ no expected)
  | .mathCall func arg, _ => do (← eval ρ arg .f64).callLibm S.fl func.libm
  | .castToI64 value, _ => do (← eval ρ value .f64).fcvtToSint S.fl
  | .castToF64 value, _ => do (← eval ρ value .i64).fcvtFromSint S.fl

def test (ρ : Env F) (e : Expr F) : Except Fault Bool := S.eval ρ e .i64 >>= Val.truthy

/-- The header test of a `for`. -/
def below (ρ : Env F) (var : String) (stop : Val F) : Except Fault Bool := do
  (← (← S.readLocal ρ var).icmp .slt stop).truthy

/-- The counter after its increment. -/
def bump (ρ : Env F) (var : String) : Except Fault (Val F) := do
  (← S.readLocal ρ var).intBin .iadd (.i64 1)

end Sem

/-- What a loop makes of the result of its body. -/
def loopNext (r : Res F) (again : Env F → Res F) : Res F :=
  match r with
  | some (.ok (.normal ρ)) => again ρ
  | some (.ok (.cont ρ)) => again ρ
  | some (.ok (.brk ρ)) => some (.ok (.normal ρ))
  | some (.ok (.ret v ρ)) => some (.ok (.ret v ρ))
  | some (.error f) => some (.error f)
  | none => none

/-- Where a loop goes on from after a turn. -/
def Flow.again : Flow F → Option (Env F)
  | .normal ρ | .cont ρ => some ρ
  | .brk _ | .ret _ _ => none

/-- How a turn ends the loop. -/
def Flow.leaves : Flow F → Option (Flow F)
  | .brk ρ => some (.normal ρ)
  | .ret v ρ => some (.ret v ρ)
  | .normal _ | .cont _ => none

section Turns
variable {flow flow' : Flow F} {ρ : Env F}

theorem loopNext_again (h : flow.again = some ρ) (again : Env F → Res F) :
    loopNext (some (.ok flow)) again = again ρ := by
  cases flow with
  | normal | cont =>
    cases h
    rfl
  | brk | ret => cases h

theorem loopNext_leaves (h : flow.leaves = some flow') (again : Env F → Res F) :
    loopNext (some (.ok flow)) again = some (.ok flow') := by
  cases flow with
  | normal | cont => cases h
  | brk | ret =>
    cases h
    rfl

end Turns

/-- Sequencing: only a normal end reaches the next statement. -/
def andThen (r : Res F) (k : Env F → Res F) : Res F :=
  match r with
  | some (.ok (.normal ρ)) => k ρ
  | r => r

namespace Sem
variable (S : Sem F)

def forLoop (var : String) (stop : Val F) (body : Env F → Res F) : ℕ → Env F → Res F
  | 0, _ => none
  | n + 1, ρ =>
    match S.below ρ var stop with
    | .error f => some (.error f)
    | .ok false => some (.ok (.normal ρ))
    | .ok true => loopNext (body ρ) fun ρ' =>
      match S.bump ρ' var with
      | .error f => some (.error f)
      | .ok v => forLoop var stop body n (ρ'.set var v)

def whileLoop (cond : Expr F) (body : Env F → Res F) : ℕ → Env F → Res F
  | 0, _ => none
  | n + 1, ρ =>
    match S.test ρ cond with
    | .error f => some (.error f)
    | .ok false => some (.ok (.normal ρ))
    | .ok true => loopNext (body ρ) (whileLoop cond body n)

mutual

def execStmt (fuel : ℕ) : Stmt F → Env F → Res F
  | .assign name dtype value, ρ =>
    match S.eval ρ value dtype with
    | .error f => some (.error f)
    | .ok v => some (.ok (.normal (ρ.set name v)))
  | .ret value, ρ =>
    match S.eval ρ value S.outputDtype with
    | .error f => some (.error f)
    | .ok v => some (.ok (.ret v ρ))
  | .forRange var start stop body, ρ =>
    match S.eval ρ start .i64 with
    | .error f => some (.error f)
    | .ok startV =>
      match S.eval ρ stop .i64 with
      | .error f => some (.error f)
      | .ok stopV => S.forLoop var stopV (execBody fuel body) fuel (ρ.set var startV)
  | .whileDo cond body, ρ => S.whileLoop cond (execBody fuel body) fuel ρ
  | .ifElse test thenBody elseBody, ρ =>
    match S.test ρ test with
    | .error f => some (.error f)
    | .ok true => execBody fuel thenBody ρ
    | .ok false => execBody fuel elseBody ρ
  | .brk, ρ => some (.ok (.brk ρ))
  | .cont, ρ => some (.ok (.cont ρ))

def execBody (fuel : ℕ) : List (Stmt F) → Env F → Res F
  | [], ρ => some (.ok (.normal ρ))
  | stmt :: rest, ρ => andThen (execStmt fuel stmt ρ) (execBody fuel rest)

end

end Sem

/-! ## More fuel never changes a result -/

/-- `r'` is `r` unless `r` ran out of fuel. -/
def ResLe (r r' : Res F) : Prop := r = none ∨ r = r'

theorem ResLe.refl (r : Res F) : ResLe r r := .inr rfl

theorem ResLe.of_some {r r' : Res F} (h : ResLe r r') {o : Except Fault (Flow F)}
    (ho : r = some o) : r' = some o := by
  rcases h with h | h
  · simp [h] at ho
  · rw [← h, ho]

theorem ResLe.loopNext {r r' : Res F} {again again' : Env F → Res F} (h : ResLe r r')
    (ha : ∀ ρ, ResLe (again ρ) (again' ρ)) : ResLe (loopNext r again) (loopNext r' again') := by
  rcases h with rfl | rfl
  · exact .inl rfl
  · unfold Gilmap.loopNext
    split
    · exact ha _
    · exact ha _
    · exact .refl _
    · exact .refl _
    · exact .refl _
    · exact .refl _

theorem ResLe.andThen {r r' : Res F} {k k' : Env F → Res F} (h : ResLe r r')
    (hk : ∀ ρ, ResLe (k ρ) (k' ρ)) : ResLe (andThen r k) (andThen r' k') := by
  rcases h with rfl | rfl
  · exact .inl rfl
  · unfold Gilmap.andThen
    split
    · exact hk _
    · exact .refl _

namespace Sem
variable (S : Sem F)

theorem forLoop_le {var : String} {stop : Val F} {body body' : Env F → Res F}
    (hb : ∀ ρ, ResLe (body ρ) (body' ρ)) {n m : ℕ} (hnm : n ≤ m) (ρ : Env F) :
    ResLe (S.forLoop var stop body n ρ) (S.forLoop var stop body' m ρ) := by
  induction n generalizing m ρ with
  | zero => exact .inl rfl
  | succ n ih =>
    obtain ⟨m, rfl⟩ : ∃ k, m = k + 1 := ⟨m - 1, by omega⟩
    simp only [forLoop]
    cases S.below ρ var stop with
    | error f => exact .refl _
    | ok b =>
      cases b with
      | false => exact .refl _
      | true =>
        apply ResLe.loopNext (hb ρ)
        intro ρ'
        cases S.bump ρ' var with
        | error f => exact .refl _
        | ok v => exact ih (by omega) _

theorem whileLoop_le {cond : Expr F} {body body' : Env F → Res F}
    (hb : ∀ ρ, ResLe (body ρ) (body' ρ)) {n m : ℕ} (hnm : n ≤ m) (ρ : Env F) :
    ResLe (S.whileLoop cond body n ρ) (S.whileLoop cond body' m ρ) := by
  induction n generalizing m ρ with
  | zero => exact .inl rfl
  | succ n ih =>
    obtain ⟨m, rfl⟩ : ∃ k, m = k + 1 := ⟨m - 1, by omega⟩
    simp only [whileLoop]
    cases S.test ρ cond with
    | error f => exact .refl _
    | ok b =>
      cases b with
      | false => exact .refl _
      | true => exact ResLe.loopNext (hb ρ) fun ρ' => ih (by omega) ρ'

mutual

theorem execStmt_le {n m : ℕ} (hnm : n ≤ m) :
    ∀ (stmt : Stmt F) (ρ : Env F), ResLe (S.execStmt n stmt ρ) (S.execStmt m stmt ρ)
  | .assign _ _ _, _ => .refl _
  | .ret _, _ => .refl _
  | .brk, _ => .refl _
  | .cont, _ => .refl _
  | .whileDo _ body, ρ => S.whileLoop_le (execBody_le hnm body) hnm ρ
  | .forRange var start stop body, ρ => by
    simp only [execStmt]
    cases S.eval ρ start .i64 with
    | error f => exact .refl _
    | ok startV =>
      cases S.eval ρ stop .i64 with
      | error f => exact .refl _
      | ok stopV => exact S.forLoop_le (execBody_le hnm body) hnm _
  | .ifElse test thenBody elseBody, ρ => by
    simp only [execStmt]
    cases S.test ρ test with
    | error f => exact .refl _
    | ok b =>
      cases b with
      | false => exact execBody_le hnm elseBody ρ
      | true => exact execBody_le hnm thenBody ρ

theorem execBody_le {n m : ℕ} (hnm : n ≤ m) :
    ∀ (body : List (Stmt F)) (ρ : Env F), ResLe (S.execBody n body ρ) (S.execBody m body ρ)
  | [], _ => .refl _
  | stmt :: rest, ρ => (execStmt_le hnm stmt ρ).andThen (execBody_le hnm rest)

end

theorem execBody_mono {n m : ℕ} (hnm : n ≤ m) {body : List (Stmt F)} {ρ : Env F}
    {o : Except Fault (Flow F)} (h : S.execBody n body ρ = some o) :
    S.execBody m body ρ = some o :=
  (S.execBody_le hnm body ρ).of_some h

/-- The fuel does not decide which result a run has. -/
theorem execBody_unique {n m : ℕ} {body : List (Stmt F)} {ρ : Env F}
    {o o' : Except Fault (Flow F)} (h : S.execBody n body ρ = some o)
    (h' : S.execBody m body ρ = some o') : o = o' := by
  rcases Nat.le_total n m with hnm | hnm
  · have := S.execBody_mono hnm h
    simpa [this] using h'
  · have := S.execBody_mono hnm h'
    simpa [this] using h.symm

end Sem

/-! ## What a body computes for one element -/

inductive ElemResult (F : Type)
  | value (v : Val F)
  | fault (f : Fault)
  | diverge

/-- The value an element gets; a body that ends without `return` gives the default zero. -/
def Flow.result (fl : FloatOps F) (outputDtype : Dtype) : Flow F → ElemResult F
  | .ret v _ => .value v
  | .normal _ => .value (Val.zeroOf fl (clType outputDtype))
  | .brk _ | .cont _ => .fault .illTyped

def Sem.resultOf (S : Sem F) : Except Fault (Flow F) → ElemResult F
  | .ok flow => flow.result S.fl S.outputDtype
  | .error f => .fault f

/-- Running `body` from `ρ` has the result `r`. -/
inductive Sem.Computes (S : Sem F) (body : List (Stmt F)) (ρ : Env F) : ElemResult F → Prop
  | ends {n : ℕ} {o : Except Fault (Flow F)} {r : ElemResult F} :
      S.execBody n body ρ = some o → S.resultOf o = r → Computes S body ρ r
  | runsForever : (∀ n, S.execBody n body ρ = none) → Computes S body ρ .diverge

theorem Sem.computes_total (S : Sem F) (body : List (Stmt F)) (ρ : Env F) :
    ∃ r, S.Computes body ρ r := by
  by_cases h : ∀ n, S.execBody n body ρ = none
  · exact ⟨.diverge, .runsForever h⟩
  · simp only [not_forall] at h
    obtain ⟨n, hn⟩ := h
    obtain ⟨o, ho⟩ := Option.ne_none_iff_exists'.mp hn
    exact ⟨_, .ends ho rfl⟩

theorem Sem.Computes.unique {S : Sem F} {body : List (Stmt F)} {ρ : Env F} {r r' : ElemResult F}
    (h : S.Computes body ρ r) (h' : S.Computes body ρ r') : r = r' := by
  cases h with
  | ends ho hr =>
    cases h' with
    | ends ho' hr' =>
      rw [← hr, ← hr', S.execBody_unique ho ho']
    | runsForever hd => simp [hd] at ho
  | runsForever hd =>
    cases h' with
    | ends ho' _ => simp [hd] at ho'
    | runsForever _ => rfl

end Gilmap
