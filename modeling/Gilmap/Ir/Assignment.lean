import Gilmap.Ir.Semantics

/-! # Assignment before use

Which locals a body has assigned on every path, and what follows when each local is
assigned before it is read: the strict semantics never meets an unassigned local, and it
then agrees with the permissive semantics whatever that one starts from.
-/
namespace Gilmap
variable {F : Type}

/-- The locals an expression reads. -/
def Expr.names : Expr F → List String
  | .localVar name => [name]
  | .param | .constI64 _ | .constF64 _ | .constBool _ => []
  | .unary _ e | .mathCall _ e | .castToI64 e | .castToF64 e => e.names
  | .binOp _ l r | .compare _ l r => l.names ++ r.names
  | .ifExpr c x y => c.names ++ x.names ++ y.names

/-! ## The dtypes of locals -/

def declare (name : String) (dtype : Dtype) (Γ : List (String × Dtype)) : List (String × Dtype) :=
  match Γ.lookup name with
  | some _ => Γ
  | none => (name, dtype) :: Γ

def Stmt.terminates : Stmt F → Bool
  | .ret _ | .brk | .cont => true
  | _ => false

mutual

/-- A local has the dtype of the first statement that introduces it; statements behind a
`return`, `break` or `continue` introduce none. -/
def declareStmt : Stmt F → List (String × Dtype) → List (String × Dtype)
  | .assign name dtype _, Γ => declare name dtype Γ
  | .forRange var _ _ body, Γ => declareBody body (declare var .i64 Γ)
  | .whileDo _ body, Γ => declareBody body Γ
  | .ifElse _ thenBody elseBody, Γ => declareBody elseBody (declareBody thenBody Γ)
  | .ret _, Γ | .brk, Γ | .cont, Γ => Γ

def declareBody : List (Stmt F) → List (String × Dtype) → List (String × Dtype)
  | [], Γ => Γ
  | stmt :: rest, Γ =>
    if stmt.terminates then declareStmt stmt Γ else declareBody rest (declareStmt stmt Γ)

end

/-- The meaning of the body of `k` on the element `param`. -/
def Kernel.sem (fl : FloatOps F) (k : Kernel F) (strict : Bool) (param : Val F) : Sem F where
  fl := fl
  inputDtype := k.inputDtype
  outputDtype := k.outputDtype
  locals name := (declareBody k.body []).lookup name
  param := param
  strict := strict

/-! ## The locals assigned on every path -/

/-- What two branches have both assigned; `none` is a branch that is not left normally. -/
def meetPaths : Option (List String) → Option (List String) → Option (List String)
  | none, b => b
  | a, none => a
  | some A, some B => some (A.filter (· ∈ B))

mutual

/-- From the locals `A` assigned before `stmt`, those assigned on every path behind it.
The outer `none` says that a path reads a local it has not assigned. -/
def assignedStmt : Stmt F → List String → Option (Option (List String))
  | .assign name _ value, A => if value.names ⊆ A then some (some (name :: A)) else none
  | .ret value, A => if value.names ⊆ A then some none else none
  | .brk, _ | .cont, _ => some none
  | .forRange var start stop body, A =>
    if start.names ⊆ A ∧ stop.names ⊆ A ∧ (assignedBody body (var :: A)).isSome then
      some (some (var :: A))
    else none
  | .whileDo cond body, A =>
    if cond.names ⊆ A ∧ (assignedBody body A).isSome then some (some A) else none
  | .ifElse test thenBody elseBody, A =>
    if test.names ⊆ A then
      match assignedBody thenBody A, assignedBody elseBody A with
      | some a, some b => some (meetPaths a b)
      | _, _ => none
    else none

def assignedBody : List (Stmt F) → List String → Option (Option (List String))
  | [], A => some (some A)
  | stmt :: rest, A =>
    match assignedStmt stmt A with
    | none => none
    | some none => some none
    | some (some A') => assignedBody rest A'

end

/-- Every local is assigned on every path before it is read. -/
def Kernel.AssignsBeforeReads (k : Kernel F) : Prop := (assignedBody k.body []).isSome

instance (k : Kernel F) : Decidable k.AssignsBeforeReads :=
  inferInstanceAs (Decidable (_ = true))

/-! ## No unassigned local is read -/

def Env.Covers (ρ : Env F) (A : List String) : Prop := ∀ n ∈ A, ∃ v, ρ n = some v

theorem Env.Covers.set {ρ : Env F} {A : List String} (h : ρ.Covers A) (name : String) (v : Val F) :
    (ρ.set name v).Covers (name :: A) := by
  intro n hn
  by_cases he : n = name
  · exact ⟨v, by rw [he, Env.set_self]⟩
  · rw [Env.set_of_ne ρ he]
    exact h n ((List.mem_cons.mp hn).resolve_left he)

theorem Env.Covers.mono {ρ : Env F} {A B : List String} (h : ρ.Covers A) (hB : B ⊆ A) :
    ρ.Covers B := fun n hn => h n (hB hn)

theorem Env.Covers.set_mono {ρ : Env F} {A : List String} (h : ρ.Covers A) (name : String)
    (v : Val F) : (ρ.set name v).Covers A := (h.set name v).mono (List.subset_cons_self _ _)

/-- The computation does not read an unassigned local. -/
def Settled {α : Type} (x : Except Fault α) : Prop := ∀ n, x ≠ .error (.unassigned n)

theorem Settled.ok {α : Type} (a : α) : Settled (.ok a) := fun _ h => nomatch h

theorem Settled.bind {α β : Type} {x : Except Fault α} {f : α → Except Fault β} (h : Settled x)
    (hf : ∀ a, Settled (f a)) : Settled (x >>= f) := by
  cases x with
  | error e => exact fun n he => h n (by simpa [Bind.bind, Except.bind] using he)
  | ok a => exact hf a

section ValueOps
variable (fl : FloatOps F)

theorem settled_ineg (v : Val F) : Settled v.ineg := by
  cases v <;> simp [Settled, Val.ineg]

theorem settled_fneg (v : Val F) : Settled (v.fneg fl) := by
  cases v <;> simp [Settled, Val.fneg]

theorem settled_intBin (op : IntBin) (v w : Val F) : Settled (v.intBin op w) := by
  cases v <;> cases w <;> simp [Settled, Val.intBin]

theorem settled_floatBin (op : FloatBin) (v w : Val F) : Settled (v.floatBin fl op w) := by
  cases v <;> cases w <;> simp [Settled, Val.floatBin]

theorem settled_sdiv (v w : Val F) : Settled (v.sdiv w) := by
  cases v <;> cases w <;> simp [Settled, Val.sdiv, sdivBits] <;> split_ifs <;>
    simp [Except.map]

theorem settled_srem (v w : Val F) : Settled (v.srem w) := by
  cases v <;> cases w <;> simp [Settled, Val.srem, sremBits] <;> split_ifs <;> simp [Except.map]

theorem settled_icmp (cc : IntCC) (v w : Val F) : Settled (v.icmp cc w) := by
  cases v <;> cases w <;> simp [Settled, Val.icmp]

theorem settled_fcmp (cc : FloatCC) (v w : Val F) : Settled (v.fcmp fl cc w) := by
  cases v <;> cases w <;> simp [Settled, Val.fcmp]

theorem settled_truthy (v : Val F) : Settled v.truthy := by
  cases v <;> simp [Settled, Val.truthy]

theorem settled_select (c v w : Val F) : Settled (c.select v w) := by
  cases c <;> simp [Settled, Val.select, Val.truthy, Except.map]

theorem settled_callLibm (fn : LibmFn) (v : Val F) : Settled (v.callLibm fl fn) := by
  cases v <;> simp [Settled, Val.callLibm]

theorem settled_callPow (v w : Val F) : Settled (v.callPow fl w) := by
  cases v <;> cases w <;> simp [Settled, Val.callPow]

theorem settled_fcvtToSint (v : Val F) : Settled (v.fcvtToSint fl) := by
  cases v with
  | f64 x => cases h : fl.toInt x <;> simp [Settled, Val.fcvtToSint, h, Except.mapError, Except.map]
  | _ => simp [Settled, Val.fcvtToSint]

theorem settled_fcvtFromSint (v : Val F) : Settled (v.fcvtFromSint fl) := by
  cases v <;> simp [Settled, Val.fcvtFromSint]

theorem settled_coerceVal (v : Val F) (actual expected : Dtype) :
    Settled (coerceVal fl v actual expected) := by
  cases actual <;> cases expected
  · exact .ok v
  · exact settled_fcvtFromSint fl v
  · exact settled_fcvtToSint fl v
  · exact .ok v

theorem settled_evalUnary (op : UnaryOp) (v : Val F) (d : Dtype) :
    Settled (evalUnary fl op v d) := by
  cases op <;> cases d
  · exact settled_ineg v
  · exact settled_fneg fl v
  · exact .ok v
  · exact .ok v

theorem settled_evalBinOp (op : BinOp) (v w : Val F) (d : Dtype) :
    Settled (evalBinOp fl op v w d) := by
  cases op <;> cases d <;> simp only [evalBinOp]
  all_goals first
    | exact settled_intBin _ v w
    | exact settled_floatBin fl _ v w
    | exact settled_sdiv v w
    | exact settled_srem v w
    | exact settled_callPow fl v w
    | exact fun n h => nomatch h

theorem settled_evalCmpOp (op : CmpOp) (v w : Val F) (d : Dtype) :
    Settled (evalCmpOp fl op v w d) := by
  cases d
  · exact settled_icmp _ v w
  · exact settled_fcmp fl _ v w

end ValueOps

namespace Sem
variable (S : Sem F)

theorem settled_readLocal {ρ : Env F} {name : String} (h : ∃ v, ρ name = some v) :
    Settled (S.readLocal ρ name) := by
  obtain ⟨v, hv⟩ := h
  simp only [readLocal, hv]
  exact .ok v

theorem settled_eval {ρ : Env F} {A : List String} (hρ : ρ.Covers A) {e : Expr F}
    (he : e.names ⊆ A) (d : Dtype) : Settled (S.eval ρ e d) := by
  induction e generalizing d with
  | param => exact settled_coerceVal S.fl _ _ _
  | localVar name =>
    simp only [eval]
    cases S.locals name with
    | none => exact fun n h => nomatch h
    | some dtype =>
      exact (S.settled_readLocal (hρ name (he (by simp [Expr.names])))).bind fun v =>
        settled_coerceVal S.fl v _ _
  | constI64 value => exact settled_coerceVal S.fl _ _ _
  | constF64 value => exact settled_coerceVal S.fl _ _ _
  | constBool value => exact .ok _
  | unary op e ih => exact (ih he d).bind fun v => settled_evalUnary S.fl op v d
  | binOp op l r ihl ihr =>
    obtain ⟨hl, hr⟩ := List.append_subset.mp he
    exact (ihl hl d).bind fun v => (ihr hr d).bind fun w => settled_evalBinOp S.fl op v w d
  | compare op l r ihl ihr =>
    obtain ⟨hl, hr⟩ := List.append_subset.mp he
    exact (ihl hl _).bind fun v => (ihr hr _).bind fun w => settled_evalCmpOp S.fl op v w _
  | ifExpr c x y ihc ihx ihy =>
    obtain ⟨hcx, hy⟩ := List.append_subset.mp he
    obtain ⟨hc, hx⟩ := List.append_subset.mp hcx
    exact (ihc hc _).bind fun u => (ihx hx d).bind fun v => (ihy hy d).bind fun w =>
      settled_select u v w
  | mathCall fn e ih => exact (ih he _).bind fun v => settled_callLibm S.fl _ v
  | castToI64 e ih => exact (ih he _).bind fun v => settled_fcvtToSint S.fl v
  | castToF64 e ih => exact (ih he _).bind fun v => settled_fcvtFromSint S.fl v

end Sem

def Flow.env : Flow F → Env F
  | .normal ρ | .brk ρ | .cont ρ | .ret _ ρ => ρ

/-- Every local with a value in `ρ` has one in `ρ'`. -/
def Env.Grows (ρ ρ' : Env F) : Prop := ∀ A, ρ.Covers A → ρ'.Covers A

theorem Env.Grows.refl (ρ : Env F) : ρ.Grows ρ := fun _ h => h

theorem Env.Grows.trans {ρ ρ' ρ'' : Env F} (h : ρ.Grows ρ') (h' : ρ'.Grows ρ'') : ρ.Grows ρ'' :=
  fun A hA => h' A (h A hA)

theorem Env.grows_set (ρ : Env F) (name : String) (v : Val F) : ρ.Grows (ρ.set name v) :=
  fun _ hA => hA.set_mono name v

/-- A result from `ρ` without a read of an unassigned local; a normal end has assigned
`exit`. -/
def Assigned (ρ : Env F) (exit : Option (List String)) : Res F → Prop
  | none => True
  | some (.error f) => ∀ n, f ≠ .unassigned n
  | some (.ok flow) => ρ.Grows flow.env ∧
    ∀ ρ', flow = .normal ρ' → ∃ A, exit = some A ∧ ρ'.Covers A

section Assigned
variable {ρ ρ₀ : Env F} {e e' : Option (List String)} {r : Res F}

theorem Assigned.of_error {α : Type} {x : Except Fault α} {f : Fault} (h : Settled x)
    (hf : x = .error f) (ρ : Env F) (exit : Option (List String)) :
    Assigned ρ exit (some (.error f) : Res F) := by
  rintro n rfl
  exact h n hf

theorem Assigned.normal {A : List String} (hg : ρ₀.Grows ρ) (hA : ρ.Covers A) :
    Assigned ρ₀ (some A) (some (.ok (.normal ρ))) :=
  ⟨hg, fun ρ' he => by cases he; exact ⟨A, rfl, hA⟩⟩

theorem Assigned.grows (h : Assigned ρ e r) (hg : ρ₀.Grows ρ) : Assigned ρ₀ e r := by
  rcases r with _ | f | flow
  · trivial
  · exact h
  · exact ⟨hg.trans h.1, h.2⟩

theorem Assigned.weaken (h : Assigned ρ e r)
    (he : ∀ A, e = some A → ∃ B, e' = some B ∧ B ⊆ A) : Assigned ρ e' r := by
  rcases r with _ | f | flow
  · trivial
  · exact h
  · refine ⟨h.1, fun ρ' hn => ?_⟩
    obtain ⟨A, hA, hρ'⟩ := h.2 ρ' hn
    obtain ⟨B, hB, hsub⟩ := he A hA
    exact ⟨B, hB, hρ'.mono hsub⟩

theorem Assigned.loopNext {A : List String} {again : Env F → Res F} (h : Assigned ρ e r)
    (hρ : ρ.Covers A) (ha : ∀ ρ', ρ'.Covers A → Assigned ρ' (some A) (again ρ')) :
    Assigned ρ (some A) (loopNext r again) := by
  rcases r with _ | f | flow
  · trivial
  · exact h
  · cases flow with
    | normal ρ' => exact (ha ρ' (h.1 A hρ)).grows h.1
    | cont ρ' => exact (ha ρ' (h.1 A hρ)).grows h.1
    | brk ρ' => exact .normal h.1 (h.1 A hρ)
    | ret v ρ' => exact ⟨h.1, fun ρ' he => by cases he⟩

theorem Assigned.andThen {k : Env F → Res F} (h : Assigned ρ e r)
    (hk : ∀ ρ' A, e = some A → ρ'.Covers A → Assigned ρ' e' (k ρ')) :
    Assigned ρ e' (andThen r k) := by
  rcases r with _ | f | flow
  · trivial
  · exact h
  · cases flow with
    | normal ρ' =>
      obtain ⟨A, he, hA⟩ := h.2 ρ' rfl
      exact (hk ρ' A he hA).grows h.1
    | cont ρ => exact ⟨h.1, fun ρ' he => by cases he⟩
    | brk ρ => exact ⟨h.1, fun ρ' he => by cases he⟩
    | ret v ρ => exact ⟨h.1, fun ρ' he => by cases he⟩

end Assigned

theorem meetPaths_left {a b : Option (List String)} {A : List String} (h : a = some A) :
    ∃ B, meetPaths a b = some B ∧ B ⊆ A := by
  subst h
  cases b with
  | none => exact ⟨A, rfl, List.Subset.refl A⟩
  | some B => exact ⟨_, rfl, List.filter_sublist.subset⟩

theorem meetPaths_right {a b : Option (List String)} {B : List String} (h : b = some B) :
    ∃ C, meetPaths a b = some C ∧ C ⊆ B := by
  subst h
  cases a with
  | none => exact ⟨B, rfl, List.Subset.refl B⟩
  | some A =>
    refine ⟨_, rfl, fun n hn => ?_⟩
    simpa using (List.mem_filter.mp hn).2

namespace Sem
variable (S : Sem F)

theorem assigned_forLoop {var : String} {stop : Val F} {body : Env F → Res F} {A : List String}
    {e : Option (List String)} (hvar : var ∈ A)
    (hbody : ∀ ρ : Env F, ρ.Covers A → Assigned ρ e (body ρ)) (n : ℕ) {ρ : Env F}
    (hρ : ρ.Covers A) : Assigned ρ (some A) (S.forLoop var stop body n ρ) := by
  induction n generalizing ρ with
  | zero => trivial
  | succ n ih =>
    have hbelow : Settled (S.below ρ var stop) :=
      (S.settled_readLocal (hρ var hvar)).bind fun v => (settled_icmp _ v stop).bind settled_truthy
    simp only [forLoop]
    cases hb : S.below ρ var stop with
    | error f => exact .of_error hbelow hb _ _
    | ok b =>
      cases b with
      | false => exact .normal (.refl ρ) hρ
      | true =>
        apply (hbody ρ hρ).loopNext hρ
        intro ρ' hρ'
        have hbump : Settled (S.bump ρ' var) :=
          (S.settled_readLocal (hρ' var hvar)).bind fun v => settled_intBin _ v _
        cases hv : S.bump ρ' var with
        | error f => exact .of_error hbump hv _ _
        | ok v => exact (ih (hρ'.set_mono var v)).grows (ρ'.grows_set var v)

theorem assigned_whileLoop {cond : Expr F} {body : Env F → Res F} {A : List String}
    {e : Option (List String)} (hcond : cond.names ⊆ A)
    (hbody : ∀ ρ : Env F, ρ.Covers A → Assigned ρ e (body ρ)) (n : ℕ) {ρ : Env F}
    (hρ : ρ.Covers A) : Assigned ρ (some A) (S.whileLoop cond body n ρ) := by
  induction n generalizing ρ with
  | zero => trivial
  | succ n ih =>
    have htest : Settled (S.test ρ cond) := (S.settled_eval hρ hcond _).bind settled_truthy
    simp only [whileLoop]
    cases hb : S.test ρ cond with
    | error f => exact .of_error htest hb _ _
    | ok b =>
      cases b with
      | false => exact .normal (.refl ρ) hρ
      | true => exact (hbody ρ hρ).loopNext hρ fun ρ' hρ' => ih hρ'

mutual

theorem assigned_execStmt (n : ℕ) : ∀ (stmt : Stmt F) {A : List String}
    {e : Option (List String)} {ρ : Env F}, assignedStmt stmt A = some e → ρ.Covers A →
    Assigned ρ e (S.execStmt n stmt ρ)
  | .assign name dtype value, A, e, ρ, h, hρ => by
    simp only [assignedStmt] at h
    split at h
    · rename_i hv
      cases h
      simp only [execStmt]
      cases hx : S.eval ρ value dtype with
      | error f => exact .of_error (S.settled_eval hρ hv _) hx _ _
      | ok v => exact .normal (ρ.grows_set name v) (hρ.set name v)
    · cases h
  | .ret value, A, e, ρ, h, hρ => by
    simp only [assignedStmt] at h
    split at h
    · rename_i hv
      cases h
      simp only [execStmt]
      cases hx : S.eval ρ value S.outputDtype with
      | error f => exact .of_error (S.settled_eval hρ hv _) hx _ _
      | ok v => exact ⟨.refl ρ, fun ρ' he => by cases he⟩
    · cases h
  | .brk, A, e, ρ, h, hρ => ⟨.refl ρ, fun ρ' he => by cases he⟩
  | .cont, A, e, ρ, h, hρ => ⟨.refl ρ, fun ρ' he => by cases he⟩
  | .forRange var start stop body, A, e, ρ, h, hρ => by
    simp only [assignedStmt] at h
    split at h
    · rename_i hok
      obtain ⟨hstart, hstop, hbody⟩ := hok
      obtain ⟨e', he'⟩ := Option.isSome_iff_exists.mp hbody
      cases h
      simp only [execStmt]
      cases hx : S.eval ρ start .i64 with
      | error f => exact .of_error (S.settled_eval hρ hstart _) hx _ _
      | ok x =>
        cases hy : S.eval ρ stop .i64 with
        | error f => exact .of_error (S.settled_eval hρ hstop _) hy _ _
        | ok y =>
          have hloop : Assigned _ _ (S.forLoop var y (S.execBody n body) n (ρ.set var x)) :=
            S.assigned_forLoop (A := var :: A) List.mem_cons_self
              (fun ρ' hρ' => assigned_execBody n body he' hρ') n (hρ.set var x)
          exact hloop.grows (ρ.grows_set var x)
    · cases h
  | .whileDo cond body, A, e, ρ, h, hρ => by
    simp only [assignedStmt] at h
    split at h
    · rename_i hok
      obtain ⟨hcond, hbody⟩ := hok
      obtain ⟨e', he'⟩ := Option.isSome_iff_exists.mp hbody
      cases h
      exact S.assigned_whileLoop hcond (fun ρ' hρ' => assigned_execBody n body he' hρ') n hρ
    · cases h
  | .ifElse test thenBody elseBody, A, e, ρ, h, hρ => by
    simp only [assignedStmt] at h
    split at h
    · rename_i htest
      split at h
      · rename_i a b hthen helse
        cases h
        have hset : Settled (S.test ρ test) := (S.settled_eval hρ htest _).bind settled_truthy
        simp only [execStmt]
        cases hb : S.test ρ test with
        | error f => exact .of_error hset hb _ _
        | ok t =>
          cases t with
          | true => exact (assigned_execBody n thenBody hthen hρ).weaken fun _ => meetPaths_left
          | false => exact (assigned_execBody n elseBody helse hρ).weaken fun _ => meetPaths_right
      · cases h
    · cases h

theorem assigned_execBody (n : ℕ) : ∀ (body : List (Stmt F)) {A : List String}
    {e : Option (List String)} {ρ : Env F}, assignedBody body A = some e → ρ.Covers A →
    Assigned ρ e (S.execBody n body ρ)
  | [], A, e, ρ, h, hρ => by
    cases h
    exact .normal (.refl ρ) hρ
  | stmt :: rest, A, e, ρ, h, hρ => by
    simp only [assignedBody] at h
    cases hs : assignedStmt stmt A with
    | none => simp [hs] at h
    | some e₁ =>
      have hfirst := assigned_execStmt n stmt hs hρ
      simp only [execBody]
      cases e₁ with
      | none => exact hfirst.andThen fun _ _ he => by cases he
      | some A₁ =>
        simp only [hs] at h
        apply hfirst.andThen
        intro ρ' A' he hA'
        cases he
        exact assigned_execBody n rest h hA'

end

end Sem

/-! ## The permissive semantics extends the strict one -/

/-- Nothing in `ρ` is contradicted by `ρ'`. -/
def Env.Le (ρ ρ' : Env F) : Prop := ∀ n v, ρ n = some v → ρ' n = some v

theorem Env.Le.set {ρ ρ' : Env F} (h : ρ.Le ρ') (name : String) (v : Val F) :
    (ρ.set name v).Le (ρ'.set name v) := by
  intro n w hw
  by_cases he : n = name
  · rw [he, Env.set_self] at hw ⊢
    exact hw
  · rw [Env.set_of_ne _ he] at hw ⊢
    exact h n w hw

/-- `y` is `x` unless `x` read an unassigned local. -/
def Extends {α : Type} (x y : Except Fault α) : Prop := (∃ n, x = .error (.unassigned n)) ∨ x = y

theorem Extends.refl {α : Type} (x : Except Fault α) : Extends x x := .inr rfl

theorem Extends.bind {α β : Type} {x y : Except Fault α} {f g : α → Except Fault β}
    (h : Extends x y) (hf : ∀ a, Extends (f a) (g a)) : Extends (x >>= f) (y >>= g) := by
  rcases h with ⟨n, rfl⟩ | rfl
  · exact .inl ⟨n, rfl⟩
  · cases x with
    | error e => exact .inr rfl
    | ok a => exact hf a

/-- The two flows leave in the same way with the same value. -/
inductive Flow.Le : Flow F → Flow F → Prop
  | normal {ρ ρ' : Env F} : ρ.Le ρ' → Le (.normal ρ) (.normal ρ')
  | brk {ρ ρ' : Env F} : ρ.Le ρ' → Le (.brk ρ) (.brk ρ')
  | cont {ρ ρ' : Env F} : ρ.Le ρ' → Le (.cont ρ) (.cont ρ')
  | ret {ρ ρ' : Env F} {v : Val F} : ρ.Le ρ' → Le (.ret v ρ) (.ret v ρ')

/-- `r'` is the result of the permissive run beside the strict result `r`. -/
inductive ResExtends : Res F → Res F → Prop
  | unassigned {n : String} {r' : Res F} : ResExtends (some (.error (.unassigned n))) r'
  | outOfFuel : ResExtends none none
  | error (f : Fault) : ResExtends (some (.error f)) (some (.error f))
  | ok {flow flow' : Flow F} : flow.Le flow' → ResExtends (some (.ok flow)) (some (.ok flow'))

theorem ResExtends.loopNext {r r' : Res F} {again again' : Env F → Res F} (h : ResExtends r r')
    (ha : ∀ {ρ ρ' : Env F}, ρ.Le ρ' → ResExtends (again ρ) (again' ρ')) :
    ResExtends (loopNext r again) (loopNext r' again') := by
  cases h with
  | unassigned => exact .unassigned
  | outOfFuel => exact .outOfFuel
  | error f => exact .error f
  | ok hf =>
    cases hf with
    | normal hρ => exact ha hρ
    | cont hρ => exact ha hρ
    | brk hρ => exact .ok (.normal hρ)
    | ret hρ => exact .ok (.ret hρ)

theorem ResExtends.andThen {r r' : Res F} {k k' : Env F → Res F} (h : ResExtends r r')
    (hk : ∀ {ρ ρ' : Env F}, ρ.Le ρ' → ResExtends (k ρ) (k' ρ')) :
    ResExtends (andThen r k) (andThen r' k') := by
  cases h with
  | unassigned => exact .unassigned
  | outOfFuel => exact .outOfFuel
  | error f => exact .error f
  | ok hf =>
    cases hf with
    | normal hρ => exact hk hρ
    | cont hρ => exact .ok (.cont hρ)
    | brk hρ => exact .ok (.brk hρ)
    | ret hρ => exact .ok (.ret hρ)

/-- `S` with reads of unassigned locals allowed. -/
def Sem.permissive (S : Sem F) : Sem F := { S with strict := false }

namespace Sem
variable {S : Sem F} (hS : S.strict = true)
include hS

theorem readLocal_extends {ρ ρ' : Env F} (h : ρ.Le ρ') (name : String) :
    Extends (S.readLocal ρ name) (S.permissive.readLocal ρ' name) := by
  unfold readLocal
  cases hρ : ρ name with
  | none => exact .inl ⟨name, by simp [hS]⟩
  | some v => exact .inr (by simp [h name v hρ])

theorem eval_extends {ρ ρ' : Env F} (h : ρ.Le ρ') (e : Expr F) (d : Dtype) :
    Extends (S.eval ρ e d) (S.permissive.eval ρ' e d) := by
  induction e generalizing d with
  | param | constI64 | constF64 | constBool => exact .refl _
  | localVar name =>
    simp only [eval, permissive]
    cases S.locals name with
    | none => exact .refl _
    | some dtype => exact (readLocal_extends hS h name).bind fun _ => .refl _
  | unary op e ih => exact (ih d).bind fun _ => .refl _
  | binOp op l r ihl ihr => exact (ihl d).bind fun _ => (ihr d).bind fun _ => .refl _
  | compare op l r ihl ihr => exact (ihl _).bind fun _ => (ihr _).bind fun _ => .refl _
  | ifExpr c x y ihc ihx ihy =>
    exact (ihc _).bind fun _ => (ihx d).bind fun _ => (ihy d).bind fun _ => .refl _
  | mathCall fn e ih | castToI64 e ih | castToF64 e ih => exact (ih _).bind fun _ => .refl _

theorem test_extends {ρ ρ' : Env F} (h : ρ.Le ρ') (e : Expr F) :
    Extends (S.test ρ e) (S.permissive.test ρ' e) :=
  (eval_extends hS h e .i64).bind fun _ => .refl _

theorem forLoop_extends {var : String} {stop : Val F} {body body' : Env F → Res F}
    (hbody : ∀ {ρ ρ' : Env F}, ρ.Le ρ' → ResExtends (body ρ) (body' ρ')) (n : ℕ) {ρ ρ' : Env F}
    (h : ρ.Le ρ') :
    ResExtends (S.forLoop var stop body n ρ) (S.permissive.forLoop var stop body' n ρ') := by
  induction n generalizing ρ ρ' with
  | zero => exact .outOfFuel
  | succ n ih =>
    have hbelow : Extends (S.below ρ var stop) (S.permissive.below ρ' var stop) :=
      (readLocal_extends hS h var).bind fun _ => .refl _
    simp only [forLoop]
    rcases hbelow with ⟨m, hm⟩ | he
    · rw [hm]
      exact .unassigned
    · rw [← he]
      cases S.below ρ var stop with
      | error f => exact .error f
      | ok b =>
        cases b with
        | false => exact .ok (.normal h)
        | true =>
          apply (hbody h).loopNext
          intro ρ₁ ρ₁' h₁
          have hbump : Extends (S.bump ρ₁ var) (S.permissive.bump ρ₁' var) :=
            (readLocal_extends hS h₁ var).bind fun _ => .refl _
          rcases hbump with ⟨m, hm⟩ | he'
          · rw [hm]
            exact .unassigned
          · rw [← he']
            cases S.bump ρ₁ var with
            | error f => exact .error f
            | ok v => exact ih (h₁.set var v)

theorem whileLoop_extends {cond : Expr F} {body body' : Env F → Res F}
    (hbody : ∀ {ρ ρ' : Env F}, ρ.Le ρ' → ResExtends (body ρ) (body' ρ')) (n : ℕ) {ρ ρ' : Env F}
    (h : ρ.Le ρ') :
    ResExtends (S.whileLoop cond body n ρ) (S.permissive.whileLoop cond body' n ρ') := by
  induction n generalizing ρ ρ' with
  | zero => exact .outOfFuel
  | succ n ih =>
    simp only [whileLoop]
    rcases test_extends hS h cond with ⟨m, hm⟩ | he
    · rw [hm]
      exact .unassigned
    · rw [← he]
      cases S.test ρ cond with
      | error f => exact .error f
      | ok b =>
        cases b with
        | false => exact .ok (.normal h)
        | true => exact (hbody h).loopNext fun h₁ => ih h₁

omit hS

mutual

theorem execStmt_extends (hS : S.strict = true) (n : ℕ) : ∀ (stmt : Stmt F) {ρ ρ' : Env F}, ρ.Le ρ' →
    ResExtends (S.execStmt n stmt ρ) (S.permissive.execStmt n stmt ρ')
  | .assign name dtype value, ρ, ρ', h => by
    simp only [execStmt]
    rcases eval_extends hS h value dtype with ⟨m, hm⟩ | he
    · rw [hm]
      exact .unassigned
    · rw [← he]
      cases S.eval ρ value dtype with
      | error f => exact .error f
      | ok v => exact .ok (.normal (h.set name v))
  | .ret value, ρ, ρ', h => by
    simp only [execStmt]
    rcases eval_extends hS h value S.outputDtype with ⟨m, hm⟩ | he
    · rw [hm]
      exact .unassigned
    · rw [show S.permissive.outputDtype = S.outputDtype from rfl, ← he]
      cases S.eval ρ value S.outputDtype with
      | error f => exact .error f
      | ok v => exact .ok (.ret h)
  | .brk, _, _, h => .ok (.brk h)
  | .cont, _, _, h => .ok (.cont h)
  | .forRange var start stop body, ρ, ρ', h => by
    simp only [execStmt]
    rcases eval_extends hS h start .i64 with ⟨m, hm⟩ | he
    · rw [hm]
      exact .unassigned
    · rw [← he]
      cases S.eval ρ start .i64 with
      | error f => exact .error f
      | ok x =>
        rcases eval_extends hS h stop .i64 with ⟨m, hm⟩ | he'
        · simp only [hm]
          exact .unassigned
        · simp only [← he']
          cases S.eval ρ stop .i64 with
          | error f => exact .error f
          | ok y =>
            exact forLoop_extends hS (fun h₁ => execBody_extends hS n body h₁) n (h.set var x)
  | .whileDo cond body, ρ, ρ', h =>
    whileLoop_extends hS (fun h₁ => execBody_extends hS n body h₁) n h
  | .ifElse test thenBody elseBody, ρ, ρ', h => by
    simp only [execStmt]
    rcases test_extends hS h test with ⟨m, hm⟩ | he
    · rw [hm]
      exact .unassigned
    · rw [← he]
      cases S.test ρ test with
      | error f => exact .error f
      | ok b =>
        cases b with
        | false => exact execBody_extends hS n elseBody h
        | true => exact execBody_extends hS n thenBody h

theorem execBody_extends (hS : S.strict = true) (n : ℕ) : ∀ (body : List (Stmt F)) {ρ ρ' : Env F}, ρ.Le ρ' →
    ResExtends (S.execBody n body ρ) (S.permissive.execBody n body ρ')
  | [], _, _, h => .ok (.normal h)
  | stmt :: rest, _, _, h =>
    (execStmt_extends hS n stmt h).andThen fun h₁ => execBody_extends hS n rest h₁

end

end Sem

/-! ## Results of whole bodies -/

/-- A result that is not the read of an unassigned local is the emitted code's too,
whatever its variables were left at. -/
theorem Sem.Computes.permissive {S : Sem F} (hS : S.strict = true) {body : List (Stmt F)}
    {r : ElemResult F} (h : S.Computes body Env.empty r) (hr : ∀ n, r ≠ .fault (.unassigned n))
    (ρ : Env F) : S.permissive.Computes body ρ r := by
  have hle : (Env.empty : Env F).Le ρ := fun n v hv => by cases hv
  cases h with
  | @ends n o _ ho hres =>
    have hx := Sem.execBody_extends hS n body hle
    rw [ho] at hx
    generalize hr' : S.permissive.execBody n body ρ = r' at hx
    cases hx with
    | @unassigned m => exact absurd hres.symm (hr m)
    | error f => exact .ends hr' hres
    | ok hf =>
      refine .ends hr' ?_
      cases hf <;> exact hres
  | runsForever hd =>
    refine .runsForever fun n => ?_
    have hx := Sem.execBody_extends hS n body hle
    rw [hd n] at hx
    generalize S.permissive.execBody n body ρ = r' at hx ⊢
    cases hx
    rfl

theorem Kernel.AssignsBeforeReads.not_unassigned {k : Kernel F} (h : k.AssignsBeforeReads)
    {S : Sem F} {r : ElemResult F} (hr : S.Computes k.body Env.empty r) (n : String) :
    r ≠ .fault (.unassigned n) := by
  obtain ⟨e, he⟩ := Option.isSome_iff_exists.mp h
  rintro rfl
  cases hr with
  | @ends m o _ ho hres =>
    have hempty : (Env.empty : Env F).Covers [] := fun _ hn => nomatch hn
    have ha := S.assigned_execBody m k.body he hempty
    rw [ho] at ha
    cases o with
    | error f =>
      cases hres
      exact ha n rfl
    | ok flow => cases flow <;> cases hres

end Gilmap
