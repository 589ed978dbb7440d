import Gilmap.Ir.Rules
import Gilmap.Jit.ForRange
import Gilmap.Jit.SafeCalls
import Gilmap.Jit.SafeExprs
import Gilmap.Python.Returns

/-! # Safe calls do not trap

The code of a function follows a safe run of Python's: it passes through the same statements,
turns and rounds, holds what is known of Python's frame, and returns. So no instruction of it
traps. Where a safe run comes to a task whose expression fails, the code comes there too and
traps.
-/
namespace Gilmap
open Library
variable {F : Type}

/-! ## The walker along the body -/

/-- The walker has the dtypes of the code generator. -/
structure Walker.Tables (w : Walker) (S : Sem F) : Prop where
  input : w.inputDtype = S.inputDtype
  locals : ∀ name, w.locals.lookup name = S.locals name

/-- A walker on its way through the function of the parameter, for a kernel that compiles. -/
structure Walker.OnWay (w : Walker) (param : String) (S : Sem F) : Prop where
  param : w.param = param
  declared : w.Declared S

section Walker
variable {w w₁ : Walker} {S : Sem F} {param : String} {e : PyExpr F} {ir : Expr F} {d : Dtype}

theorem Walker.Tables.declared (hw : w.Tables S) : w.Declared S where
  input := hw.input
  locals name _ hl := (hw.locals name).symm.trans hl

/-- What is accepted on the way is accepted with the whole tables. -/
theorem Accepts.widen (h : Accepts w₁ e ir d) (h₁ : w₁.OnWay w.param S) (hw : w.Tables S) :
    Accepts w e ir d := by
  induction h with
  | param =>
    rw [h₁.param, h₁.declared.input, ← hw.input]
    exact .param
  | localVar hne hl =>
    refine .localVar (h₁.param ▸ hne) ?_
    rw [hw.locals]
    exact h₁.declared.locals _ _ hl
  | bool b => exact .bool b
  | int n => exact .int n
  | float x => exact .float x
  | unaryOp hop _ ih => exact .unaryOp hop ih
  | binOp hop _ _ hmod ihl ihr => exact .binOp hop ihl ihr hmod
  | compare hop _ _ ihl ihr => exact .compare hop ihl ihr
  | ifExp _ _ _ iht ihy ihn => exact .ifExp iht ihy ihn
  | math hfn _ ih => exact .math hfn ih
  | toInt _ ih => exact .toInt ih
  | toFloat _ ih => exact .toFloat ih

theorem Walker.OnWay.bind (h : w₁.OnWay param S) {name : String} (hS : S.locals name = some d) :
    (w₁.bind name d).OnWay param S := by
  refine ⟨h.param, h.declared.input, fun n d' hl => ?_⟩
  rw [Walker.bind_lookup] at hl
  split at hl
  · rename_i hn
    cases hl
    rw [hn, hS]
  · exact h.declared.locals n d' hl

mutual

theorem AcceptsStmt.onWay : ∀ {w w' : Walker} {stmt : PyStmt F} {ir : Stmt F} {term : Bool},
    AcceptsStmt w stmt ir term w' → w.OnWay param S → S.stmtTyped ir → w'.OnWay param S
  | _, _, _, _, _, .assign _, h, hty => h.bind hty.1
  | _, _, _, _, _, .augAssign _ _ _ _, h, _ | _, _, _, _, _, .brk, h, _
  | _, _, _, _, _, .cont, h, _ => h
  | _, _, _, _, _, .ret _ hret, h, _ => by
    obtain ⟨rfl, -⟩ := Walker.recordReturn_eq_ok hret
    exact ⟨h.param, h.declared.input, h.declared.locals⟩
  | _, _, _, _, _, .ifStmt _ hthen helse, h, hty => helse.onWay (hthen.onWay h hty.2.1) hty.2.2
  | _, _, _, _, _, .forStmt _ hbody, h, hty => hbody.onWay (h.bind hty.1) hty.2.2.2
  | _, _, _, _, _, .whileStmt _ hbody, h, hty => hbody.onWay h hty.2

theorem AcceptsBody.onWay : ∀ {w w' : Walker} {first : Bool} {body : List (PyStmt F)}
    {irs : List (Stmt F)} {term : Bool}, AcceptsBody w first body irs term w' → w.OnWay param S →
    S.bodyTyped irs → w'.OnWay param S
  | _, _, _, _, _, _, .nil, h, _ => h
  | _, _, _, _, _, _, .docstring _ hrest, h, hty => hrest.onWay h hty
  | _, _, _, _, _, _, .last hstmt, h, hty => hstmt.onWay h hty.1
  | _, _, _, _, _, _, .cons hstmt hrest, h, hty =>
    hrest.onWay (hstmt.onWay h hty.1) (hty.2 (hstmt.not_terminates rfl))

end

end Walker

/-! ## What the code holds -/

section Held
variable {py : PyFloats F} {w : Walker} {S : Sem F} {ρ : Env F} {fr : SafeFrame F} {name : String}
  {v : PyVal F} {x : Val F} {d : Dtype}

theorem Sem.readLocal_set_of_ne {n : String} (h : n ≠ name) :
    S.readLocal (ρ.set name x) n = S.readLocal ρ n := by
  simp only [readLocal, Env.set_of_ne ρ h]

/-- The code binds the name before Python does. -/
theorem SafeFrame.Tracks.forget (h : fr.Tracks py w S ρ) (hS : S.locals name = some d)
    (hx : x.ty = clType d) : (fr.forget name).Tracks py w S (ρ.set name x) where
  fl := h.fl
  declared := h.declared
  param := h.param
  heldBy := {
    held := h.heldBy.held.set hS hx
    arg := h.heldBy.arg
    locals := fun n u hu => by
      obtain ⟨hn, hu⟩ := locals_of_forget hu
      rw [Sem.readLocal_set_of_ne hn]
      exact h.heldBy.locals n u hu }

/-- The code binds the name to a value that Python may not have. -/
theorem SafeFrame.Tracks.lose (h : fr.Tracks py w S ρ) (hS : S.locals name = some d)
    (hx : x.ty = clType d) : (fr.lose name).Tracks py w S (ρ.set name x) where
  fl := h.fl
  declared := h.declared
  param := h.param
  heldBy := {
    held := h.heldBy.held.set hS hx
    arg := fun u hu => h.heldBy.arg u (arg_of_lose hu).2
    locals := (h.forget hS hx).heldBy.locals }

/-- A name that the code alone has bound, once Python binds it to the same value. -/
theorem SafeFrame.Tracks.bindForgotten (h : (fr.forget name).Tracks py w S ρ)
    (hS : S.locals name = some d) (hread : S.readLocal ρ name = .ok x) (hstands : py.Stands d v x) :
    (fr.bind name v).Tracks py w S ρ where
  fl := h.fl
  declared := h.declared
  param := h.param
  heldBy := {
    held := h.heldBy.held
    arg := fun u hu => h.heldBy.arg u (arg_of_lose hu).2
    locals := fun n u hu => by
      obtain ⟨rfl, rfl⟩ | hu := locals_of_bind hu
      · exact ⟨d, x, hS, hread, hstands⟩
      · exact h.heldBy.locals n u hu }

/-- Both sides bind the name. -/
theorem SafeFrame.Tracks.bind (h : fr.Tracks py w S ρ) (hS : S.locals name = some d)
    (hx : x.ty = clType d) (hstands : py.Stands d v x) :
    (fr.bind name v).Tracks py w S (ρ.set name x) :=
  (h.forget hS hx).bindForgotten hS Sem.readLocal_set hstands

end Held

/-- The code leaves with what the run has left. -/
inductive SafeFlow.HeldBy (py : PyFloats F) (w : Walker) (S : Sem F) : SafeFlow F → Flow F → Prop
  | normal {s : SafeState F} {ρ : Env F} : s.known.Tracks py w S ρ →
      HeldBy py w S (.normal s) (.normal ρ)
  | brk {s : SafeState F} {ρ : Env F} : s.known.Tracks py w S ρ → HeldBy py w S (.brk s) (.brk ρ)
  | cont {s : SafeState F} {ρ : Env F} : s.known.Tracks py w S ρ → HeldBy py w S (.cont s) (.cont ρ)
  | ret {v : PyVal F} {x : Val F} {ρ : Env F} : HeldBy py w S (.ret v) (.ret x ρ)

section Flows
variable {py : PyFloats F} {w : Walker} {S : Sem F} {flow flow' : SafeFlow F} {cflow : Flow F}
  {s : SafeState F}

theorem SafeFlow.HeldBy.next (h : flow.HeldBy py w S cflow) (ha : flow.again = some s) :
    ∃ ρ, s.known.Tracks py w S ρ ∧ cflow.again = some ρ := by
  cases h with
  | normal hs | cont hs =>
    cases ha
    exact ⟨_, hs, rfl⟩
  | brk | ret => cases ha

theorem SafeFlow.HeldBy.leave (h : flow.HeldBy py w S cflow) (hl : flow.leaves = some flow') :
    ∃ cflow', flow'.HeldBy py w S cflow' ∧ cflow.leaves = some cflow' := by
  cases h with
  | normal | cont => cases hl
  | brk hs =>
    cases hl
    exact ⟨_, .normal hs, rfl⟩
  | ret =>
    cases hl
    exact ⟨_, .ret, rfl⟩

end Flows

/-! ## The expressions of a statement -/

section Steps
variable {py : PyFloats F} {w w₁ : Walker} {S : Sem F} {ρ : Env F} {s s' : SafeState F}
  {e : PyExpr F} {ir : Expr F} {d : Dtype} {v : PyVal F} {t : ClTy}

/-- The code of an expression on the way is that of the whole tables. -/
theorem Accepts.onWay (h : Accepts w₁ e ir d) (h₁ : w₁.OnWay w.param S) (hw : w.Tables S)
    (hty : S.ExprTy ir d t) :
    w.HasCode S e ∧ w.ownDtype e = d ∧ ∀ ρ, S.eval ρ ir d = S.code w ρ e := by
  have hacc := h.widen h₁ hw
  exact ⟨hacc.hasCode hty, hacc.ownDtype_eq, fun ρ => hacc.code_eq.symm⟩

/-- What Python evaluates a safe expression to is known. -/
theorem PyFloats.Safe.eval_known (h : py.Safe w s.known.view e) (hv : py.eval s.frame e = .ok v) :
    py.eval s.known.view e = .ok v := by
  obtain ⟨u, hu⟩ := h.exists_eval
  rw [s.shows.view.eval_eq hu hv] at hu
  exact hu

/-- The code of a safe expression has the number that Python evaluates it to. -/
theorem PyFloats.Safe.code_stands (h : py.Safe w s.known.view e) (hv : py.eval s.frame e = .ok v)
    (hs : s.known.Tracks py w S ρ) (hcode : w.HasCode S e) :
    ∃ x, S.code w ρ e = .ok x ∧ py.Stands (w.ownDtype e) v x := by
  obtain ⟨x, hx, hholds⟩ := h.code hs hcode
  obtain ⟨u, hu, hstands⟩ := hholds.stands
  rw [h.eval_known hv] at hu
  cases hu
  exact ⟨x, hx, hstands⟩

variable (hw : w.Tables S)
include hw

/-- Storing the value of an expression. -/
theorem PyFloats.Stores.code {name : String} (h : py.Stores w s name e s') (hacc : Accepts w₁ e ir d)
    (h₁ : w₁.OnWay w.param S) (hS : S.locals name = some d) (hty : S.ExprTy ir d (clType d))
    (hs : s.known.Tracks py w S ρ) :
    ∃ x, S.eval ρ ir d = .ok x ∧ s'.known.Tracks py w S (ρ.set name x) := by
  obtain ⟨hcode, hown, heq⟩ := hacc.onWay h₁ hw hty
  have hvalue : ∀ {x}, S.eval ρ ir d = .ok x → x.ty = clType d := by
    intro x hx
    have htraps := hty.traps hs.heldBy.held
    rw [hx] at htraps
    cases htraps with
    | ok hx => exact hx
  cases h with
  | safe hsafe hv =>
    obtain ⟨x, hx, hstands⟩ := hsafe.code_stands hv hs hcode
    rw [← heq] at hx
    exact ⟨x, hx, hs.bind hS (hvalue hx) (hown ▸ hstands)⟩
  | calm hcalm _ =>
    obtain ⟨x, hx⟩ := hcalm.code hs hcode
    rw [← heq] at hx
    exact ⟨x, hx, hs.lose hS (hvalue hx)⟩

/-- A test decides as Python's does. -/
theorem PyFloats.SafeTest.code {b : Bool} (h : py.SafeTest w s e b) (hacc : Accepts w₁ e ir d)
    (h₁ : w₁.OnWay w.param S) (hty : S.TestTy ir) (hs : s.known.Tracks py w S ρ) :
    S.test ρ ir = .ok b := by
  obtain ⟨hcode, hown, heq⟩ := (hacc.widen h₁ hw).test_code hw.declared hty
  obtain ⟨x, hx, hb⟩ := h.decides.code hs hcode hown
  rw [Sem.test, heq, hx]
  exact hb

/-- The code of an expression that fails, on the way. -/
theorem PyFloats.Fails.value (h : py.Fails w s.known.view e) (hacc : Accepts w₁ e ir d)
    (h₁ : w₁.OnWay w.param S) (hty : S.ExprTy ir d t) (hs : s.known.Tracks py w S ρ) :
    ∃ f, S.eval ρ ir d = .error f := by
  obtain ⟨hcode, -, heq⟩ := hacc.onWay h₁ hw hty
  obtain ⟨f, hf⟩ := h.code hs hcode
  exact ⟨f, (heq ρ).trans hf⟩

theorem PyFloats.Fails.test_code (h : py.Fails w s.known.view (w.truncate e .i64))
    (hacc : Accepts w₁ e ir d) (h₁ : w₁.OnWay w.param S) (hty : S.TestTy ir)
    (hs : s.known.Tracks py w S ρ) : ∃ f, S.test ρ ir = .error f := by
  obtain ⟨hcode, -, heq⟩ := (hacc.widen h₁ hw).test_code hw.declared hty
  obtain ⟨f, hf⟩ := h.code hs hcode
  exact ⟨f, by rw [Sem.test, heq, hf]; rfl⟩

/-- A bound of a range is a word. -/
theorem PyFloats.Safe.bound (hsafe : py.Safe w s.known.view (.call (.name "int") [e] []))
    (hacc : Accepts w₁ e ir d) (h₁ : w₁.OnWay w.param S)
    (hty : S.ExprTy (liftTo ir d .i64) .i64 .i64) (hs : s.known.Tracks py w S ρ)
    (hv : py.eval s.frame e = .ok v) {i : ℤ} (hi : v.index = .ok i) :
    ∃ a, S.eval ρ (liftTo ir d .i64) .i64 = .ok (.i64 a) ∧ a.toInt = i := by
  obtain ⟨hcode, hown, heq⟩ := hacc.toInt.onWay h₁ hw hty
  -- Python's `int()` of an index is the index
  obtain ⟨u, hu⟩ := hsafe.exists_eval
  have hint : u = .int i := by
    obtain ⟨arg, a, harg, -, ha, hcall⟩ := PyFloats.eval_call hu
    cases harg
    obtain rfl := s.shows.view.eval_eq ha hv
    have htoInt := hcall.of_int
    cases a with
    | int | bool =>
      cases hi
      cases htoInt
      rfl
    | float | complex => cases hi
  obtain ⟨x, hx, hholds⟩ := hsafe.code hs hcode
  obtain ⟨u', hu', hstands⟩ := hholds.stands
  rw [hu] at hu'
  cases hu'
  rw [← heq] at hx
  have hxty := hty.traps hs.heldBy.held
  rw [hx] at hxty
  rw [hown, hint] at hstands
  cases hstands with
  | word hn ha =>
    obtain rfl := hn.eq_of_num rfl
    exact ⟨_, hx, ha⟩
  | flag => cases hxty with | ok hxty => cases hxty

theorem PyFloats.SafeRange.code {start stop : Expr F} {i j : ℤ} (h : py.SafeRange w s e i j)
    (hacc : AcceptsRange w₁ e start stop) (h₁ : w₁.OnWay w.param S) (hstart : S.ExprTy start .i64 .i64)
    (hstop : S.ExprTy stop .i64 .i64) (hs : s.known.Tracks py w S ρ) :
    ∃ a b, S.eval ρ start .i64 = .ok (.i64 a) ∧ S.eval ρ stop .i64 = .ok (.i64 b) ∧
      a.toInt = i ∧ b.toInt = j := by
  have hrange := h.python
  cases hacc with
  | stop hb =>
    simp only [PyFloats.range, Except.bind_eq_ok] at hrange
    obtain ⟨_, -, v, hv, n, hn, hij⟩ := hrange
    cases hij
    have hsafe := h.safe _ _ _ rfl _ List.mem_cons_self
    obtain ⟨b, hb, hbn⟩ := hsafe.bound hw hb h₁ hstop hs hv hn
    exact ⟨0, b, rfl, hb, rfl, hbn⟩
  | startStop ha hb =>
    simp only [PyFloats.range, Except.bind_eq_ok] at hrange
    obtain ⟨_, -, u, hu, v, hv, m, hm, n, hn, hij⟩ := hrange
    cases hij
    have hsafeA := h.safe _ _ _ rfl _ List.mem_cons_self
    have hsafeB := h.safe _ _ _ rfl _ (List.mem_cons_of_mem _ List.mem_cons_self)
    obtain ⟨a, ha, ham⟩ := hsafeA.bound hw ha h₁ hstart hs hu hm
    obtain ⟨b, hb, hbn⟩ := hsafeB.bound hw hb h₁ hstop hs hv hn
    exact ⟨a, b, ha, hb, ham, hbn⟩

end Steps

/-! ## Runs -/

/-- The code of what is run. -/
inductive CodeTask (F : Type)
  | stmt (stmt : Stmt F)
  | body (body : List (Stmt F))
  | turns (var : String) (stop : BitVec 64) (body : List (Stmt F))
  | loop (cond : Expr F) (body : List (Stmt F))

/-- The run of the code: `n` is the fuel of statements, `k` the one of the loop itself. -/
def CodeTask.exec (S : Sem F) (n k : ℕ) : CodeTask F → Env F → Res F
  | .stmt s => S.execStmt n s
  | .body b => S.execBody n b
  | .turns var stop b => S.forLoop var (.i64 stop) (S.execBody n b) k
  | .loop cond b => S.whileLoop cond (S.execBody n b) k

/-- The walker, on its way, has made the code of a statement, and the code is typed. -/
structure StmtCode (param : String) (S : Sem F) (stmt : PyStmt F) (ir : Stmt F) (term : Bool)
    (w₁ w₂ : Walker) : Prop where
  accepts : AcceptsStmt w₁ stmt ir term w₂
  onWay : w₁.OnWay param S
  typed : S.stmtTyped ir
  output : ∀ d, w₂.outputDtype = some d → d = S.outputDtype

structure BodyCode (param : String) (S : Sem F) (body : List (PyStmt F)) (irs : List (Stmt F)) :
    Prop where
  exists_walkers : ∃ w₁ w₂ first term, AcceptsBody w₁ first body irs term w₂ ∧ w₁.OnWay param S ∧
    S.bodyTyped irs ∧ ∀ d, w₂.outputDtype = some d → d = S.outputDtype

inductive Compiles (param : String) (S : Sem F) : PyTask F → CodeTask F → Prop
  | stmt {stmt : PyStmt F} {ir : Stmt F} {term : Bool} {w₁ w₂ : Walker} :
      StmtCode param S stmt ir term w₁ w₂ → Compiles param S (.stmt stmt) (.stmt ir)
  | body {body : List (PyStmt F)} {irs : List (Stmt F)} : BodyCode param S body irs →
      Compiles param S (.body body) (.body irs)
  | turns {var : String} {body : List (PyStmt F)} {irs : List (Stmt F)} {n : ℕ} {i : ℤ}
      {stop : BitVec 64} : BodyCode param S body irs → S.locals var = some .i64 →
      n = (stop.toInt - i).toNat → Compiles param S (.turns var body n i) (.turns var stop irs)
  | loop {test : PyExpr F} {body : List (PyStmt F)} {c : Expr F} {ct : Dtype} {irs : List (Stmt F)}
      {w₁ : Walker} : Accepts w₁ test c ct → w₁.OnWay param S → S.TestTy c →
      BodyCode param S body irs → Compiles param S (.loop test body) (.loop c irs)

/-- What the code holds when a task begins: the counter of a loop is one ahead of Python's. -/
def Ready (py : PyFloats F) (w : Walker) (S : Sem F) (ρ : Env F) : PyTask F → SafeState F → Prop
  | .turns var _ _ i, s => (s.known.forget var).Tracks py w S ρ ∧
      ∃ b, S.readLocal ρ var = .ok (.i64 b) ∧ b.toInt = i
  | .stmt _, s | .body _, s | .loop _ _, s => s.known.Tracks py w S ρ

section Bodies
variable {param : String} {S : Sem F} {stmt : PyStmt F} {rest body : List (PyStmt F)}
  {irs : List (Stmt F)}

/-- The code of a body without its first statement: a docstring has none, and there is none
behind a statement that control cannot pass. -/
theorem BodyCode.uncons (h : BodyCode param S (stmt :: rest) irs) :
    (stmt.isDocstring = true ∧ BodyCode param S rest irs) ∨
      ∃ ir irs' term w₁ w₂, irs = ir :: irs' ∧ StmtCode param S stmt ir term w₁ w₂ ∧
        (term = false → BodyCode param S rest irs') := by
  obtain ⟨w₁, w₂, first, term, hacc, h₁, hty, hout⟩ := h
  cases hacc with
  | docstring hdoc hrest => exact .inl ⟨hdoc, _, _, _, _, hrest, h₁, hty, hout⟩
  | last hstmt =>
    exact .inr ⟨_, _, _, _, _, rfl, ⟨hstmt, h₁, hty.1, hout⟩, fun h => by cases h⟩
  | cons hstmt hrest =>
    refine .inr ⟨_, _, _, _, _, rfl, ⟨hstmt, h₁, hty.1, ?_⟩, fun _ => ?_⟩
    · exact fun d hd => hout d (hrest.outputStays d hd)
    · exact ⟨_, _, _, _, hrest, hstmt.onWay h₁ hty.1, hty.2 (hstmt.not_terminates rfl), hout⟩

/-- Control passes the statement. -/
theorem StmtCode.not_terminates {ir : Stmt F} {term : Bool} {w₁ w₂ : Walker} {ρ ρ' : Env F}
    (h : StmtCode param S stmt ir term w₁ w₂) (hends : S.StmtEnds ir ρ (.ok (.normal ρ'))) :
    term = false := by
  cases term with
  | false => rfl
  | true =>
    obtain ⟨n, hn⟩ := hends.exists_self
    exact absurd hn (h.accepts.not_normal S n rfl ρ ρ')

section Parts
variable {ir : Stmt F} {term : Bool} {w₁ w₂ : Walker} {test iter : PyExpr F} {orelse : List (PyStmt F)}
  {var : String}

theorem StmtCode.ifStmt (h : StmtCode param S (.ifStmt test body orelse) ir term w₁ w₂) :
    ∃ c ct thenIr elseIr, ir = .ifElse c thenIr elseIr ∧ Accepts w₁ test c ct ∧ S.TestTy c ∧
      ∀ b : Bool, BodyCode param S (if b then body else orelse) (if b then thenIr else elseIr) := by
  obtain ⟨hacc, h₁, hty, hout⟩ := h
  cases hacc with
  | ifStmt hcond hthen helse =>
    refine ⟨_, _, _, _, rfl, hcond, hty.1, fun b => ?_⟩
    cases b with
    | true => exact ⟨_, _, _, _, hthen, h₁, hty.2.1, fun d hd => hout d (helse.outputStays d hd)⟩
    | false => exact ⟨_, _, _, _, helse, hthen.onWay h₁ hty.2.1, hty.2.2, hout⟩

theorem StmtCode.forStmt (h : StmtCode param S (.forStmt (.name var) iter body []) ir term w₁ w₂) :
    ∃ start stop irs, ir = .forRange var start stop irs ∧ AcceptsRange w₁ iter start stop ∧
      S.locals var = some .i64 ∧ S.ExprTy start .i64 .i64 ∧ S.ExprTy stop .i64 .i64 ∧
      BodyCode param S body irs := by
  obtain ⟨hacc, h₁, hty, hout⟩ := h
  cases hacc with
  | forStmt hiter hbody =>
    obtain ⟨hS, hstart, hstop, hbodyTy⟩ := hty
    exact ⟨_, _, _, rfl, hiter, hS, hstart, hstop, _, _, _, _, hbody, h₁.bind hS, hbodyTy, hout⟩

theorem StmtCode.whileStmt (h : StmtCode param S (.whileStmt test body []) ir term w₁ w₂) :
    ∃ c ct irs, ir = .whileDo c irs ∧ Accepts w₁ test c ct ∧ S.TestTy c ∧ BodyCode param S body irs := by
  obtain ⟨hacc, h₁, hty, hout⟩ := h
  cases hacc with
  | whileStmt hcond hbody => exact ⟨_, _, _, rfl, hcond, hty.1, _, _, _, _, hbody, h₁, hty.2, hout⟩

end Parts

/-- The code of an empty body. -/
theorem BodyCode.nil (h : BodyCode param S [] irs) : irs = [] := by
  obtain ⟨_, _, _, _, hacc, -⟩ := h
  cases hacc
  rfl

end Bodies

section Simulation
variable {py : PyFloats F} {w : Walker} {S : Sem F}

/-- The augmented assignment that compiles is accepted as an assignment. -/
theorem AcceptsStmt.augAssign_value {w₁ w₂ : Walker} {name : String} {op : PyBinOp} {value : PyExpr F}
    {ir : Stmt F} {term : Bool} (h : AcceptsStmt w₁ (.augAssign (.name name) op value) ir term w₂)
    (hty : S.stmtTyped ir) :
    ∃ e d, ir = .assign name d e ∧ Accepts w₁ (.binOp (.name name) op value) e d := by
  cases h with
  | @augAssign _ _ _ irOp _ l r lt rt _ hop hleft hright =>
    refine ⟨_, _, rfl, .binOp hop hleft hright fun hquot => ?_⟩
    obtain ⟨-, hty⟩ := hty
    cases hty with
    | binOp _ _ _ hworks =>
      cases hd : lt.join rt with
      | i64 => rfl
      | f64 =>
        rw [hd] at hworks
        rcases hquot with rfl | rfl <;> cases hop <;> cases hworks

/-- A loop begins with the counter at its start. -/
theorem Ready.enter {var : String} {body : List (PyStmt F)} {s : SafeState F} {ρ : Env F} {n : ℕ}
    (h : s.known.Tracks py w S ρ) (hS : S.locals var = some .i64) (a : BitVec 64) :
    Ready py w S (ρ.set var (.i64 a)) (.turns var body n a.toInt) s :=
  ⟨h.forget hS rfl, a, Sem.readLocal_set, rfl⟩

/-- The next turn of a loop whose body has left the counter where it was. -/
theorem Ready.next {var : String} {body : List (PyStmt F)} {s : SafeState F} {ρ : Env F} {n : ℕ} {i : ℤ}
    {stop : BitVec 64} (h : s.known.Tracks py w S ρ) (hS : S.locals var = some .i64)
    (hvar : s.known.locals var = some (.int i)) (hi : i < stop.toInt) :
    ∃ v, S.bump ρ var = .ok v ∧ Ready py w S (ρ.set var v) (.turns var body n (i + 1)) s := by
  obtain ⟨d, x, hd, hread, hstands⟩ := h.heldBy.locals var _ hvar
  rw [hS] at hd
  cases hd
  obtain ⟨y, hy, hyty⟩ := h.heldBy.held.read hS
  rw [hread] at hy
  cases hy
  cases hstands with
  | @word _ n b hn hb =>
    obtain rfl := hn.eq_of_num rfl
    have hlo := (fits_toInt b).1
    have hhi := (fits_toInt stop).2
    have hone : (1 : BitVec 64).toInt = 1 := by decide
    refine ⟨.i64 (b + 1), Sem.bump_i64 hread, h.forget hS rfl, b + 1, Sem.readLocal_set, ?_⟩
    exact toInt_add_of_fits (by decide) hb hone ⟨by omega, by omega⟩
  | flag => cases hyty

/-- The code of the turns that are left. -/
theorem Compiles.next {var : String} {body : List (PyStmt F)} {irs : List (Stmt F)} {n : ℕ} {i : ℤ}
    {stop : BitVec 64} (hbody : BodyCode w.param S body irs) (hS : S.locals var = some .i64)
    (hn : n + 1 = (stop.toInt - i).toNat) :
    i < stop.toInt ∧ Compiles w.param S (.turns var body n (i + 1)) (.turns var stop irs) :=
  ⟨by omega, .turns hbody hS (by omega)⟩

/-- The header of a loop with `n` turns left. -/
theorem Ready.below {var : String} {body : List (PyStmt F)} {s : SafeState F} {ρ : Env F} {n : ℕ}
    {i : ℤ} {stop : BitVec 64} (h : Ready py w S ρ (.turns var body n i) s)
    (hn : n = (stop.toInt - i).toNat) : S.below ρ var (.i64 stop) = .ok (decide (0 < n)) := by
  obtain ⟨-, b, hread, rfl⟩ := h
  rw [Sem.below_i64 hread]
  congr 1
  rw [decide_eq_decide]
  omega

/-- The state in which the body of a turn begins. -/
theorem Ready.turn {var : String} {body : List (PyStmt F)} {s : SafeState F} {ρ : Env F} {n : ℕ} {i : ℤ}
    (h : Ready py w S ρ (.turns var body n i) s) (hS : S.locals var = some .i64) :
    (s.bind var (.int i)).known.Tracks py w S ρ := by
  obtain ⟨hs, b, hread, hb⟩ := h
  exact hs.bindForgotten hS hread (.word (.inl rfl) hb)

/-- A docstring leaves the state as it is. -/
theorem PyFloats.SafeRun.of_isDocstring {stmt : PyStmt F} {s : SafeState F} {flow : SafeFlow F}
    (h : py.SafeRun w (.stmt stmt) s flow) (hdoc : stmt.isDocstring = true) : flow = .normal s := by
  cases h with
  | docstring => rfl
  | assign | augAssign | ret | ifStmt | forStmt | whileStmt | brk | cont => cases hdoc

/-- **The code follows a safe run**: it comes to the same end without a fault, for enough fuel. -/
theorem PyFloats.SafeRun.code (hw : w.Tables S) {task : PyTask F}
    {s : SafeState F} {flow : SafeFlow F} (h : py.SafeRun w task s flow) {code : CodeTask F} {ρ : Env F}
    (hc : Compiles w.param S task code) (hready : Ready py w S ρ task s) :
    ∃ cflow, flow.HeldBy py w S cflow ∧ Enough fun n k => code.exec S n k ρ = some (.ok cflow) := by
  induction h generalizing code ρ with
  | assign hstores =>
    cases hc with
    | stmt hcode =>
      obtain ⟨hacc, h₁, hty, -⟩ := hcode
      cases hacc with
      | assign hvalue =>
        obtain ⟨x, hx, hs'⟩ := hstores.code hw hvalue h₁ hty.1 hty.2 hready
        exact ⟨_, .normal hs', Sem.StmtEnds.assign hx⟩
  | augAssign hstores =>
    cases hc with
    | stmt hcode =>
      obtain ⟨hacc, h₁, hty, -⟩ := hcode
      obtain ⟨e, d, rfl, hvalue⟩ := hacc.augAssign_value hty
      obtain ⟨x, hx, hs'⟩ := hstores.code hw hvalue h₁ hty.1 hty.2 hready
      exact ⟨_, .normal hs', Sem.StmtEnds.assign hx⟩
  | ret hcalm _ =>
    cases hc with
    | stmt hcode =>
      obtain ⟨hacc, h₁, hty, hout⟩ := hcode
      cases hacc with
      | ret hvalue hret =>
        obtain ⟨rfl, -⟩ := Walker.recordReturn_eq_ok hret
        obtain rfl := hout _ rfl
        obtain ⟨hcode, -, heq⟩ := hvalue.onWay h₁ hw hty
        obtain ⟨x, hx⟩ := hcalm.code hready hcode
        rw [← heq] at hx
        exact ⟨_, .ret, Sem.StmtEnds.ret hx⟩
  | @ifStmt test body orelse s b flow htest _ ih =>
    cases hc with
    | stmt hcode =>
      obtain ⟨c, ct, thenIr, elseIr, rfl, hcond, hty, hbody⟩ := hcode.ifStmt
      have hdecides := htest.code hw hcond hcode.onWay hty hready
      obtain ⟨cflow, hflow, hexec⟩ := ih (.body (hbody b)) hready
      exact ⟨cflow, hflow, Sem.StmtEnds.ifElse hdecides hexec⟩
  | forStmt hrange _ ih =>
    cases hc with
    | stmt hcode =>
      obtain ⟨start, stop, irs, rfl, hiter, hS, hstart, hstop, hbody⟩ := hcode.forStmt
      obtain ⟨a, b, ha, hb, rfl, rfl⟩ := hrange.code hw hiter hcode.onWay hstart hstop hready
      obtain ⟨cflow, hflow, hexec⟩ := ih (.turns hbody hS rfl) (.enter hready hS a)
      exact ⟨cflow, hflow, Sem.StmtEnds.forRange ha hb hexec⟩
  | whileStmt _ ih =>
    cases hc with
    | stmt hcode =>
      obtain ⟨c, ct, irs, rfl, hcond, hty, hbody⟩ := hcode.whileStmt
      obtain ⟨cflow, hflow, hexec⟩ := ih (.loop hcond hcode.onWay hty hbody) hready
      exact ⟨cflow, hflow, Sem.StmtEnds.whileDo hexec⟩
  | brk =>
    cases hc with
    | stmt hcode =>
      obtain ⟨hacc, -⟩ := hcode
      cases hacc
      exact ⟨_, .brk hready, Sem.StmtEnds.brk (S := S)⟩
  | cont =>
    cases hc with
    | stmt hcode =>
      obtain ⟨hacc, -⟩ := hcode
      cases hacc
      exact ⟨_, .cont hready, Sem.StmtEnds.cont (S := S)⟩
  | docstring =>
    cases hc with
    | stmt hcode =>
      obtain ⟨hacc, -⟩ := hcode
      cases hacc
  | nil =>
    cases hc with
    | body hcode =>
      obtain rfl := hcode.nil
      exact ⟨_, .normal hready, Sem.BodyEnds.nil (S := S)⟩
  | cons hfirst _ ih₁ ih₂ =>
    cases hc with
    | body hcode =>
      rcases hcode.uncons with ⟨hdoc, hrest⟩ | ⟨ir, irs', term, w₁, w₂, rfl, hstmt, hrest⟩
      · cases hfirst.of_isDocstring hdoc
        exact ih₂ (.body hrest) hready
      · obtain ⟨_, hflow, hexec₁⟩ := ih₁ (.stmt hstmt) hready
        cases hflow with
        | normal hs' =>
          obtain ⟨cflow, hflow, hexec₂⟩ := ih₂ (.body (hrest (hstmt.not_terminates hexec₁))) hs'
          exact ⟨cflow, hflow, Sem.BodyEnds.cons hexec₁ hexec₂⟩
  | @leave stmt rest s flow hfirst hne ih =>
    cases hc with
    | body hcode =>
      rcases hcode.uncons with ⟨hdoc, hrest⟩ | ⟨ir, irs', term, w₁, w₂, rfl, hstmt, hrest⟩
      · exact absurd (hfirst.of_isDocstring hdoc) (hne s)
      · obtain ⟨cflow, hflow, hexec⟩ := ih (.stmt hstmt) hready
        refine ⟨cflow, hflow, Sem.BodyEnds.leave hexec ?_⟩
        rintro ρ' rfl
        cases hflow with
        | normal => exact hne _ rfl
  | @turnsDone var body i s =>
    cases hc with
    | turns _ _ hn =>
      exact ⟨_, .normal hready.1, Sem.ForEnds.done (hready.below hn)⟩
  | turnsNext _ hagain hvar _ ih₁ ih₂ =>
    cases hc with
    | turns hbody hS hn =>
      obtain ⟨hi, hcode⟩ := Compiles.next hbody hS hn
      obtain ⟨_, hflow, hexec₁⟩ := ih₁ (.body hbody) (hready.turn hS)
      obtain ⟨ρ', hs', hnext⟩ := hflow.next hagain
      obtain ⟨v, hbump, hready'⟩ := Ready.next hs' hS hvar hi
      obtain ⟨cflow, hflow', hexec₂⟩ := ih₂ hcode hready'
      exact ⟨cflow, hflow', Sem.ForEnds.next (hready.below hn) hexec₁ hnext hbump hexec₂⟩
  | @turnsLeave var body n i s flow flow' _ hleaves ih =>
    cases hc with
    | turns hbody hS hn =>
      obtain ⟨_, hflow, hexec⟩ := ih (.body hbody) (hready.turn hS)
      obtain ⟨cflow, hflow', hleave⟩ := hflow.leave hleaves
      exact ⟨cflow, hflow', Sem.ForEnds.leave (hready.below hn) hexec hleave⟩
  | loopDone htest =>
    cases hc with
    | loop hcond h₁ hty _ =>
      have hdecides := htest.code hw hcond h₁ hty hready
      exact ⟨_, .normal hready, Sem.WhileEnds.done hdecides⟩
  | loopNext htest _ hagain _ ih₁ ih₂ =>
    cases hc with
    | loop hcond h₁ hty hbody =>
      have hdecides := htest.code hw hcond h₁ hty hready
      obtain ⟨_, hflow, hexec₁⟩ := ih₁ (.body hbody) hready
      obtain ⟨ρ', hs', hnext⟩ := hflow.next hagain
      obtain ⟨cflow, hflow', hexec₂⟩ := ih₂ (.loop hcond h₁ hty hbody) hs'
      exact ⟨cflow, hflow', Sem.WhileEnds.next hdecides hexec₁ hnext hexec₂⟩
  | loopLeave htest _ hleaves ih =>
    cases hc with
    | loop hcond h₁ hty hbody =>
      have hdecides := htest.code hw hcond h₁ hty hready
      obtain ⟨_, hflow, hexec⟩ := ih (.body hbody) hready
      obtain ⟨cflow, hflow', hleave⟩ := hflow.leave hleaves
      exact ⟨cflow, hflow', Sem.WhileEnds.leave hdecides hexec hleave⟩

/-- A statement that is run to its normal end, and behind which there is code. -/
theorem PyFloats.SafeRun.normal_code (hw : w.Tables S) {stmt : PyStmt F} {s s' : SafeState F}
    (h : py.SafeRun w (.stmt stmt) s (.normal s')) {ir : Stmt F} {term : Bool} {w₁ w₂ : Walker}
    {ρ : Env F} (hstmt : StmtCode w.param S stmt ir term w₁ w₂) (hready : s.known.Tracks py w S ρ) :
    ∃ ρ', s'.known.Tracks py w S ρ' ∧ S.StmtEnds ir ρ (.ok (.normal ρ')) ∧ term = false := by
  obtain ⟨_, hflow, hexec⟩ := h.code hw (.stmt hstmt) hready
  cases hflow with
  | @normal _ ρ' hs' => exact ⟨ρ', hs', hexec, hstmt.not_terminates hexec⟩

/-! ## Ends that nothing changes -/

/-- The statement that a safe run comes to is no docstring. -/
theorem PyFloats.SafelyReaches.not_docstring {P : PyTask F → SafeState F → Prop} {stmt : PyStmt F}
    {s : SafeState F} (hdoc : ∀ stmt s, P (.stmt stmt) s → stmt.isDocstring = false)
    (h : py.SafelyReaches w P (.stmt stmt) s) : stmt.isDocstring = false := by
  cases h with
  | here hP => exact hdoc _ _ hP
  | ifStmt | forStmt | whileStmt => rfl

/-- **The code of a task that a safe run comes to is run**, and where it is left for good so
is the code of the whole. -/
theorem PyFloats.SafelyReaches.code (hw : w.Tables S) {P : PyTask F → SafeState F → Prop}
    {Q : Except Fault (Flow F) → Prop} (hfinal : ∀ {o}, Q o → Final o)
    (hdoc : ∀ stmt s, P (.stmt stmt) s → stmt.isDocstring = false)
    (hcode : ∀ {task s code ρ}, P task s → Compiles w.param S task code → Ready py w S ρ task s →
      ∃ o, Q o ∧ Enough fun n k => code.exec S n k ρ = some o)
    {task : PyTask F} {s : SafeState F} (h : py.SafelyReaches w P task s) {code : CodeTask F} {ρ : Env F}
    (hc : Compiles w.param S task code) (hready : Ready py w S ρ task s) :
    ∃ o, Q o ∧ Enough fun n k => code.exec S n k ρ = some o := by
  induction h generalizing code ρ with
  | here hP => exact hcode hP hc hready
  | @ifStmt test body orelse s b htest _ ih =>
    cases hc with
    | stmt hstmt =>
      obtain ⟨c, ct, thenIr, elseIr, rfl, hcond, hty, hbody⟩ := hstmt.ifStmt
      have hdecides := htest.code hw hcond hstmt.onWay hty hready
      obtain ⟨o, ho, hexec⟩ := ih (.body (hbody b)) hready
      exact ⟨o, ho, Sem.StmtEnds.ifElse hdecides hexec⟩
  | forStmt hrange _ ih =>
    cases hc with
    | stmt hstmt =>
      obtain ⟨start, stop, irs, rfl, hiter, hS, hstart, hstop, hbody⟩ := hstmt.forStmt
      obtain ⟨a, b, ha, hb, rfl, rfl⟩ := hrange.code hw hiter hstmt.onWay hstart hstop hready
      obtain ⟨o, ho, hexec⟩ := ih (.turns hbody hS rfl) (.enter hready hS a)
      exact ⟨o, ho, Sem.StmtEnds.forRange ha hb hexec⟩
  | whileStmt _ ih =>
    cases hc with
    | stmt hstmt =>
      obtain ⟨c, ct, irs, rfl, hcond, hty, hbody⟩ := hstmt.whileStmt
      obtain ⟨o, ho, hexec⟩ := ih (.loop hcond hstmt.onWay hty hbody) hready
      exact ⟨o, ho, Sem.StmtEnds.whileDo hexec⟩
  | first hat ih =>
    cases hc with
    | body hbody =>
      rcases hbody.uncons with ⟨hdocstring, -⟩ | ⟨ir, irs', term, w₁, w₂, rfl, hstmt, -⟩
      · rw [hat.not_docstring hdoc] at hdocstring
        cases hdocstring
      · obtain ⟨o, ho, hexec⟩ := ih (.stmt hstmt) hready
        exact ⟨o, ho, Sem.BodyEnds.final hexec (hfinal ho)⟩
  | later hfirst _ ih =>
    cases hc with
    | body hbody =>
      rcases hbody.uncons with ⟨hdocstring, hrest⟩ | ⟨ir, irs', term, w₁, w₂, rfl, hstmt, hrest⟩
      · cases hfirst.of_isDocstring hdocstring
        exact ih (.body hrest) hready
      · obtain ⟨ρ₁, hs', hexec₁, hterm⟩ := hfirst.normal_code hw hstmt hready
        obtain ⟨o, ho, hexec₂⟩ := ih (.body (hrest hterm)) hs'
        exact ⟨o, ho, Sem.BodyEnds.cons hexec₁ hexec₂⟩
  | turn _ ih =>
    cases hc with
    | turns hbody hS hn =>
      obtain ⟨o, ho, hexec⟩ := ih (.body hbody) (hready.turn hS)
      exact ⟨o, ho, Sem.ForEnds.final (hready.below hn) hexec (hfinal ho)⟩
  | laterTurn hrun hagain hvar _ ih =>
    cases hc with
    | turns hbody hS hn =>
      obtain ⟨hi, hrest⟩ := Compiles.next hbody hS hn
      obtain ⟨_, hflow, hexec₁⟩ := hrun.code hw (.body hbody) (hready.turn hS)
      obtain ⟨ρ₁, hs', hnext⟩ := hflow.next hagain
      obtain ⟨v, hbump, hready'⟩ := Ready.next hs' hS hvar hi
      obtain ⟨o, ho, hexec₂⟩ := ih hrest hready'
      exact ⟨o, ho, Sem.ForEnds.next (hready.below hn) hexec₁ hnext hbump hexec₂⟩
  | round htest _ ih =>
    cases hc with
    | loop hcond h₁ hty hbody =>
      have hdecides := htest.code hw hcond h₁ hty hready
      obtain ⟨o, ho, hexec⟩ := ih (.body hbody) hready
      exact ⟨o, ho, Sem.WhileEnds.final hdecides hexec (hfinal ho)⟩
  | laterRound htest hrun hagain _ ih =>
    cases hc with
    | loop hcond h₁ hty hbody =>
      have hdecides := htest.code hw hcond h₁ hty hready
      obtain ⟨_, hflow, hexec₁⟩ := hrun.code hw (.body hbody) hready
      obtain ⟨ρ₁, hs', hnext⟩ := hflow.next hagain
      obtain ⟨o, ho, hexec₂⟩ := ih (.loop hcond h₁ hty hbody) hs'
      exact ⟨o, ho, Sem.WhileEnds.next hdecides hexec₁ hnext hexec₂⟩

/-- The code of a task that fails traps. -/
theorem PyFloats.TaskFails.code (hw : w.Tables S) {task : PyTask F} {s : SafeState F}
    (h : py.TaskFails w task s) {code : CodeTask F} {ρ : Env F} (hc : Compiles w.param S task code)
    (hready : Ready py w S ρ task s) :
    ∃ f, Enough fun n k => code.exec S n k ρ = some (.error f) := by
  cases h with
  | assign hfails =>
    cases hc with
    | stmt hstmt =>
      obtain ⟨hacc, h₁, hty, -⟩ := hstmt
      cases hacc with
      | assign hvalue =>
        obtain ⟨f, hf⟩ := hfails.value hw hvalue h₁ hty.2 hready
        exact ⟨f, Sem.StmtEnds.assign_fault hf⟩
  | augAssign hfails =>
    cases hc with
    | stmt hstmt =>
      obtain ⟨hacc, h₁, hty, -⟩ := hstmt
      obtain ⟨e, d, rfl, hvalue⟩ := hacc.augAssign_value hty
      obtain ⟨f, hf⟩ := hfails.value hw hvalue h₁ hty.2 hready
      exact ⟨f, Sem.StmtEnds.assign_fault hf⟩
  | ret hfails =>
    cases hc with
    | stmt hstmt =>
      obtain ⟨hacc, h₁, hty, hout⟩ := hstmt
      cases hacc with
      | ret hvalue hret =>
        obtain ⟨rfl, -⟩ := Walker.recordReturn_eq_ok hret
        obtain rfl := hout _ rfl
        obtain ⟨f, hf⟩ := hfails.value hw hvalue h₁ hty hready
        exact ⟨f, Sem.StmtEnds.ret_fault hf⟩
  | ifStmt hfails =>
    cases hc with
    | stmt hstmt =>
      obtain ⟨c, ct, thenIr, elseIr, rfl, hcond, hty, -⟩ := hstmt.ifStmt
      obtain ⟨f, hf⟩ := hfails.test_code hw hcond hstmt.onWay hty hready
      exact ⟨f, Sem.StmtEnds.ifElse_fault hf⟩
  | forStmt hmem hfails =>
    cases hc with
    | stmt hstmt =>
      obtain ⟨hacc, h₁, hty, -⟩ := hstmt
      cases hacc with
      | forStmt hiter _ =>
        obtain ⟨-, hstartTy, hstopTy, -⟩ := hty
        show ∃ f, S.StmtEnds _ ρ (.error f)
        cases hiter with
        | stop hb =>
          obtain rfl := List.mem_singleton.mp hmem
          exact Sem.StmtEnds.exists_forRange_fault (.inr (hfails.value hw hb.toInt h₁ hstopTy hready))
        | startStop ha hb =>
          rcases List.mem_pair.mp hmem with rfl | rfl
          · exact Sem.StmtEnds.exists_forRange_fault (.inl (hfails.value hw ha.toInt h₁ hstartTy hready))
          · exact Sem.StmtEnds.exists_forRange_fault (.inr (hfails.value hw hb.toInt h₁ hstopTy hready))
  | loop hfails =>
    cases hc with
    | loop hcond h₁ hty _ =>
      obtain ⟨f, hf⟩ := hfails.test_code hw hcond h₁ hty hready
      exact ⟨f, Sem.WhileEnds.fault hf⟩

/-- **The code traps** where a safe run comes to a task that fails. -/
theorem PyFloats.SafelyReaches.traps (hw : w.Tables S) {task : PyTask F} {s : SafeState F}
    (h : py.SafelyReaches w (py.TaskFails w) task s) {code : CodeTask F} {ρ : Env F}
    (hc : Compiles w.param S task code) (hready : Ready py w S ρ task s) :
    ∃ f, Enough fun n k => code.exec S n k ρ = some (.error f) := by
  obtain ⟨_, ⟨f, rfl⟩, hexec⟩ := h.code hw (Q := fun o => ∃ f, o = .error f)
    (fun ⟨f, hf⟩ => hf ▸ .fault f)
    (fun stmt s hfails => by cases hfails <;> rfl)
    (fun hfails hc hready => by
      obtain ⟨f, hf⟩ := hfails.code hw hc hready
      exact ⟨_, ⟨f, rfl⟩, hf⟩) hc hready
  exact ⟨f, hexec⟩

end Simulation

end Gilmap
