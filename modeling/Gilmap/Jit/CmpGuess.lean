import Gilmap.Jit.InStep
import Gilmap.Jit.SimdRefines

/-! # The dtype of a comparison

The walker promotes the operands of a comparison and keeps the result to itself; the code
generator recovers it from the first leaf that has a dtype. It looks through comparisons on
the way, though these give an integer whatever they compare, and is wrong about integers
that it so takes for floats.
-/
namespace Gilmap
variable {F : Type}

/-! ## Where the search for a leaf ends -/

/-- The search runs into a comparison of floats. -/
def Walker.leadsToFloats (w : Walker) : PyExpr F → Bool
  | .compare left _ [right] =>
    w.tag left = some .f64 || w.tag right = some .f64 || w.leadsToFloats left
  | .unaryOp _ operand => w.leadsToFloats operand
  | .binOp left _ _ => w.leadsToFloats left
  | .ifExp _ body _ => w.leadsToFloats body
  | .call (.name "int") [arg] [] => w.tag arg = some .i64 && w.leadsToFloats arg
  | _ => false

/-- The operands are integers, and the left one starts with a comparison of floats. -/
def Walker.MistakenForFloats (w : Walker) (left right : PyExpr F) : Prop :=
  w.tag left = some .i64 ∧ w.tag right = some .i64 ∧ w.leadsToFloats left = true

instance (w : Walker) (left right : PyExpr F) : Decidable (w.MistakenForFloats left right) :=
  inferInstanceAs (Decidable (_ ∧ _))

section Inspect
variable {w : Walker} {inputDtype : Dtype} {locals : String → Option Dtype}

/-- What `inspect` finds in an expression of dtype `d`. -/
def Walker.found (w : Walker) (e : PyExpr F) (d : Dtype) : Dtype :=
  if d = .f64 ∨ w.leadsToFloats e then .f64 else .i64

theorem Walker.found_f64 (w : Walker) (e : PyExpr F) : w.found e .f64 = .f64 := by
  simp [Walker.found]

theorem inspect_liftTo {e : PyExpr F} {ir : Expr F} {d j : Dtype}
    (h : inspectDtype inputDtype locals ir = some (w.found e d)) :
    inspectDtype inputDtype locals (liftTo ir d j) = some (if d = j then w.found e d else j) := by
  by_cases hj : d = j
  · subst hj
    rw [liftTo_self, h, if_pos rfl]
  · rw [if_neg hj]
    cases d <;> cases j <;> first | exact absurd rfl hj | rfl

theorem Accepts.inspect {e : PyExpr F} {ir : Expr F} {d : Dtype} (h : Accepts w e ir d)
    (hinput : w.inputDtype = inputDtype) (hlocals : ∀ name, w.locals.lookup name = locals name) :
    inspectDtype inputDtype locals ir = some (w.found e d) := by
  induction h with
  | param =>
    rw [hinput]
    cases inputDtype <;> rfl
  | @localVar id d _ hl =>
    rw [hlocals] at hl
    cases d <;> simp [inspectDtype, hl, Walker.found, Walker.leadsToFloats]
  | bool | int | float => rfl
  | unaryOp _ _ ih => exact ih
  | @binOp _ _ left right _ _ lt rt _ _ _ _ ihl _ =>
    simp only [inspectDtype, inspect_liftTo ihl, Option.some_or]
    rcases Dtype.join_cases lt rt with hj | ⟨rfl, rfl⟩
    · rw [hj, Walker.found_f64]
      split
      · next hlt => rw [hlt, Walker.found_f64]
      · rfl
    · rfl
  | @compare _ _ left right _ _ lt rt _ hl hr ihl _ =>
    simp only [inspectDtype, inspect_liftTo ihl, Option.some_or]
    simp only [Walker.found, Walker.leadsToFloats, hl.tag_eq, hr.tag_eq]
    cases lt <;> cases rt <;> simp [Dtype.join]
  | @ifExp _ body _ _ _ _ _ yt nt _ _ _ _ ihy _ =>
    simp only [inspectDtype, inspect_liftTo ihy, Option.some_or]
    rcases Dtype.join_cases yt nt with hj | ⟨rfl, rfl⟩
    · rw [hj, Walker.found_f64]
      split
      · next hyt => rw [hyt, Walker.found_f64]
      · rfl
    · rfl
  | math => rfl
  | @toInt arg _ at_ ha ih =>
    rw [inspect_liftTo ih]
    cases at_ <;> simp [Walker.found, Walker.leadsToFloats, ha.tag_eq]
  | @toFloat arg _ at_ _ ih =>
    rw [inspect_liftTo ih, Walker.found_f64]
    split
    · next hat => rw [hat, Walker.found_f64]
    · rfl

/-- The guess is the walker's dtype unless integers are mistaken for floats. -/
theorem guess_eq_iff {left right : PyExpr F} {l r : Expr F} {lt rt : Dtype} (hl : Accepts w left l lt)
    (hr : Accepts w right r rt) (hinput : w.inputDtype = inputDtype)
    (hlocals : ∀ name, w.locals.lookup name = locals name) :
    guessCmpDtype inputDtype locals (liftTo l lt (lt.join rt)) (liftTo r rt (lt.join rt)) = lt.join rt ↔
      ¬ w.MistakenForFloats left right := by
  simp only [guessCmpDtype, inspect_liftTo (hl.inspect hinput hlocals), Option.some_or,
    Option.getD_some, Walker.MistakenForFloats, hl.tag_eq, hr.tag_eq, Walker.found]
  cases lt <;> cases rt <;> cases w.leadsToFloats left <;> simp [Dtype.join]

end Inspect

/-! ## The comparisons of a kernel -/

/-- The nodes of an expression. -/
inductive SubExpr : PyExpr F → PyExpr F → Prop
  | refl {e : PyExpr F} : SubExpr e e
  | operand {a e : PyExpr F} {op : PyUnaryOp} : SubExpr a e → SubExpr a (.unaryOp op e)
  | binLeft {a left right : PyExpr F} {op : PyBinOp} : SubExpr a left → SubExpr a (.binOp left op right)
  | binRight {a left right : PyExpr F} {op : PyBinOp} : SubExpr a right → SubExpr a (.binOp left op right)
  | compareLeft {a left : PyExpr F} {ops : List PyCmpOp} {comparators : List (PyExpr F)} :
      SubExpr a left → SubExpr a (.compare left ops comparators)
  | comparator {a left e : PyExpr F} {ops : List PyCmpOp} {comparators : List (PyExpr F)} :
      e ∈ comparators → SubExpr a e → SubExpr a (.compare left ops comparators)
  | test {a test body orelse : PyExpr F} : SubExpr a test → SubExpr a (.ifExp test body orelse)
  | body {a test body orelse : PyExpr F} : SubExpr a body → SubExpr a (.ifExp test body orelse)
  | orelse {a test body orelse : PyExpr F} : SubExpr a orelse → SubExpr a (.ifExp test body orelse)
  | arg {a func e : PyExpr F} {args : List (PyExpr F)} {keywords : List String} : e ∈ args →
      SubExpr a e → SubExpr a (.call func args keywords)

theorem isPure_liftTo {ir : Expr F} {d j : Dtype} :
    isPureSimdExpr (liftTo ir d j) = isPureSimdExpr ir := by
  cases d <;> cases j <;> rfl

/-- The nodes of an accepted expression are accepted, and pure ones where it is pure. -/
theorem SubExpr.accepts {w : Walker} {a e : PyExpr F} (hsub : SubExpr a e) {ir : Expr F} {d : Dtype}
    (h : Accepts w e ir d) :
    ∃ ir₀ d₀, Accepts w a ir₀ d₀ ∧ (isPureSimdExpr ir = true → isPureSimdExpr ir₀ = true) := by
  induction hsub generalizing ir d with
  | refl => exact ⟨ir, d, h, id⟩
  | operand _ ih =>
    cases h with
    | unaryOp _ h =>
      obtain ⟨ir₀, d₀, ha, hpure⟩ := ih h
      exact ⟨ir₀, d₀, ha, fun hp => hpure hp⟩
  | binLeft _ ih =>
    cases h with
    | binOp _ hl _ _ =>
      obtain ⟨ir₀, d₀, ha, hpure⟩ := ih hl
      exact ⟨ir₀, d₀, ha, fun hp => hpure (isPure_liftTo ▸ (isPureSimdExpr_binOp hp).2.1)⟩
  | binRight _ ih =>
    cases h with
    | binOp _ _ hr _ =>
      obtain ⟨ir₀, d₀, ha, hpure⟩ := ih hr
      exact ⟨ir₀, d₀, ha, fun hp => hpure (isPure_liftTo ▸ (isPureSimdExpr_binOp hp).2.2)⟩
  | compareLeft _ ih =>
    cases h with
    | compare _ hl _ =>
      obtain ⟨ir₀, d₀, ha, hpure⟩ := ih hl
      refine ⟨ir₀, d₀, ha, fun hp => hpure ?_⟩
      simp only [isPureSimdExpr, isPure_liftTo, Bool.and_eq_true] at hp
      exact hp.1
  | comparator hmem _ ih =>
    cases h with
    | compare _ _ hr =>
      rw [List.mem_singleton.mp hmem] at ih
      obtain ⟨ir₀, d₀, ha, hpure⟩ := ih hr
      refine ⟨ir₀, d₀, ha, fun hp => hpure ?_⟩
      simp only [isPureSimdExpr, isPure_liftTo, Bool.and_eq_true] at hp
      exact hp.2
  | test _ ih =>
    cases h with
    | ifExp ht _ _ =>
      obtain ⟨ir₀, d₀, ha, hpure⟩ := ih ht
      refine ⟨ir₀, d₀, ha, fun hp => hpure ?_⟩
      simp only [isPureSimdExpr, isPure_liftTo, Bool.and_eq_true] at hp
      exact hp.1.1
  | body _ ih =>
    cases h with
    | ifExp _ hy _ =>
      obtain ⟨ir₀, d₀, ha, hpure⟩ := ih hy
      refine ⟨ir₀, d₀, ha, fun hp => hpure ?_⟩
      simp only [isPureSimdExpr, isPure_liftTo, Bool.and_eq_true] at hp
      exact hp.1.2
  | orelse _ ih =>
    cases h with
    | ifExp _ _ hn =>
      obtain ⟨ir₀, d₀, ha, hpure⟩ := ih hn
      refine ⟨ir₀, d₀, ha, fun hp => hpure ?_⟩
      simp only [isPureSimdExpr, isPure_liftTo, Bool.and_eq_true] at hp
      exact hp.2
  | arg hmem _ ih =>
    cases h with
    | math _ ha =>
      rw [List.mem_singleton.mp hmem] at ih
      obtain ⟨ir₀, d₀, ha, -⟩ := ih ha
      exact ⟨ir₀, d₀, ha, by simp [isPureSimdExpr]⟩
    | toInt ha | toFloat ha =>
      rw [List.mem_singleton.mp hmem] at ih
      obtain ⟨ir₀, d₀, ha, hpure⟩ := ih ha
      exact ⟨ir₀, d₀, ha, fun hp => hpure (isPure_liftTo ▸ hp)⟩

/-- The expressions that a statement lowers itself. -/
def PyStmt.exprs : PyStmt F → List (PyExpr F)
  | .assign _ value => [value]
  | .augAssign _ _ value => [value]
  | .ret value => value.toList
  | .ifStmt test _ _ => [test]
  | .forStmt _ (.call _ args _) _ _ => args
  | .whileStmt test _ _ => [test]
  | _ => []

theorem AcceptsStmt.exprs {w w' : Walker} {stmt : PyStmt F} {ir : Stmt F} {term : Bool}
    (h : AcceptsStmt w stmt ir term w') {e : PyExpr F} (he : e ∈ stmt.exprs) :
    ∃ ir₀ d₀, Accepts w e ir₀ d₀ ∧ ∀ value, ir = .ret value → value = ir₀ := by
  cases h with
  | assign hv =>
    rw [List.mem_singleton.mp he]
    exact ⟨_, _, hv, fun _ h => by cases h⟩
  | augAssign _ _ _ hv =>
    rw [List.mem_singleton.mp he]
    exact ⟨_, _, hv, fun _ h => by cases h⟩
  | ret hv _ =>
    rw [List.mem_singleton.mp he]
    exact ⟨_, _, hv, fun _ h => by cases h; rfl⟩
  | ifStmt ht _ _ =>
    rw [List.mem_singleton.mp he]
    exact ⟨_, _, ht, fun _ h => by cases h⟩
  | whileStmt ht _ =>
    rw [List.mem_singleton.mp he]
    exact ⟨_, _, ht, fun _ h => by cases h⟩
  | forStmt hrange _ =>
    cases hrange with
    | stop hb =>
      rw [List.mem_singleton.mp he]
      exact ⟨_, _, hb, fun _ h => by cases h⟩
    | startStop ha hb =>
      rcases List.mem_pair.mp he with rfl | rfl
      · exact ⟨_, _, ha, fun _ h => by cases h⟩
      · exact ⟨_, _, hb, fun _ h => by cases h⟩
  | brk | cont => cases he

/-- In a body of a single `return`, that statement is the one that is met. -/
theorem Meets.single_ret {cx : LowerCx} {loops : List LoopFrame} {w w₀ : Walker} {s s₀ : LowerState}
    {body : List (PyStmt F)} {met : PyStmt F} (h : Meets cx loops w s body w₀ s₀ met) {first term : Bool}
    {value : Expr F} {w' : Walker} (hbody : AcceptsBody w first body [.ret value] term w') :
    met.isDocstring = true ∨ ∃ t w₁, AcceptsStmt w₀ met (.ret value) t w₁ := by
  induction h generalizing first term w' with
  | here =>
    cases hbody with
    | docstring hdoc _ => exact .inl hdoc
    | last hstmt => exact .inr ⟨_, _, hstmt⟩
    | cons hstmt _ => exact .inr ⟨_, _, hstmt⟩
  | docstring hdoc _ ih =>
    cases hbody with
    | docstring _ hrest => exact ih hrest
    | last hstmt | cons hstmt _ =>
      rw [hstmt.not_docstring] at hdoc
      cases hdoc
  | next hwalk _ _ _ =>
    have hstmt := Walker.acceptsStmt _ hwalk
    cases hbody with
    | docstring hdoc _ =>
      rw [hstmt.not_docstring] at hdoc
      cases hdoc
    | last hlast =>
      rw [hlast.stmt_eq] at hwalk
      cases hwalk
    | cons hcons _ => cases hcons
  | thenBody | elseBody | forBody | whileBody =>
    cases hbody with
    | docstring hdoc _ => cases hdoc
    | last hstmt | cons hstmt _ => cases hstmt

/-- The guess at a comparison, and that of the vector code where there is one, is the dtype to
which the walker promotes the operands. -/
def GuessAgrees (inputDtype : Dtype) (locals : String → Option Dtype) (vectorizable : Bool)
    (w : Walker) (left right : PyExpr F) : Prop :=
  ∀ l lt r rt l' r' promoted, w.expr left = .ok (l, lt) → w.expr right = .ok (r, rt) →
    promote l lt r rt = (l', r', promoted) →
    guessCmpDtype inputDtype locals l' r' = promoted ∧
      (vectorizable = true → guessSimdCmpDtype inputDtype l' r' = promoted)

/-- **The guess of a comparison's dtype**, at every comparison that the code generator comes
to: it is the dtype to which the walker has promoted the operands, unless these are integers
and the left one starts with a comparison of floats. -/
theorem guess_agrees_iff {d : Dtype} {node : FnNode F} {k : Kernel F} {param : String}
    (hwalk : walkFunction d node = some k) (hparam : node.params = [param]) {w : Walker}
    {s : LowerState} {stmt : PyStmt F}
    (hmet : Meets (scalarCx k) [] (.init param d) (scalarStart k) node.stmts w s stmt)
    {e left right : PyExpr F} {op : PyCmpOp} (he : e ∈ stmt.exprs)
    (hsub : SubExpr (.compare left [op] [right]) e) :
    GuessAgrees d s.locals.dtype k.isVectorizablePhase1 w left right ↔
      ¬ w.MistakenForFloats left right := by
  obtain ⟨param', w', hparams, hbody, rfl, -⟩ := walkFunction_accepts hwalk
  obtain rfl : param' = param := by simpa [hparams] using hparam
  obtain ⟨hs, -, haccepted⟩ := hmet.inStep hbody (inStep_scalarStart k param') rfl
  have hdoc : stmt.isDocstring = false := by
    cases stmt with
    | exprStmt => simp [PyStmt.exprs] at he
    | _ => rfl
  obtain ⟨ir, t, w₁, hstmt, -⟩ := haccepted hdoc
  obtain ⟨irE, dE, hE, -⟩ := hstmt.exprs he
  obtain ⟨ir₀, d₀, hcmp, -⟩ := hsub.accepts hE
  cases hcmp with
  | @compare _ irOp _ _ l r lt rt hop hl hr =>
    have hguess := guess_eq_iff hl hr hs.input hs.locals
    constructor
    · intro hagrees
      exact hguess.mp (hagrees l lt r rt _ _ _ hl.expr_eq hr.expr_eq (promote_eq ..)).1
    · rintro hmistaken l₁ lt₁ r₁ rt₁ l' r' promoted hl₁ hr₁ hpromote
      rw [hl.expr_eq] at hl₁
      rw [hr.expr_eq] at hr₁
      cases hl₁
      cases hr₁
      rw [promote_eq] at hpromote
      cases hpromote
      refine ⟨hguess.mpr hmistaken, fun hvec => ?_⟩
      -- a vectorizable kernel returns one pure expression, and this comparison is a part of it
      obtain ⟨value, hsr, hpure⟩ := singleReturn_of_vectorizable hvec
      rw [singleReturn_body hsr] at hbody
      rcases hmet.single_ret hbody with hdoc' | ⟨t', w₂, hret⟩
      · rw [hdoc] at hdoc'
        cases hdoc'
      · obtain ⟨irV, dV, hV, hvalue⟩ := hret.exprs he
        rw [hvalue value rfl] at hpure
        obtain ⟨ir₁, d₁, h₁, hpure₁⟩ := hsub.accepts hV
        have heq := (h₁.expr_eq).symm.trans (Accepts.compare hop hl hr).expr_eq
        cases heq
        have hp := hpure₁ hpure
        simp only [isPureSimdExpr, Bool.and_eq_true] at hp
        simp only [guessCmpDtype, ← inspectSimdDtype_eq s.locals.dtype hp.1,
          ← inspectSimdDtype_eq s.locals.dtype hp.2] at hguess
        exact hguess.mpr hmistaken

/-- `lambda x: (x > 0.5) if x > 1 else (x < 2)`, where every guess is right. -/
def testOfTests : FnNode (BitVec 64) :=
  .lambda ["x"] (.ifExp (.compare (.name "x") [.gt] [.constant (.int 1)])
    (.compare (.name "x") [.gt] [.constant (.float 0x3FE0000000000000)])
    (.compare (.name "x") [.lt] [.constant (.int 2)]))

theorem guess_agrees_testOfTests :
    GuessAgrees .f64 (fun _ => none) true (Walker.init "x" .f64) (.name "x")
        (.constant (.float (0x3FE0000000000000 : BitVec 64))) := by
  have hwalk : walkFunction .f64 testOfTests = some ⟨.f64, .i64,
      [.ret (.ifExpr (.compare .gt .param (.castToF64 (.constI64 1)))
        (.compare .gt .param (.constF64 0x3FE0000000000000))
        (.compare .lt .param (.castToF64 (.constI64 2))))]⟩ := rfl
  -- the operands are floats
  apply (guess_agrees_iff hwalk rfl .here List.mem_cons_self (.body .refl)).mpr
  intro hmistaken
  cases hmistaken.1

/-- `lambda x: (x > 0.5) == (x > 1)` -/
def equalTests : FnNode (BitVec 64) :=
  .lambda ["x"] (.compare (.compare (.name "x") [.gt] [.constant (.float 0x3FE0000000000000)]) [.eq]
    [.compare (.name "x") [.gt] [.constant (.int 1)]])

/-- The operands of the outer comparison are integers and taken for floats. -/
theorem guess_equalTests :
    ∃ (k : Kernel (BitVec 64)) (l r : Expr (BitVec 64)),
      walkFunction .f64 equalTests = some k ∧ k.isVectorizablePhase1 = true ∧
        k.body = [.ret (.compare .eq l r)] ∧
        (Walker.init "x" .f64).expr
          (.compare (.name "x") [.gt] [.constant (.float 0x3FE0000000000000)]) = .ok (l, .i64) ∧
        (Walker.init "x" .f64).expr (.compare (.name "x") [.gt] [.constant (.int 1)]) = .ok (r, .i64) ∧
        promote l .i64 r .i64 = (l, r, .i64) ∧
        guessCmpDtype .f64 (scalarStart k).locals.dtype l r = .f64 ∧ guessSimdCmpDtype .f64 l r = .f64 :=
  ⟨⟨.f64, .i64, [.ret (.compare .eq (.compare .gt .param (.constF64 0x3FE0000000000000))
      (.compare .gt .param (.castToF64 (.constI64 1))))]⟩, _, _, rfl, rfl, rfl, rfl, rfl, rfl, rfl, rfl⟩

end Gilmap
