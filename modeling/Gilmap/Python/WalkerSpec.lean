import Gilmap.Clif.Value
import Gilmap.Python.Walker

/-! # What the walker returns

One lemma for each kind of node that `expr` and `stmt` accept: which parts they accept, and
how the IR node and its dtype are made of those of the parts.
-/
namespace Gilmap
variable {F : Type}

/-! ## Promotion -/

/-- The common dtype of two operands. -/
def Dtype.join (a b : Dtype) : Dtype := if a = b then a else .f64

/-- An operand of dtype `d` where one of dtype `t` is wanted. -/
def liftTo (e : Expr F) (d t : Dtype) : Expr F := if d = t then e else castTo e t

@[simp] theorem liftTo_self (e : Expr F) (d : Dtype) : liftTo e d d = e := by simp [liftTo]

theorem liftTo_i64_f64 (e : Expr F) : liftTo e .i64 .f64 = .castToF64 e := rfl

theorem promote_eq (l : Expr F) (lt : Dtype) (r : Expr F) (rt : Dtype) :
    promote l lt r rt = (liftTo l lt (lt.join rt), liftTo r rt (lt.join rt), lt.join rt) := by
  cases lt <;> cases rt <;> rfl

theorem Dtype.join_eq_i64 {a b : Dtype} : a.join b = .i64 ↔ a = .i64 ∧ b = .i64 := by
  cases a <;> cases b <;> simp [Dtype.join]

theorem Dtype.join_eq_f64 {a b : Dtype} : a.join b = .f64 ↔ a = .f64 ∨ b = .f64 := by
  cases a <;> cases b <;> simp [Dtype.join]

theorem Dtype.join_cases (a b : Dtype) : a.join b = .f64 ∨ a = .i64 ∧ b = .i64 := by
  cases a <;> cases b <;> simp [Dtype.join]

/-! ## Expressions -/

section Expressions
variable {w : Walker} {ir : Expr F} {d : Dtype}

theorem Walker.nameExpr_eq_ok {id : String} (h : w.nameExpr id = .ok (ir, d)) :
    (id = w.param ∧ ir = .param ∧ d = w.inputDtype) ∨
      (id ≠ w.param ∧ ir = .localVar id ∧ w.locals.lookup id = some d) := by
  unfold Walker.nameExpr at h
  split at h
  · rename_i hid
    cases h
    exact .inl ⟨hid, rfl, rfl⟩
  · rename_i hid
    cases hl : w.locals.lookup id with
    | none =>
      simp only [hl] at h
      cases h
    | some dt =>
      simp only [hl] at h
      cases h
      exact .inr ⟨hid, rfl, rfl⟩

theorem Walker.expr_unaryOp {op : PyUnaryOp} {operand : PyExpr F}
    (h : w.expr (.unaryOp op operand) = .ok (ir, d)) :
    ∃ irOp inner, unaryMap op = some irOp ∧ w.expr operand = .ok (inner, d) ∧
      ir = .unary irOp inner := by
  simp only [Walker.expr] at h
  cases hop : unaryMap op with
  | none =>
    simp only [hop] at h
    cases h
  | some irOp =>
    simp only [hop, Except.bind_eq_ok] at h
    obtain ⟨⟨inner, dt⟩, hinner, h⟩ := h
    cases h
    exact ⟨irOp, inner, rfl, hinner, rfl⟩

theorem Walker.expr_binOp {left right : PyExpr F} {op : PyBinOp}
    (h : w.expr (.binOp left op right) = .ok (ir, d)) :
    ∃ irOp l lt r rt, binOpMap op = some irOp ∧ w.expr left = .ok (l, lt) ∧
      w.expr right = .ok (r, rt) ∧ d = lt.join rt ∧
      ir = .binOp irOp (liftTo l lt d) (liftTo r rt d) ∧
      ((op = .floorDiv ∨ op = .mod) → d = .i64) := by
  simp only [Walker.expr] at h
  cases hop : binOpMap op with
  | none =>
    simp only [hop] at h
    cases h
  | some irOp =>
    simp only [hop, Except.bind_eq_ok, promote_eq] at h
    obtain ⟨⟨l, lt⟩, hl, ⟨r, rt⟩, hr, h⟩ := h
    split at h
    · cases h
    · rename_i hmod
      cases h
      refine ⟨irOp, l, lt, r, rt, rfl, hl, hr, rfl, rfl, fun hop => ?_⟩
      rcases Dtype.join_cases lt rt with hf | ⟨rfl, rfl⟩
      · exact absurd ⟨hop, hf⟩ hmod
      · rfl

theorem Walker.expr_compare {left : PyExpr F} {ops : List PyCmpOp} {comparators : List (PyExpr F)}
    (h : w.expr (.compare left ops comparators) = .ok (ir, d)) :
    ∃ op irOp right l lt r rt, ops = [op] ∧ comparators = [right] ∧ cmpMap op = some irOp ∧
      w.expr left = .ok (l, lt) ∧ w.expr right = .ok (r, rt) ∧ d = .i64 ∧
      ir = .compare irOp (liftTo l lt (lt.join rt)) (liftTo r rt (lt.join rt)) := by
  match ops, comparators with
  | [op], [right] =>
    simp only [Walker.expr] at h
    cases hop : cmpMap op with
    | none =>
      simp only [hop] at h
      cases h
    | some irOp =>
      simp only [hop, Except.bind_eq_ok, promote_eq] at h
      obtain ⟨⟨l, lt⟩, hl, ⟨r, rt⟩, hr, h⟩ := h
      cases h
      exact ⟨op, irOp, right, l, lt, r, rt, rfl, rfl, hop, hl, hr, rfl, rfl⟩
  | [], _ => simp [Walker.expr] at h
  | _ :: _ :: _, _ => simp [Walker.expr] at h
  | [_], [] => simp [Walker.expr] at h
  | [_], _ :: _ :: _ => simp [Walker.expr] at h

theorem Walker.expr_ifExp {test body orelse : PyExpr F}
    (h : w.expr (.ifExp test body orelse) = .ok (ir, d)) :
    ∃ t tt yes yt no nt, w.expr test = .ok (t, tt) ∧ w.expr body = .ok (yes, yt) ∧
      w.expr orelse = .ok (no, nt) ∧ d = yt.join nt ∧
      ir = .ifExpr t (liftTo yes yt d) (liftTo no nt d) := by
  simp only [Walker.expr, Except.bind_eq_ok, promote_eq] at h
  obtain ⟨⟨t, tt⟩, ht, ⟨yes, yt⟩, hy, ⟨no, nt⟩, hn, h⟩ := h
  cases h
  exact ⟨t, tt, yes, yt, no, nt, ht, hy, hn, rfl, rfl⟩

/-- The calls that are accepted. -/
inductive AcceptedCall (w : Walker) : PyExpr F → PyExpr F → Expr F → Dtype → Prop
  | math {attr : String} {fn : MathFn} {arg : PyExpr F} {a : Expr F} {at_ : Dtype} :
      mathMap.lookup attr = some fn → w.expr arg = .ok (a, at_) →
      AcceptedCall w (.attribute (.name "math") attr) arg (.mathCall fn (liftTo a at_ .f64)) .f64
  | toInt {arg : PyExpr F} {a : Expr F} {at_ : Dtype} : w.expr arg = .ok (a, at_) →
      AcceptedCall w (.name "int") arg (liftTo a at_ .i64) .i64
  | toFloat {arg : PyExpr F} {a : Expr F} {at_ : Dtype} : w.expr arg = .ok (a, at_) →
      AcceptedCall w (.name "float") arg (liftTo a at_ .f64) .f64

theorem Walker.expr_call {func : PyExpr F} {args : List (PyExpr F)} {keywords : List String}
    (h : w.expr (.call func args keywords) = .ok (ir, d)) :
    ∃ arg, args = [arg] ∧ keywords = [] ∧ AcceptedCall w func arg ir d := by
  match args, keywords with
  | [arg], [] =>
    refine ⟨arg, rfl, rfl, ?_⟩
    match func with
    | .attribute (.name m) attr =>
      by_cases hm : m = "math"
      on_goal 2 => simp [Walker.expr, hm] at h
      subst hm
      simp only [Walker.expr] at h
      cases hfn : mathMap.lookup attr with
      | none =>
        simp only [hfn] at h
        cases h
      | some fn =>
        simp only [hfn, Except.bind_eq_ok] at h
        obtain ⟨⟨a, at_⟩, ha, h⟩ := h
        cases at_ <;> cases h
        · exact .math hfn ha
        · exact .math hfn ha
    | .name id =>
      simp only [Walker.expr, Except.bind_eq_ok] at h
      obtain ⟨⟨a, at_⟩, ha, h⟩ := h
      by_cases hint : id = "int"
      · subst hint
        cases at_ <;> cases h
        · exact .toInt ha
        · exact .toInt ha
      · rw [if_neg hint] at h
        by_cases hfloat : id = "float"
        · subst hfloat
          cases at_ <;> cases h
          · exact .toFloat ha
          · exact .toFloat ha
        · rw [if_neg hfloat] at h
          cases h
    | .attribute (.constant _) _ | .attribute (.unaryOp _ _) _ | .attribute (.binOp _ _ _) _
    | .attribute (.compare _ _ _) _ | .attribute (.ifExp _ _ _) _ | .attribute (.call _ _ _) _
    | .attribute (.attribute _ _) _ | .attribute (.other _) _ | .constant _ | .unaryOp _ _
    | .binOp _ _ _ | .compare _ _ _ | .ifExp _ _ _ | .call _ _ _ | .other _ =>
      simp [Walker.expr] at h
  | [], _ => simp [Walker.expr] at h
  | _ :: _ :: _, _ => simp [Walker.expr] at h
  | [_], _ :: _ => simp [Walker.expr] at h

theorem Walker.expr_constant {c : PyConst F} (h : w.expr (.constant c) = .ok (ir, d)) :
    (∃ b, c = .bool b ∧ ir = .constBool b ∧ d = .i64) ∨
      (∃ n, c = .int n ∧ ir = .constI64 n ∧ d = .i64) ∨
      ∃ x, c = .float x ∧ ir = .constF64 x ∧ d = .f64 := by
  cases c with
  | bool b =>
    cases h
    exact .inl ⟨b, rfl, rfl, rfl⟩
  | int n =>
    cases h
    exact .inr (.inl ⟨n, rfl, rfl, rfl⟩)
  | float x =>
    cases h
    exact .inr (.inr ⟨x, rfl, rfl, rfl⟩)
  | str s => cases h
  | other cls => cases h

/-- The expressions that the walker accepts, with their IR and dtype. -/
inductive Accepts (w : Walker) : PyExpr F → Expr F → Dtype → Prop
  | param : Accepts w (.name w.param) .param w.inputDtype
  | localVar {id : String} {d : Dtype} : id ≠ w.param → w.locals.lookup id = some d →
      Accepts w (.name id) (.localVar id) d
  | bool (b : Bool) : Accepts w (.constant (.bool b)) (.constBool b) .i64
  | int (n : ℤ) : Accepts w (.constant (.int n)) (.constI64 n) .i64
  | float (x : F) : Accepts w (.constant (.float x)) (.constF64 x) .f64
  | unaryOp {op : PyUnaryOp} {irOp : UnaryOp} {e : PyExpr F} {ir : Expr F} {d : Dtype} :
      unaryMap op = some irOp → Accepts w e ir d → Accepts w (.unaryOp op e) (.unary irOp ir) d
  | binOp {op : PyBinOp} {irOp : BinOp} {left right : PyExpr F} {l r : Expr F} {lt rt : Dtype} :
      binOpMap op = some irOp → Accepts w left l lt → Accepts w right r rt →
      ((op = .floorDiv ∨ op = .mod) → lt.join rt = .i64) →
      Accepts w (.binOp left op right)
        (.binOp irOp (liftTo l lt (lt.join rt)) (liftTo r rt (lt.join rt))) (lt.join rt)
  | compare {op : PyCmpOp} {irOp : CmpOp} {left right : PyExpr F} {l r : Expr F} {lt rt : Dtype} :
      cmpMap op = some irOp → Accepts w left l lt → Accepts w right r rt →
      Accepts w (.compare left [op] [right])
        (.compare irOp (liftTo l lt (lt.join rt)) (liftTo r rt (lt.join rt))) .i64
  | ifExp {test body orelse : PyExpr F} {t yes no : Expr F} {tt yt nt : Dtype} :
      Accepts w test t tt → Accepts w body yes yt → Accepts w orelse no nt →
      Accepts w (.ifExp test body orelse)
        (.ifExpr t (liftTo yes yt (yt.join nt)) (liftTo no nt (yt.join nt))) (yt.join nt)
  | math {attr : String} {fn : MathFn} {arg : PyExpr F} {a : Expr F} {at_ : Dtype} :
      mathMap.lookup attr = some fn → Accepts w arg a at_ →
      Accepts w (.call (.attribute (.name "math") attr) [arg] []) (.mathCall fn (liftTo a at_ .f64))
        .f64
  | toInt {arg : PyExpr F} {a : Expr F} {at_ : Dtype} : Accepts w arg a at_ →
      Accepts w (.call (.name "int") [arg] []) (liftTo a at_ .i64) .i64
  | toFloat {arg : PyExpr F} {a : Expr F} {at_ : Dtype} : Accepts w arg a at_ →
      Accepts w (.call (.name "float") [arg] []) (liftTo a at_ .f64) .f64

theorem Walker.accepts : ∀ {e : PyExpr F} {ir : Expr F} {d : Dtype}, w.expr e = .ok (ir, d) →
    Accepts w e ir d
  | .name id, ir, d, h => by
    rcases Walker.nameExpr_eq_ok h with ⟨rfl, rfl, rfl⟩ | ⟨hne, rfl, hl⟩
    · exact .param
    · exact .localVar hne hl
  | .constant c, ir, d, h => by
    rcases Walker.expr_constant h with ⟨b, rfl, rfl, rfl⟩ | ⟨n, rfl, rfl, rfl⟩ | ⟨x, rfl, rfl, rfl⟩
    · exact .bool b
    · exact .int n
    · exact .float x
  | .unaryOp op operand, ir, d, h => by
    obtain ⟨irOp, inner, hop, hinner, rfl⟩ := Walker.expr_unaryOp h
    exact .unaryOp hop (accepts hinner)
  | .binOp left op right, ir, d, h => by
    obtain ⟨irOp, l, lt, r, rt, hop, hl, hr, rfl, rfl, hmod⟩ := Walker.expr_binOp h
    exact .binOp hop (accepts hl) (accepts hr) hmod
  | .compare left ops comparators, ir, d, h => by
    obtain ⟨op, irOp, right, l, lt, r, rt, rfl, rfl, hop, hl, hr, rfl, rfl⟩ := Walker.expr_compare h
    exact .compare hop (accepts hl) (accepts hr)
  | .ifExp test body orelse, ir, d, h => by
    obtain ⟨t, tt, yes, yt, no, nt, ht, hy, hn, rfl, rfl⟩ := Walker.expr_ifExp h
    exact .ifExp (accepts ht) (accepts hy) (accepts hn)
  | .call func args keywords, ir, d, h => by
    obtain ⟨arg, rfl, rfl, hcall⟩ := Walker.expr_call h
    cases hcall with
    | math hfn ha => exact .math hfn (accepts ha)
    | toInt ha => exact .toInt (accepts ha)
    | toFloat ha => exact .toFloat (accepts ha)
  | .attribute value attr, ir, d, h => by cases h
  | .other cls, ir, d, h => by cases h

theorem Accepts.expr_eq {e : PyExpr F} (h : Accepts w e ir d) : w.expr e = .ok (ir, d) := by
  induction h with
  | param => simp [Walker.expr, Walker.nameExpr]
  | localVar hne hl => simp [Walker.expr, Walker.nameExpr, hne, hl]
  | bool b | int n | float x => rfl
  | unaryOp hop _ ih =>
    simp only [Walker.expr, hop, ih]
    rfl
  | @binOp op _ _ _ _ _ lt rt hop _ _ hmod ihl ihr =>
    simp only [Walker.expr, hop, ihl, ihr, promote_eq, bind, Except.bind]
    rw [if_neg]
    rintro ⟨hm, hf⟩
    simp [hmod hm] at hf
  | compare hop _ _ ihl ihr =>
    simp only [Walker.expr, hop, ihl, ihr, promote_eq, bind, Except.bind]
  | ifExp _ _ _ iht ihy ihn =>
    simp only [Walker.expr, iht, ihy, ihn, promote_eq, bind, Except.bind]
  | @math _ _ _ _ at_ hfn _ ih =>
    simp only [Walker.expr, hfn, ih]
    cases at_ <;> rfl
  | @toInt _ _ at_ _ ih | @toFloat _ _ at_ _ ih =>
    simp only [Walker.expr, ih]
    cases at_ <;> rfl

/-- The dtype that `expr` gives the expression. -/
def Walker.tag (w : Walker) (e : PyExpr F) : Option Dtype := (w.expr e).toOption.map Prod.snd

theorem Accepts.tag_eq {e : PyExpr F} (h : Accepts w e ir d) : w.tag e = some d := by
  simp [Walker.tag, h.expr_eq, Except.toOption]

end Expressions

/-! ## Statements -/

/-- The iterables of a `for` that are accepted, with the bounds. -/
inductive AcceptsRange (w : Walker) : PyExpr F → Expr F → Expr F → Prop
  | stop {stop : PyExpr F} {b : Expr F} {bt : Dtype} : Accepts w stop b bt →
      AcceptsRange w (.call (.name "range") [stop] []) (.constI64 0) (liftTo b bt .i64)
  | startStop {start stop : PyExpr F} {a b : Expr F} {at_ bt : Dtype} : Accepts w start a at_ →
      Accepts w stop b bt →
      AcceptsRange w (.call (.name "range") [start, stop] []) (liftTo a at_ .i64) (liftTo b bt .i64)

mutual

/-- The statements that the walker accepts, with their IR, whether control cannot pass them,
and the walker behind them. -/
inductive AcceptsStmt : Walker → PyStmt F → Stmt F → Bool → Walker → Prop
  | assign {w : Walker} {name : String} {value : PyExpr F} {ir : Expr F} {d : Dtype} :
      Accepts w value ir d →
      AcceptsStmt w (.assign [.name name] value) (.assign name d ir) false (w.bind name d)
  | augAssign {w : Walker} {name : String} {op : PyBinOp} {irOp : BinOp} {value : PyExpr F}
      {l r : Expr F} {lt rt : Dtype} : w.locals.lookup name = some (lt.join rt) →
      binOpMap op = some irOp → Accepts w (.name name) l lt → Accepts w value r rt →
      AcceptsStmt w (.augAssign (.name name) op value)
        (.assign name (lt.join rt)
          (.binOp irOp (liftTo l lt (lt.join rt)) (liftTo r rt (lt.join rt)))) false w
  | ret {w w' : Walker} {value : PyExpr F} {ir : Expr F} {d : Dtype} : Accepts w value ir d →
      w.recordReturn d = .ok w' → AcceptsStmt w (.ret (some value)) (.ret ir) true w'
  | ifStmt {w w₁ w₂ : Walker} {test : PyExpr F} {body orelse : List (PyStmt F)} {c : Expr F}
      {ct : Dtype} {thenIr elseIr : List (Stmt F)} {thenTerm elseTerm : Bool} : Accepts w test c ct →
      AcceptsBody w true body thenIr thenTerm w₁ → AcceptsBody w₁ true orelse elseIr elseTerm w₂ →
      AcceptsStmt w (.ifStmt test body orelse) (.ifElse c thenIr elseIr) (thenTerm && elseTerm) w₂
  | forStmt {w w' : Walker} {var : String} {iter : PyExpr F} {body : List (PyStmt F)}
      {start stop : Expr F} {inner : List (Stmt F)} {term : Bool} : AcceptsRange w iter start stop →
      AcceptsBody (w.bind var .i64) true body inner term w' →
      AcceptsStmt w (.forStmt (.name var) iter body []) (.forRange var start stop inner) false w'
  | whileStmt {w w' : Walker} {test : PyExpr F} {body : List (PyStmt F)} {c : Expr F} {ct : Dtype}
      {inner : List (Stmt F)} {term : Bool} : Accepts w test c ct →
      AcceptsBody w true body inner term w' →
      AcceptsStmt w (.whileStmt test body []) (.whileDo c inner) false w'
  | brk {w : Walker} : AcceptsStmt w .brk .brk true w
  | cont {w : Walker} : AcceptsStmt w .cont .cont true w

/-- The bodies; the flag says that a docstring may still come. -/
inductive AcceptsBody : Walker → Bool → List (PyStmt F) → List (Stmt F) → Bool → Walker → Prop
  | nil {w : Walker} {first : Bool} : AcceptsBody w first [] [] false w
  | docstring {w w' : Walker} {stmt : PyStmt F} {rest : List (PyStmt F)} {irs : List (Stmt F)}
      {term : Bool} : stmt.isDocstring = true → AcceptsBody w false rest irs term w' →
      AcceptsBody w true (stmt :: rest) irs term w'
  | last {w w' : Walker} {first : Bool} {stmt : PyStmt F} {rest : List (PyStmt F)} {ir : Stmt F} :
      AcceptsStmt w stmt ir true w' → AcceptsBody w first (stmt :: rest) [ir] true w'
  | cons {w w₁ w₂ : Walker} {first : Bool} {stmt : PyStmt F} {rest : List (PyStmt F)} {ir : Stmt F}
      {irs : List (Stmt F)} {term : Bool} : AcceptsStmt w stmt ir false w₁ →
      AcceptsBody w₁ false rest irs term w₂ → AcceptsBody w first (stmt :: rest) (ir :: irs) term w₂

end

section Statements
variable {w w' : Walker}

theorem Walker.acceptsRange {iter : PyExpr F} {start stop : Expr F}
    (h : w.rangeBounds iter = .ok (start, stop)) : AcceptsRange w iter start stop := by
  have hlift : ∀ {e : Expr F} {d : Dtype}, (if d = .f64 then castTo e .i64 else e) = liftTo e d .i64 := by
    intro e d
    cases d <;> rfl
  unfold Walker.rangeBounds at h
  split at h
  · simp only [Except.bind_eq_ok] at h
    obtain ⟨⟨b, bt⟩, hb, h⟩ := h
    cases h
    rw [hlift]
    exact .stop (accepts hb)
  · simp only [Except.bind_eq_ok] at h
    obtain ⟨⟨a, at_⟩, ha, ⟨b, bt⟩, hb, h⟩ := h
    cases h
    rw [hlift, hlift]
    exact .startStop (accepts ha) (accepts hb)
  · cases h

theorem Walker.acceptsAugAssign {name : String} {op : PyBinOp} {value : PyExpr F} {ir : Stmt F}
    (h : w.augAssign name op value = .ok ir) : AcceptsStmt w (.augAssign (.name name) op value) ir false w := by
  unfold Walker.augAssign at h
  split at h
  · cases h
  · rename_i d hd
    split at h
    · cases h
    · rename_i irOp hop
      simp only [Except.bind_eq_ok, promote_eq] at h
      obtain ⟨⟨l, lt⟩, hl, ⟨r, rt⟩, hr, h⟩ := h
      split at h
      · cases h
      · rename_i hjoin
        cases h
        obtain rfl : lt.join rt = d := by simpa using hjoin
        exact .augAssign hd hop (accepts hl) (accepts hr)

theorem Walker.stmt_assign_target {targets : List (PyExpr F)} {value : PyExpr F}
    {r : (Stmt F × Bool) × Walker} (h : w.stmt (.assign targets value) = .ok r) :
    ∃ name, targets = [.name name] := by
  match targets with
  | [.name name] => exact ⟨name, rfl⟩
  | target :: _ :: _ => cases target <;> cases h
  | [] | [.constant _] | [.unaryOp _ _] | [.binOp _ _ _] | [.compare _ _ _] | [.ifExp _ _ _]
  | [.call _ _ _] | [.attribute _ _] | [.other _] => cases h

theorem Walker.stmt_augAssign_target {target value : PyExpr F} {op : PyBinOp}
    {r : (Stmt F × Bool) × Walker} (h : w.stmt (.augAssign target op value) = .ok r) :
    ∃ name, target = .name name := by
  cases target with
  | name name => exact ⟨name, rfl⟩
  | _ => cases h

theorem Walker.stmt_for_target {target iter : PyExpr F} {body orelse : List (PyStmt F)}
    {r : (Stmt F × Bool) × Walker} (h : w.stmt (.forStmt target iter body orelse) = .ok r) :
    ∃ name, target = .name name ∧ orelse = [] := by
  cases target with
  | name name =>
    cases orelse with
    | nil => exact ⟨name, rfl, rfl⟩
    | cons => cases h
  | _ => cases h

mutual

theorem Walker.acceptsStmt : ∀ (stmt : PyStmt F) {w w' : Walker} {ir : Stmt F} {term : Bool},
    w.stmt stmt = .ok ((ir, term), w') → AcceptsStmt w stmt ir term w'
  | .assign targets value, w, w', ir, term, h => by
    obtain ⟨name, rfl⟩ := Walker.stmt_assign_target h
    simp only [Walker.stmt, Except.bind_eq_ok] at h
    obtain ⟨⟨value, d⟩, hvalue, h⟩ := h
    cases h
    exact .assign (accepts hvalue)
  | .augAssign target op value, w, w', ir, term, h => by
    obtain ⟨name, rfl⟩ := Walker.stmt_augAssign_target h
    simp only [Walker.stmt, Except.bind_eq_ok] at h
    obtain ⟨ir, hir, h⟩ := h
    cases h
    exact acceptsAugAssign hir
  | .ret value, w, w', ir, term, h => by
    cases value with
    | none => cases h
    | some value =>
      simp only [Walker.stmt, Except.bind_eq_ok] at h
      obtain ⟨⟨value, d⟩, hvalue, w₁, hret, h⟩ := h
      cases h
      exact .ret (accepts hvalue) hret
  | .ifStmt test body orelse, w, w', ir, term, h => by
    simp only [Walker.stmt, Except.bind_eq_ok] at h
    obtain ⟨⟨test, ct⟩, htest, ⟨⟨thenIr, t₁⟩, w₁⟩, hthen, ⟨⟨elseIr, t₂⟩, w₂⟩, helse, h⟩ := h
    cases h
    exact .ifStmt (accepts htest) (acceptsBody body hthen) (acceptsBody orelse helse)
  | .forStmt target iter body orelse, w, w', ir, term, h => by
    obtain ⟨var, rfl, rfl⟩ := Walker.stmt_for_target h
    simp only [Walker.stmt, Except.bind_eq_ok] at h
    obtain ⟨⟨start, stop⟩, hrange, ⟨⟨inner, t⟩, w₁⟩, hbody, h⟩ := h
    cases h
    exact .forStmt (acceptsRange hrange) (acceptsBody body hbody)
  | .whileStmt test body orelse, w, w', ir, term, h => by
    cases orelse with
    | cons => cases h
    | nil =>
      simp only [Walker.stmt, Except.bind_eq_ok] at h
      obtain ⟨⟨cond, ct⟩, htest, ⟨⟨inner, t⟩, w₁⟩, hbody, h⟩ := h
      cases h
      exact .whileStmt (accepts htest) (acceptsBody body hbody)
  | .brk, w, w', ir, term, h => by
    cases h
    exact .brk
  | .cont, w, w', ir, term, h => by
    cases h
    exact .cont
  | .exprStmt _, _, _, _, _, h | .other _, _, _, _, _, h => by cases h

theorem Walker.acceptsBody : ∀ (body : List (PyStmt F)) {w w' : Walker} {first : Bool}
    {irs : List (Stmt F)} {term : Bool}, w.stmts first body = .ok ((irs, term), w') →
    AcceptsBody w first body irs term w'
  | [], w, w', first, irs, term, h => by
    cases h
    exact .nil
  | stmt :: rest, w, w', first, irs, term, h => by
    simp only [Walker.stmts] at h
    split at h
    · rename_i hdoc
      obtain ⟨rfl, hdoc⟩ := Bool.and_eq_true_iff.mp hdoc
      exact .docstring hdoc (acceptsBody rest h)
    · simp only [Except.bind_eq_ok] at h
      obtain ⟨⟨⟨ir, t⟩, w₁⟩, hstmt, h⟩ := h
      split at h
      · rename_i ht
        cases h
        obtain rfl : t = true := ht
        exact .last (acceptsStmt stmt hstmt)
      · rename_i ht
        obtain rfl : t = false := by simpa using ht
        simp only [Except.bind_eq_ok] at h
        obtain ⟨⟨⟨irs, t₂⟩, w₂⟩, hrest, h⟩ := h
        cases h
        exact .cons (acceptsStmt stmt hstmt) (acceptsBody rest hrest)

end

end Statements

end Gilmap
