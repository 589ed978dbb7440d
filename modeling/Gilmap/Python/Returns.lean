import Gilmap.Ir.Semantics
import Gilmap.Python.ForLoops
import Gilmap.Python.WalkerSpec

/-! # Every path of an accepted body returns

The walker's flag says that control cannot pass a statement. It is right about the IR, whose
runs then end in a `return`, and about Python, which never reaches what the walker drops.
-/
namespace Gilmap
variable {F : Type}

/-! ## Loops -/

mutual

/-- Every `break` and `continue` stands in a loop; the flag says that the statement does. -/
def PyStmt.breaksInLoops (inLoop : Bool) : PyStmt F → Bool
  | .brk | .cont => inLoop
  | .ifStmt _ body orelse => bodyBreaksInLoops inLoop body && bodyBreaksInLoops inLoop orelse
  | .forStmt _ _ body orelse | .whileStmt _ body orelse =>
    bodyBreaksInLoops true body && bodyBreaksInLoops inLoop orelse
  | .assign _ _ | .augAssign _ _ _ | .ret _ | .exprStmt _ | .other _ => true

def bodyBreaksInLoops (inLoop : Bool) : List (PyStmt F) → Bool
  | [] => true
  | stmt :: rest => stmt.breaksInLoops inLoop && bodyBreaksInLoops inLoop rest

end

/-- Control has not left the surrounding loop by `break` or `continue`. -/
def Flow.stays : Flow F → Prop
  | .normal _ | .ret _ _ => True
  | .brk _ | .cont _ => False

section Loops
variable {S : Sem F} {r : Res F} {again : Env F → Res F} {flow : Flow F}

theorem loopNext_stays (hagain : ∀ ρ flow, again ρ = some (.ok flow) → flow.stays)
    (h : loopNext r again = some (.ok flow)) : flow.stays := by
  unfold loopNext at h
  split at h
  · exact hagain _ _ h
  · exact hagain _ _ h
  · cases h
    trivial
  · cases h
    trivial
  · cases h
  · cases h

theorem forLoop_stays {var : String} {stop : Val F} {body : Env F → Res F} {n : ℕ} {ρ : Env F}
    (h : S.forLoop var stop body n ρ = some (.ok flow)) : flow.stays := by
  induction n generalizing ρ flow with
  | zero => cases h
  | succ n ih =>
    simp only [Sem.forLoop] at h
    split at h
    · cases h
    · cases h
      trivial
    · refine loopNext_stays (fun ρ' flow' h' => ?_) h
      split at h'
      · cases h'
      · exact ih h'

theorem whileLoop_stays {cond : Expr F} {body : Env F → Res F} {n : ℕ} {ρ : Env F}
    (h : S.whileLoop cond body n ρ = some (.ok flow)) : flow.stays := by
  induction n generalizing ρ flow with
  | zero => cases h
  | succ n ih =>
    simp only [Sem.whileLoop] at h
    split at h
    · cases h
    · cases h
      trivial
    · exact loopNext_stays (fun _ _ h' => ih h') h

theorem andThen_normal {k : Env F → Res F} {ρ' : Env F} (h : andThen r k = some (.ok (.normal ρ'))) :
    ∃ ρ, r = some (.ok (.normal ρ)) ∧ k ρ = some (.ok (.normal ρ')) := by
  unfold andThen at h
  split at h
  · exact ⟨_, rfl, h⟩
  · rename_i hne
    exact absurd h (hne _)

theorem andThen_stays {k : Env F → Res F} (hr : ∀ flow, r = some (.ok flow) → flow.stays)
    (hk : ∀ ρ flow, k ρ = some (.ok flow) → flow.stays) (h : andThen r k = some (.ok flow)) :
    flow.stays := by
  unfold andThen at h
  split at h
  · exact hk _ _ h
  · exact hr _ h

end Loops

/-! ## The IR -/

section Kernel
variable (S : Sem F) (fuel : ℕ)

mutual

/-- The IR of a statement that control cannot pass never ends normally. -/
theorem AcceptsStmt.not_normal : ∀ {w w' : Walker} {stmt : PyStmt F} {ir : Stmt F} {term : Bool},
    AcceptsStmt w stmt ir term w' → term = true → ∀ ρ ρ' : Env F,
    S.execStmt fuel ir ρ ≠ some (.ok (.normal ρ'))
  | _, _, _, _, _, .ret _ _, _, ρ, ρ' => by
    intro h
    simp only [Sem.execStmt] at h
    split at h <;> cases h
  | _, _, _, _, _, .ifStmt _ hbody horelse, hterm, ρ, ρ' => by
    obtain ⟨h₁, h₂⟩ := Bool.and_eq_true_iff.mp hterm
    intro h
    simp only [Sem.execStmt] at h
    split at h
    · cases h
    · exact hbody.not_normal h₁ ρ ρ' h
    · exact horelse.not_normal h₂ ρ ρ' h
  | _, _, _, _, _, .brk, _, _, _ | _, _, _, _, _, .cont, _, _, _ => by
    intro h
    cases h
  | _, _, _, _, _, .assign _, hterm, _, _ | _, _, _, _, _, .augAssign _ _ _ _, hterm, _, _
  | _, _, _, _, _, .forStmt _ _, hterm, _, _ | _, _, _, _, _, .whileStmt _ _, hterm, _, _ => by
    cases hterm

theorem AcceptsBody.not_normal : ∀ {w w' : Walker} {first : Bool} {body : List (PyStmt F)}
    {irs : List (Stmt F)} {term : Bool}, AcceptsBody w first body irs term w' → term = true →
    ∀ ρ ρ' : Env F, S.execBody fuel irs ρ ≠ some (.ok (.normal ρ'))
  | _, _, _, _, _, _, .nil, hterm, _, _ => by cases hterm
  | _, _, _, _, _, _, .docstring _ hrest, hterm, ρ, ρ' => hrest.not_normal hterm ρ ρ'
  | _, _, _, _, _, _, .last hstmt, _, ρ, ρ' => by
    intro h
    obtain ⟨ρ₁, h₁, -⟩ := andThen_normal h
    exact hstmt.not_normal rfl ρ ρ₁ h₁
  | _, _, _, _, _, _, .cons _ hrest, hterm, ρ, ρ' => by
    intro h
    obtain ⟨ρ₁, -, h₂⟩ := andThen_normal h
    exact hrest.not_normal hterm ρ₁ ρ' h₂

end

mutual

/-- Outside of loops, no run leaves by `break` or `continue`. -/
theorem AcceptsStmt.stays : ∀ {w w' : Walker} {stmt : PyStmt F} {ir : Stmt F} {term : Bool},
    AcceptsStmt w stmt ir term w' → stmt.breaksInLoops false = true → ∀ (ρ : Env F) (flow : Flow F),
    S.execStmt fuel ir ρ = some (.ok flow) → flow.stays
  | _, _, _, _, _, .assign _, _, ρ, flow, h | _, _, _, _, _, .augAssign _ _ _ _, _, ρ, flow, h
  | _, _, _, _, _, .ret _ _, _, ρ, flow, h => by
    simp only [Sem.execStmt] at h
    split at h <;> cases h
    trivial
  | _, _, _, _, _, .ifStmt _ hbody horelse, hloops, ρ, flow, h => by
    simp only [PyStmt.breaksInLoops, Bool.and_eq_true] at hloops
    simp only [Sem.execStmt] at h
    split at h
    · cases h
    · exact hbody.stays hloops.1 ρ flow h
    · exact horelse.stays hloops.2 ρ flow h
  | _, _, _, _, _, .forStmt _ _, _, ρ, flow, h => by
    simp only [Sem.execStmt] at h
    split at h
    · cases h
    · split at h
      · cases h
      · exact forLoop_stays h
  | _, _, _, _, _, .whileStmt _ _, _, ρ, flow, h => whileLoop_stays h
  | _, _, _, _, _, .brk, hloops, _, _, _ | _, _, _, _, _, .cont, hloops, _, _, _ => by cases hloops

theorem AcceptsBody.stays : ∀ {w w' : Walker} {first : Bool} {body : List (PyStmt F)}
    {irs : List (Stmt F)} {term : Bool}, AcceptsBody w first body irs term w' →
    bodyBreaksInLoops false body = true → ∀ (ρ : Env F) (flow : Flow F),
    S.execBody fuel irs ρ = some (.ok flow) → flow.stays
  | _, _, _, _, _, _, .nil, _, _, _, h => by
    cases h
    trivial
  | _, _, _, _, _, _, .docstring _ hrest, hloops, ρ, flow, h => by
    simp only [bodyBreaksInLoops, Bool.and_eq_true] at hloops
    exact hrest.stays hloops.2 ρ flow h
  | _, _, _, _, _, _, .last hstmt, hloops, ρ, flow, h => by
    simp only [bodyBreaksInLoops, Bool.and_eq_true] at hloops
    refine andThen_stays (hstmt.stays hloops.1 ρ) (fun ρ' flow' h' => ?_) h
    cases h'
    trivial
  | _, _, _, _, _, _, .cons hstmt hrest, hloops, ρ, flow, h => by
    simp only [bodyBreaksInLoops, Bool.and_eq_true] at hloops
    exact andThen_stays (hstmt.stays hloops.1 ρ) (hrest.stays hloops.2) h

end

/-- A run of an accepted body that ends has returned a value. -/
theorem AcceptsBody.returns {w w' : Walker} {first : Bool} {body : List (PyStmt F)}
    {irs : List (Stmt F)} (h : AcceptsBody w first body irs true w')
    (hloops : bodyBreaksInLoops false body = true) {ρ : Env F} {flow : Flow F}
    (hrun : S.execBody fuel irs ρ = some (.ok flow)) : ∃ v ρ', flow = .ret v ρ' := by
  have hstays := h.stays S fuel hloops ρ flow hrun
  cases flow with
  | normal ρ' => exact absurd hrun (h.not_normal S fuel rfl ρ ρ')
  | brk | cont => cases hstays
  | ret v ρ' => exact ⟨v, ρ', rfl⟩

end Kernel

/-! ## Python -/

/-- Where a statement stands in a body: it is the first one, stands further on, or in the
first one. -/
inductive StmtPos
  | here
  | next (p : StmtPos)
  | inBody (p : StmtPos)
  | inElse (p : StmtPos)

namespace PyFloats
variable (py : PyFloats F)

/-- From the turn for `i` in `fr`, a `for` over a range to `stop` begins its body in `fr'`. -/
inductive BeginsTurn (var : String) (body : List (PyStmt F)) (stop : ℤ) :
    ℤ → PyFrame F → PyFrame F → Prop
  | now {i : ℤ} {fr : PyFrame F} : i < stop → BeginsTurn var body stop i fr (fr.bind var (.int i))
  | later {i : ℤ} {n : ℕ} {fr fr₁ fr' : PyFrame F} {flow : PyFlow F} : i < stop →
      py.execBody n body (fr.bind var (.int i)) = some (.ok flow) → flow.again = some fr₁ →
      BeginsTurn var body stop (i + 1) fr₁ fr' → BeginsTurn var body stop i fr fr'

/-- From `fr`, a `while` begins its body in `fr'`. -/
inductive BeginsRound (test : PyExpr F) (body : List (PyStmt F)) : PyFrame F → PyFrame F → Prop
  | now {fr : PyFrame F} : (py.eval fr test >>= py.truthy) = .ok true → BeginsRound test body fr fr
  | later {n : ℕ} {fr fr₁ fr' : PyFrame F} {flow : PyFlow F} :
      (py.eval fr test >>= py.truthy) = .ok true → py.execBody n body fr = some (.ok flow) →
      flow.again = some fr₁ → BeginsRound test body fr₁ fr' → BeginsRound test body fr fr'

/-- Running the body from the frame reaches the statement. -/
inductive Reaches (py : PyFloats F) : List (PyStmt F) → PyFrame F → StmtPos → Prop
  | here {stmt : PyStmt F} {rest : List (PyStmt F)} {fr : PyFrame F} :
      Reaches py (stmt :: rest) fr .here
  | next {n : ℕ} {stmt : PyStmt F} {rest : List (PyStmt F)} {fr fr' : PyFrame F} {p : StmtPos} :
      py.execStmt n stmt fr = some (.ok (.normal fr')) → Reaches py rest fr' p →
      Reaches py (stmt :: rest) fr (.next p)
  | thenArm {test : PyExpr F} {body orelse rest : List (PyStmt F)} {fr : PyFrame F} {p : StmtPos} :
      (py.eval fr test >>= py.truthy) = .ok true → Reaches py body fr p →
      Reaches py (.ifStmt test body orelse :: rest) fr (.inBody p)
  | elseArm {test : PyExpr F} {body orelse rest : List (PyStmt F)} {fr : PyFrame F} {p : StmtPos} :
      (py.eval fr test >>= py.truthy) = .ok false → Reaches py orelse fr p →
      Reaches py (.ifStmt test body orelse :: rest) fr (.inElse p)
  | forTurn {var : String} {iter : PyExpr F} {body orelse rest : List (PyStmt F)}
      {fr fr' : PyFrame F} {start stop : ℤ} {p : StmtPos} : py.range fr iter = .ok (start, stop) →
      py.BeginsTurn var body stop start fr fr' → Reaches py body fr' p →
      Reaches py (.forStmt (.name var) iter body orelse :: rest) fr (.inBody p)
  | whileRound {test : PyExpr F} {body orelse rest : List (PyStmt F)} {fr fr' : PyFrame F}
      {p : StmtPos} : py.BeginsRound test body fr fr' → Reaches py body fr' p →
      Reaches py (.whileStmt test body orelse :: rest) fr (.inBody p)

end PyFloats

/-- The walker drops the statement: it stands behind one that control cannot pass. -/
inductive Drops : Walker → Bool → List (PyStmt F) → StmtPos → Prop
  | behind {w w' : Walker} {first : Bool} {stmt : PyStmt F} {rest : List (PyStmt F)} {ir : Stmt F}
      {p : StmtPos} : AcceptsStmt w stmt ir true w' → Drops w first (stmt :: rest) (.next p)
  | afterDocstring {w : Walker} {stmt : PyStmt F} {rest : List (PyStmt F)} {p : StmtPos} :
      stmt.isDocstring = true → Drops w false rest p → Drops w true (stmt :: rest) (.next p)
  | next {w w' : Walker} {first : Bool} {stmt : PyStmt F} {rest : List (PyStmt F)} {ir : Stmt F}
      {p : StmtPos} : AcceptsStmt w stmt ir false w' → Drops w' false rest p →
      Drops w first (stmt :: rest) (.next p)
  | thenArm {w : Walker} {first : Bool} {test : PyExpr F} {body orelse rest : List (PyStmt F)}
      {p : StmtPos} : Drops w true body p →
      Drops w first (.ifStmt test body orelse :: rest) (.inBody p)
  | elseArm {w w' : Walker} {first : Bool} {test : PyExpr F} {body orelse rest : List (PyStmt F)}
      {irs : List (Stmt F)} {term : Bool} {p : StmtPos} : AcceptsBody w true body irs term w' →
      Drops w' true orelse p → Drops w first (.ifStmt test body orelse :: rest) (.inElse p)
  | forBody {w : Walker} {first : Bool} {var : String} {iter : PyExpr F}
      {body orelse rest : List (PyStmt F)} {p : StmtPos} : Drops (w.bind var .i64) true body p →
      Drops w first (.forStmt (.name var) iter body orelse :: rest) (.inBody p)
  | whileBody {w : Walker} {first : Bool} {test : PyExpr F} {body orelse rest : List (PyStmt F)}
      {p : StmtPos} : Drops w true body p →
      Drops w first (.whileStmt test body orelse :: rest) (.inBody p)

section Python
variable (py : PyFloats F) (fuel : ℕ)

theorem PyRes.andThen_normal {r : PyRes F} {k : PyFrame F → PyRes F} {fr' : PyFrame F}
    (h : r.andThen k = some (.ok (.normal fr'))) :
    ∃ fr, r = some (.ok (.normal fr)) ∧ k fr = some (.ok (.normal fr')) := by
  unfold PyRes.andThen at h
  split at h
  · exact ⟨_, rfl, h⟩
  · rename_i hne
    exact absurd h (hne _)

mutual

/-- Python does not get behind a statement that the walker says control cannot pass. -/
theorem AcceptsStmt.py_not_normal : ∀ {w w' : Walker} {stmt : PyStmt F} {ir : Stmt F} {term : Bool},
    AcceptsStmt w stmt ir term w' → term = true → ∀ fr fr' : PyFrame F,
    py.execStmt fuel stmt fr ≠ some (.ok (.normal fr'))
  | _, _, _, _, _, .ret _ _, _, fr, fr' => by
    intro h
    simp only [PyFloats.execStmt] at h
    split at h <;> cases h
  | _, _, _, _, _, .ifStmt _ hbody horelse, hterm, fr, fr' => by
    obtain ⟨h₁, h₂⟩ := Bool.and_eq_true_iff.mp hterm
    intro h
    simp only [PyFloats.execStmt] at h
    split at h
    · cases h
    · exact hbody.py_not_normal h₁ fr fr' h
    · exact horelse.py_not_normal h₂ fr fr' h
  | _, _, _, _, _, .brk, _, _, _ | _, _, _, _, _, .cont, _, _, _ => by
    intro h
    cases h
  | _, _, _, _, _, .assign _, hterm, _, _ | _, _, _, _, _, .augAssign _ _ _ _, hterm, _, _
  | _, _, _, _, _, .forStmt _ _, hterm, _, _ | _, _, _, _, _, .whileStmt _ _, hterm, _, _ => by
    cases hterm

theorem AcceptsBody.py_not_normal : ∀ {w w' : Walker} {first : Bool} {body : List (PyStmt F)}
    {irs : List (Stmt F)} {term : Bool}, AcceptsBody w first body irs term w' → term = true →
    ∀ fr fr' : PyFrame F, py.execBody fuel body fr ≠ some (.ok (.normal fr'))
  | _, _, _, _, _, _, .nil, hterm, _, _ => by cases hterm
  | _, _, _, _, _, _, .docstring _ hrest, hterm, fr, fr' => by
    intro h
    obtain ⟨fr₁, -, h₂⟩ := PyRes.andThen_normal h
    exact hrest.py_not_normal hterm fr₁ fr' h₂
  | _, _, _, _, _, _, .last hstmt, _, fr, fr' => by
    intro h
    obtain ⟨fr₁, h₁, -⟩ := PyRes.andThen_normal h
    exact hstmt.py_not_normal rfl fr fr₁ h₁
  | _, _, _, _, _, _, .cons _ hrest, hterm, fr, fr' => by
    intro h
    obtain ⟨fr₁, -, h₂⟩ := PyRes.andThen_normal h
    exact hrest.py_not_normal hterm fr₁ fr' h₂

end

/-- What the walker drops is not reached. -/
theorem Drops.not_reached {w : Walker} {first : Bool} {body : List (PyStmt F)} {p : StmtPos}
    (h : Drops w first body p) (fr : PyFrame F) : ¬ py.Reaches body fr p := by
  induction h generalizing fr with
  | behind hstmt =>
    intro hreach
    cases hreach with
    | next hnormal _ => exact hstmt.py_not_normal py _ rfl _ _ hnormal
  | afterDocstring _ _ ih | next _ _ ih =>
    intro hreach
    cases hreach with
    | next _ hrest => exact ih _ hrest
  | thenArm _ ih =>
    intro hreach
    cases hreach with
    | thenArm _ hbody => exact ih _ hbody
  | elseArm _ _ ih =>
    intro hreach
    cases hreach with
    | elseArm _ hbody => exact ih _ hbody
  | forBody _ ih =>
    intro hreach
    cases hreach with
    | forTurn _ _ hbody => exact ih _ hbody
  | whileBody _ ih =>
    intro hreach
    cases hreach with
    | whileRound _ hbody => exact ih _ hbody

end Python

end Gilmap
