import Gilmap.Ir.Rules
import Gilmap.Jit.ForRange
import Gilmap.Jit.Outcomes

/-! # Loops that end

A body without `while` whose `for` loops leave their own counters alone comes to an end,
whatever the words are that it computes with. The counter climbs to the bound, so the
increment does not overflow.
-/
namespace Gilmap
open Library
variable {F : Type}

/-! ## Bounded bodies -/

mutual

/-- The loops of the statement count, and their bodies do not bind the counter. -/
def Stmt.bounded : Stmt F → Bool
  | .assign _ _ _ | .ret _ | .brk | .cont => true
  | .ifElse _ thenBody elseBody => bodyBounded thenBody && bodyBounded elseBody
  | .forRange var _ _ body => !(bodyTargets body).contains var && bodyBounded body
  | .whileDo _ _ => false

def bodyBounded : List (Stmt F) → Bool
  | [] => true
  | stmt :: rest => stmt.bounded && bodyBounded rest

end

mutual

/-- No `while`, and no `for` whose body binds the target. -/
def PyStmt.bounded : PyStmt F → Bool
  | .ifStmt _ body orelse => pyBodyBounded body && pyBodyBounded orelse
  | .forStmt (.name id) _ body orelse =>
    !(bodyBinds body).contains id && pyBodyBounded body && pyBodyBounded orelse
  | .forStmt _ _ body orelse => pyBodyBounded body && pyBodyBounded orelse
  | .whileStmt _ _ _ => false
  | _ => true

def pyBodyBounded : List (PyStmt F) → Bool
  | [] => true
  | stmt :: rest => stmt.bounded && pyBodyBounded rest

end

def FnNode.bounded : FnNode F → Bool
  | .functionDef _ body => pyBodyBounded body
  | .lambda _ _ => true

/-! ## Every run ends -/

namespace Sem
variable {S : Sem F} {ρ : Env F} {body rest : List (Stmt F)} {stmt : Stmt F} {var : String}
  {a b : BitVec 64} {o : Except Fault (Flow F)}

theorem enough_execBody {n : ℕ} (h : S.execBody n body ρ = some o) :
    Enough fun n _ => S.execBody n body ρ = some o :=
  ⟨n, fun _ hn _ _ => S.execBody_mono hn h⟩

/-- The counter below the bound is incremented without overflow. -/
theorem bump_below {ρ' : Env F} (ha : S.readLocal ρ var = .ok (.i64 a)) (hlt : a.toInt < b.toInt)
    (hsame : ρ' var = ρ var) :
    S.bump ρ' var = .ok (.i64 (a + 1)) ∧ (a + 1).toInt = a.toInt + 1 := by
  constructor
  · apply bump_i64
    rw [← ha]
    simp only [readLocal, hsame]
  · have hb := fits_toInt b
    have ha := fits_toInt a
    exact toInt_add_of_fits (by decide) rfl rfl ⟨by have := ha.1; omega, by have := hb.2; omega⟩

/-- A counted loop ends: by induction on what is left up to the bound. -/
theorem forLoop_ends (hvar : S.locals var = some .i64) (hty : S.bodyTyped body)
    (hfree : var ∉ bodyTargets body) (hbody : ∀ ρ, S.Held ρ → ∃ n o, S.execBody n body ρ = some o)
    (k : ℕ) (hρ : S.Held ρ) (ha : S.readLocal ρ var = .ok (.i64 a)) (hk : (b.toInt - a.toInt).toNat ≤ k) :
    Enough fun n j => ∃ o, S.forLoop var (.i64 b) (S.execBody n body) j ρ = some o := by
  induction k generalizing ρ a with
  | zero =>
    have hdone : S.below ρ var (.i64 b) = .ok false := by
      rw [below_i64 ha, decide_eq_false (by omega)]
    apply Enough.last
    intro n j
    exact ⟨.ok (.normal ρ), by simp only [forLoop, hdone]⟩
  | succ k ih =>
    by_cases hlt : a.toInt < b.toInt
    · have hbelow : S.below ρ var (.i64 b) = .ok true := by
        rw [below_i64 ha, decide_eq_true hlt]
      obtain ⟨m, o, ho⟩ := hbody ρ hρ
      cases o with
      | error f =>
        apply (enough_execBody ho).turn
        intro n j hturn
        exact ⟨.error f, by simp only [forLoop, hbelow, hturn, loopNext]⟩
      | ok flow =>
        rcases flow.again_or_leaves with ⟨ρ', hagain⟩ | ⟨out, hleaves⟩
        · have hsame : ρ' var = ρ var := by
            have hframe := S.frames_execBody m body ρ hfree flow ho
            rwa [Flow.env_of_again hagain] at hframe
          obtain ⟨hbump, hnext⟩ := bump_below ha hlt hsame
          have hρ' : S.Held ρ' := by
            have hsound := sound_execBody m body ρ hty hρ
            rw [ho] at hsound
            cases hsound with
            | normal hρ' | cont hρ' =>
              cases hagain
              exact hρ'
            | brk _ | ret _ _ => cases hagain
          have hrest := ih (hρ'.set hvar (v := .i64 (a + 1)) rfl) readLocal_set (by omega)
          apply ((enough_execBody ho).and hrest).turn
          rintro n j ⟨hturn, o, ho⟩
          exact ⟨o, by simp only [forLoop, hbelow, hturn, loopNext_again hagain, hbump, ho]⟩
        · apply (enough_execBody ho).turn
          intro n j hturn
          exact ⟨.ok out, by simp only [forLoop, hbelow, hturn, loopNext_leaves hleaves]⟩
    · exact ih hρ ha (by omega)

/-- A body ends when its first statement does, and the others behind it. -/
theorem execBody_cons_ends {n : ℕ} (h : S.execStmt n stmt ρ = some o)
    (hrest : ∀ ρ', o = .ok (.normal ρ') → ∃ m o, S.execBody m rest ρ' = some o) :
    ∃ n o, S.execBody n (stmt :: rest) ρ = some o := by
  cases o with
  | error f => exact ⟨n, .error f, by simp only [execBody, h, andThen]⟩
  | ok flow =>
    cases flow with
    | brk ρ' => exact ⟨n, .ok (.brk ρ'), by simp only [execBody, h, andThen]⟩
    | cont ρ' => exact ⟨n, .ok (.cont ρ'), by simp only [execBody, h, andThen]⟩
    | ret v ρ' => exact ⟨n, .ok (.ret v ρ'), by simp only [execBody, h, andThen]⟩
    | normal ρ' =>
      obtain ⟨m, o, ho⟩ := hrest ρ' rfl
      have hfirst := (S.execStmt_le (le_max_left n m) stmt ρ).of_some h
      have hthen := S.execBody_mono (le_max_right n m) ho
      exact ⟨max n m, o, by simp only [execBody, hfirst, andThen, hthen]⟩

mutual

theorem execStmt_ends : ∀ (stmt : Stmt F) (ρ : Env F), stmt.bounded = true → S.stmtTyped stmt →
    S.Held ρ → ∃ n o, S.execStmt n stmt ρ = some o
  | .assign name dtype value, ρ, _, _, _ => by
    cases h : S.eval ρ value dtype with
    | error f => exact ⟨0, .error f, by simp only [execStmt, h]⟩
    | ok v => exact ⟨0, .ok (.normal (ρ.set name v)), by simp only [execStmt, h]⟩
  | .ret value, ρ, _, _, _ => by
    cases h : S.eval ρ value S.outputDtype with
    | error f => exact ⟨0, .error f, by simp only [execStmt, h]⟩
    | ok v => exact ⟨0, .ok (.ret v ρ), by simp only [execStmt, h]⟩
  | .forRange var start stop body, ρ, hb, hty, hρ => by
    obtain ⟨hl, hstart, hstop, hbody⟩ := hty
    simp only [Stmt.bounded, Bool.and_eq_true, Bool.not_eq_true', List.contains_eq_mem,
      decide_eq_false_iff_not] at hb
    have hfrom := hstart.traps hρ
    have hto := hstop.traps hρ
    cases hx : S.eval ρ start .i64 with
    | error f => exact ⟨0, .error f, by simp only [execStmt, hx]⟩
    | ok x =>
      cases hy : S.eval ρ stop .i64 with
      | error f => exact ⟨0, .error f, by simp only [execStmt, hx, hy]⟩
      | ok y =>
        rw [hx] at hfrom
        rw [hy] at hto
        cases hfrom with
        | ok hx' =>
          cases hto with
          | ok hy' =>
            obtain ⟨a, rfl⟩ := eq_i64_of_ty hx'
            obtain ⟨b, rfl⟩ := eq_i64_of_ty hy'
            have hloop := forLoop_ends hl hbody hb.1 (fun ρ hρ => execBody_ends body ρ hb.2 hbody hρ)
              _ (hρ.set hl (v := .i64 a) rfl) readLocal_set (le_refl (b.toInt - a.toInt).toNat)
            obtain ⟨n, o, ho⟩ := hloop.exists_self
            exact ⟨n, o, by simp only [execStmt, hx, hy, ho]⟩
  | .ifElse test thenBody elseBody, ρ, hb, hty, hρ => by
    obtain ⟨htest, hthen, helse⟩ := hty
    simp only [Stmt.bounded, Bool.and_eq_true] at hb
    cases h : S.test ρ test with
    | error f => exact ⟨0, .error f, by simp only [execStmt, h]⟩
    | ok c =>
      cases c with
      | true =>
        obtain ⟨n, o, ho⟩ := execBody_ends thenBody ρ hb.1 hthen hρ
        exact ⟨n, o, by simp only [execStmt, h, ho]⟩
      | false =>
        obtain ⟨n, o, ho⟩ := execBody_ends elseBody ρ hb.2 helse hρ
        exact ⟨n, o, by simp only [execStmt, h, ho]⟩
  | .whileDo _ _, _, hb, _, _ => by cases hb
  | .brk, _, _, _, _ => ⟨0, _, rfl⟩
  | .cont, _, _, _, _ => ⟨0, _, rfl⟩

/-- **A bounded body ends**, wherever it begins. -/
theorem execBody_ends : ∀ (body : List (Stmt F)) (ρ : Env F), bodyBounded body = true → S.bodyTyped body →
    S.Held ρ → ∃ n o, S.execBody n body ρ = some o
  | [], _, _, _, _ => ⟨0, _, rfl⟩
  | stmt :: rest, ρ, hb, hty, hρ => by
    simp only [bodyBounded, Bool.and_eq_true] at hb
    obtain ⟨n, o, ho⟩ := execStmt_ends stmt ρ hb.1 hty.1 hρ
    apply execBody_cons_ends ho
    rintro ρ' rfl
    have hsound := sound_execStmt n stmt ρ hty.1 hρ
    rw [ho] at hsound
    cases hsound with
    | normal hρ' => exact execBody_ends rest ρ' hb.2 (hty.2 (terminates_of_normal ho)) hρ'

end

end Sem

/-! ## What the walker makes of a bounded function -/

mutual

/-- The statement binds no names but those of the source. -/
theorem AcceptsStmt.targets_subset {w w' : Walker} {stmt : PyStmt F} {ir : Stmt F} {term : Bool} :
    AcceptsStmt w stmt ir term w' → ir.targets ⊆ stmt.binds
  | .assign _ => by simp [Stmt.targets, PyStmt.binds]
  | .augAssign _ _ _ _ => by simp [Stmt.targets, PyStmt.binds]
  | .ret _ _ => List.nil_subset _
  | .ifStmt _ hthen helse => by
    simp only [Stmt.targets, PyStmt.binds]
    exact List.append_subset.mpr ⟨List.Subset.trans hthen.targets_subset (List.subset_append_left _ _),
      List.Subset.trans helse.targets_subset (List.subset_append_right _ _)⟩
  | .forStmt _ hbody => by
    simp only [Stmt.targets, PyStmt.binds]
    exact List.cons_subset_cons _ (List.Subset.trans hbody.targets_subset (List.subset_append_left _ _))
  | .whileStmt _ hbody => by
    simp only [Stmt.targets, PyStmt.binds]
    exact List.Subset.trans hbody.targets_subset (List.subset_append_left _ _)
  | .brk => List.nil_subset _
  | .cont => List.nil_subset _

theorem AcceptsBody.targets_subset {w w' : Walker} {first : Bool} {body : List (PyStmt F)}
    {irs : List (Stmt F)} {term : Bool} : AcceptsBody w first body irs term w' →
    bodyTargets irs ⊆ bodyBinds body
  | .nil => List.nil_subset _
  | .docstring _ hrest => by
    simp only [bodyBinds]
    exact List.Subset.trans hrest.targets_subset (List.subset_append_right _ _)
  | .last hstmt => by
    simp only [bodyTargets, bodyBinds, List.append_nil]
    exact List.Subset.trans hstmt.targets_subset (List.subset_append_left _ _)
  | .cons hstmt hrest => by
    simp only [bodyTargets, bodyBinds]
    exact List.append_subset.mpr ⟨List.Subset.trans hstmt.targets_subset (List.subset_append_left _ _),
      List.Subset.trans hrest.targets_subset (List.subset_append_right _ _)⟩

end

mutual

theorem AcceptsStmt.bounded {w w' : Walker} {stmt : PyStmt F} {ir : Stmt F} {term : Bool} :
    AcceptsStmt w stmt ir term w' → stmt.bounded = true → ir.bounded = true
  | .assign _, _ => rfl
  | .augAssign _ _ _ _, _ => rfl
  | .ret _ _, _ => rfl
  | .ifStmt _ hthen helse, hb => by
    simp only [PyStmt.bounded, Bool.and_eq_true] at hb
    simp only [Stmt.bounded, Bool.and_eq_true]
    exact ⟨hthen.bounded hb.1, helse.bounded hb.2⟩
  | .forStmt _ hbody, hb => by
    simp only [PyStmt.bounded, Bool.and_eq_true, Bool.not_eq_true', List.contains_eq_mem,
      decide_eq_false_iff_not] at hb
    simp only [Stmt.bounded, Bool.and_eq_true, Bool.not_eq_true', List.contains_eq_mem,
      decide_eq_false_iff_not]
    exact ⟨fun h => hb.1.1 (hbody.targets_subset h), hbody.bounded hb.1.2⟩
  | .whileStmt _ _, hb => by cases hb
  | .brk, _ => rfl
  | .cont, _ => rfl

theorem AcceptsBody.bounded {w w' : Walker} {first : Bool} {body : List (PyStmt F)}
    {irs : List (Stmt F)} {term : Bool} : AcceptsBody w first body irs term w' →
    pyBodyBounded body = true → bodyBounded irs = true
  | .nil, _ => rfl
  | .docstring _ hrest, hb => by
    simp only [pyBodyBounded, Bool.and_eq_true] at hb
    exact hrest.bounded hb.2
  | .last hstmt, hb => by
    simp only [pyBodyBounded, Bool.and_eq_true] at hb
    simp only [bodyBounded, Bool.and_true]
    exact hstmt.bounded hb.1
  | .cons hstmt hrest, hb => by
    simp only [pyBodyBounded, Bool.and_eq_true] at hb
    simp only [bodyBounded, Bool.and_eq_true]
    exact ⟨hstmt.bounded hb.1, hrest.bounded hb.2⟩

end

section Kernels
variable {fl : FloatOps F} {node : FnNode F} {k : Kernel F} {d : Dtype} {x : Val F}

theorem walkFunction_bounded (hwalk : walkFunction d node = some k) (hb : node.bounded = true) :
    bodyBounded k.body = true := by
  obtain ⟨param, w', hparams, hacc, rfl, hout⟩ := walkFunction_accepts hwalk
  refine hacc.bounded ?_
  cases node with
  | functionDef params body => exact hb
  | lambda params value => rfl

theorem Sem.resultOf_ne_diverge (S : Sem F) (o : Except Fault (Flow F)) : S.resultOf o ≠ .diverge := by
  intro h
  cases o with
  | error f => cases h
  | ok flow => cases flow <;> cases h

/-- A bounded body has no endless run. -/
theorem Kernel.Outcome.not_diverge (hb : bodyBounded k.body = true)
    (hty : (k.sem fl false x).bodyTyped k.body) (hx : x.ty = clType k.inputDtype) :
    ¬ k.Outcome fl x .diverge := by
  intro h
  cases h with
  | diverge hρ hd =>
    obtain ⟨n, o, ho⟩ := Sem.execBody_ends k.body _ hb hty (hρ.held fl hx)
    exact Sem.resultOf_ne_diverge _ o (Sem.Computes.unique (.ends ho rfl) hd)

end Kernels

end Gilmap
