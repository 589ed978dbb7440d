import Gilmap.Ir.Assignment
import Gilmap.Jit.Compile

/-! # What lowering emits

Inversion of `lower_stmt`, one lemma for each compound statement, and from it the
bookkeeping facts that the simulation needs: block labels are fresh, variables and
locals only grow, a lowered expression evaluates to the meaning of the expression.
-/
namespace Gilmap
open Library
variable {F : Type}

theorem defVar_eq_ok {s : LowerState} {v : ℕ} {e : ClExpr F} {item : Item F}
    (h : defVar s v e = .ok item) : item = .defVar v e ∧ s.tyOf e = s.varTy v := by
  unfold defVar at h
  split at h
  · cases h; exact ⟨rfl, ‹_›⟩
  · cases h

/-! ## The code of the compound statements -/

def Item.label? : Item F → Option ℕ
  | .label b => some b
  | _ => none

def labelsOf (c : List (Item F)) : List ℕ := c.filterMap Item.label?

@[simp] theorem labelsOf_nil : labelsOf ([] : List (Item F)) = [] := rfl

@[simp] theorem labelsOf_append (c c' : List (Item F)) :
    labelsOf (c ++ c') = labelsOf c ++ labelsOf c' := List.filterMap_append

@[simp] theorem labelsOf_closeBlock (s : LowerState) (b : ℕ) :
    labelsOf (closeBlock s b : List (Item F)) = [] := by
  unfold closeBlock
  split <;> rfl

/-- A `for`: `nb` is its header block, `startK` and `stopK` hold the bounds. -/
def forCode (nb startK stopK counter : ℕ) (startV stopV : ClExpr F)
    (body close : List (Item F)) : List (Item F) :=
  [.letVal startK startV, .letVal stopK stopV, .defVar counter (.value startK), .jump nb,
    .label nb, .brif (.icmp .slt (.useVar counter) (.value stopK)) (nb + 1) (nb + 2),
    .label (nb + 3), .defVar counter (.intBin .iadd (.useVar counter) (.iconst 1)), .jump nb,
    .label (nb + 1)] ++ body ++ close ++ [.label (nb + 2)]

def whileCode (nb : ℕ) (condV : ClExpr F) (body close : List (Item F)) : List (Item F) :=
  [.jump nb, .label nb, .brif condV (nb + 1) (nb + 2), .label (nb + 1)] ++ body ++ close ++
    [.label (nb + 2)]

def ifCode (nb : ℕ) (cond : ClExpr F) (thenCode thenClose elseCode elseClose : List (Item F)) :
    List (Item F) :=
  [.brif cond nb (nb + 1), .label nb] ++ thenCode ++ thenClose ++ [.label (nb + 1)] ++ elseCode ++
    elseClose ++ [.label (nb + 2)]

@[simp] theorem labelsOf_forCode (nb startK stopK counter : ℕ) (startV stopV : ClExpr F)
    (body close : List (Item F)) :
    labelsOf (forCode nb startK stopK counter startV stopV body close) =
      [nb, nb + 3, nb + 1] ++ labelsOf body ++ labelsOf close ++ [nb + 2] := by
  simp only [forCode, labelsOf_append]
  rfl

@[simp] theorem labelsOf_whileCode (nb : ℕ) (condV : ClExpr F) (body close : List (Item F)) :
    labelsOf (whileCode nb condV body close) =
      [nb, nb + 1] ++ labelsOf body ++ labelsOf close ++ [nb + 2] := by
  simp only [whileCode, labelsOf_append]
  rfl

@[simp] theorem labelsOf_ifCode (nb : ℕ) (cond : ClExpr F)
    (thenCode thenClose elseCode elseClose : List (Item F)) :
    labelsOf (ifCode nb cond thenCode thenClose elseCode elseClose) =
      [nb] ++ labelsOf thenCode ++ labelsOf thenClose ++ [nb + 1] ++ labelsOf elseCode ++
        labelsOf elseClose ++ [nb + 2] := by
  simp only [ifCode, labelsOf_append]
  rfl

/-- Labels around code whose own labels are others. -/
theorem nodup_around {a b c : List ℕ} (hab : (a ++ b).Nodup) (hc : c.Nodup)
    (hd : ∀ x ∈ a ++ b, x ∉ c) : (a ++ c ++ b).Nodup := by
  have hperm : (a ++ b ++ c).Perm (a ++ c ++ b) := by
    simpa only [List.append_assoc] using List.perm_append_comm.append_left a
  exact hperm.nodup_iff.mp (hab.append hc hd)

section Inversion
variable {cx : LowerCx} {loops : List LoopFrame} {s s' : LowerState} {c : List (Item F)}

theorem lowerStmt_assign {name : String} {dtype : Dtype} {value : Expr F}
    (h : lowerStmt cx loops (.assign name dtype value) s = .ok (c, s')) :
    ∃ v var, lowerExpr cx s.locals value dtype = .ok v ∧ assignVar s name dtype = .ok (var, s') ∧
      c = [.defVar var v] ∧ s'.tyOf v = s'.varTy var := by
  simp only [lowerStmt, Except.bind_eq_ok] at h
  obtain ⟨v, hv, ⟨var, s₁⟩, ha, item, hd, he⟩ := h
  cases he
  obtain ⟨rfl, hty⟩ := defVar_eq_ok hd
  exact ⟨v, var, hv, ha, rfl, hty⟩

theorem lowerStmt_ret {value : Expr F}
    (h : lowerStmt cx loops (.ret value) s = .ok (c, s')) :
    ∃ v, lowerExpr cx s.locals value cx.outputDtype = .ok v ∧
      c = [.defVar cx.resultVar v, .jump cx.elemExit] ∧ s' = s.setTerminated true ∧
      s.tyOf v = s.varTy cx.resultVar := by
  simp only [lowerStmt, Except.bind_eq_ok] at h
  obtain ⟨v, hv, item, hd, he⟩ := h
  cases he
  obtain ⟨rfl, hty⟩ := defVar_eq_ok hd
  exact ⟨v, hv, rfl, rfl, hty⟩

/-- The state in which a `for` lowers its body. -/
def forBodyState (s : LowerState) (var : String) (startV stopV : ClExpr F) : ℕ × LowerState :=
  let p := counterVar ((s.newValue startV).2.newValue stopV).2 var
  (p.1, (p.2.createBlocks 4).setTerminated false)

theorem lowerStmt_forRange {var : String} {start stop : Expr F} {body : List (Stmt F)}
    (h : lowerStmt cx loops (.forRange var start stop body) s = .ok (c, s')) :
    ∃ startV stopV code s₃, lowerExpr cx s.locals start .i64 = .ok startV ∧
      lowerExpr cx s.locals stop .i64 = .ok stopV ∧
      (lowerBody cx (⟨s.nextBlock + 3, s.nextBlock + 2⟩ :: loops) body
        (forBodyState s var startV stopV).2 = .ok (code, s₃)) ∧
      s' = s₃.setTerminated false ∧
      c = forCode s.nextBlock s.valTys.length (s.valTys.length + 1)
        (forBodyState s var startV stopV).1 startV stopV code (closeBlock s₃ (s.nextBlock + 3)) := by
  simp only [lowerStmt, Except.bind_eq_ok] at h
  obtain ⟨startV, hstart, stopV, hstop, item, hd, ⟨code, s₃⟩, hbody, he⟩ := h
  obtain ⟨rfl, -⟩ := defVar_eq_ok hd
  cases he
  have hnb : (counterVar ((s.newValue startV).2.newValue stopV).2 var).2.nextBlock = s.nextBlock := by
    unfold counterVar
    split <;> rfl
  have hk : ((s.newValue startV).2.newValue stopV).1 = s.valTys.length + 1 := by
    simp [LowerState.newValue]
  refine ⟨startV, stopV, code, s₃, hstart, hstop, ?_, rfl, ?_⟩
  · rw [hnb] at hbody
    exact hbody
  · simp only [hnb, hk]
    rfl

theorem lowerStmt_whileDo {cond : Expr F} {body : List (Stmt F)}
    (h : lowerStmt cx loops (.whileDo cond body) s = .ok (c, s')) :
    ∃ condV code s₃, lowerExpr cx s.locals cond .i64 = .ok condV ∧
      lowerBody cx (⟨s.nextBlock, s.nextBlock + 2⟩ :: loops) body
        ((s.createBlocks 3).setTerminated false) = .ok (code, s₃) ∧
      s' = s₃.setTerminated false ∧
      c = whileCode s.nextBlock condV code (closeBlock s₃ s.nextBlock) := by
  simp only [lowerStmt, Except.bind_eq_ok] at h
  obtain ⟨condV, hcond, ⟨code, s₃⟩, hbody, he⟩ := h
  cases he
  exact ⟨condV, code, s₃, hcond, hbody, rfl, rfl⟩

theorem lowerStmt_ifElse {test : Expr F} {thenBody elseBody : List (Stmt F)}
    (h : lowerStmt cx loops (.ifElse test thenBody elseBody) s = .ok (c, s')) :
    ∃ cond thenCode s₁ elseCode s₂, lowerExpr cx s.locals test .i64 = .ok cond ∧
      lowerBody cx loops thenBody ((s.createBlocks 3).setTerminated false) = .ok (thenCode, s₁) ∧
      lowerBody cx loops elseBody (s₁.setTerminated false) = .ok (elseCode, s₂) ∧
      s' = s₂.setTerminated false ∧
      c = ifCode s.nextBlock cond thenCode (closeBlock s₁ (s.nextBlock + 2)) elseCode
        (closeBlock s₂ (s.nextBlock + 2)) := by
  simp only [lowerStmt, Except.bind_eq_ok] at h
  obtain ⟨cond, hcond, ⟨thenCode, s₁⟩, hthen, ⟨elseCode, s₂⟩, helse, he⟩ := h
  cases he
  exact ⟨cond, thenCode, s₁, elseCode, s₂, hcond, hthen, helse, rfl, rfl⟩

theorem lowerBody_cons {stmt : Stmt F} {rest : List (Stmt F)} (hs : s.terminated = false)
    (h : lowerBody cx loops (stmt :: rest) s = .ok (c, s')) :
    ∃ code s₁ code', lowerStmt cx loops stmt s = .ok (code, s₁) ∧
      lowerBody cx loops rest s₁ = .ok (code', s') ∧ c = code ++ code' := by
  simp only [lowerBody, hs, Bool.false_eq_true, if_false, Except.bind_eq_ok] at h
  obtain ⟨⟨code, s₁⟩, hstmt, ⟨code', s₂⟩, hrest, he⟩ := h
  cases he
  exact ⟨code, s₁, code', hstmt, hrest, rfl⟩

theorem lowerBody_terminated {body : List (Stmt F)} (hs : s.terminated = true)
    (h : lowerBody cx loops body s = .ok (c, s')) : c = [] ∧ s' = s := by
  cases body with
  | nil => cases h; exact ⟨rfl, rfl⟩
  | cons stmt rest =>
    simp only [lowerBody, hs, if_true] at h
    cases h
    exact ⟨rfl, rfl⟩

end Inversion

/-! ## Fresh labels, growing tables -/

/-- The variables of locals are declared after the two reserved ones, with the type of
their dtype, and no two names share one. -/
structure LocalsOk (s : LowerState) : Prop where
  reserved : 2 ≤ s.varTys.length
  bound : ∀ {name v dtype}, s.locals.lookup name = some (v, dtype) → 2 ≤ v ∧ v < s.varTys.length
  typed : ∀ {name v dtype}, s.locals.lookup name = some (v, dtype) → s.varTy v = clType dtype
  inj : ∀ {name name' v dtype dtype'}, s.locals.lookup name = some (v, dtype) →
    s.locals.lookup name' = some (v, dtype') → name = name'

/-- What emitting `c` does to the state. -/
structure Emits (s : LowerState) (c : List (Item F)) (s' : LowerState) : Prop where
  blocks : s.nextBlock ≤ s'.nextBlock
  vars : s.varTys <+: s'.varTys
  vals : s.valTys <+: s'.valTys
  locals : ∀ {name p}, s.locals.lookup name = some p → s'.locals.lookup name = some p
  fresh : ∀ b ∈ labelsOf c, s.nextBlock ≤ b ∧ b < s'.nextBlock
  nodup : (labelsOf c).Nodup
  localsOk : LocalsOk s → LocalsOk s'

section EmitsLemmas
variable {s s₁ s₂ : LowerState} {c c' : List (Item F)}

theorem Emits.refl (s : LowerState) : Emits (F := F) s [] s where
  blocks := le_rfl
  vars := List.prefix_rfl
  vals := List.prefix_rfl
  locals := id
  fresh := by simp
  nodup := by simp
  localsOk := id

theorem Emits.trans (h : Emits s c s₁) (h' : Emits s₁ c' s₂) : Emits s (c ++ c') s₂ where
  blocks := h.blocks.trans h'.blocks
  vars := h.vars.trans h'.vars
  vals := h.vals.trans h'.vals
  locals hp := h'.locals (h.locals hp)
  fresh := by
    intro b hb
    have hle := h.blocks
    have hle' := h'.blocks
    rcases List.mem_append.mp (labelsOf_append c c' ▸ hb) with hb | hb
    · have := h.fresh b hb; omega
    · have := h'.fresh b hb; omega
  nodup := by
    rw [labelsOf_append, List.nodup_append]
    refine ⟨h.nodup, h'.nodup, ?_⟩
    intro a ha b hb
    have := h.fresh a ha
    have := h'.fresh b hb
    omega
  localsOk hs := h'.localsOk (h.localsOk hs)

/-- Code without labels changes nothing that `Emits` records. -/
theorem Emits.plain (h : Emits (F := F) s [] s₁) (hc : labelsOf c = []) : Emits s c s₁ :=
  { h with
    fresh := by simp [hc]
    nodup := by simp [hc] }

theorem emits_setTerminated (s : LowerState) (b : Bool) :
    Emits (F := F) s [] (s.setTerminated b) where
  blocks := le_rfl
  vars := List.prefix_rfl
  vals := List.prefix_rfl
  locals := id
  fresh := by simp
  nodup := by simp
  localsOk h := ⟨h.reserved, h.bound, h.typed, h.inj⟩

theorem emits_createBlocks (s : LowerState) (n : ℕ) :
    Emits (F := F) s [] (s.createBlocks n) where
  blocks := Nat.le_add_right _ _
  vars := List.prefix_rfl
  vals := List.prefix_rfl
  locals := id
  fresh := by simp
  nodup := by simp
  localsOk h := ⟨h.reserved, h.bound, h.typed, h.inj⟩

theorem emits_newValue (s : LowerState) (e : ClExpr F) :
    Emits (F := F) s [] (s.newValue e).2 where
  blocks := le_rfl
  vars := List.prefix_rfl
  vals := List.prefix_append _ _
  locals := id
  fresh := by simp
  nodup := by simp
  localsOk h := ⟨h.reserved, h.bound, h.typed, h.inj⟩

theorem LocalsOk.declareVar (h : LocalsOk s) (name : String) (dtype : Dtype) :
    LocalsOk (s.declareVar name dtype).2 := by
  have hcases : ∀ {n : String} {v : ℕ} {d : Dtype},
      (s.declareVar name dtype).2.locals.lookup n = some (v, d) →
      (n = name ∧ v = s.varTys.length ∧ d = dtype) ∨ s.locals.lookup n = some (v, d) := by
    intro n v d hl
    simp only [LowerState.declareVar, List.lookup_cons] at hl
    by_cases he : n = name
    · simp only [he, beq_self_eq_true, Option.some.injEq, Prod.mk.injEq] at hl
      exact .inl ⟨he, hl.1.symm, hl.2.symm⟩
    · rw [beq_false_of_ne he] at hl
      exact .inr hl
  constructor
  · have := h.reserved
    simp [LowerState.declareVar]
    omega
  · intro n v d hl
    have := h.reserved
    simp only [LowerState.declareVar, List.length_append, List.length_singleton]
    rcases hcases hl with ⟨-, rfl, -⟩ | hl
    · omega
    · have := h.bound hl
      omega
  · intro n v d hl
    rcases hcases hl with ⟨-, rfl, rfl⟩ | hl
    · simp [LowerState.declareVar, LowerState.varTy]
    · have hb := (h.bound hl).2
      have ht := h.typed hl
      simp only [LowerState.declareVar, LowerState.varTy, List.getD_eq_getElem?_getD,
        List.getElem?_append_left hb] at ht ⊢
      exact ht
  · intro n n' v d d' hl hl'
    rcases hcases hl with ⟨hn, hv, -⟩ | hold <;> rcases hcases hl' with ⟨hn', hv', -⟩ | hold'
    · rw [hn, hn']
    · have := (h.bound hold').2
      omega
    · have := (h.bound hold).2
      omega
    · exact h.inj hold hold'

theorem emits_declareVar {name : String} (hn : s.locals.lookup name = none) (dtype : Dtype) :
    Emits (F := F) s [] (s.declareVar name dtype).2 where
  blocks := le_rfl
  vars := List.prefix_append _ _
  vals := List.prefix_rfl
  locals := by
    intro n p hp
    have hne : n ≠ name := by rintro rfl; simp [hn] at hp
    simpa [LowerState.declareVar, List.lookup_cons, beq_false_of_ne hne] using hp
  fresh := by simp
  nodup := by simp
  localsOk h := h.declareVar name dtype

theorem emits_assignVar {name : String} {dtype : Dtype} {var : ℕ}
    (h : assignVar s name dtype = .ok (var, s₁)) :
    Emits (F := F) s [] s₁ ∧ s₁.locals.lookup name = some (var, dtype) := by
  unfold assignVar at h
  cases hl : s.locals.lookup name with
  | none =>
    simp only [hl] at h
    cases h
    exact ⟨emits_declareVar hl dtype, by simp⟩
  | some p =>
    obtain ⟨existing, d⟩ := p
    simp only [hl] at h
    split at h
    · rename_i hd
      cases h
      exact ⟨.refl s, hd ▸ hl⟩
    · cases h

theorem emits_counterVar (s : LowerState) (name : String) :
    Emits (F := F) s [] (counterVar s name).2 ∧
      ∃ dtype, (counterVar s name).2.locals.lookup name = some ((counterVar s name).1, dtype) := by
  unfold counterVar
  cases hl : s.locals.lookup name with
  | none => exact ⟨emits_declareVar hl _, .i64, by simp [LowerState.declareVar]⟩
  | some p =>
    obtain ⟨existing, d⟩ := p
    exact ⟨.refl s, d, hl⟩

theorem emits_forBodyState (s : LowerState) (var : String) (startV stopV : ClExpr F) :
    Emits (F := F) s [] (forBodyState s var startV stopV).2 ∧
      (forBodyState s var startV stopV).2.nextBlock = s.nextBlock + 4 ∧
      (forBodyState s var startV stopV).2.valTys.length = s.valTys.length + 2 ∧
      ∃ dtype, (forBodyState s var startV stopV).2.locals.lookup var =
        some ((forBodyState s var startV stopV).1, dtype) := by
  have hvals := (emits_newValue (F := F) s startV).trans (emits_newValue (s.newValue startV).2 stopV)
  obtain ⟨hc, hl⟩ := emits_counterVar (F := F) ((s.newValue startV).2.newValue stopV).2 var
  have he := hvals.trans hc
  have hnb : (counterVar ((s.newValue startV).2.newValue stopV).2 var).2.nextBlock = s.nextBlock := by
    unfold counterVar
    split <;> rfl
  have hnv : (counterVar ((s.newValue startV).2.newValue stopV).2 var).2.valTys.length =
      s.valTys.length + 2 := by
    unfold counterVar
    split <;> simp [LowerState.newValue, LowerState.declareVar]
  refine ⟨?_, ?_, hnv, hl⟩
  · exact { he with
      blocks := by
        show s.nextBlock ≤ _ + 4
        omega
      fresh := by simp
      nodup := by simp
      localsOk := fun h => ⟨(he.localsOk h).reserved, (he.localsOk h).bound,
        (he.localsOk h).typed, (he.localsOk h).inj⟩ }
  · show _ + 4 = _
    rw [hnb]

end EmitsLemmas

mutual

theorem lowerStmt_emits {cx : LowerCx} : ∀ (stmt : Stmt F) {loops : List LoopFrame}
    {s s' : LowerState} {c : List (Item F)},
    lowerStmt cx loops stmt s = .ok (c, s') → Emits s c s'
  | .assign name dtype value, loops, s, s', c, h => by
    obtain ⟨v, var, -, ha, rfl, -⟩ := lowerStmt_assign h
    exact (emits_assignVar ha).1.plain rfl
  | .ret value, loops, s, s', c, h => by
    obtain ⟨v, -, rfl, rfl, -⟩ := lowerStmt_ret h
    exact (emits_setTerminated s true).plain rfl
  | .brk, loops, s, s', c, h => by
    cases loops with
    | nil => simp [lowerStmt] at h
    | cons frame rest =>
      simp only [lowerStmt] at h
      cases h
      exact (emits_setTerminated s true).plain rfl
  | .cont, loops, s, s', c, h => by
    cases loops with
    | nil => simp [lowerStmt] at h
    | cons frame rest =>
      simp only [lowerStmt] at h
      cases h
      exact (emits_setTerminated s true).plain rfl
  | .forRange var start stop body, loops, s, s', c, h => by
    obtain ⟨startV, stopV, code, s₃, -, -, hbody, rfl, rfl⟩ := lowerStmt_forRange h
    obtain ⟨hf, hnb, -, -⟩ := emits_forBodyState (F := F) s var startV stopV
    have hb := lowerBody_emits body hbody
    have he := (hf.trans hb).trans (emits_setTerminated (F := F) s₃ false)
    have hblocks := hb.blocks
    have hcode : ∀ b ∈ labelsOf code, s.nextBlock + 4 ≤ b ∧ b < s₃.nextBlock := by
      intro b hm
      have := hb.fresh b hm
      omega
    refine { he with fresh := ?_, nodup := ?_ }
    · intro b hm
      simp only [labelsOf_forCode, labelsOf_closeBlock, List.append_nil, List.mem_append,
        List.mem_cons, List.not_mem_nil, or_false] at hm
      show s.nextBlock ≤ b ∧ b < s₃.nextBlock
      rcases hm with (hm | hm) | hm
      · omega
      · have := hcode b hm
        omega
      · omega
    · simp only [labelsOf_forCode, labelsOf_closeBlock, List.append_nil]
      apply nodup_around (by simp) hb.nodup
      intro a ha ha'
      have := hcode a ha'
      simp at ha
      omega
  | .whileDo cond body, loops, s, s', c, h => by
    obtain ⟨condV, code, s₃, -, hbody, rfl, rfl⟩ := lowerStmt_whileDo h
    have hf := (emits_createBlocks (F := F) s 3).trans (emits_setTerminated (s.createBlocks 3) false)
    have hb := lowerBody_emits body hbody
    have he := (hf.trans hb).trans (emits_setTerminated (F := F) s₃ false)
    have hblocks := hb.blocks
    have hcode : ∀ b ∈ labelsOf code, s.nextBlock + 3 ≤ b ∧ b < s₃.nextBlock := hb.fresh
    have hmin : s.nextBlock + 3 ≤ s₃.nextBlock := hb.blocks
    refine { he with fresh := ?_, nodup := ?_ }
    · intro b hm
      simp only [labelsOf_whileCode, labelsOf_closeBlock, List.append_nil, List.mem_append,
        List.mem_cons, List.not_mem_nil, or_false] at hm
      show s.nextBlock ≤ b ∧ b < s₃.nextBlock
      rcases hm with (hm | hm) | hm
      · omega
      · have := hcode b hm
        omega
      · omega
    · simp only [labelsOf_whileCode, labelsOf_closeBlock, List.append_nil]
      apply nodup_around (by simp) hb.nodup
      intro a ha ha'
      have := hcode a ha'
      simp at ha
      omega
  | .ifElse test thenBody elseBody, loops, s, s', c, h => by
    obtain ⟨cond, thenCode, s₁, elseCode, s₂, -, hthen, helse, rfl, rfl⟩ := lowerStmt_ifElse h
    have hf := (emits_createBlocks (F := F) s 3).trans (emits_setTerminated (s.createBlocks 3) false)
    have ht := lowerBody_emits thenBody hthen
    have hm := emits_setTerminated (F := F) s₁ false
    have he := lowerBody_emits elseBody helse
    have hall := (((hf.trans ht).trans hm).trans he).trans (emits_setTerminated (F := F) s₂ false)
    have hmin : s.nextBlock + 3 ≤ s₁.nextBlock := ht.blocks
    have hmax : s₁.nextBlock ≤ s₂.nextBlock := he.blocks
    have hthenCode : ∀ b ∈ labelsOf thenCode, s.nextBlock + 3 ≤ b ∧ b < s₁.nextBlock := ht.fresh
    have helseCode : ∀ b ∈ labelsOf elseCode, s₁.nextBlock ≤ b ∧ b < s₂.nextBlock := he.fresh
    refine { hall with fresh := ?_, nodup := ?_ }
    · intro b hm
      simp only [labelsOf_ifCode, labelsOf_closeBlock, List.append_nil, List.mem_append,
        List.mem_cons, List.not_mem_nil, or_false] at hm
      show s.nextBlock ≤ b ∧ b < s₂.nextBlock
      rcases hm with (((hm | hm) | hm) | hm) | hm
      · omega
      · have := hthenCode b hm
        omega
      · omega
      · have := helseCode b hm
        omega
      · omega
    · simp only [labelsOf_ifCode, labelsOf_closeBlock, List.append_nil]
      refine nodup_around ?_ he.nodup fun a ha ha' => ?_
      · have h₁ := nodup_around (a := [s.nextBlock]) (b := [s.nextBlock + 1, s.nextBlock + 2])
          (by simp) ht.nodup fun a ha ha' => by
            have := hthenCode a ha'
            simp at ha
            omega
        simpa using h₁
      · have := helseCode a ha'
        simp only [List.mem_append, List.mem_singleton] at ha
        rcases ha with ((ha | ha) | ha) | ha
        · omega
        · have := hthenCode a ha
          omega
        · omega
        · omega

theorem lowerBody_emits {cx : LowerCx} : ∀ (body : List (Stmt F)) {loops : List LoopFrame}
    {s s' : LowerState} {c : List (Item F)},
    lowerBody cx loops body s = .ok (c, s') → Emits s c s'
  | [], loops, s, s', c, h => by
    cases h
    exact .refl s
  | stmt :: rest, loops, s, s', c, h => by
    cases hs : s.terminated with
    | true =>
      obtain ⟨rfl, rfl⟩ := lowerBody_terminated hs h
      exact .refl _
    | false =>
      obtain ⟨code, s₁, code', hstmt, hrest, rfl⟩ := lowerBody_cons hs h
      exact (lowerStmt_emits stmt hstmt).trans (lowerBody_emits rest hrest)

end

/-! ## The declared dtypes are those of the body -/

def Locals.dtypes (Γ : Locals) : List (String × Dtype) := Γ.map fun p => (p.1, p.2.2)

theorem Locals.lookup_dtypes (Γ : Locals) (name : String) : Γ.dtypes.lookup name = Γ.dtype name := by
  induction Γ with
  | nil => rfl
  | cons p Γ ih =>
    obtain ⟨n, v, d⟩ := p
    by_cases h : name = n
    · simp [dtypes, dtype, h]
    · simp only [dtypes, dtype, List.map_cons, List.lookup_cons, beq_false_of_ne h] at ih ⊢
      exact ih

theorem dtypes_declareVar {s : LowerState} {name : String} {dtype : Dtype}
    (h : s.locals.lookup name = none) :
    (s.declareVar name dtype).2.locals.dtypes = declare name dtype s.locals.dtypes := by
  have hl : s.locals.dtypes.lookup name = none := by
    rw [Locals.lookup_dtypes, Locals.dtype, h]
    rfl
  simp only [declare, hl]
  rfl

theorem dtypes_assignVar {s s' : LowerState} {name : String} {dtype : Dtype} {v : ℕ}
    (h : assignVar s name dtype = .ok (v, s')) :
    s'.locals.dtypes = declare name dtype s.locals.dtypes := by
  unfold assignVar at h
  cases hl : s.locals.lookup name with
  | none =>
    simp only [hl] at h
    cases h
    exact dtypes_declareVar hl
  | some p =>
    simp only [hl] at h
    split at h <;> cases h
    simp [declare, Locals.lookup_dtypes, Locals.dtype, hl]

theorem dtypes_counterVar (s : LowerState) (name : String) :
    (counterVar s name).2.locals.dtypes = declare name .i64 s.locals.dtypes := by
  unfold counterVar
  cases hl : s.locals.lookup name with
  | none => exact dtypes_declareVar hl
  | some p => simp [declare, Locals.lookup_dtypes, Locals.dtype, hl]

theorem assignVar_terminated {s s' : LowerState} {name : String} {dtype : Dtype} {v : ℕ}
    (h : assignVar s name dtype = .ok (v, s')) : s'.terminated = s.terminated := by
  unfold assignVar at h
  split at h
  · split at h <;> cases h
    rfl
  · cases h
    rfl

theorem lowerStmt_terminated {cx : LowerCx} {loops : List LoopFrame} {s s' : LowerState}
    {c : List (Item F)} {stmt : Stmt F} (hs : s.terminated = false)
    (h : lowerStmt cx loops stmt s = .ok (c, s')) : s'.terminated = stmt.terminates := by
  cases stmt with
  | assign name dtype value =>
    obtain ⟨v, var, -, ha, -, -⟩ := lowerStmt_assign h
    exact (assignVar_terminated ha).trans hs
  | forRange var start stop body =>
    obtain ⟨_, _, _, _, -, -, -, rfl, -⟩ := lowerStmt_forRange h
    rfl
  | whileDo cond body =>
    obtain ⟨_, _, _, -, -, rfl, -⟩ := lowerStmt_whileDo h
    rfl
  | ifElse test thenBody elseBody =>
    obtain ⟨_, _, _, _, _, -, -, -, rfl, -⟩ := lowerStmt_ifElse h
    rfl
  | ret value =>
    obtain ⟨_, -, -, rfl, -⟩ := lowerStmt_ret h
    rfl
  | brk | cont =>
    cases loops with
    | nil => simp [lowerStmt] at h
    | cons frame outer =>
      simp only [lowerStmt] at h
      cases h
      rfl

mutual

theorem lowerStmt_declares {cx : LowerCx} : ∀ (stmt : Stmt F) {loops : List LoopFrame}
    {s s' : LowerState} {c : List (Item F)}, lowerStmt cx loops stmt s = .ok (c, s') →
    s'.locals.dtypes = declareStmt stmt s.locals.dtypes
  | .assign name dtype value, loops, s, s', c, h => by
    obtain ⟨v, var, -, ha, -, -⟩ := lowerStmt_assign h
    exact dtypes_assignVar ha
  | .ret value, loops, s, s', c, h => by
    obtain ⟨_, -, -, rfl, -⟩ := lowerStmt_ret h
    rfl
  | .brk, loops, s, s', c, h | .cont, loops, s, s', c, h => by
    cases loops with
    | nil => simp [lowerStmt] at h
    | cons frame outer =>
      simp only [lowerStmt] at h
      cases h
      rfl
  | .forRange var start stop body, loops, s, s', c, h => by
    obtain ⟨startV, stopV, code, s₃, -, -, hbody, rfl, -⟩ := lowerStmt_forRange h
    have hb := lowerBody_declares body rfl hbody
    have hc : (forBodyState s var startV stopV).2.locals.dtypes = declare var .i64 s.locals.dtypes :=
      dtypes_counterVar _ var
    rw [hc] at hb
    exact hb
  | .whileDo cond body, loops, s, s', c, h => by
    obtain ⟨_, _, s₃, -, hbody, rfl, -⟩ := lowerStmt_whileDo h
    have hb := lowerBody_declares body rfl hbody
    exact hb
  | .ifElse test thenBody elseBody, loops, s, s', c, h => by
    obtain ⟨_, _, s₁, _, s₂, -, hthen, helse, rfl, -⟩ := lowerStmt_ifElse h
    have ht := lowerBody_declares thenBody rfl hthen
    have he := lowerBody_declares elseBody rfl helse
    rw [show (s₁.setTerminated false).locals = s₁.locals from rfl, ht] at he
    exact he

theorem lowerBody_declares {cx : LowerCx} : ∀ (body : List (Stmt F)) {loops : List LoopFrame}
    {s s' : LowerState} {c : List (Item F)}, s.terminated = false →
    lowerBody cx loops body s = .ok (c, s') →
    s'.locals.dtypes = declareBody body s.locals.dtypes
  | [], loops, s, s', c, hs, h => by
    cases h
    rfl
  | stmt :: rest, loops, s, s', c, hs, h => by
    obtain ⟨code, s₁, code', hstmt, hrest, -⟩ := lowerBody_cons hs h
    have hd := lowerStmt_declares stmt hstmt
    have ht := lowerStmt_terminated hs hstmt
    simp only [declareBody, ← ht]
    cases hs₁ : s₁.terminated with
    | true =>
      obtain ⟨-, rfl⟩ := lowerBody_terminated hs₁ hrest
      simpa using hd
    | false =>
      simp only [Bool.false_eq_true, if_false, ← hd]
      exact lowerBody_declares rest hs₁ hrest

end

/-! ## Lowered expressions -/

theorem inspectDtype_congr {inputDtype : Dtype} {f g : String → Option Dtype} (e : Expr F)
    (h : ∀ n ∈ e.names, f n = g n) : inspectDtype inputDtype f e = inspectDtype inputDtype g e := by
  induction e with
  | localVar name => exact h name (by simp [Expr.names])
  | binOp op l r ihl ihr | compare op l r ihl ihr =>
    simp only [Expr.names, List.mem_append] at h
    simp only [inspectDtype, ihl fun n hn => h n (.inl hn), ihr fun n hn => h n (.inr hn)]
  | unary op e ih =>
    simpa only [inspectDtype] using ih h
  | ifExpr c x y _ ihx ihy =>
    simp only [Expr.names, List.mem_append] at h
    simp only [inspectDtype, ihx fun n hn => h n (.inl (.inr hn)), ihy fun n hn => h n (.inr hn)]
  | param | constI64 | constF64 | constBool | mathCall | castToI64 | castToF64 => rfl

theorem guessCmpDtype_congr {inputDtype : Dtype} {f g : String → Option Dtype} {l r : Expr F}
    (h : ∀ n ∈ l.names ++ r.names, f n = g n) :
    guessCmpDtype inputDtype f l r = guessCmpDtype inputDtype g l r := by
  simp only [List.mem_append] at h
  simp only [guessCmpDtype, inspectDtype_congr l fun n hn => h n (.inl hn),
    inspectDtype_congr r fun n hn => h n (.inr hn)]

/-- An expression that is lowered reads declared locals only. -/
theorem lowerExpr_names {cx : LowerCx} {Γ : Locals} {e : Expr F} {d : Dtype} {c : ClExpr F}
    (h : lowerExpr cx Γ e d = .ok c) : ∀ n ∈ e.names, ∃ p, Γ.lookup n = some p := by
  induction e generalizing d c with
  | param | constI64 | constF64 | constBool => simp [Expr.names]
  | localVar name =>
    simp only [lowerExpr] at h
    cases hl : Γ.lookup name with
    | none => simp [hl] at h
    | some p =>
      intro n hn
      cases List.mem_singleton.mp hn
      exact ⟨p, hl⟩
  | unary op e ih =>
    simp only [lowerExpr, Except.bind_eq_ok] at h
    obtain ⟨v, hv, -⟩ := h
    exact ih hv
  | castToI64 e ih | castToF64 e ih =>
    simp only [lowerExpr, Except.bind_eq_ok] at h
    obtain ⟨v, hv, -⟩ := h
    exact ih hv
  | mathCall fn e ih =>
    simp only [lowerExpr] at h
    split at h
    · simp only [Except.bind_eq_ok] at h
      obtain ⟨v, hv, -⟩ := h
      exact ih hv
    · cases h
  | binOp op l r ihl ihr | compare op l r ihl ihr =>
    simp only [lowerExpr, Except.bind_eq_ok] at h
    obtain ⟨v, hv, w, hw, -⟩ := h
    intro n hn
    rcases List.mem_append.mp hn with hn | hn
    · exact ihl hv n hn
    · exact ihr hw n hn
  | ifExpr c x y ihc ihx ihy =>
    simp only [lowerExpr, Except.bind_eq_ok] at h
    obtain ⟨u, hu, v, hv, w, hw, -⟩ := h
    intro n hn
    simp only [Expr.names, List.mem_append] at hn
    rcases hn with (hn | hn) | hn
    · exact ihc hu n hn
    · exact ihx hv n hn
    · exact ihy hw n hn

/-- The dtype at which lowered operands are compared, by any table that agrees on the declared
locals. -/
theorem guessCmpDtype_lowered {cx : LowerCx} {Γ : Locals} {S : Sem F} (hin : S.inputDtype = cx.inputDtype)
    (hS : ∀ {name v d}, Γ.lookup name = some (v, d) → S.locals name = some d) {l r : Expr F}
    {d d' : Dtype} {cl cr : ClExpr F} (hl : lowerExpr cx Γ l d = .ok cl)
    (hr : lowerExpr cx Γ r d' = .ok cr) :
    guessCmpDtype cx.inputDtype Γ.dtype l r = guessCmpDtype S.inputDtype S.locals l r := by
  rw [hin]
  apply guessCmpDtype_congr
  intro n hn
  obtain ⟨⟨v, d⟩, hp⟩ : ∃ p, Γ.lookup n = some p := by
    rcases List.mem_append.mp hn with hn | hn
    · exact lowerExpr_names hl n hn
    · exact lowerExpr_names hr n hn
  simp [Locals.dtype, hp, hS hp]

theorem eval_lowerCoerce (fl : FloatOps F) (vars vals : ℕ → Val F) (e : ClExpr F)
    (actual expected : Dtype) :
    (lowerCoerce e actual expected).eval fl vars vals =
      e.eval fl vars vals >>= (coerceVal fl · actual expected) := by
  cases actual <;> cases expected <;> simp only [lowerCoerce, coerceVal, ClExpr.eval]
  · cases e.eval fl vars vals <;> rfl
  · cases e.eval fl vars vals <;> rfl

theorem eval_lowerBinOp (fl : FloatOps F) (vars vals : ℕ → Val F) {op : BinOp} {l r c : ClExpr F}
    {d : Dtype} (h : lowerBinOp op l r d = .ok c) :
    c.eval fl vars vals =
      (do evalBinOp fl op (← l.eval fl vars vals) (← r.eval fl vars vals) d) := by
  cases op <;> cases d <;> simp only [lowerBinOp] at h <;> cases h <;> rfl

theorem eval_lowerCmpOp (fl : FloatOps F) (vars vals : ℕ → Val F) (op : CmpOp) (l r : ClExpr F)
    (d : Dtype) : (lowerCmpOp op l r d).eval fl vars vals =
      (do evalCmpOp fl op (← l.eval fl vars vals) (← r.eval fl vars vals) d) := by
  cases d <;> rfl

theorem eval_lowerUnary (fl : FloatOps F) (vars vals : ℕ → Val F) (op : UnaryOp) (e : ClExpr F)
    (d : Dtype) :
    (lowerUnary op e d).eval fl vars vals = e.eval fl vars vals >>= (evalUnary fl op · d) := by
  cases op <;> cases d <;> simp only [lowerUnary, evalUnary, ClExpr.eval]
  all_goals cases e.eval fl vars vals <;> rfl

/-- A lowered expression has the meaning of the expression, faults included. -/
theorem eval_lowerExpr {cx : LowerCx} {Γ : Locals} {S : Sem F} {ρ : Env F} {vars vals : ℕ → Val F}
    (hin : S.inputDtype = cx.inputDtype) (hparam : vals cx.param = S.param)
    (hread : ∀ {name v d}, Γ.lookup name = some (v, d) →
      S.locals name = some d ∧ S.readLocal ρ name = .ok (vars v))
    {e : Expr F} {d : Dtype} {c : ClExpr F} (h : lowerExpr cx Γ e d = .ok c) :
    c.eval S.fl vars vals = S.eval ρ e d := by
  induction e generalizing d c with
  | param =>
    cases h
    rw [eval_lowerCoerce, Sem.eval, hin, ← hparam]
    rfl
  | localVar name =>
    simp only [lowerExpr] at h
    cases hl : Γ.lookup name with
    | none => simp [hl] at h
    | some p =>
      obtain ⟨v, dtype⟩ := p
      simp only [hl] at h
      cases h
      obtain ⟨hd, hr⟩ := hread hl
      rw [eval_lowerCoerce, Sem.eval, hd, hr]
      rfl
  | constI64 value | constF64 value =>
    cases h
    rw [eval_lowerCoerce, Sem.eval]
    rfl
  | constBool value =>
    cases h
    rfl
  | unary op e ih =>
    simp only [lowerExpr, Except.bind_eq_ok] at h
    obtain ⟨v, hv, he⟩ := h
    cases he
    rw [eval_lowerUnary, ih hv, Sem.eval]
  | binOp op l r ihl ihr =>
    simp only [lowerExpr, Except.bind_eq_ok] at h
    obtain ⟨v, hv, w, hw, hc⟩ := h
    rw [eval_lowerBinOp _ _ _ hc, ihl hv, ihr hw, Sem.eval]
  | compare op l r ihl ihr =>
    simp only [lowerExpr, Except.bind_eq_ok] at h
    obtain ⟨v, hv, w, hw, hc⟩ := h
    cases hc
    have hg := guessCmpDtype_lowered hin (fun hl => (hread hl).1) hv hw
    rw [eval_lowerCmpOp, ihl hv, ihr hw, Sem.eval, hg]
  | ifExpr c x y ihc ihx ihy =>
    simp only [lowerExpr, Except.bind_eq_ok] at h
    obtain ⟨u, hu, v, hv, w, hw, he⟩ := h
    cases he
    rw [ClExpr.eval, ihc hu, ihx hv, ihy hw, Sem.eval]
  | mathCall fn e ih =>
    simp only [lowerExpr] at h
    split at h
    · simp only [Except.bind_eq_ok] at h
      obtain ⟨v, hv, he⟩ := h
      cases he
      rw [ClExpr.eval, ih hv, Sem.eval]
    · cases h
  | castToI64 e ih | castToF64 e ih =>
    simp only [lowerExpr, Except.bind_eq_ok] at h
    obtain ⟨v, hv, he⟩ := h
    cases he
    rw [ClExpr.eval, ih hv, Sem.eval]

end Gilmap
