import Gilmap.Jit.ScalarCorrect
import Gilmap.Python.Returns
import Gilmap.Python.TryCompile

/-! # The default block of a scalar kernel

`compile_scalar` puts a default result behind a body whose last statement does not terminate.
The function without these items does the same until control comes to them, where it is stuck.
So a body that never ends normally does not let control come to them.
-/
namespace Gilmap
open Library
variable {F : Type}

/-! ## Code with a gap -/

theorem codeAfter_gap {gap : List (Item F)} (hgap : labelsOf gap = []) (r : List (Item F)) (b : ℕ) :
    ∀ a : List (Item F),
      (∃ q, codeAfter b (a ++ (gap ++ r)) = q ++ (gap ++ r) ∧ codeAfter b (a ++ r) = q ++ r) ∨
        (codeAfter b (a ++ (gap ++ r)) = codeAfter b r ∧ codeAfter b (a ++ r) = codeAfter b r)
  | [] => by
    refine .inr ⟨?_, rfl⟩
    induction gap with
    | nil => rfl
    | cons item gap ih =>
      cases item with
      | label => simp [labelsOf, Item.label?] at hgap
      | letVal | load | store | defVar | jump | brif | ret => exact ih hgap
  | item :: a => by
    have ih := codeAfter_gap hgap r b a
    cases item with
    | label b' =>
      simp only [List.cons_append, codeAfter]
      by_cases hb : b' = b
      · exact .inl ⟨a, by simp [hb], by simp [hb]⟩
      · simpa [hb] using ih
    | letVal | load | store | defVar | jump | brif | ret => exact ih

/-- Control in a function with a gap, and in the one without it. -/
inductive Gapped (gap r : List (Item F)) : Control F → Control F → Prop
  | before (q : List (Item F)) : Gapped gap r (.at (q ++ (gap ++ r))) (.at (q ++ r))
  | behind {q : List (Item F)} : q <:+ r → Gapped gap r (.at q) (.at q)
  | faulted (f : Fault) : Gapped gap r (.faulted f) (.faulted f)
  | returned : Gapped gap r .returned .returned

section Gap
variable {fl : FloatOps F} {a gap r : List (Item F)} {c₁ c₂ : Control F} {vars vals : ℕ → Val F}

theorem Gapped.codeAfter (hgap : labelsOf gap = []) (b : ℕ) :
    Gapped gap r (.at (Gilmap.codeAfter b (a ++ (gap ++ r)))) (.at (Gilmap.codeAfter b (a ++ r))) := by
  rcases codeAfter_gap hgap r b a with ⟨q, h₁, h₂⟩ | ⟨h₁, h₂⟩
  · rw [h₁, h₂]
    exact .before q
  · rw [h₁, h₂]
    exact .behind (codeAfter_suffix b r)

/-- At the gap, the function without it goes on behind it. -/
theorem Gapped.at_gap (hne : gap ≠ []) (h : Gapped gap r c₁ c₂) (hc : c₁ = .at (gap ++ r)) :
    c₂ = .at r := by
  cases h with
  | before q =>
    cases q with
    | nil => rfl
    | cons item q =>
      simp only [Control.at.injEq] at hc
      have hlen := congrArg List.length hc
      simp only [List.length_append, List.length_cons] at hlen
      omega
  | behind hq =>
    cases hc
    have hle := hq.length_le
    have hpos := List.length_pos_iff.mpr hne
    rw [List.length_append] at hle
    omega
  | faulted | returned => cases hc

/-- A silent operation before the gap is one of the function without it. -/
theorem Gapped.tau (hgap : labelsOf gap = []) (h : Gapped gap r c₁ c₂) (hne : c₁ ≠ .at (gap ++ r))
    {l : Local F} (hs : clifNext fl (a ++ (gap ++ r)) ⟨c₁, vars, vals⟩ = some (.tau l)) :
    ∃ c, Gapped gap r l.ctl c ∧
      clifNext fl (a ++ r) ⟨c₂, vars, vals⟩ = some (.tau ⟨c, l.vars, l.vals⟩) := by
  -- the next item, with what follows it in both functions
  have hitem : ∀ {item : Item F} {q₁ q₂ : List (Item F)}, c₁ = .at (item :: q₁) →
      c₂ = .at (item :: q₂) → Gapped gap r (.at q₁) (.at q₂) → ∃ c, Gapped gap r l.ctl c ∧
        clifNext fl (a ++ r) ⟨c₂, vars, vals⟩ = some (.tau ⟨c, l.vars, l.vals⟩) := by
    rintro item q₁ q₂ rfl rfl hq
    cases item with
    | label b => cases hs
    | letVal j e | defVar j e =>
      simp only [clifNext, Local.eval, Option.some.injEq, Op.tau.injEq] at hs ⊢
      cases he : e.eval fl vars vals with
      | error f =>
        rw [he] at hs
        cases hs
        exact ⟨_, .faulted f, rfl⟩
      | ok x =>
        rw [he] at hs
        cases hs
        exact ⟨_, hq, rfl⟩
    | load j ty addr =>
      have haddr : ∀ q, Local.evalAddr fl ⟨.at q, vars, vals⟩ addr =
          Local.evalAddr fl ⟨.at (.load j ty addr :: q₁), vars, vals⟩ addr := fun _ => rfl
      simp only [clifNext, haddr (.load j ty addr :: q₂)] at hs ⊢
      cases he : Local.evalAddr fl ⟨.at (.load j ty addr :: q₁), vars, vals⟩ addr with
      | error f =>
        rw [he] at hs
        cases hs
        exact ⟨_, .faulted f, rfl⟩
      | ok x =>
        rw [he] at hs
        cases hs
    | store e addr =>
      have haddr : ∀ q, Local.evalAddr fl ⟨.at q, vars, vals⟩ addr =
          Local.evalAddr fl ⟨.at (.store e addr :: q₁), vars, vals⟩ addr := fun _ => rfl
      simp only [clifNext, haddr (.store e addr :: q₂), Local.eval] at hs ⊢
      cases hx : e.eval fl vars vals with
      | error f =>
        rw [hx] at hs
        cases hs
        exact ⟨_, .faulted f, rfl⟩
      | ok x =>
        cases he : Local.evalAddr fl ⟨.at (.store e addr :: q₁), vars, vals⟩ addr with
        | error f =>
          rw [hx, he] at hs
          cases hs
          exact ⟨_, .faulted f, rfl⟩
        | ok p =>
          rw [hx, he] at hs
          cases hs
    | jump b =>
      cases hs
      exact ⟨_, Gapped.codeAfter hgap b, rfl⟩
    | brif c yes no =>
      simp only [clifNext, Local.eval, Option.some.injEq, Op.tau.injEq] at hs ⊢
      cases he : c.eval fl vars vals >>= Val.truthy with
      | error f =>
        rw [he] at hs
        cases hs
        exact ⟨_, .faulted f, rfl⟩
      | ok t =>
        rw [he] at hs
        cases hs
        exact ⟨_, Gapped.codeAfter hgap _, rfl⟩
    | ret =>
      cases hs
      exact ⟨_, .returned, rfl⟩
  cases h with
  | before q =>
    cases q with
    | nil => exact absurd rfl hne
    | cons item q => exact hitem rfl rfl (.before q)
  | behind hq =>
    rename_i q
    cases q with
    | nil => cases hs
    | cons item q => exact hitem rfl rfl (.behind ((List.suffix_cons item q).trans hq))
  | faulted | returned => cases hs

/-- An operation without accesses is silent. -/
theorem clifNext_of_silent {code : List (Item F)} {l : Local F} {m : Mem F} {c : Local F × Mem F}
    (h : soloStep (clifNext fl code) (l, m) = some ([], c)) :
    clifNext fl code l = some (.tau c.1) ∧ c.2 = m := by
  have hslots : ∀ ty p, slotsOf ty p ≠ [] := by
    intro ty p
    cases ty <;> simp [slotsOf]
  have hcells : ∀ p (x : Val F), unpackVal p x ≠ [] := by
    intro p x
    cases x <;> simp [unpackVal]
  unfold soloStep at h
  dsimp only at h
  split at h
  · cases h
  · rename_i hnext
    cases h
    exact ⟨hnext, rfl⟩
  · rename_i cells k hnext
    simp only [Option.some.injEq, Prod.mk.injEq, List.map_eq_nil_iff] at h
    obtain ⟨rfl, -⟩ := h
    unfold clifNext at hnext
    split at hnext <;> try cases hnext
    · split at hnext
      · cases hnext
      · simp [hslots] at hnext
    · split at hnext <;> cases hnext
  · rename_i cells l' hnext
    simp only [Option.some.injEq, Prod.mk.injEq, List.map_eq_nil_iff] at h
    obtain ⟨rfl, -⟩ := h
    unfold clifNext at hnext
    split at hnext <;> try cases hnext
    · split at hnext <;> cases hnext
    · split at hnext
      · cases hnext
      · cases hnext
      · simp [hcells] at hnext

/-- Where silent operations lead to the gap, the function without it gets stuck behind it. -/
theorem Silent.without_gap (hgap : labelsOf gap = []) (hne : gap ≠ []) {n : ℕ} {l l' : Local F}
    {m : Mem F} (h : Takes (clifNext fl (a ++ (gap ++ r))) n (l, m) [] (l', m))
    (hl' : l'.ctl = .at (gap ++ r)) (hc : Gapped gap r l.ctl c₂) :
    ∃ k l'', Silent fl (a ++ r) k ⟨c₂, l.vars, l.vals⟩ l'' ∧ l''.ctl = .at r := by
  induction n generalizing l c₂ with
  | zero =>
    cases h
    exact ⟨0, _, .refl _, hc.at_gap hne hl'⟩
  | succ n ih =>
    by_cases hat : l.ctl = .at (gap ++ r)
    · exact ⟨0, _, .refl _, hc.at_gap hne hat⟩
    generalize htr : ([] : List (Access Addr (Val F))) = tr at h
    cases h with
    | head hs hrest =>
      obtain ⟨rfl, rfl⟩ := List.append_eq_nil_iff.mp htr.symm
      obtain ⟨hnext, hm⟩ := clifNext_of_silent hs
      rename_i c'
      obtain ⟨l₁, m₁⟩ := c'
      obtain rfl : m₁ = m := hm
      obtain ⟨c, hc', hnext'⟩ := hc.tau hgap hat hnext
      obtain ⟨k, l'', hsilent, hend⟩ := ih hrest hc'
      exact ⟨1 + k, l'', (Silent.of_tau hnext').trans hsilent, hend⟩

end Gap

/-! ## The default block -/

section Default
variable {fl : FloatOps F} {code : List (Item F)} {cx : LowerCx} {S : Sem F} {Γ : Locals}

/-- Stuck is the end of a run. -/
theorem Silent.stuck_unique {n k : ℕ} {l l₁ l₂ : Local F} (h₁ : Silent fl code n l l₁)
    (hstuck : clifNext fl code l₁ = none) (h₂ : Silent fl code k l l₂) :
    k ≤ n ∧ Silent fl code (n - k) l₂ l₁ := by
  have hle : k ≤ n := (h₁ fun _ => .i64 0).le_of_halted hstuck (h₂ fun _ => .i64 0)
  refine ⟨hle, fun m => ?_⟩
  obtain ⟨rest, hrest, hrun⟩ := (h₁ m).split (h₂ m) hle
  obtain rfl : rest = [] := by simpa using hrest.symm
  exact hrun

/-- Silent operations do not lead past a store. -/
theorem Silent.from_store {n : ℕ} {l l' : Local F} {e addr : ClExpr F} {t : List (Item F)}
    (h : Silent fl code n l l') (hl : l.ctl = .at (.store e addr :: t)) :
    l' = l ∨ ∃ f, l'.ctl = .faulted f := by
  have hrun := h fun _ => .i64 0
  generalize htr : ([] : List (Access Addr (Val F))) = tr at hrun
  cases hrun with
  | refl => exact .inl rfl
  | @head _ _ c' _ as rest hs hrest =>
    obtain ⟨rfl, rfl⟩ := List.append_eq_nil_iff.mp htr.symm
    obtain ⟨hnext, -⟩ := clifNext_of_silent hs
    obtain ⟨l₁, m₁⟩ := c'
    have hfault : ∃ f, l₁.ctl = .faulted f := by
      simp only [clifNext, hl] at hnext
      split at hnext
      · cases hnext
        exact ⟨_, rfl⟩
      · cases hnext
        exact ⟨_, rfl⟩
      · cases hnext
    obtain ⟨f, hf⟩ := hfault
    obtain ⟨-, -, he⟩ := hrest.of_halted (clifNext_faulted hf)
    cases he
    exact .inr ⟨f, hf⟩

/-- A lowered body that never ends normally is never stuck behind its code. -/
theorem Lowered.not_stuck (hL : Lowered code cx S Γ) {body : List (Stmt F)} {s s' : LowerState}
    {c r : List (Item F)} (hbody : lowerBody cx [] body s = .ok (c, s'))
    (hΓ : ∀ {name p}, s'.locals.lookup name = some p → Γ.lookup name = some p)
    (hp : cx.param < s.valTys.length) (hcode : c ++ r <:+ code) (hs : s.terminated = false)
    {ρ : Env F} {l l' : Local F} (hl : l.ctl = .at (c ++ r)) (hm : Matches cx S Γ ρ l)
    (hret : ∀ fuel ρ', S.execBody fuel body ρ ≠ some (.ok (.normal ρ')))
    (hr : ∃ b t, r = .label b :: t)
    (hexit : ∃ t, codeAfter cx.elemExit code = .store (.useVar resultVar) (slotExpr 1) :: t)
    {n : ℕ} (hrun : Silent S.fl code n l l') : l'.ctl ≠ .at r := by
  intro hl'
  obtain ⟨b, t, rfl⟩ := hr
  have hstuck : clifNext S.fl code l' = none := by simp [clifNext, hl']
  have hfollows := lowerBody_follows hL (n + 1) body hbody hΓ hp hcode hs hl hm
  cases hres : S.execBody (n + 1) body ρ with
  | none =>
    rw [hres] at hfollows
    obtain ⟨j, l₁, hj, hrun₁⟩ := hfollows
    have := (hrun.stuck_unique hstuck hrun₁).1
    omega
  | some o =>
    rw [hres] at hfollows
    obtain ⟨j, l₁, hrun₁, -, hlands⟩ := hfollows
    obtain ⟨-, hrest⟩ := hrun.stuck_unique hstuck hrun₁
    cases o with
    | error f =>
      have hhalt : clifNext S.fl code l₁ = none := clifNext_faulted hlands
      obtain ⟨-, -, he⟩ := (hrest fun _ => .i64 0).of_halted hhalt
      cases he
      rw [hlands] at hl'
      cases hl'
    | ok flow =>
      cases flow with
      | normal ρ' => exact absurd hres (hret _ ρ')
      | brk | cont =>
        obtain ⟨-, _, _, hloops, -⟩ := hlands
        cases hloops
      | ret v ρ' =>
        obtain ⟨-, -, hctl⟩ := hlands
        obtain ⟨t', hexit⟩ := hexit
        rcases hrest.from_store (hctl.trans (congrArg Control.at hexit)) with rfl | ⟨f, hf⟩
        · rw [hctl, hexit] at hl'
          cases hl'
        · rw [hf] at hl'
          cases hl'

end Default

/-! ## Control in a whole kernel -/

/-- Where control can go from an item, unless that faults. -/
def Item.successors (code rest : List (Item F)) : Item F → List (Control F)
  | .jump b => [.at (codeAfter b code)]
  | .brif _ yes no => [.at (codeAfter yes code), .at (codeAfter no code)]
  | .ret => [.returned]
  | .label _ => []
  | .letVal _ _ | .load _ _ _ | .store _ _ | .defVar _ _ => [.at rest]

/-- The item ends a call or uses the memory. -/
def Item.accesses : Item F → Bool
  | .load _ _ _ | .store _ _ | .ret => true
  | .label _ | .letVal _ _ | .defVar _ _ | .jump _ | .brif _ _ _ => false

section Control
variable {fl : FloatOps F} {code : List (Item F)} {l l' : Local F} {m m' : Mem F}
  {as : List (Access Addr (Val F))}

theorem step_successor (hs : soloStep (clifNext fl code) (l, m) = some (as, l', m')) :
    ∃ item rest, l.ctl = .at (item :: rest) ∧
      ((∃ f, l'.ctl = .faulted f) ∨ l'.ctl ∈ item.successors code rest) ∧
      (item.accesses = false → as = [] ∧ clifNext fl code l = some (.tau l')) := by
  unfold soloStep at hs
  dsimp only at hs
  cases hctl : l.ctl with
  | returned => simp [clifNext, hctl] at hs
  | faulted f => simp [clifNext, hctl] at hs
  | «at» rest =>
    cases rest with
    | nil => simp [clifNext, hctl] at hs
    | cons item rest =>
      refine ⟨item, rest, rfl, ?_⟩
      cases item with
      | label b => simp [clifNext, hctl] at hs
      | ret | jump b =>
        simp only [clifNext, hctl] at hs ⊢
        cases hs
        exact ⟨.inr (by simp [Item.successors, Local.goto]), fun _ => ⟨rfl, rfl⟩⟩
      | brif c yes no =>
        simp only [clifNext, hctl] at hs ⊢
        cases hs
        refine ⟨?_, fun _ => ⟨rfl, rfl⟩⟩
        split
        · exact .inl ⟨_, rfl⟩
        · rename_i t _
          right
          cases t <;> simp [Item.successors, Local.goto]
      | letVal j e | defVar j e =>
        simp only [clifNext, hctl] at hs ⊢
        cases hs
        refine ⟨?_, fun _ => ⟨rfl, rfl⟩⟩
        split
        · exact .inl ⟨_, rfl⟩
        · exact .inr (by simp [Item.successors, Local.resume])
      | load j ty addr =>
        refine ⟨?_, fun h => by cases h⟩
        simp only [clifNext, hctl] at hs
        cases ha : l.evalAddr fl addr with
        | error f =>
          simp only [ha] at hs
          cases hs
          exact .inl ⟨_, rfl⟩
        | ok p =>
          simp only [ha] at hs
          cases hs
          split
          · exact .inl ⟨_, rfl⟩
          · exact .inr (by simp [Item.successors, Local.resume])
      | store e addr =>
        refine ⟨?_, fun h => by cases h⟩
        simp only [clifNext, hctl] at hs
        cases he : l.eval fl e with
        | error f =>
          simp only [he] at hs
          cases hs
          exact .inl ⟨_, rfl⟩
        | ok x =>
          cases ha : l.evalAddr fl addr with
          | error f =>
            simp only [he, ha] at hs
            cases hs
            exact .inl ⟨_, rfl⟩
          | ok p =>
            simp only [he, ha] at hs
            cases hs
            exact .inr (by simp [Item.successors, Local.resume])

/-- Control stays in the function. -/
theorem step_suffix (hs : soloStep (clifNext fl code) (l, m) = some (as, l', m'))
    (h : ∀ rest, l.ctl = .at rest → rest <:+ code) : ∀ rest, l'.ctl = .at rest → rest <:+ code := by
  intro rest hrest
  obtain ⟨item, t, hctl, hnext, -⟩ := step_successor hs
  have ht : t <:+ code := (List.suffix_cons item t).trans (h _ hctl)
  rcases hnext with ⟨f, hf⟩ | hmem
  · rw [hf] at hrest
    cases hrest
  · rw [hrest] at hmem
    cases item with
    | letVal | load | store | defVar =>
      obtain rfl : rest = t := by simpa [Item.successors] using hmem
      exact ht
    | jump b =>
      obtain rfl : rest = codeAfter b code := by simpa [Item.successors] using hmem
      exact codeAfter_suffix b code
    | brif c yes no =>
      have : rest = codeAfter yes code ∨ rest = codeAfter no code := by
        simpa [Item.successors] using hmem
      rcases this with rfl | rfl
      · exact codeAfter_suffix yes code
      · exact codeAfter_suffix no code
    | label | ret => simp [Item.successors] at hmem

end Control

theorem closeBlock_plain (s : LowerState) (target : ℕ) :
    ∀ item ∈ (closeBlock s target : List (Item F)), item.accesses = false := by
  unfold closeBlock
  split <;> simp [Item.accesses]

mutual

/-- The code of a body does not use the memory. -/
theorem lowerStmt_plain {cx : LowerCx} : ∀ (stmt : Stmt F) {loops : List LoopFrame}
    {s s' : LowerState} {c : List (Item F)}, lowerStmt cx loops stmt s = .ok (c, s') →
    ∀ item ∈ c, item.accesses = false
  | .assign name dtype value, _, _, _, _, h => by
    obtain ⟨_, _, -, -, rfl, -⟩ := lowerStmt_assign h
    simp [Item.accesses]
  | .ret value, _, _, _, _, h => by
    obtain ⟨_, -, rfl, -, -⟩ := lowerStmt_ret h
    simp [Item.accesses]
  | .forRange var start stop body, _, s, _, _, h => by
    obtain ⟨_, _, code, s₃, -, -, hbody, -, rfl⟩ := lowerStmt_forRange h
    have hplain := lowerBody_plain body hbody
    have hclose := closeBlock_plain (F := F) s₃ (s.nextBlock + 3)
    simpa [forCode, or_imp, forall_and, Item.accesses] using ⟨hplain, hclose⟩
  | .whileDo cond body, _, s, _, _, h => by
    obtain ⟨_, code, s₃, -, hbody, -, rfl⟩ := lowerStmt_whileDo h
    have hplain := lowerBody_plain body hbody
    have hclose := closeBlock_plain (F := F) s₃ s.nextBlock
    simpa [whileCode, or_imp, forall_and, Item.accesses] using ⟨hplain, hclose⟩
  | .ifElse test thenBody elseBody, _, s, _, _, h => by
    obtain ⟨_, thenCode, s₁, elseCode, s₂, -, hthen, helse, -, rfl⟩ := lowerStmt_ifElse h
    have hplain₁ := lowerBody_plain thenBody hthen
    have hplain₂ := lowerBody_plain elseBody helse
    have hclose₁ := closeBlock_plain (F := F) s₁ (s.nextBlock + 2)
    have hclose₂ := closeBlock_plain (F := F) s₂ (s.nextBlock + 2)
    simpa [ifCode, or_imp, forall_and, Item.accesses] using ⟨hplain₁, hclose₁, hplain₂, hclose₂⟩
  | .brk, loops, _, _, _, h | .cont, loops, _, _, _, h => by
    cases loops with
    | nil => simp [lowerStmt] at h
    | cons frame outer =>
      simp only [lowerStmt] at h
      cases h
      simp [Item.accesses]

theorem lowerBody_plain {cx : LowerCx} : ∀ (body : List (Stmt F)) {loops : List LoopFrame}
    {s s' : LowerState} {c : List (Item F)}, lowerBody cx loops body s = .ok (c, s') →
    ∀ item ∈ c, item.accesses = false
  | [], _, _, _, _, h => by
    cases h
    simp
  | stmt :: rest, loops, s, s', c, h => by
    cases hs : s.terminated with
    | true =>
      obtain ⟨rfl, -⟩ := lowerBody_terminated hs h
      simp
    | false =>
      obtain ⟨code, s₁, code', hstmt, hrest, rfl⟩ := lowerBody_cons hs h
      intro item hi
      rcases List.mem_append.mp hi with hi | hi
      · exact lowerStmt_plain stmt hstmt item hi
      · exact lowerBody_plain rest hrest item hi

end

/-! ## Scalar kernels -/

/-- Control between two elements. -/
inductive Outside (code : List (Item F)) : Control F → Prop
  | entry : Outside code (.at (codeAfter 0 code))
  | jump (rest : List (Item F)) : Outside code (.at (.jump 1 :: rest))
  | header : Outside code (.at (codeAfter 1 code))
  | load : Outside code (.at (codeAfter 2 code))
  | bump (rest : List (Item F)) : Outside code (.at (bumpIndex 1 :: .jump 1 :: rest))
  | leave : Outside code (.at (codeAfter 4 code))
  | returned : Outside code .returned
  | faulted (f : Fault) : Outside code (.faulted f)

section Scalar
variable {fl : FloatOps F} {k : Kernel F} {g : Compiled F} {body : List (Item F)} {s : LowerState}

/-- Since control came to the body for the last time, it has used no memory. -/
def Inside (fl : FloatOps F) (code entry : List (Item F)) (l : Local F) : Prop :=
  ∃ n l₀, l₀.ctl = .at entry ∧ Silent fl code n l₀ l

theorem suffix_append_cases {α : Type} {x : α} {t a b : List α} (h : x :: t <:+ a ++ b) :
    (∃ q, x :: q <:+ a ∧ t = q ++ b) ∨ x :: t <:+ b := by
  obtain ⟨p, hp⟩ := h
  rcases List.append_eq_append_iff.mp hp with ⟨c, rfl, hc⟩ | ⟨c, rfl, hc⟩
  · cases c with
    | nil =>
      rw [List.nil_append] at hc
      exact .inr ⟨[], hc⟩
    | cons y c =>
      cases hc
      exact .inl ⟨c, ⟨p, rfl⟩, rfl⟩
  · exact .inr ⟨c, hc.symm⟩

/-- The places of the memory accesses in a scalar kernel. -/
theorem scalar_access {item : Item F} {rest : List (Item F)} (hplain : ∀ i ∈ body, i.accesses = false)
    (hrest : item :: rest <:+
      scalarPrologue k ++ (body ++ (scalarFallback fl k s 3 ++ scalarEpilogue)))
    (hitem : item.accesses = true) :
    (∃ addr, item = .load 3 (clType k.inputDtype) addr ∧
      rest = body ++ (scalarFallback fl k s 3 ++ scalarEpilogue)) ∨
    (∃ e addr t, item = .store e addr ∧ rest = bumpIndex 1 :: .jump 1 :: t) ∨ item = .ret := by
  rcases suffix_append_cases hrest with ⟨q, hq, rfl⟩ | hrest
  · simp only [scalarPrologue, List.suffix_cons_iff, List.cons.injEq, List.suffix_nil] at hq
    rcases hq with ⟨rfl, rfl⟩ | ⟨rfl, rfl⟩ | ⟨rfl, rfl⟩ | ⟨rfl, rfl⟩ | ⟨rfl, rfl⟩ | ⟨rfl, rfl⟩ |
      ⟨rfl, rfl⟩ | hq
    · cases hitem
    · cases hitem
    · cases hitem
    · cases hitem
    · cases hitem
    · cases hitem
    · exact .inl ⟨_, rfl, rfl⟩
    · cases hq
  rcases suffix_append_cases hrest with ⟨q, hq, rfl⟩ | hrest
  · rw [hplain item (hq.subset List.mem_cons_self)] at hitem
    cases hitem
  rcases suffix_append_cases hrest with ⟨q, hq, rfl⟩ | hrest
  · have hmem : item ∈ scalarFallback fl k s 3 := hq.subset List.mem_cons_self
    unfold scalarFallback at hmem
    split at hmem
    · cases hmem
    · simp only [List.mem_cons, List.not_mem_nil, or_false] at hmem
      rcases hmem with rfl | rfl <;> cases hitem
  · simp only [scalarEpilogue, List.suffix_cons_iff, List.cons.injEq, List.suffix_nil] at hrest
    rcases hrest with ⟨rfl, rfl⟩ | ⟨rfl, rfl⟩ | ⟨rfl, rfl⟩ | ⟨rfl, rfl⟩ | ⟨rfl, rfl⟩ | ⟨rfl, rfl⟩ | h
    · cases hitem
    · exact .inr (.inl ⟨_, _, _, rfl, rfl⟩)
    · cases hitem
    · cases hitem
    · cases hitem
    · exact .inr (.inr rfl)
    · cases h

/-- What stands behind the body of a scalar kernel. -/
theorem scalarFallback_head (fl : FloatOps F) (k : Kernel F) (s : LowerState) :
    ∃ item t, scalarFallback fl k s 3 ++ scalarEpilogue = item :: t ∧
      (item = .label 3 ∨ ∃ e, item = .defVar resultVar e) := by
  unfold scalarFallback
  split
  · exact ⟨_, _, rfl, .inl rfl⟩
  · exact ⟨_, _, rfl, .inr ⟨_, rfl⟩⟩

theorem compileScalar_code (h : compileScalar fl k = .ok g)
    (hbody : lowerBody (scalarCx k) [] k.body (scalarStart k) = .ok (body, s)) :
    g.code = scalarPrologue k ++ (body ++ (scalarFallback fl k s 3 ++ scalarEpilogue)) := by
  simp only [compileScalar, hbody, bind, Except.bind] at h
  rw [(defineFunction_eq_ok h).1]
  simp

/-- Control in the body does not fall off its end. -/
theorem Inside.not_default (h : compileScalar fl k = .ok g)
    (hbody : lowerBody (scalarCx k) [] k.body (scalarStart k) = .ok (body, s))
    (hret : ∀ (x : Val F) fuel ρ ρ',
      (k.sem fl false x).execBody fuel k.body ρ ≠ some (.ok (.normal ρ')))
    {l : Local F} (hl : Inside fl g.code (body ++ (scalarFallback fl k s 3 ++ scalarEpilogue)) l) :
    l.ctl ≠ .at (scalarFallback fl k s 3 ++ scalarEpilogue) := by
  obtain ⟨-, -, body', s', E⟩ := compileScalar_loop h
  obtain ⟨rfl, rfl⟩ : body' = body ∧ s' = s := by
    have := E.lowered.symm.trans hbody
    simpa using this
  have hcode := compileScalar_code h hbody
  have hgap : labelsOf (scalarFallback fl k s' 3) = [] := by
    unfold scalarFallback
    split <;> rfl
  have hnodup : (labelsOf (scalarPrologue k ++ (body' ++ scalarEpilogue))).Nodup := by
    have := E.nodup
    rw [hcode] at this
    simpa only [labelsOf_append, hgap, List.nil_append] using this
  -- without the default block, control cannot get behind the body
  have hstuck : ∀ {n : ℕ} {l₀ l₁ : Local F}, l₀.ctl = .at (body' ++ scalarEpilogue) →
      Silent fl (scalarPrologue k ++ (body' ++ scalarEpilogue)) n l₀ l₁ →
      l₁.ctl ≠ .at scalarEpilogue := by
    intro n l₀ l₁ hl₀ hrun
    have hL : Lowered (scalarPrologue k ++ (body' ++ scalarEpilogue)) (scalarCx k)
        (k.sem fl false (l₀.vals (scalarCx k).param)) g.locals :=
      { E.surrounds (l₀.vals (scalarCx k).param) with nodup := hnodup }
    refine hL.not_stuck E.lowered (fun hn => E.locals ▸ hn) E.paramBound (List.suffix_append _ _)
      E.running hl₀ (leftovers_matches _ rfl) (hret _ · _) ⟨_, _, rfl⟩ ?_ hrun
    exact ⟨_, codeAfter_of_suffix ((List.suffix_append _ _).trans (List.suffix_append _ _)) hnodup⟩
  intro hl'
  obtain ⟨n, l₀, hl₀, hrun⟩ := hl
  rw [hcode] at hrun
  cases ht : s'.terminated with
  | true =>
    have hnil : scalarFallback fl k s' 3 = [] := by simp [scalarFallback, ht]
    rw [hnil, List.nil_append] at hrun hl₀ hl'
    exact hstuck hl₀ hrun hl'
  | false =>
    have hne : scalarFallback fl k s' 3 ≠ [] := by simp [scalarFallback, ht]
    rw [← List.append_assoc] at hrun
    have hgapped : Gapped (scalarFallback fl k s' 3) scalarEpilogue l₀.ctl
        (.at (body' ++ scalarEpilogue)) := by
      rw [hl₀]
      exact .before body'
    obtain ⟨j, l'', hrun', hend⟩ :=
      Silent.without_gap hgap hne (hrun fun _ => .i64 0) hl' hgapped
    rw [List.append_assoc] at hrun'
    exact hstuck rfl hrun' hend

/-- How control moves between the elements, and in and out of the code `entry` of an element. -/
structure ScalarLayout (code entry : List (Item F)) : Prop where
  start : ∃ r, codeAfter 0 code = .defVar iVar (.iconst 0) :: .jump 1 :: r
  header : ∃ c r, codeAfter 1 code = .brif c 2 4 :: r
  load : ∃ j ty addr, codeAfter 2 code = .load j ty addr :: entry
  leave : ∃ r, codeAfter 4 code = .ret :: r
  accesses : ∀ {item rest}, item :: rest <:+ code → item.accesses = true →
    (∃ j ty addr, item = .load j ty addr ∧ rest = entry) ∨
    (∃ e addr t, item = .store e addr ∧ rest = bumpIndex 1 :: .jump 1 :: t) ∨ item = .ret

theorem compileScalar_layout (h : compileScalar fl k = .ok g)
    (hbody : lowerBody (scalarCx k) [] k.body (scalarStart k) = .ok (body, s)) :
    ScalarLayout g.code (body ++ (scalarFallback fl k s 3 ++ scalarEpilogue)) := by
  obtain ⟨-, hentry, _, _, E⟩ := compileScalar_loop h
  have hcode := compileScalar_code h hbody
  obtain ⟨r₁, hhead⟩ := E.head
  have hsuffix : .label 2 :: .load 3 (clType k.inputDtype) (slotExpr 0) ::
      (body ++ (scalarFallback fl k s 3 ++ scalarEpilogue)) <:+ g.code := by
    rw [hcode]
    exact List.drop_suffix 5
      (scalarPrologue k ++ (body ++ (scalarFallback fl k s 3 ++ scalarEpilogue)))
  refine ⟨hentry, ⟨_, r₁, hhead⟩, ⟨_, _, _, codeAfter_of_suffix hsuffix E.nodup⟩, E.leave, ?_⟩
  intro item rest hrest hitem
  rcases scalar_access (lowerBody_plain k.body hbody) (hcode ▸ hrest) hitem with
    ⟨addr, rfl, rfl⟩ | hstore
  · exact .inl ⟨_, _, addr, rfl, rfl⟩
  · exact .inr hstore

theorem ScalarLayout.step {code entry : List (Item F)} (hL : ScalarLayout code entry)
    {l l' : Local F} {m m' : Mem F} {as : List (Access Addr (Val F))}
    (hs : soloStep (clifNext fl code) (l, m) = some (as, l', m'))
    (hsuffix : ∀ t, l.ctl = .at t → t <:+ code)
    (h : Inside fl code entry l ∨ Outside code l.ctl) :
    Inside fl code entry l' ∨ Outside code l'.ctl := by
  obtain ⟨item, rest, hctl, hnext, htau⟩ := step_successor hs
  rcases hnext with ⟨f, hf⟩ | hnext
  · exact .inr (hf ▸ .faulted f)
  rcases h with ⟨n, l₀, hl₀, hrun⟩ | hout
  · cases hacc : item.accesses with
    | false => exact .inl ⟨n + 1, l₀, hl₀, hrun.trans (.of_tau (htau hacc).2)⟩
    | true =>
      rcases hL.accesses (hsuffix _ hctl) hacc with ⟨j, ty, addr, rfl, rfl⟩ | ⟨e, addr, t, rfl, rfl⟩ | rfl
      · exact .inl ⟨0, l', by simpa [Item.successors] using hnext, .refl l'⟩
      · have hnext : l'.ctl = .at (bumpIndex 1 :: .jump 1 :: t) := by
          simpa [Item.successors] using hnext
        exact .inr (hnext ▸ .bump t)
      · have hnext : l'.ctl = .returned := by simpa [Item.successors] using hnext
        exact .inr (hnext ▸ .returned)
  · rw [hctl] at hout
    generalize hc : (Control.at (item :: rest) : Control F) = c at hout
    cases hout with
    | entry =>
      obtain ⟨r, hstart⟩ := hL.start
      rw [hstart] at hc
      cases hc
      have hnext : l'.ctl = .at (.jump 1 :: r) := by simpa [Item.successors] using hnext
      exact .inr (hnext ▸ .jump r)
    | jump r =>
      cases hc
      have hnext : l'.ctl = .at (codeAfter 1 code) := by simpa [Item.successors] using hnext
      exact .inr (hnext ▸ .header)
    | header =>
      obtain ⟨c, r, hheader⟩ := hL.header
      rw [hheader] at hc
      cases hc
      have hnext : l'.ctl = .at (codeAfter 2 code) ∨ l'.ctl = .at (codeAfter 4 code) := by
        simpa [Item.successors] using hnext
      rcases hnext with hnext | hnext
      · exact .inr (hnext ▸ .load)
      · exact .inr (hnext ▸ .leave)
    | load =>
      obtain ⟨j, ty, addr, hload⟩ := hL.load
      rw [hload] at hc
      cases hc
      exact .inl ⟨0, l', by simpa [Item.successors] using hnext, .refl l'⟩
    | bump r =>
      cases hc
      have hnext : l'.ctl = .at (.jump 1 :: r) := by
        simpa [Item.successors, bumpIndex] using hnext
      exact .inr (hnext ▸ .jump r)
    | leave =>
      obtain ⟨r, hleave⟩ := hL.leave
      rw [hleave] at hc
      cases hc
      have hnext : l'.ctl = .returned := by simpa [Item.successors] using hnext
      exact .inr (hnext ▸ .returned)
    | returned | faulted => cases hc

/-- Control is always in the code of an element or between two elements. -/
theorem ScalarLayout.takes {code entry : List (Item F)} (hL : ScalarLayout code entry)
    {c c' : Local F × Mem F} {n : ℕ} {tr : List (Access Addr (Val F))}
    (hrun : Takes (clifNext fl code) n c tr c') (hsuffix : ∀ t, c.1.ctl = .at t → t <:+ code)
    (h : Inside fl code entry c.1 ∨ Outside code c.1.ctl) :
    Inside fl code entry c'.1 ∨ Outside code c'.1.ctl := by
  induction hrun with
  | refl => exact h
  | head hs _ ih => exact ih (step_suffix hs hsuffix) (hL.step hs hsuffix h)

/-- The default result stands in the code of the element. -/
theorem ScalarLayout.default_inside {code entry : List (Item F)} (hL : ScalarLayout code entry)
    (fl : FloatOps F) (k : Kernel F) (s : LowerState) :
    ¬ Outside code (.at (scalarFallback fl k s 3 ++ scalarEpilogue)) := by
  obtain ⟨item, t, hX, hitem⟩ := scalarFallback_head fl k s
  obtain ⟨_, hstart⟩ := hL.start
  obtain ⟨_, _, hheader⟩ := hL.header
  obtain ⟨_, _, _, hload⟩ := hL.load
  obtain ⟨_, hleave⟩ := hL.leave
  have hne : ∀ {x : Item F} {q : List (Item F)}, x ≠ .label 3 → (∀ e, x ≠ .defVar resultVar e) →
      Control.at (item :: t) ≠ .at (x :: q) := by
    rintro x q h₁ h₂ he
    cases he
    rcases hitem with rfl | ⟨e, rfl⟩
    · exact h₁ rfl
    · exact h₂ e rfl
  intro hout
  rw [hX] at hout
  generalize hc : (Control.at (item :: t) : Control F) = c at hout
  cases hout with
  | entry => exact hne (by simp) (by simp [iVar, resultVar]) (hstart ▸ hc)
  | header => exact hne (by simp) (by simp) (hheader ▸ hc)
  | load => exact hne (by simp) (by simp) (hload ▸ hc)
  | leave => exact hne (by simp) (by simp) (hleave ▸ hc)
  | jump => exact hne (by simp) (by simp) hc
  | bump => exact hne (by simp [bumpIndex]) (by simp [bumpIndex, iVar, resultVar]) hc
  | returned | faulted => cases hc

/-- A scalar kernel whose body never ends normally does not let control come to the default
result, nor to the end of the body. -/
theorem default_unreached (h : compileScalar fl k = .ok g)
    (hbody : lowerBody (scalarCx k) [] k.body (scalarStart k) = .ok (body, s))
    (hret : ∀ (x : Val F) fuel ρ ρ',
      (k.sem fl false x).execBody fuel k.body ρ ≠ some (.ok (.normal ρ')))
    {inPtr outPtr len : Addr} {n : ℕ} {tr : List (Access Addr (Val F))} {l : Local F} {m m' : Mem F}
    (hrun : Takes (clifNext fl g.code) n (g.enter fl inPtr outPtr len, m) tr (l, m')) :
    l.ctl ≠ .at (scalarFallback fl k s 3 ++ scalarEpilogue) := by
  have hL := compileScalar_layout h hbody
  intro hl
  have hentry : ∀ t, (g.enter fl inPtr outPtr len).ctl = .at t → t <:+ g.code := by
    intro t ht
    cases ht
    exact codeAfter_suffix 0 g.code
  rcases hL.takes hrun hentry (.inr .entry) with hin | hout
  · exact hin.not_default h hbody hret hl
  · rw [hl] at hout
    exact hL.default_inside fl k s hout

end Scalar

/-! ## Every path returns -/

/-- Every path of the body, of its IR and of its scalar code returns. -/
structure AllPathsReturn (w : Walker) (body : List (PyStmt F)) (irs : List (Stmt F)) : Prop where
  /-- A run of the IR that ends has carried out a `return`. -/
  ir : ∀ (S : Sem F) (fuel : ℕ) (ρ : Env F) (flow : Flow F),
    S.execBody fuel irs ρ = some (.ok flow) → ∃ v ρ', flow = .ret v ρ'
  /-- Control does not come to what stands behind the code of the body. -/
  code : ∀ (fl : FloatOps F) (k : Kernel F) (g : Compiled F) (c : List (Item F)) (s : LowerState),
    k.body = irs → compileScalar fl k = .ok g →
    lowerBody (scalarCx k) [] k.body (scalarStart k) = .ok (c, s) →
    ∀ (inPtr outPtr len : Addr) (m m' : Mem F) (n : ℕ) (tr : List (Access Addr (Val F)))
      (l : Local F), Takes (clifNext fl g.code) n (g.enter fl inPtr outPtr len, m) tr (l, m') →
      l.ctl ≠ .at (scalarFallback fl k s 3 ++ scalarEpilogue)
  /-- Python does not reach what the walker drops. -/
  python : ∀ (py : PyFloats F) (fr : PyFrame F) (p : StmtPos), Drops w true body p →
    ¬ py.Reaches body fr p

/-- **Every path returns** in a body of which the walker reports that it terminates. -/
theorem accepted_body_returns {w w' : Walker} {body : List (PyStmt F)} {irs : List (Stmt F)}
    (h : w.stmts true body = .ok ((irs, true), w')) (hloops : bodyBreaksInLoops false body = true) :
    AllPathsReturn w body irs where
  ir S fuel ρ flow hrun := (Walker.acceptsBody body h).returns S fuel hloops hrun
  code fl k g c s hk hg hbody inPtr outPtr len m m' n tr l hrun := by
    subst hk
    refine default_unreached hg hbody (fun x fuel ρ ρ' => ?_) hrun
    exact (Walker.acceptsBody body h).not_normal _ fuel rfl ρ ρ'
  python py fr p hp := hp.not_reached py fr

/-- `if x > 0: return x; x = 1` `else: return 0`, and a `return` behind it. -/
def positivePart : List (PyStmt (BitVec 64)) :=
  [.ifStmt (.compare (.name "x") [.gt] [.constant (.int 0)])
      [.ret (some (.name "x")), .assign [.name "x"] (.constant (.int 1))]
      [.ret (some (.constant (.int 0)))],
    .ret (some (.constant (.int 5)))]

theorem positivePart_returns : AllPathsReturn (.init "x" .i64) positivePart
    [.ifElse (.compare .gt .param (.constI64 0)) [.ret .param] [.ret (.constI64 0)]] := by
  have haccepted : (Walker.init "x" .i64).stmts true positivePart =
      .ok (([.ifElse (.compare .gt .param (.constI64 0)) [.ret .param] [.ret (.constI64 0)]],
        true), ⟨"x", .i64, [], some .i64⟩) := rfl
  exact accepted_body_returns haccepted rfl

end Gilmap
