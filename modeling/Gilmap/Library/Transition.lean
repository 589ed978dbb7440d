import Mathlib.Tactic

/-! # Runs of labelled transition systems

A system is an executable partial step function. A run may be required to take only steps
that meet a condition on the state before them and the action.
-/
namespace Gilmap.Library

variable {σ α : Type*}

/-- `as` leads from `init` to `s` by steps that meet `ok`. -/
inductive Run (step : σ → α → Option σ) (ok : σ → α → Prop) (init : σ) : List α → σ → Prop
  | start : Run step ok init [] init
  | snoc {as : List α} {s s' : σ} {a : α} :
      Run step ok init as s → ok s a → step s a = some s' → Run step ok init (as ++ [a]) s'

/-- Some run ends in `s`. -/
def Reachable (step : σ → α → Option σ) (init s : σ) : Prop :=
  ∃ as, Run step (fun _ _ => True) init as s

section Runs
variable {step : σ → α → Option σ} {ok ok' : σ → α → Prop} {init s s' : σ} {as bs : List α} {a : α}

theorem Run.mono (h : Run step ok init as s) (hok : ∀ s a, ok s a → ok' s a) :
    Run step ok' init as s := by
  induction h with
  | start => exact .start
  | snoc _ ha hs ih => exact ih.snoc (hok _ _ ha) hs

theorem Run.reachable (h : Run step ok init as s) : Reachable step init s :=
  ⟨as, h.mono fun _ _ _ => trivial⟩

theorem Reachable.refl : Reachable step init init := ⟨[], .start⟩

theorem Reachable.snoc (h : Reachable step init s) (hs : step s a = some s') :
    Reachable step init s' := by
  obtain ⟨as, h⟩ := h
  exact ⟨as ++ [a], h.snoc trivial hs⟩

theorem Reachable.trans {t : σ} (h : Reachable step init s) (h' : Reachable step s t) :
    Reachable step init t := by
  obtain ⟨bs, hbs⟩ := h'
  induction hbs with
  | start => exact h
  | snoc _ _ hs ih => exact ih.snoc hs

/-- What holds at first and is kept by every allowed step holds after every run. -/
theorem Run.invariant {I : σ → Prop} (h : Run step ok init as s) (hinit : I init)
    (hstep : ∀ {s s' a}, I s → ok s a → step s a = some s' → I s') : I s := by
  induction h with
  | start => exact hinit
  | snoc _ ha hs ih => exact hstep ih ha hs

theorem Reachable.invariant {I : σ → Prop} (h : Reachable step init s) (hinit : I init)
    (hstep : ∀ {s s' a}, I s → step s a = some s' → I s') : I s := by
  obtain ⟨as, h⟩ := h
  exact h.invariant hinit fun hI _ hs => hstep hI hs

/-- What holds of the empty run and is kept by every step, with the actions so far. -/
theorem Run.induction {I : List α → σ → Prop} (h : Run step ok init as s) (hinit : I [] init)
    (hstep : ∀ {as s s' a}, Run step ok init as s → I as s → ok s a → step s a = some s' →
      I (as ++ [a]) s') : I as s := by
  induction h with
  | start => exact hinit
  | snoc hrun ha hs ih => exact hstep hrun ih ha hs

/-- A run of a finer system, seen through `view`, is a run of a coarser one: every step is one
of the coarser system or is not seen at all. -/
theorem Run.refines {τ β : Type*} {step' : τ → β → Option τ} {ok' : τ → β → Prop} {view : σ → τ}
    {I : σ → Prop} (h : Run step ok init as s) (hinit : I init)
    (hinv : ∀ {s s' a}, I s → ok s a → step s a = some s' → I s')
    (hstep : ∀ {s s' a}, I s → ok s a → step s a = some s' →
      view s' = view s ∨ ∃ b, ok' (view s) b ∧ step' (view s) b = some (view s')) :
    ∃ bs, Run step' ok' (view init) bs (view s) := by
  induction h with
  | start => exact ⟨[], .start⟩
  | snoc hrun ha hs ih =>
    obtain ⟨bs, hbs⟩ := ih
    rcases hstep (hrun.invariant hinit hinv) ha hs with hsame | ⟨b, hb, hview⟩
    · exact ⟨bs, hsame ▸ hbs⟩
    · exact ⟨bs ++ [b], hbs.snoc hb hview⟩

/-- Carry out the actions, checking the condition at each. -/
def exec (step : σ → α → Option σ) (ok : σ → α → Prop) [∀ s a, Decidable (ok s a)] (s : σ) :
    List α → Option σ
  | [] => some s
  | a :: as => if ok s a then (step s a).bind (exec step ok · as) else none

theorem Run.append_exec [∀ s a, Decidable (ok s a)] (h : Run step ok init as s)
    (hs : exec step ok s bs = some s') : Run step ok init (as ++ bs) s' := by
  induction bs generalizing as s with
  | nil =>
    cases hs
    simpa using h
  | cons b bs ih =>
    simp only [exec] at hs
    split at hs
    · obtain ⟨t, hstep, hrest⟩ := Option.bind_eq_some_iff.mp hs
      simpa using ih (h.snoc ‹_› hstep) hrest
    · cases hs

theorem run_of_exec [∀ s a, Decidable (ok s a)] (h : exec step ok init as = some s) :
    Run step ok init as s := by
  simpa using Run.start.append_exec h

end Runs

end Gilmap.Library
