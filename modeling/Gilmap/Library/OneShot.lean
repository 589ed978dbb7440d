import Mathlib.Tactic

/-! # One-shot cells

A mutex and a condition variable around an optional value. One thread stores a value and
notifies, another one waits until there is a value and takes it out. Falling asleep gives the
mutex back in the same step, and a sleeper may wake up for no reason. To the two threads the
cell is a slot that is filled once.
-/
namespace Gilmap.Library

/-- Where the thread that stores is. -/
inductive Storer
  | outside
  | holding
  | stored
  | notified
  | done
  deriving DecidableEq, Repr

/-- Where the thread that waits is. -/
inductive Waiter
  | outside
  | checking
  | asleep
  | woken
  | taken
  | done
  deriving DecidableEq, Repr

structure OneShot (V : Type*) where
  value : Option V
  locked : Bool
  storer : Storer
  waiter : Waiter

inductive OneShotAction (V : Type*)
  | lock
  | store (v : V)
  | notify
  | unlock
  | enter
  | sleep
  | take
  | leave
  /-- a wake-up without a notification -/
  | wake

namespace Storer

/-- The mutex is the storer's. -/
def holds : Storer → Bool
  | .holding | .stored | .notified => true
  | .outside | .done => false

def hasStored : Storer → Bool
  | .stored | .notified | .done => true
  | .outside | .holding => false

def work : Storer → ℕ
  | .outside => 6
  | .holding => 5
  | .stored => 4
  | .notified => 1
  | .done => 0

end Storer

namespace Waiter

/-- The mutex is the waiter's. -/
def holds : Waiter → Bool
  | .checking | .taken => true
  | .outside | .asleep | .woken | .done => false

def hasTaken : Waiter → Bool
  | .taken | .done => true
  | .outside | .checking | .asleep | .woken => false

/-- The effect of `notify_one` on the only thread that may be asleep. -/
def notified : Waiter → Waiter
  | .asleep => .woken
  | w => w

def work : Waiter → ℕ
  | .outside | .woken => 4
  | .checking => 3
  | .asleep => 2
  | .taken => 1
  | .done => 0

end Waiter

namespace OneShot
variable {V : Type*} {c c' : OneShot V} {a : OneShotAction V} {d : Option V}

def fresh : OneShot V := ⟨none, false, .outside, .outside⟩

def step (c : OneShot V) : OneShotAction V → Option (OneShot V)
  | .lock =>
    if c.storer = .outside ∧ c.locked = false then some { c with locked := true, storer := .holding }
    else none
  | .store v =>
    if c.storer = .holding then some { c with value := some v, storer := .stored } else none
  | .notify =>
    if c.storer = .stored then some { c with storer := .notified, waiter := c.waiter.notified }
    else none
  | .unlock =>
    if c.storer = .notified then some { c with locked := false, storer := .done } else none
  | .enter =>
    if (c.waiter = .outside ∨ c.waiter = .woken) ∧ c.locked = false then
      some { c with locked := true, waiter := .checking }
    else none
  | .sleep =>
    if c.waiter = .checking ∧ c.value.isNone then some { c with locked := false, waiter := .asleep }
    else none
  | .take =>
    if c.waiter = .checking ∧ c.value.isSome then some { c with value := none, waiter := .taken }
    else none
  | .leave =>
    if c.waiter = .taken then some { c with locked := false, waiter := .done } else none
  | .wake => if c.waiter = .asleep then some { c with waiter := .woken } else none

/-- A bound on the steps that are left, without wake-ups. -/
def work (c : OneShot V) : ℕ := c.storer.work + c.waiter.work

end OneShot

/-- A step of the thread that stores. -/
def OneShotAction.isStorer {V : Type*} : OneShotAction V → Bool
  | .lock | .store _ | .notify | .unlock => true
  | .enter | .sleep | .take | .leave | .wake => false

/-- What the slot holds after an action. -/
def OneShotAction.after {V : Type*} (d : Option V) : OneShotAction V → Option V
  | .store v => some v
  | .lock | .notify | .unlock | .enter | .sleep | .take | .leave | .wake => d

/-- Where the waiter can be when the storer is here. -/
def Storer.allows : Storer → Waiter → Bool
  | .outside, .outside | .outside, .checking | .outside, .asleep | .outside, .woken
  | .holding, .outside | .holding, .asleep | .holding, .woken
  | .stored, .outside | .stored, .asleep | .stored, .woken
  | .notified, .outside | .notified, .woken
  | .done, .outside | .done, .checking | .done, .woken | .done, .taken | .done, .done => true
  | _, _ => false

/-- The cell in use as a slot that holds `d`, whether or not `d` has been taken out of it. -/
structure OneShot.Shows {V : Type*} (c : OneShot V) (d : Option V) : Prop where
  allowed : c.storer.allows c.waiter = true
  locked : c.locked = (c.storer.holds || c.waiter.holds)
  filled : d.isSome = c.storer.hasStored
  value : c.value = bif c.waiter.hasTaken then none else d

namespace OneShot
variable {V : Type*} {c c' : OneShot V} {a : OneShotAction V} {d : Option V}

theorem shows_fresh : (fresh : OneShot V).Shows none := ⟨rfl, rfl, rfl, rfl⟩

/-- The cases of `OneShot.step`. -/
inductive Stepped (c : OneShot V) : OneShotAction V → OneShot V → Prop
  | lock : c.storer = .outside → c.locked = false →
      Stepped c .lock { c with locked := true, storer := .holding }
  | store (v : V) : c.storer = .holding →
      Stepped c (.store v) { c with value := some v, storer := .stored }
  | notify : c.storer = .stored →
      Stepped c .notify { c with storer := .notified, waiter := c.waiter.notified }
  | unlock : c.storer = .notified → Stepped c .unlock { c with locked := false, storer := .done }
  | enter : c.waiter = .outside ∨ c.waiter = .woken → c.locked = false →
      Stepped c .enter { c with locked := true, waiter := .checking }
  | sleep : c.waiter = .checking → c.value = none →
      Stepped c .sleep { c with locked := false, waiter := .asleep }
  | take (v : V) : c.waiter = .checking → c.value = some v →
      Stepped c .take { c with value := none, waiter := .taken }
  | leave : c.waiter = .taken → Stepped c .leave { c with locked := false, waiter := .done }
  | wake : c.waiter = .asleep → Stepped c .wake { c with waiter := .woken }

theorem step_cases (h : c.step a = some c') : c.Stepped a c' := by
  cases a with
  | lock =>
    obtain ⟨⟨hstorer, hfree⟩, h⟩ := Option.ite_none_right_eq_some.mp h
    cases h
    exact .lock hstorer hfree
  | store v =>
    obtain ⟨hstorer, h⟩ := Option.ite_none_right_eq_some.mp h
    cases h
    exact .store v hstorer
  | notify =>
    obtain ⟨hstorer, h⟩ := Option.ite_none_right_eq_some.mp h
    cases h
    exact .notify hstorer
  | unlock =>
    obtain ⟨hstorer, h⟩ := Option.ite_none_right_eq_some.mp h
    cases h
    exact .unlock hstorer
  | enter =>
    obtain ⟨⟨hwaiter, hfree⟩, h⟩ := Option.ite_none_right_eq_some.mp h
    cases h
    exact .enter hwaiter hfree
  | sleep =>
    obtain ⟨⟨hwaiter, hvalue⟩, h⟩ := Option.ite_none_right_eq_some.mp h
    cases h
    exact .sleep hwaiter (Option.isNone_iff_eq_none.mp hvalue)
  | take =>
    obtain ⟨⟨hwaiter, hvalue⟩, h⟩ := Option.ite_none_right_eq_some.mp h
    cases h
    obtain ⟨v, hv⟩ := Option.isSome_iff_exists.mp hvalue
    exact .take v hwaiter hv
  | leave =>
    obtain ⟨hwaiter, h⟩ := Option.ite_none_right_eq_some.mp h
    cases h
    exact .leave hwaiter
  | wake =>
    obtain ⟨hwaiter, h⟩ := Option.ite_none_right_eq_some.mp h
    cases h
    exact .wake hwaiter

section Tables
open Storer Waiter

theorem allows_lock : ∀ w, allows .outside w = true → w.holds = false → allows .holding w = true := by
  intro w
  cases w <;> decide

theorem allows_store : ∀ w, allows .holding w = true → allows .stored w = true ∧ w.hasTaken = false := by
  intro w
  cases w <;> decide

theorem allows_notify : ∀ w, allows .stored w = true → allows .notified w.notified = true := by
  intro w
  cases w <;> decide

theorem allows_unlock : ∀ w, allows .notified w = true → allows .done w = true ∧ w.holds = false := by
  intro w
  cases w <;> decide

theorem allows_enter : ∀ s w, allows s w = true → w = .outside ∨ w = .woken → s.holds = false →
    allows s .checking = true := by
  intro s w
  cases s <;> cases w <;> decide

theorem allows_sleep : ∀ s, allows s .checking = true → s.hasStored = false →
    allows s .asleep = true := by
  intro s
  cases s <;> decide

theorem allows_take : ∀ s, allows s .checking = true → s.hasStored = true → allows s .taken = true := by
  intro s
  cases s <;> decide

theorem allows_leave : ∀ s, allows s .taken = true → allows s .done = true := by
  intro s
  cases s <;> decide

theorem allows_wake : ∀ s, allows s .asleep = true → allows s .woken = true := by
  intro s
  cases s <;> decide

/-- The mutex has one owner at most. -/
theorem allows_apart : ∀ s w, allows s w = true → w.holds = true → s.holds = false := by
  intro s w
  cases s <;> cases w <;> decide

theorem allows_asleep : ∀ s, allows s .asleep = true → s.hasStored = true → s = .stored := by
  intro s
  cases s <;> decide

theorem notified_same (w : Waiter) :
    w.notified.holds = w.holds ∧ w.notified.hasTaken = w.hasTaken := by
  cases w <;> decide

end Tables

/-- Every step keeps the cell a slot, and only a store changes what the slot holds. -/
theorem Shows.step (h : c.Shows d) (hs : c.step a = some c') : c'.Shows (a.after d) := by
  have hstepped := step_cases hs
  clear hs
  obtain ⟨value, locked, storer, waiter⟩ := c
  obtain ⟨hallowed, hlocked, hfilled, hvalue⟩ := h
  dsimp only at hallowed hlocked hfilled hvalue
  subst hlocked hvalue
  cases hstepped with
  | lock hstorer hfree =>
    cases hstorer
    exact ⟨allows_lock waiter hallowed hfree, rfl, hfilled, rfl⟩
  | store v hstorer =>
    cases hstorer
    obtain ⟨hnow, hkept⟩ := allows_store waiter hallowed
    exact ⟨hnow, rfl, rfl, by simp [hkept, OneShotAction.after]⟩
  | notify hstorer =>
    cases hstorer
    obtain ⟨hholds, htaken⟩ := notified_same waiter
    exact ⟨allows_notify waiter hallowed, rfl, hfilled, by simp [htaken, OneShotAction.after]⟩
  | unlock hstorer =>
    cases hstorer
    obtain ⟨hnow, hfree⟩ := allows_unlock waiter hallowed
    exact ⟨hnow, hfree.symm, hfilled, rfl⟩
  | enter hwaiter hfree =>
    obtain ⟨hstorer, -⟩ := Bool.or_eq_false_iff.mp hfree
    have hkept : waiter.hasTaken = false := by rcases hwaiter with hw | hw <;> cases hw <;> rfl
    refine ⟨allows_enter storer waiter hallowed hwaiter hstorer, ?_, hfilled, ?_⟩
    · exact (Bool.or_true _).symm
    · dsimp only
      rw [hkept]
      rfl
  | sleep hwaiter hnone =>
    cases hwaiter
    obtain rfl : d = none := hnone
    exact ⟨allows_sleep storer hallowed hfilled.symm,
      by simp [allows_apart storer .checking hallowed rfl, Waiter.holds], hfilled, rfl⟩
  | take v hwaiter hsome =>
    cases hwaiter
    obtain rfl : d = some v := hsome
    exact ⟨allows_take storer hallowed hfilled.symm, rfl, hfilled, rfl⟩
  | leave hwaiter =>
    cases hwaiter
    exact ⟨allows_leave storer hallowed,
      by simp [allows_apart storer .taken hallowed rfl, Waiter.holds], hfilled, rfl⟩
  | wake hwaiter =>
    cases hwaiter
    exact ⟨allows_wake storer hallowed, rfl, hfilled, rfl⟩

/-- The mutex has one owner at most. -/
theorem Shows.exclusive (h : c.Shows d) (hw : c.waiter.holds = true) : c.storer.holds = false :=
  allows_apart _ _ h.allowed hw

/-- **No wake-up is lost**: the waiter of a filled slot is only asleep while the storer is
between its store and its notification. -/
theorem Shows.stored_of_asleep (h : c.Shows d) (hd : d ≠ none) (hw : c.waiter = .asleep) :
    c.storer = .stored := by
  apply allows_asleep
  · rw [← hw]
    exact h.allowed
  · rw [← h.filled]
    exact Option.isSome_iff_ne_none.mpr hd

theorem storer_of_step (h : c.step a = some c') (ha : a.isStorer = false) : c'.storer = c.storer := by
  cases step_cases h with
  | lock | store | notify | unlock => cases ha
  | enter | sleep | take | leave | wake => rfl

theorem waiter_of_step (h : c.step a = some c') (ha : a.isStorer = true) :
    c'.waiter = c.waiter ∨ c'.waiter = c.waiter.notified := by
  cases step_cases h with
  | lock | store | unlock => exact .inl rfl
  | notify => exact .inr rfl
  | enter | sleep | take | leave | wake => cases ha

theorem hasStored_of_step (h : c.step a = some c') (hs : c.storer.hasStored = true) :
    c'.storer.hasStored = true := by
  cases step_cases h with
  | lock hstorer | store v hstorer =>
    rw [hstorer] at hs
    cases hs
  | notify | unlock => rfl
  | enter | sleep | take | leave | wake => exact hs

/-- A waiter that finds a value finds what the slot holds. -/
theorem Shows.value_eq (h : c.Shows d) (hw : c.waiter = .checking) : c.value = d := by
  rw [h.value, hw]
  rfl

theorem notified_work (w : Waiter) : w.notified.work ≤ w.work + 2 := by
  cases w <;> simp [Waiter.notified, Waiter.work]

/-- There is an end to the steps between two wake-ups. -/
theorem work_lt_of_step (h : c.step a = some c') (ha : a ≠ .wake) : c'.work < c.work := by
  cases step_cases h with
  | lock hstorer | store v hstorer | unlock hstorer =>
    rw [work, work, hstorer]
    simp [Storer.work]
  | notify hstorer =>
    have hle := notified_work c.waiter
    rw [work, work, hstorer]
    simp only [Storer.work]
    omega
  | enter hwaiter =>
    rcases hwaiter with hw | hw <;> rw [work, work, hw] <;> simp [Waiter.work]
  | sleep hwaiter | take v hwaiter | leave hwaiter =>
    rw [work, work, hwaiter]
    simp [Waiter.work]
  | wake => exact absurd rfl ha

theorem work_of_wake (h : c.step .wake = some c') : c'.work = c.work + 2 := by
  cases step_cases h with
  | wake hwaiter =>
    rw [work, work, hwaiter]
    rfl

end OneShot

end Gilmap.Library
