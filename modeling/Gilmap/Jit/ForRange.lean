import Gilmap.Ir.Assignment
import Gilmap.Jit.Compile
import Gilmap.Python.ForLoops
import Gilmap.Python.HostFloats
import Gilmap.Python.Types

/-! # The counter of a `for`

The emitted loop has no counter of its own: the header tests the variable of the program, and
the increment block adds one to it, whatever the body made of it. Python takes the values of
the range one after the other and binds the variable to each. Here is when the two loops are
the same, for a body whose turns are.
-/
namespace Gilmap
open Library
variable {F : Type}

/-- Each of the one kind has one of the other kind that it is related to. -/
def BothWays {α β : Type} (A : α → Prop) (B : β → Prop) (R : α → β → Prop) : Prop :=
  (∀ a, A a → ∃ b, B b ∧ R a b) ∧ ∀ b, B b → ∃ a, A a ∧ R a b

/-- A `for` whose bounds have been evaluated. -/
structure ForRun (F : Type) where
  sem : Sem F
  var : String
  start : BitVec 64
  stop : BitVec 64
  body : List (Stmt F)
  before : Env F

namespace ForRun
variable (L : ForRun F)

/-- The body, run from `ρ`, comes to an end. -/
def Body (ρ : Env F) (flow : Flow F) : Prop := ∃ n, L.sem.execBody n L.body ρ = some (.ok flow)

/-- The environment in which the header of the emitted loop is first reached. -/
def entry : Env F := L.before.set L.var (.i64 L.start)

/-- `Turn k ρ`: after `k` turns the emitted loop begins another one, in `ρ`. -/
inductive Turn : ℕ → Env F → Prop
  | first : L.sem.below L.entry L.var (.i64 L.stop) = .ok true → Turn 0 L.entry
  | next {k : ℕ} {ρ ρ' : Env F} {flow : Flow F} {v : Val F} : Turn k ρ → L.Body ρ flow →
      flow.again = some ρ' → L.sem.bump ρ' L.var = .ok v →
      L.sem.below (ρ'.set L.var v) L.var (.i64 L.stop) = .ok true →
      Turn (k + 1) (ρ'.set L.var v)

/-- `Ends k flow`: the emitted loop ends so, with `k` turns begun. -/
inductive Ends : ℕ → Flow F → Prop
  | skipped : L.sem.below L.entry L.var (.i64 L.stop) = .ok false → Ends 0 (.normal L.entry)
  | usedUp {k : ℕ} {ρ ρ' : Env F} {flow : Flow F} {v : Val F} : L.Turn k ρ → L.Body ρ flow →
      flow.again = some ρ' → L.sem.bump ρ' L.var = .ok v →
      L.sem.below (ρ'.set L.var v) L.var (.i64 L.stop) = .ok false →
      Ends (k + 1) (.normal (ρ'.set L.var v))
  | left {k : ℕ} {ρ : Env F} {flow flow' : Flow F} : L.Turn k ρ → L.Body ρ flow →
      flow.leaves = some flow' → Ends (k + 1) flow'

/-! ### Against Python's loop -/

variable (P : PyFor F)

/-- The variable of the code has the value of Python's, where that is bound. -/
def Shows (ρ : Env F) (fr : PyFrame F) : Prop := ∀ u, fr.vals P.var = some u →
  ∃ b, L.sem.readLocal ρ L.var = .ok (.i64 b) ∧ u.num = .ok (.int b.toInt)

/-- The two loops end in the same way and leave the same in the variable. -/
inductive SameEnd : Flow F → PyFlow F → Prop
  | normal {ρ : Env F} {fr : PyFrame F} : L.Shows P ρ fr → SameEnd (.normal ρ) (.normal fr)
  | ret {v : Val F} {ρ : Env F} {u : PyVal F} : SameEnd (.ret v ρ) (.ret u)

/-- Two turns that both go on, or both leave the loop, with the same in the variable. -/
inductive SameTurn : Flow F → PyFlow F → Prop
  | again {flow : Flow F} {out : PyFlow F} {ρ : Env F} {fr : PyFrame F} : flow.again = some ρ →
      out.again = some fr → L.Shows P ρ fr → SameTurn flow out
  | leaves {flow flow' : Flow F} {out out' : PyFlow F} : flow.leaves = some flow' →
      out.leaves = some out' → L.SameEnd P flow' out' → SameTurn flow out

/-- The bodies are alike: turns that begin with the same value of the variable end alike. -/
def Alike : Prop := ∀ k ρ fr, L.Turn k ρ → P.Turn k fr → L.Shows P ρ fr →
  BothWays (L.Body ρ) (P.Body fr) (L.SameTurn P)

/-- The emitted loop is Python's: it begins as many turns, with the values of the range, comes
to the same end with the same in the variable, and comes to one when the body always does. -/
structure AsPython : Prop where
  turns : ∀ k, (∃ ρ, L.Turn k ρ) ↔ ∃ fr, P.Turn k fr
  values : ∀ k ρ, L.Turn k ρ →
    ∃ b, L.sem.readLocal ρ L.var = .ok (.i64 b) ∧ b.toInt = P.start + k
  ends : ∀ k, BothWays (L.Ends k) (P.Ends k) (L.SameEnd P)
  terminates : (∀ k ρ, L.Turn k ρ → ∃ flow, L.Body ρ flow) → ∃ k flow, L.Ends k flow

/-- The bounds are Python's as far as they are asked for, and every turn that goes on to the
increment finds the variable as it was when the turn began. -/
structure Follows : Prop where
  entered : P.start < P.stop ↔ L.start.toInt < L.stop.toInt
  first : P.start < P.stop → L.start.toInt = P.start
  keeps : ∀ k ρ flow ρ', L.Turn k ρ → L.Body ρ flow → flow.again = some ρ' →
    L.sem.readLocal ρ' L.var = L.sem.readLocal ρ L.var
  goesOn : ∀ k ρ flow ρ', L.Turn k ρ → L.Body ρ flow → flow.again = some ρ' →
    (P.start + (k + 1) < P.stop ↔ P.start + (k + 1) < L.stop.toInt)

/-- Besides, the loop is left by the body: no turn with the last value of the range goes on to
the increment, and an empty range finds the variable at its start, or not bound. -/
structure KeepsCounter : Prop extends L.Follows P where
  left : ∀ k ρ flow ρ', L.Turn k ρ → L.Body ρ flow → flow.again = some ρ' → P.start + (k + 1) < P.stop
  skipped : P.stop ≤ P.start → ∀ u, P.before.vals P.var = some u → u.num = .ok (.int L.start.toInt)

/-! ## The emitted loop in the semantics of statements -/

variable {L}

theorem Body.unique {ρ : Env F} {flow flow' : Flow F} (h : L.Body ρ flow) (h' : L.Body ρ flow') :
    flow = flow' := by
  obtain ⟨n, hn⟩ := h
  obtain ⟨m, hm⟩ := h'
  have := L.sem.execBody_unique hn hm
  cases this
  rfl

/-- The loop, entered at its header in `ρ`, ends so. -/
def FromHeader (L : ForRun F) (ρ : Env F) (flow : Flow F) : Prop :=
  ∃ n, L.sem.forLoop L.var (.i64 L.stop) (L.sem.execBody n L.body) n ρ = some (.ok flow)

theorem fromHeader_done {ρ : Env F} (hb : L.sem.below ρ L.var (.i64 L.stop) = .ok false) :
    L.FromHeader ρ (.normal ρ) := ⟨1, by simp [Sem.forLoop, hb]⟩

theorem fromHeader_next {ρ ρ' : Env F} {flow out : Flow F} {v : Val F}
    (hb : L.sem.below ρ L.var (.i64 L.stop) = .ok true) (hbody : L.Body ρ flow)
    (ha : flow.again = some ρ') (hv : L.sem.bump ρ' L.var = .ok v)
    (h : L.FromHeader (ρ'.set L.var v) out) : L.FromHeader ρ out := by
  obtain ⟨n, hn⟩ := hbody
  obtain ⟨m, hm⟩ := h
  have hrest := (L.sem.forLoop_le (L.sem.execBody_le (by omega : m ≤ max n m + 1) L.body)
    (by omega : m ≤ max n m) (ρ'.set L.var v)).of_some hm
  refine ⟨max n m + 1, ?_⟩
  have hturn := L.sem.execBody_mono (by omega : n ≤ max n m + 1) hn
  simp only [Sem.forLoop, hb, hturn, loopNext_again ha, hv, hrest]

theorem fromHeader_leave {ρ : Env F} {flow out : Flow F}
    (hb : L.sem.below ρ L.var (.i64 L.stop) = .ok true) (hbody : L.Body ρ flow)
    (hl : flow.leaves = some out) : L.FromHeader ρ out := by
  obtain ⟨n, hn⟩ := hbody
  refine ⟨n + 1, ?_⟩
  have hturn := L.sem.execBody_mono (Nat.le_succ n) hn
  simp only [Sem.forLoop, hb, hturn, loopNext_leaves hl]

theorem Turn.entered {k : ℕ} {ρ : Env F} (h : L.Turn k ρ) :
    L.sem.below ρ L.var (.i64 L.stop) = .ok true := by
  cases h with
  | first hb => exact hb
  | next _ _ _ _ hb => exact hb

/-- What the loop does from a turn on, it does from its entry. -/
theorem Turn.fromEntry {k : ℕ} {ρ : Env F} (h : L.Turn k ρ) {out : Flow F}
    (hout : L.FromHeader ρ out) : L.FromHeader L.entry out := by
  induction h with
  | first => exact hout
  | next hturn hbody ha hv _ ih => exact ih (fromHeader_next hturn.entered hbody ha hv hout)

theorem Ends.fromEntry {k : ℕ} {out : Flow F} (h : L.Ends k out) : L.FromHeader L.entry out := by
  cases h with
  | skipped hb => exact fromHeader_done hb
  | usedUp hturn hbody ha hv hb =>
    exact hturn.fromEntry (fromHeader_next hturn.entered hbody ha hv (fromHeader_done hb))
  | left hturn hbody hl => exact hturn.fromEntry (fromHeader_leave hturn.entered hbody hl)

/-- A run of the loop from the header, with `k` turns behind it, by induction on the fuel that
is left. -/
theorem exists_ends {n m k : ℕ} {ρ : Env F} {out : Flow F}
    (hturn : L.sem.below ρ L.var (.i64 L.stop) = .ok true → L.Turn k ρ)
    (hdone : L.sem.below ρ L.var (.i64 L.stop) = .ok false → L.Ends k (.normal ρ))
    (h : L.sem.forLoop L.var (.i64 L.stop) (L.sem.execBody n L.body) m ρ = some (.ok out)) :
    ∃ k, L.Ends k out := by
  induction m generalizing k ρ with
  | zero => cases h
  | succ m ih =>
    simp only [Sem.forLoop] at h
    cases hb : L.sem.below ρ L.var (.i64 L.stop) with
    | error f => simp [hb] at h
    | ok b =>
      cases b with
      | false =>
        simp only [hb] at h
        cases h
        exact ⟨k, hdone hb⟩
      | true =>
        simp only [hb] at h
        have hturn := hturn hb
        cases hr : L.sem.execBody n L.body ρ with
        | none => simp [hr, loopNext] at h
        | some r =>
          cases r with
          | error f => simp [hr, loopNext] at h
          | ok flow =>
            simp only [hr, loopNext] at h
            cases flow with
            | normal ρ' | cont ρ' =>
              cases hv : L.sem.bump ρ' L.var with
              | error f => simp [hv] at h
              | ok v =>
                simp only [hv] at h
                exact ih (.next hturn ⟨n, hr⟩ rfl hv) (.usedUp hturn ⟨n, hr⟩ rfl hv) h
            | brk ρ' | ret v ρ' =>
              cases h
              exact ⟨k + 1, .left hturn ⟨n, hr⟩ rfl⟩

/-- The ends of the loop are the results of the statement. -/
theorem ends_iff {start stop : Expr F} (hstart : L.sem.eval L.before start .i64 = .ok (.i64 L.start))
    (hstop : L.sem.eval L.before stop .i64 = .ok (.i64 L.stop)) (out : Flow F) :
    (∃ k, L.Ends k out) ↔
      ∃ n, L.sem.execStmt n (.forRange L.var start stop L.body) L.before = some (.ok out) := by
  simp only [Sem.execStmt, hstart, hstop]
  constructor
  · rintro ⟨k, hk⟩
    exact hk.fromEntry
  · rintro ⟨n, hn⟩
    exact exists_ends .first .skipped hn

end ForRun

/-! ## One turn -/

theorem Flow.again_or_leaves (flow : Flow F) :
    (∃ ρ, flow.again = some ρ) ∨ ∃ out, flow.leaves = some out := by
  cases flow with
  | normal ρ | cont ρ => exact .inl ⟨ρ, rfl⟩
  | brk ρ => exact .inr ⟨_, rfl⟩
  | ret v ρ => exact .inr ⟨_, rfl⟩

theorem Flow.again_leaves {flow out : Flow F} {ρ : Env F} (h : flow.again = some ρ) :
    flow.leaves ≠ some out := by
  cases flow with
  | normal | cont => exact nofun
  | brk | ret => cases h

theorem Sem.readLocal_set {S : Sem F} {ρ : Env F} {name : String} {v : Val F} :
    S.readLocal (ρ.set name v) name = .ok v := by
  simp [readLocal]

theorem Sem.below_i64 {S : Sem F} {ρ : Env F} {var : String} {a b : BitVec 64}
    (h : S.readLocal ρ var = .ok (.i64 a)) :
    S.below ρ var (.i64 b) = .ok (decide (a.toInt < b.toInt)) := by
  simp only [below, h, Val.icmp, IntCC.holds, BitVec.slt, flagOf, Val.truthy, bind, Except.bind]
  by_cases hlt : a.toInt < b.toInt
  · simp [hlt]
  · simp [hlt]

theorem Sem.bump_i64 {S : Sem F} {ρ : Env F} {var : String} {a : BitVec 64}
    (h : S.readLocal ρ var = .ok (.i64 a)) : S.bump ρ var = .ok (.i64 (a + 1)) := by
  simp [bump, h, Val.intBin, IntBin.apply, bind, Except.bind]

theorem Sem.bump_eq_ok {S : Sem F} {ρ : Env F} {var : String} {v : Val F}
    (h : S.bump ρ var = .ok v) : ∃ a, S.readLocal ρ var = .ok (.i64 a) ∧ v = .i64 (a + 1) := by
  simp only [bump, Except.bind_eq_ok] at h
  obtain ⟨u, hu, hv⟩ := h
  cases u with
  | i64 a =>
    cases hv
    exact ⟨a, hu, rfl⟩
  | i8 | f64 | i64x2 | f64x2 => cases hv

namespace ForRun
variable {L : ForRun F}

theorem Turn.unique {k : ℕ} {ρ ρ' : Env F} (h : L.Turn k ρ) (h' : L.Turn k ρ') : ρ = ρ' := by
  induction h generalizing ρ' with
  | first =>
    cases h'
    rfl
  | next _ hbody ha hv _ ih =>
    cases h' with
    | next hturn hbody' ha' hv' _ =>
      obtain rfl := ih hturn
      obtain rfl := hbody.unique hbody'
      rw [ha] at ha'
      cases ha'
      rw [hv] at hv'
      cases hv'
      rfl

theorem below_entry :
    L.sem.below L.entry L.var (.i64 L.stop) = .ok (decide (L.start.toInt < L.stop.toInt)) :=
  Sem.below_i64 Sem.readLocal_set

theorem readLocal_entry : L.sem.readLocal L.entry L.var = .ok (.i64 L.start) := Sem.readLocal_set

theorem turn_zero_iff : (∃ ρ, L.Turn 0 ρ) ↔ L.start.toInt < L.stop.toInt := by
  constructor
  · rintro ⟨ρ, hturn⟩
    cases hturn with
    | first hb => simpa [below_entry] using hb
  · intro hlt
    exact ⟨_, .first (by simpa [below_entry] using hlt)⟩

theorem ends_skipped (h : L.stop.toInt ≤ L.start.toInt) : L.Ends 0 (.normal L.entry) := by
  refine .skipped ?_
  rw [below_entry]
  simpa using h

/-- The increment of a value below the stop is the next integer. -/
theorem bump_next {ρ : Env F} {b : BitVec 64} {n : ℤ} (hb : L.sem.readLocal ρ L.var = .ok (.i64 b))
    (hn : b.toInt = n) (hlt : n + 1 ≤ L.stop.toInt) :
    L.sem.bump ρ L.var = .ok (.i64 (b + 1)) ∧ (b + 1).toInt = n + 1 := by
  refine ⟨Sem.bump_i64 hb, ?_⟩
  have hlo := (fits_toInt b).1
  have hhi := (fits_toInt L.stop).2
  have hword : b + 1 = BitVec.ofInt 64 (n + 1) := by
    rw [eq_ofInt hn, BitVec.ofInt_add]
    rfl
  rw [hword]
  exact toInt_ofInt_of_fits (by decide) ⟨by omega, by omega⟩

section Python
variable {P : PyFor F}

theorem shows_iff {ρ : Env F} {fr : PyFrame F} {n : ℤ} (h : fr.vals P.var = some (.int n)) :
    L.Shows P ρ fr ↔ ∃ b, L.sem.readLocal ρ L.var = .ok (.i64 b) ∧ b.toInt = n := by
  simp only [Shows, h, Option.some.injEq, forall_eq', PyVal.num, Except.ok.injEq, PyNum.int.injEq]
  exact exists_congr fun b => and_congr_right fun _ => eq_comm

/-- What the going on of a turn in one of the loops says of the other. -/
theorem Alike.again (h : L.Alike P) {k : ℕ} {ρ ρ' : Env F} {fr : PyFrame F} {flow : Flow F}
    (hturn : L.Turn k ρ) (hpy : P.Turn k fr) (hshows : L.Shows P ρ fr) (hbody : L.Body ρ flow)
    (ha : flow.again = some ρ') : ∃ out fr', P.Body fr out ∧ out.again = some fr' ∧ L.Shows P ρ' fr' := by
  obtain ⟨out, hout, hsame⟩ := (h k ρ fr hturn hpy hshows).1 flow hbody
  cases hsame with
  | again ha' hfr hshows' =>
    rw [ha] at ha'
    cases ha'
    exact ⟨out, _, hout, hfr, hshows'⟩
  | leaves hl => exact absurd hl (Flow.again_leaves ha)

theorem Alike.python_again (h : L.Alike P) {k : ℕ} {ρ : Env F} {fr fr' : PyFrame F} {out : PyFlow F}
    (hturn : L.Turn k ρ) (hpy : P.Turn k fr) (hshows : L.Shows P ρ fr) (hbody : P.Body fr out)
    (ha : out.again = some fr') : ∃ flow ρ', L.Body ρ flow ∧ flow.again = some ρ' := by
  obtain ⟨flow, hflow, hsame⟩ := (h k ρ fr hturn hpy hshows).2 out hbody
  cases hsame with
  | again ha' => exact ⟨flow, _, hflow, ha'⟩
  | leaves _ hl => cases out <;> cases ha <;> cases hl

/-! ## A counter that the body keeps -/

/-- The turns of the emitted loop are Python's, and begin with the values of the range. -/
theorem Follows.python_turn (h : L.Follows P) (hal : L.Alike P) {k : ℕ} {ρ : Env F}
    (hturn : L.Turn k ρ) : ∃ fr, P.Turn k fr ∧ L.Shows P ρ fr := by
  induction hturn with
  | first hb =>
    have hlt : P.start < P.stop := h.entered.mpr (by simpa [below_entry] using hb)
    refine ⟨_, .first hlt, (shows_iff (PyFor.Turn.first hlt).value).mpr ⟨_, readLocal_entry, ?_⟩⟩
    simpa using h.first hlt
  | @next k ρ ρ' flow v hturn hbody ha hv hb ih =>
    obtain ⟨fr, hpy, hshows⟩ := ih
    obtain ⟨out, fr', hout, hfr, -⟩ := hal.again hturn hpy hshows hbody ha
    obtain ⟨b, hread, hval⟩ := (shows_iff hpy.value).mp hshows
    have hread' := (h.keeps k ρ flow ρ' hturn hbody ha).trans hread
    have hstop := h.goesOn k ρ flow ρ' hturn hbody ha
    -- the turn had a value of the range, so its increment is at most the stop
    have hle : P.start + k + 1 ≤ L.stop.toInt := by
      have hentered := hturn.entered
      rw [Sem.below_i64 hread] at hentered
      have hlt : b.toInt < L.stop.toInt := by simpa using hentered
      omega
    obtain ⟨hbump, hnext⟩ := bump_next hread' hval hle
    rw [hbump] at hv
    cases hv
    rw [Sem.below_i64 Sem.readLocal_set, hnext] at hb
    have hlt : P.start + (k + 1) < P.stop := hstop.mpr (by simpa [add_assoc] using hb)
    have hpy' := hpy.next hout hfr hlt
    refine ⟨_, hpy', (shows_iff hpy'.value).mpr ⟨_, Sem.readLocal_set, hnext.trans ?_⟩⟩
    push_cast
    ring

theorem Follows.turn (h : L.Follows P) (hal : L.Alike P) {k : ℕ} {fr : PyFrame F}
    (hturn : P.Turn k fr) : ∃ ρ, L.Turn k ρ ∧ L.Shows P ρ fr := by
  induction hturn with
  | first hlt =>
    have hb := h.entered.mp hlt
    refine ⟨_, .first (by simpa [below_entry] using hb), ?_⟩
    refine (shows_iff (PyFor.Turn.first hlt).value).mpr ⟨_, readLocal_entry, ?_⟩
    simpa using h.first hlt
  | @next k fr fr' out hpy hbody ha hlt ih =>
    obtain ⟨ρ, hturn, hshows⟩ := ih
    obtain ⟨flow, ρ', hflow, hρ'⟩ := hal.python_again hturn hpy hshows hbody ha
    obtain ⟨b, hread, hval⟩ := (shows_iff hpy.value).mp hshows
    have hread' := (h.keeps k ρ flow ρ' hturn hflow hρ').trans hread
    have hstop := (h.goesOn k ρ flow ρ' hturn hflow hρ').mp hlt
    obtain ⟨hbump, hnext⟩ := bump_next hread' hval (by omega)
    refine ⟨_, .next hturn hflow hρ' hbump ?_, ?_⟩
    · rw [Sem.below_i64 Sem.readLocal_set, hnext]
      simpa [add_assoc] using hstop
    · refine (shows_iff (hpy.next hbody ha hlt).value).mpr ⟨_, Sem.readLocal_set, hnext.trans ?_⟩
      push_cast
      ring

theorem Follows.turns (h : L.Follows P) (hal : L.Alike P) (k : ℕ) :
    (∃ ρ, L.Turn k ρ) ↔ ∃ fr, P.Turn k fr := by
  constructor
  · rintro ⟨ρ, hturn⟩
    exact (h.python_turn hal hturn).imp fun _ => And.left
  · rintro ⟨fr, hturn⟩
    exact (h.turn hal hturn).imp fun _ => And.left

theorem Follows.values (h : L.Follows P) (hal : L.Alike P) {k : ℕ} {ρ : Env F} (hturn : L.Turn k ρ) :
    ∃ b, L.sem.readLocal ρ L.var = .ok (.i64 b) ∧ b.toInt = P.start + k := by
  obtain ⟨fr, hpy, hshows⟩ := h.python_turn hal hturn
  exact (shows_iff hpy.value).mp hshows

/-- A loop that follows the range comes to an end when its body always does: by induction on
the values that are left. -/
theorem Follows.exists_ends (h : L.Follows P) (hal : L.Alike P)
    (hbody : ∀ k ρ, L.Turn k ρ → ∃ flow, L.Body ρ flow) : ∃ k flow, L.Ends k flow := by
  have hfrom : ∀ (m k : ℕ) ρ, L.Turn k ρ → P.stop ≤ P.start + k + m → ∃ k flow, L.Ends k flow := by
    intro m
    induction m with
    | zero =>
      intro k ρ hturn hm
      obtain ⟨fr, hpy, -⟩ := h.python_turn hal hturn
      have := hpy.lt
      omega
    | succ m ih =>
      intro k ρ hturn hm
      obtain ⟨flow, hflow⟩ := hbody k ρ hturn
      rcases flow.again_or_leaves with ⟨ρ', ha⟩ | ⟨out, hl⟩
      · obtain ⟨b, hread, -⟩ := h.values hal hturn
        have hread' := (h.keeps k ρ flow ρ' hturn hflow ha).trans hread
        have hbelow : L.sem.below (ρ'.set L.var (.i64 (b + 1))) L.var (.i64 L.stop) =
            .ok (decide ((b + 1).toInt < L.stop.toInt)) := Sem.below_i64 Sem.readLocal_set
        by_cases hnext : (b + 1).toInt < L.stop.toInt
        · refine ih (k + 1) _ (.next hturn hflow ha (Sem.bump_i64 hread') ?_) ?_
          · rw [hbelow, decide_eq_true hnext]
          · push_cast at hm ⊢
            omega
        · exact ⟨_, _, .usedUp hturn hflow ha (Sem.bump_i64 hread') (by rw [hbelow, decide_eq_false hnext])⟩
      · exact ⟨_, _, .left hturn hflow hl⟩
  by_cases hlt : L.start.toInt < L.stop.toInt
  · obtain ⟨ρ, hturn⟩ := turn_zero_iff.mpr hlt
    refine hfrom (P.stop - P.start).toNat 0 ρ hturn ?_
    push_cast
    omega
  · exact ⟨0, _, ends_skipped (not_lt.mp hlt)⟩

theorem KeepsCounter.ends (h : L.KeepsCounter P) (hal : L.Alike P) (k : ℕ) :
    BothWays (L.Ends k) (P.Ends k) (L.SameEnd P) := by
  constructor
  · rintro out (hb | @⟨k, ρ, ρ', flow, v, hturn, hbody, ha, hv, hb⟩ | @⟨k, ρ, flow, out, hturn, hbody, hl⟩)
    · have hle : P.stop ≤ P.start := not_lt.mp fun hlt => by
        simp [below_entry, h.entered.mp hlt] at hb
      exact ⟨_, .skipped hle, .normal fun u hu => ⟨_, readLocal_entry, h.skipped hle u hu⟩⟩
    · -- the body leaves before the range runs out
      have hlt := (h.goesOn k ρ flow ρ' hturn hbody ha).mp (h.left k ρ flow ρ' hturn hbody ha)
      obtain ⟨b, hread, hval⟩ := h.values hal hturn
      have hread' := (h.keeps k ρ flow ρ' hturn hbody ha).trans hread
      obtain ⟨hbump, hnext⟩ := bump_next hread' hval (by omega)
      rw [hbump] at hv
      cases hv
      rw [Sem.below_i64 Sem.readLocal_set, hnext] at hb
      simp only [Except.ok.injEq, decide_eq_false_iff_not] at hb
      omega
    · obtain ⟨fr, hpy, hshows⟩ := h.python_turn hal hturn
      obtain ⟨pout, hpout, hsame⟩ := (hal k ρ fr hturn hpy hshows).1 flow hbody
      cases hsame with
      | again ha => exact absurd hl (Flow.again_leaves ha)
      | leaves hl' hpl hend =>
        rw [hl] at hl'
        cases hl'
        exact ⟨_, .left hpy hpout hpl, hend⟩
  · rintro out (hle | @⟨k, fr, fr', pout, hpy, hbody, ha, hle⟩ | @⟨k, fr, pout, out, hpy, hbody, hl⟩)
    · have hskip : L.stop.toInt ≤ L.start.toInt := not_lt.mp fun hlt =>
        absurd (h.entered.mpr hlt) (not_lt.mpr hle)
      exact ⟨_, ends_skipped hskip, .normal fun u hu => ⟨_, readLocal_entry, h.skipped hle u hu⟩⟩
    · obtain ⟨ρ, hturn, hshows⟩ := h.turn hal hpy
      obtain ⟨flow, ρ', hflow, hρ'⟩ := hal.python_again hturn hpy hshows hbody ha
      exact absurd (h.left k ρ flow ρ' hturn hflow hρ') (not_lt.mpr hle)
    · obtain ⟨ρ, hturn, hshows⟩ := h.turn hal hpy
      obtain ⟨flow, hflow, hsame⟩ := (hal k ρ fr hturn hpy hshows).2 pout hbody
      cases hsame with
      | again _ ha => cases pout <;> cases ha <;> cases hl
      | leaves hl' hpl hend =>
        rw [hl] at hpl
        cases hpl
        exact ⟨_, .left hturn hflow hl', hend⟩

/-- The turn at which the two loops begin with the same value of the variable. -/
theorem AsPython.shows (h : L.AsPython P) {k : ℕ} {ρ : Env F} (hturn : L.Turn k ρ) :
    ∃ fr, P.Turn k fr ∧ L.Shows P ρ fr := by
  obtain ⟨fr, hpy⟩ := (h.turns k).mp ⟨ρ, hturn⟩
  exact ⟨fr, hpy, (shows_iff hpy.value).mpr (h.values k ρ hturn)⟩

/-- The increment behind the last value of the range changes the variable, which Python leaves. -/
theorem AsPython.left (h : L.AsPython P) (hal : L.Alike P) {k : ℕ} {ρ ρ' : Env F} {flow : Flow F}
    (hturn : L.Turn k ρ) (hbody : L.Body ρ flow) (ha : flow.again = some ρ') :
    P.start + (k + 1) < P.stop := by
  obtain ⟨fr, hpy, hshows⟩ := h.shows hturn
  obtain ⟨out, fr', hout, hfr, hshows'⟩ := hal.again hturn hpy hshows hbody ha
  by_contra hlt
  obtain ⟨u, hu⟩ := hpy.bound hout (PyFlow.frame_of_again hfr)
  obtain ⟨b, hread, hnum⟩ := hshows' u hu
  obtain ⟨flow', hend, hsame⟩ := (h.ends (k + 1)).2 _ (.usedUp hpy hout hfr (not_lt.mp hlt))
  cases hsame with
  | normal hshows₁ =>
    obtain ⟨b₁, hread₁, hnum₁⟩ := hshows₁ u hu
    generalize hflow : Flow.normal _ = flow₁ at hend
    cases hend with
    | usedUp hturn' hbody' ha' hv =>
      obtain rfl := hturn.unique hturn'
      obtain rfl := hbody.unique hbody'
      rw [ha] at ha'
      cases ha'
      rw [Sem.bump_i64 hread] at hv
      cases hv
      cases hflow
      rw [Sem.readLocal_set] at hread₁
      cases hread₁
      rw [hnum] at hnum₁
      have hsame : b = b + 1 := BitVec.eq_of_toInt_eq (by simpa using hnum₁)
      simp at hsame
    | left hturn' hbody' hl =>
      obtain rfl := hturn.unique hturn'
      obtain rfl := hbody.unique hbody'
      exact Flow.again_leaves ha hl

/-- The next turn, of both loops. -/
theorem AsPython.next (h : L.AsPython P) (hal : L.Alike P) {k : ℕ} {ρ ρ' : Env F} {flow : Flow F}
    (hturn : L.Turn k ρ) (hbody : L.Body ρ flow) (ha : flow.again = some ρ') :
    ∃ b, L.sem.readLocal ρ' L.var = .ok (.i64 b) ∧ (b + 1).toInt = P.start + (k + 1) ∧
      (b + 1).toInt < L.stop.toInt := by
  obtain ⟨fr, hpy, hshows⟩ := h.shows hturn
  obtain ⟨out, fr', hout, hfr, -⟩ := hal.again hturn hpy hshows hbody ha
  obtain ⟨ρ₁, hnext⟩ := (h.turns (k + 1)).mpr ⟨_, hpy.next hout hfr (h.left hal hturn hbody ha)⟩
  obtain ⟨b₁, hread₁, hval⟩ := h.values _ _ hnext
  cases hnext with
  | next hturn' hbody' ha' hv hb =>
    obtain rfl := hturn.unique hturn'
    obtain rfl := hbody.unique hbody'
    rw [ha] at ha'
    cases ha'
    obtain ⟨b, hread, rfl⟩ := Sem.bump_eq_ok hv
    rw [Sem.readLocal_set] at hread₁
    cases hread₁
    rw [Sem.below_i64 Sem.readLocal_set] at hb
    exact ⟨b, hread, by simpa using hval, by simpa using hb⟩

end Python

end ForRun

/-! ## Names that a body does not bind -/

mutual

/-- The names that a statement binds, wherever in it. -/
def Stmt.targets : Stmt F → List String
  | .assign name _ _ => [name]
  | .forRange var _ _ body => var :: bodyTargets body
  | .whileDo _ body => bodyTargets body
  | .ifElse _ thenBody elseBody => bodyTargets thenBody ++ bodyTargets elseBody
  | .ret _ | .brk | .cont => []

def bodyTargets : List (Stmt F) → List String
  | [] => []
  | stmt :: rest => stmt.targets ++ bodyTargets rest

end

/-- A result with the value that the name has in `ρ`. -/
def Frames (name : String) (ρ : Env F) (r : Res F) : Prop :=
  ∀ flow, r = some (.ok flow) → flow.env name = ρ name

section Frames
variable {name : String} {ρ ρ₀ : Env F} {r : Res F}

theorem Frames.of_error (f : Fault) : Frames name ρ (some (.error f)) := fun _ h => by cases h

theorem Frames.of_flow {flow : Flow F} (h : flow.env name = ρ name) :
    Frames name ρ (some (.ok flow)) := fun _ hflow => by
  cases hflow
  exact h

theorem Frames.trans (h : Frames name ρ r) (hρ : ρ name = ρ₀ name) : Frames name ρ₀ r :=
  fun flow hflow => (h flow hflow).trans hρ

theorem Frames.loopNext {again : Env F → Res F} (h : Frames name ρ r)
    (ha : ∀ ρ', Frames name ρ' (again ρ')) : Frames name ρ (loopNext r again) := by
  rcases r with _ | f | flow
  · exact fun _ hr => by cases hr
  · exact .of_error f
  · have hflow := h flow rfl
    cases flow with
    | normal ρ' | cont ρ' => exact (ha ρ').trans hflow
    | brk ρ' | ret v ρ' => exact .of_flow hflow

theorem Frames.andThen {k : Env F → Res F} (h : Frames name ρ r)
    (hk : ∀ ρ', Frames name ρ' (k ρ')) : Frames name ρ (andThen r k) := by
  rcases r with _ | f | flow
  · exact fun _ hr => by cases hr
  · exact .of_error f
  · have hflow := h flow rfl
    cases flow with
    | normal ρ' => exact (hk ρ').trans hflow
    | cont ρ' | brk ρ' | ret v ρ' => exact .of_flow hflow

end Frames

namespace Sem
variable (S : Sem F) {name : String}

theorem frames_forLoop {var : String} {stop : Val F} {body : Env F → Res F} (hne : name ≠ var)
    (hbody : ∀ ρ, Frames name ρ (body ρ)) (n : ℕ) (ρ : Env F) :
    Frames name ρ (S.forLoop var stop body n ρ) := by
  induction n generalizing ρ with
  | zero => exact fun _ h => by cases h
  | succ n ih =>
    simp only [forLoop]
    cases S.below ρ var stop with
    | error f => exact .of_error f
    | ok b =>
      cases b with
      | false => exact .of_flow rfl
      | true =>
        apply (hbody ρ).loopNext
        intro ρ'
        cases S.bump ρ' var with
        | error f => exact .of_error f
        | ok v => exact (ih _).trans (Env.set_of_ne ρ' hne v)

theorem frames_whileLoop {cond : Expr F} {body : Env F → Res F}
    (hbody : ∀ ρ, Frames name ρ (body ρ)) (n : ℕ) (ρ : Env F) :
    Frames name ρ (S.whileLoop cond body n ρ) := by
  induction n generalizing ρ with
  | zero => exact fun _ h => by cases h
  | succ n ih =>
    simp only [whileLoop]
    cases S.test ρ cond with
    | error f => exact .of_error f
    | ok b =>
      cases b with
      | false => exact .of_flow rfl
      | true => exact (hbody ρ).loopNext ih

mutual

/-- A statement leaves the names alone that it does not bind. -/
theorem frames_execStmt (n : ℕ) : ∀ (stmt : Stmt F) (ρ : Env F), name ∉ stmt.targets →
    Frames name ρ (S.execStmt n stmt ρ)
  | .assign target dtype value, ρ, h => by
    simp only [Stmt.targets, List.mem_singleton] at h
    simp only [execStmt]
    cases S.eval ρ value dtype with
    | error f => exact .of_error f
    | ok v => exact .of_flow (Env.set_of_ne ρ h v)
  | .ret value, ρ, _ => by
    simp only [execStmt]
    cases S.eval ρ value S.outputDtype with
    | error f => exact .of_error f
    | ok v => exact .of_flow rfl
  | .brk, _, _ | .cont, _, _ => .of_flow rfl
  | .forRange var start stop body, ρ, h => by
    simp only [Stmt.targets, List.mem_cons, not_or] at h
    simp only [execStmt]
    cases S.eval ρ start .i64 with
    | error f => exact .of_error f
    | ok v =>
      cases S.eval ρ stop .i64 with
      | error f => exact .of_error f
      | ok stopV =>
        have hset := Env.set_of_ne ρ h.1 v
        exact (S.frames_forLoop h.1 (fun ρ' => frames_execBody n body ρ' h.2) n _).trans hset
  | .whileDo cond body, ρ, h =>
    S.frames_whileLoop (fun ρ' => frames_execBody n body ρ' h) n ρ
  | .ifElse test thenBody elseBody, ρ, h => by
    simp only [Stmt.targets, List.mem_append, not_or] at h
    simp only [execStmt]
    cases S.test ρ test with
    | error f => exact .of_error f
    | ok b =>
      cases b with
      | true => exact frames_execBody n thenBody ρ h.1
      | false => exact frames_execBody n elseBody ρ h.2

theorem frames_execBody (n : ℕ) : ∀ (body : List (Stmt F)) (ρ : Env F), name ∉ bodyTargets body →
    Frames name ρ (S.execBody n body ρ)
  | [], _, _ => .of_flow rfl
  | stmt :: rest, ρ, h => by
    simp only [bodyTargets, List.mem_append, not_or] at h
    simp only [execBody]
    exact (frames_execStmt n stmt ρ h.1).andThen fun ρ' => frames_execBody n rest ρ' h.2

end

end Sem

theorem Flow.env_of_again {flow : Flow F} {ρ : Env F} (h : flow.again = some ρ) : flow.env = ρ := by
  cases flow with
  | normal | cont =>
    cases h
    rfl
  | brk | ret => cases h

/-- Both go on, or both leave the loop in the same way. -/
inductive SameWay : Flow F → PyFlow F → Prop
  | normal {ρ : Env F} {fr : PyFrame F} : SameWay (.normal ρ) (.normal fr)
  | cont {ρ : Env F} {fr : PyFrame F} : SameWay (.cont ρ) (.cont fr)
  | brk {ρ : Env F} {fr : PyFrame F} : SameWay (.brk ρ) (.brk fr)
  | ret {v : Val F} {ρ : Env F} {u : PyVal F} : SameWay (.ret v ρ) (.ret u)

namespace ForRun
variable {L : ForRun F} {P : PyFor F}

/-- A body that does not bind the variable of its loop keeps it. -/
theorem keeps_of_notMem (h : L.var ∉ bodyTargets L.body) {ρ : Env F} {flow : Flow F}
    (hbody : L.Body ρ flow) : L.sem.readLocal flow.env L.var = L.sem.readLocal ρ L.var := by
  obtain ⟨n, hn⟩ := hbody
  simp only [Sem.readLocal, L.sem.frames_execBody n L.body ρ h flow hn]

/-- Around such a body, exact bounds are enough for the turns to take the values of the range and
for the loop to end when its body does. -/
theorem follows_of_notMem (h : L.var ∉ bodyTargets L.body) (hstart : L.start.toInt = P.start)
    (hstop : L.stop.toInt = P.stop) : L.Follows P where
  entered := by rw [hstart, hstop]
  first _ := hstart
  keeps k ρ flow ρ' _ hbody ha := by
    have hkeeps := keeps_of_notMem h hbody
    rwa [Flow.env_of_again ha] at hkeeps
  goesOn _ _ _ _ _ _ _ := by rw [hstop]

/-- Of bodies that do not bind the variable nothing is asked but that they end in the same way. -/
theorem alike_of_notMem (h : L.var ∉ bodyTargets L.body) (h' : P.var ∉ bodyBinds P.body)
    (hway : ∀ k ρ fr, L.Turn k ρ → P.Turn k fr → L.Shows P ρ fr →
      BothWays (L.Body ρ) (P.Body fr) SameWay) : L.Alike P := by
  intro k ρ fr hturn hpy hshows
  have hsame : ∀ {flow out}, L.Body ρ flow → P.Body fr out → SameWay flow out →
      L.SameTurn P flow out := by
    intro flow out hflow hout hsame
    have hkept : ∀ {fr'}, out.frame = some fr' → L.Shows P flow.env fr' := by
      intro fr' hf
      obtain ⟨b, hread, hval⟩ := (shows_iff hpy.value).mp hshows
      exact (shows_iff (hpy.kept h' hout hf)).mpr ⟨b, (keeps_of_notMem h hflow).trans hread, hval⟩
    cases hsame with
    | normal | cont => exact .again rfl rfl (hkept rfl)
    | brk => exact .leaves rfl rfl (.normal (hkept rfl))
    | ret => exact .leaves rfl rfl .ret
  obtain ⟨hleft, hright⟩ := hway k ρ fr hturn hpy hshows
  constructor
  · intro flow hflow
    obtain ⟨out, hout, hw⟩ := hleft flow hflow
    exact ⟨out, hout, hsame hflow hout hw⟩
  · intro out hout
    obtain ⟨flow, hflow, hw⟩ := hright out hout
    exact ⟨flow, hflow, hsame hflow hout hw⟩

end ForRun

/-! ## The loop of the program -/

/-- `def f(x):` with `for i in range(x): y = i`, then `return i` -/
def lastIndex : FnNode (BitVec 64) :=
  .functionDef ["x"] [.forStmt (.name "i") (.call (.name "range") [.name "x"] [])
    [.assign [.name "y"] (.name "i")] [], .ret (some (.name "i"))]

def lastIndexKernel : Kernel (BitVec 64) where
  inputDtype := .i64
  outputDtype := .i64
  body := [.forRange "i" (.constI64 0) .param [.assign "y" .i64 (.localVar "i")], .ret (.localVar "i")]

def lastIndexSem (x : BitVec 64) : Sem (BitVec 64) :=
  lastIndexKernel.sem bitPython.fl false (.i64 x)

end Gilmap
