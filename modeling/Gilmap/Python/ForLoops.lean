import Gilmap.Python.Semantics

/-! # Python's `for`

The turns of a loop over a range, one after the other: each binds the variable to the next
value, whatever the body made of it, and a loop that runs out leaves what its last turn did.
-/
namespace Gilmap
variable {F : Type}

/-! ## More fuel never changes a result -/

/-- `r'` is `r` unless `r` ran out of fuel. -/
def PyResLe (r r' : PyRes F) : Prop := r = none ∨ r = r'

namespace PyResLe
variable {r r' : PyRes F}

theorem refl (r : PyRes F) : PyResLe r r := .inr rfl

theorem of_some (h : PyResLe r r') {o : Except PyExc (PyFlow F)} (ho : r = some o) : r' = some o := by
  rcases h with h | h
  · simp [h] at ho
  · rw [← h, ho]

theorem loopNext {again again' : PyFrame F → PyRes F} (h : PyResLe r r')
    (ha : ∀ fr, PyResLe (again fr) (again' fr)) : PyResLe (r.loopNext again) (r'.loopNext again') := by
  rcases h with rfl | rfl
  · exact .inl rfl
  · unfold PyRes.loopNext
    split
    · exact ha _
    · exact ha _
    · exact .refl _
    · exact .refl _

theorem andThen {k k' : PyFrame F → PyRes F} (h : PyResLe r r') (hk : ∀ fr, PyResLe (k fr) (k' fr)) :
    PyResLe (r.andThen k) (r'.andThen k') := by
  rcases h with rfl | rfl
  · exact .inl rfl
  · unfold PyRes.andThen
    split
    · exact hk _
    · exact .refl _

end PyResLe

namespace PyFloats
variable (py : PyFloats F)

theorem forLoop_le {var : String} {body body' : PyFrame F → PyRes F}
    (hb : ∀ fr, PyResLe (body fr) (body' fr)) (n : ℕ) (i : ℤ) (fr : PyFrame F) :
    PyResLe (forLoop var body n i fr) (forLoop var body' n i fr) := by
  induction n generalizing i fr with
  | zero => exact .refl _
  | succ n ih => exact (hb _).loopNext fun fr' => ih (i + 1) fr'

theorem whileLoop_le {test : PyExpr F} {body body' : PyFrame F → PyRes F}
    (hb : ∀ fr, PyResLe (body fr) (body' fr)) {n m : ℕ} (hnm : n ≤ m) (fr : PyFrame F) :
    PyResLe (py.whileLoop test body n fr) (py.whileLoop test body' m fr) := by
  induction n generalizing m fr with
  | zero => exact .inl rfl
  | succ n ih =>
    obtain ⟨m, rfl⟩ : ∃ k, m = k + 1 := ⟨m - 1, by omega⟩
    simp only [whileLoop]
    cases py.eval fr test >>= py.truthy with
    | error e => exact .refl _
    | ok b =>
      cases b with
      | false => exact .refl _
      | true => exact (hb fr).loopNext fun fr' => ih (by omega) fr'

mutual

theorem execStmt_le {n m : ℕ} (hnm : n ≤ m) :
    ∀ (stmt : PyStmt F) (fr : PyFrame F), PyResLe (py.execStmt n stmt fr) (py.execStmt m stmt fr)
  | .ifStmt test body orelse, fr => by
    simp only [execStmt]
    cases py.eval fr test >>= py.truthy with
    | error e => exact .refl _
    | ok b =>
      cases b with
      | true => exact execBody_le hnm body fr
      | false => exact execBody_le hnm orelse fr
  | .forStmt target iter body orelse, fr => by
    cases target with
    | name var =>
      cases orelse with
      | nil =>
        simp only [execStmt]
        cases py.range fr iter with
        | error e => exact .refl _
        | ok bounds => exact forLoop_le (execBody_le hnm body) _ _ _
      | cons => exact .refl _
    | _ => exact .refl _
  | .whileStmt test body orelse, fr => by
    cases orelse with
    | nil => exact py.whileLoop_le (execBody_le hnm body) hnm fr
    | cons => exact .refl _
  | .assign targets value, fr => by
    rcases targets with _ | ⟨target, _ | _⟩
    · exact .refl _
    · cases target <;> exact .refl _
    · cases target <;> exact .refl _
  | .augAssign target op value, fr => by cases target <;> exact .refl _
  | .ret value, fr => by cases value <;> exact .refl _
  | .brk, _ | .cont, _ | .other _, _ => .refl _
  | .exprStmt value, fr => by
    cases value with
    | constant c => cases c <;> exact .refl _
    | _ => exact .refl _

theorem execBody_le {n m : ℕ} (hnm : n ≤ m) :
    ∀ (body : List (PyStmt F)) (fr : PyFrame F), PyResLe (py.execBody n body fr) (py.execBody m body fr)
  | [], _ => .refl _
  | stmt :: rest, fr => (execStmt_le hnm stmt fr).andThen (execBody_le hnm rest)

end

theorem execBody_mono {n m : ℕ} (hnm : n ≤ m) {body : List (PyStmt F)} {fr : PyFrame F}
    {o : Except PyExc (PyFlow F)} (h : py.execBody n body fr = some o) :
    py.execBody m body fr = some o :=
  (py.execBody_le hnm body fr).of_some h

end PyFloats

/-! ## What the statements leave alone -/

/-- Where the statements behind a body or a loop go on from. -/
def PyFlow.frame : PyFlow F → Option (PyFrame F)
  | .normal fr | .brk fr | .cont fr => some fr
  | .ret _ => none

/-- The frames that the result ends in have the property. -/
def PyRes.Ensures (Q : PyFrame F → Prop) (r : PyRes F) : Prop :=
  ∀ flow fr, r = some (.ok flow) → flow.frame = some fr → Q fr

section Ensures
variable {py : PyFloats F} {Q : PyFrame F → Prop} {r : PyRes F}

theorem PyRes.Ensures.of_error (e : PyExc) : PyRes.Ensures Q (some (.error e)) := fun _ _ h => by cases h

theorem PyRes.Ensures.of_flow {flow : PyFlow F} (h : ∀ fr, flow.frame = some fr → Q fr) :
    PyRes.Ensures Q (some (.ok flow)) := fun _ fr hflow => by
  cases hflow
  exact h fr

theorem PyRes.Ensures.of_frame {fr : PyFrame F} (h : Q fr) :
    PyRes.Ensures Q (some (.ok (.normal fr))) := .of_flow fun _ hfr => by
  cases hfr
  exact h

theorem PyRes.Ensures.loopNext {again : PyFrame F → PyRes F} (h : r.Ensures Q)
    (ha : ∀ fr, Q fr → (again fr).Ensures Q) : (r.loopNext again).Ensures Q := by
  rcases r with _ | e | flow
  · exact fun _ _ hr => by cases hr
  · exact .of_error e
  · cases flow with
    | normal fr | cont fr => exact ha fr (h _ fr rfl rfl)
    | brk fr => exact .of_frame (h _ fr rfl rfl)
    | ret v => exact .of_flow fun _ hfr => by cases hfr

theorem PyRes.Ensures.andThen {k : PyFrame F → PyRes F} (h : r.Ensures Q)
    (hk : ∀ fr, Q fr → (k fr).Ensures Q) : (r.andThen k).Ensures Q := by
  rcases r with _ | e | flow
  · exact fun _ _ hr => by cases hr
  · exact .of_error e
  · cases flow with
    | normal fr => exact hk fr (h _ fr rfl rfl)
    | brk fr | cont fr | ret v => exact h

theorem PyFloats.ensures_forLoop {var : String} {body : PyFrame F → PyRes F}
    (hvar : ∀ fr v, Q fr → Q (fr.bind var v)) (hb : ∀ fr, Q fr → (body fr).Ensures Q) (n : ℕ) (i : ℤ)
    {fr : PyFrame F} (h : Q fr) : (PyFloats.forLoop var body n i fr).Ensures Q := by
  induction n generalizing i fr with
  | zero => exact .of_frame h
  | succ n ih => exact (hb _ (hvar fr _ h)).loopNext fun fr' h' => ih (i + 1) h'

theorem PyFloats.ensures_whileLoop {test : PyExpr F} {body : PyFrame F → PyRes F}
    (hb : ∀ fr, Q fr → (body fr).Ensures Q) (n : ℕ) {fr : PyFrame F} (h : Q fr) :
    (py.whileLoop test body n fr).Ensures Q := by
  induction n generalizing fr with
  | zero => exact fun _ _ hr => by cases hr
  | succ n ih =>
    simp only [whileLoop]
    cases py.eval fr test >>= py.truthy with
    | error e => exact .of_error e
    | ok b =>
      cases b with
      | false => exact .of_frame h
      | true => exact (hb fr h).loopNext fun fr' h' => ih h'

mutual

/-- What no binding of the names of a statement changes, the statement does not change. -/
theorem PyFloats.ensures_execStmt (n : ℕ) : ∀ (stmt : PyStmt F) {fr : PyFrame F},
    (∀ name ∈ stmt.binds, ∀ fr v, Q fr → Q (fr.bind name v)) → Q fr → (py.execStmt n stmt fr).Ensures Q
  | .assign targets value, fr, hbind, h => by
    rcases targets with _ | ⟨target, _ | _⟩
    · exact .of_error _
    · cases target with
      | name name =>
        simp only [execStmt]
        cases py.eval fr value with
        | error e => exact .of_error e
        | ok v => exact .of_frame (hbind name (by simp [PyStmt.binds]) fr v h)
      | _ => exact .of_error _
    · cases target <;> exact .of_error _
  | .augAssign target op value, fr, hbind, h => by
    cases target with
    | name name =>
      simp only [execStmt]
      cases py.eval fr (.binOp (.name name) op value) with
      | error e => exact .of_error e
      | ok v => exact .of_frame (hbind name (by simp [PyStmt.binds]) fr v h)
    | _ => exact .of_error _
  | .ret value, fr, _, _ => by
    cases value with
    | none => exact .of_error _
    | some value =>
      simp only [execStmt]
      cases py.eval fr value with
      | error e => exact .of_error e
      | ok v => exact .of_flow fun _ hfr => by cases hfr
  | .ifStmt test body orelse, fr, hbind, h => by
    simp only [PyStmt.binds, List.mem_append] at hbind
    simp only [execStmt]
    cases py.eval fr test >>= py.truthy with
    | error e => exact .of_error e
    | ok b =>
      cases b with
      | true => exact ensures_execBody n body (fun name hname => hbind name (.inl hname)) h
      | false => exact ensures_execBody n orelse (fun name hname => hbind name (.inr hname)) h
  | .forStmt target iter body orelse, fr, hbind, h => by
    cases target with
    | name var =>
      cases orelse with
      | nil =>
        simp only [PyStmt.binds, List.mem_cons, List.mem_append] at hbind
        simp only [execStmt]
        cases py.range fr iter with
        | error e => exact .of_error e
        | ok bounds =>
          refine ensures_forLoop (hbind var (.inl rfl)) (fun fr' h' => ?_) _ _ h
          exact ensures_execBody n body (fun name hname => hbind name (.inr (.inl hname))) h'
      | cons => exact .of_error _
    | _ => exact .of_error _
  | .whileStmt test body orelse, fr, hbind, h => by
    cases orelse with
    | nil =>
      simp only [PyStmt.binds, List.mem_append] at hbind
      refine ensures_whileLoop (fun fr' h' => ?_) n h
      exact ensures_execBody n body (fun name hname => hbind name (.inl hname)) h'
    | cons => exact .of_error _
  | .brk, fr, _, h | .cont, fr, _, h => .of_flow fun _ hfr => by
    cases hfr
    exact h
  | .exprStmt value, fr, _, h => by
    cases value with
    | constant c =>
      cases c with
      | str => exact .of_frame h
      | _ => exact .of_error _
    | _ => exact .of_error _
  | .other _, _, _, _ => .of_error _

theorem PyFloats.ensures_execBody (n : ℕ) : ∀ (body : List (PyStmt F)) {fr : PyFrame F},
    (∀ name ∈ bodyBinds body, ∀ fr v, Q fr → Q (fr.bind name v)) → Q fr →
    (py.execBody n body fr).Ensures Q
  | [], _, _, h => .of_frame h
  | stmt :: rest, fr, hbind, h => by
    simp only [bodyBinds, List.mem_append] at hbind
    simp only [execBody]
    refine (ensures_execStmt n stmt (fun name hname => hbind name (.inl hname)) h).andThen fun fr' h' => ?_
    exact ensures_execBody n rest (fun name hname => hbind name (.inr hname)) h'

end

end Ensures

/-! ## Turn by turn -/

/-- Where a loop goes on from after a turn. -/
def PyFlow.again : PyFlow F → Option (PyFrame F)
  | .normal fr | .cont fr => some fr
  | .brk _ | .ret _ => none

/-- How a turn ends the loop. -/
def PyFlow.leaves : PyFlow F → Option (PyFlow F)
  | .brk fr => some (.normal fr)
  | .ret v => some (.ret v)
  | .normal _ | .cont _ => none

section Turns
variable {flow flow' : PyFlow F} {fr : PyFrame F}

theorem PyFlow.frame_of_again (h : flow.again = some fr) : flow.frame = some fr := by
  cases flow with
  | normal | cont => exact h
  | brk | ret => cases h

theorem PyRes.loopNext_again (h : flow.again = some fr) (again : PyFrame F → PyRes F) :
    PyRes.loopNext (some (.ok flow)) again = again fr := by
  cases flow with
  | normal | cont =>
    cases h
    rfl
  | brk | ret => cases h

theorem PyRes.loopNext_leaves (h : flow.leaves = some flow') (again : PyFrame F → PyRes F) :
    PyRes.loopNext (some (.ok flow)) again = some (.ok flow') := by
  cases flow with
  | normal | cont => cases h
  | brk | ret =>
    cases h
    rfl

end Turns

/-- A `for` of Python's whose `range` has been evaluated. -/
structure PyFor (F : Type) where
  py : PyFloats F
  var : String
  start : ℤ
  stop : ℤ
  body : List (PyStmt F)
  before : PyFrame F

namespace PyFor
variable (P : PyFor F)

/-- The body, run from `fr`, comes to an end. -/
def Body (fr : PyFrame F) (flow : PyFlow F) : Prop := ∃ n, P.py.execBody n P.body fr = some (.ok flow)

/-- `Turn k fr`: after `k` turns the loop begins another one, with the next value of the range. -/
inductive Turn : ℕ → PyFrame F → Prop
  | first : P.start < P.stop → Turn 0 (P.before.bind P.var (.int P.start))
  | next {k : ℕ} {fr fr' : PyFrame F} {flow : PyFlow F} : Turn k fr → P.Body fr flow →
      flow.again = some fr' → P.start + (k + 1) < P.stop →
      Turn (k + 1) (fr'.bind P.var (.int (P.start + (k + 1))))

/-- `Ends k flow`: the loop ends so, with `k` turns begun. -/
inductive Ends : ℕ → PyFlow F → Prop
  | skipped : P.stop ≤ P.start → Ends 0 (.normal P.before)
  | usedUp {k : ℕ} {fr fr' : PyFrame F} {flow : PyFlow F} : P.Turn k fr → P.Body fr flow →
      flow.again = some fr' → P.stop ≤ P.start + (k + 1) → Ends (k + 1) (.normal fr')
  | left {k : ℕ} {fr : PyFrame F} {flow flow' : PyFlow F} : P.Turn k fr → P.Body fr flow →
      flow.leaves = some flow' → Ends (k + 1) flow'

/-- The rest of the loop, `k` values of the range behind it, ends so. -/
def From (k : ℕ) (fr : PyFrame F) (out : PyFlow F) : Prop :=
  ∃ n, PyFloats.forLoop P.var (P.py.execBody n P.body) (P.stop - (P.start + k)).toNat (P.start + k) fr =
    some (.ok out)

variable {P}

section
variable {k : ℕ} {fr fr' : PyFrame F} {flow out : PyFlow F}

theorem from_done (h : P.stop ≤ P.start + k) : P.From k fr (.normal fr) := by
  refine ⟨0, ?_⟩
  rw [show (P.stop - (P.start + k)).toNat = 0 by omega]
  rfl

theorem from_next (h : P.start + k < P.stop) (hbody : P.Body (fr.bind P.var (.int (P.start + k))) flow)
    (ha : flow.again = some fr') (hrest : P.From (k + 1) fr' out) : P.From k fr out := by
  obtain ⟨n, hn⟩ := hbody
  obtain ⟨m, hm⟩ := hrest
  refine ⟨max n m, ?_⟩
  have hcount : (P.stop - (P.start + k)).toNat = (P.stop - (P.start + ↑(k + 1))).toNat + 1 := by
    push_cast
    omega
  have hvalue : P.start + k + 1 = P.start + ↑(k + 1) := by
    push_cast
    ring
  have hturn := P.py.execBody_mono (le_max_left n m) hn
  have hle := (P.py.execBody_le (le_max_right n m) P.body)
  rw [hcount, PyFloats.forLoop, hturn, PyRes.loopNext_again ha, hvalue]
  exact (PyFloats.forLoop_le hle _ _ _).of_some hm

theorem from_leave (h : P.start + k < P.stop) (hbody : P.Body (fr.bind P.var (.int (P.start + k))) flow)
    (hl : flow.leaves = some out) : P.From k fr out := by
  obtain ⟨n, hn⟩ := hbody
  refine ⟨n, ?_⟩
  rw [show (P.stop - (P.start + k)).toNat = (P.stop - (P.start + k)).toNat - 1 + 1 by omega,
    PyFloats.forLoop, hn, PyRes.loopNext_leaves hl]

/-- What the loop does from a turn on, it does from its beginning. -/
theorem Turn.fromStart (h : P.Turn k fr) : ∃ fr₀, fr = fr₀.bind P.var (.int (P.start + k)) ∧
    P.start + k < P.stop ∧ ∀ out, P.From k fr₀ out → P.From 0 P.before out := by
  induction h with
  | first hlt => exact ⟨P.before, by simp, by simpa using hlt, fun _ h => h⟩
  | @next k fr fr' flow _ hbody ha hlt ih =>
    obtain ⟨fr₀, rfl, hk, hfrom⟩ := ih
    refine ⟨fr', by push_cast; rfl, by push_cast; exact hlt, fun out hout => hfrom out ?_⟩
    exact from_next hk hbody ha hout

theorem Ends.fromStart (h : P.Ends k out) : P.From 0 P.before out := by
  cases h with
  | skipped hle => exact from_done (by simpa using hle)
  | usedUp hturn hbody ha hle =>
    obtain ⟨fr₀, rfl, hk, hfrom⟩ := hturn.fromStart
    exact hfrom _ (from_next hk hbody ha (from_done (by push_cast; exact hle)))
  | left hturn hbody hl =>
    obtain ⟨fr₀, rfl, hk, hfrom⟩ := hturn.fromStart
    exact hfrom _ (from_leave hk hbody hl)

/-- A run of what is left of the loop, by induction on the values that are left. -/
theorem exists_ends {n c : ℕ} (hc : (P.stop - (P.start + k)).toNat = c)
    (hturn : P.start + k < P.stop → P.Turn k (fr.bind P.var (.int (P.start + k))))
    (hdone : P.stop ≤ P.start + k → P.Ends k (.normal fr))
    (h : PyFloats.forLoop P.var (P.py.execBody n P.body) c (P.start + k) fr = some (.ok out)) :
    ∃ k, P.Ends k out := by
  induction c generalizing k fr with
  | zero =>
    cases h
    exact ⟨k, hdone (by omega)⟩
  | succ c ih =>
    have hturn := hturn (by omega)
    simp only [PyFloats.forLoop] at h
    cases hr : P.py.execBody n P.body (fr.bind P.var (.int (P.start + k))) with
    | none => simp [hr, PyRes.loopNext] at h
    | some r =>
      cases r with
      | error e => simp [hr, PyRes.loopNext] at h
      | ok flow =>
        simp only [hr, PyRes.loopNext] at h
        cases flow with
        | normal fr' | cont fr' =>
          simp only [show P.start + k + 1 = P.start + ↑(k + 1) by push_cast; ring] at h
          refine ih (by push_cast; omega) (fun hlt => ?_) (fun hle => ?_) h
          · push_cast at hlt ⊢
            exact hturn.next ⟨n, hr⟩ rfl hlt
          · push_cast at hle
            exact .usedUp hturn ⟨n, hr⟩ rfl hle
        | brk fr' | ret v =>
          cases h
          exact ⟨k + 1, .left hturn ⟨n, hr⟩ rfl⟩

/-- The ends of the loop are the results of the statement. -/
theorem ends_iff {iter : PyExpr F} (hrange : P.py.range P.before iter = .ok (P.start, P.stop))
    (out : PyFlow F) : (∃ k, P.Ends k out) ↔
      ∃ n, P.py.execStmt n (.forStmt (.name P.var) iter P.body []) P.before = some (.ok out) := by
  simp only [PyFloats.execStmt, hrange]
  constructor
  · rintro ⟨k, hk⟩
    obtain ⟨n, hn⟩ := hk.fromStart
    exact ⟨n, by simpa using hn⟩
  · rintro ⟨n, hn⟩
    have hn : PyFloats.forLoop P.var (P.py.execBody n P.body) (P.stop - (P.start + (0 : ℕ))).toNat
        (P.start + (0 : ℕ)) P.before = some (.ok out) := by simpa using hn
    refine exists_ends rfl (fun hlt => ?_) (fun hle => .skipped (by simpa using hle)) hn
    simpa using Turn.first (by simpa using hlt)

theorem Body.unique {flow' : PyFlow F} (h : P.Body fr flow) (h' : P.Body fr flow') : flow = flow' := by
  obtain ⟨n, hn⟩ := h
  obtain ⟨m, hm⟩ := h'
  have hleft := P.py.execBody_mono (le_max_left n m) hn
  have hright := P.py.execBody_mono (le_max_right n m) hm
  rw [hleft] at hright
  cases hright
  rfl

theorem Turn.unique (h : P.Turn k fr) (h' : P.Turn k fr') : fr = fr' := by
  induction h generalizing fr' with
  | first =>
    cases h'
    rfl
  | next _ hbody ha _ ih =>
    cases h' with
    | next hturn hbody' ha' _ =>
      obtain rfl := ih hturn
      obtain rfl := hbody.unique hbody'
      rw [ha] at ha'
      cases ha'
      rfl

/-- A turn finds the variable at its value of the range. -/
theorem Turn.value (h : P.Turn k fr) : fr.vals P.var = some (.int (P.start + k)) := by
  obtain ⟨fr₀, rfl, -⟩ := h.fromStart
  simp [PyFrame.bind]

theorem Turn.lt (h : P.Turn k fr) : P.start + k < P.stop := by
  obtain ⟨-, -, hlt, -⟩ := h.fromStart
  exact hlt

/-- The variable stays bound, whatever the body does. -/
theorem Turn.bound (h : P.Turn k fr) (hbody : P.Body fr flow) (hf : flow.frame = some fr') :
    ∃ u, fr'.vals P.var = some u := by
  obtain ⟨n, hn⟩ := hbody
  refine PyFloats.ensures_execBody (Q := fun fr => ∃ u, fr.vals P.var = some u) n P.body ?_
    ⟨_, h.value⟩ flow fr' hn hf
  rintro name - fr v ⟨u, hu⟩
  by_cases hname : P.var = name
  · exact ⟨v, by simp [PyFrame.bind, hname]⟩
  · exact ⟨u, by simp [PyFrame.bind, Function.update_of_ne hname, hu]⟩

/-- A body that does not bind the variable leaves it at the value of the turn. -/
theorem Turn.kept (h : P.Turn k fr) (hvar : P.var ∉ bodyBinds P.body) (hbody : P.Body fr flow)
    (hf : flow.frame = some fr') : fr'.vals P.var = some (.int (P.start + k)) := by
  obtain ⟨n, hn⟩ := hbody
  refine PyFloats.ensures_execBody (Q := fun fr => fr.vals P.var = some (.int (P.start + k))) n P.body ?_
    h.value flow fr' hn hf
  intro name hname fr v hfr
  have hne : P.var ≠ name := fun heq => hvar (heq ▸ hname)
  simpa [PyFrame.bind, Function.update_of_ne hne] using hfr

end

end PyFor

end Gilmap
