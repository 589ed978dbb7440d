import Mathlib.Tactic
import Mathlib.Order.CompletePartialOrder

/-! # Threads with private state over a shared memory

A thread is a deterministic program whose private state determines its next memory
operation. Running it alone gives one access trace; a schedule interleaves the
operations of many threads. Threads whose write sets are disjoint from each other and
from everything another thread reads behave under every schedule as they do alone.
-/
namespace Gilmap.Library

variable {A V L ι : Type*}

inductive Access (A V : Type*)
  | read (a : A)
  | write (a : A) (v : V)
  deriving DecidableEq

def Access.isWriteTo [DecidableEq A] (a : A) : Access A V → Bool
  | .read _ => false
  | .write b _ => decide (b = a)

inductive Op (A V L : Type*)
  | tau (l : L)
  | load (cells : List A) (k : List V → L)
  | store (cells : List (A × V)) (l : L)

/-- The next operation of a thread; `none` once it has halted. -/
abbrev Program (A V L : Type*) := L → Option (Op A V L)

section Solo
variable [DecidableEq A]

def writeAll (m : A → V) : List (A × V) → A → V
  | [] => m
  | w :: ws => writeAll (Function.update m w.1 w.2) ws

theorem writeAll_of_notMem {ws : List (A × V)} {a : A} (h : ∀ w ∈ ws, w.1 ≠ a) (m : A → V) :
    writeAll m ws a = m a := by
  induction ws generalizing m with
  | nil => rfl
  | cons w ws ih =>
    have hw : a ≠ w.1 := (h w List.mem_cons_self).symm
    rw [writeAll, ih (fun w' hw' => h w' (List.mem_cons_of_mem _ hw')), Function.update_of_ne hw]

theorem writeAll_congr {m m' : A → V} {a : A} (h : m a = m' a) (ws : List (A × V)) :
    writeAll m ws a = writeAll m' ws a := by
  induction ws generalizing m m' with
  | nil => exact h
  | cons w ws ih =>
    apply ih
    by_cases hw : a = w.1
    · subst hw; simp
    · simp [Function.update_of_ne hw, h]

/-- One operation of a thread running on its own, with the accesses it makes. -/
def soloStep (next : Program A V L) (c : L × (A → V)) :
    Option (List (Access A V) × (L × (A → V))) :=
  match next c.1 with
  | none => none
  | some (.tau l) => some ([], l, c.2)
  | some (.load cells k) => some (cells.map .read, k (cells.map c.2), c.2)
  | some (.store cells l) => some (cells.map (fun w => .write w.1 w.2), l, writeAll c.2 cells)

/-- `Takes next n c tr c'`: exactly `n` operations lead from `c` to `c'` with trace `tr`. -/
inductive Takes (next : Program A V L) :
    ℕ → L × (A → V) → List (Access A V) → L × (A → V) → Prop
  | refl (c : L × (A → V)) : Takes next 0 c [] c
  | head {n : ℕ} {c c' c'' : L × (A → V)} {as tr : List (Access A V)} :
      soloStep next c = some (as, c') → Takes next n c' tr c'' → Takes next (n + 1) c (as ++ tr) c''

variable {next : Program A V L} {c c' c'' : L × (A → V)} {n k : ℕ} {tr tr' : List (Access A V)}

theorem soloStep_eq_none_iff : soloStep next c = none ↔ next c.1 = none := by
  unfold soloStep
  cases h : next c.1 with
  | none => simp
  | some op => cases op <;> simp

theorem Takes.single {as : List (Access A V)} (h : soloStep next c = some (as, c')) :
    Takes next 1 c as c' := by
  simpa using Takes.head h (Takes.refl c')

theorem Takes.trans (h : Takes next n c tr c') (h' : Takes next k c' tr' c'') :
    Takes next (n + k) c (tr ++ tr') c'' := by
  induction h with
  | refl => simpa using h'
  | head hs _ ih =>
    rw [Nat.add_right_comm, List.append_assoc]
    exact .head hs (ih h')

/-- Silent operations before a run do not change its trace. -/
theorem Takes.silent_trans (h : Takes next n c [] c') (h' : Takes next k c' tr c'') :
    Takes next (n + k) c tr c'' := by
  simpa using h.trans h'

theorem Takes.snoc {as : List (Access A V)} (h : Takes next n c tr c')
    (hs : soloStep next c' = some (as, c'')) : Takes next (n + 1) c (tr ++ as) c'' :=
  h.trans (.single hs)

/-- A run is a prefix of every run from the same start that takes at least as many steps. -/
theorem Takes.split (h : Takes next n c tr c') (h' : Takes next k c tr' c'') (hk : k ≤ n) :
    ∃ rest, tr = tr' ++ rest ∧ Takes next (n - k) c'' rest c' := by
  induction h' generalizing n tr with
  | refl => exact ⟨tr, rfl, h⟩
  | head hs _ ih =>
    cases h with
    | refl => omega
    | head hs' ht =>
      rw [hs] at hs'
      cases hs'
      obtain ⟨rest, rfl, hr⟩ := ih ht (by omega)
      exact ⟨rest, by simp, by simpa using hr⟩

/-- Of two runs from one start, one goes on where the other ends. -/
theorem Takes.compare (h : Takes next n c tr c') (h' : Takes next k c tr' c'') :
    (k ≤ n ∧ ∃ rest, tr = tr' ++ rest) ∨
      (n ≤ k ∧ ∃ rest, tr' = tr ++ rest ∧ Takes next (k - n) c' rest c'') := by
  rcases Nat.le_total k n with hk | hn
  · obtain ⟨rest, htr, -⟩ := h.split h' hk
    exact .inl ⟨hk, rest, htr⟩
  · exact .inr ⟨hn, h'.split h hn⟩

theorem Takes.of_halted (h : Takes next n c tr c') (hc : next c.1 = none) :
    n = 0 ∧ tr = [] ∧ c' = c := by
  cases h with
  | refl => exact ⟨rfl, rfl, rfl⟩
  | head hs _ => simp [soloStep_eq_none_iff.mpr hc] at hs

/-- No run is longer than one that has halted. -/
theorem Takes.le_of_halted (h : Takes next n c tr c') (hc : next c'.1 = none)
    (h' : Takes next k c tr' c'') : k ≤ n := by
  by_contra hlt
  obtain ⟨rest, -, hr⟩ := h'.split h (by omega)
  have := (hr.of_halted hc).1
  omega

/-- Determinism: a thread halts in one state only, after one trace. -/
theorem Takes.halted_unique (h : Takes next n c tr c') (hc : next c'.1 = none)
    (h' : Takes next k c tr' c'') (hc' : next c''.1 = none) : n = k ∧ tr = tr' ∧ c' = c'' := by
  have hkn := h.le_of_halted hc h'
  have hnk := h'.le_of_halted hc' h
  obtain ⟨rest, rfl, hr⟩ := h.split h' hkn
  obtain ⟨-, rfl, rfl⟩ := hr.of_halted hc'
  exact ⟨by omega, by simp, rfl⟩

/-- The thread has runs of every length, so it never halts. -/
def Diverges (next : Program A V L) (c : L × (A → V)) : Prop :=
  ∀ n, ∃ k tr c', n ≤ k ∧ Takes next k c tr c'

theorem Takes.not_diverges (h : Takes next n c tr c') (hc : next c'.1 = none) :
    ¬ Diverges next c := by
  intro hd
  obtain ⟨k, tr', c'', hk, h'⟩ := hd (n + 1)
  have := h.le_of_halted hc h'
  omega

theorem Diverges.of_takes (h : Takes next n c tr c') (hd : Diverges next c') :
    Diverges next c := by
  intro m
  obtain ⟨k, tr', c'', hk, h'⟩ := hd m
  exact ⟨n + k, tr ++ tr', c'', by omega, h.trans h'⟩

/-- Up to `n` operations of a thread, with their trace. -/
def runFor (next : Program A V L) : ℕ → L × (A → V) → List (Access A V) × (L × (A → V))
  | 0, c => ([], c)
  | n + 1, c =>
    match soloStep next c with
    | none => ([], c)
    | some (as, c') => (as ++ (runFor next n c').1, (runFor next n c').2)

theorem takes_runFor (next : Program A V L) (n : ℕ) (c : L × (A → V)) :
    ∃ k, Takes next k c (runFor next n c).1 (runFor next n c).2 := by
  induction n generalizing c with
  | zero => exact ⟨0, .refl c⟩
  | succ n ih =>
    simp only [runFor]
    cases hs : soloStep next c with
    | none => exact ⟨0, .refl c⟩
    | some r =>
      obtain ⟨k, hk⟩ := ih r.2
      exact ⟨k + 1, .head hs hk⟩

/-- The cells a trace reads lie in `R` and the cells it writes in `W`. -/
def Footprint (R W : Set A) (tr : List (Access A V)) : Prop :=
  ∀ e ∈ tr, match e with
    | .read a => a ∈ R
    | .write a _ => a ∈ W

omit [DecidableEq A] in
theorem Footprint.append {R W : Set A} :
    Footprint R W (tr ++ tr') ↔ Footprint R W tr ∧ Footprint R W tr' := by
  simp only [Footprint, List.mem_append]
  exact ⟨fun h => ⟨fun e he => h e (.inl he), fun e he => h e (.inr he)⟩,
    fun h e he => he.elim (h.1 e) (h.2 e)⟩

omit [DecidableEq A] in
theorem Footprint.mono {R R' W W' : Set A} (h : Footprint R W tr) (hR : R ⊆ R') (hW : W ⊆ W') :
    Footprint R' W' tr := by
  intro e he
  have := h e he
  cases e with
  | read a => exact hR this
  | write a v => exact hW this

/-- Two memories that agree on a thread's footprint give it the same operation, and still
agree there afterwards; outside the write set nothing changes. -/
theorem soloStep_congr {R W : Set A} {l l' : L} {m mm m' : A → V} {as : List (Access A V)}
    (hs : soloStep next (l, m) = some (as, l', m')) (hf : Footprint R W as)
    (hm : ∀ a ∈ R ∪ W, m a = mm a) :
    ∃ mm', soloStep next (l, mm) = some (as, l', mm') ∧
      (∀ a ∈ R ∪ W, m' a = mm' a) ∧ ∀ a ∉ W, mm' a = mm a := by
  unfold soloStep at hs ⊢
  dsimp only at hs ⊢
  cases hop : next l with
  | none => simp [hop] at hs
  | some op =>
    rw [hop] at hs
    cases op with
    | tau l₁ =>
      cases hs
      exact ⟨mm, rfl, hm, fun _ _ => rfl⟩
    | load cells k =>
      cases hs
      have hcells : cells.map m = cells.map mm := by
        apply List.map_congr_left
        intro a ha
        exact hm a (.inl (hf (.read a) (List.mem_map_of_mem ha)))
      exact ⟨mm, by simp [hcells], hm, fun _ _ => rfl⟩
    | store cells l₁ =>
      cases hs
      refine ⟨writeAll mm cells, rfl, fun a ha => writeAll_congr (hm a ha) cells, ?_⟩
      intro a ha
      apply writeAll_of_notMem
      rintro w hw rfl
      exact ha (hf (.write w.1 w.2) (List.mem_map.mpr ⟨w, hw, rfl⟩))

end Solo

/-! ## Schedules -/

structure System (A V L ι : Type*) where
  threads : ι → L
  mem : A → V

section Schedules
variable [DecidableEq A] [DecidableEq ι]

/-- One operation of thread `i`. -/
def System.step (next : Program A V L) (s : System A V L ι) (i : ι) :
    Option (List (Access A V) × System A V L ι) :=
  (soloStep next (s.threads i, s.mem)).map fun r =>
    (r.1, { threads := Function.update s.threads i r.2.1, mem := r.2.2 })

/-- A run under some schedule: which thread moved and what it accessed, in order. -/
inductive Sched (next : Program A V L) (s : System A V L ι) :
    List (ι × List (Access A V)) → System A V L ι → Prop
  | refl : Sched next s [] s
  | snoc {T : List (ι × List (Access A V))} {t t' : System A V L ι} {i : ι}
      {as : List (Access A V)} :
      Sched next s T t → t.step next i = some (as, t') → Sched next s (T ++ [(i, as)]) t'

/-- What thread `i` did in a run. -/
def ownTrace (i : ι) (T : List (ι × List (Access A V))) : List (Access A V) :=
  (T.filter (fun e => decide (e.1 = i))).flatMap Prod.snd

def ownSteps (i : ι) (T : List (ι × List (Access A V))) : ℕ :=
  (T.filter (fun e => decide (e.1 = i))).length

omit [DecidableEq A] in
theorem ownTrace_snoc (i j : ι) (T : List (ι × List (Access A V))) (as : List (Access A V)) :
    ownTrace i (T ++ [(j, as)]) = if j = i then ownTrace i T ++ as else ownTrace i T := by
  by_cases h : j = i <;> simp [ownTrace, h]

omit [DecidableEq A] in
theorem ownSteps_snoc (i j : ι) (T : List (ι × List (Access A V))) (as : List (Access A V)) :
    ownSteps i (T ++ [(j, as)]) = if j = i then ownSteps i T + 1 else ownSteps i T := by
  by_cases h : j = i <;> simp [ownSteps, h]

theorem System.step_eq_some {next : Program A V L} {s s' : System A V L ι} {i : ι}
    {as : List (Access A V)} (h : s.step next i = some (as, s')) :
    ∃ l, soloStep next (s.threads i, s.mem) = some (as, l, s'.mem) ∧
      s'.threads = Function.update s.threads i l := by
  obtain ⟨⟨as', l, m⟩, hs, he⟩ := Option.map_eq_some_iff.mp h
  cases he
  exact ⟨l, hs, rfl⟩

/-- A thread may run alone from any state that a schedule has reached. -/
theorem Sched.alone {next : Program A V L} {s t : System A V L ι}
    {T : List (ι × List (Access A V))} (hT : Sched next s T t) {i : ι} {n : ℕ}
    {tr : List (Access A V)} {c c' : L × (A → V)} (h : Takes next n c tr c')
    (hc : c = (t.threads i, t.mem)) :
    ∃ T' t', Sched next s T' t' ∧ ownTrace i T' = ownTrace i T ++ tr ∧
      ownSteps i T' = ownSteps i T + n ∧ (t'.threads i, t'.mem) = c' := by
  induction h generalizing T t with
  | refl c => exact ⟨T, t, hT, by simp, rfl, hc.symm⟩
  | @head n c c₁ c' as tr hs _ ih =>
    subst hc
    have hstep : t.step next i = some (as, ⟨Function.update t.threads i c₁.1, c₁.2⟩) := by
      simp only [System.step, hs, Option.map_some]
    obtain ⟨T', t', hT', htr, hsteps, hfin⟩ := ih (hT.snoc hstep) (by simp)
    refine ⟨T', t', hT', ?_, ?_, hfin⟩
    · rw [htr, ownTrace_snoc, if_pos rfl, List.append_assoc]
    · rw [hsteps, ownSteps_snoc, if_pos rfl]
      omega

/-- Operation after operation, without end. -/
def RunsForever (next : Program A V L) (s : ℕ → System A V L ι) : Prop :=
  ∀ n, ∃ i as, (s n).step next i = some (as, s (n + 1))

omit [DecidableEq A] in
theorem System.exists_step [DecidableEq A] {next : Program A V L} {t : System A V L ι} {i : ι}
    (h : next (t.threads i) ≠ none) : ∃ as t', t.step next i = some (as, t') := by
  cases hs : soloStep next (t.threads i, t.mem) with
  | none => exact absurd (soloStep_eq_none_iff.mp hs) h
  | some r => exact ⟨r.1, _, by simp only [System.step, hs, Option.map_some]; rfl⟩

/-- A system comes to a state in which all threads have halted, or it has a run without end. -/
theorem Sched.halts_or_runsForever (next : Program A V L) (start : System A V L ι) :
    (∃ T t, Sched next start T t ∧ ∀ i, next (t.threads i) = none) ∨
      ∃ s : ℕ → System A V L ι, s 0 = start ∧ RunsForever next s ∧ ∀ n, ∃ T, Sched next start T (s n) := by
  by_cases h : ∃ T t, Sched next start T t ∧ ∀ i, next (t.threads i) = none
  · exact .inl h
  · right
    have hmoves : ∀ t : {t // ∃ T, Sched next start T t}, ∃ t' : {t // ∃ T, Sched next start T t},
        ∃ i as, t.1.step next i = some (as, t'.1) := by
      rintro ⟨t, T, hT⟩
      obtain ⟨i, hi⟩ := not_forall.mp fun hall => h ⟨T, t, hT, hall⟩
      obtain ⟨as, t', hstep⟩ := System.exists_step hi
      exact ⟨⟨t', _, hT.snoc hstep⟩, i, as, hstep⟩
    choose succ hsucc using hmoves
    let s : ℕ → {t // ∃ T, Sched next start T t} := fun n => succ^[n] ⟨start, [], .refl⟩
    refine ⟨fun n => (s n).1, rfl, fun n => ?_, fun n => (s n).2⟩
    have hs : s (n + 1) = succ (s n) := Function.iterate_succ_apply' _ _ _
    simp only [hs]
    exact hsucc (s n)

/-- Threads none of which, run alone, ever writes where another reads or writes. -/
structure Confined (next : Program A V L) (start : System A V L ι) (R : Set A) (W : ι → Set A) :
    Prop where
  footprint : ∀ i n tr c, Takes next n (start.threads i, start.mem) tr c → Footprint R (W i) tr
  shared : ∀ i, Disjoint R (W i)
  apart : ∀ i j, i ≠ j → Disjoint (W i) (W j)

/-- What holds along every schedule: each thread is part-way through a solo run, and the
shared memory shows each write set as its owner's solo run left it. -/
structure Interleaved (next : Program A V L) (start : System A V L ι) (R : Set A) (W : ι → Set A)
    (T : List (ι × List (Access A V))) (t : System A V L ι) : Prop where
  progress : ∀ i, ∃ m, Takes next (ownSteps i T) (start.threads i, start.mem) (ownTrace i T)
      (t.threads i, m) ∧ ∀ a ∈ R ∪ W i, m a = t.mem a
  untouched : ∀ a, (∀ i, a ∉ W i) → t.mem a = start.mem a

variable {next : Program A V L} {start t t' : System A V L ι} {i : ι} {R : Set A} {W : ι → Set A}
  {T : List (ι × List (Access A V))}

/-- The operation of a thread in the shared memory is also one in its own memory. -/
theorem exists_soloStep {l l' : L} {m m' : A → V} (mm : A → V) {as : List (Access A V)}
    (h : soloStep next (l, m) = some (as, l', m')) : ∃ r, soloStep next (l, mm) = some r := by
  cases hs : soloStep next (l, mm) with
  | none =>
    have hnone : soloStep next (l, m) = none := soloStep_eq_none_iff.mpr (soloStep_eq_none_iff.mp hs :)
    rw [hnone] at h
    cases h
  | some r => exact ⟨r, rfl⟩

theorem Interleaved.step (h : Confined next start R W) {j : ι} {as : List (Access A V)}
    (hi : Interleaved next start R W T t) (hs : t.step next j = some (as, t')) :
    Interleaved next start R W (T ++ [(j, as)]) t' := by
  obtain ⟨l, hsolo, hthreads⟩ := System.step_eq_some hs
  obtain ⟨m, hdone, hmem⟩ := hi.progress j
  -- the solo run of `j` makes the same operation from its own memory
  obtain ⟨⟨as', l', m'⟩, hstep⟩ := exists_soloStep m hsolo
  have hrun := hdone.snoc hstep
  have hfoot : Footprint R (W j) as' := (Footprint.append.mp (h.footprint j _ _ _ hrun)).2
  obtain ⟨mm, hstep', hmem', hout⟩ := soloStep_congr hstep hfoot hmem
  rw [hsolo] at hstep'
  cases hstep'
  constructor
  · intro i
    rw [ownTrace_snoc, ownSteps_snoc, hthreads]
    by_cases hij : j = i
    · subst hij
      simp only [if_true, Function.update_self]
      exact ⟨m', hrun, hmem'⟩
    · simp only [hij, if_false, Function.update_of_ne (Ne.symm hij)]
      obtain ⟨mi, hdi, hmi⟩ := hi.progress i
      refine ⟨mi, hdi, fun a ha => ?_⟩
      rw [hmi a ha, hout a]
      intro haj
      rcases ha with ha | ha
      · exact (Set.disjoint_left.mp (h.shared j)) ha haj
      · exact (Set.disjoint_left.mp (h.apart i j (Ne.symm hij))) ha haj
  · intro a ha
    rw [hout a (ha j), hi.untouched a ha]

theorem Sched.interleaved (h : Confined next start R W) (hrun : Sched next start T t) :
    Interleaved next start R W T t := by
  induction hrun with
  | refl => exact ⟨fun _ => ⟨start.mem, .refl _, fun _ _ => rfl⟩, fun _ _ => rfl⟩
  | snoc _ hs ih => exact ih.step h hs

/-- Threads with known solo runs that halt, none of which writes where another reads or
writes. -/
structure Isolated (next : Program A V L) (start : System A V L ι) (steps : ι → ℕ)
    (trace : ι → List (Access A V)) (final : ι → L × (A → V)) (R : Set A) (W : ι → Set A) :
    Prop where
  runs : ∀ i, Takes next (steps i) (start.threads i, start.mem) (trace i) (final i)
  halts : ∀ i, next (final i).1 = none
  footprint : ∀ i, Footprint R (W i) (trace i)
  shared : ∀ i, Disjoint R (W i)
  apart : ∀ i j, i ≠ j → Disjoint (W i) (W j)

variable {steps : ι → ℕ} {trace : ι → List (Access A V)} {final : ι → L × (A → V)}

omit [DecidableEq ι] in
theorem Isolated.confined (h : Isolated next start steps trace final R W) :
    Confined next start R W where
  footprint i n tr c hrun := by
    obtain ⟨rest, htr, -⟩ := (h.runs i).split hrun ((h.runs i).le_of_halted (h.halts i) hrun)
    exact (Footprint.append.mp (htr ▸ h.footprint i)).1
  shared := h.shared
  apart := h.apart

theorem Isolated.interleaved (h : Isolated next start steps trace final R W)
    (hrun : Sched next start T t) : Interleaved next start R W T t := hrun.interleaved h.confined

/-- Under a schedule each thread has done a part of its solo run. -/
theorem Isolated.part (h : Isolated next start steps trace final R W)
    (hi : Interleaved next start R W T t) (i : ι) :
    ownSteps i T ≤ steps i ∧ ∃ rest, trace i = ownTrace i T ++ rest := by
  obtain ⟨m, hdone, -⟩ := hi.progress i
  have hle := (h.runs i).le_of_halted (h.halts i) hdone
  obtain ⟨rest, htr, -⟩ := (h.runs i).split hdone hle
  exact ⟨hle, rest, htr⟩

/-- A thread that has halted under a schedule has done all of its solo run and nothing else. -/
theorem Isolated.halted (h : Isolated next start steps trace final R W)
    (hi : Interleaved next start R W T t) {i : ι} (hhalt : next (t.threads i) = none) :
    t.threads i = (final i).1 ∧ ownTrace i T = trace i ∧ ∀ a ∈ W i, t.mem a = (final i).2 a := by
  obtain ⟨m, hdone, hmem⟩ := hi.progress i
  obtain ⟨-, htr, hfin⟩ := hdone.halted_unique hhalt (h.runs i) (h.halts i)
  rw [← hfin]
  exact ⟨rfl, htr, fun a ha => (hmem a (.inr ha)).symm⟩

/-- Every schedule of isolated threads makes at most the sum of their solo steps. -/
theorem Isolated.length_le [Fintype ι] (h : Isolated next start steps trace final R W)
    (hi : Interleaved next start R W T t) : T.length ≤ ∑ i, steps i := by
  have hlen : T.length = ∑ i, ownSteps i T := by
    clear hi h
    induction T with
    | nil => simp [ownSteps]
    | cons e T ih =>
      have hcons : ∀ i, ownSteps i (e :: T) = (if e.1 = i then 1 else 0) + ownSteps i T := by
        intro i
        by_cases h : e.1 = i <;> simp [ownSteps, h, Nat.add_comm]
      simp only [hcons, Finset.sum_add_distrib, List.length_cons, ih]
      simp [Nat.add_comm]
  rw [hlen]
  exact Finset.sum_le_sum fun i _ => (h.part hi i).1

omit [DecidableEq ι] in
/-- The first `n` operations of an endless run. -/
theorem RunsForever.sched [DecidableEq ι] {s : ℕ → System A V L ι} (h : RunsForever next s) (n : ℕ) :
    ∃ T, T.length = n ∧ Sched next (s 0) T (s n) := by
  induction n with
  | zero => exact ⟨[], rfl, .refl⟩
  | succ n ih =>
    obtain ⟨T, hlen, hT⟩ := ih
    obtain ⟨i, as, hstep⟩ := h n
    exact ⟨T ++ [(i, as)], by simp [hlen], hT.snoc hstep⟩

/-- Isolated threads have no endless run. -/
theorem Isolated.not_runsForever [Fintype ι] (h : Isolated next start steps trace final R W)
    {s : ℕ → System A V L ι} (hs : s 0 = start) : ¬ RunsForever next s := by
  intro hforever
  obtain ⟨T, hlen, hT⟩ := hforever.sched (∑ i, steps i + 1)
  rw [hs] at hT
  have := h.length_le (h.interleaved hT)
  omega

omit [DecidableEq ι] in
/-- Confined threads that halt on their own. -/
theorem Confined.isolated (h : Confined next start R W)
    (hhalts : ∀ i, ∃ n tr c, Takes next n (start.threads i, start.mem) tr c ∧ next c.1 = none) :
    ∃ steps trace final, Isolated next start steps trace final R W := by
  choose steps trace final hruns hhalts using hhalts
  exact ⟨steps, trace, final, hruns, hhalts, fun i => h.footprint i _ _ _ (hruns i), h.shared, h.apart⟩

/-- In an endless run of confined threads, one of them has no end of its own. -/
theorem Confined.exists_endless [Fintype ι] (h : Confined next start R W) {s : ℕ → System A V L ι}
    (hs : s 0 = start) (hforever : RunsForever next s) :
    ∃ i, ∀ n tr c, Takes next n (start.threads i, start.mem) tr c → next c.1 ≠ none := by
  by_contra hall
  simp only [not_exists, not_forall, exists_prop, ne_eq, not_not] at hall
  obtain ⟨steps, trace, final, hisolated⟩ := h.isolated hall
  exact hisolated.not_runsForever hs hforever

end Schedules

end Gilmap.Library
