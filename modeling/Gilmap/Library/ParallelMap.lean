import Gilmap.Library.SharedMemory

/-! # Maps split into chunks

A range of indices is cut into consecutive chunks and one thread maps each of them: it
reads the input cells of its chunk and writes the output cells. Whatever the schedule,
all of them together access the memory as one pass over the whole range does.
-/
namespace Gilmap.Library

variable {A V L ι : Type*}

/-! ## Reads and writes of a trace -/

def Access.read? : Access A V → Option A
  | .read a => some a
  | .write _ _ => none

def Access.write? : Access A V → Option (A × V)
  | .read _ => none
  | .write a v => some (a, v)

def readsOf (tr : List (Access A V)) : List A := tr.filterMap Access.read?

def writesOf (tr : List (Access A V)) : List (A × V) := tr.filterMap Access.write?

@[simp] theorem readsOf_append (tr tr' : List (Access A V)) :
    readsOf (tr ++ tr') = readsOf tr ++ readsOf tr' := List.filterMap_append

@[simp] theorem writesOf_append (tr tr' : List (Access A V)) :
    writesOf (tr ++ tr') = writesOf tr ++ writesOf tr' := List.filterMap_append

theorem mem_readsOf {tr : List (Access A V)} {a : A} : a ∈ readsOf tr ↔ .read a ∈ tr := by
  simp only [readsOf, List.mem_filterMap]
  constructor
  · rintro ⟨e, he, hr⟩
    cases e with
    | read b => cases hr; exact he
    | write b v => cases hr
  · exact fun h => ⟨_, h, rfl⟩

theorem mem_writesOf {tr : List (Access A V)} {w : A × V} :
    w ∈ writesOf tr ↔ .write w.1 w.2 ∈ tr := by
  simp only [writesOf, List.mem_filterMap]
  constructor
  · rintro ⟨e, he, hw⟩
    cases e with
    | read b => cases hw
    | write b v => cases hw; exact he
  · exact fun h => ⟨_, h, rfl⟩

/-- All accesses of a schedule, in order. -/
def accesses (T : List (ι × List (Access A V))) : List (Access A V) := T.flatMap Prod.snd

section WriteAll
variable [DecidableEq A] {next : Program A V L}

theorem writeAll_append (m : A → V) (ws ws' : List (A × V)) :
    writeAll m (ws ++ ws') = writeAll (writeAll m ws) ws' := by
  induction ws generalizing m with
  | nil => rfl
  | cons w ws ih => exact ih _

/-- With distinct addresses every write is the last one to its address. -/
theorem writeAll_of_mem {ws : List (A × V)} (hnd : (ws.map Prod.fst).Nodup) {a : A} {v : V}
    (h : (a, v) ∈ ws) (m : A → V) : writeAll m ws a = v := by
  induction ws generalizing m with
  | nil => cases h
  | cons w ws ih =>
    rw [List.map_cons, List.nodup_cons] at hnd
    rcases List.mem_cons.mp h with rfl | h
    · rw [writeAll, writeAll_of_notMem, Function.update_self]
      intro w hw he
      exact hnd.1 (List.mem_map.mpr ⟨w, hw, he⟩)
    · exact ih hnd.2 h _

/-- The memory after a run is what its writes make of it. -/
theorem Takes.mem_eq {n : ℕ} {c c' : L × (A → V)} {tr : List (Access A V)}
    (h : Takes next n c tr c') : c'.2 = writeAll c.2 (writesOf tr) := by
  induction h with
  | refl => rfl
  | @head n c c₁ c₂ as tr hs _ ih =>
    rw [ih, writesOf_append, writeAll_append]
    congr 1
    unfold soloStep at hs
    split at hs
    · cases hs
    · cases hs
      rfl
    · rename_i cells k _
      cases hs
      have hw : writesOf (cells.map Access.read : List (Access A V)) = [] := by
        simp [writesOf, List.filterMap_map, Function.comp_def, Access.write?]
      rw [hw]
      rfl
    · rename_i cells l _
      cases hs
      have hw : writesOf (cells.map fun w => Access.write w.1 w.2) = cells := by
        simp [writesOf, List.filterMap_map, Function.comp_def, Access.write?]
      rw [hw]

end WriteAll

/-! ## Chunks -/

/-- The chunks, as pairs of first index and size, follow each other from `a` to `len`. -/
def Tiles (len : ℕ) : ℕ → List (ℕ × ℕ) → Prop
  | a, [] => a = len
  | a, (s, c) :: rest => s = a ∧ 0 < c ∧ Tiles len (a + c) rest

theorem Tiles.flatMap {len : ℕ} {chunks : List (ℕ × ℕ)} {a : ℕ} (h : Tiles len a chunks) :
    a ≤ len ∧ (chunks.flatMap fun p => List.range' p.1 p.2) = List.range' a (len - a) := by
  induction chunks generalizing a with
  | nil =>
    cases h
    simp
  | cons p rest ih =>
    obtain ⟨s, c⟩ := p
    obtain ⟨rfl, hc, hrest⟩ := h
    obtain ⟨hle, heq⟩ := ih hrest
    refine ⟨by omega, ?_⟩
    rw [List.flatMap_cons, heq, List.range'_append_1]
    congr 1
    omega

theorem Tiles.bounds {len : ℕ} {chunks : List (ℕ × ℕ)} {a : ℕ} (h : Tiles len a chunks) :
    ∀ p ∈ chunks, a ≤ p.1 ∧ p.1 + p.2 ≤ len := by
  induction chunks generalizing a with
  | nil => simp
  | cons q rest ih =>
    obtain ⟨s, c⟩ := q
    obtain ⟨rfl, -, hrest⟩ := h
    intro p hp
    rcases List.mem_cons.mp hp with rfl | hp
    · exact ⟨le_rfl, hrest.flatMap.1⟩
    · have := ih hrest p hp
      omega

theorem Tiles.pos {len : ℕ} {chunks : List (ℕ × ℕ)} {a : ℕ} (h : Tiles len a chunks) :
    ∀ p ∈ chunks, 0 < p.2 := by
  induction chunks generalizing a with
  | nil => simp
  | cons q rest ih =>
    obtain ⟨s, c⟩ := q
    obtain ⟨rfl, hc, hrest⟩ := h
    intro p hp
    rcases List.mem_cons.mp hp with rfl | hp
    · exact hc
    · exact ih hrest p hp

/-- An index in front of a position lies in a chunk before it. -/
theorem Tiles.covers {len : ℕ} {chunks : List (ℕ × ℕ)} {a : ℕ} (h : Tiles len a chunks) {k i : ℕ}
    (hai : a ≤ i) (hi : i < match chunks[k]? with
      | some p => p.1
      | none => len) :
    ∃ j < k, ∃ p, chunks[j]? = some p ∧ p.1 ≤ i ∧ i < p.1 + p.2 := by
  induction chunks generalizing a k with
  | nil =>
    cases h
    simp only [List.getElem?_nil] at hi
    omega
  | cons q rest ih =>
    obtain ⟨s, c⟩ := q
    obtain ⟨rfl, hc, hrest⟩ := h
    cases k with
    | zero =>
      simp only [List.getElem?_cons_zero] at hi
      omega
    | succ k =>
      by_cases hic : i < s + c
      · exact ⟨0, by omega, (s, c), rfl, hai, hic⟩
      · simp only [List.getElem?_cons_succ] at hi
        obtain ⟨j, hj, p, hp, hle, hlt⟩ := ih hrest (by omega) hi
        exact ⟨j + 1, by omega, p, by simpa using hp, hle, hlt⟩

/-- Different chunks share no index. -/
theorem Tiles.apart {len : ℕ} {chunks : List (ℕ × ℕ)} {a : ℕ} (h : Tiles len a chunks) :
    chunks.Pairwise fun p q => p.1 + p.2 ≤ q.1 := by
  induction chunks generalizing a with
  | nil => exact .nil
  | cons p rest ih =>
    obtain ⟨s, c⟩ := p
    obtain ⟨rfl, -, hrest⟩ := h
    exact .cons (fun q hq => (hrest.bounds q hq).1) (ih hrest)

/-! ## One thread a chunk -/

section Threads
variable [DecidableEq A]

/-- On its own, `l` reads the input cells and writes the output cells of `c` indices from `s`
on, in this order, and stops in a state `done`. -/
def MapsChunk (next : Program A V L) (done : L → Prop) (inCell outCell : ℕ → A) (v : ℕ → V)
    (m : A → V) (l : L) (s c : ℕ) : Prop :=
  ∃ n tr l' m', Takes next n (l, m) tr (l', m') ∧ next l' = none ∧ done l' ∧
    readsOf tr = (List.range' s c).map inCell ∧
    writesOf tr = (List.range' s c).map fun i => (outCell i, v i)

/-- The threads of a system map the chunks of a range, in cells that do not alias. -/
structure ParallelMap (next : Program A V L) (done : L → Prop) (inCell outCell : ℕ → A)
    (v : ℕ → V) (len : ℕ) {n : ℕ} (chunk : Fin n → ℕ × ℕ) (start : System A V L (Fin n)) :
    Prop where
  tiles : Tiles len 0 (List.ofFn chunk)
  apart : ∀ i < len, ∀ j < len, inCell i ≠ outCell j
  inj : ∀ i < len, ∀ j < len, outCell i = outCell j → i = j
  maps : ∀ c,
    MapsChunk next done inCell outCell v start.mem (start.threads c) (chunk c).1 (chunk c).2

/-- What a schedule has done so far: nothing outside the input and the output cells, no
write twice; when no thread can move, everything exactly once. -/
structure ExactPass (next : Program A V L) (done : L → Prop) (inCell outCell : ℕ → A)
    (v : ℕ → V) (len : ℕ) (m : A → V) (T : List (ι × List (Access A V)))
    (t : System A V L ι) : Prop where
  reads : (readsOf (accesses T)).Subperm ((List.range len).map inCell)
  writes : (writesOf (accesses T)).Subperm ((List.range len).map fun i => (outCell i, v i))
  finished : (∀ c, next (t.threads c) = none) → (∀ c, done (t.threads c)) ∧
    (readsOf (accesses T)).Perm ((List.range len).map inCell) ∧
    (writesOf (accesses T)).Perm ((List.range len).map fun i => (outCell i, v i)) ∧
    t.mem = writeAll m ((List.range len).map fun i => (outCell i, v i))

/-- The threads of `start` end under every schedule, after exactly one pass, with the memory
that the thread `single` on its own leaves. -/
structure LikeOnePass (next : Program A V L) (done : L → Prop) (inCell outCell : ℕ → A)
    (v : ℕ → V) (len : ℕ) {n : ℕ} (start : System A V L (Fin n)) (single : L) : Prop where
  exact : ∃ bound, ∀ T t, Sched next start T t →
    T.length ≤ bound ∧ ExactPass next done inCell outCell v len start.mem T t
  value : ∀ T t, Sched next start T t → (∀ c, next (t.threads c) = none) →
    ∀ i < len, t.mem (outCell i) = v i
  alone : ∃ n tr l m', Takes next n (single, start.mem) tr (l, m') ∧ next l = none ∧ done l ∧
    ∀ T t, Sched next start T t → (∀ c, next (t.threads c) = none) → t.mem = m'

variable {next : Program A V L} {done : L → Prop} {inCell outCell : ℕ → A} {v : ℕ → V} {len : ℕ}
  {n : ℕ} {chunk : Fin n → ℕ × ℕ} {start : System A V L (Fin n)}

omit [DecidableEq A] in
/-- The accesses of a schedule are those of its threads together. -/
theorem accesses_eq_sum (T : List (Fin n × List (Access A V))) :
    (accesses T : Multiset (Access A V)) = ∑ c, (ownTrace c T : Multiset (Access A V)) := by
  induction T with
  | nil => simp [accesses, ownTrace]
  | cons e T ih =>
    have hcons : ∀ c, (ownTrace c (e :: T) : Multiset (Access A V)) =
        (if e.1 = c then (e.2 : Multiset (Access A V)) else 0) + (ownTrace c T) := by
      intro c
      by_cases h : e.1 = c <;> simp [ownTrace, h]
    simp only [hcons, Finset.sum_add_distrib, Finset.sum_ite_eq, Finset.mem_univ, if_true, ← ih]
    simp [accesses]

omit [DecidableEq A] in
/-- The chunks together are the whole range. -/
theorem Tiles.sum_map {β : Type*} (h : Tiles len 0 (List.ofFn chunk)) (f : ℕ → β) :
    ∑ c, (((List.range' (chunk c).1 (chunk c).2).map f : List β) : Multiset β) =
      ((List.range len).map f : List β) := by
  have hflat : ∀ l : List (ℕ × ℕ),
      (l.map fun p => (((List.range' p.1 p.2).map f : List β) : Multiset β)).sum =
        ((l.flatMap fun p => List.range' p.1 p.2).map f : List β) := by
    intro l
    induction l with
    | nil => rfl
    | cons p l ih => simp [ih]
  have hsum := hflat (List.ofFn chunk)
  rw [List.map_ofFn, List.sum_ofFn, h.flatMap.2, Nat.sub_zero, ← List.range_eq_range'] at hsum
  exact hsum

/-- The output cells of a chunk. -/
def chunkCells (outCell : ℕ → A) (p : ℕ × ℕ) : Set A := {a | ∃ i, p.1 ≤ i ∧ i < p.1 + p.2 ∧ a = outCell i}

omit [DecidableEq A] in
theorem footprint_of_chunk {s c : ℕ} {tr : List (Access A V)} (hc : s + c ≤ len)
    (hr : readsOf tr = (List.range' s c).map inCell)
    (hw : writesOf tr = (List.range' s c).map fun i => (outCell i, v i)) :
    Footprint {a | ∃ i < len, a = inCell i} (chunkCells outCell (s, c)) tr := by
  intro e he
  cases e with
  | read a =>
    have ha := mem_readsOf.mpr he
    rw [hr] at ha
    obtain ⟨i, hi, rfl⟩ := List.mem_map.mp ha
    have := List.mem_range'_1.mp hi
    exact ⟨i, by omega, rfl⟩
  | write a x =>
    have ha := (mem_writesOf (w := (a, x))).mpr he
    rw [hw] at ha
    obtain ⟨i, hi, hax⟩ := List.mem_map.mp ha
    cases hax
    have := List.mem_range'_1.mp hi
    exact ⟨i, this.1, this.2, rfl⟩

omit [DecidableEq A] in
theorem chunks_shared (htiles : Tiles len 0 (List.ofFn chunk))
    (hapart : ∀ i < len, ∀ j < len, inCell i ≠ outCell j) (c : Fin n) :
    Disjoint {a | ∃ i < len, a = inCell i} (chunkCells outCell (chunk c)) := by
  have hbound := (htiles.bounds _ (List.mem_ofFn.mpr ⟨c, rfl⟩)).2
  rw [Set.disjoint_left]
  rintro a ⟨i, hi, rfl⟩ ⟨j, -, hj, he⟩
  exact hapart i hi j (by omega) he

omit [DecidableEq A] in
theorem chunks_apart (htiles : Tiles len 0 (List.ofFn chunk))
    (hinj : ∀ i < len, ∀ j < len, outCell i = outCell j → i = j) {c c' : Fin n} (hne : c ≠ c') :
    Disjoint (chunkCells outCell (chunk c)) (chunkCells outCell (chunk c')) := by
  have hc := (htiles.bounds _ (List.mem_ofFn.mpr ⟨c, rfl⟩)).2
  have hc' := (htiles.bounds _ (List.mem_ofFn.mpr ⟨c', rfl⟩)).2
  rw [Set.disjoint_left]
  rintro a ⟨i, hi₁, hi₂, rfl⟩ ⟨j, hj₁, hj₂, he⟩
  have hij := hinj i (by omega) j (by omega) he
  have hpair := List.pairwise_ofFn.mp htiles.apart
  rcases lt_or_gt_of_ne hne with hlt | hlt
  · have := hpair hlt
    omega
  · have := hpair hlt
    omega

theorem ParallelMap.isolated
    (h : ParallelMap next done inCell outCell v len chunk start) :
    ∃ steps trace final, Isolated next start steps trace final {a | ∃ i < len, a = inCell i}
        (fun c => chunkCells outCell (chunk c)) ∧
      (∀ c, done (final c).1) ∧
      (∀ c, readsOf (trace c) = (List.range' (chunk c).1 (chunk c).2).map inCell) ∧
      ∀ c, writesOf (trace c) =
        (List.range' (chunk c).1 (chunk c).2).map fun i => (outCell i, v i) := by
  choose steps trace l' m' hrun hhalt hdone hreads hwrites using h.maps
  have hbound : ∀ c, (chunk c).1 + (chunk c).2 ≤ len := fun c =>
    (h.tiles.bounds _ (List.mem_ofFn.mpr ⟨c, rfl⟩)).2
  exact ⟨steps, trace, fun c => (l' c, m' c),
    ⟨hrun, hhalt, fun c => footprint_of_chunk (hbound c) (hreads c) (hwrites c),
      chunks_shared h.tiles h.apart, fun c c' hne => chunks_apart h.tiles h.inj hne⟩,
    hdone, hreads, hwrites⟩

omit [DecidableEq A] in
theorem nodup_outCells (hinj : ∀ i < len, ∀ j < len, outCell i = outCell j → i = j) :
    (((List.range len).map fun i => (outCell i, v i)).map Prod.fst).Nodup := by
  rw [List.map_map]
  refine List.Nodup.map_on ?_ List.nodup_range
  intro i hi j hj he
  exact hinj i (List.mem_range.mp hi) j (List.mem_range.mp hj) he

omit [DecidableEq A] in
theorem filterMap_sum {α β : Type*} (f : α → Option β) (g : Fin n → Multiset α) :
    Multiset.filterMap f (∑ c, g c) = ∑ c, Multiset.filterMap f (g c) := by
  let φ : Multiset α →+ Multiset β :=
    { toFun := Multiset.filterMap f
      map_zero' := Multiset.filterMap_zero f
      map_add' := Multiset.filterMap_add f }
  exact map_sum φ g _

omit [DecidableEq A] in
/-- Kinds of accesses that each thread makes for the indices of its chunk are made, by all
threads together, for the indices of the range. -/
theorem sum_filterMap {β : Type*} (f : Access A V → Option β) (k : ℕ → β)
    {trace : Fin n → List (Access A V)} (htiles : Tiles len 0 (List.ofFn chunk))
    (hf : ∀ c, (trace c).filterMap f = (List.range' (chunk c).1 (chunk c).2).map k) :
    Multiset.filterMap f (∑ c, (trace c : Multiset (Access A V))) = ((List.range len).map k : List β) := by
  rw [filterMap_sum, ← htiles.sum_map k]
  exact Finset.sum_congr rfl fun c _ => congrArg _ (hf c)

/-- Every schedule of the chunk threads is bounded, stays within the input and the output
and, once no thread can move, has done exactly what one pass over the range does. -/
theorem ParallelMap.exact (h : ParallelMap next done inCell outCell v len chunk start) :
    ∃ bound, ∀ T t, Sched next start T t →
      T.length ≤ bound ∧ ExactPass next done inCell outCell v len start.mem T t := by
  obtain ⟨steps, trace, final, hiso, hdone, hreads, hwrites⟩ := h.isolated
  refine ⟨∑ c, steps c, fun T t hrun => ?_⟩
  have hinv := hiso.interleaved hrun
  have hreadSum := sum_filterMap Access.read? inCell h.tiles hreads
  have hwriteSum := sum_filterMap Access.write? (fun i => (outCell i, v i)) h.tiles hwrites
  -- each thread has made a part of its accesses, so all threads have made a part of them all
  have hle : (accesses T : Multiset (Access A V)) ≤ ∑ c, (trace c : Multiset (Access A V)) := by
    rw [accesses_eq_sum]
    apply Finset.sum_le_sum
    intro c _
    obtain ⟨-, rest, hrest⟩ := hiso.part hinv c
    rw [hrest]
    exact Multiset.coe_le.mpr (List.sublist_append_left _ _).subperm
  refine ⟨hiso.length_le hinv, ?_, ?_, fun hstuck => ?_⟩
  · rw [← Multiset.coe_le, ← hreadSum]
    exact Multiset.filterMap_le_filterMap _ hle
  · rw [← Multiset.coe_le, ← hwriteSum]
    exact Multiset.filterMap_le_filterMap _ hle
  · have hhalt := fun c => hiso.halted hinv (hstuck c)
    have hall : (accesses T : Multiset (Access A V)) = ∑ c, (trace c : Multiset (Access A V)) := by
      rw [accesses_eq_sum]
      exact Finset.sum_congr rfl fun c _ => congrArg _ (hhalt c).2.1
    refine ⟨fun c => ?_, ?_, ?_, ?_⟩
    · rw [(hhalt c).1]
      exact hdone c
    · rw [← Multiset.coe_eq_coe, ← hreadSum, ← hall]
      rfl
    · rw [← Multiset.coe_eq_coe, ← hwriteSum, ← hall]
      rfl
    · funext a
      by_cases ha : ∃ i < len, a = outCell i
      · obtain ⟨i, hi, rfl⟩ := ha
        have hi' : i ∈ (List.ofFn chunk).flatMap fun p => List.range' p.1 p.2 := by
          rw [h.tiles.flatMap.2]
          simpa using hi
        obtain ⟨p, hp, hip⟩ := List.mem_flatMap.mp hi'
        obtain ⟨c, rfl⟩ := List.mem_ofFn.mp hp
        have hrange := List.mem_range'_1.mp hip
        have hmem := (hhalt c).2.2 (outCell i) ⟨i, hrange.1, hrange.2, rfl⟩
        rw [hmem, (hiso.runs c).mem_eq, hwrites]
        rw [writeAll_of_mem (nodup_outCells h.inj) (List.mem_map.mpr ⟨i, List.mem_range.mpr hi, rfl⟩)]
        refine writeAll_of_mem (v := v i) ?_ (List.mem_map.mpr ⟨i, hip, rfl⟩) _
        rw [List.map_map]
        refine List.Nodup.map_on ?_ List.nodup_range'
        intro i₁ hi₁ i₂ hi₂ he
        have hb := h.tiles.bounds _ hp
        have h₁ := List.mem_range'_1.mp hi₁
        have h₂ := List.mem_range'_1.mp hi₂
        exact h.inj i₁ (by omega) i₂ (by omega) he
      · rw [writeAll_of_notMem]
        · refine hinv.untouched a fun c hac => ha ?_
          obtain ⟨i, hi₁, hi₂, rfl⟩ := hac
          have hb := h.tiles.bounds _ (List.mem_ofFn.mpr ⟨c, rfl⟩)
          exact ⟨i, by omega, rfl⟩
        · intro w hw he
          obtain ⟨i, hi, rfl⟩ := List.mem_map.mp hw
          exact ha ⟨i, List.mem_range.mp hi, he.symm⟩

/-- A thread that has halted has done its chunk, whatever the others have done. -/
theorem ParallelMap.done_of_halted (h : ParallelMap next done inCell outCell v len chunk start)
    {T : List (Fin n × List (Access A V))} {t : System A V L (Fin n)} (hT : Sched next start T t)
    {c : Fin n} (hc : next (t.threads c) = none) : done (t.threads c) := by
  obtain ⟨steps, trace, final, hiso, hdone, -⟩ := h.isolated
  rw [(hiso.halted (hiso.interleaved hT) hc).1]
  exact hdone c

theorem ParallelMap.not_runsForever (h : ParallelMap next done inCell outCell v len chunk start)
    {s : ℕ → System A V L (Fin n)} (hs : s 0 = start) : ¬ RunsForever next s := by
  obtain ⟨steps, trace, final, hiso, -⟩ := h.isolated
  exact hiso.not_runsForever hs

theorem ParallelMap.likeOnePass (h : ParallelMap next done inCell outCell v len chunk start)
    {single : L} (hs : MapsChunk next done inCell outCell v start.mem single 0 len) :
    LikeOnePass next done inCell outCell v len start single := by
  obtain ⟨bound, hexact⟩ := h.exact
  have hfinal : ∀ T t, Sched next start T t → (∀ c, next (t.threads c) = none) →
      t.mem = writeAll start.mem ((List.range len).map fun i => (outCell i, v i)) :=
    fun T t hrun hstuck => ((hexact T t hrun).2.finished hstuck).2.2.2
  refine ⟨⟨bound, hexact⟩, fun T t hrun hstuck i hi => ?_, ?_⟩
  · rw [hfinal T t hrun hstuck]
    exact writeAll_of_mem (nodup_outCells h.inj)
      (List.mem_map.mpr ⟨i, List.mem_range.mpr hi, rfl⟩) _
  · obtain ⟨n, tr, l, m', hrun, hhalt, hdone, -, hwrites⟩ := hs
    refine ⟨n, tr, l, m', hrun, hhalt, hdone, fun T t hsched hstuck => ?_⟩
    have hmem : m' = writeAll start.mem (writesOf tr) := hrun.mem_eq
    rw [hfinal T t hsched hstuck, hmem, hwrites, List.range_eq_range']

end Threads

end Gilmap.Library
