import Gilmap.Dispatch.Parallel
import Gilmap.Python.TryCompile

/-! # Elements and their neighbours

The element loop keeps its variables from one element to the next. An element whose body
reads no unassigned local cannot see them: its outcome is the same in every buffer, at
every position and in every chunk.
-/
namespace Gilmap
open Library
variable {F : Type}

/-! ## Footprints of calls that need not end -/

/-- The slots from element `q` on. -/
def slotsFrom (base : Addr) (q n : ℕ) : Set Addr := {a | ∃ j, q ≤ j ∧ j < n ∧ a = slot base j}

theorem slotsFrom_mono (base : Addr) {q q' n : ℕ} (h : q ≤ q') :
    slotsFrom base q' n ⊆ slotsFrom base q n := by
  rintro a ⟨j, hj, hn, rfl⟩
  exact ⟨j, by omega, hn, rfl⟩

section Loop
variable {fl : FloatOps F} {k : Kernel F} {g : Compiled F} {cx : LowerCx}
  {start final : LowerState} {bodyCode : List (Item F)} {header entry out : ℕ}
  {inPtr outPtr len : Addr} {i q n : ℕ} {l : Local F} {m : Mem F}
  {tr : List (Access Addr (Val F))} {c : Local F × Mem F}

theorem footprint_round {v : Val F} (hq : q < len.toNat) :
    Footprint (slotsFrom inPtr q len.toNat) (slotsFrom outPtr q len.toNat)
      [.read (slot inPtr q), .write (slot outPtr q) v] := by
  intro e he
  simp only [List.mem_cons, List.not_mem_nil, or_false] at he
  rcases he with rfl | rfl
  · exact ⟨q, le_rfl, hq, rfl⟩
  · exact ⟨q, le_rfl, hq, rfl⟩

theorem footprint_read (hq : q < len.toNat) :
    Footprint (V := Val F) (slotsFrom inPtr q len.toNat) (slotsFrom outPtr q len.toNat)
      [.read (slot inPtr q)] := by
  intro e he
  rw [List.mem_singleton] at he
  subst he
  exact ⟨q, le_rfl, hq, rfl⟩

/-- From the test of element `q` on, a call only touches slots from `q` on. -/
theorem ElementLoop.footprint (E : ElementLoop fl k g cx start final bodyCode header entry out)
    (d : ℕ) (hd : q + d = len.toNat) (hb : Buffers m inPtr outPtr len (clType k.inputDtype))
    (h : AtHeader g header inPtr outPtr len q l) (hrun : Takes (clifNext fl g.code) n (l, m) tr c) :
    Footprint (slotsFrom inPtr q len.toNat) (slotsFrom outPtr q len.toNat) tr := by
  induction d generalizing q l m n tr with
  | zero =>
    obtain rfl : q = len.toNat := hd
    obtain ⟨l', hs, hret⟩ := E.return h
    obtain ⟨rest, htr, -⟩ :=
      (hs m).split hrun ((hs m).le_of_halted (clifNext_returned hret) hrun)
    rw [List.nil_eq, List.append_eq_nil_iff] at htr
    rw [htr.1]
    exact fun e he => nomatch he
  | succ d ih =>
    have hq : q < len.toNat := by omega
    have hx := hb.typed q hq
    obtain ⟨r, hr⟩ := Sem.computes_total (k.sem fl false (m (slot inPtr q))) k.body
      (leftovers g.locals l)
    have hround := E.round h hq hx hr
    cases r with
    | value v =>
      obtain ⟨n₁, l₁, hrun₁, hat⟩ := hround
      rcases hrun₁.compare hrun with ⟨-, rest, htr⟩ | ⟨-, rest, rfl, hrest⟩
      · exact (Footprint.append.mp (htr ▸ footprint_round hq)).1
      · have hws : ∀ w ∈ [(slot outPtr q, v)], ∃ j < len.toNat, w.1 = slot outPtr j :=
          fun w hw => ⟨q, hq, congrArg Prod.fst (List.mem_singleton.mp hw)⟩
        have hf := ih (by omega) (hb.written hws) hat hrest
        exact Footprint.append.mpr ⟨footprint_round hq,
          hf.mono (slotsFrom_mono inPtr (by omega)) (slotsFrom_mono outPtr (by omega))⟩
    | fault f =>
      obtain ⟨n₁, l₁, hrun₁, hf⟩ := hround
      obtain ⟨rest, htr, -⟩ :=
        hrun₁.split hrun (hrun₁.le_of_halted (clifNext_faulted hf) hrun)
      exact (Footprint.append.mp (htr ▸ footprint_read hq)).1
    | diverge =>
      obtain ⟨n₁, l₁, hle, hrun₁⟩ := hround n
      obtain ⟨rest, htr, -⟩ := hrun₁.split hrun hle
      exact (Footprint.append.mp (htr ▸ footprint_read hq)).1

end Loop

/-! ## The outcome of one element -/

/-- What the runs of a thread show about the element at `inSlot`: its result is stored at
`outSlot`, or the thread traps or runs forever after reading it. -/
inductive SoloOutcome (fl : FloatOps F) (g : Compiled F) (c₀ : Local F × Mem F)
    (inSlot outSlot : Addr) : ElemResult F → Prop
  | value {n : ℕ} {tr : List (Access Addr (Val F))} {c : Local F × Mem F} {v : Val F} :
      Takes (clifNext fl g.code) n c₀ tr c → .write outSlot v ∈ tr →
      SoloOutcome fl g c₀ inSlot outSlot (.value v)
  | fault {n : ℕ} {tr : List (Access Addr (Val F))} {l : Local F} {m : Mem F} {f : Fault} :
      Takes (clifNext fl g.code) n c₀ tr (l, m) → .read inSlot ∈ tr →
      (∀ v, .write outSlot v ∉ tr) → l.ctl = .faulted f →
      SoloOutcome fl g c₀ inSlot outSlot (.fault f)
  | diverge : (∀ n, ∃ k tr c, n ≤ k ∧ Takes (clifNext fl g.code) k c₀ tr c ∧
        .read inSlot ∈ tr ∧ ∀ v, .write outSlot v ∉ tr) →
      SoloOutcome fl g c₀ inSlot outSlot .diverge

section Solo
variable {fl : FloatOps F} {k : Kernel F} {g : Compiled F} {cx : LowerCx}
  {start final : LowerState} {bodyCode : List (Item F)} {header entry out : ℕ}
  {inPtr outPtr len : Addr} {i q n : ℕ} {l : Local F} {m : Mem F}
  {pre : List (Access Addr (Val F))} {c₀ c₁ : Local F × Mem F} {inSlot outSlot : Addr}
  {r r' : ElemResult F}

/-- A first part of the run that does not concern the element may be left out. -/
theorem SoloOutcome.after (h : SoloOutcome fl g c₀ inSlot outSlot r)
    (hpre : Takes (clifNext fl g.code) n c₀ pre c₁) (hr : .read inSlot ∉ pre)
    (hw : ∀ v, .write outSlot v ∉ pre) : SoloOutcome fl g c₁ inSlot outSlot r := by
  cases h with
  | value hrun hv =>
    rcases hpre.compare hrun with ⟨-, rest, htr⟩ | ⟨-, rest, rfl, hrest⟩
    · exact absurd (htr ▸ List.mem_append_left rest hv) (hw _)
    · exact .value hrest ((List.mem_append.mp hv).resolve_left (hw _))
  | fault hrun hread hwrite hf =>
    rcases hpre.compare hrun with ⟨-, rest, htr⟩ | ⟨-, rest, rfl, hrest⟩
    · exact absurd (htr ▸ List.mem_append_left rest hread) hr
    · exact .fault hrest ((List.mem_append.mp hread).resolve_left hr)
        (fun v hv => hwrite v (List.mem_append_right _ hv)) hf
  | diverge hd =>
    refine .diverge fun n' => ?_
    obtain ⟨j, tr, c, hj, hrun, hread, hwrite⟩ := hd (n + n')
    rcases hpre.compare hrun with ⟨hle, rest, htr⟩ | ⟨-, rest, rfl, hrest⟩
    · exact absurd (htr ▸ List.mem_append_left rest hread) hr
    · exact ⟨j - n, rest, c, by omega, hrest, (List.mem_append.mp hread).resolve_left hr,
        fun v hv => hwrite v (List.mem_append_right _ hv)⟩

theorem SoloOutcome.before (h : SoloOutcome fl g c₁ inSlot outSlot r)
    (hpre : Takes (clifNext fl g.code) n c₀ [] c₁) : SoloOutcome fl g c₀ inSlot outSlot r := by
  cases h with
  | value hrun hv => exact .value (hpre.silent_trans hrun) hv
  | fault hrun hread hwrite hf => exact .fault (hpre.silent_trans hrun) hread hwrite hf
  | diverge hd =>
    refine .diverge fun n' => ?_
    obtain ⟨j, tr, c, hj, hrun, hread, hwrite⟩ := hd n'
    exact ⟨n + j, tr, c, by omega, hpre.silent_trans hrun, hread, hwrite⟩

/-- An outcome belongs to a run that gets as far as the element. -/
theorem SoloOutcome.touches (h : SoloOutcome fl g c₀ inSlot outSlot r) :
    ∃ n tr c, Takes (clifNext fl g.code) n c₀ tr c ∧
      (.read inSlot ∈ tr ∨ ∃ v, .write outSlot v ∈ tr) := by
  cases h with
  | value hrun hv => exact ⟨_, _, _, hrun, .inr ⟨_, hv⟩⟩
  | fault hrun hread _ _ => exact ⟨_, _, _, hrun, .inl hread⟩
  | diverge hd =>
    obtain ⟨j, tr, c, -, hrun, hread, -⟩ := hd 0
    exact ⟨j, tr, c, hrun, .inl hread⟩

/-- The round of an element fixes its outcome. -/
theorem ElementLoop.outcome_round (E : ElementLoop fl k g cx start final bodyCode header entry out)
    (hb : Buffers m inPtr outPtr len (clType k.inputDtype)) (hi : i < len.toNat)
    (hround : RoundEnds fl g header inPtr outPtr len i l m r)
    (h : SoloOutcome fl g (l, m) (slot inPtr i) (slot outPtr i) r') : r' = r := by
  cases r with
  | value v =>
    obtain ⟨n₁, l₁, hrun₁, hat⟩ := hround
    have hwritten : Access.write (slot outPtr i) v ∈
        [.read (slot inPtr i), .write (slot outPtr i) v] := by simp
    cases h with
    | @value _ _ _ w hrun hw =>
      -- the slot is not written again behind this round
      have hmem : Access.write (slot outPtr i) w ∈
          [.read (slot inPtr i), .write (slot outPtr i) v] := by
        rcases hrun₁.compare hrun with ⟨-, rest, htr⟩ | ⟨-, rest, rfl, hrest⟩
        · exact htr ▸ List.mem_append_left rest hw
        · apply (List.mem_append.mp hw).resolve_right
          intro hlater
          have hws : ∀ w ∈ [(slot outPtr i, v)], ∃ j < len.toNat, w.1 = slot outPtr j :=
            fun w hw => ⟨i, hi, congrArg Prod.fst (List.mem_singleton.mp hw)⟩
          obtain ⟨j, hj, hn, he⟩ := E.footprint (len.toNat - (i + 1)) (by omega) (hb.written hws) hat
            hrest _ hlater
          have := slot_inj hb.outFits hi hn he
          omega
      simp only [List.mem_cons, reduceCtorEq, Access.write.injEq, true_and, List.not_mem_nil,
        or_false, false_or] at hmem
      rw [hmem]
    | fault hrun _ hwrite hf =>
      obtain ⟨rest, rfl, -⟩ := hrun.split hrun₁ (hrun.le_of_halted (clifNext_faulted hf) hrun₁)
      exact absurd (List.mem_append_left rest hwritten) (hwrite v)
    | diverge hd =>
      obtain ⟨j, tr, c, hj, hrun, -, hwrite⟩ := hd n₁
      obtain ⟨rest, rfl, -⟩ := hrun.split hrun₁ hj
      exact absurd (List.mem_append_left rest hwritten) (hwrite v)
  | fault f =>
    obtain ⟨n₁, l₁, hrun₁, hf₁⟩ := hround
    have hhalt : clifNext fl g.code l₁ = none := clifNext_faulted hf₁
    cases h with
    | value hrun hw =>
      obtain ⟨rest, htr, -⟩ := hrun₁.split hrun (hrun₁.le_of_halted hhalt hrun)
      have hmem := List.mem_append_left rest hw
      rw [← htr] at hmem
      simp at hmem
    | fault hrun _ _ hf =>
      obtain ⟨-, -, he⟩ := hrun.halted_unique (clifNext_faulted hf) hrun₁ hhalt
      cases he
      rw [hf₁] at hf
      cases hf
      rfl
    | diverge hd =>
      obtain ⟨j, tr, c, hj, hrun, -, -⟩ := hd (n₁ + 1)
      have := hrun₁.le_of_halted hhalt hrun
      omega
  | diverge =>
    cases h with
    | @value n _ _ _ hrun hw =>
      obtain ⟨n₁, l₁, hle, hrun₁⟩ := hround n
      obtain ⟨rest, htr, -⟩ := hrun₁.split hrun hle
      have hmem := List.mem_append_left rest hw
      rw [← htr] at hmem
      simp at hmem
    | @fault n _ _ _ _ hrun _ _ hf =>
      obtain ⟨n₁, l₁, hle, hrun₁⟩ := hround (n + 1)
      have := hrun.le_of_halted (clifNext_faulted hf) hrun₁
      omega
    | diverge _ => rfl

/-- A run that touches element `i` gets to its test; what it does before is about earlier
elements. -/
theorem ElementLoop.arrives (E : ElementLoop fl k g cx start final bodyCode header entry out)
    (d : ℕ) (hd : q + d = i) (hi : i < len.toNat)
    (hb : Buffers m inPtr outPtr len (clType k.inputDtype))
    (hat : AtHeader g header inPtr outPtr len q l) {tr : List (Access Addr (Val F))}
    (hrun : Takes (clifNext fl g.code) n (l, m) tr c₁)
    (htouch : .read (slot inPtr i) ∈ tr ∨ ∃ v, .write (slot outPtr i) v ∈ tr) :
    ∃ n' pre l' m', Takes (clifNext fl g.code) n' (l, m) pre (l', m') ∧
      AtHeader g header inPtr outPtr len i l' ∧ Buffers m' inPtr outPtr len (clType k.inputDtype) ∧
      m' (slot inPtr i) = m (slot inPtr i) ∧ .read (slot inPtr i) ∉ pre ∧
      ∀ v, .write (slot outPtr i) v ∉ pre := by
  induction d generalizing q l m n tr with
  | zero =>
    obtain rfl : q = i := hd
    exact ⟨0, [], l, m, .refl _, hat, hb, rfl, List.not_mem_nil, fun _ => List.not_mem_nil⟩
  | succ d ih =>
    have hq : q < len.toNat := by omega
    obtain ⟨r', hr'⟩ := Sem.computes_total (k.sem fl false (m (slot inPtr q))) k.body
      (leftovers g.locals l)
    have hround := E.round hat hq (hb.typed q hq) hr'
    have hin : slot inPtr i ≠ slot inPtr q := fun he => by
      have := slot_inj hb.inFits hi hq he
      omega
    have hout : slot outPtr i ≠ slot outPtr q := fun he => by
      have := slot_inj hb.outFits hi hq he
      omega
    -- a round that does not end never gets to a later element
    have hearlier : ∀ rest, [.read (slot inPtr q)] ≠ tr ++ rest := by
      intro rest htr
      have hsub : ∀ a ∈ tr, a = .read (slot inPtr q) := fun a ha =>
        List.mem_singleton.mp (htr ▸ List.mem_append_left rest ha)
      rcases htouch with hread | ⟨v, hwrite⟩
      · exact hin (Access.read.inj (hsub _ hread))
      · exact nomatch hsub _ hwrite
    cases r' with
    | value v =>
      obtain ⟨n₁, l₁, hrun₁, hat₁⟩ := hround
      have hws : ∀ w ∈ [(slot outPtr q, v)], ∃ j < len.toNat, w.1 = slot outPtr j :=
        fun w hw => ⟨q, hq, congrArg Prod.fst (List.mem_singleton.mp hw)⟩
      have hround : ∀ {w : Val F}, .read (slot inPtr i) ∉ [Access.read (slot inPtr q),
          .write (slot outPtr q) v] ∧ .write (slot outPtr i) w ∉
          [Access.read (slot inPtr q), .write (slot outPtr q) v] := by simp [hin, hout]
      rcases hrun₁.compare hrun with ⟨-, rest, htr⟩ | ⟨-, rest, rfl, hrest⟩
      · rcases htouch with hread | ⟨w, hwrite⟩
        · exact absurd (htr ▸ List.mem_append_left rest hread) (hround (w := v)).1
        · exact absurd (htr ▸ List.mem_append_left rest hwrite) hround.2
      · have htouch' : .read (slot inPtr i) ∈ rest ∨ ∃ w, .write (slot outPtr i) w ∈ rest := by
          rcases htouch with hread | ⟨w, hwrite⟩
          · exact .inl ((List.mem_append.mp hread).resolve_left (hround (w := v)).1)
          · exact .inr ⟨w, (List.mem_append.mp hwrite).resolve_left hround.2⟩
        obtain ⟨n', pre, l', m', hpre, hat', hb', hx, hread, hwrite⟩ :=
          ih (by omega) (hb.written hws) hat₁ hrest htouch'
        refine ⟨n₁ + n', _, l', m', hrun₁.trans hpre, hat', hb', hx.trans (hb.input_kept hws hi), ?_,
          fun w hw => ?_⟩
        · exact fun h => (List.mem_append.mp h).elim (hround (w := v)).1 hread
        · exact (List.mem_append.mp hw).elim hround.2 (hwrite w)
    | fault f =>
      obtain ⟨n₁, l₁, hrun₁, hf⟩ := hround
      obtain ⟨rest, htr, -⟩ := hrun₁.split hrun (hrun₁.le_of_halted (clifNext_faulted hf) hrun)
      exact absurd htr (hearlier rest)
    | diverge =>
      obtain ⟨n₁, l₁, hle, hrun₁⟩ := hround n
      obtain ⟨rest, htr, -⟩ := hrun₁.split hrun hle
      exact absurd htr (hearlier rest)

/-- The outcome of an element is computed by its body from some leftovers. -/
theorem ElementLoop.outcome (E : ElementLoop fl k g cx start final bodyCode header entry out)
    (hi : i < len.toNat) (hb : Buffers m inPtr outPtr len (clType k.inputDtype))
    (hat : AtHeader g header inPtr outPtr len 0 l)
    (h : SoloOutcome fl g (l, m) (slot inPtr i) (slot outPtr i) r) :
    ∃ ρ, (k.sem fl false (m (slot inPtr i))).Computes k.body ρ r := by
  obtain ⟨n, tr, c, hrun, htouch⟩ := h.touches
  obtain ⟨n', pre, l', m', hpre, hat', hb', hx, hread, hwrite⟩ :=
    E.arrives i (Nat.zero_add i) hi hb hat hrun htouch
  obtain ⟨r', hr'⟩ := Sem.computes_total (k.sem fl false (m' (slot inPtr i))) k.body
    (leftovers g.locals l')
  rw [E.outcome_round hb' hi (E.round hat' hi (hb'.typed i hi) hr') (h.after hpre hread hwrite),
    ← hx]
  exact ⟨_, hr'⟩

/-- An element that is touched has an outcome. -/
theorem ElementLoop.exists_outcome
    (E : ElementLoop fl k g cx start final bodyCode header entry out)
    (hi : i < len.toNat) (hb : Buffers m inPtr outPtr len (clType k.inputDtype))
    (hat : AtHeader g header inPtr outPtr len 0 l) {tr : List (Access Addr (Val F))}
    (hrun : Takes (clifNext fl g.code) n (l, m) tr c₁)
    (htouch : .read (slot inPtr i) ∈ tr ∨ ∃ v, .write (slot outPtr i) v ∈ tr) :
    ∃ r, SoloOutcome fl g (l, m) (slot inPtr i) (slot outPtr i) r := by
  obtain ⟨n', pre, l', m', hpre, hat', hb', hx, hread, hwrite⟩ :=
    E.arrives i (Nat.zero_add i) hi hb hat hrun htouch
  obtain ⟨r, hr⟩ := Sem.computes_total (k.sem fl false (m' (slot inPtr i))) k.body
    (leftovers g.locals l')
  have hround := E.round hat' hi (hb'.typed i hi) hr
  refine ⟨r, ?_⟩
  cases r with
  | value v =>
    obtain ⟨n₁, l₁, hrun₁, -⟩ := hround
    exact .value (hpre.trans hrun₁) (by simp)
  | fault f =>
    obtain ⟨n₁, l₁, hrun₁, hf⟩ := hround
    exact .fault (hpre.trans hrun₁) (by simp) (by simpa using hwrite) hf
  | diverge =>
    refine .diverge fun n => ?_
    obtain ⟨n₁, l₁, hle, hrun₁⟩ := hround n
    exact ⟨n' + n₁, _, _, by omega, hpre.trans hrun₁, by simp, by simpa using hwrite⟩

end Solo

/-! ## Calls on parts of the buffers -/

section Calls
variable {fl : FloatOps F} {k : Kernel F} {g : Compiled F} {inPtr outPtr len : Addr} {i n : ℕ}
  {m : Mem F} {tr : List (Access Addr (Val F))} {c : Local F × Mem F} {r : ElemResult F}

theorem compileScalar_footprint (hc : compileScalar fl k = .ok g)
    (hb : Buffers m inPtr outPtr len (clType k.inputDtype))
    (hrun : Takes (clifNext fl g.code) n (g.enter fl inPtr outPtr len, m) tr c) :
    Footprint (slotsFrom inPtr 0 len.toNat) (slotsFrom outPtr 0 len.toNat) tr := by
  obtain ⟨hg, ⟨_, hentry⟩, bodyCode, final, E⟩ := compileScalar_loop hc
  obtain ⟨l, hs, hat⟩ := enter_header fl hg E.verified hentry inPtr outPtr len
  rcases (hs m).compare hrun with ⟨-, rest, htr⟩ | ⟨-, rest, rfl, hrest⟩
  · rw [(List.append_eq_nil_iff.mp htr.symm).1]
    exact fun e he => nomatch he
  · exact E.footprint len.toNat (Nat.zero_add _) hb hat hrest

theorem compileScalar_outcome (hc : compileScalar fl k = .ok g) (hi : i < len.toNat)
    (hb : Buffers m inPtr outPtr len (clType k.inputDtype))
    (h : SoloOutcome fl g (g.enter fl inPtr outPtr len, m) (slot inPtr i) (slot outPtr i) r) :
    ∃ ρ, (k.sem fl false (m (slot inPtr i))).Computes k.body ρ r := by
  obtain ⟨hg, ⟨_, hentry⟩, bodyCode, final, E⟩ := compileScalar_loop hc
  obtain ⟨l, hs, hat⟩ := enter_header fl hg E.verified hentry inPtr outPtr len
  exact E.outcome hi hb hat (h.after (hs m) (by simp) (by simp))

theorem compileScalar_exists_outcome (hc : compileScalar fl k = .ok g) (hi : i < len.toNat)
    (hb : Buffers m inPtr outPtr len (clType k.inputDtype))
    (hrun : Takes (clifNext fl g.code) n (g.enter fl inPtr outPtr len, m) tr c)
    (hread : .read (slot inPtr i) ∈ tr) :
    ∃ r, SoloOutcome fl g (g.enter fl inPtr outPtr len, m) (slot inPtr i) (slot outPtr i) r := by
  obtain ⟨hg, ⟨_, hentry⟩, bodyCode, final, E⟩ := compileScalar_loop hc
  obtain ⟨l, hs, hat⟩ := enter_header fl hg E.verified hentry inPtr outPtr len
  rcases (hs m).compare hrun with ⟨-, rest, htr⟩ | ⟨-, rest, rfl, hrest⟩
  · rw [(List.append_eq_nil_iff.mp htr.symm).1] at hread
    cases hread
  · obtain ⟨r, hr⟩ := E.exists_outcome hi hb hat hrest (.inl hread)
    exact ⟨r, hr.before (hs m)⟩

end Calls

/-! ## Dispatches -/

/-- Some schedule of the spawned calls gets as far as reading the element at `inSlot`. -/
def Reached (fl : FloatOps F) (g : Compiled F) (calls : List (KernelCall F)) (m : Mem F)
    (inSlot : Addr) : Prop :=
  ∃ T t c, Sched (clifNext fl g.code) (spawned fl calls m) T t ∧ .read inSlot ∈ ownTrace c T

/-- What the schedules of the spawned calls show about the element at `inSlot`. -/
inductive ElementOutcome (fl : FloatOps F) (g : Compiled F) (calls : List (KernelCall F))
    (m : Mem F) (inSlot outSlot : Addr) : ElemResult F → Prop
  | value {T : List (Fin calls.length × List (Access Addr (Val F)))}
      {t : System Addr (Val F) (Local F) (Fin calls.length)} {c : Fin calls.length} {v : Val F} :
      Sched (clifNext fl g.code) (spawned fl calls m) T t → .write outSlot v ∈ ownTrace c T →
      ElementOutcome fl g calls m inSlot outSlot (.value v)
  | fault {T : List (Fin calls.length × List (Access Addr (Val F)))}
      {t : System Addr (Val F) (Local F) (Fin calls.length)} {c : Fin calls.length} {f : Fault} :
      Sched (clifNext fl g.code) (spawned fl calls m) T t → .read inSlot ∈ ownTrace c T →
      (∀ v, .write outSlot v ∉ ownTrace c T) → (t.threads c).ctl = .faulted f →
      ElementOutcome fl g calls m inSlot outSlot (.fault f)
  | diverge {c : Fin calls.length} :
      (∀ n, ∃ T t, Sched (clifNext fl g.code) (spawned fl calls m) T t ∧ n ≤ ownSteps c T ∧
        .read inSlot ∈ ownTrace c T ∧ ∀ v, .write outSlot v ∉ ownTrace c T) →
      ElementOutcome fl g calls m inSlot outSlot .diverge

section Dispatch
variable {fl : FloatOps F} {k : Kernel F} {g : Compiled F} {inPtr outPtr len : Addr} {i n : ℕ}
  {m : Mem F} {calls : List (KernelCall F)} {tr : List (Access Addr (Val F))}
  {cfg : Local F × Mem F} {r : ElemResult F}

/-- The slots of a chunk, seen from the whole buffer. -/
theorem mem_slotsFrom_slot {base a : Addr} {s c : ℕ} (h : a ∈ slotsFrom (slot base s) 0 c) :
    ∃ j, s ≤ j ∧ j < s + c ∧ a = slot base j := by
  obtain ⟨j, -, hj, rfl⟩ := h
  exact ⟨s + j, by omega, by omega, slot_slot base s j⟩

/-- Calls that keep to their chunks are confined. -/
theorem DispatchCalls.confined_of_footprint {ty : ClTy}
    (h : DispatchCalls g inPtr outPtr len.toNat calls) (hb : Buffers m inPtr outPtr len ty)
    (hf : ∀ (c : Fin calls.length) {n tr cfg},
      Takes (clifNext fl g.code) n ((spawned fl calls m).threads c, m) tr cfg →
      Footprint (slotsFrom (slot inPtr (calls.get c).start) 0 (calls.get c).this)
        (slotsFrom (slot outPtr (calls.get c).start) 0 (calls.get c).this) tr) :
    Confined (clifNext fl g.code) (spawned fl calls m) {a | ∃ i < len.toNat, a = slot inPtr i}
      (fun c => chunkCells (slot outPtr) (calls.get c).range) where
  footprint c n tr cfg hrun := by
    obtain ⟨-, hle, -⟩ := h.bounds c
    refine (hf c hrun).mono (fun a ha => ?_) fun a ha => mem_slotsFrom_slot ha
    obtain ⟨j, -, hj, rfl⟩ := mem_slotsFrom_slot ha
    exact ⟨j, lt_of_lt_of_le hj hle, rfl⟩
  shared c := chunks_shared h.tiles_ofFn (fun _ hi _ hj => hb.slot_ne hi hj) c
  apart _ _ hne := chunks_apart h.tiles_ofFn (fun _ hi _ hj => slot_inj hb.outFits hi hj) hne

theorem DispatchCalls.confined (h : DispatchCalls g inPtr outPtr len.toNat calls)
    (hc : compileScalar fl k = .ok g) (hb : Buffers m inPtr outPtr len (clType k.inputDtype)) :
    Confined (clifNext fl g.code) (spawned fl calls m) {a | ∃ i < len.toNat, a = slot inPtr i}
      (fun c => chunkCells (slot outPtr) (calls.get c).range) := by
  apply h.confined_of_footprint hb
  intro c n tr cfg hrun
  rw [h.thread c] at hrun
  have hf := compileScalar_footprint hc (h.part hb c) hrun
  rwa [(h.bounds c).2.2] at hf

/-- Whatever the schedules show about an element, one of the calls shows on its own. -/
theorem ElementOutcome.solo {inSlot outSlot : Addr} {R : Set Addr}
    {W : Fin calls.length → Set Addr}
    (hconf : Confined (clifNext fl g.code) (spawned fl calls m) R W)
    (h : ElementOutcome fl g calls m inSlot outSlot r) :
    ∃ c, SoloOutcome fl g ((spawned fl calls m).threads c, m) inSlot outSlot r := by
  cases h with
  | @value T t c v hrun hv =>
    obtain ⟨m', hsolo, -⟩ := (hrun.interleaved hconf).progress c
    exact ⟨c, .value hsolo hv⟩
  | @fault T t c f hrun hread hwrite hf =>
    obtain ⟨m', hsolo, -⟩ := (hrun.interleaved hconf).progress c
    exact ⟨c, .fault hsolo hread hwrite hf⟩
  | @diverge c hd =>
    refine ⟨c, .diverge fun n => ?_⟩
    obtain ⟨T, t, hrun, hn, hread, hwrite⟩ := hd n
    obtain ⟨m', hsolo, -⟩ := (hrun.interleaved hconf).progress c
    exact ⟨_, _, _, hn, hsolo, hread, hwrite⟩

/-- An element that a call touches lies in its chunk. -/
theorem DispatchCalls.touched (h : DispatchCalls g inPtr outPtr len.toNat calls)
    (hc : compileScalar fl k = .ok g) (hb : Buffers m inPtr outPtr len (clType k.inputDtype))
    (hi : i < len.toNat) {c : Fin calls.length}
    (hrun : Takes (clifNext fl g.code) n ((spawned fl calls m).threads c, m) tr cfg)
    (htouch : .read (slot inPtr i) ∈ tr ∨ ∃ v, .write (slot outPtr i) v ∈ tr) :
    calls[c].start ≤ i ∧ i < calls[c].start + calls[c].this := by
  rw [h.thread c] at hrun
  obtain ⟨-, hle, hsize⟩ := h.bounds c
  have hf := compileScalar_footprint hc (h.part hb c) hrun
  rw [hsize] at hf
  rcases htouch with hread | ⟨v, hwrite⟩
  · obtain ⟨j, h₁, h₂, he⟩ := mem_slotsFrom_slot (hf _ hread)
    have := slot_inj hb.inFits hi (by omega) he
    omega
  · obtain ⟨j, h₁, h₂, he⟩ := mem_slotsFrom_slot (hf _ hwrite)
    have := slot_inj hb.outFits hi (by omega) he
    omega

/-- The element in the call's own chunk. -/
theorem DispatchCalls.inChunk (h : DispatchCalls g inPtr outPtr len.toNat calls)
    (hc : compileScalar fl k = .ok g) (hb : Buffers m inPtr outPtr len (clType k.inputDtype))
    (hi : i < len.toNat) {c : Fin calls.length}
    (hrun : Takes (clifNext fl g.code) n ((spawned fl calls m).threads c, m) tr cfg)
    (htouch : .read (slot inPtr i) ∈ tr ∨ ∃ v, .write (slot outPtr i) v ∈ tr) :
    (∀ base, slot (slot base calls[c].start) (i - calls[c].start) = slot base i) ∧
      i - calls[c].start < (BitVec.ofNat 64 calls[c].this : Addr).toNat := by
  obtain ⟨hs, hlt⟩ := h.touched hc hb hi hrun htouch
  refine ⟨fun base => by rw [slot_slot, Nat.add_sub_cancel' hs], ?_⟩
  rw [(h.bounds c).2.2]
  omega

theorem ElementOutcome.computes (hc : compileScalar fl k = .ok g)
    (hb : Buffers m inPtr outPtr len (clType k.inputDtype))
    (hcalls : DispatchCalls g inPtr outPtr len.toNat calls) (hi : i < len.toNat)
    (h : ElementOutcome fl g calls m (slot inPtr i) (slot outPtr i) r) :
    ∃ ρ, (k.sem fl false (m (slot inPtr i))).Computes k.body ρ r := by
  obtain ⟨c, hsolo⟩ := h.solo (hcalls.confined hc hb)
  obtain ⟨n, tr, cfg, hrun, htouch⟩ := hsolo.touches
  obtain ⟨hslot, hi'⟩ := hcalls.inChunk hc hb hi hrun htouch
  rw [hcalls.thread c, ← hslot inPtr, ← hslot outPtr] at hsolo
  obtain ⟨ρ, hρ⟩ := compileScalar_outcome hc hi' (hcalls.part hb c) hsolo
  rw [hslot] at hρ
  exact ⟨ρ, hρ⟩

/-- Running one call alone is a schedule. -/
theorem SoloOutcome.dispatch {inSlot outSlot : Addr} {c : Fin calls.length}
    (h : SoloOutcome fl g ((spawned fl calls m).threads c, m) inSlot outSlot r) :
    ElementOutcome fl g calls m inSlot outSlot r := by
  have hstart : Sched (clifNext fl g.code) (spawned fl calls m) [] _ := .refl
  cases h with
  | value hrun hv =>
    obtain ⟨T, t, hT, htr, -, -⟩ := hstart.alone hrun rfl
    exact .value hT (by rw [htr]; exact hv)
  | fault hrun hread hwrite hf =>
    obtain ⟨T, t, hT, htr, -, hfin⟩ := hstart.alone hrun rfl
    cases hfin
    exact .fault hT (by rw [htr]; exact hread) (by rw [htr]; exact hwrite) hf
  | diverge hd =>
    refine .diverge (c := c) fun n => ?_
    obtain ⟨j, tr, cfg, hj, hrun, hread, hwrite⟩ := hd n
    obtain ⟨T, t, hT, htr, hsteps, -⟩ := hstart.alone hrun rfl
    exact ⟨T, t, hT, by omega, by rw [htr]; exact hread, by rw [htr]; exact hwrite⟩

theorem Reached.exists_outcome (hc : compileScalar fl k = .ok g)
    (hb : Buffers m inPtr outPtr len (clType k.inputDtype))
    (hcalls : DispatchCalls g inPtr outPtr len.toNat calls) (hi : i < len.toNat)
    (h : Reached fl g calls m (slot inPtr i)) :
    ∃ r, ElementOutcome fl g calls m (slot inPtr i) (slot outPtr i) r := by
  obtain ⟨T, t, c, hT, hread⟩ := h
  obtain ⟨m', hsolo, -⟩ := (hT.interleaved (hcalls.confined hc hb)).progress c
  obtain ⟨hslot, hi'⟩ := hcalls.inChunk hc hb hi hsolo (.inl hread)
  have hrun : Takes (clifNext fl g.code) _ ((spawned fl calls m).threads c, m) _ _ := hsolo
  rw [hcalls.thread c] at hrun
  obtain ⟨r, hr⟩ := compileScalar_exists_outcome hc hi' (hcalls.part hb c) hrun
    (by rw [hslot]; exact hread)
  rw [hslot, hslot, ← hcalls.thread c (m := m)] at hr
  exact ⟨r, hr.dispatch⟩

end Dispatch

/-- The body reads no unassigned local on the element `x`. -/
def Kernel.ReadsAssigned (fl : FloatOps F) (k : Kernel F) (x : Val F) : Prop :=
  ∀ name, ¬ k.Element fl x (.fault (.unassigned name))

/-- Then its outcome does not depend on the leftovers. -/
theorem Kernel.ReadsAssigned.unique {fl : FloatOps F} {k : Kernel F} {x : Val F}
    (h : k.ReadsAssigned fl x) {ρ ρ' : Env F} {r r' : ElemResult F}
    (hr : (k.sem fl false x).Computes k.body ρ r) (hr' : (k.sem fl false x).Computes k.body ρ' r') :
    r = r' := by
  obtain ⟨s, hs⟩ := k.element_total fl x
  have hne : ∀ name, s ≠ .fault (.unassigned name) := by
    rintro name rfl
    exact h name hs
  exact (hr.unique (hs.permissive hne ρ)).trans (hr'.unique (hs.permissive hne ρ')).symm

/-- **Elementwise independence.** Two dispatches of one compiled kernel, over any buffers
and in any chunks, give equal elements the same single outcome once they get to them, when
the body reads no unassigned local on that element. -/
theorem elementwise_independent {fl : FloatOps F} {k : Kernel F} {g : Compiled F}
    (hc : compileScalar fl k = .ok g) {m₁ m₂ : Mem F} {in₁ out₁ len₁ in₂ out₂ len₂ : Addr}
    (hb₁ : Buffers m₁ in₁ out₁ len₁ (clType k.inputDtype))
    (hb₂ : Buffers m₂ in₂ out₂ len₂ (clType k.inputDtype))
    {fuel₁ fuel₂ threads₁ threads₂ kernelHash : ℕ} {calls₁ calls₂ : List (KernelCall F)}
    (hcalls₁ : invokeKernelParallel fuel₁ threads₁ (some g) kernelHash k.inputDtype k.outputDtype
      in₁ out₁ len₁.toNat = some (.ok calls₁))
    (hcalls₂ : invokeKernelParallel fuel₂ threads₂ (some g) kernelHash k.inputDtype k.outputDtype
      in₂ out₂ len₂.toNat = some (.ok calls₂))
    {i j : ℕ} (hi : i < len₁.toNat) (hj : j < len₂.toNat)
    (hx : m₁ (slot in₁ i) = m₂ (slot in₂ j)) (hread : k.ReadsAssigned fl (m₁ (slot in₁ i)))
    (h₁ : Reached fl g calls₁ m₁ (slot in₁ i)) (h₂ : Reached fl g calls₂ m₂ (slot in₂ j)) :
    ∃ r, (∀ r₁, ElementOutcome fl g calls₁ m₁ (slot in₁ i) (slot out₁ i) r₁ ↔ r₁ = r) ∧
      ∀ r₂, ElementOutcome fl g calls₂ m₂ (slot in₂ j) (slot out₂ j) r₂ ↔ r₂ = r := by
  have hd₁ := invokeKernelParallel_calls hcalls₁
  have hd₂ := invokeKernelParallel_calls hcalls₂
  obtain ⟨s₁, hs₁⟩ := h₁.exists_outcome hc hb₁ hd₁ hi
  obtain ⟨s₂, hs₂⟩ := h₂.exists_outcome hc hb₂ hd₂ hj
  obtain ⟨ρ, hρ⟩ := hs₁.computes hc hb₁ hd₁ hi
  have hone₁ : ∀ {r₁}, ElementOutcome fl g calls₁ m₁ (slot in₁ i) (slot out₁ i) r₁ → r₁ = s₁ := by
    intro r₁ hr₁
    obtain ⟨ρ₁, hρ₁⟩ := hr₁.computes hc hb₁ hd₁ hi
    exact hread.unique hρ₁ hρ
  have hone₂ : ∀ {r₂}, ElementOutcome fl g calls₂ m₂ (slot in₂ j) (slot out₂ j) r₂ → r₂ = s₁ := by
    intro r₂ hr₂
    obtain ⟨ρ₂, hρ₂⟩ := hr₂.computes hc hb₂ hd₂ hj
    rw [← hx] at hρ₂
    exact hread.unique hρ₂ hρ
  exact ⟨s₁, fun r₁ => ⟨hone₁, fun h => h ▸ hs₁⟩, fun r₂ => ⟨hone₂, fun h => h ▸ hone₂ hs₂ ▸ hs₂⟩⟩

/-! ## A local that is not assigned on every path -/

/-- `def f(x):`, `if x > 0: y = x`, `return y` -/
def staleSource : FnNode Float :=
  .functionDef ["x"] [
    .ifStmt (.compare (.name "x") [.gt] [.constant (.int 0)]) [.assign [.name "y"] (.name "x")] [],
    .ret (some (.name "y"))]

def staleLocal : Kernel Float where
  inputDtype := .i64
  outputDtype := .i64
  body := [
    .ifElse (.compare .gt .param (.constI64 0)) [.assign "y" .i64 .param] [],
    .ret (.localVar "y")]

/-- The integers that a trace writes. -/
def intWrites (tr : List (Access Addr (Val F))) : List (Addr × BitVec 64) :=
  tr.filterMap fun
    | .write a (.i64 b) => some (a, b)
    | _ => none

theorem mem_of_intWrites {tr : List (Access Addr (Val F))} {a : Addr} {b : BitVec 64}
    (h : (a, b) ∈ intWrites tr) : .write a (.i64 b) ∈ tr := by
  obtain ⟨e, he, hab⟩ := List.mem_filterMap.mp h
  split at hab
  · cases hab
    exact he
  · cases hab

/-- The trace of the only call of a dispatch is one of its schedules' traces. -/
theorem sched_of_runFor (fl : FloatOps F) (g : Compiled F) (inPtr outPtr len : Addr) (m : Mem F)
    (n : ℕ) : ∃ T t, ∃ c : Fin [(⟨g, 0, len.toNat, inPtr, outPtr⟩ : KernelCall F)].length,
      Sched (clifNext fl g.code) (spawned fl [⟨g, 0, len.toNat, inPtr, outPtr⟩] m) T t ∧
        ownTrace c T = (runFor (clifNext fl g.code) n (g.enter fl inPtr outPtr len, m)).1 := by
  obtain ⟨k, hk⟩ := takes_runFor (clifNext fl g.code) n (g.enter fl inPtr outPtr len, m)
  set calls : List (KernelCall F) := [⟨g, 0, len.toNat, inPtr, outPtr⟩] with hcalls
  have hc : 0 < calls.length := Nat.one_pos
  have hstart : Sched (clifNext fl g.code) (spawned fl calls m) [] _ := .refl
  obtain ⟨T, t, hT, htr, -, -⟩ := hstart.alone (i := ⟨0, hc⟩) hk (by simp [spawned, hcalls])
  exact ⟨T, t, ⟨0, hc⟩, hT, htr⟩

/-- The compiled function of `staleLocal`, and how to test the trace of a call. -/
theorem staleLocal_compiles : ∃ g, compileScalar hostFloats staleLocal = .ok g ∧
    ∀ (m : Mem Float) (len : Addr) (p : List (Access Addr (Val Float)) → Bool),
      ((compileScalar hostFloats staleLocal).toOption.any fun g => p
        (runFor (clifNext hostFloats g.code) 60 (g.enter hostFloats 0 1024 len, m)).1) = true →
      ∃ T t, ∃ c : Fin [(⟨g, 0, len.toNat, 0, 1024⟩ : KernelCall Float)].length,
        Sched (clifNext hostFloats g.code) (spawned hostFloats [⟨g, 0, len.toNat, 0, 1024⟩] m) T t ∧
        p (ownTrace c T) = true := by
  cases hc : compileScalar hostFloats staleLocal with
  | error e =>
    have hok : (compileScalar hostFloats staleLocal).toBool = true := by decide
    rw [hc] at hok
    cases hok
  | ok g =>
    refine ⟨g, rfl, fun m len p h => ?_⟩
    obtain ⟨T, t, c, hT, htr⟩ := sched_of_runFor hostFloats g 0 1024 len m 60
    exact ⟨T, t, c, hT, by rw [htr]; simpa [Except.toOption] using h⟩

/-- `5` as the first element of `5, -1` and as the second of `-1, 5`. -/
theorem elementwise_independent_staleLocal :
    ∃ g, compileScalar hostFloats staleLocal = .ok g ∧
      ∃ (m₁ m₂ : Mem Float) (calls : List (KernelCall Float)) (r : ElemResult Float),
        m₁ (slot 0 0) = .i64 5 ∧ m₂ (slot 0 1) = .i64 5 ∧
        invokeKernelParallel 3 4 (some g) 0 .i64 .i64 0 1024 2 = some (.ok calls) ∧
        (∀ r₁, ElementOutcome hostFloats g calls m₁ (slot 0 0) (slot 1024 0) r₁ ↔ r₁ = r) ∧
        ∀ r₂, ElementOutcome hostFloats g calls m₂ (slot 0 1) (slot 1024 1) r₂ ↔ r₂ = r := by
  obtain ⟨g, hc, hruns⟩ := staleLocal_compiles
  let m₁ : Mem Float := fun a => .i64 (if a = 0 then 5 else -1)
  let m₂ : Mem Float := fun a => .i64 (if a = 0 then -1 else 5)
  have hb₁ : Buffers m₁ 0 1024 2 (clType staleLocal.inputDtype) :=
    ⟨by decide, by decide, by decide, fun _ _ => rfl⟩
  have hb₂ : Buffers m₂ 0 1024 2 (clType staleLocal.inputDtype) :=
    ⟨by decide, by decide, by decide, fun _ _ => rfl⟩
  have hread : staleLocal.ReadsAssigned hostFloats (m₁ (slot 0 0)) := by
    intro name h
    have hvalue : staleLocal.Element hostFloats (m₁ (slot 0 0)) (.value (.i64 5)) :=
      .ends (n := 1) rfl rfl
    cases hvalue.unique h
  have hcalls : invokeKernelParallel 3 4 (some g) 0 staleLocal.inputDtype staleLocal.outputDtype
      0 1024 (BitVec.toNat (2 : Addr)) = some (.ok [⟨g, 0, 2, 0, 1024⟩]) := rfl
  have h₁ : Reached hostFloats g [⟨g, 0, 2, 0, 1024⟩] m₁ (slot 0 0) := by
    obtain ⟨T, t, c, hT, hp⟩ := hruns m₁ 2 (fun tr => decide (slot 0 0 ∈ readsOf tr))
      (by decide +kernel)
    exact ⟨T, t, c, hT, mem_readsOf.mp (of_decide_eq_true hp)⟩
  have h₂ : Reached hostFloats g [⟨g, 0, 2, 0, 1024⟩] m₂ (slot 0 1) := by
    obtain ⟨T, t, c, hT, hp⟩ := hruns m₂ 2 (fun tr => decide (slot 0 1 ∈ readsOf tr))
      (by decide +kernel)
    exact ⟨T, t, c, hT, mem_readsOf.mp (of_decide_eq_true hp)⟩
  obtain ⟨r, hr₁, hr₂⟩ := elementwise_independent hc hb₁ hb₂ hcalls hcalls (by decide) (by decide)
    rfl hread h₁ h₂
  exact ⟨g, hc, m₁, m₂, _, r, rfl, rfl, hcalls, hr₁, hr₂⟩

/-- `5, -1` gives `5, 5`, and `-1` alone gives `0`. -/
theorem elementwise_dependent :
    ∃ g, tryCompile hostFloats (some staleSource) .i64 = .compiled staleLocal g ∧
      compileScalar hostFloats staleLocal = .ok g ∧
      ∃ (m₁ m₂ : Mem Float) (calls₁ calls₂ : List (KernelCall Float)),
        Buffers m₁ 0 1024 2 .i64 ∧ Buffers m₂ 0 1024 1 .i64 ∧
        invokeKernelParallel 3 4 (some g) 0 .i64 .i64 0 1024 2 = some (.ok calls₁) ∧
        invokeKernelParallel 3 4 (some g) 0 .i64 .i64 0 1024 1 = some (.ok calls₂) ∧
        m₁ (slot 0 1) = m₂ (slot 0 0) ∧
        ElementOutcome hostFloats g calls₁ m₁ (slot 0 1) (slot 1024 1) (.value (.i64 5)) ∧
        ElementOutcome hostFloats g calls₂ m₂ (slot 0 0) (slot 1024 0) (.value (.i64 0)) := by
  obtain ⟨g, hc, hruns⟩ := staleLocal_compiles
  let m₁ : Mem Float := fun a => .i64 (if a = 0 then 5 else -1)
  let m₂ : Mem Float := fun _ => .i64 (-1)
  have h₁ : ElementOutcome hostFloats g [⟨g, 0, 2, 0, 1024⟩] m₁ (slot 0 1) (slot 1024 1)
      (.value (.i64 5)) := by
    obtain ⟨T, t, c, hT, hp⟩ := hruns m₁ 2 (fun tr => decide ((slot 1024 1, 5) ∈ intWrites tr))
      (by decide +kernel)
    exact .value hT (mem_of_intWrites (of_decide_eq_true hp))
  have h₂ : ElementOutcome hostFloats g [⟨g, 0, 1, 0, 1024⟩] m₂ (slot 0 0) (slot 1024 0)
      (.value (.i64 0)) := by
    obtain ⟨T, t, c, hT, hp⟩ := hruns m₂ 1 (fun tr => decide ((slot 1024 0, 0) ∈ intWrites tr))
      (by decide +kernel)
    exact .value hT (mem_of_intWrites (of_decide_eq_true hp))
  refine ⟨g, ?_, hc, m₁, m₂, _, _, ⟨by decide, by decide, by decide, fun _ _ => rfl⟩,
    ⟨by decide, by decide, by decide, fun _ _ => rfl⟩, rfl, rfl, rfl, h₁, h₂⟩
  have hwalk : walkFunction .i64 staleSource = some staleLocal := rfl
  have hcompile : compile hostFloats staleLocal = .ok g := hc
  simp only [tryCompile, Option.bind_some, hwalk, hcompile]
  rfl

end Gilmap
