import Gilmap.Router.LaneRouting

/-! # Objects, ids and weak references

The id of an object is its address, which a later object gets again once it is gone. Here
each object has a serial number that the code never sees, and a weak reference names its
referent by that number. Erasing the numbers gives the router of `Gilmap.Router.Decide`.
-/
namespace Gilmap
open Library
variable {F : Type}

/-! ## Dictionaries -/

section Dict
variable {V : Type} {d : List (ℕ × V)} {k : ℕ} {v : V} {p : ℕ × V}

def dictPop (d : List (ℕ × V)) (k : ℕ) : List (ℕ × V) := d.filter (·.1 ≠ k)

def dictSet (d : List (ℕ × V)) (k : ℕ) (v : V) : List (ℕ × V) := (k, v) :: dictPop d k

theorem mem_dictPop : p ∈ dictPop d k ↔ p ∈ d ∧ p.1 ≠ k := by simp [dictPop]

theorem mem_dictSet : p ∈ dictSet d k v ↔ p = (k, v) ∨ p ∈ d ∧ p.1 ≠ k := by
  simp [dictSet, mem_dictPop]

theorem dictPop_eq_self (h : ∀ p ∈ d, p.1 ≠ k) : dictPop d k = d :=
  List.filter_eq_self.mpr fun p hp => by simpa using h p hp

theorem map_fst_dictPop : (dictPop d k).map Prod.fst = (d.map Prod.fst).filter (· ≠ k) := by
  unfold dictPop
  rw [List.filter_map]
  rfl

theorem key_ne_of_lookup_none (h : d.lookup k = none) : ∀ p ∈ d, p.1 ≠ k := by
  intro p hp hk
  have := List.lookup_eq_none_iff.mp h p hp
  simp [hk] at this

end Dict

/-! ## The process -/

/-- A live callable; its address is `func.id`. -/
structure LiveFunc (F : Type) where
  serial : ℕ
  func : PyFunc F

/-- `weakref.ref(func, lambda _: _evict(fid))` -/
structure Weakref where
  referent : ℕ
  fid : ℕ
  deriving DecidableEq, Repr

structure PyProcess (F : Type) where
  heap : List (LiveFunc F)
  nextSerial : ℕ
  /-- `_DECISION_CACHE` -/
  decisions : List (ℕ × BackendDecision F)
  /-- `_FINALIZERS`, which holds the only reference to each of the weakrefs -/
  finalizers : List (ℕ × Weakref)

def PyProcess.empty : PyProcess F := ⟨[], 0, [], []⟩

/-- `_evict` -/
def PyProcess.evict (p : PyProcess F) (fid : ℕ) : PyProcess F :=
  { p with decisions := dictPop p.decisions fid, finalizers := dictPop p.finalizers fid }

/-- `_cache_decision` -/
def PyProcess.cacheDecision (p : PyProcess F) (obj : LiveFunc F) (decision : BackendDecision F) :
    PyProcess F :=
  let fid := obj.func.id
  let p := { p with decisions := dictSet p.decisions fid decision }
  if obj.func.weakref then
    { p with finalizers := dictSet p.finalizers fid ⟨obj.serial, fid⟩ }
  else
    -- the `TypeError` of a callable that is not weak-referenceable
    { p with decisions := dictPop p.decisions fid }

/-- `decide` -/
def PyProcess.decide (fl : FloatOps F) (p : PyProcess F) (obj : LiveFunc F) :
    Except DecideError (BackendDecision F × PyProcess F) :=
  match p.decisions.lookup obj.func.id with
  | some cached => .ok (cached, p)
  | none => do
    let decision ← detect fl obj.func
    .ok (decision, p.cacheDecision obj decision)

/-- The callbacks that run when the object dies: those of its weakrefs that still exist. -/
def PyProcess.callbacks (p : PyProcess F) (serial : ℕ) : List ℕ :=
  (p.finalizers.filter (·.2.referent = serial)).map (·.2.fid)

inductive ProcessAction (F : Type)
  | create (func : PyFunc F)
  | drop (serial : ℕ)
  | decide (serial : ℕ)
  | resetCache

/-- One step of the program. A new object may get any address that no live one has, also
that of an object that died. -/
def PyProcess.step (fl : FloatOps F) (p : PyProcess F) : ProcessAction F → Option (PyProcess F)
  | .create func =>
    if p.heap.all (·.func.id ≠ func.id) then
      some { p with heap := ⟨p.nextSerial, func⟩ :: p.heap, nextSerial := p.nextSerial + 1 }
    else none
  | .drop serial => do
    let _ ← p.heap.find? (·.serial = serial)
    some ((p.callbacks serial).foldl PyProcess.evict
      { p with heap := p.heap.filter (·.serial ≠ serial) })
  | .decide serial => do
    let obj ← p.heap.find? (·.serial = serial)
    match p.decide fl obj with
    | .ok (_, p') => some p'
    | .error _ => some p
  | .resetCache => some { p with decisions := [], finalizers := [] }

/-! ## The router sees a process without serial numbers -/

def PyProcess.erase (p : PyProcess F) : Router F :=
  ⟨p.heap.map (·.func), p.decisions, p.finalizers.map Prod.fst⟩

/-- Each weakref belongs to a cached decision, and refers to the live object that has its
key as id. -/
structure PyProcess.Watched (p : PyProcess F) : Prop where
  serials : (p.heap.map (·.serial)).Nodup
  fresh : ∀ obj ∈ p.heap, obj.serial < p.nextSerial
  ids : (p.heap.map (·.func.id)).Nodup
  cached : ∀ e ∈ p.finalizers, ∃ entry ∈ p.decisions, entry.1 = e.1
  refers : ∀ e ∈ p.finalizers, e.2.fid = e.1 ∧
    ∃ obj ∈ p.heap, obj.serial = e.2.referent ∧ obj.func.id = e.1

section Erase
variable {fl : FloatOps F} {p p' : PyProcess F} {obj : LiveFunc F} {serial : ℕ}
  {decision : BackendDecision F}

@[simp] theorem PyProcess.evict_heap (p : PyProcess F) (fid : ℕ) : (p.evict fid).heap = p.heap := rfl

@[simp] theorem PyProcess.erase_evict (p : PyProcess F) (fid : ℕ) :
    (p.evict fid).erase = p.erase.evict fid := by
  simp only [erase, evict, Router.evict, map_fst_dictPop]
  rfl

theorem PyProcess.evict_idem (p : PyProcess F) (fid : ℕ) : (p.evict fid).evict fid = p.evict fid := by
  simp [evict, dictPop]

/-- Callbacks of one id do what the first of them does. -/
theorem PyProcess.foldl_evict {fids : List ℕ} {fid : ℕ} (h : ∀ k ∈ fids, k = fid) (p : PyProcess F) :
    fids.foldl PyProcess.evict p = if fids = [] then p else p.evict fid := by
  induction fids generalizing p with
  | nil => rfl
  | cons k fids ih =>
    obtain rfl : k = fid := h k List.mem_cons_self
    rw [List.foldl_cons, ih fun j hj => h j (List.mem_cons_of_mem _ hj)]
    by_cases hnil : fids = []
    · simp [hnil]
    · simp [hnil, p.evict_idem]

theorem PyProcess.Watched.eq_of_serial (h : p.Watched) {a b : LiveFunc F} (ha : a ∈ p.heap)
    (hb : b ∈ p.heap) (hab : a.serial = b.serial) : a = b :=
  List.inj_on_of_nodup_map h.serials ha hb hab

theorem PyProcess.Watched.eq_of_id (h : p.Watched) {a b : LiveFunc F} (ha : a ∈ p.heap)
    (hb : b ∈ p.heap) (hab : a.func.id = b.func.id) : a = b :=
  List.inj_on_of_nodup_map h.ids ha hb hab

/-- A dying object's callbacks evict its own id, and there are some just when the id has a
finalizer. -/
theorem PyProcess.Watched.callbacks (h : p.Watched) (hobj : obj ∈ p.heap) :
    (∀ k ∈ p.callbacks obj.serial, k = obj.func.id) ∧
      (p.callbacks obj.serial = [] ↔ obj.func.id ∉ p.finalizers.map Prod.fst) := by
  have hmem : ∀ e ∈ p.finalizers, e.2.referent = obj.serial ↔ e.1 = obj.func.id := by
    intro e he
    obtain ⟨-, o, ho, hserial, hid⟩ := h.refers e he
    constructor
    · intro hr
      rw [← hid, h.eq_of_serial ho hobj (hserial.trans hr)]
    · intro hk
      rw [← hserial, h.eq_of_id ho hobj (hid.trans hk)]
  constructor
  · intro k hk
    obtain ⟨e, he, rfl⟩ := List.mem_map.mp hk
    obtain ⟨he, hr⟩ := List.mem_filter.mp he
    rw [(h.refers e he).1]
    exact (hmem e he).mp (by simpa using hr)
  · unfold PyProcess.callbacks
    rw [List.map_eq_nil_iff, List.filter_eq_nil_iff]
    constructor
    · intro hnone hid
      obtain ⟨e, he, hk⟩ := List.mem_map.mp hid
      exact hnone e he (by simpa using (hmem e he).mpr hk)
    · intro hnone e he hr
      exact hnone (List.mem_map.mpr ⟨e, he, (hmem e he).mp (by simpa using hr)⟩)

/-- The death of an object: its id is evicted where it has a finalizer. -/
theorem PyProcess.Watched.drop_eq (h : p.Watched) (hobj : obj ∈ p.heap) :
    (p.callbacks obj.serial).foldl PyProcess.evict
        { p with heap := p.heap.filter (·.serial ≠ obj.serial) } =
      if obj.func.id ∈ p.finalizers.map Prod.fst then
        ({ p with heap := p.heap.filter (·.serial ≠ obj.serial) } : PyProcess F).evict obj.func.id
      else { p with heap := p.heap.filter (·.serial ≠ obj.serial) } := by
  obtain ⟨hids, hnil⟩ := h.callbacks hobj
  rw [PyProcess.foldl_evict hids]
  by_cases hid : obj.func.id ∈ p.finalizers.map Prod.fst
  · rw [if_pos hid, if_neg (fun hc => hnil.mp hc hid)]
  · rw [if_neg hid, if_pos (hnil.mpr hid)]

theorem PyProcess.Watched.erase_drop (h : p.Watched) (hobj : obj ∈ p.heap) :
    (p.heap.filter (·.serial ≠ obj.serial)).map (·.func) =
      (p.heap.map (·.func)).filter (·.id ≠ obj.func.id) := by
  rw [List.filter_map]
  refine congrArg _ (List.filter_congr fun o ho => ?_)
  rw [Function.comp_apply]
  refine decide_eq_decide.mpr (not_congr ⟨fun hs => ?_, fun hid => ?_⟩)
  · rw [h.eq_of_serial ho hobj hs]
  · rw [h.eq_of_id ho hobj hid]

theorem PyProcess.Watched.find_live (h : p.Watched) (hobj : obj ∈ p.heap) :
    p.erase.live.find? (·.id = obj.func.id) = some obj.func := by
  have hmem : obj.func ∈ p.erase.live := List.mem_map_of_mem hobj
  obtain ⟨func, hfind⟩ := Option.isSome_iff_exists.mp
    (List.find?_isSome (p := (·.id = obj.func.id)).mpr ⟨_, hmem, by simp⟩)
  obtain ⟨o, ho, rfl⟩ := List.mem_map.mp (List.mem_of_find?_eq_some hfind)
  have hid : o.func.id = obj.func.id := by simpa using List.find?_some hfind
  obtain rfl := h.eq_of_id ho hobj hid
  exact hfind

/-- Caching a decision, for a callable whose id is not cached. -/
theorem PyProcess.Watched.erase_cacheDecision (h : p.Watched)
    (hnew : p.decisions.lookup obj.func.id = none) :
    (p.cacheDecision obj decision).erase = p.erase.cacheDecision obj.func decision := by
  have hkey := key_ne_of_lookup_none hnew
  have hfin : ∀ e ∈ p.finalizers, e.1 ≠ obj.func.id := by
    intro e he hid
    obtain ⟨entry, hmem, hk⟩ := h.cached e he
    exact hkey entry hmem (hk.trans hid)
  unfold PyProcess.cacheDecision Router.cacheDecision PyProcess.erase
  by_cases hw : obj.func.weakref
  · simp only [hw, if_true, dictSet, dictPop_eq_self hkey, dictPop_eq_self hfin, List.map_cons]
  · simp [hw, dictSet, dictPop]

theorem PyProcess.Watched.erase_decide (h : p.Watched) :
    (p.decide fl obj).map (fun r => (r.1, r.2.erase)) = p.erase.decide fl obj.func := by
  unfold PyProcess.decide Router.decide
  cases hl : p.decisions.lookup obj.func.id with
  | some cached =>
    have hl' : p.erase.decisions.lookup obj.func.id = some cached := hl
    rw [hl']
    rfl
  | none =>
    have hl' : p.erase.decisions.lookup obj.func.id = none := hl
    rw [hl']
    cases hd : detect fl obj.func with
    | error e => rfl
    | ok decision =>
      simp only [bind, Except.bind, Except.map]
      rw [h.erase_cacheDecision hl]

end Erase

/-! ## Runs -/

section Runs
variable {fl : FloatOps F} {p p' : PyProcess F} {obj : LiveFunc F} {serial : ℕ}
  {decision : BackendDecision F} {a : ProcessAction F}

theorem PyProcess.Watched.drop (h : p.Watched) (hobj : obj ∈ p.heap) :
    (if obj.func.id ∈ p.finalizers.map Prod.fst then
        ({ p with heap := p.heap.filter (·.serial ≠ obj.serial) } : PyProcess F).evict obj.func.id
      else { p with heap := p.heap.filter (·.serial ≠ obj.serial) }).Watched := by
  have hserials : ((p.heap.filter (·.serial ≠ obj.serial)).map (·.serial)).Nodup :=
    h.serials.sublist (List.filter_sublist.map _)
  have hids : ((p.heap.filter (·.serial ≠ obj.serial)).map (·.func.id)).Nodup :=
    h.ids.sublist (List.filter_sublist.map _)
  have hfresh : ∀ o ∈ p.heap.filter (·.serial ≠ obj.serial), o.serial < p.nextSerial :=
    fun o ho => h.fresh o (List.mem_of_mem_filter ho)
  have hrefers : ∀ e ∈ p.finalizers, e.1 ≠ obj.func.id → e.2.fid = e.1 ∧
      ∃ o ∈ p.heap.filter (·.serial ≠ obj.serial), o.serial = e.2.referent ∧ o.func.id = e.1 := by
    intro e he hne
    obtain ⟨hfid, o, ho, hs, hid⟩ := h.refers e he
    refine ⟨hfid, o, List.mem_filter.mpr ⟨ho, ?_⟩, hs, hid⟩
    have : o.serial ≠ obj.serial := fun heq => hne (by rw [← hid, h.eq_of_serial ho hobj heq])
    simpa using this
  split
  · refine ⟨hserials, hfresh, hids, fun e he => ?_, fun e he => ?_⟩
    · obtain ⟨he, hne⟩ := mem_dictPop.mp he
      obtain ⟨entry, hmem, hk⟩ := h.cached e he
      exact ⟨entry, mem_dictPop.mpr ⟨hmem, hk ▸ hne⟩, hk⟩
    · obtain ⟨he, hne⟩ := mem_dictPop.mp he
      exact hrefers e he hne
  · rename_i hid
    exact ⟨hserials, hfresh, hids, h.cached,
      fun e he => hrefers e he fun hk => hid (List.mem_map.mpr ⟨e, he, hk⟩)⟩

theorem PyProcess.Watched.cacheDecision (h : p.Watched) (hobj : obj ∈ p.heap)
    (hnew : p.decisions.lookup obj.func.id = none) : (p.cacheDecision obj decision).Watched := by
  have hkey := key_ne_of_lookup_none hnew
  unfold PyProcess.cacheDecision
  by_cases hw : obj.func.weakref
  · simp only [hw, if_true]
    refine ⟨h.serials, h.fresh, h.ids, fun e he => ?_, fun e he => ?_⟩
    · rcases mem_dictSet.mp he with rfl | ⟨he, -⟩
      · exact ⟨_, mem_dictSet.mpr (.inl rfl), rfl⟩
      · obtain ⟨entry, hmem, hk⟩ := h.cached e he
        exact ⟨entry, mem_dictSet.mpr (.inr ⟨hmem, hkey entry hmem⟩), hk⟩
    · rcases mem_dictSet.mp he with rfl | ⟨he, -⟩
      · exact ⟨rfl, obj, hobj, rfl, rfl⟩
      · exact h.refers e he
  · simp only [hw]
    refine ⟨h.serials, h.fresh, h.ids, fun e he => ?_, h.refers⟩
    obtain ⟨entry, hmem, hk⟩ := h.cached e he
    exact ⟨entry, mem_dictPop.mpr ⟨mem_dictSet.mpr (.inr ⟨hmem, hkey entry hmem⟩),
      hkey entry hmem⟩, hk⟩

theorem PyProcess.Watched.step (h : p.Watched) (hs : p.step fl a = some p') : p'.Watched := by
  cases a with
  | create func =>
    simp only [PyProcess.step] at hs
    split at hs
    · rename_i hnew
      cases hs
      have hid : ∀ o ∈ p.heap, o.func.id ≠ func.id := by simpa using hnew
      refine ⟨List.nodup_cons.mpr ⟨?_, h.serials⟩, ?_, List.nodup_cons.mpr ⟨?_, h.ids⟩, h.cached, ?_⟩
      · intro hmem
        obtain ⟨o, ho, hserial⟩ := List.mem_map.mp hmem
        exact (h.fresh o ho).ne hserial
      · intro o ho
        rcases List.mem_cons.mp ho with rfl | ho
        · exact Nat.lt_succ_self _
        · exact (h.fresh o ho).trans (Nat.lt_succ_self _)
      · intro hmem
        obtain ⟨o, ho, heq⟩ := List.mem_map.mp hmem
        exact hid o ho heq
      · intro e he
        obtain ⟨hfid, o, ho, hrest⟩ := h.refers e he
        exact ⟨hfid, o, List.mem_cons_of_mem _ ho, hrest⟩
    · cases hs
  | drop serial =>
    obtain ⟨obj, hfind, hs⟩ := Option.bind_eq_some_iff.mp hs
    obtain rfl : obj.serial = serial := by simpa using List.find?_some hfind
    have hobj := List.mem_of_find?_eq_some hfind
    cases hs
    rw [h.drop_eq hobj]
    exact h.drop hobj
  | decide serial =>
    obtain ⟨obj, hfind, hs⟩ := Option.bind_eq_some_iff.mp hs
    have hobj := List.mem_of_find?_eq_some hfind
    cases hl : p.decisions.lookup obj.func.id with
    | some cached =>
      simp only [PyProcess.decide, hl] at hs
      cases hs
      exact h
    | none =>
      cases hd : detect fl obj.func with
      | error e =>
        simp only [PyProcess.decide, hl, hd, bind, Except.bind] at hs
        cases hs
        exact h
      | ok decision =>
        simp only [PyProcess.decide, hl, hd, bind, Except.bind] at hs
        cases hs
        exact h.cacheDecision hobj hl
  | resetCache =>
    cases hs
    exact ⟨h.serials, h.fresh, h.ids, by simp, by simp⟩

/-- The router without serial numbers takes the same steps. -/
theorem PyProcess.Watched.erase_step (h : p.Watched) (hs : p.step fl a = some p') :
    ∃ b, p.erase.step fl b = some p'.erase := by
  cases a with
  | create func =>
    simp only [PyProcess.step] at hs
    split at hs
    · rename_i hnew
      cases hs
      refine ⟨.create func, ?_⟩
      have : p.erase.live.all (·.id ≠ func.id) := by simpa [PyProcess.erase] using hnew
      simp only [Router.step, this, if_true]
      rfl
    · cases hs
  | drop serial =>
    obtain ⟨obj, hfind, hs⟩ := Option.bind_eq_some_iff.mp hs
    obtain rfl : obj.serial = serial := by simpa using List.find?_some hfind
    have hobj := List.mem_of_find?_eq_some hfind
    cases hs
    refine ⟨.drop obj.func.id, congrArg some ?_⟩
    rw [h.drop_eq hobj]
    by_cases hid : obj.func.id ∈ p.finalizers.map Prod.fst
    · rw [if_pos hid, if_pos (show obj.func.id ∈ p.erase.finalizers from hid),
        PyProcess.erase_evict]
      exact congrArg (Router.evict · _) (congrArg (Router.mk · _ _) (h.erase_drop hobj).symm)
    · rw [if_neg hid, if_neg (show obj.func.id ∉ p.erase.finalizers from hid)]
      exact congrArg (Router.mk · _ _) (h.erase_drop hobj).symm
  | decide serial =>
    obtain ⟨obj, hfind, hs⟩ := Option.bind_eq_some_iff.mp hs
    have hobj := List.mem_of_find?_eq_some hfind
    refine ⟨.decide obj.func.id, ?_⟩
    simp only [Router.step, h.find_live hobj, Option.bind_some, bind, ← h.erase_decide]
    cases hd : p.decide fl obj with
    | error e =>
      simp only [hd] at hs
      cases hs
      rfl
    | ok result =>
      simp only [hd] at hs
      cases hs
      rfl
  | resetCache =>
    cases hs
    exact ⟨.resetCache, rfl⟩

theorem PyProcess.watched_empty : (PyProcess.empty : PyProcess F).Watched := by
  constructor <;> simp [PyProcess.empty]

theorem PyProcess.erase_reachable (h : Reachable (PyProcess.step fl) PyProcess.empty p) :
    Reachable (Router.step fl) Router.empty p.erase := by
  refine (h.invariant (I := fun q => q.Watched ∧ Reachable (Router.step fl) Router.empty q.erase)
    ⟨PyProcess.watched_empty, .refl⟩ fun hI hs => ⟨hI.1.step hs, ?_⟩).2
  obtain ⟨b, hb⟩ := hI.1.erase_step hs
  exact hI.2.snoc hb

/-- **The decision cache is transparent.** After every run, `decide` gives for each live
callable what the detectors give for it, and every cached id is the id of a live callable. -/
theorem decision_cache_transparent (h : Reachable (PyProcess.step fl) PyProcess.empty p) :
    (∀ obj ∈ p.heap, (p.decide fl obj).map Prod.fst = detect fl obj.func) ∧
      ∀ entry ∈ p.decisions, ∃ obj ∈ p.heap, obj.func.id = entry.1 := by
  have hcons := Router.consistent_of_reachable (PyProcess.erase_reachable h)
  constructor
  · intro obj hobj
    have hlive : obj.func ∈ p.erase.live := List.mem_map_of_mem hobj
    cases hl : p.decisions.lookup obj.func.id with
    | some cached =>
      obtain ⟨f, hf, hid, hdet⟩ := hcons.cached _ (mem_of_lookup hl)
      rw [← hcons.eq_of_id hf hlive hid, hdet]
      simp only [PyProcess.decide, hl]
      rfl
    | none =>
      simp only [PyProcess.decide, hl]
      cases detect fl obj.func <;> rfl
  · intro entry hentry
    obtain ⟨f, hf, hid, -⟩ := hcons.cached entry hentry
    obtain ⟨obj, hobj, rfl⟩ := List.mem_map.mp hf
    exact ⟨obj, hobj, hid⟩

end Runs

/-- The address of a callable that was decided on and died goes to a numba function. -/
def reusedId : List (ProcessAction (BitVec 64)) :=
  [.create weekday, .decide 0, .drop 0,
    .create ⟨0, true, none, none, none, false, true, "numba.core.registry"⟩, .decide 1]

theorem decision_cache_transparent_reused : ∃ p : PyProcess (BitVec 64),
    exec (PyProcess.step hostFloatBits) (fun _ _ => True) PyProcess.empty reusedId = some p ∧
      ∀ obj ∈ p.heap, (p.decide hostFloatBits obj).map Prod.fst = detect hostFloatBits obj.func := by
  obtain ⟨p, hp, -⟩ := (Option.any_eq_true (fun p : PyProcess (BitVec 64) => p.heap.length = 1)
    (exec (PyProcess.step hostFloatBits) (fun _ _ => True) PyProcess.empty reusedId)).mp
      (by decide +kernel)
  exact ⟨p, hp, (decision_cache_transparent (run_of_exec hp).reachable).1⟩

end Gilmap
