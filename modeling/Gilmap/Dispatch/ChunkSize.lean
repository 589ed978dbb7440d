import Gilmap.Library.ParallelMap

/-! # How buffers are cut into chunks

`pick_chunk_size` of `src/lib.rs`, shared by every parallel dispatcher, and the two ways
in which a dispatcher walks over its chunks: the loop of `invoke_kernel_parallel` and the
`chunks` iterator of slices. Both loops take fuel; they end when the chunk size is positive.
-/
namespace Gilmap
open Library

/-- `usize` values are taken modulo this. -/
def usizeModulus : ℕ := 2 ^ 64

def chunksPerWorker : ℕ := 4
def maxChunk : ℕ := 4096

/-- `usize::div_ceil` -/
def divCeil (a b : ℕ) : ℕ := if a % b > 0 then a / b + 1 else a / b

def pickChunkSize (len numThreads : ℕ) : ℕ :=
  if len = 0 then 1
  else
    let want := max (numThreads * chunksPerWorker % usizeModulus) (divCeil len maxChunk)
    let numChunks := min len (max want 1)
    divCeil len numChunks

/-- `usize::div_ceil`, with its panic on a zero divisor. -/
def divCeilChecked (a b : ℕ) : Option ℕ := if b = 0 then none else some (divCeil a b)

/-- `pick_chunk_size` with the panics of a build that checks overflow. -/
def pickChunkSizeChecked (len numThreads : ℕ) : Option ℕ :=
  if len = 0 then some 1
  else if usizeModulus ≤ numThreads * chunksPerWorker then none
  else do
    let want := max (numThreads * chunksPerWorker) (← divCeilChecked len maxChunk)
    let numChunks := min len (max want 1)
    divCeilChecked len numChunks

theorem divCeil_pos {a b : ℕ} (ha : 0 < a) (hb : 0 < b) : 0 < divCeil a b := by
  unfold divCeil
  split
  · exact Nat.succ_pos _
  · rename_i h
    exact Nat.div_pos (Nat.le_of_dvd ha (Nat.dvd_of_mod_eq_zero (by omega))) hb

theorem pickChunkSize_pos (len numThreads : ℕ) : 0 < pickChunkSize len numThreads := by
  unfold pickChunkSize
  split
  · omega
  · exact divCeil_pos (by omega) (by omega)

/-! ## Walking over the chunks -/

/-- The `while` loop of `invoke_kernel_parallel`: the values of `start` and `this`. -/
def spawnLoop (len chunkSize : ℕ) : ℕ → ℕ → Option (List (ℕ × ℕ))
  | 0, _ => none
  | fuel + 1, start =>
    if start < len then
      let this := min (len - start) chunkSize
      (spawnLoop len chunkSize fuel (start + this)).map ((start, this) :: ·)
    else some []

/-- `<[T]>::chunks` on the part of a slice from `start` on: first index and size of each chunk. -/
def sliceChunks (chunkSize : ℕ) : ℕ → ℕ → ℕ → Option (List (ℕ × ℕ))
  | 0, _, _ => none
  | fuel + 1, start, remaining =>
    if remaining = 0 then some []
    else
      let size := min remaining chunkSize
      (sliceChunks chunkSize fuel (start + size) (remaining - size)).map ((start, size) :: ·)

theorem spawnLoop_total {len chunkSize : ℕ} (hc : 0 < chunkSize) {fuel start : ℕ}
    (hfuel : len - start < fuel) : ∃ chunks, spawnLoop len chunkSize fuel start = some chunks := by
  induction fuel generalizing start with
  | zero => omega
  | succ fuel ih =>
    simp only [spawnLoop]
    split
    · obtain ⟨chunks, hl⟩ := ih (show len - (start + min (len - start) chunkSize) < fuel by omega)
      exact ⟨_, by rw [hl]; rfl⟩
    · exact ⟨[], rfl⟩

theorem spawnLoop_tiles {len chunkSize : ℕ} (hc : 0 < chunkSize) {fuel start : ℕ}
    {chunks : List (ℕ × ℕ)} (h : spawnLoop len chunkSize fuel start = some chunks)
    (hs : start ≤ len) : Tiles len start chunks := by
  induction fuel generalizing start chunks with
  | zero => cases h
  | succ fuel ih =>
    simp only [spawnLoop] at h
    split at h
    · obtain ⟨rest, hrest, rfl⟩ := Option.map_eq_some_iff.mp h
      exact ⟨rfl, by omega, ih hrest (by omega)⟩
    · cases h
      simp only [Tiles]
      omega

theorem sliceChunks_tiles {len chunkSize : ℕ} (hc : 0 < chunkSize) {fuel start remaining : ℕ}
    (hs : start + remaining = len) (hfuel : remaining < fuel) :
    ∃ chunks, sliceChunks chunkSize fuel start remaining = some chunks ∧
      Tiles len start chunks := by
  induction fuel generalizing start remaining with
  | zero => omega
  | succ fuel ih =>
    simp only [sliceChunks]
    split
    · exact ⟨[], rfl, by simp only [Tiles]; omega⟩
    · obtain ⟨chunks, hl, ht⟩ :=
        ih (show start + min remaining chunkSize + (remaining - min remaining chunkSize) = len by omega)
          (by omega)
      exact ⟨(start, min remaining chunkSize) :: chunks, by rw [hl]; rfl, rfl, by omega, ht⟩

/-! ## How many chunks there are -/

section Count
variable {a b k len chunkSize numThreads : ℕ}

theorem divCeil_eq (ha : 0 < a) (hb : 0 < b) : divCeil a b = (a - 1) / b + 1 := by
  have hdiv := Nat.div_add_mod a b
  have hmod := Nat.mod_lt a hb
  unfold divCeil
  split
  · rename_i h
    have hpred : a - 1 = (a % b - 1) + b * (a / b) := by omega
    have hquot : (a - 1) / b = a / b := by
      rw [hpred, Nat.add_mul_div_left _ _ hb, Nat.div_eq_of_lt (show a % b - 1 < b by omega),
        Nat.zero_add]
    rw [hquot]
  · rename_i h
    obtain ⟨q, hq⟩ : ∃ q, a / b = q + 1 := by
      have := Nat.div_pos (Nat.le_of_dvd ha (Nat.dvd_of_mod_eq_zero (by omega))) hb
      exact ⟨a / b - 1, by omega⟩
    rw [hq, Nat.mul_succ] at hdiv
    have hpred : a - 1 = (b - 1) + b * q := by omega
    have hquot : (a - 1) / b = q := by
      rw [hpred, Nat.add_mul_div_left _ _ hb, Nat.div_eq_of_lt (show b - 1 < b by omega),
        Nat.zero_add]
    rw [hquot, hq]

theorem lt_divCeil_iff (hb : 0 < b) : k < divCeil a b ↔ k * b < a := by
  rcases Nat.eq_zero_or_pos a with rfl | ha
  · simp [divCeil]
  · rw [divCeil_eq ha hb, Nat.lt_succ_iff, Nat.le_div_iff_mul_le hb]
    omega

theorem divCeil_le_iff (hb : 0 < b) : divCeil a b ≤ k ↔ a ≤ k * b := by
  rw [← not_lt, lt_divCeil_iff hb, not_lt]

/-- Parts of the size that `k` parts would have are at most `k`. -/
theorem divCeil_divCeil_le (ha : 0 < a) (hk : 0 < k) : divCeil a (divCeil a k) ≤ k := by
  rw [divCeil_le_iff (divCeil_pos ha hk), Nat.mul_comm]
  exact (divCeil_le_iff hk).mp le_rfl

theorem divCeil_self (ha : 0 < a) : divCeil a a = 1 := by
  simp [divCeil, Nat.div_self ha]

theorem divCeil_anti {c : ℕ} (hb : 0 < b) (hbc : b ≤ c) : divCeil a c ≤ divCeil a b := by
  by_contra hlt
  have hmul := (lt_divCeil_iff (by omega)).mp (not_le.mp hlt)
  have hle : divCeil a b * b ≤ divCeil a b * c := Nat.mul_le_mul_left _ hbc
  exact lt_irrefl _ ((lt_divCeil_iff hb).mpr (hle.trans_lt hmul))

/-- Taking one chunk off leaves one chunk less. -/
theorem divCeil_take (ha : 0 < a) (hb : 0 < b) :
    divCeil a b = divCeil (a - min a b) b + 1 := by
  rcases Nat.lt_or_ge b a with h | h
  · rw [divCeil_eq ha hb, Nat.min_eq_right h.le, divCeil_eq (by omega) hb]
    have hsplit : a - 1 = a - b - 1 + b := by omega
    rw [hsplit, Nat.add_div_right _ hb]
  · have hone : (a - 1) / b = 0 := Nat.div_eq_of_lt (by omega)
    rw [divCeil_eq ha hb, Nat.min_eq_left h, Nat.sub_self, hone]
    simp [divCeil]

theorem spawnLoop_length (hc : 0 < chunkSize) {fuel start : ℕ} {chunks : List (ℕ × ℕ)}
    (h : spawnLoop len chunkSize fuel start = some chunks) :
    chunks.length = divCeil (len - start) chunkSize := by
  induction fuel generalizing start chunks with
  | zero => cases h
  | succ fuel ih =>
    simp only [spawnLoop] at h
    split at h
    · obtain ⟨rest, hrest, rfl⟩ := Option.map_eq_some_iff.mp h
      rw [List.length_cons, ih hrest, divCeil_take (show 0 < len - start by omega) hc, Nat.sub_add_eq]
    · cases h
      simp [divCeil, show len - start = 0 by omega]

theorem sliceChunks_length (hc : 0 < chunkSize) {fuel start remaining : ℕ} {chunks : List (ℕ × ℕ)}
    (h : sliceChunks chunkSize fuel start remaining = some chunks) :
    chunks.length = divCeil remaining chunkSize := by
  induction fuel generalizing start remaining chunks with
  | zero => cases h
  | succ fuel ih =>
    simp only [sliceChunks] at h
    split at h
    · rename_i h₀
      cases h
      simp [divCeil, h₀]
    · obtain ⟨rest, hrest, rfl⟩ := Option.map_eq_some_iff.mp h
      rw [List.length_cons, ih hrest, divCeil_take (show 0 < remaining by omega) hc]

/-- The number of chunks aimed at: as many as keep every worker busy, or as keep the chunks
small. -/
def targetChunks (len numThreads : ℕ) : ℕ := max (4 * numThreads) (divCeil len 4096)

theorem targetChunks_pos (hn : 1 ≤ numThreads) : 0 < targetChunks len numThreads := by
  unfold targetChunks
  omega

theorem pickChunkSize_eq_divCeil (hlen : 1 ≤ len) (hn : 1 ≤ numThreads)
    (hover : numThreads * 4 < usizeModulus) :
    pickChunkSize len numThreads = divCeil len (min len (targetChunks len numThreads)) := by
  have hmul : numThreads * chunksPerWorker % usizeModulus = 4 * numThreads := by
    rw [chunksPerWorker, Nat.mod_eq_of_lt hover, Nat.mul_comm]
  have hmax : max (targetChunks len numThreads) 1 = targetChunks len numThreads :=
    Nat.max_eq_left (targetChunks_pos hn)
  rw [pickChunkSize, if_neg (by omega)]
  simp only [hmul, maxChunk]
  rw [← targetChunks, hmax]

theorem pickChunkSize_eq (hn : 1 ≤ numThreads) (hlen : 4 * numThreads ≤ len)
    (hmax : len < usizeModulus) :
    pickChunkSize len numThreads = divCeil len (max (4 * numThreads) (divCeil len 4096)) := by
  have hcap : divCeil len 4096 ≤ len := (divCeil_le_iff (by norm_num)).mpr (by omega)
  rw [pickChunkSize_eq_divCeil (by omega) hn (by omega), targetChunks, Nat.min_eq_right (by omega)]

/-- How many chunks a dispatcher cuts. -/
theorem chunks_length_eq {fuel start : ℕ} {chunks : List (ℕ × ℕ)}
    (h : spawnLoop len (pickChunkSize len numThreads) fuel 0 = some chunks ∨
      sliceChunks (pickChunkSize len numThreads) fuel start len = some chunks) :
    chunks.length = divCeil len (pickChunkSize len numThreads) := by
  have hc := pickChunkSize_pos len numThreads
  rcases h with h | h
  · exact spawnLoop_length hc h
  · exact sliceChunks_length hc h

/-- Cutting into `q` parts of equal size: the parts are `q` when the quotient and the
remainder of what follows the first element reach `q` together. -/
theorem le_divCeil_divCeil_iff {q : ℕ} (hq : 0 < q) (ha : 0 < a) :
    q ≤ divCeil a (divCeil a q) ↔ q ≤ (a - 1) / q + (a - 1) % q + 1 := by
  have hc : 0 < divCeil a q := divCeil_pos ha hq
  obtain ⟨p, rfl⟩ : ∃ p, q = p + 1 := ⟨q - 1, by omega⟩
  rw [Nat.succ_le_iff, lt_divCeil_iff hc, divCeil_eq ha hq, Nat.mul_succ]
  have hdiv := Nat.div_add_mod (a - 1) (p + 1)
  rw [Nat.succ_mul] at hdiv
  omega

/-- **Stealing surface.** At least four chunks for each worker come out exactly when the
cap on the chunk size takes effect, or the quotient and the remainder of `len - 1` by the
number of chunks aimed at reach that number together. -/
theorem stealing_surface_iff {fuel start : ℕ} {chunks : List (ℕ × ℕ)} (hn : 1 ≤ numThreads)
    (hlen : 4 * numThreads ≤ len) (hmax : len < usizeModulus)
    (h : spawnLoop len (pickChunkSize len numThreads) fuel 0 = some chunks ∨
      sliceChunks (pickChunkSize len numThreads) fuel start len = some chunks) :
    4 * numThreads ≤ chunks.length ↔ 4096 * (4 * numThreads) < len ∨
      4 * numThreads ≤ (len - 1) / (4 * numThreads) + (len - 1) % (4 * numThreads) + 1 := by
  rw [chunks_length_eq h, pickChunkSize_eq hn hlen hmax]
  by_cases hcap : 4096 * (4 * numThreads) < len
  · have hlt : 4 * numThreads < divCeil len 4096 :=
      (lt_divCeil_iff (by norm_num)).mpr (by rwa [Nat.mul_comm])
    rw [Nat.max_eq_right hlt.le]
    refine iff_of_true (hlt.le.trans ?_) (.inl hcap)
    -- chunks of at most 4096 elements are as many as were aimed at
    have hpos : 0 < divCeil len 4096 := by omega
    exact divCeil_anti (divCeil_pos (by omega) hpos) (divCeil_divCeil_le (by omega) (by norm_num))
  · have hle : divCeil len 4096 ≤ 4 * numThreads := by
      rw [divCeil_le_iff (by norm_num), Nat.mul_comm]
      exact not_lt.mp hcap
    rw [Nat.max_eq_left hle, le_divCeil_divCeil_iff (by omega) (by omega)]
    simp [hcap]

end Count

theorem stealing_surface_eight :
    ∃ chunks, sliceChunks (pickChunkSize 8 1) 9 0 8 = some chunks ∧ 4 * 1 ≤ chunks.length := by
  have h : sliceChunks (pickChunkSize 8 1) 9 0 8 = some [(0, 2), (2, 2), (4, 2), (6, 2)] := by decide
  exact ⟨_, h, (stealing_surface_iff (by decide) (by decide) (by decide) (.inr h)).mpr
    (.inr (by decide))⟩

/-- Five elements for one worker: chunks of two, and three of them. -/
theorem stealing_surface_five : 1 ≤ 1 ∧ 4 * 1 ≤ 5 ∧ ∃ chunks,
    sliceChunks (pickChunkSize 5 1) 6 0 5 = some chunks ∧ ¬ 4 * 1 ≤ chunks.length :=
  ⟨by decide, by decide, [(0, 2), (2, 2), (4, 1)], by decide, by decide⟩

/-! ## Bounds on the chunk size -/

section Bounds
variable {len numThreads : ℕ}

/-- Neither division is by zero. -/
theorem pickChunkSizeChecked_eq (hover : numThreads * 4 < usizeModulus) :
    pickChunkSizeChecked len numThreads = some (pickChunkSize len numThreads) := by
  unfold pickChunkSizeChecked pickChunkSize
  have hmul : ¬ usizeModulus ≤ numThreads * chunksPerWorker := not_le.mpr hover
  by_cases hlen : len = 0
  · simp only [if_pos hlen]
  · have hdiv : divCeilChecked len maxChunk = some (divCeil len maxChunk) := rfl
    simp only [if_neg hlen, if_neg hmul, hdiv, Option.bind_eq_bind, Option.bind_some,
      Nat.mod_eq_of_lt (not_le.mp hmul)]
    exact if_neg (by omega)

/-- At most 4096 elements: as many chunks as there are elements are enough, and so are those
that the cap asks for. -/
theorem pickChunkSize_le (hlen : 1 ≤ len) (hn : 1 ≤ numThreads)
    (hover : numThreads * 4 < usizeModulus) : pickChunkSize len numThreads ≤ 4096 := by
  rw [pickChunkSize_eq_divCeil hlen hn hover]
  have hcap : 0 < divCeil len 4096 := divCeil_pos hlen (by norm_num)
  rcases Nat.le_total len (targetChunks len numThreads) with h | h
  · rw [Nat.min_eq_left h, divCeil_self hlen]
    norm_num
  · rw [Nat.min_eq_right h]
    calc divCeil len (targetChunks len numThreads)
        ≤ divCeil len (divCeil len 4096) := divCeil_anti hcap (Nat.le_max_right _ _)
      _ ≤ 4096 := divCeil_divCeil_le hlen (by norm_num)

theorem pickChunkSize_eq_one (hlen : 1 ≤ len) (hn : 1 ≤ numThreads)
    (hover : numThreads * 4 < usizeModulus) (hfew : len ≤ 4 * numThreads) :
    pickChunkSize len numThreads = 1 := by
  have hle : len ≤ targetChunks len numThreads := hfew.trans (Nat.le_max_left _ _)
  rw [pickChunkSize_eq_divCeil hlen hn hover, Nat.min_eq_left hle, divCeil_self hlen]

theorem divCeil_pickChunkSize_le (hlen : 1 ≤ len) (hn : 1 ≤ numThreads)
    (hover : numThreads * 4 < usizeModulus) :
    divCeil len (pickChunkSize len numThreads) ≤ targetChunks len numThreads := by
  have hpos : 0 < min len (targetChunks len numThreads) := lt_min hlen (targetChunks_pos hn)
  rw [pickChunkSize_eq_divCeil hlen hn hover]
  exact (divCeil_divCeil_le hlen hpos).trans (Nat.min_le_right _ _)

/-- The chunks that a dispatcher queues are no more than were aimed at. -/
theorem chunks_length_le {fuel start : ℕ} {chunks : List (ℕ × ℕ)} (hlen : 1 ≤ len)
    (hn : 1 ≤ numThreads) (hover : numThreads * 4 < usizeModulus)
    (h : spawnLoop len (pickChunkSize len numThreads) fuel 0 = some chunks ∨
      sliceChunks (pickChunkSize len numThreads) fuel start len = some chunks) :
    chunks.length ≤ targetChunks len numThreads := by
  rw [chunks_length_eq h]
  exact divCeil_pickChunkSize_le hlen hn hover

/-- **Chunk sizing.** Without a panic, a chunk has between one and 4096 elements, one when there
are no more elements than four for each worker, and the chunks are at most four for each worker
or as many as the cap on their size asks for. -/
theorem pickChunkSize_bounds (hlen : 1 ≤ len) (hn : 1 ≤ numThreads)
    (hover : numThreads * 4 < usizeModulus) :
    ∃ c, pickChunkSize len numThreads = c ∧ pickChunkSizeChecked len numThreads = some c ∧
      1 ≤ c ∧ c ≤ 4096 ∧ (len ≤ 4 * numThreads → c = 1) ∧
      divCeil len c ≤ max (4 * numThreads) (divCeil len 4096) :=
  ⟨_, rfl, pickChunkSizeChecked_eq hover, pickChunkSize_pos len numThreads,
    pickChunkSize_le hlen hn hover, pickChunkSize_eq_one hlen hn hover,
    divCeil_pickChunkSize_le hlen hn hover⟩

/-- A hundred thousand elements for two workers: the cap asks for 25 chunks. -/
theorem pickChunkSize_bounds_large :
    ∃ c, pickChunkSize 100000 2 = c ∧ pickChunkSizeChecked 100000 2 = some c ∧
      1 ≤ c ∧ c ≤ 4096 ∧ (100000 ≤ 4 * 2 → c = 1) ∧
      divCeil 100000 c ≤ max (4 * 2) (divCeil 100000 4096) :=
  pickChunkSize_bounds (by decide) (by decide) (by decide)

end Bounds

end Gilmap
