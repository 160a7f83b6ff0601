import FuzzingCiCd.Mutator.Receive

/-!
# The mutations

`afl_custom_fuzz` takes a candidate of the worker and puts the start of the seed in front of it, or
changes the seed by a few random operations when there is none. `afl_custom_havoc_mutation` flips
one bit. Both write to the output buffer of the mutator, which is allocated once.

All accesses are checked, so that a mutation that returns has stayed inside its buffers, has not
divided by zero and has not taken a greater size from a smaller one.

## Main results

* `exists_fallbackOp`: each random operation keeps the length of the output within its bounds.
* `produces_aflCustomFuzz`, `exists_aflCustomHavocMutation`: what the two entry points return.
* `output_bounds`: both, for every input, capacity, candidate, counter and seed.
-/

namespace FuzzingCiCd.Mutator

open Buffer Program Transition

/-- `my_mutator_t`. The capacity `out_cap` is the size of the buffer that is allocated with it. -/
structure MutatorState where
  connection : MyMutator
  seed : UInt32
  outBuf : Buffer UInt8
  lastDesc : String
  requests : UInt64
  hits : UInt64
  misses : UInt64
  deriving DecidableEq

def MutatorState.outCap (data : MutatorState) : ℕ := data.outBuf.size

/-- The next state of the generator, which is also its value. -/
def rngNext (state : UInt32) : UInt32 :=
  let x := if state = 0 then 0xA5A5A5A5 else state
  let x := x ^^^ x <<< 13
  let x := x ^^^ x >>> 17
  x ^^^ x <<< 5

/-! ## Random operations on the seed

Each operation draws a position modulo the length it has at hand, so the length must not be zero
where one is drawn. The bounds of every access are checked in the model, and an operation that
would leave its buffer is a fault. -/

/-- The loop variables of `cheap_fallback_mutation`. -/
structure Fallback where
  outBuf : Buffer UInt8
  n : ℕ
  state : UInt32
  deriving DecidableEq

/-- One round of the loop. -/
def fallbackOp (maxSize : ℕ) (s : Fallback) : Except BufferFault Fallback :=
  let state := rngNext s.state
  let choice := state % 4
  if choice = 0 ∧ s.n > 0 then do
    let state := rngNext state
    let pos ← sizeMod state.toNat s.n
    let state := rngNext state
    let byte ← s.outBuf.load pos
    let outBuf ← s.outBuf.store pos (byte ^^^ ((1 : UInt32) <<< (state % 8)).toUInt8)
    return ⟨outBuf, s.n, state⟩
  else if choice = 1 ∧ s.n > 0 then do
    let state := rngNext state
    let pos ← sizeMod state.toNat s.n
    let state := rngNext state
    let byte ← s.outBuf.load pos
    let outBuf ← s.outBuf.store pos (byte + (1 + state % 15).toUInt8)
    return ⟨outBuf, s.n, state⟩
  else if choice = 2 ∧ sizeAdd s.n 1 < maxSize then do
    let state := rngNext state
    let pos ← sizeMod state.toNat (sizeAdd s.n 1)
    let len ← sizeSub s.n pos
    let outBuf ← s.outBuf.memmove (pos + 1) pos len
    let state := rngNext state
    let outBuf ← outBuf.store pos (32 + state % 95).toUInt8
    return ⟨outBuf, sizeAdd s.n 1, state⟩
  else if choice = 3 ∧ s.n > 4 then do
    let state := rngNext state
    let source ← sizeMod state.toNat s.n
    let state := rngNext state
    let target ← sizeMod state.toNat s.n
    let byte ← s.outBuf.load source
    let outBuf ← s.outBuf.store target byte
    return ⟨outBuf, s.n, state⟩
  else return ⟨s.outBuf, s.n, state⟩

def fallbackOps (maxSize : ℕ) : ℕ → Fallback → Except BufferFault Fallback
  | 0, s => .ok s
  | ops + 1, s => do
    let s ← fallbackOp maxSize s
    fallbackOps maxSize ops s

/-- `cheap_fallback_mutation`, with `*out_len`. -/
def cheapFallbackMutation (data : MutatorState) (buf : Buffer UInt8) (maxSize : ℕ) :
    Except BufferFault (MutatorState × ℕ) :=
  let n := min buf.size maxSize
  if n = 0 then do
    let outBuf ← data.outBuf.store 0 65
    return ({ data with outBuf, lastDesc := "fallback:init-byte" }, 1)
  else do
    let outBuf ← data.outBuf.memcpy 0 buf 0 n
    let state := rngNext (data.seed ^^^ data.requests.toUInt32)
    let ops := 1 + (state % 4).toNat
    let s ← fallbackOps maxSize ops ⟨outBuf, n, state⟩
    return ({ data with
      outBuf := s.outBuf
      lastDesc := "fallback:cheap-mutation ops=" ++ toString ops }, s.n)

/-- `blend_with_seed`. -/
def blendWithSeed (data : MutatorState) (seedBuf candBuf : Buffer UInt8) (candLen maxSize : ℕ) :
    Except BufferFault (MutatorState × ℕ) :=
  if candLen = 0 then cheapFallbackMutation data seedBuf maxSize
  else do
    let n := min candLen maxSize
    let outBuf ← data.outBuf.memcpy 0 candBuf 0 n
    let outBuf ←
      if seedBuf.size > 0 ∧ n > 2 then outBuf.memcpy 0 seedBuf 0 (min (seedBuf.size / 2) (n / 2))
      else .ok outBuf
    return ({ data with outBuf, lastDesc := "llm-cache-hit:size=" ++ toString candLen }, n)

section Random

variable {cap maxSize : ℕ} {s : Fallback}

/-- The output is not empty, not longer than it may be, and its buffer is as large as before. -/
structure Within (cap maxSize : ℕ) (s : Fallback) : Prop where
  pos : 0 < s.n
  le : s.n ≤ maxSize
  size : s.outBuf.size = cap

theorem exists_drawn (state : UInt32) {n : ℕ} (h : 0 < n) :
    ∃ pos, sizeMod state.toNat n = .ok pos ∧ pos < n :=
  ⟨_, sizeMod_of_pos h _, Nat.mod_lt _ h⟩

/-- **One random operation** stays inside the output buffer and keeps its length within bounds. -/
theorem exists_fallbackOp (hmax : maxSize ≤ cap) (h : Within cap maxSize s) :
    ∃ s', fallbackOp maxSize s = .ok s' ∧ Within cap maxSize s' := by
  have hroom : s.n ≤ s.outBuf.size := h.le.trans (hmax.trans (Nat.le_of_eq h.size.symm))
  have hbounded := s.outBuf.size_lt
  rw [fallbackOp]
  dsimp only
  split
  · -- flip a bit
    obtain ⟨pos, hpos, hlt⟩ := exists_drawn (rngNext (rngNext s.state)) h.pos
    obtain ⟨byte, hload⟩ := exists_load (Nat.lt_of_lt_of_le hlt hroom)
    obtain ⟨outBuf, hstore, hsize⟩ := exists_store (Nat.lt_of_lt_of_le hlt hroom)
      (byte ^^^ ((1 : UInt32) <<< (rngNext (rngNext (rngNext s.state)) % 8)).toUInt8)
    rw [hpos, ok_bind, hload, ok_bind, hstore, ok_bind]
    exact ⟨_, rfl, h.pos, h.le, hsize.trans h.size⟩
  split
  · -- add to a byte
    obtain ⟨pos, hpos, hlt⟩ := exists_drawn (rngNext (rngNext s.state)) h.pos
    obtain ⟨byte, hload⟩ := exists_load (Nat.lt_of_lt_of_le hlt hroom)
    obtain ⟨outBuf, hstore, hsize⟩ := exists_store (Nat.lt_of_lt_of_le hlt hroom)
      (byte + (1 + rngNext (rngNext (rngNext s.state)) % 15).toUInt8)
    rw [hpos, ok_bind, hload, ok_bind, hstore, ok_bind]
    exact ⟨_, rfl, h.pos, h.le, hsize.trans h.size⟩
  split
  · -- insert a byte, for which there is room
    rename_i hinsert
    have hnext : sizeAdd s.n 1 = s.n + 1 := sizeAdd_of_lt (by omega)
    rw [hnext] at hinsert ⊢
    obtain ⟨pos, hpos, hlt⟩ := exists_drawn (rngNext (rngNext s.state)) (Nat.succ_pos s.n)
    have hcap := h.size
    have hsource : pos + (s.n - pos) ≤ s.outBuf.size := by omega
    have htarget : pos + 1 + (s.n - pos) ≤ s.outBuf.size := by omega
    obtain ⟨moved, hmove, hsize⟩ := exists_memmove hsource htarget
    obtain ⟨outBuf, hstore, hsize'⟩ := exists_store (b := moved) (i := pos) (by omega)
      (32 + rngNext (rngNext (rngNext s.state)) % 95).toUInt8
    rw [hpos, ok_bind, sizeSub_of_le (by omega), ok_bind, hmove, ok_bind, hstore, ok_bind]
    exact ⟨_, rfl, Nat.succ_pos _, Nat.le_of_lt hinsert.2, hsize'.trans (hsize.trans h.size)⟩
  split
  · -- copy a byte
    obtain ⟨source, hsource, hlt⟩ := exists_drawn (rngNext (rngNext s.state)) h.pos
    obtain ⟨target, htarget, hlt'⟩ := exists_drawn (rngNext (rngNext (rngNext s.state))) h.pos
    obtain ⟨byte, hload⟩ := exists_load (Nat.lt_of_lt_of_le hlt hroom)
    obtain ⟨outBuf, hstore, hsize⟩ := exists_store (Nat.lt_of_lt_of_le hlt' hroom) byte
    rw [hsource, ok_bind, htarget, ok_bind, hload, ok_bind, hstore, ok_bind]
    exact ⟨_, rfl, h.pos, h.le, hsize.trans h.size⟩
  · exact ⟨_, rfl, h.pos, h.le, h.size⟩

theorem exists_fallbackOps (hmax : maxSize ≤ cap) (ops : ℕ) (h : Within cap maxSize s) :
    ∃ s', fallbackOps maxSize ops s = .ok s' ∧ Within cap maxSize s' := by
  induction ops generalizing s with
  | zero => exact ⟨s, rfl, h⟩
  | succ ops ih =>
    obtain ⟨next, hop, hnext⟩ := exists_fallbackOp hmax h
    obtain ⟨s', hops, hs'⟩ := ih hnext
    exact ⟨s', by rw [fallbackOps, hop, ok_bind, hops], hs'⟩

end Random

/-! ## The entry points

The two mutations write into the output buffer at positions that they draw, and every access is
to a buffer of known size, so a run either returns or has a fault to show. `Produces` says that
there is none and what the returned length is. The candidate of a worker is only as long as its
own buffer says, whatever was received. -/

/-- What `afl_custom_fuzz` does with the outcome of `fetch_candidate`. -/
def mutateFetched (data : MutatorState) (buf : Buffer UInt8) (maxSize : ℕ)
    (fetched : MyMutator × Buffer UInt8 × Option ℕ) : Except BufferFault (MutatorState × ℕ) :=
  let (connection, candidate, hit) := fetched
  match hit with
  | some candidateLen =>
    blendWithSeed { data with connection, hits := data.hits + 1 } buf candidate candidateLen maxSize
  | none => cheapFallbackMutation { data with connection, misses := data.misses + 1 } buf maxSize

/-- `afl_custom_fuzz`, for pointers that are not null. -/
def aflCustomFuzz (locals : Locals) (data : MutatorState) (buf : Buffer UInt8) (maxSize : ℕ) :
    Client (Except BufferFault (MutatorState × ℕ)) :=
  if maxSize = 0 then pure (.ok (data, 0))
  else do
    let data := { data with requests := data.requests + 1 }
    let maxSize := if maxSize > data.outCap then data.outCap else maxSize
    let fetched ← fetchCandidateInto locals data.connection locals.candidateBuffer
      (min locals.candidateBuffer.size maxSize)
    return fetched >>= mutateFetched data buf maxSize

/-- `afl_custom_havoc_mutation`. -/
def aflCustomHavocMutation (data : MutatorState) (buf : Buffer UInt8) (maxSize : ℕ) :
    Except BufferFault (MutatorState × ℕ) := do
  let n := min buf.size (min maxSize data.outCap)
  let outBuf ← data.outBuf.memcpy 0 buf 0 n
  let outBuf ←
    if n > 0 then do
      let pos ← sizeMod (data.seed.toUInt64 + data.requests).toNat n
      let byte ← outBuf.load pos
      outBuf.store pos (byte ^^^ 0x20)
    else .ok outBuf
  return ({ data with outBuf, lastDesc := "havoc:tweak-byte" }, n)

section Bounds

variable {data : MutatorState} {buf candBuf : Buffer UInt8} {maxSize candLen bound : ℕ}

/-- The mutation returns a length within its bounds, and the output buffer is as large as before. -/
def Produces (data : MutatorState) (least bound : ℕ)
    (result : Except BufferFault (MutatorState × ℕ)) : Prop :=
  ∃ data' produced, result = .ok (data', produced) ∧ data'.outCap = data.outCap ∧
    least ≤ produced ∧ produced ≤ bound

/-- **`cheap_fallback_mutation`** for any seed, also the empty one. -/
theorem produces_cheapFallbackMutation (hpos : 0 < maxSize) (hmax : maxSize ≤ data.outCap)
    (buf : Buffer UInt8) :
    Produces data 1 maxSize (cheapFallbackMutation data buf maxSize) := by
  rw [MutatorState.outCap] at hmax
  rw [cheapFallbackMutation]
  by_cases hn : min buf.size maxSize = 0
  · rw [if_pos hn]
    obtain ⟨outBuf, hstore, hsize⟩ := exists_store (Nat.lt_of_lt_of_le hpos hmax) (65 : UInt8)
    rw [hstore, ok_bind]
    exact ⟨_, _, rfl, hsize, Nat.le_refl 1, hpos⟩
  · rw [if_neg hn]
    have hsource : 0 + min buf.size maxSize ≤ buf.size := by omega
    have htarget : 0 + min buf.size maxSize ≤ data.outBuf.size := by omega
    obtain ⟨outBuf, hcopy, hsize⟩ := exists_memcpy hsource htarget
    have hwithin : Within data.outBuf.size maxSize ⟨outBuf, min buf.size maxSize,
        rngNext (data.seed ^^^ data.requests.toUInt32)⟩ :=
      ⟨Nat.pos_of_ne_zero hn, Nat.min_le_right _ _, hsize⟩
    obtain ⟨s, hops, hs⟩ := exists_fallbackOps hmax
      (1 + (rngNext (data.seed ^^^ data.requests.toUInt32) % 4).toNat) hwithin
    rw [hcopy, ok_bind]
    dsimp only
    rw [hops, ok_bind]
    exact ⟨_, _, rfl, hs.size, hs.pos, hs.le⟩

/-- **`blend_with_seed`** for any candidate that its buffer holds. -/
theorem produces_blendWithSeed (hpos : 0 < maxSize) (hmax : maxSize ≤ data.outCap)
    (hcand : candLen ≤ candBuf.size) (seedBuf : Buffer UInt8) :
    Produces data 1 maxSize (blendWithSeed data seedBuf candBuf candLen maxSize) := by
  rw [blendWithSeed]
  by_cases hzero : candLen = 0
  · rw [if_pos hzero]
    exact produces_cheapFallbackMutation hpos hmax seedBuf
  rw [if_neg hzero]
  rw [MutatorState.outCap] at hmax
  have hsource : 0 + min candLen maxSize ≤ candBuf.size := by omega
  have htarget : 0 + min candLen maxSize ≤ data.outBuf.size := by omega
  obtain ⟨outBuf, hcopy, hsize⟩ := exists_memcpy hsource htarget
  dsimp only
  rw [hcopy, ok_bind]
  have hlength : 1 ≤ min candLen maxSize := by omega
  split
  · -- the start of the seed goes in front, half of the shorter one at most
    have hsource' : 0 + min (seedBuf.size / 2) (min candLen maxSize / 2) ≤ seedBuf.size := by omega
    have htarget' : 0 + min (seedBuf.size / 2) (min candLen maxSize / 2) ≤ outBuf.size := by omega
    obtain ⟨blended, hblend, hsize'⟩ := exists_memcpy hsource' htarget'
    rw [hblend, ok_bind]
    exact ⟨_, _, rfl, hsize'.trans hsize, hlength, Nat.min_le_right _ _⟩
  · rw [ok_bind]
    exact ⟨_, _, rfl, hsize, hlength, Nat.min_le_right _ _⟩

theorem produces_mutateFetched (data : MutatorState) (hpos : 0 < maxSize)
    (hmax : maxSize ≤ data.outCap) (buf : Buffer UInt8) (connection : MyMutator)
    {candidate : Buffer UInt8} {hit : Option ℕ}
    (hhit : ∀ candidateLen ∈ hit, candidateLen ≤ candidate.size) :
    Produces data 1 maxSize (mutateFetched data buf maxSize (connection, candidate, hit)) := by
  rcases hit with _ | candidateLen
  · exact @produces_cheapFallbackMutation
      { data with connection := connection, misses := data.misses + 1 } maxSize hpos hmax buf
  · exact @produces_blendWithSeed
      { data with connection := connection, hits := data.hits + 1 } candidate maxSize candidateLen
      hpos hmax (hhit candidateLen rfl) buf

theorem exists_of_fetchedInto {dst : Buffer UInt8} (hmax : maxSize ≤ dst.size)
    (result : Except BufferFault (MyMutator × Buffer UInt8 × Option ℕ))
    (fetched : MyMutator × Option Bytes) (h : FetchedInto dst maxSize result fetched) :
    ∃ connection candidate hit, result = .ok (connection, candidate, hit) ∧
      ∀ candidateLen ∈ hit, candidateLen ≤ candidate.size := by
  obtain ⟨dst', rfl, hsize, hcandidate⟩ := h
  refine ⟨_, _, _, rfl, fun candidateLen hlen ↦ ?_⟩
  obtain ⟨candidate, hsome, rfl⟩ := Option.map_eq_some_iff.mp hlen
  rw [hsize]
  exact (hcandidate candidate hsome).1.trans hmax

/-- **`afl_custom_fuzz`** along every run of its calls, whatever the system and the worker
answer. -/
theorem produces_aflCustomFuzz (locals : Locals) (buf : Buffer UInt8) (hcap : 0 < data.outCap)
    (hmax : 0 < maxSize) : (aflCustomFuzz locals data buf maxSize).Always
      (Produces data 1 (min maxSize data.outCap)) := by
  rw [aflCustomFuzz, if_neg (Nat.ne_of_gt hmax)]
  have hclamped : (if maxSize > data.outCap then data.outCap else maxSize) =
      min maxSize data.outCap := by
    split
    · omega
    · omega
  have hdst : min locals.candidateBuffer.size (min maxSize data.outCap) ≤
      locals.candidateBuffer.size := Nat.min_le_left _ _
  change Always _ (fetchCandidateInto locals data.connection locals.candidateBuffer
    (min locals.candidateBuffer.size (if maxSize > data.outCap then data.outCap else maxSize)) >>=
      fun fetched ↦ pure (fetched >>= mutateFetched { data with requests := data.requests + 1 } buf
        (if maxSize > data.outCap then data.outCap else maxSize)))
  rw [hclamped]
  refine Always.bind ((related_fetchCandidateInto locals data.connection hdst).always
    (exists_of_fetchedInto hdst)) ?_
  rintro _ ⟨connection, candidate, hit, rfl, hhit⟩
  have hpos : 0 < min maxSize data.outCap := by omega
  exact produces_mutateFetched { data with requests := data.requests + 1 } hpos
    (Nat.min_le_right _ _) buf connection hhit

theorem produces_aflCustomHavocMutation (data : MutatorState) (buf : Buffer UInt8) (maxSize : ℕ) :
    Produces data 0 (min buf.size (min maxSize data.outCap))
      (aflCustomHavocMutation data buf maxSize) := by
  rw [aflCustomHavocMutation]
  have hcap : data.outCap = data.outBuf.size := rfl
  have hsource : 0 + min buf.size (min maxSize data.outCap) ≤ buf.size := by omega
  have htarget : 0 + min buf.size (min maxSize data.outCap) ≤ data.outBuf.size := by omega
  obtain ⟨outBuf, hcopy, hsize⟩ := exists_memcpy hsource htarget
  rw [hcopy, ok_bind]
  split
  · rename_i hn
    have hlt := Nat.mod_lt (data.seed.toUInt64 + data.requests).toNat hn
    obtain ⟨byte, hload⟩ := exists_load (b := outBuf) (Nat.lt_of_lt_of_le hlt (by omega))
    obtain ⟨tweaked, hstore, hsize'⟩ := exists_store (b := outBuf)
      (Nat.lt_of_lt_of_le hlt (by omega)) (byte ^^^ 0x20)
    rw [sizeMod_of_pos hn, ok_bind, hload, ok_bind, hstore, ok_bind]
    exact ⟨_, _, rfl, hsize'.trans hsize, Nat.zero_le _, Nat.le_refl _⟩
  · rw [ok_bind]
    exact ⟨_, _, rfl, hsize, Nat.zero_le _, Nat.le_refl _⟩

/-- **Output bounds.** For every input, capacity, counter and seed, and whatever the worker
answers, `afl_custom_fuzz` returns a length between 1 and the smaller of `max_size` and the
capacity, and `afl_custom_havoc_mutation` one that is no greater than that of its input either. No
access leaves its buffer. -/
theorem output_bounds (locals : Locals) (data : MutatorState) (buf : Buffer UInt8) (maxSize : ℕ)
    (hcap : 0 < data.outCap) (hmax : 0 < maxSize) :
    (aflCustomFuzz locals data buf maxSize).Always
        (Produces data 1 (min maxSize data.outCap)) ∧
      Produces data 0 (min buf.size (min maxSize data.outCap))
        (aflCustomHavocMutation data buf maxSize) :=
  ⟨produces_aflCustomFuzz locals buf hcap hmax, produces_aflCustomHavocMutation data buf maxSize⟩

/-- A mutator that has no connection, and an output buffer of two bytes. -/
def smallMutator : MutatorState where
  connection := ⟨none, 0⟩
  seed := 1
  outBuf := ⟨[0, 0], by decide⟩
  lastDesc := "init"
  requests := 0
  hits := 0
  misses := 0

theorem output_bounds_small :
    (aflCustomFuzz ⟨.replicate _ 0, .replicate _ 0, .replicate _ 0⟩ smallMutator
        ⟨[1, 2, 3], by decide⟩ 1).Always (Produces smallMutator 1 1) ∧
      Produces smallMutator 0 1 (aflCustomHavocMutation smallMutator ⟨[1, 2, 3], by decide⟩ 1) :=
  output_bounds ⟨.replicate _ 0, .replicate _ 0, .replicate _ 0⟩ smallMutator
    ⟨[1, 2, 3], by decide⟩ 1 (by decide) (by decide)

end Bounds

end FuzzingCiCd.Mutator
