import Mathlib

/-! # The cache simulator `csim.c`

    `csim` replays a trace of loads and stores against a write-allocate,
    write-back cache with `2^s` sets of `E` lines and `2^b`-byte blocks. Each
    set is four parallel arrays (`tags`, `dirty`, `valid`, `lastModified`);
    a line's `lastModified` is the trace time of its last access, and the
    victim of an eviction is the line with the smallest one.

    * **`Line`**, **`Sim`** — a line of a set, and `cache_t` with its
      `csim_stats_t`;
    * the functions of `csim.c` from `getSetNum` to the loop of `parseFile`,
      each as the source computes it. `int` and `long` shifts are exact on
      the geometries the simulator is run with (`s, b ≤ 30`), and a trace is
      a list of `instruction_t` (`CsimTraceProofs` reads it from the file);
    * the facts about the three loops (`getSetNum_eq`, `getFreeSpace_of_valid`,
      `getFreeSpace_of_invalid`, `getLeastRecentlyUsed_le`), and one lemma
      per branch of an access (`executeInstruction_hit`,
      `executeInstruction_miss`, `handleMiss_fill`, `handleMiss_evict`),
      which is all the refinement proof reads of the code. -/

namespace Csim

/-- Line `j` of a set: `tags[j]`, `dirty[j]`, `valid[j]`, `lastModified[j]`. -/
structure Line where
  tag : Int
  dirty : Bool
  valid : Bool
  lastModified : Int
  deriving DecidableEq, Repr

/-- The line `makeSets` writes. -/
def emptyLine : Line := ⟨0, false, false, -1⟩

/-- `csim_stats_t`. -/
structure Stats where
  hits : Nat
  misses : Nat
  evictions : Nat
  dirtyBytes : Nat
  dirtyEvictions : Nat
  deriving DecidableEq, Repr

/-- `cache_t`: set `i` (for `i < 2^setBits`) is a list of `associativity` lines. -/
structure Sim where
  sets : Nat → List Line
  setBits : Nat
  associativity : Nat
  blockBits : Nat
  stats : Stats

/-- `instruction_t`: a `long` address and the operation character. -/
structure Instruction where
  address : Int
  operation : Char
  deriving DecidableEq, Repr

/-! ## The functions of `csim.c` -/

/-- `getSetNum(address, setBits, blockBits)`: `address >> blockBits` as an
    `unsigned long`, masked with `~(-1 << setBits) = 2^setBits - 1`. -/
def getSetNum (address : Int) (setBits blockBits : Nat) : Nat :=
  ((address >>> blockBits) % 2 ^ 64).toNat &&& (2 ^ setBits - 1)

/-- `getFreeSpace(set, associativity)`: the first invalid line, or `-1`. -/
def getFreeSpace (set : List Line) (associativity : Nat) : Int :=
  match (List.range associativity).find? (fun i => !(set.getD i emptyLine).valid) with
  | some i => i
  | none => -1

/-- `getLeastRecentlyUsed(lastModified, associativity)`: the first line with
    the smallest `lastModified`. -/
def getLeastRecentlyUsed (lastModified : List Int) (associativity : Nat) : Nat :=
  (List.range associativity).foldl
    (fun min i => if lastModified.getD i 0 < lastModified.getD min 0 then i else min) 0

/-- `handleMiss(set, cache, time, isStore, tag)`: the set's new lines and the
    new statistics. -/
def handleMiss (set : List Line) (cache : Sim) (time : Int) (isStore : Bool) (tag : Int) :
    List Line × Stats :=
  let freeSpace := getFreeSpace set cache.associativity
  let stats := { cache.stats with misses := cache.stats.misses + 1 }
  if freeSpace ≠ -1 then
    let line : Line := ⟨tag, false, true, time⟩
    if isStore then
      (set.set freeSpace.toNat { line with dirty := true },
        { stats with dirtyBytes := stats.dirtyBytes + 2 ^ cache.blockBits })
    else (set.set freeSpace.toNat line, stats)
  else
    let stats := { stats with evictions := stats.evictions + 1 }
    let lru := getLeastRecentlyUsed (set.map (·.lastModified)) cache.associativity
    let line := { set.getD lru emptyLine with lastModified := time, tag := tag }
    let (line, stats) := if line.dirty then
        ({ line with dirty := false },
          { stats with dirtyEvictions := stats.dirtyEvictions + 2 ^ cache.blockBits,
                       dirtyBytes := stats.dirtyBytes - 2 ^ cache.blockBits })
      else (line, stats)
    let (line, stats) := if isStore then
        ({ line with dirty := true }, { stats with dirtyBytes := stats.dirtyBytes + 2 ^ cache.blockBits })
      else (line, stats)
    (set.set lru line, stats)

/-- `executeInstruction(instruction, cache, time)`: an operation other than
    `L` or `S` is skipped. -/
def executeInstruction (instruction : Instruction) (cache : Sim) (time : Int) : Sim :=
  let isStore := instruction.operation = 'S'
  if instruction.operation ≠ 'S' ∧ instruction.operation ≠ 'L' then cache
  else
    let address := instruction.address
    let setNum := getSetNum address cache.setBits cache.blockBits
    let tag := address >>> (cache.setBits + cache.blockBits)
    let set := cache.sets setNum
    let put (set : List Line) (stats : Stats) : Sim :=
      { cache with sets := fun j => if j = setNum then set else cache.sets j, stats := stats }
    match (List.range cache.associativity).find?
        (fun i => (set.getD i emptyLine).valid && (set.getD i emptyLine).tag = tag) with
    | some i =>
      let line := { set.getD i emptyLine with lastModified := time }
      let stats := { cache.stats with hits := cache.stats.hits + 1 }
      if isStore && !line.dirty then
        put (set.set i { line with dirty := true })
          { stats with dirtyBytes := stats.dirtyBytes + 2 ^ cache.blockBits }
      else put (set.set i line) stats
    | none =>
      let (set, stats) := handleMiss set cache time isStore tag
      put set stats

/-- The loop of `parseFile`: one instruction per line, `time` counting lines. -/
def runTrace (cache : Sim) : List Instruction → Int → Sim
  | [], _ => cache
  | instruction :: trace, time => runTrace (executeInstruction instruction cache time) trace (time + 1)

/-- `makeSets(setBits, associativity)`: `2^setBits` sets of empty lines. -/
def makeSets (setBits associativity : Nat) : Nat → List Line :=
  fun i => if i < 2 ^ setBits then List.replicate associativity emptyLine else []

/-- `makeCache(sets, args)`. -/
def makeCache (sets : Nat → List Line) (setBits associativity blockBits : Nat) : Sim :=
  ⟨sets, setBits, associativity, blockBits, ⟨0, 0, 0, 0, 0⟩⟩

/-- `csim -s setBits -E associativity -b blockBits` on a trace: `parseFile` starts at time 1. -/
def simulate (setBits associativity blockBits : Nat) (trace : List Instruction) : Stats :=
  (runTrace (makeCache (makeSets setBits associativity) setBits associativity blockBits) trace 1).stats

/-! ## The three loops -/

section Loops

theorem getSetNum_lt (address : Int) (setBits blockBits : Nat) :
    getSetNum address setBits blockBits < 2 ^ setBits := by
  rw [getSetNum, Nat.and_pow_two_sub_one_eq_mod]; exact Nat.mod_lt _ (Nat.two_pow_pos _)

/-- The set index is bits `b .. b + s - 1` of the address: `(address >> b) mod 2^s`. -/
theorem getSetNum_eq {setBits : Nat} (hs : setBits ≤ 64) (address : Int) (blockBits : Nat) :
    getSetNum address setBits blockBits = ((address >>> blockBits) % 2 ^ setBits).toNat := by
  have hd : (2 : Int) ^ setBits ∣ 2 ^ 64 := by exact_mod_cast Nat.pow_dvd_pow 2 hs
  have h0 : 0 ≤ (address >>> blockBits) % 2 ^ 64 := Int.emod_nonneg _ (by decide)
  have h1 : 0 ≤ (address >>> blockBits) % 2 ^ setBits :=
    Int.emod_nonneg _ (by exact_mod_cast (Nat.two_pow_pos setBits).ne')
  rw [getSetNum, Nat.and_pow_two_sub_one_eq_mod]
  apply Int.ofNat.inj
  rw [Int.ofNat_eq_coe, Int.ofNat_eq_coe, Int.ofNat_emod, Int.toNat_of_nonneg h0,
    Int.toNat_of_nonneg h1, Int.natCast_pow]
  exact Int.emod_emod_of_dvd _ hd

variable {set : List Line} {associativity : Nat}

theorem getFreeSpace_of_valid (h : ∀ i < associativity, (set.getD i emptyLine).valid = true) :
    getFreeSpace set associativity = -1 := by
  have : (List.range associativity).find? (fun i => !(set.getD i emptyLine).valid) = none :=
    List.find?_eq_none.mpr fun i hi => by
      rw [h i (List.mem_range.mp hi)]; exact Bool.false_ne_true
  simp only [getFreeSpace, this]

theorem getFreeSpace_of_invalid (h : ∃ i < associativity, (set.getD i emptyLine).valid = false) :
    ∃ i < associativity, getFreeSpace set associativity = i ∧ (set.getD i emptyLine).valid = false := by
  cases hf : (List.range associativity).find? (fun i => !(set.getD i emptyLine).valid) with
  | none =>
    obtain ⟨i, hi, hv⟩ := h
    exact absurd (List.find?_eq_none.mp hf i (List.mem_range.mpr hi)) (by rw [hv]; decide)
  | some i =>
    refine ⟨i, List.mem_range.mp (List.mem_of_find?_eq_some hf), by rw [getFreeSpace, hf], ?_⟩
    simpa using List.find?_some hf

/-- `getLeastRecentlyUsed` returns a line whose `lastModified` is the least. -/
theorem getLeastRecentlyUsed_le (lm : List Int) {n : Nat} (hn : 0 < n) :
    getLeastRecentlyUsed lm n < n ∧
      ∀ i < n, lm.getD (getLeastRecentlyUsed lm n) 0 ≤ lm.getD i 0 := by
  induction n with
  | zero => exact absurd hn (Nat.lt_irrefl 0)
  | succ n ih =>
    rw [getLeastRecentlyUsed, List.range_succ, List.foldl_append, List.foldl_cons, List.foldl_nil,
      ← getLeastRecentlyUsed]
    rcases Nat.eq_zero_or_pos n with rfl | hn'
    · simp [getLeastRecentlyUsed]
    obtain ⟨hlt, hle⟩ := ih hn'
    split_ifs with h
    · refine ⟨Nat.lt_succ_self n, fun i hi => ?_⟩
      rcases Nat.lt_succ_iff_lt_or_eq.mp hi with hi | rfl
      · exact le_trans (le_of_lt h) (hle i hi)
      · exact le_rfl
    · refine ⟨Nat.lt_succ_of_lt hlt, fun i hi => ?_⟩
      rcases Nat.lt_succ_iff_lt_or_eq.mp hi with hi | rfl
      · exact hle i hi
      · exact not_lt.mp h

end Loops

/-! ## One access -/

section Access

variable {ins : Instruction} {c : Sim} {time : Int} {j : Nat} {t : Int} {ls : List Line}

/-- A hit on line `i` of the set: the line takes the current time, and a
    store marks it dirty, counting its block once. -/
theorem executeInstruction_hit (hop : ins.operation = 'S' ∨ ins.operation = 'L')
    (hj : getSetNum ins.address c.setBits c.blockBits = j)
    (ht : ins.address >>> (c.setBits + c.blockBits) = t) (hls : c.sets j = ls) {i : Nat}
    (hf : (List.range c.associativity).find?
      (fun i => (ls.getD i emptyLine).valid && decide ((ls.getD i emptyLine).tag = t)) = some i) :
    executeInstruction ins c time =
      { c with
        sets := fun k => if k = j then
            ls.set i { ls.getD i emptyLine with
              lastModified := time,
              dirty := (ls.getD i emptyLine).dirty || decide (ins.operation = 'S') }
          else c.sets k
        stats := { c.stats with
          hits := c.stats.hits + 1
          dirtyBytes := c.stats.dirtyBytes +
            if decide (ins.operation = 'S') && !(ls.getD i emptyLine).dirty then 2 ^ c.blockBits
            else 0 } } := by
  have hop' : ¬(ins.operation ≠ 'S' ∧ ins.operation ≠ 'L') := by tauto
  simp only [executeInstruction, if_neg hop', hj, ht, hls, hf]
  generalize decide (ins.operation = 'S') = st
  generalize (ls.getD i emptyLine).dirty = d
  cases st <;> cases d <;> rfl

/-- A miss: `handleMiss` rewrites the set and the statistics. -/
theorem executeInstruction_miss (hop : ins.operation = 'S' ∨ ins.operation = 'L')
    (hj : getSetNum ins.address c.setBits c.blockBits = j)
    (ht : ins.address >>> (c.setBits + c.blockBits) = t) (hls : c.sets j = ls)
    (hf : (List.range c.associativity).find?
      (fun i => (ls.getD i emptyLine).valid && decide ((ls.getD i emptyLine).tag = t)) = none) :
    executeInstruction ins c time =
      { c with
        sets := fun k =>
          if k = j then (handleMiss ls c time (decide (ins.operation = 'S')) t).1 else c.sets k
        stats := (handleMiss ls c time (decide (ins.operation = 'S')) t).2 } := by
  have hop' : ¬(ins.operation ≠ 'S' ∧ ins.operation ≠ 'L') := by tauto
  simp only [executeInstruction, if_neg hop', hj, ht, hls, hf]

variable {st : Bool}

/-- A miss with a free line `f`: the block is loaded there, dirty on a store. -/
theorem handleMiss_fill {f : Nat} (hfree : getFreeSpace ls c.associativity = f) :
    handleMiss ls c time st t =
      (ls.set f ⟨t, st, true, time⟩,
        { c.stats with
          misses := c.stats.misses + 1
          dirtyBytes := c.stats.dirtyBytes + if st then 2 ^ c.blockBits else 0 }) := by
  have hne : (f : Int) ≠ -1 := by omega
  cases st <;> simp [handleMiss, hfree, hne]

/-- A miss in a full set: line `m` is evicted, its block counted if dirty,
    and the new block takes its place, dirty on a store. -/
theorem handleMiss_evict {m : Nat} (hfull : getFreeSpace ls c.associativity = -1)
    (hlru : getLeastRecentlyUsed (ls.map (·.lastModified)) c.associativity = m) :
    handleMiss ls c time st t =
      (ls.set m { ls.getD m emptyLine with lastModified := time, tag := t, dirty := st },
        { c.stats with
          misses := c.stats.misses + 1
          evictions := c.stats.evictions + 1
          dirtyEvictions := c.stats.dirtyEvictions +
            if (ls.getD m emptyLine).dirty then 2 ^ c.blockBits else 0
          dirtyBytes := c.stats.dirtyBytes -
            (if (ls.getD m emptyLine).dirty then 2 ^ c.blockBits else 0) +
            if st then 2 ^ c.blockBits else 0 }) := by
  simp only [handleMiss, hfull, hlru, ne_eq, not_true_eq_false, if_false]
  cases st <;> cases (ls.getD m emptyLine).dirty <;> simp

end Access

end Csim
