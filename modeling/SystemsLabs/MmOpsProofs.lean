import SystemsLabs.MmFindFitProofs

/-! # The operations of `mm.c`

    Coalescing, heap extension, splitting, the fit search, and the four public
    operations `malloc`, `free`, `realloc` and `calloc`, each as the source
    computes it on `St`. A function that returns a pointer returns it beside
    the new state, `NULL` being `0`; `memset` and `memcpy` act on the bytes
    inside the arena's words. -/

namespace MmOps

open MmCodec MmState St MmLayout MmFreeList MmFindFit

/-- `coalesce_block(block)`: the new state and the merged block. -/
def coalesceBlock (s : St) (block : Nat) : St × Nat :=
  let prevAlloced := getPrevAlloc s block
  let next := findNext s block
  let nextAlloced := getAlloc s next
  if !nextAlloced && !prevAlloced then
    let prev := findPrev s block
    let newSize := getSize s prev + getSize s block + getSize s next
    let s := removeFromFree s prev
    let s := removeFromFree s next
    let s := removeFromFree s block
    let s := writeBlock s prev newSize false true
    (addToFree s prev, prev)
  else if !nextAlloced then
    let newSize := getSize s next + getSize s block
    let s := removeFromFree s next
    let s := removeFromFree s block
    let s := writeBlock s block newSize false true
    (addToFree s block, block)
  else if !prevAlloced then
    let prev := findPrev s block
    let newSize := getSize s block + getSize s prev
    let s := removeFromFree s prev
    let s := removeFromFree s block
    let s := writeBlock s prev newSize false true
    (addToFree s prev, prev)
  else (s, block)

/-- `extend_heap(size)`: `NULL` (0) when `mem_sbrk` fails. -/
def extendHeap (s : St) (size : Nat) : St × Nat :=
  let size := roundUp size dsize
  match memSbrk s size with
  | none => (s, 0)
  | some (bp, s) =>
    let block := payloadToHeader bp
    let oldEpi := bp - 8
    let s := writeBlock s block size false (getPrevAlloc s oldEpi)
    let s := addToFree s block
    let blockNext := findNext s block
    let s := writeEpilogue s blockNext
    coalesceBlock s block

/-- `split_block(block, asize)`. -/
def splitBlock (s : St) (block asize : Nat) : St :=
  let blockSize := getSize s block
  if blockSize - asize ≥ minBlockSize then
    let s := writeBlock s block asize true true
    let blockNext := findNext s block
    let s := writeBlock s blockNext (blockSize - asize) false true
    addToFree s blockNext
  else s

/-- `mm_init()`: the new state and whether it succeeded. -/
def mmInit (s : St) : St × Bool :=
  match memSbrk s (2 * wsize) with
  | none => ({ s with freeRoot := fun _ => 0 }, false)
  | some (start, s) =>
    let s := { s with freeRoot := fun _ => 0 }
    let s := s.store start (pack 0 true true)
    let s := s.store (start + 8) (pack 0 true true)
    let s := { s with heapStart := start + 8 }
    let (s, block) := extendHeap s chunksize
    (s, block ≠ 0)

/-- The adjusted block size of a request: `size + wsize` is `size_t` arithmetic. -/
def asizeOf (size : Nat) : Nat := max (roundUp ((size + wsize) % 2 ^ 64) dsize) minBlockSize

/-- `malloc(size)`: the new state and the payload pointer (`NULL` is 0). -/
def malloc (s : St) (size : Nat) : St × Nat :=
  let s := if s.heapStart = 0 then (mmInit s).1 else s
  if size = 0 then (s, 0)
  else
    let asize := asizeOf size
    let block := findFit s asize
    let (s, block) := if block = 0 then extendHeap s (max asize chunksize) else (s, block)
    if block = 0 then (s, 0)
    else
      let s := removeFromFree s block
      let blockSize := getSize s block
      let s := writeBlock s block blockSize true true
      let s := splitBlock s block asize
      let s := updateNext s block true
      (s, headerToPayload block)

/-- `free(bp)`. -/
def free (s : St) (bp : Nat) : St :=
  if bp = 0 then s
  else
    let block := payloadToHeader bp
    let size := getSize s block
    let prevAlloc := getPrevAlloc s block
    let s := writeBlock s block size false prevAlloc
    let s := addToFree s block
    let (s, block) := coalesceBlock s block
    updateNext s block false

/-- Byte `k` of a word (little-endian). -/
def byteOf (w k : Nat) : Nat := w / 256 ^ k % 256

/-- A word with byte `k` replaced by `v`. -/
def setByte (w k v : Nat) : Nat := w - byteOf w k * 256 ^ k + v * 256 ^ k

/-- The byte at address `a`. -/
def loadByte (s : St) (a : Nat) : Nat := byteOf (s.mem (a - a % 8)) (a % 8)

/-- `memset(p, c, n)`. The store is not bounds-checked: outside the mapped
    arena C faults, where the model goes on writing, so results about a
    finished `memset` are stated for ranges inside the arena only. -/
def memset (s : St) (p c n : Nat) : St :=
  { s with mem := fun a => (List.range 8).foldl (fun w k =>
      if p ≤ a + k ∧ a + k < p + n then setByte w k c else w) (s.mem a) }

/-- `memcpy(dst, src, n)`, not bounds-checked either (see `memset`). -/
def memcpy (s : St) (dst src n : Nat) : St :=
  { s with mem := fun a => (List.range 8).foldl (fun w k =>
      if dst ≤ a + k ∧ a + k < dst + n then setByte w k (loadByte s (src + (a + k - dst)))
      else w) (s.mem a) }

/-- `realloc(ptr, size)`. -/
def realloc (s : St) (ptr size : Nat) : St × Nat :=
  let block := payloadToHeader ptr
  if size = 0 then (free s ptr, 0)
  else if ptr = 0 then malloc s size
  else
    let (s, newptr) := malloc s size
    if newptr = 0 then (s, 0)
    else
      let copysize := getPayloadSize s block
      let copysize := if size < copysize then size else copysize
      let s := memcpy s newptr ptr copysize
      (free s ptr, newptr)

/-- `calloc(elements, size)`: the product is `size_t` and may wrap, which the
    division test detects. -/
def calloc (s : St) (elements size : Nat) : St × Nat :=
  let asize := elements * size % 2 ^ 64
  if elements = 0 then (s, 0)
  else if asize / elements ≠ size then (s, 0)
  else
    let (s, bp) := malloc s asize
    if bp = 0 then (s, 0) else (memset s bp 0 asize, bp)

/-- A fresh memlib arena: 100 MB at a 16-aligned base, holding zeros. -/
def freshArena : St where
  mem := fun _ => 0
  memStartBrk := 2 ^ 35
  memBrk := 2 ^ 35
  memMaxAddr := 2 ^ 35 + 100 * 2 ^ 20
  heapStart := 0
  freeRoot := fun _ => 0

/-! ## The adjusted size -/

/-- For every request up to `2^64 - 24` the adjusted size is the rounded-up
    request plus a header, a multiple of 16 that leaves room for the request. -/
theorem asizeOf_spec {size : Nat} (h : size ≤ 2 ^ 64 - 24) :
    asizeOf size = max (16 * ((size + 8 + 15) / 16)) 16 ∧ asizeOf size % 16 = 0 ∧
      size + 8 ≤ asizeOf size := by
  have h1 : (size + 8) % 2 ^ 64 = size + 8 := Nat.mod_eq_of_lt (by omega)
  have h2 : (size + 8 + 15) % 2 ^ 64 = size + 8 + 15 := Nat.mod_eq_of_lt (by omega)
  simp only [asizeOf, roundUp, wsize, dsize, minBlockSize, h1, max_def]
  split_ifs <;> omega

/-- For the 23 largest requests `size + wsize + 15` wraps past `2^64` and the
    adjusted size collapses to a mini block. -/
theorem asizeOf_of_wrap {size : Nat} (h1 : 2 ^ 64 - 23 ≤ size) (h2 : size < 2 ^ 64) :
    asizeOf size = 16 := by
  have h3 : (size + 8) % 2 ^ 64 = size + 8 - 2 ^ 64 ∨ (size + 8) % 2 ^ 64 = size + 8 := by omega
  simp only [asizeOf, roundUp, wsize, dsize, minBlockSize, max_def]
  split_ifs <;> omega

/-- `calloc` with a nonzero count whose product fits a `size_t` zeroes the
    product's bytes from the payload its `malloc` returns. -/
theorem calloc_eq_memset {s : St} {n m : Nat} (hn : n ≠ 0) (hlt : n * m < 2 ^ 64)
    (hq : (malloc s (n * m)).2 ≠ 0) :
    calloc s n m = (memset (malloc s (n * m)).1 (malloc s (n * m)).2 0 (n * m), (malloc s (n * m)).2) := by
  have hd : n * m / n = m := Nat.mul_div_cancel_left m (Nat.pos_of_ne_zero hn)
  simp only [calloc, hn, Nat.mod_eq_of_lt hlt, hd, hq, ne_eq, not_true_eq_false, if_false]

/-- After `mm_init`, `malloc(2^64 - 1)` returns a non-`NULL` payload of a
    16-byte block, 8 usable bytes; `calloc(1, 2^64 - 1)` gets the same payload
    from its `malloc` and then zeroes `2^64 - 1` bytes from it, far past the
    block and the end of the arena. -/
theorem malloc_calloc_max_size_get_mini_block :
    (mmInit freshArena).2 = true ∧
    (malloc (mmInit freshArena).1 (2 ^ 64 - 1)).2 = 2 ^ 35 + 16 ∧
    getSize (malloc (mmInit freshArena).1 (2 ^ 64 - 1)).1 (2 ^ 35 + 8) = 16 ∧
    calloc (mmInit freshArena).1 1 (2 ^ 64 - 1) =
      (memset (malloc (mmInit freshArena).1 (2 ^ 64 - 1)).1 (2 ^ 35 + 16) 0 (2 ^ 64 - 1), 2 ^ 35 + 16) ∧
    (malloc (mmInit freshArena).1 (2 ^ 64 - 1)).1.memMaxAddr < 2 ^ 35 + 16 + (2 ^ 64 - 1) := by
  have hm : (malloc (mmInit freshArena).1 (2 ^ 64 - 1)).2 = 2 ^ 35 + 16 := by decide
  refine ⟨by decide, hm, by decide, ?_, by decide⟩
  rw [calloc_eq_memset (by decide) (by decide) (by rw [Nat.one_mul, hm]; decide), Nat.one_mul, hm]

/-! ## Reuse before growth -/

theorem sameArena_splitBlock {s : St} {block asize : Nat} :
    SameArena s (splitBlock s block asize) :=
  .ite (SameArena.writeBlock.trans (SameArena.writeBlock.trans sameArena_addToFree)) (.refl _)

/-- **FIT BEFORE GROWTH**: on a heap satisfying the free-list invariant the
    fit search is sound and complete for every `asize`, and a `malloc` for
    which some free block is large enough takes the block `find_fit` chose and
    leaves `mem_brk` where it was: `extend_heap` runs only when no free block
    can hold the adjusted size. -/
theorem findFit_complete_malloc_no_growth {s : St} (hF : InvFree s) :
    (∀ asize, (findFit s asize = 0 ↔
        ∀ x, OnImplicit s x → getAlloc s x = false → getSize s x < asize) ∧
      (findFit s asize ≠ 0 →
        OnFreeList s (findFit s asize) ∧ asize ≤ getSize s (findFit s asize))) ∧
    ∀ size, (∃ x, OnImplicit s x ∧ getAlloc s x = false ∧ asizeOf size ≤ getSize s x) →
      (malloc s size).1.memBrk = s.memBrk ∧
      (size ≠ 0 → (malloc s size).2 = headerToPayload (findFit s (asizeOf size))) := by
  refine ⟨findFit_spec hF, fun size ⟨x, hx, hxf, hxs⟩ => ?_⟩
  have hfit : findFit s (asizeOf size) ≠ 0 := fun h0 =>
    Nat.not_le.mpr ((findFit_spec hF _).1.mp h0 x hx hxf) hxs
  by_cases hsz : size = 0
  · simp [malloc, hx.heapStart_ne_zero, hsz]
  · simp only [malloc, hx.heapStart_ne_zero, hsz, hfit, if_false]
    exact ⟨(sameArena_removeFromFree.trans <| SameArena.writeBlock.trans <|
      sameArena_splitBlock.trans .updateNext).memBrk, fun _ => trivial⟩

/-- After `mm_init` and `malloc(100)` the heap is a 112-byte allocated block
    and a free 3984-byte block, alone in bucket 7. -/
theorem invFree_fresh_malloc : InvFree (malloc (mmInit freshArena).1 100).1 :=
  ⟨[2 ^ 35 + 8, 2 ^ 35 + 120], fun i => if i = 7 then [2 ^ 35 + 120] else [], by decide⟩

theorem malloc_reuses_fit_after_fresh_malloc :
    InvFree (malloc (mmInit freshArena).1 100).1 ∧
    (malloc (malloc (mmInit freshArena).1 100).1 40).1.memBrk =
      (malloc (mmInit freshArena).1 100).1.memBrk :=
  ⟨invFree_fresh_malloc, ((findFit_complete_malloc_no_growth invFree_fresh_malloc).2 40
    ⟨2 ^ 35 + 120, ⟨[2 ^ 35 + 8, 2 ^ 35 + 120], by decide⟩, by decide, by decide⟩).1⟩

/-! ## A reallocation to `2^64 - 1`

    `realloc(p, 2^64 - 1)` gets a 16-byte block from `malloc` (the adjusted
    size wraps) and then copies the whole old payload into it, over the header
    and links of the block that follows. -/

/-- After `mm_init`, `p = malloc(100)` and `realloc(p, 2^64 - 1)`, the walk
    from `heap_start` meets a zero header at `heap_start + 128` short of the
    epilogue. -/
theorem no_walk_after_realloc_max :
    ¬ InvImpl (realloc (malloc (mmInit freshArena).1 100).1
      (malloc (mmInit freshArena).1 100).2 (2 ^ 64 - 1)).1 := by
  rintro ⟨_ | ⟨_, _ | ⟨_, l⟩⟩, h⟩
  · exact absurd h.1 (by decide)
  · exact absurd h.tail.1 (by decide)
  · exact absurd (h.tail.tail.size_pos (by decide)) (by decide)

/-- The implicit-list invariant holds after `mm_init` and after
    `malloc(100)`, and a `realloc` of that payload to `2^64 - 1` breaks it. -/
theorem realloc_max_size_breaks_heap_walk :
    (mmInit freshArena).2 = true ∧ InvImpl (mmInit freshArena).1 ∧
    InvImpl (malloc (mmInit freshArena).1 100).1 ∧
    ¬ InvImpl (realloc (malloc (mmInit freshArena).1 100).1
      (malloc (mmInit freshArena).1 100).2 (2 ^ 64 - 1)).1 :=
  ⟨by decide, ⟨[2 ^ 35 + 8], by decide⟩, invFree_fresh_malloc.invImpl,
    no_walk_after_realloc_max⟩

/-- The free-list invariant holds after `mm_init` and `malloc(100)`; after
    `realloc(p, 2^64 - 1)` bucket 7 still lists the block at
    `heap_start + 128`, whose header the copy zeroed, so its size class is no
    longer 7, and the invariant fails. -/
theorem realloc_max_size_leaves_stale_list_node :
    InvFree (malloc (mmInit freshArena).1 100).1 ∧
    FreeChain (realloc (malloc (mmInit freshArena).1 100).1
        (malloc (mmInit freshArena).1 100).2 (2 ^ 64 - 1)).1 0
      ((realloc (malloc (mmInit freshArena).1 100).1
        (malloc (mmInit freshArena).1 100).2 (2 ^ 64 - 1)).1.freeRoot 7) [2 ^ 35 + 136] ∧
    getSeglistInd (getSize (realloc (malloc (mmInit freshArena).1 100).1
        (malloc (mmInit freshArena).1 100).2 (2 ^ 64 - 1)).1 (2 ^ 35 + 136)) ≠ 7 ∧
    ¬ InvFree (realloc (malloc (mmInit freshArena).1 100).1
      (malloc (mmInit freshArena).1 100).2 (2 ^ 64 - 1)).1 :=
  ⟨invFree_fresh_malloc, by decide, by decide, fun h => no_walk_after_realloc_max h.invImpl⟩

end MmOps
