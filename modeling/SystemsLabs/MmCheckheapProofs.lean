import SystemsLabs.MmOpsProofs

/-! # The heap checker `mm_checkheap`

    The debug-mode checker of `mm.c`: prologue and epilogue, then a walk of
    the implicit list (alignment, bounds, header/footer agreement, no two free
    blocks in a row), then a walk of every segregated list (free, mini bit
    consistent, back pointers, bounds, right bucket), and last the two free
    counts. The diagnostics it prints are left out; each check is the Boolean
    the source computes. -/

namespace MmCheckheap

open MmCodec MmState St MmFreeList MmFindFit MmOps

/-- `check_address_alignment(block)`. -/
def checkAddressAlignment (block : Nat) : Bool := headerToPayload block &&& 0xF = 0

/-- `check_prologue()`. -/
def checkPrologue (s : St) : Bool :=
  getSize s s.memStartBrk = 0 && getAlloc s s.memStartBrk && getPrevAlloc s s.memStartBrk

/-- `check_epilogue()`: the epilogue sits at `mem_heap_hi() - 7`. -/
def checkEpilogue (s : St) : Bool :=
  getSize s (s.memBrk - 1 - 7) = 0 && getAlloc s (s.memBrk - 1 - 7)

/-- `consecutive_free(block)`. -/
def consecutiveFree (s : St) (block : Nat) : Bool := !getAlloc s block && !getPrevAlloc s block

/-- `within_heap_boundaries(block)`. -/
def withinHeapBoundaries (s : St) (block : Nat) : Bool :=
  block < s.memBrk - 1 && block > s.memStartBrk

/-- `check_header_and_footer(block)`: the footer of every free block must
    equal its header. -/
def checkHeaderAndFooter (s : St) (block : Nat) : Bool :=
  if getSize s block < minBlockSize then false
  else if !getAlloc s block && s.mem (headerToFooter s block) ≠ s.mem block then false
  else true

/-- The implicit-list loop of `mm_checkheap`, from `block` on. -/
def checkImplicit (s : St) : Nat → Nat → Bool
  | 0, _ => true
  | fuel + 1, block =>
    if getSize s block > 0 then
      checkAddressAlignment block && withinHeapBoundaries s block &&
        (block = s.heapStart || checkHeaderAndFooter s block) &&
        (block = s.heapStart || !consecutiveFree s block) &&
        checkImplicit s fuel (findNext s block)
    else true

/-- `count_free()`: the free blocks of the implicit list from `block` on. -/
def countFree (s : St) : Nat → Nat → Nat
  | 0, _ => 0
  | fuel + 1, block =>
    if getSize s block > 0 then
      (if !getAlloc s block then 1 else 0) + countFree s fuel (findNext s block)
    else 0

/-- `explicit_list_pointer_consistency(block)`. -/
def explicitListPointerConsistency (s : St) (block : Nat) : Bool :=
  let prev := getPrevFree s block
  if prev = 0 then false else getNextFree s prev = block

/-- The loop of `check_explicit_list(seglist_ind)`, from `block` on. -/
def checkExplicitList (s : St) (seglistInd : Nat) : Nat → Nat → Bool
  | 0, _ => true
  | fuel + 1, block =>
    if block = 0 then true
    else !getAlloc s block &&
      !(getMini s block && !(getSize s block = minBlockSize)) &&
      (block = s.freeRoot seglistInd || explicitListPointerConsistency s block) &&
      withinHeapBoundaries s block &&
      seglistInd = getSeglistInd (getSize s block) &&
      checkExplicitList s seglistInd fuel (getNextFree s block)

/-- The number of nodes of a free list from `block` on. -/
def listCount (s : St) : Nat → Nat → Nat
  | 0, _ => 0
  | fuel + 1, block => if block = 0 then 0 else listCount s fuel (getNextFree s block) + 1

/-- `mm_checkheap(line)`. -/
def mmCheckheap (s : St) : Bool :=
  checkPrologue s && checkEpilogue s && checkImplicit s walkFuel s.heapStart &&
    (List.range seglistLength).all
      (fun i => checkExplicitList s i walkFuel (s.freeRoot i)) &&
    (List.range seglistLength).foldl (fun n i => n + listCount s walkFuel (s.freeRoot i)) 0 =
      countFree s walkFuel s.heapStart

/-- After `mm_init` and `malloc(4072)` the 4096-byte first block is split into
    the allocated 4080 bytes and a free mini block, and `mm_checkheap` rejects
    the heap: `check_header_and_footer` compares the mini block's header with
    its tagged successor word, which differ in the prev-alloc bit. -/
theorem mmCheckheap_rejects_free_mini_block :
    (mmInit freshArena).2 = true ∧ mmCheckheap (mmInit freshArena).1 = true ∧
    getSize (malloc (mmInit freshArena).1 4072).1 (2 ^ 35 + 8 + 4080) = 16 ∧
    getAlloc (malloc (mmInit freshArena).1 4072).1 (2 ^ 35 + 8 + 4080) = false ∧
    mmCheckheap (malloc (mmInit freshArena).1 4072).1 = false := by
  decide

end MmCheckheap
