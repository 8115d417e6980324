import SystemsLabs.MmCodecProofs

/-! # The allocator state and the block accessors of `mm.c`

    The heap is memlib's byte arena `[mem_start_brk, mem_brk)`, grown by
    `mem_sbrk`. Every access `mm.c` makes to it is a 64-bit word at an
    8-aligned address (headers sit at `8 mod 16`), so the arena is a map from
    addresses to words; user payload bytes live inside those words.

    * **`St`** — the arena, memlib's break and limit, `heap_start` and the
      `free_root` array. `NULL` is `0`.
    * the short helpers of `mm.c` (`get_size`, `write_block`, `find_prev`,
      `get_next_free`, `set_prev_free`, ...), each as the source computes it;
    * one lemma per accessor and store: what a store does to every view
      (`getSize_store_of_ne`, ...), so that later files never unfold the
      accessors. -/

namespace MmState

open MmCodec

/-- The allocator's whole state. -/
structure St where
  /-- The word at each 8-aligned address of the arena. -/
  mem : Nat → Nat
  /-- memlib's `mem_start_brk`, that is `mem_heap_lo()`. -/
  memStartBrk : Nat
  /-- memlib's `mem_brk`, one past the last heap byte (`mem_heap_hi() + 1`). -/
  memBrk : Nat
  /-- memlib's `mem_max_addr`, the end of the backing arena. -/
  memMaxAddr : Nat
  /-- `heap_start`. -/
  heapStart : Nat
  /-- `free_root[i]`, read only for `i < seglist_length`. -/
  freeRoot : Nat → Nat

namespace St

/-- A word store. -/
def store (s : St) (a v : Nat) : St := { s with mem := fun x => if x = a then v else s.mem x }

/-- `free_root[i] = block`. -/
def setRoot (s : St) (i block : Nat) : St :=
  { s with freeRoot := fun j => if j = i then block else s.freeRoot j }

variable {s : St} {a v x i j b : Nat}

@[simp] theorem store_mem_self : (s.store a v).mem a = v := by simp [store]

theorem store_mem_of_ne (h : x ≠ a) : (s.store a v).mem x = s.mem x := by simp [store, h]

@[simp] theorem store_memStartBrk : (s.store a v).memStartBrk = s.memStartBrk := rfl
@[simp] theorem store_memBrk : (s.store a v).memBrk = s.memBrk := rfl
@[simp] theorem store_memMaxAddr : (s.store a v).memMaxAddr = s.memMaxAddr := rfl
@[simp] theorem store_heapStart : (s.store a v).heapStart = s.heapStart := rfl
@[simp] theorem store_freeRoot : (s.store a v).freeRoot = s.freeRoot := rfl

@[simp] theorem setRoot_mem : (s.setRoot i b).mem = s.mem := rfl
@[simp] theorem setRoot_memStartBrk : (s.setRoot i b).memStartBrk = s.memStartBrk := rfl
@[simp] theorem setRoot_memBrk : (s.setRoot i b).memBrk = s.memBrk := rfl
@[simp] theorem setRoot_memMaxAddr : (s.setRoot i b).memMaxAddr = s.memMaxAddr := rfl
@[simp] theorem setRoot_heapStart : (s.setRoot i b).heapStart = s.heapStart := rfl

theorem setRoot_freeRoot : (s.setRoot i b).freeRoot j = if j = i then b else s.freeRoot j := rfl

theorem setRoot_store : (s.store a v).setRoot i b = (s.setRoot i b).store a v := rfl

@[simp] theorem store_store : (s.store a v).store a b = s.store a b := by
  cases s; simp only [store, mk.injEq, and_true]; funext x; split_ifs <;> rfl

theorem store_comm {w : Nat} (h : a ≠ b) : (s.store a v).store b w = (s.store b w).store a v := by
  unfold store; congr 1; funext x
  by_cases hxa : x = a <;> by_cases hxb : x = b <;> simp_all

end St

open St

/-! ## memlib -/

/-- Modelled from the spec: `mem_sbrk(incr)` of memlib, which is not under
    src/. "A function that extends the end of a contiguous address range by N
    bytes and returns the old break address, failing when the underlying
    arena is exhausted"; its argument is signed, so a `size_t` of `2^63` or
    more is a negative request and fails. New bytes keep whatever the arena
    held. -/
def memSbrk (s : St) (incr : Nat) : Option (Nat × St) :=
  if incr < 2 ^ 63 ∧ s.memBrk + incr ≤ s.memMaxAddr then
    some (s.memBrk, { s with memBrk := s.memBrk + incr })
  else none

/-! ## Short helpers -/

/-- `get_mini(block)`. -/
def getMini (s : St) (block : Nat) : Bool := extractMini (s.mem block)

/-- `get_size(block)`: a mini block's header may hold a pointer, so its size
    comes from the mini bit. -/
def getSize (s : St) (block : Nat) : Nat :=
  if extractMini (s.mem block) then minBlockSize else extractSize (s.mem block)

/-- `payload_to_header(bp)`: the payload is one word past the header. -/
def payloadToHeader (bp : Nat) : Nat := bp - wsize

/-- `header_to_payload(block)`. -/
def headerToPayload (block : Nat) : Nat := block + wsize

/-- `header_to_footer(block)`: `block->payload + get_size(block) - dsize`. -/
def headerToFooter (s : St) (block : Nat) : Nat := block + wsize + getSize s block - dsize

/-- `footer_to_header(footer)`: `(char *)footer + wsize - size`, whose
    pointer arithmetic wraps modulo `2^64` when the size read is larger. -/
def footerToHeader (s : St) (footer : Nat) : Nat :=
  if extractSize (s.mem footer) ≤ footer + wsize then footer + wsize - extractSize (s.mem footer)
  else footer + wsize + 2 ^ 64 - extractSize (s.mem footer)

/-- `get_payload_size(block)`. -/
def getPayloadSize (s : St) (block : Nat) : Nat := getSize s block - wsize

/-- `get_alloc(block)`. -/
def getAlloc (s : St) (block : Nat) : Bool := extractAlloc (s.mem block)

/-- `get_prev_alloc(block)`. -/
def getPrevAlloc (s : St) (block : Nat) : Bool := extractPrevAlloc (s.mem block)

/-- `set_prev_alloc(block, prev_alloc)`; `~alloc_prev_mask` is a 64-bit word. -/
def setPrevAlloc (s : St) (block : Nat) (prevAlloc : Bool) : St :=
  if prevAlloc then s.store block (s.mem block ||| allocPrevMask)
  else s.store block (s.mem block &&& (2 ^ 64 - 1 - allocPrevMask))

/-- `write_epilogue(block)`. -/
def writeEpilogue (s : St) (block : Nat) : St := s.store block (pack 0 true false)

/-- `write_block(block, size, alloc, prev_alloc)`: a footer only for a free
    block that is not mini. -/
def writeBlock (s : St) (block size : Nat) (alloc prevAlloc : Bool) : St :=
  let s := s.store block (pack size alloc prevAlloc)
  if !alloc && !(size = minBlockSize) then
    s.store (headerToFooter s block) (pack size alloc prevAlloc)
  else s

/-- `write_footer(block)`: copy the header into the footer. -/
def writeFooter (s : St) (block : Nat) : St := s.store (headerToFooter s block) (s.mem block)

/-- `find_next(block)`. -/
def findNext (s : St) (block : Nat) : Nat := block + getSize s block

/-- `find_prev_footer(block)`: the word before the header. -/
def findPrevFooter (block : Nat) : Nat := block - wsize

/-- `find_prev(block)`: a set mini bit in the word before the header is the
    tagged successor of a free mini block, which starts 8 bytes earlier; a
    zero size is the prologue. -/
def findPrev (s : St) (block : Nat) : Nat :=
  let footerp := findPrevFooter block
  if extractMini (s.mem footerp) then footerp - 8
  else if extractSize (s.mem footerp) = 0 then 0
  else footerToHeader s footerp

/-- `get_next_free(block)`: the successor word with its tag bits stripped. -/
def getNextFree (s : St) (block : Nat) : Nat := s.mem (block + 8) &&& linkMask

/-- `get_prev_free(block)`: a mini block keeps its predecessor in the high
    bits of its header. -/
def getPrevFree (s : St) (block : Nat) : Nat :=
  if getMini s block then s.mem block &&& linkMask else s.mem (block + 16)

/-- `set_prev_free(block, prev)`. -/
def setPrevFree (s : St) (block prev : Nat) : St :=
  if getMini s block then s.store block ((s.mem block &&& 0x7) ||| prev)
  else s.store (block + 16) prev

/-- `set_next_free(block, next)`: a mini block's successor is tagged with the
    mini bit. -/
def setNextFree (s : St) (block next : Nat) : St :=
  let s := s.store (block + 8) next
  if getMini s block then s.store (block + 8) (s.mem (block + 8) ||| miniMask) else s

/-- `update_next(block, alloc)`: refresh the next block's prev-alloc bit, and
    the footer of a free block that is not mini. -/
def updateNext (s : St) (block : Nat) (alloc : Bool) : St :=
  let nextBlock := findNext s block
  let s := setPrevAlloc s nextBlock alloc
  if !alloc && !getMini s block then writeFooter s block else s

/-! ## Views of a block and what a store does to them -/

section Views

variable {s s' : St} {x a v : Nat}

theorem getSize_congr (h : s'.mem x = s.mem x) : getSize s' x = getSize s x := by
  simp only [getSize, h]

theorem getAlloc_congr (h : s'.mem x = s.mem x) : getAlloc s' x = getAlloc s x := by
  simp only [getAlloc, h]

theorem getPrevAlloc_congr (h : s'.mem x = s.mem x) : getPrevAlloc s' x = getPrevAlloc s x := by
  simp only [getPrevAlloc, h]

theorem getMini_congr (h : s'.mem x = s.mem x) : getMini s' x = getMini s x := by
  simp only [getMini, h]

theorem getNextFree_congr (h : s'.mem (x + 8) = s.mem (x + 8)) :
    getNextFree s' x = getNextFree s x := by
  simp only [getNextFree, h]

theorem getPrevFree_congr (h0 : s'.mem x = s.mem x) (h16 : s'.mem (x + 16) = s.mem (x + 16)) :
    getPrevFree s' x = getPrevFree s x := by
  simp only [getPrevFree, getMini, h0, h16]

end Views

/-! ## Decoding a packed header -/

section Decode

variable {s : St} {x size : Nat} {alloc prevAlloc : Bool}
  (h : s.mem x = pack size alloc prevAlloc) (hs : size % 16 = 0)
include h hs

theorem getAlloc_of_pack : getAlloc s x = alloc := by
  rw [getAlloc, h, extractAlloc_pack hs]

theorem getPrevAlloc_of_pack : getPrevAlloc s x = prevAlloc := by
  rw [getPrevAlloc, h, extractPrevAlloc_pack hs]

theorem getMini_of_pack : getMini s x = decide (size = 16) := by
  rw [getMini, h, extractMini_pack hs]

theorem getSize_of_pack (hlt : size < 2 ^ 64) : getSize s x = size := by
  rw [getSize, h, extractMini_pack hs, extractSize_pack hs _ _ hlt]
  by_cases h16 : size = 16 <;> simp [h16]

end Decode

/-! ## The flag bits of a header -/

section Flags

variable {s s' : St} {x : Nat}

/-- Headers agreeing in their three flag bits agree on every flag. -/
theorem flags_of_mod8 (h : s'.mem x % 8 = s.mem x % 8) :
    getAlloc s' x = getAlloc s x ∧ getPrevAlloc s' x = getPrevAlloc s x ∧
      getMini s' x = getMini s x := by
  simp only [getAlloc, getPrevAlloc, getMini, extractAlloc_eq, extractPrevAlloc_eq,
    extractMini_eq]
  refine ⟨?_, ?_, ?_⟩ <;> congr 1 <;> apply propext <;> omega

/-- A mini header keeps its size through any rewrite of its high bits. -/
theorem getSize_of_mini (h : s'.mem x % 8 = s.mem x % 8) (hm : getMini s x = true) :
    getSize s' x = 16 := by
  have := (flags_of_mod8 h).2.2
  simp only [getSize, minBlockSize, dsize, wsize]
  rw [show extractMini (s'.mem x) = getMini s' x from rfl, this, hm]; rfl

theorem getPrevAlloc_setPrevAlloc (hlt : s.mem x < 2 ^ 64) (v : Bool) :
    getPrevAlloc (setPrevAlloc s x v) x = v := by
  cases v <;> simp only [setPrevAlloc, getPrevAlloc, store_mem_self, extractPrevAlloc_eq,
    or_allocPrevMask, and_not_allocPrevMask hlt] <;> simp <;> omega

/-- `set_prev_alloc` changes bit 1 of the header and nothing else. -/
theorem setPrevAlloc_mem (hlt : s.mem x < 2 ^ 64) (v : Bool) :
    (setPrevAlloc s x v).mem x = s.mem x - s.mem x / 2 % 2 * 2 + (if v then 2 else 0) := by
  cases v <;> simp only [setPrevAlloc, store_mem_self, or_allocPrevMask, and_not_allocPrevMask hlt,
    if_true, if_false, Bool.false_eq_true] <;> omega

theorem setPrevAlloc_mem_of_ne {a : Nat} (h : a ≠ x) (v : Bool) :
    (setPrevAlloc s x v).mem a = s.mem a := by
  cases v <;> exact store_mem_of_ne h

/-- `set_prev_alloc` is one store. -/
theorem setPrevAlloc_eq (hlt : s.mem x < 2 ^ 64) (v : Bool) :
    setPrevAlloc s x v = s.store x (s.mem x - s.mem x / 2 % 2 * 2 + (if v then 2 else 0)) := by
  rw [← setPrevAlloc_mem hlt v]
  cases v <;> simp [setPrevAlloc]

/-- `set_prev_alloc` keeps the size, the allocated bit and the mini bit. -/
theorem setPrevAlloc_views (hlt : s.mem x < 2 ^ 64) (v : Bool) :
    (setPrevAlloc s x v).mem x < 2 ^ 64 ∧ getSize (setPrevAlloc s x v) x = getSize s x ∧
      getAlloc (setPrevAlloc s x v) x = getAlloc s x ∧ getMini (setPrevAlloc s x v) x = getMini s x := by
  have hb : (setPrevAlloc s x v).mem x < 2 ^ 64 ∧
      (setPrevAlloc s x v).mem x - (setPrevAlloc s x v).mem x % 16 = s.mem x - s.mem x % 16 ∧
      (setPrevAlloc s x v).mem x % 2 = s.mem x % 2 ∧ (setPrevAlloc s x v).mem x / 4 % 2 = s.mem x / 4 % 2 := by
    rw [setPrevAlloc_mem hlt v]; split <;> omega
  refine ⟨hb.1, ?_, ?_, ?_⟩
  · simp only [getSize, extractMini_eq, extractSize_eq hb.1, extractSize_eq hlt, hb.2.1, hb.2.2.2]
  · simp only [getAlloc, extractAlloc_eq, hb.2.2.1]
  · simp only [getMini, extractMini_eq, hb.2.2.2]

theorem setPrevAlloc_freeRoot {v : Bool} :
    (setPrevAlloc s x v).freeRoot = s.freeRoot := by
  unfold setPrevAlloc; split <;> rfl

end Flags

/-! ## Writing a block -/

section WriteBlock

variable {s : St} {x size : Nat} {alloc pa : Bool}

/-- `write_block` on a 16-aligned size: a header, and a footer for a free block that is not mini. -/
theorem writeBlock_eq (hs : size % 16 = 0) (hlt : size < 2 ^ 64) :
    writeBlock s x size alloc pa =
      if alloc = false ∧ size ≠ 16 then
        (s.store x (pack size alloc pa)).store (x + size - 8) (pack size alloc pa)
      else s.store x (pack size alloc pa) := by
  have hsz : getSize (s.store x (pack size alloc pa)) x = size :=
    getSize_of_pack store_mem_self hs hlt
  simp only [writeBlock, headerToFooter, hsz, wsize, dsize, minBlockSize]
  have : x + 8 + size - 2 * 8 = x + size - 8 := by omega
  rw [this]
  cases alloc <;> simp

theorem writeBlock_mem_self (hs : size % 16 = 0) (h16 : 16 ≤ size) (hlt : size < 2 ^ 64) :
    (writeBlock s x size alloc pa).mem x = pack size alloc pa := by
  rw [writeBlock_eq hs hlt]; split <;> simp [store_mem_of_ne (show x ≠ x + size - 8 by omega)]

theorem writeBlock_mem_of_ne (hs : size % 16 = 0) (hlt : size < 2 ^ 64) {a : Nat}
    (ha : a ≠ x) (hf : alloc = false → size ≠ 16 → a ≠ x + size - 8) :
    (writeBlock s x size alloc pa).mem a = s.mem a := by
  rw [writeBlock_eq hs hlt]
  split
  · rename_i h; rw [store_mem_of_ne (hf h.1 h.2), store_mem_of_ne ha]
  · rw [store_mem_of_ne ha]

theorem getPrevAlloc_writeBlock (hs : size % 16 = 0) (h16 : 16 ≤ size) (hlt : size < 2 ^ 64) :
    getPrevAlloc (writeBlock s x size alloc pa) x = pa :=
  getPrevAlloc_of_pack (writeBlock_mem_self hs h16 hlt) hs

@[simp] theorem writeBlock_freeRoot :
    (writeBlock s x size alloc pa).freeRoot = s.freeRoot := by
  unfold writeBlock; split <;> rfl

end WriteBlock

/-! ## The link writers -/

section Links

variable {s : St} {y a n p : Nat}

theorem setNextFree_mem_of_ne (h : a ≠ y + 8) : (setNextFree s y n).mem a = s.mem a := by
  dsimp only [setNextFree]; split <;> simp only [store_mem_of_ne h]

theorem setPrevFree_mem_of_ne (h0 : a ≠ y) (h16 : a ≠ y + 16) :
    (setPrevFree s y p).mem a = s.mem a := by
  unfold setPrevFree; split <;> simp only [store_mem_of_ne h0, store_mem_of_ne h16]

@[simp] theorem setNextFree_freeRoot : (setNextFree s y n).freeRoot = s.freeRoot := by
  dsimp only [setNextFree]; split <;> rfl

@[simp] theorem setPrevFree_freeRoot : (setPrevFree s y p).freeRoot = s.freeRoot := by
  unfold setPrevFree; split <;> rfl

theorem getMini_setNextFree : getMini (setNextFree s y n) y = getMini s y :=
  getMini_congr (setNextFree_mem_of_ne (by omega))

theorem getNextFree_setNextFree_self (hn : n % 8 = 0) (hn' : n < 2 ^ 64) :
    getNextFree (setNextFree s y n) y = n := by
  dsimp only [setNextFree, getNextFree]
  split
  · rw [store_mem_self, store_mem_self, or_miniMask_eq hn, and_linkMask (by omega)]; omega
  · rw [store_mem_self, and_linkMask (by omega)]; omega

/-- A free mini block's successor word keeps its tag. -/
theorem extractMini_setNextFree (hm : getMini s y = true) (hn : n % 8 = 0) :
    extractMini ((setNextFree s y n).mem (y + 8)) = true := by
  have : getMini (s.store (y + 8) n) y = true := by rw [getMini_congr (store_mem_of_ne (by omega))]; exact hm
  simp only [setNextFree, this, if_true, store_mem_self, or_miniMask_eq hn, extractMini_eq]
  simp; omega

theorem getPrevFree_setNextFree_self : getPrevFree (setNextFree s y n) y = getPrevFree s y :=
  getPrevFree_congr (setNextFree_mem_of_ne (by omega)) (setNextFree_mem_of_ne (by omega))

/-- `set_prev_free` keeps a header's three flag bits. -/
theorem setPrevFree_mem_mod8 (hp : p % 8 = 0) : (setPrevFree s y p).mem y % 8 = s.mem y % 8 := by
  unfold setPrevFree
  split
  · rw [store_mem_self, and7_or_eq hp]; omega
  · rw [store_mem_of_ne (by omega)]

theorem getMini_setPrevFree (hp : p % 8 = 0) : getMini (setPrevFree s y p) y = getMini s y :=
  (flags_of_mod8 (setPrevFree_mem_mod8 hp)).2.2

theorem getPrevFree_setPrevFree_self (hp : p % 8 = 0) (hp' : p < 2 ^ 64) :
    getPrevFree (setPrevFree s y p) y = p := by
  have hm := getMini_setPrevFree (s := s) (y := y) hp
  unfold getPrevFree
  rw [hm]
  unfold setPrevFree
  split
  · rw [store_mem_self, and7_or_eq hp, and_linkMask (by omega)]; omega
  · rw [store_mem_self]

theorem getNextFree_setPrevFree_self : getNextFree (setPrevFree s y p) y = getNextFree s y :=
  getNextFree_congr (setPrevFree_mem_of_ne (by omega) (by omega))

/-- `set_next_free` is one store: the tag is decided by the block's own header. -/
theorem setNextFree_eq :
    setNextFree s y n = s.store (y + 8) (if getMini s y then n ||| miniMask else n) := by
  have hm : getMini (s.store (y + 8) n) y = getMini s y := getMini_congr (store_mem_of_ne (by omega))
  dsimp only [setNextFree]
  rw [hm]
  split
  · simp only [store, if_pos rfl]; congr 1; funext x; split <;> rfl
  · rfl

/-- The two link writers touch different words, so their order does not matter. -/
theorem setPrevFree_setNextFree_comm (hp : p % 8 = 0) :
    setNextFree (setPrevFree s y p) y n = setPrevFree (setNextFree s y n) y p := by
  have hm : getMini (setNextFree s y n) y = getMini s y := getMini_setNextFree
  have hb : (setNextFree s y n).mem y = s.mem y := setNextFree_mem_of_ne (by omega)
  rw [setNextFree_eq, getMini_setPrevFree hp]
  conv_rhs => unfold setPrevFree; rw [hm, hb, setNextFree_eq]
  unfold setPrevFree
  split <;> exact store_comm (by omega)

/-- A store to a word the link writer neither reads nor writes commutes with it. -/
theorem setPrevFree_store {w v : Nat} (h0 : w ≠ y) (h16 : w ≠ y + 16) :
    setPrevFree (s.store w v) y p = (setPrevFree s y p).store w v := by
  have hm : getMini (s.store w v) y = getMini s y := getMini_congr (store_mem_of_ne (Ne.symm h0))
  unfold setPrevFree
  rw [hm, store_mem_of_ne (Ne.symm h0)]
  split
  · exact store_comm h0
  · exact store_comm h16

theorem setNextFree_store {w v : Nat} (h0 : w ≠ y) (h8 : w ≠ y + 8) :
    setNextFree (s.store w v) y n = (setNextFree s y n).store w v := by
  rw [setNextFree_eq, setNextFree_eq, getMini_congr (store_mem_of_ne (Ne.symm h0))]
  exact store_comm h8

theorem getNextFree_setPrevAlloc {v : Bool} :
    getNextFree (setPrevAlloc s y v) y = getNextFree s y :=
  getNextFree_congr (setPrevAlloc_mem_of_ne (by omega) v)

/-- The prev-alloc bit sits below the link bits of a mini header. -/
theorem getPrevFree_setPrevAlloc (hlt : s.mem y < 2 ^ 64) (v : Bool) :
    getPrevFree (setPrevAlloc s y v) y = getPrevFree s y := by
  obtain ⟨hw, -, -, hm⟩ := setPrevAlloc_views hlt v
  unfold getPrevFree
  rw [hm]
  split
  · rw [and_linkMask hw, and_linkMask hlt, setPrevAlloc_mem hlt v]; split <;> omega
  · exact setPrevAlloc_mem_of_ne (by omega) v

end Links

/-! ## The codec of a free block, end to end

    A free block is written by `write_block`, then linked by `set_prev_free`
    and `set_next_free`, and later sees its prev-alloc bit refreshed. Over
    all 64-bit link values, neither packing loses a flag, a size bit or a
    pointer bit. -/

/-- The views of a free block `b` of `size` bytes holding the links `p` and `n`. -/
structure FreeLinks (t : St) (b size : Nat) (pa : Bool) (p n : Nat) : Prop where
  alloc : getAlloc t b = false
  prevAlloc : getPrevAlloc t b = pa
  mini : getMini t b = decide (size = 16)
  size : getSize t b = size
  prev : getPrevFree t b = p
  next : getNextFree t b = n

/-- The header codec round-trips, and so do both link layouts: the links
    written in either order read back, the header keeps its flags and size,
    a later `set_prev_alloc` changes only its own bit, a mini block's
    successor word stays tagged and a larger block's footer is untouched. -/
theorem pack_links_roundtrip (s₀ : St) {b size p n : Nat} (a pa x : Bool)
    (hs : size % 16 = 0) (h16 : 16 ≤ size) (hlt : size < 2 ^ 64)
    (hp : p % 8 = 0) (hp' : p < 2 ^ 64) (hn : n % 8 = 0) (hn' : n < 2 ^ 64) :
    (extractSize (pack size a pa) = size ∧ extractAlloc (pack size a pa) = a ∧
      extractPrevAlloc (pack size a pa) = pa ∧ extractMini (pack size a pa) = decide (size = 16) ∧
      ∀ (s : St) y, s.mem y = pack size a pa → getSize s y = size) ∧
    let s := writeBlock s₀ b size false pa
    let t := setNextFree (setPrevFree s b p) b n
    t = setPrevFree (setNextFree s b n) b p ∧ FreeLinks t b size pa p n ∧
      (size = 16 → extractMini (t.mem (b + 8)) = true) ∧
      (size ≠ 16 → t.mem (b + size - 8) = s.mem (b + size - 8)) ∧
      FreeLinks (setPrevAlloc t b x) b size x p n ∧
      ∀ y ≠ b, (setPrevAlloc t b x).mem y = t.mem y := by
  refine ⟨⟨extractSize_pack hs _ _ hlt, extractAlloc_pack hs _ _, extractPrevAlloc_pack hs _ _,
    extractMini_pack hs _ _, fun _ _ h => getSize_of_pack h hs hlt⟩, ?_⟩
  intro s t
  have hh : s.mem b = pack size false pa := writeBlock_mem_self hs h16 hlt
  have hsm : getMini s b = decide (size = 16) := getMini_of_pack hh hs
  have htb : t.mem b = (setPrevFree s b p).mem b := setNextFree_mem_of_ne (by omega)
  have htlt : t.mem b < 2 ^ 64 := by
    rw [htb]; unfold setPrevFree
    split
    · rw [store_mem_self, and7_or_eq hp]; omega
    · rw [store_mem_of_ne (by omega), hh]; exact pack_lt hs _ _ hlt
  -- the header keeps its flag bits, and its size bits unless the block is mini
  have hb8 : t.mem b % 8 = s.mem b % 8 := htb ▸ setPrevFree_mem_mod8 hp
  obtain ⟨ha, hpa, hmi⟩ := flags_of_mod8 hb8
  have hsz : getSize t b = size := by
    by_cases h : size = 16
    · subst h; exact getSize_of_mini hb8 (by rw [hsm]; rfl)
    · have : t.mem b = s.mem b := by
        rw [htb]; unfold setPrevFree; rw [hsm, if_neg (by simpa using h)]
        exact store_mem_of_ne (by omega)
      rw [getSize_congr this, getSize_of_pack hh hs hlt]
  have hL : FreeLinks t b size pa p n :=
    ⟨by rw [ha, getAlloc_of_pack hh hs], by rw [hpa, getPrevAlloc_of_pack hh hs], by rw [hmi, hsm],
      hsz, by rw [getPrevFree_setNextFree_self, getPrevFree_setPrevFree_self hp hp'],
      getNextFree_setNextFree_self hn hn'⟩
  obtain ⟨-, hsz', ha', hm'⟩ := setPrevAlloc_views htlt x
  refine ⟨setPrevFree_setNextFree_comm hp, hL, fun h => ?_, fun h => ?_,
    ⟨by rw [ha', hL.alloc], getPrevAlloc_setPrevAlloc htlt x, by rw [hm', hL.mini],
      by rw [hsz', hsz], by rw [getPrevFree_setPrevAlloc htlt, hL.prev],
      by rw [getNextFree_setPrevAlloc, hL.next]⟩,
    fun y hy => setPrevAlloc_mem_of_ne hy x⟩
  · exact extractMini_setNextFree (by rw [getMini_setPrevFree hp, hsm, h]; rfl) hn
  · rw [setNextFree_mem_of_ne (by omega), setPrevFree_mem_of_ne (by omega) (by omega)]

/-- A mini block at `24`, linked to `8` and to `NULL`, then marked as
    following a free block. -/
theorem pack_links_roundtrip_mini :
    16 % 16 = 0 ∧ 16 ≤ 16 ∧ 16 < 2 ^ 64 ∧ 8 % 8 = 0 ∧ 8 < 2 ^ 64 ∧ 0 % 8 = 0 ∧ 0 < 2 ^ 64 ∧
      FreeLinks (setPrevAlloc (setNextFree (setPrevFree
        (writeBlock ⟨fun _ => 0, 0, 0, 0, 0, fun _ => 0⟩ 24 16 false true) 24 8) 24 0) 24 false)
        24 16 false 8 0 :=
  ⟨by decide, by decide, by decide, by decide, by decide, by decide, by decide,
    (pack_links_roundtrip ⟨fun _ => 0, 0, 0, 0, 0, fun _ => 0⟩ true true false (by decide)
      (by decide) (by decide) (by decide) (by decide) (by decide) (by decide)).2.2.2.2.2.1⟩

/-! ## The writers keep the arena -/

/-- `t` differs from `s` at most in its words and list roots: memlib's arena
    and `heap_start` are as they were. Every writer of `mm.c` but
    `mem_sbrk` and `mm_init` is such a step. -/
structure SameArena (s t : St) : Prop where
  memStartBrk : t.memStartBrk = s.memStartBrk
  memBrk : t.memBrk = s.memBrk
  memMaxAddr : t.memMaxAddr = s.memMaxAddr
  heapStart : t.heapStart = s.heapStart

namespace SameArena

variable {s t u : St} {a v i b : Nat}

theorem refl (s : St) : SameArena s s := ⟨rfl, rfl, rfl, rfl⟩

theorem trans (h : SameArena s t) (h' : SameArena t u) : SameArena s u :=
  ⟨h'.1.trans h.1, h'.2.trans h.2, h'.3.trans h.3, h'.4.trans h.4⟩

theorem store : SameArena s (s.store a v) := ⟨rfl, rfl, rfl, rfl⟩

theorem setRoot : SameArena s (s.setRoot i b) := ⟨rfl, rfl, rfl, rfl⟩

theorem ite {c : Prop} [Decidable c] {t' : St} (h : SameArena s t) (h' : SameArena s t') :
    SameArena s (if c then t else t') := by
  split <;> assumption

theorem setPrevAlloc {x : Nat} {w : Bool} : SameArena s (setPrevAlloc s x w) :=
  ite store store

theorem writeBlock {x size : Nat} {alloc pa : Bool} :
    SameArena s (writeBlock s x size alloc pa) :=
  ite (store.trans store) store

theorem writeFooter {x : Nat} : SameArena s (writeFooter s x) := store

theorem writeEpilogue {x : Nat} : SameArena s (writeEpilogue s x) := store

theorem setPrevFree {x p : Nat} : SameArena s (setPrevFree s x p) := ite store store

theorem setNextFree {x n : Nat} : SameArena s (setNextFree s x n) :=
  ite (store.trans store) store

theorem updateNext {x : Nat} {w : Bool} : SameArena s (updateNext s x w) :=
  ite (setPrevAlloc.trans writeFooter) setPrevAlloc

end SameArena

end MmState
