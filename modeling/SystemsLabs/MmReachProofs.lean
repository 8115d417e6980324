import SystemsLabs.MmReallocProofs

/-! # Runs of the allocator

    A client's runs: `mm_init` on a fresh arena, then `malloc`, `free`,
    `realloc` and `calloc` within their contract (`Reach`). The results:

    * **`reach_heapInv`** — every state reached within the contract keeps
      the working invariant, by induction over the run from the step lemmas
      of each call;
    * **`tiling_unique`** — a coalesced heap is determined by its allocated
      blocks, so **`free_malloc_restores`** — `free(malloc(size))` without
      growth gives back the heap it started from, bucket by bucket;
    * **`failed_call_keeps_state`** — in every state after `mm_init`, a
      `NULL` from `malloc`, `calloc` or `realloc` leaves every word, root and
      the break as they were, unless C faults in `extend_heap` instead;
    * **`calls_keep_live_blocks`** — every call keeps each other live block,
      its size and its payload bytes (`Keeps`), and returns a payload apart
      from every other block and from the sentinels (`Apart`);
    * **`malloc_free_byte_accounting`** — `malloc` takes exactly `asize`
      bytes, splitting the chosen block exactly when the rest can be a block,
      and `free` gives back its block's size;
    * past the contract, after `realloc(p, 2^64 - 1)`, a stale bucket entry
      breaks the last three: `malloc` hands out a live payload again
      (**`malloc_returns_live_payload_past_contract`**). -/

namespace MmLayout

open MmCodec MmState St

/-! ## A coalesced heap is determined by its allocated blocks -/

section Tiling

variable {a e : Nat} {b b' : Blk} {r r' : List Blk}

/-- The first block of a contiguous list is its only block at the start. -/
theorem Contig.eq_head (h : Contig a (b :: r) e) (hpos : 0 < b.size) {c : Blk} (hc : c ∈ b :: r)
    (hca : c.addr = a) : c = b := by
  rcases List.mem_cons.mp hc with rfl | hc
  · rfl
  · have := (Contig.bounds h.2).2 c hc; omega

/-- Two coalesced tilings of one span, holding the same allocated blocks,
    whose first blocks are both free: the second first block is no longer
    than the first, since an allocated block follows the first. -/
theorem free_head_le {pa : Bool} (h : Contig a (b :: r) e) (h' : Contig a (b' :: r') e)
    (hc : CoalescedFrom pa (b :: r)) (hbf : b.alloc = false) (hbf' : b'.alloc = false)
    (hpos : ∀ c ∈ r, 0 < c.size) (hm : ∀ c, c.alloc = true → c ∈ b :: r → c ∈ b' :: r') :
    b'.size ≤ b.size := by
  by_contra hlt
  have hb' := (Contig.bounds h'.2).1
  cases r with
  | nil => have : a + b.size = e := h.2; omega
  | cons c r =>
    obtain ⟨hca, hr⟩ := h.2
    have hcal : c.alloc = true := by
      have := (coalescedFrom_cons.mp (coalescedFrom_cons.mp hc).2).1
      rw [hbf] at this; cases hcv : c.alloc
      · exact absurd (this hcv) (by decide)
      · rfl
    rcases List.mem_cons.mp (hm c hcal (by simp)) with rfl | hc'
    · rw [hbf'] at hcal; exact nomatch hcal
    · have := (Contig.bounds h'.2).2 c hc'; have := h.1; have := h'.1; omega

/-- **UNIQUE TILING**: two coalesced contiguous tilings of one span by blocks
    of positive size that hold the same allocated blocks are equal. -/
theorem tiling_unique : ∀ {a e : Nat} {pa : Bool} {bs bs' : List Blk}, Contig a bs e → Contig a bs' e →
    CoalescedFrom pa bs → CoalescedFrom pa bs' → (∀ b ∈ bs, 0 < b.size) → (∀ b ∈ bs', 0 < b.size) →
    (∀ c, c.alloc = true → (c ∈ bs ↔ c ∈ bs')) → bs = bs'
  | _, _, _, [], [], _, _, _, _, _, _, _ => rfl
  | _, _, _, [], b' :: _, h, h', _, _, _, hp', _ => by
    have := (Contig.bounds h'.2).1; have := hp' b' (by simp); have : _ = _ := h; have := h'.1; omega
  | _, _, _, b :: _, [], h, h', _, _, hp, _, _ => by
    have := (Contig.bounds h.2).1; have := hp b (by simp); have : _ = _ := h'; have := h.1; omega
  | a, e, pa, b :: r, b' :: r', h, h', hc, hc', hp, hp', hm => by
    have hpb := hp b (by simp); have hpb' := hp' b' (by simp)
    have hbb : b = b' := by
      cases hba : b.alloc
      · cases hba' : b'.alloc
        · have h1 := free_head_le h h' hc hba hba' (fun c hc => hp c (.tail _ hc))
            fun c hca hc => (hm c hca).mp hc
          have h2 := free_head_le h' h hc' hba' hba (fun c hc => hp' c (.tail _ hc))
            fun c hca hc => (hm c hca).mpr hc
          cases b; cases b'; simp only at hba hba' h1 h2 ⊢
          obtain ⟨rfl, -⟩ := h; obtain ⟨rfl, -⟩ := h'; subst hba hba'; congr; omega
        · exact (h.eq_head hpb ((hm b' hba').mpr (by simp)) h'.1).symm
      · exact h'.eq_head hpb' ((hm b hba).mp (by simp)) h.1
    subst hbb
    have notb : ∀ {c l}, Contig (a + b.size) l e → c ∈ l → c ≠ b := fun hl hc e' => by
      have := (Contig.bounds hl).2 _ hc; rw [e'] at this; have := h.1; omega
    congr 1
    exact tiling_unique h.2 h'.2 (coalescedFrom_cons.mp hc).2 (coalescedFrom_cons.mp hc').2
      (fun c hc => hp c (.tail _ hc)) (fun c hc => hp' c (.tail _ hc)) fun c hca =>
        ⟨fun hcr => ((List.mem_cons.mp ((hm c hca).mp (.tail _ hcr))).resolve_left (notb h.2 hcr)),
          fun hcr => ((List.mem_cons.mp ((hm c hca).mpr (.tail _ hcr))).resolve_left (notb h'.2 hcr))⟩

/-- Two heaps with one arena and the same block list: each bucket holds the
    same blocks, and each header the same size and bits. -/
theorem HeapInv.same_blocks {s t : St} {bs : List Blk} {fl fl' : Nat → List Nat} (hI : HeapInv s bs fl)
    (hI' : HeapInv t bs fl') :
    (∀ i < seglistLength, ∀ x, x ∈ fl' i ↔ x ∈ fl i) ∧
      ∀ b ∈ bs, getSize t b.addr = getSize s b.addr ∧ getAlloc t b.addr = getAlloc s b.addr ∧
        getPrevAlloc t b.addr = getPrevAlloc s b.addr := by
  refine ⟨fun i hi x => ⟨fun hx => ?_, fun hx => ?_⟩, fun b hb => ?_⟩
  · obtain ⟨b, hb, rfl, hbf, rfl⟩ := hI'.couple.mem i hi x hx; exact hI.couple.complete b hb hbf
  · obtain ⟨b, hb, rfl, hbf, rfl⟩ := hI.couple.mem i hi x hx; exact hI'.couple.complete b hb hbf
  · obtain ⟨p, hp⟩ := @mem_withPrev_of_mem b true bs hb
    exact ⟨(hI'.shape.blocks b hb).size.trans (hI.shape.blocks b hb).size.symm,
      (hI'.shape.blocks b hb).alloc.trans (hI.shape.blocks b hb).alloc.symm,
      (hI'.prev.bits _ hp (by simp)).trans (hI.prev.bits _ hp (by simp)).symm⟩

/-- The headers of one memory spell out at most one tiling: two block lists
    that tile one span, every block described by its header and at least 16
    bytes long, are equal. -/
theorem Contig.eq_of_headers {s : St} : ∀ {a e : Nat} {bs bs' : List Blk}, Contig a bs e → Contig a bs' e →
    (∀ b ∈ bs, BlockOK s b ∧ 16 ≤ b.size) → (∀ b ∈ bs', BlockOK s b ∧ 16 ≤ b.size) → bs = bs'
  | _, _, [], [], _, _, _, _ => rfl
  | _, _, [], b' :: _, h, h', _, hb' => by
    have := (hb' b' (by simp)).2; have := (Contig.bounds h'.2).1; have : _ = _ := h; have := h'.1; omega
  | _, _, b :: _, [], h, h', hb, _ => by
    have := (hb b (by simp)).2; have := (Contig.bounds h.2).1; have : _ = _ := h'; have := h.1; omega
  | _, _, b :: r, b' :: r', h, h', hb, hb' => by
    have hbb : b = b' := by
      have hA : b.addr = b'.addr := h.1.trans h'.1.symm
      have hs := (hb b (by simp)).1.size; have hs' := (hb' b' (by simp)).1.size
      have ha := (hb b (by simp)).1.alloc; have ha' := (hb' b' (by simp)).1.alloc
      cases b; cases b'; simp only at hA hs hs' ha ha'; subst hA hs hs' ha ha'; rfl
    subst hbb
    exact congrArg _ (Contig.eq_of_headers h.2 h'.2 (fun c hc => hb c (.tail _ hc)) fun c hc => hb' c (.tail _ hc))

/-- A heap has one block list: the one its headers spell out. -/
theorem Shape.blocks_eq {s : St} {bs bs' : List Blk} (hS : Shape s bs) (hS' : Shape s bs') : bs = bs' :=
  Contig.eq_of_headers hS.contig hS'.contig (fun b hb => ⟨hS.blocks b hb, hS.size_ge b hb⟩)
    fun b hb => ⟨hS'.blocks b hb, hS'.size_ge b hb⟩

/-- Two blocks of a heap are one or do not overlap. -/
theorem Shape.disjoint {s : St} {bs : List Blk} (hS : Shape s bs) {b c : Blk} (hb : b ∈ bs) (hc : c ∈ bs)
    (hne : c ≠ b) : c.addr + c.size ≤ b.addr ∨ b.addr + b.size ≤ c.addr := by
  by_contra h
  have := hS.size_ge b hb; have := hS.size_ge c hc
  rcases le_total b.addr c.addr with hle | hle
  · exact hne (hS.unique hc hb (w := c.addr) ⟨le_rfl, by omega⟩ ⟨hle, by omega⟩)
  · exact hne (hS.unique hc hb (w := b.addr) ⟨hle, by omega⟩ ⟨le_rfl, by omega⟩)

end Tiling

end MmLayout

namespace MmOps

open MmCodec MmState St MmLayout MmFreeList MmFindFit

/-! ## Reachable states -/

/-- `p` is a live payload of `s`: that of an allocated block of its heap. -/
def Live (s : St) (p : Nat) : Prop :=
  ∃ bs fl, HeapInv s bs fl ∧ ∃ c ∈ bs, c.alloc = true ∧ p = c.addr + 8

/-- The states a client reaches from a fresh arena through a successful
    `mm_init` and then any `malloc`, and `free`, `realloc` and `calloc` that
    keep to the contract: only live payloads or `NULL` are passed back, and
    the sizes `realloc` copies and `calloc` zeroes are at most `2^64 - 24`. -/
inductive Reach : St → Prop
  | init {s : St} : Fresh s → (mmInit s).2 = true → Reach (mmInit s).1
  | malloc {s : St} (size : Nat) : Reach s → Reach (MmOps.malloc s size).1
  | free {s : St} {p : Nat} : Reach s → p = 0 ∨ Live s p → Reach (MmOps.free s p)
  | realloc {s : St} {p size : Nat} : Reach s → p = 0 ∨ Live s p → size ≤ 2 ^ 64 - 24 →
      Reach (MmOps.realloc s p size).1
  | calloc {s : St} {n m : Nat} : Reach s → n * m % 2 ^ 64 ≤ 2 ^ 64 - 24 → Reach (MmOps.calloc s n m).1

section Steps

variable {s : St} {bs : List Blk} {fl : Nat → List Nat}

theorem heapInv_malloc (hI : HeapInv s bs fl) (size : Nat) :
    ∃ bs' fl', HeapInv (malloc s size).1 bs' fl' := by
  by_cases h0 : size = 0
  · have hst : s.heapStart ≠ 0 := by rw [hI.shape.start]; have := hI.shape.base_pos; omega
    exact ⟨bs, fl, by simpa [malloc, h0, hst] using hI⟩
  · rcases malloc_spec hI h0 with ⟨hm, -⟩ | ⟨bs', B, n, -, -, hA⟩
    · exact ⟨bs, fl, by rw [hm]; exact hI⟩
    · obtain ⟨fl', h'⟩ := hA.inv; exact ⟨bs', fl', h'⟩

theorem heapInv_free {p : Nat} (hI : HeapInv s bs fl) (hp : p = 0 ∨ Live s p) :
    ∃ bs' fl', HeapInv (free s p) bs' fl' := by
  rcases hp with rfl | ⟨bs₀, fl₀, hI₀, c, hc, hca, rfl⟩
  · exact ⟨bs, fl, by simpa [free] using hI⟩
  · obtain ⟨bs', fl', h', -⟩ := free_spec hI₀ hc hca; exact ⟨bs', fl', h'⟩

theorem heapInv_realloc {p size : Nat} (hI : HeapInv s bs fl) (hp : p = 0 ∨ Live s p)
    (hle : size ≤ 2 ^ 64 - 24) : ∃ bs' fl', HeapInv (realloc s p size).1 bs' fl' := by
  by_cases h0 : size = 0
  · simpa [realloc, h0] using heapInv_free hI hp
  rcases hp with rfl | ⟨bs₀, fl₀, hI₀, c, hc, hca, rfl⟩
  · simpa [realloc, h0] using heapInv_malloc hI size
  by_cases hq : (realloc s (c.addr + 8) size).2 = 0
  · exact ⟨bs₀, fl₀, by rw [realloc_null hI₀ (by omega) h0 hq]; exact hI₀⟩
  · obtain ⟨bs', fl', -, h', -⟩ := realloc_copies hI₀ hc hca (by omega) hle hq
    exact ⟨bs', fl', h'⟩

theorem heapInv_calloc {n m : Nat} (hI : HeapInv s bs fl) (hle : n * m % 2 ^ 64 ≤ 2 ^ 64 - 24) :
    ∃ bs' fl', HeapInv (calloc s n m).1 bs' fl' := by
  rcases calloc_spec hI n m hle with ⟨-, h⟩ | ⟨bs', B, k, -, -, hA⟩
  · exact ⟨bs, fl, by rw [h]; exact hI⟩
  · obtain ⟨fl', h'⟩ := hA.inv; exact ⟨bs', fl', h'⟩

/-- **REACHABLE HEAPS**: every state a client reaches keeps the working
    invariant. -/
theorem reach_heapInv {s : St} (h : Reach s) : ∃ bs fl, HeapInv s bs fl := by
  induction h with
  | init hF hok => exact mmInit_spec hF hok
  | malloc size _ ih => obtain ⟨bs, fl, hI⟩ := ih; exact heapInv_malloc hI size
  | free _ hp ih => obtain ⟨bs, fl, hI⟩ := ih; exact heapInv_free hI hp
  | realloc _ hp hle ih => obtain ⟨bs, fl, hI⟩ := ih; exact heapInv_realloc hI hp hle
  | calloc _ hle ih => obtain ⟨bs, fl, hI⟩ := ih; exact heapInv_calloc hI hle

end Steps

section RoundTrip

variable {s : St} {bs : List Blk} {fl : Nat → List Nat} {size : Nat}
/-- **FREE UNDOES MALLOC**: on the working invariant, which every state
    reached within the size contract keeps (`reach_heapInv`), when `find_fit`
    finds a block for a nonzero request, `free(malloc(size))` leaves the same
    block list, that is the same headers with their sizes and both bits, and
    the same break, and every bucket holds the same blocks; only their order
    within a bucket may differ. -/
theorem free_malloc_restores (hI : HeapInv s bs fl) (h0 : 0 < size)
    (hfit : findFit s (asizeOf size) ≠ 0) :
    ∃ fl', HeapInv (free (malloc s size).1 (malloc s size).2) bs fl' ∧
      (free (malloc s size).1 (malloc s size).2).memBrk = s.memBrk ∧
      (∀ i < seglistLength, ∀ x, x ∈ fl' i ↔ x ∈ fl i) ∧
      ∀ b ∈ bs, getSize (free (malloc s size).1 (malloc s size).2) b.addr = getSize s b.addr ∧
        getAlloc (free (malloc s size).1 (malloc s size).2) b.addr = getAlloc s b.addr ∧
        getPrevAlloc (free (malloc s size).1 (malloc s size).2) b.addr = getPrevAlloc s b.addr := by
  rcases malloc_spec hI (show size ≠ 0 by omega) with ⟨-, hf, -⟩ | ⟨bs₁, B, n, hq, hn, hA⟩
  · exact absurd hf hfit
  obtain rfl : n = 0 := by rcases hn with ⟨-, h⟩ | ⟨h, -⟩; exacts [h, absurd h hfit]
  obtain ⟨fl₁, hI₁⟩ := hA.inv
  rw [hq]
  obtain ⟨bs₂, fl₂, hI₂, har₂, -, hlive₂, -⟩ := free_spec hI₁ hA.mem hA.alloc
  have har := hA.arena.trans har₂
  have hbs : bs₂ = bs := by
    refine tiling_unique (a := s.heapStart) (e := s.memBrk - 8) ?_ hI.shape.contig hI₂.coalesced hI.coalesced
      (fun b hb => by have := hI₂.shape.size_ge b hb; omega)
      (fun b hb => by have := hI.shape.size_ge b hb; omega) fun c hca => ?_
    · have := hI₂.shape.contig; rwa [har.heapStart, har.memBrk] at this
    · constructor
      · intro hc
        obtain ⟨hc₁, -, hcB⟩ := (hlive₂ c).mp ⟨hc, hca⟩
        rcases (hA.live c).mp ⟨hc₁, hca⟩ with h | rfl
        · exact h.1
        · exact absurd rfl hcB
      · intro hc
        exact ((hlive₂ c).mpr ⟨((hA.live c).mpr (.inl ⟨hc, hca⟩)).1, hca, hA.fresh c hc hca⟩).1
  subst hbs
  exact ⟨fl₂, hI₂, har.memBrk, HeapInv.same_blocks hI hI₂⟩

theorem free_malloc_restores_after_init :
    ∃ bs fl, HeapInv (mmInit freshArena).1 bs fl ∧ 0 < 100 ∧ findFit (mmInit freshArena).1 (asizeOf 100) ≠ 0 ∧
      ∃ fl', HeapInv (free (malloc (mmInit freshArena).1 100).1 (malloc (mmInit freshArena).1 100).2) bs fl' ∧
        (free (malloc (mmInit freshArena).1 100).1 (malloc (mmInit freshArena).1 100).2).memBrk =
          (mmInit freshArena).1.memBrk := by
  obtain ⟨bs, fl, hI⟩ := mmInit_spec fresh_freshArena (by decide)
  have hf : findFit (mmInit freshArena).1 (asizeOf 100) ≠ 0 := by decide
  obtain ⟨fl', h, hb, -⟩ := free_malloc_restores hI (by decide) hf
  exact ⟨bs, fl, hI, by decide, hf, fl', h, hb⟩

end RoundTrip

section Failure

variable {s : St} {size : Nat}

/-- `coalesce_block(block)` faults in C: `block` is `NULL`, or its prev-alloc
    bit is clear and `find_prev` gives `NULL` (a zero footer, a footer size
    equal to its address plus 8, or a mini tag at address 8), so that
    `get_size(block_prev)` reads address 0; when the footer itself lies below
    address 8, C has faulted reading it. The model reads word 0 and hands back
    block 0. -/
def CoalesceFaults (s : St) (block : Nat) : Prop :=
  block = 0 ∨ getPrevAlloc s block = false ∧ findPrev s block = 0

/-- `malloc(size)` finds no block, grows the heap, and faults in the
    `coalesce_block` that ends `extend_heap`. -/
def GrowFaults (s : St) (size : Nat) : Prop :=
  findFit s (asizeOf size) = 0 ∧
    ∃ t b, extendHeap s (max (asizeOf size) chunksize) = coalesceBlock t b ∧ CoalesceFaults t b

/-- `coalesce_block` hands back `NULL` only where C faults. -/
theorem coalesceBlock_snd_eq_zero {t : St} {b : Nat} (h : (coalesceBlock t b).2 = 0) :
    CoalesceFaults t b := by
  simp only [coalesceBlock] at h
  split_ifs at h with h1 h2 h3
  · exact .inr ⟨by simp at h1; exact h1.2, h⟩
  · exact .inl h
  · exact .inr ⟨by simpa using h3, h⟩
  · exact .inl h

/-- `extend_heap` hands back `NULL` when `mem_sbrk` refuses, with nothing
    written, or from a faulting `coalesce_block`. -/
theorem extendHeap_snd_eq_zero {n : Nat} (h : (extendHeap s n).2 = 0) :
    memSbrk s (roundUp n dsize) = none ∧ extendHeap s n = (s, 0) ∨
      ∃ t b, extendHeap s n = coalesceBlock t b ∧ CoalesceFaults t b := by
  cases hm : memSbrk s (roundUp n dsize) with
  | none => exact .inl ⟨rfl, by simp only [extendHeap, hm]⟩
  | some r =>
    obtain ⟨bp, t⟩ := r
    simp only [extendHeap, hm] at h ⊢
    exact .inr ⟨_, _, rfl, coalesceBlock_snd_eq_zero h⟩

/-- After `mm_init`, `malloc` hands back `NULL` with nothing changed, for a
    zero request or when no block fits and `mem_sbrk` refuses, or it faults
    growing the heap. -/
theorem malloc_null_or_faults (hs : s.heapStart ≠ 0) (h : (malloc s size).2 = 0) :
    (malloc s size).1 = s ∧ (size = 0 ∨ findFit s (asizeOf size) = 0 ∧
      memSbrk s (max (asizeOf size) chunksize) = none) ∨ 0 < size ∧ GrowFaults s size := by
  by_cases h0 : size = 0
  · exact .inl ⟨by simp [malloc, hs, h0], .inl h0⟩
  simp only [malloc, hs, h0, if_false] at h ⊢
  by_cases hf : findFit s (asizeOf size) = 0
  · rw [if_pos hf] at h ⊢
    generalize hE : extendHeap s (max (asizeOf size) chunksize) = r at h ⊢
    obtain ⟨t, b⟩ := r
    by_cases hb : b = 0
    · subst hb
      obtain ⟨hd, -, hlt⟩ := asizeOf_dvd size
      rcases extendHeap_snd_eq_zero (congrArg Prod.snd hE) with ⟨hno, he⟩ | ⟨t', b', he, hc⟩
      · rw [roundUp_of_dvd (by simp only [max_def, chunksize]; split <;> omega)
          (by simp only [max_def, chunksize]; split <;> omega)] at hno
        rw [hE] at he
        exact .inl ⟨congrArg Prod.fst he, .inr ⟨hf, hno⟩⟩
      · exact .inr ⟨Nat.pos_of_ne_zero h0, hf, t', b', he, hc⟩
    · simp only [hb, if_false, headerToPayload, wsize] at h; omega
  · rw [if_neg hf] at h; simp only [hf, if_false, headerToPayload, wsize] at h; omega

/-- `calloc`'s division test: the product of a nonzero count overflows
    exactly when dividing the wrapped product does not give the size back. -/
theorem calloc_overflow_iff {n m : Nat} (hn : n ≠ 0) : n * m % 2 ^ 64 / n ≠ m ↔ 2 ^ 64 ≤ n * m := by
  constructor
  · intro h; by_contra hlt
    exact h (by rw [Nat.mod_eq_of_lt (by omega), Nat.mul_div_cancel_left _ (Nat.pos_of_ne_zero hn)])
  · intro h he
    have := Nat.mod_lt (n * m) (show 0 < 2 ^ 64 by decide)
    have := Nat.div_mul_le_self (n * m % 2 ^ 64) n
    rw [he, Nat.mul_comm] at this
    omega

/-- After `mm_init`, `calloc` hands back `NULL` with nothing changed, for no
    elements, an overflowing product or a failing `malloc`, or it faults in
    `malloc` growing the heap. -/
theorem calloc_null_or_faults (hs : s.heapStart ≠ 0) {n m : Nat} (h : (calloc s n m).2 = 0) :
    (calloc s n m).1 = s ∧ (n = 0 ∨ 2 ^ 64 ≤ n * m ∨ (malloc s (n * m)).2 = 0) ∨
      0 < n * m ∧ GrowFaults s (n * m) := by
  by_cases hn : n = 0
  · exact .inl ⟨by simp [calloc, hn], .inl hn⟩
  by_cases ho : 2 ^ 64 ≤ n * m
  · have hd := (calloc_overflow_iff hn).mpr ho
    exact .inl ⟨by simp only [calloc, hn, hd, if_false, ne_eq, not_false_eq_true, if_true], .inr (.inl ho)⟩
  have hd : ¬ n * m % 2 ^ 64 / n ≠ m := fun e => ho ((calloc_overflow_iff hn).mp e)
  rw [Nat.mod_eq_of_lt (by omega)] at hd
  simp only [calloc, hn, hd, Nat.mod_eq_of_lt (show n * m < 2 ^ 64 by omega), if_false] at h ⊢
  by_cases hq : (malloc s (n * m)).2 = 0
  · rcases malloc_null_or_faults hs hq with ⟨he, -⟩ | hg
    · exact .inl ⟨by simp only [hq, if_true]; exact he, .inr (.inr hq)⟩
    · exact .inr hg
  · simp only [hq, if_false] at h

/-- After `mm_init`, `realloc` of a non-`NULL` pointer to a nonzero size hands
    back `NULL` with nothing changed when its `malloc` does, or it faults in
    that `malloc`. -/
theorem realloc_null_or_faults (hs : s.heapStart ≠ 0) {p : Nat} (hp : p ≠ 0) (h0 : 0 < size)
    (h : (realloc s p size).2 = 0) :
    (realloc s p size).1 = s ∧ (malloc s size).2 = 0 ∨ 0 < size ∧ GrowFaults s size := by
  simp only [realloc, Nat.pos_iff_ne_zero.mp h0, hp, if_false] at h ⊢
  by_cases hq : (malloc s size).2 = 0
  · rcases malloc_null_or_faults hs hq with ⟨he, -⟩ | hg
    · exact .inl ⟨by simp only [hq, if_true]; exact he, hq⟩
    · exact .inr hg
  · simp only [hq, if_false] at h

/-- **FAILURE LEAVES THE STATE**: in every state after `mm_init`, a `NULL` from
    `malloc` (for a zero request, or when no block fits and `mem_sbrk`
    refuses), from `calloc` (no elements, an overflowing product, or a `NULL`
    from its `malloc`) and from `realloc` of a non-`NULL` pointer to a nonzero
    size (a `NULL` from its `malloc`) leaves every word, the roots and the
    break as they were. The one other way the model hands back `NULL` is
    where C faults instead of returning: `extend_heap`'s `coalesce_block`
    dereferencing `NULL` (`GrowFaults`). -/
theorem failed_call_keeps_state (hs : s.heapStart ≠ 0) :
    (∀ size, (malloc s size).2 = 0 → (malloc s size).1 = s ∧ (size = 0 ∨
        findFit s (asizeOf size) = 0 ∧ memSbrk s (max (asizeOf size) chunksize) = none) ∨
      0 < size ∧ GrowFaults s size) ∧
    (∀ n m, (calloc s n m).2 = 0 → (calloc s n m).1 = s ∧
        (n = 0 ∨ 2 ^ 64 ≤ n * m ∨ (malloc s (n * m)).2 = 0) ∨ 0 < n * m ∧ GrowFaults s (n * m)) ∧
    ∀ p size, p ≠ 0 → 0 < size → (realloc s p size).2 = 0 →
      (realloc s p size).1 = s ∧ (malloc s size).2 = 0 ∨ 0 < size ∧ GrowFaults s size :=
  ⟨fun _ h => malloc_null_or_faults hs h, fun _ _ h => calloc_null_or_faults hs h,
    fun _ _ hp h0 h => realloc_null_or_faults hs hp h0 h⟩

/-- After `mm_init`, `malloc(2^62)` finds no block and `mem_sbrk` refuses the
    growth: the call returns `NULL`. -/
theorem failed_call_keeps_state_on_sbrk_failure :
    (mmInit freshArena).1.heapStart ≠ 0 ∧ (malloc (mmInit freshArena).1 (2 ^ 62)).2 = 0 ∧
      ((malloc (mmInit freshArena).1 (2 ^ 62)).1 = (mmInit freshArena).1 ∧ (2 ^ 62 = 0 ∨
          findFit (mmInit freshArena).1 (asizeOf (2 ^ 62)) = 0 ∧
            memSbrk (mmInit freshArena).1 (max (asizeOf (2 ^ 62)) chunksize) = none) ∨
        0 < 2 ^ 62 ∧ GrowFaults (mmInit freshArena).1 (2 ^ 62)) :=
  have hs : (mmInit freshArena).1.heapStart ≠ 0 := by decide
  have hq : (malloc (mmInit freshArena).1 (2 ^ 62)).2 = 0 := by decide
  ⟨hs, hq, (failed_call_keeps_state hs).1 _ hq⟩

end Failure

/-! ## What a call does to the other live blocks -/

section LiveBlocks

variable {s : St} {bs : List Blk} {fl : Nat → List Nat} {c : Blk}

/-- The call from `s` to `t` keeps the allocated block `c`: it is still a
    block of the heap of `t`, with its size and allocated bit, and every byte
    of its payload is as it was. -/
def Keeps (s t : St) (c : Blk) : Prop :=
  (∃ bs fl, HeapInv t bs fl ∧ c ∈ bs) ∧
    ∀ i < c.size - 8, loadByte t (c.addr + 8 + i) = loadByte s (c.addr + 8 + i)

/-- `q`, returned into `t`, is `NULL` or the payload of an allocated block
    between the prologue and the epilogue that meets no other block: it holds
    no other payload and no header, footer or link word. -/
def Apart (t : St) (q : Nat) : Prop :=
  q = 0 ∨ ∃ bs fl B, HeapInv t bs fl ∧ B ∈ bs ∧ B.alloc = true ∧ q = B.addr + 8 ∧
    t.heapStart ≤ B.addr ∧ B.addr + B.size ≤ t.memBrk - 8 ∧
    ∀ d ∈ bs, d ≠ B → d.addr + d.size ≤ B.addr ∨ B.addr + B.size ≤ d.addr

theorem keeps_self (hI : HeapInv s bs fl) (hc : c ∈ bs) : Keeps s s c := ⟨⟨bs, fl, hI, hc⟩, fun _ _ => rfl⟩

/-- A block of the new heap whose payload words are untouched keeps its bytes. -/
theorem keeps_of_frame {t : St} {bs' : List Blk} {fl' : Nat → List Nat} (hI' : HeapInv t bs' fl')
    (hc : c ∈ bs') (hw : ∀ x, c.addr + 8 ≤ x → x < c.addr + c.size → t.mem x = s.mem x) : Keeps s t c := by
  refine ⟨⟨bs', fl', hI', hc⟩, fun i hi => loadByte_congr (hw _ ?_ ?_)⟩ <;>
    have := (hI'.shape.ptr hc).1 <;> omega

theorem apart_of_mem {t : St} {B : Blk} (hI : HeapInv t bs fl) (hB : B ∈ bs) (hBa : B.alloc = true) :
    Apart t (B.addr + 8) :=
  .inr ⟨bs, fl, B, hI, hB, hBa, rfl, (hI.shape.bounds hB).1, (hI.shape.bounds hB).2,
    fun _ hd hne => hI.shape.disjoint hB hd hne⟩

theorem Allocates.keeps_apart {asize n : Nat} {t : St} {bs' : List Blk} {B : Blk}
    (hA : Allocates s bs asize n t bs' B) (hc : c ∈ bs) (hca : c.alloc = true) :
    Keeps s t c ∧ Apart t (B.addr + 8) := by
  obtain ⟨fl', hI'⟩ := hA.inv
  exact ⟨keeps_of_frame hI' ((hA.live c).mpr (.inl ⟨hc, hca⟩)).1 (hA.frame c hc hca), apart_of_mem hI' hA.mem hA.alloc⟩

theorem keeps_malloc (hI : HeapInv s bs fl) (hc : c ∈ bs) (hca : c.alloc = true) (size : Nat) :
    Keeps s (malloc s size).1 c ∧ Apart (malloc s size).1 (malloc s size).2 := by
  by_cases hq : (malloc s size).2 = 0
  · rw [(malloc_null hI hq).1, hq]; exact ⟨keeps_self hI hc, .inl rfl⟩
  have hst : s.heapStart ≠ 0 := by rw [hI.shape.start]; have := hI.shape.base_pos; omega
  rcases malloc_spec hI (show size ≠ 0 from fun h0 => hq (by simp [malloc, h0, hst])) with
    ⟨hm, -⟩ | ⟨_, B, _, hp, -, hA⟩
  · exact absurd (by rw [hm]) hq
  · rw [hp]; exact hA.keeps_apart hc hca

theorem keeps_free (hI : HeapInv s bs fl) (hc : c ∈ bs) (hca : c.alloc = true) {q : Nat}
    (hq : q = 0 ∨ Live s q) (hne : q ≠ c.addr + 8) : Keeps s (free s q) c := by
  rcases hq with rfl | ⟨bs₀, fl₀, hI₀, d, hd, hda, rfl⟩
  · rw [show free s 0 = s from if_pos rfl]; exact keeps_self hI hc
  obtain rfl := hI₀.shape.blocks_eq hI.shape
  obtain ⟨bs', fl', h', -, -, hlive, hw⟩ := free_spec hI₀ hd hda
  have hcd : c ≠ d := fun e => hne (by rw [e])
  exact keeps_of_frame h' ((hlive c).mpr ⟨hc, hca, hcd⟩).1 (hw c hc hca hcd)

theorem keeps_calloc (hI : HeapInv s bs fl) (hc : c ∈ bs) (hca : c.alloc = true) {n m : Nat}
    (hle : n * m % 2 ^ 64 ≤ 2 ^ 64 - 24) :
    Keeps s (calloc s n m).1 c ∧ Apart (calloc s n m).1 (calloc s n m).2 := by
  rcases calloc_spec hI n m hle with ⟨hq, h⟩ | ⟨_, B, _, hp, -, hA⟩
  · rw [h, hq]; exact ⟨keeps_self hI hc, .inl rfl⟩
  · rw [hp]; exact hA.keeps_apart hc hca

theorem keeps_realloc (hI : HeapInv s bs fl) (hc : c ∈ bs) (hca : c.alloc = true) {q size : Nat}
    (hq : q = 0 ∨ Live s q) (hne : q ≠ c.addr + 8) (hle : size ≤ 2 ^ 64 - 24) :
    Keeps s (realloc s q size).1 c ∧ Apart (realloc s q size).1 (realloc s q size).2 := by
  by_cases h0 : size = 0
  · rw [show realloc s q size = (free s q, 0) by simp [realloc, h0]]
    exact ⟨keeps_free hI hc hca hq hne, .inl rfl⟩
  rcases hq with rfl | ⟨bs₀, fl₀, hI₀, d, hd, hda, rfl⟩
  · rw [show realloc s 0 size = malloc s size by simp [realloc, h0]]; exact keeps_malloc hI hc hca size
  obtain rfl := hI₀.shape.blocks_eq hI.shape
  by_cases hr : (realloc s (d.addr + 8) size).2 = 0
  · rw [realloc_null hI₀ (by omega) h0 hr, hr]; exact ⟨keeps_self hI₀ hc, .inl rfl⟩
  obtain ⟨bs', fl', B, h', hB, hBa, hp, -, -, -, -, hkeep⟩ := realloc_copies hI₀ hd hda (by omega) hle hr
  obtain ⟨hc', hw⟩ := hkeep c hc hca fun e => hne (by rw [e])
  rw [hp]; exact ⟨keeps_of_frame h' hc' hw, apart_of_mem h' hB hBa⟩

/-- **NO CORRUPTION OF LIVE BLOCKS**: on the working invariant, which every
    state reached within the size contract keeps (`reach_heapInv`), take an
    allocated block `c`. A `malloc` of any size, a `calloc` whose product is
    at most `2^64 - 24`, a `realloc` of `NULL` or another live payload to at
    most `2^64 - 24` bytes, and a `free` of `NULL` or another live payload
    keep `c` allocated with its size and every byte of its payload; and each
    payload they return is apart from every other block and from the
    sentinels. -/
theorem calls_keep_live_blocks (hI : HeapInv s bs fl) (hc : c ∈ bs) (hca : c.alloc = true) :
    (∀ size, Keeps s (malloc s size).1 c ∧ Apart (malloc s size).1 (malloc s size).2) ∧
    (∀ n m, n * m % 2 ^ 64 ≤ 2 ^ 64 - 24 →
      Keeps s (calloc s n m).1 c ∧ Apart (calloc s n m).1 (calloc s n m).2) ∧
    (∀ q size, q = 0 ∨ Live s q → q ≠ c.addr + 8 → size ≤ 2 ^ 64 - 24 →
      Keeps s (realloc s q size).1 c ∧ Apart (realloc s q size).1 (realloc s q size).2) ∧
    ∀ q, q = 0 ∨ Live s q → q ≠ c.addr + 8 → Keeps s (free s q) c :=
  ⟨keeps_malloc hI hc hca, fun _ _ hle => keeps_calloc hI hc hca hle,
    fun _ _ hq hne hle => keeps_realloc hI hc hca hq hne hle, fun _ hq hne => keeps_free hI hc hca hq hne⟩

theorem calls_keep_live_blocks_after_malloc :
    ∃ bs fl c, HeapInv (malloc (mmInit freshArena).1 100).1 bs fl ∧ c ∈ bs ∧ c.alloc = true ∧
      Keeps (malloc (mmInit freshArena).1 100).1 (malloc (malloc (mmInit freshArena).1 100).1 50).1 c ∧
      Apart (malloc (malloc (mmInit freshArena).1 100).1 50).1 (malloc (malloc (mmInit freshArena).1 100).1 50).2 := by
  obtain ⟨bs₀, fl₀, hI₀⟩ := mmInit_spec fresh_freshArena (by decide)
  rcases malloc_spec hI₀ (show (100 : Nat) ≠ 0 by decide) with ⟨hm, -⟩ | ⟨bs, B, n, -, -, hA⟩
  · exact absurd (congrArg Prod.snd hm) (by decide)
  obtain ⟨fl, hI⟩ := hA.inv
  exact ⟨bs, fl, B, hI, hA.mem, hA.alloc, (calls_keep_live_blocks hI hA.mem hA.alloc).1 50⟩

end LiveBlocks

/-! ## Byte accounting -/

section Accounting

variable {s : St} {bs : List Blk} {fl : Nat → List Nat}

/-- **BYTE ACCOUNTING**: on the working invariant, which every state reached
    within the size contract keeps (`reach_heapInv`), a non-`NULL`
    `malloc(size)` with `0 < size ≤ 2^64 - 24` returns the payload of a block
    of exactly `max (round_up (size + 8, 16)) 16` bytes, cut from the chosen
    free block of `b` bytes (one of the heap when `find_fit` found it, else
    the last block, up to the new epilogue), which is split exactly when
    `b - asize ≥ 16` and otherwise is `asize` bytes; the free bytes lose
    `asize` and gain what `mem_sbrk` added. `free` of a live payload adds its
    block's `get_size` to the free bytes and keeps the break. -/
theorem malloc_free_byte_accounting (hI : HeapInv s bs fl) :
    (∀ size, 0 < size → size ≤ 2 ^ 64 - 24 → (malloc s size).2 ≠ 0 →
      ∃ bs' fl' B b, HeapInv (malloc s size).1 bs' fl' ∧ B ∈ bs' ∧ B.alloc = true ∧
        (malloc s size).2 = B.addr + 8 ∧
        getSize (malloc s size).1 B.addr = max (16 * ((size + 8 + 15) / 16)) 16 ∧
        asizeOf size ≤ b ∧ (findFit s (asizeOf size) ≠ 0 → (⟨B.addr, b, false⟩ : Blk) ∈ bs) ∧
        (findFit s (asizeOf size) = 0 → B.addr + b = (malloc s size).1.memBrk - 8) ∧
        ((16 ≤ b - asizeOf size ∧ (⟨B.addr + asizeOf size, b - asizeOf size, false⟩ : Blk) ∈ bs') ∨
          b = asizeOf size) ∧
        freeBytes bs' + asizeOf size = freeBytes bs + ((malloc s size).1.memBrk - s.memBrk)) ∧
    ∀ c ∈ bs, c.alloc = true → ∃ bs' fl', HeapInv (free s (c.addr + 8)) bs' fl' ∧
      freeBytes bs' = freeBytes bs + getSize s c.addr ∧ (free s (c.addr + 8)).memBrk = s.memBrk := by
  refine ⟨fun size h0 hle hq => ?_, fun c hc hca => ?_⟩
  · rcases malloc_spec hI (show size ≠ 0 by omega) with ⟨hm, -⟩ | ⟨bs', B, n, hp, hn, hA⟩
    · exact absurd (by rw [hm]) hq
    obtain ⟨fl', hI'⟩ := hA.inv
    obtain ⟨b, hb, hin, hend, hsp⟩ := hA.split
    have hbrk : (malloc s size).1.memBrk = s.memBrk + n := hA.arena.memBrk
    refine ⟨bs', fl', B, b, hI', hA.mem, hA.alloc, hp, ?_, hb, fun hf => hin ?_, fun hf => ?_, hsp, ?_⟩
    · rw [(hI'.shape.blocks B hA.mem).size, hA.size, (asizeOf_spec hle).1]
    · rcases hn with ⟨-, h⟩ | ⟨h, -⟩; exacts [h, absurd h hf]
    · rcases hn with ⟨h, -⟩ | ⟨-, rfl⟩
      · exact absurd hf h
      · rw [hbrk]; exact hend (by simp only [max_def, chunksize]; split <;> omega)
    · rw [hbrk, Nat.add_sub_cancel_left]; exact hA.bytes
  · obtain ⟨bs', fl', h', har, hfb, -⟩ := free_spec hI hc hca
    exact ⟨bs', fl', h', by rw [hfb, (hI.shape.blocks c hc).size], har.memBrk⟩

theorem malloc_free_byte_accounting_after_init :
    ∃ bs fl, HeapInv (mmInit freshArena).1 bs fl ∧
      ∃ bs' fl' B b, HeapInv (malloc (mmInit freshArena).1 100).1 bs' fl' ∧ B ∈ bs' ∧
        getSize (malloc (mmInit freshArena).1 100).1 B.addr = 112 ∧
        ((16 ≤ b - asizeOf 100 ∧ (⟨B.addr + asizeOf 100, b - asizeOf 100, false⟩ : Blk) ∈ bs') ∨
          b = asizeOf 100) := by
  obtain ⟨bs, fl, hI⟩ := mmInit_spec fresh_freshArena (by decide)
  obtain ⟨bs', fl', B, b, h', hB, -, -, hsz, -, -, -, hsp, -⟩ :=
    (malloc_free_byte_accounting hI).1 100 (by decide) (by decide) (by decide)
  exact ⟨bs, fl, hI, bs', fl', B, b, h', hB, hsz.trans (by decide), hsp⟩

end Accounting

/-! ## Past the size contract

    `realloc(p, 2^64 - 1)` leaves bucket 7 listing the block at
    `heap_start + 128` after the copy zeroed its header
    (`realloc_max_size_leaves_stale_list_node`). The next `malloc(4000)` grows
    the heap, merges over that header and hands the block out as a 4016-byte
    allocated block, while bucket 7 still lists it. A second `malloc(4000)`
    then finds it there, as `find_fit` reads a bucket without looking at the
    allocated bit. -/

section PastContract

/-- The heap after `mm_init`, `p = malloc(100)` and `realloc(p, 2^64 - 1)`. -/
def afterReallocMax : St :=
  (realloc (malloc (mmInit freshArena).1 100).1 (malloc (mmInit freshArena).1 100).2 (2 ^ 64 - 1)).1

/-- The heap after a further `malloc(4000)`, which returns `2^35 + 144`, the
    payload of the allocated block at `2^35 + 136` that bucket 7 still lists.
    The walk from `heap_start` meets a free block of 112 bytes, an allocated
    mini block, that block of 4016 bytes and a free block of 80 bytes, and
    stops at a zero header short of the epilogue. -/
def staleHeap : St := (malloc afterReallocMax 4000).1

/-- The blocks the implicit walk meets from `block` in at most `fuel` steps,
    with their sizes and allocated bits; like `mm_checkheap`'s walk it stops
    at a zero size. -/
def walkBlocks (s : St) : Nat → Nat → List Blk
  | 0, _ => []
  | fuel + 1, block =>
    if getSize s block = 0 then []
    else ⟨block, getSize s block, getAlloc s block⟩ :: walkBlocks s fuel (findNext s block)

/-- **Counterexample** (live payloads): `malloc(4000)` returns `2^35 + 144`,
    whose block stays allocated with 4016 bytes, and the next `malloc(4000)`
    returns `2^35 + 144` again, a payload that is still live. -/
theorem malloc_returns_live_payload_past_contract :
    (malloc afterReallocMax 4000).2 = 2 ^ 35 + 144 ∧ getAlloc staleHeap (2 ^ 35 + 136) = true ∧
      getSize staleHeap (2 ^ 35 + 136) = 4016 ∧ (malloc staleHeap 4000).2 = 2 ^ 35 + 144 := by
  decide

/-- **Counterexample** (byte accounting): in `staleHeap`, `find_fit` picks the
    allocated block at `2^35 + 136` for `malloc(4000)`, which hands it out
    again with `asize` bytes without `mem_sbrk`; the free blocks the walk
    from `heap_start` meets hold 192 bytes before and after the call. -/
theorem malloc_takes_no_free_bytes_past_contract :
    findFit staleHeap (asizeOf 4000) = 2 ^ 35 + 136 ∧ getAlloc staleHeap (2 ^ 35 + 136) = true ∧
      (malloc staleHeap 4000).2 = 2 ^ 35 + 144 ∧
      getSize (malloc staleHeap 4000).1 (2 ^ 35 + 136) = asizeOf 4000 ∧
      (malloc staleHeap 4000).1.memBrk = staleHeap.memBrk ∧
      freeBytes (walkBlocks staleHeap 8 staleHeap.heapStart) = 192 ∧
      freeBytes (walkBlocks (malloc staleHeap 4000).1 8 staleHeap.heapStart) = 192 := by
  decide

/-- **Counterexample** (round trip): in `staleHeap`, `find_fit` finds a block
    for `malloc(4000)`, yet `free(malloc(4000))` does not give the heap back:
    the block at `2^35 + 136`, allocated with 4016 bytes before, is free with
    4096 bytes after, merged with the free block behind it. -/
theorem free_malloc_changes_heap_past_contract :
    findFit staleHeap (asizeOf 4000) = 2 ^ 35 + 136 ∧ getAlloc staleHeap (2 ^ 35 + 136) = true ∧
      getSize staleHeap (2 ^ 35 + 136) = 4016 ∧
      getAlloc (free (malloc staleHeap 4000).1 (malloc staleHeap 4000).2) (2 ^ 35 + 136) = false ∧
      getSize (free (malloc staleHeap 4000).1 (malloc staleHeap 4000).2) (2 ^ 35 + 136) = 4096 := by
  decide

/-- **Counterexample** (`realloc`): `realloc(2^35 + 144, 4000)` on the live
    payload of `staleHeap` returns `2^35 + 144` itself, and its block is free
    after the call. -/
theorem realloc_returns_its_argument_past_contract :
    (malloc afterReallocMax 4000).2 = 2 ^ 35 + 144 ∧ getAlloc staleHeap (2 ^ 35 + 136) = true ∧
      (realloc staleHeap (2 ^ 35 + 144) 4000).2 = 2 ^ 35 + 144 ∧
      getAlloc (realloc staleHeap (2 ^ 35 + 144) 4000).1 (2 ^ 35 + 136) = false := by
  decide

end PastContract

end MmOps
