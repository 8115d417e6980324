import SystemsLabs.MmCoalesceProofs

/-! # `malloc`: extension, placement and allocation

    `malloc` on the working invariant of `MmLayout`, in the order the code
    runs:

    * **`extendHeap_spec`** — `extend_heap(size)` either fails with nothing
      changed, or grows the heap by `size` bytes into a free last block,
      merged with the old last block when that was free;
    * **`place_spec`** — `write_block`, `split_block` and `update_next` on a
      free block taken off its list: it is split exactly when the rest holds
      a block;
    * **`malloc_spec`** — for every request, `NULL` with the state unchanged
      when no block fits and `mem_sbrk` fails, and otherwise a new allocated
      block of exactly the adjusted size (`Allocates`);
    * **`mmInit_spec`** — a successful `mm_init` on a fresh arena sets up the
      invariant. -/

namespace MmLayout

open MmCodec MmState St MmFreeList

section Grow

variable {s : St} {bs : List Blk} {fl : Nat → List Nat} {size : Nat}

/-- The heap grown by `size` bytes, the old epilogue's word now the header of
    a free block over the new bytes and a new epilogue after it: the stage
    before that block is pushed on its list. -/
theorem HeapInv.grow (hI : HeapInv s bs fl) (hsz : size % 16 = 0) (h16 : 16 ≤ size)
    (hmax : s.memBrk + size ≤ s.memMaxAddr) :
    Stage (writeEpilogue (writeBlock { s with memBrk := s.memBrk + size } (s.memBrk - 8) size false
        (getPrevAlloc s (s.memBrk - 8))) (s.memBrk - 8 + size))
      (bs ++ [⟨s.memBrk - 8, size, false⟩]) fl none (fun z => z = s.memBrk - 8) := by
  have hS := hI.shape
  have he := hS.epi_lt; have hmx := hS.max_lt
  set s₁ : St := { s with memBrk := s.memBrk + size }
  set M₀ : Blk := ⟨s.memBrk - 8, size, false⟩
  set t := writeEpilogue (writeBlock s₁ (s.memBrk - 8) size false (getPrevAlloc s (s.memBrk - 8)))
    (s.memBrk - 8 + size)
  have hlt : size < 2 ^ 64 := by omega
  have ht : t = (writeBlock s₁ (s.memBrk - 8) size false (getPrevAlloc s (s.memBrk - 8))).store
      (s.memBrk - 8 + size) (pack 0 true false) := rfl
  have har : SameArena s₁ t := SameArena.writeBlock.trans .writeEpilogue
  have hout : ∀ x < s.memBrk - 8, t.mem x = s.mem x := fun x hx => by
    rw [ht, store_mem_of_ne (by omega)]
    exact writeBlock_mem_of_ne hsz hlt (by omega) fun _ _ => by omega
  have hM₀ : BlockOK t M₀ :=
    (blockOK_writeBlock hsz h16 hlt).frame h16 fun x _ h2 => store_mem_of_ne (by simp [M₀] at h2; omega)
  have hin : ∀ {b}, b ∈ bs ++ [M₀] → b ∈ bs ∨ b = M₀ := fun hb => by simpa using hb
  have hlow : ∀ b ∈ bs, b.addr + b.size ≤ s.memBrk - 8 := fun b hb => (hS.bounds hb).2
  refine ⟨⟨har.memStartBrk ▸ hS.base_align, har.memStartBrk ▸ hS.base_pos,
    har.memMaxAddr ▸ hS.max_lt, har.memBrk ▸ har.memMaxAddr ▸ hmax, har.heapStart ▸ har.memStartBrk ▸ hS.start,
    ?_, ?_, fun b hb => ?_, fun b hb => ?_, fun b hb => ?_, ⟨false, ?_⟩⟩,
    ⟨fun p hp _ => ?_, fun _ => ?_⟩, hI.lists.frame hS hI.couple.toListed ?_ fun c hc _ x _ h2 => ?_,
    hI.couple.toListed.mono fun _ _ c hc _ => List.mem_append_left _ hc,
    fun b hb hf hx => ?_, fun z hz j _ hzj => ?_⟩
  · rw [har.memStartBrk]; show t.mem s.memStartBrk = _
    rw [hout _ (by have := hS.heapStart_le_epi; have := hS.start; omega)]
    exact hS.prologue
  · rw [har.heapStart, har.memBrk]
    exact contig_append.mpr ⟨_, hS.contig, rfl, show s.memBrk - 8 + size = s.memBrk + size - 8 by omega⟩
  · rcases hin hb with hb | rfl; exacts [hS.size_ge b hb, h16]
  · rcases hin hb with hb | rfl; exacts [hS.size_dvd b hb, hsz]
  · rcases hin hb with hb | rfl
    · exact (hS.blocks b hb).frame (hS.size_ge b hb) fun x _ h2 => hout x (by have := hlow b hb; omega)
    · exact hM₀
  · rw [har.memBrk, show s₁.memBrk - 8 = s.memBrk - 8 + size by simp only [s₁]; omega]
    rw [ht]; exact store_mem_self
  · rw [withPrev_append, List.mem_append] at hp
    rcases hp with hp | hp
    · have hc := fst_mem_of_withPrev hp
      rw [getPrevAlloc_congr (hout _ (by have := hlow _ hc; have := hS.size_ge _ hc; omega))]
      exact hI.prev.bits p hp (by simp)
    · obtain rfl : p = (M₀, lastAlloc true bs) := List.mem_singleton.mp hp
      rw [ht, getPrevAlloc_congr (store_mem_of_ne (by simp only [M₀]; omega))]
      exact (getPrevAlloc_writeBlock hsz h16 hlt).trans (hI.prev.epilogue (by simp))
  · rw [har.memBrk, show s₁.memBrk - 8 = s.memBrk - 8 + size by simp only [s₁]; omega, ht,
      getPrevAlloc_of_pack store_mem_self (by decide), lastAlloc_append]
    rfl
  · simp only [t, writeEpilogue, store, writeBlock_freeRoot, s₁]
  · exact hout x (by have := hlow c hc; omega)
  · rcases hin hb with hb | rfl
    · exact hI.couple.complete b hb hf
    · exact absurd rfl hx
  · obtain ⟨c, hc, hca, -⟩ := hI.couple.mem j ‹_› z hzj
    have := hlow c hc; have := hS.size_ge c hc; omega

/-- The root of a list is `NULL` or a free block of the heap. -/
theorem HeapInv.root (hI : HeapInv s bs fl) {i : Nat} (hi : i < seglistLength) :
    s.freeRoot i = 0 ∨ ∃ c ∈ bs, c.addr = s.freeRoot i ∧ c.alloc = false := by
  rw [hI.lists.root i hi]
  cases h : fl i with
  | nil => exact .inl rfl
  | cons x l =>
    obtain ⟨c, hc, hcx, hcf, -⟩ := hI.couple.mem i hi x (by simp [h])
    exact .inr ⟨c, hc, hcx, hcf⟩

end Grow

/-- Where a block `xb` between `l₁` and `l₂` lies, and its size. -/
theorem Shape.around {s : St} {l₁ l₂ : List Blk} {xb : Blk} (hS : Shape s (l₁ ++ [xb] ++ l₂)) :
    Contig s.heapStart l₁ xb.addr ∧ Contig (xb.addr + xb.size) l₂ (s.memBrk - 8) ∧
      16 ≤ xb.size ∧ xb.size % 16 = 0 ∧ xb.size < 2 ^ 64 := by
  obtain ⟨a, e, h₁, ⟨rfl, rfl⟩, h₂⟩ := contig_append3.mp hS.contig
  have hxb : xb ∈ l₁ ++ [xb] ++ l₂ := by simp
  exact ⟨h₁, h₂, hS.size_ge xb hxb, hS.size_dvd xb hxb, by have := hS.bounds hxb; have := hS.epi_lt; omega⟩

end MmLayout

namespace MmOps

open MmCodec MmState St MmLayout MmFreeList MmFindFit

/-- A run coalesced after some block stays coalesced after an allocated one. -/
theorem coalescedFrom_true {pa : Bool} : ∀ {l : List Blk}, CoalescedFrom pa l → CoalescedFrom true l
  | [], _ => coalescedFrom_nil _
  | _ :: _, h => coalescedFrom_cons.mpr ⟨fun _ => rfl, (coalescedFrom_cons.mp h).2⟩

section Extend

variable {s : St} {bs : List Blk} {fl : Nat → List Nat} {size : Nat}

/-- A block size that is a multiple of 16 rounds up to itself. -/
theorem roundUp_of_dvd (hsz : size % 16 = 0) (hlt : size < 2 ^ 64) : roundUp size dsize = size := by
  simp only [roundUp, dsize, wsize]
  rw [Nat.mod_eq_of_lt (by omega)]
  omega

/-- **EXTEND**: `extend_heap(size)` on the working invariant, for a multiple
    of 16 of at least 32 bytes. Either `mem_sbrk` refuses and nothing changes,
    or the heap grows by `size` bytes, which join the last block when it is
    free: the result is a free last block of at least `size` bytes, the free
    bytes grow by `size`, the allocated blocks stay, and the words that change
    are the old epilogue and above or lie in free blocks. -/
theorem extendHeap_spec (hI : HeapInv s bs fl) (hsz : size % 16 = 0) (h32 : 32 ≤ size)
    (hlt : size < 2 ^ 64) :
    (s.memMaxAddr < s.memBrk + size ∧ extendHeap s size = (s, 0)) ∨
    ∃ l₀ M fl', (extendHeap s size).2 = M.addr ∧ M.alloc = false ∧ size ≤ M.size ∧
      HeapInv (extendHeap s size).1 (l₀ ++ [M]) fl' ∧
      SameArena { s with memBrk := s.memBrk + size } (extendHeap s size).1 ∧
      freeBytes (l₀ ++ [M]) = freeBytes bs + size ∧
      (∀ c, c ∈ l₀ ++ [M] ∧ c.alloc = true ↔ c ∈ bs ∧ c.alloc = true) ∧
      ∀ x, (extendHeap s size).1.mem x ≠ s.mem x → s.memBrk - 8 ≤ x ∨
        ∃ c ∈ bs, c.alloc = false ∧ c.addr ≤ x ∧ x < c.addr + c.size := by
  have hS := hI.shape
  have he := hS.epi_lt; have hmx := hS.max_lt
  by_cases hno : s.memMaxAddr < s.memBrk + size
  · refine .inl ⟨hno, ?_⟩
    simp only [extendHeap, roundUp_of_dvd hsz hlt, memSbrk]
    rw [if_neg (by omega)]
  refine .inr ?_
  set e₀ := s.memBrk - 8
  set M₀ : Blk := ⟨e₀, size, false⟩
  set s₂ := writeBlock { s with memBrk := s.memBrk + size } e₀ size false (getPrevAlloc s e₀)
  have hM₀ : M₀ ∈ bs ++ [M₀] := by simp
  obtain ⟨hp, hwp⟩ := (hI.grow hsz (by omega) (by omega)).push hM₀ rfl rfl
  have hout : ∀ x < e₀, (writeEpilogue s₂ (e₀ + size)).mem x = s.mem x := fun x hx => by
    rw [writeEpilogue, store_mem_of_ne (by omega)]
    exact writeBlock_mem_of_ne hsz (by omega) (by omega) fun _ _ => by omega
  have hcomm : addToFree (writeEpilogue s₂ (e₀ + size)) e₀ =
      writeEpilogue (addToFree s₂ e₀) (e₀ + size) := by
    refine addToFree_store ⟨by omega, by omega, by omega⟩ ?_
    rw [writeBlock_freeRoot]
    rcases hI.root (getSeglistInd_lt (getSize s₂ e₀)) with h | ⟨c, hc, hcr, -⟩
    · simp only [h]; omega
    · have := hS.bounds hc; have := hS.size_ge c hc
      simp only [← hcr]; omega
  have hnext : findNext (addToFree s₂ e₀) e₀ = e₀ + size := by
    rw [findNext, ← getSize_congr (x := e₀) (store_mem_of_ne (a := e₀ + size) (v := pack 0 true false)
      (by omega)), ← writeEpilogue, ← hcomm, (hp.shape.blocks M₀ hM₀).size]
  have hext : extendHeap s size = coalesceBlock (addToFree (writeEpilogue s₂ (e₀ + size)) e₀) e₀ := by
    simp only [extendHeap, roundUp_of_dvd hsz hlt, memSbrk, payloadToHeader, wsize]
    rw [if_pos ⟨by omega, by omega⟩]
    change coalesceBlock (writeEpilogue (addToFree s₂ e₀) (findNext (addToFree s₂ e₀) e₀)) e₀ = _
    rw [hnext, hcomm]
  have hst : Stage (addToFree (writeEpilogue s₂ (e₀ + size)) e₀) (bs ++ [M₀] ++ [])
      (Function.update fl (getSeglistInd size) (e₀ :: fl (getSeglistInd size))) none (fun _ => False) := by
    rw [List.append_nil]; exact hp.congrX fun z => ⟨fun h => h.1 h.2, False.elim⟩
  obtain ⟨l₀, l₃, M, fl', hl₁, hl₂, hr, hMf, hMa, hMe, hst', hco, har, hfb, hw⟩ :=
    coalesceBlock_spec hst rfl (fun _ h => nomatch h) hI.coalesced (coalescedFrom_nil _)
  obtain rfl : l₃ = [] := by rcases hl₂ with h | ⟨_, _, h⟩; exacts [h.symm, nomatch h]
  rw [hext]
  have har₄ : SameArena { s with memBrk := s.memBrk + size } (addToFree (writeEpilogue s₂ (e₀ + size)) e₀) :=
    (SameArena.writeBlock.trans .writeEpilogue).trans sameArena_addToFree
  have harr := har₄.trans har
  have hin : ∀ {c}, c ∈ bs ++ [M₀] ++ [] → c ∈ bs ∨ c = M₀ := fun hc => by simpa using hc
  have hM : M ∈ l₀ ++ [M] ++ [] := by simp
  have hE : M.addr + M.size = e₀ + size := by
    have := hst'.shape.bounds hM; rw [harr.memBrk] at this; simp only at this hMe; omega
  have hepi : getPrevAlloc (coalesceBlock (addToFree (writeEpilogue s₂ (e₀ + size)) e₀) e₀).1
      (e₀ + size) = false := by
    have h₄ := hp.prev.epilogue (by simp)
    rw [lastAlloc_append, har₄.memBrk] at h₄
    refine (getPrevAlloc_congr (not_not.mp (mt (hw _) ?_))).trans ?_
    · rintro ⟨c, hc, -, h1, h2⟩
      rcases hin hc with hc | rfl
      · have := hS.bounds hc; omega
      · simp only [M₀] at h2; omega
    · simpa only [show s.memBrk + size - 8 = e₀ + size by omega] using h₄
  have hfin : Stage (coalesceBlock (addToFree (writeEpilogue s₂ (e₀ + size)) e₀) e₀).1 (l₀ ++ [M] ++ [])
      fl' none (fun _ => False) :=
    { hst' with
      prev := hst'.prev.fix rfl (fun _ _ => rfl)
        (fun p hp' hpa => by
          have hc := fst_mem_of_withPrev hp'
          have hb := hst'.shape.bounds hc; have := hst'.shape.size_ge _ hc
          rw [harr.memBrk] at hb; simp only at hb hpa; omega)
        (fun _ => by rw [hE, hepi, List.append_nil, lastAlloc_append]; exact hMf.symm) }
  simp only [List.append_nil] at hfin hco hfb
  refine ⟨l₀, M, fl', hr, hMf, by simp only at hMa; omega, hfin.heapInv hco, harr, ?_, fun c => ?_,
    fun x hx => ?_⟩
  · rw [hfb, freeBytes_append]; simp [freeBytes, M₀]
  · rw [← List.append_nil (l₀ ++ [M]), live_of_merge hl₁ (.inl rfl) hMf (show M₀.alloc = false from rfl)]
    constructor
    · rintro ⟨hc, ha⟩; rcases hin hc with hc | rfl; exacts [⟨hc, ha⟩, nomatch ha]
    · rintro ⟨hc, ha⟩; exact ⟨by simp [hc], ha⟩
  · refine (Nat.lt_or_ge x e₀).elim (fun hxe => ?_) .inl
    by_contra hno'
    have away : ∀ c ∈ bs ++ [M₀], ¬ (c.alloc = false ∧ c.addr ≤ x ∧ x < c.addr + c.size) :=
      fun c hc hcx => by
        rcases List.mem_append.mp hc with hc | hc
        · exact hno' (.inr ⟨c, hc, hcx⟩)
        · rw [List.mem_singleton.mp hc] at hcx; simp only [M₀] at hcx; omega
    exact hx ((not_not.mp (mt (hw x) fun ⟨c, hc, hcx⟩ => away c (by simpa using hc) hcx)).trans
      ((not_not.mp (mt (hwp x) fun ⟨c, hc, hcx⟩ => away c hc hcx)).trans (hout x hxe)))

end Extend

section Place

variable {s : St} {l₁ l₂ : List Blk} {fl : Nat → List Nat} {xb : Blk} {asize : Nat}

/-- `split_block` after `write_block(block, size, true, true)`: both
    `write_block`s and the push of the rest, when the rest has room. -/
theorem splitBlock_writeBlock {a S : Nat} (hSd : S % 16 = 0) (hlt : S < 2 ^ 64)
    (h16 : 16 ≤ asize) (hd : asize % 16 = 0) (hle : asize ≤ S) :
    splitBlock (writeBlock s a S true true) a asize =
      if 16 ≤ S - asize then
        addToFree (writeBlock (writeBlock (writeBlock s a S true true) a asize true true)
          (a + asize) (S - asize) false true) (a + asize)
      else writeBlock s a S true true := by
  have h1 : getSize (writeBlock s a S true true) a = S :=
    getSize_of_pack (writeBlock_mem_self hSd (by omega) hlt) hSd hlt
  have h2 : findNext (writeBlock (writeBlock s a S true true) a asize true true) a = a + asize := by
    rw [findNext, getSize_of_pack (writeBlock_mem_self hd h16 (by omega)) hd (by omega)]
  simp only [splitBlock, h1, h2, minBlockSize, dsize, wsize, ge_iff_le]

/-- A placement keeps the heap coalesced when the blocks it leaves are. -/
theorem coalesced_of_place {m : List Blk} (hc₁ : CoalescedFrom true l₁)
    (hpa : lastAlloc true l₁ = true) (hm : CoalescedFrom true m)
    (h₂ : CoalescedFrom (lastAlloc true m) l₂) : Coalesced (l₁ ++ m ++ l₂) := by
  show CoalescedFrom true _
  rw [coalescedFrom_append, coalescedFrom_append, lastAlloc_append, hpa]
  exact ⟨⟨hc₁, hpa ▸ hm⟩, h₂⟩

/-- **Placing** `asize` bytes in the free block `xb`, already off its list,
    when the rest has room for a block: `write_block` the allocated part,
    `write_block` and push the free rest, and `update_next`. -/
theorem place_split (h : Stage s (l₁ ++ [xb] ++ l₂) fl none (fun z => z = xb.addr ∨ False))
    (hxf : xb.alloc = false) (hc₁ : CoalescedFrom true l₁) (hpa : lastAlloc true l₁ = true)
    (hc₂ : CoalescedFrom false l₂) (h16 : 16 ≤ asize) (hdvd : asize % 16 = 0)
    (hsp : 16 ≤ xb.size - asize) :
    (∃ fl', HeapInv (updateNext (splitBlock (writeBlock s xb.addr xb.size true true) xb.addr asize)
        xb.addr true) (l₁ ++ [⟨xb.addr, asize, true⟩, ⟨xb.addr + asize, xb.size - asize, false⟩] ++ l₂) fl') ∧
      SameArena s (updateNext (splitBlock (writeBlock s xb.addr xb.size true true) xb.addr asize)
        xb.addr true) ∧
      ∀ x, (updateNext (splitBlock (writeBlock s xb.addr xb.size true true) xb.addr asize)
        xb.addr true).mem x ≠ s.mem x → (xb.addr ≤ x ∧ x ≤ xb.addr + xb.size) ∨
          ∃ c ∈ l₁ ++ l₂, c.alloc = false ∧ c.addr ≤ x ∧ x < c.addr + c.size := by
  obtain ⟨h₁, h₂, -, hxd, hxlt⟩ := h.shape.around
  have hoff : ∀ b ∈ [xb], ∀ j < seglistLength, b.addr ∉ fl j := fun b hb =>
    h.off _ (.inl (by rw [List.mem_singleton.mp hb]))
  have hpe : getPrevAlloc s (xb.addr + xb.size) = false :=
    (h.shape.prevAlloc_end h.prev (by simp) (by simp)).trans hxf
  rw [splitBlock_writeBlock hxd hxlt h16 hdvd (by omega), if_pos hsp]
  set W := writeBlock (writeBlock (writeBlock s xb.addr xb.size true true) xb.addr asize true true)
    (xb.addr + asize) (xb.size - asize) false true
  set xa : Blk := ⟨xb.addr, asize, true⟩
  set y : Blk := ⟨xb.addr + asize, xb.size - asize, false⟩
  have hyd : (xb.size - asize) % 16 = 0 := by omega
  have hw : ∀ x, W.mem x ≠ s.mem x → xb.addr ≤ x ∧ x < xb.addr + xb.size := fun x hx => by
    by_contra hout
    refine hx ?_
    rw [writeBlock_mem_of_ne hyd (by omega) (by omega) (fun _ _ => by omega),
      writeBlock_mem_of_ne hdvd (by omega) (by omega) (fun h => absurd h (by decide)),
      writeBlock_mem_of_ne hxd hxlt (by omega) (fun h => absurd h (by decide))]
  have har : SameArena s W := SameArena.writeBlock.trans (SameArena.writeBlock.trans .writeBlock)
  have hxa : BlockOK W xa := by
    have h0 : BlockOK (writeBlock (writeBlock s xb.addr xb.size true true) xb.addr asize true true)
      xa := blockOK_writeBlock hdvd h16 (by omega)
    refine h0.frame h16 fun x h1 h2 => ?_
    exact writeBlock_mem_of_ne hyd (by omega) (by simp [xa] at h2 ⊢; omega)
      (fun _ _ => by simp [xa] at h2 ⊢; omega)
  have hy : BlockOK W y := blockOK_writeBlock hyd hsp (by omega)
  have hWa : W.mem xb.addr = pack asize true true := by
    rw [writeBlock_mem_of_ne hyd (by omega) (by omega) (fun _ _ => by omega)]
    exact writeBlock_mem_self hdvd h16 (by omega)
  have hWe : W.mem (xb.addr + xb.size) = s.mem (xb.addr + xb.size) :=
    Decidable.byContradiction fun hne => by have := hw _ hne; omega
  have h₃ := h.replace har (by simp only [W, writeBlock_freeRoot]) h₁ h₂
    (show Contig xb.addr [xa, y] (xb.addr + xb.size) from ⟨rfl, rfl, by simp only [xa, y, Contig]; omega⟩)
    (fun b hb => by
      simp only [List.mem_cons, List.mem_singleton, List.not_mem_nil, or_false] at hb
      rcases hb with rfl | rfl <;> exact ⟨by simp only [xa, y]; omega, by simp only [xa, y]; omega⟩)
    (fun b hb => by
      simp only [List.mem_cons, List.mem_singleton, List.not_mem_nil, or_false] at hb
      rcases hb with rfl | rfl; exacts [hxa, hy])
    hw hoff (fun _ h => nomatch h) none
    (fun p hp _ => by
      rw [hpa] at hp
      simp only [withPrev, List.mem_cons, List.mem_singleton, List.not_mem_nil, or_false] at hp
      rcases hp with rfl | rfl
      · exact getPrevAlloc_of_pack hWa hdvd
      · exact getPrevAlloc_writeBlock hyd hsp (by omega))
    (fun _ => by rw [getPrevAlloc_congr hWe, hpe]; rfl)
  obtain ⟨h₄, hw₄⟩ := h₃.push (show y ∈ l₁ ++ [xa, y] ++ l₂ by simp) rfl (.inl ⟨y, by simp, rfl, rfl⟩)
  have h₅ : Stage (addToFree W y.addr) (l₁ ++ [xa, y] ++ l₂)
      (Function.update fl (getSeglistInd y.size) (y.addr :: fl (getSeglistInd y.size)))
      (some (xa.addr + xa.size)) (fun _ => False) := by
    refine ⟨h₄.shape, h₄.prev.weaken, h₄.lists, h₄.listed, fun b hb hf _ => h₄.complete b hb hf ?_,
      fun _ hz => hz.elim⟩
    rintro ⟨hne, ⟨c, hc, hcf, hcb⟩ | ⟨hX, hout⟩⟩
    · simp only [List.mem_cons, List.mem_singleton, List.not_mem_nil, or_false] at hc
      rcases hc with rfl | rfl
      · exact nomatch hcf
      · exact hne hcb.symm
    · simp only [or_false] at hX; omega
  obtain ⟨h₆, hw₆⟩ := h₅.updateNext (show xa ∈ l₁ ++ [xa, y] ++ l₂ by simp)
  refine ⟨⟨_, h₆.heapInv (coalesced_of_place hc₁ hpa
    (coalescedFrom_cons.mpr ⟨fun h => (nomatch h), coalescedFrom_cons.mpr
      ⟨fun _ => rfl, coalescedFrom_nil _⟩⟩) hc₂)⟩,
    har.trans (sameArena_addToFree.trans .updateNext), fun x hx => ?_⟩
  by_cases hx₆ : (addToFree W y.addr).mem x = s.mem x
  · rcases hw₆ x (hx₆ ▸ hx) with h | ⟨h, -⟩
    · exact .inl ⟨by simp only [xa] at h; omega, by simp only [xa] at h; omega⟩
    · exact nomatch h
  · by_cases hxW : (addToFree W y.addr).mem x = W.mem x
    · have := hw x (hxW ▸ hx₆); exact .inl ⟨this.1, by omega⟩
    · obtain ⟨c, hc, hcf, hc₁, hc₂⟩ := hw₄ x hxW
      simp only [List.mem_append, List.mem_cons, List.mem_singleton, List.not_mem_nil,
        or_false] at hc
      rcases hc with (hc | rfl | rfl) | hc
      · exact .inr ⟨c, List.mem_append_left _ hc, hcf, hc₁, hc₂⟩
      · exact nomatch hcf
      · exact .inl ⟨by simp only [y] at hc₁; omega, by simp only [y] at hc₂; omega⟩
      · exact .inr ⟨c, List.mem_append_right _ hc, hcf, hc₁, hc₂⟩

/-- **Placing** `asize` bytes in the free block `xb` of exactly `asize`
    bytes, already off its list: `write_block` and `update_next`. -/
theorem place_whole (h : Stage s (l₁ ++ [xb] ++ l₂) fl none (fun z => z = xb.addr ∨ False))
    (hc₁ : CoalescedFrom true l₁) (hpa : lastAlloc true l₁ = true) (hc₂ : CoalescedFrom false l₂)
    (heq : xb.size = asize) :
    (∃ fl', HeapInv (updateNext (splitBlock (writeBlock s xb.addr xb.size true true) xb.addr asize)
        xb.addr true) (l₁ ++ [⟨xb.addr, asize, true⟩] ++ l₂) fl') ∧
      SameArena s (updateNext (splitBlock (writeBlock s xb.addr xb.size true true) xb.addr asize)
        xb.addr true) ∧
      ∀ x, (updateNext (splitBlock (writeBlock s xb.addr xb.size true true) xb.addr asize)
        xb.addr true).mem x ≠ s.mem x → (xb.addr ≤ x ∧ x ≤ xb.addr + xb.size) ∨
          ∃ c ∈ l₁ ++ l₂, c.alloc = false ∧ c.addr ≤ x ∧ x < c.addr + c.size := by
  subst heq
  obtain ⟨h₁, h₂, hxs, hxd, hxlt⟩ := h.shape.around
  have hoff : ∀ b ∈ [xb], ∀ j < seglistLength, b.addr ∉ fl j := fun b hb =>
    h.off _ (.inl (by rw [List.mem_singleton.mp hb]))
  rw [splitBlock_writeBlock hxd hxlt hxs hxd le_rfl, if_neg (by omega)]
  set xa : Blk := ⟨xb.addr, xb.size, true⟩
  have hw : ∀ x, (writeBlock s xb.addr xb.size true true).mem x ≠ s.mem x →
      xb.addr ≤ x ∧ x < xb.addr + xb.size := fun x hx => by
    by_contra hout
    exact hx (writeBlock_mem_of_ne hxd hxlt (by omega) (fun h => absurd h (by decide)))
  have h₃ := h.replace .writeBlock writeBlock_freeRoot h₁ h₂
    (show Contig xb.addr [xa] (xb.addr + xb.size) from ⟨rfl, rfl⟩)
    (fun b hb => by rw [List.mem_singleton.mp hb]; exact ⟨hxs, hxd⟩)
    (fun b hb => by rw [List.mem_singleton.mp hb]; exact blockOK_writeBlock hxd hxs hxlt)
    hw hoff (fun _ h => nomatch h) (some (xa.addr + xa.size))
    (fun p hp _ => by
      rw [hpa, withPrev, withPrev, List.mem_singleton] at hp
      subst hp; exact getPrevAlloc_writeBlock hxd hxs hxlt)
    (fun h => absurd rfl h)
  have hX : ∀ z, ((∃ b ∈ [xa], b.alloc = false ∧ b.addr = z) ∨
      (z = xb.addr ∨ False) ∧ (z < xb.addr ∨ xb.addr + xb.size ≤ z)) ↔ False := fun z => by
    refine ⟨?_, False.elim⟩
    rintro (⟨c, hc, hcf, -⟩ | ⟨hX, hout⟩)
    · rw [List.mem_singleton.mp hc] at hcf; exact nomatch hcf
    · simp only [or_false] at hX; omega
  obtain ⟨h₄, hw₄⟩ := (h₃.congrX hX).updateNext (show xa ∈ l₁ ++ [xa] ++ l₂ by simp)
  refine ⟨⟨fl, h₄.heapInv (coalesced_of_place hc₁ hpa
    (coalescedFrom_cons.mpr ⟨fun h => (nomatch h), coalescedFrom_nil _⟩) (coalescedFrom_true hc₂))⟩,
    SameArena.writeBlock.trans .updateNext, fun x hx => ?_⟩
  by_cases hxW : (updateNext (writeBlock s xb.addr xb.size true true) xb.addr true).mem x =
      (writeBlock s xb.addr xb.size true true).mem x
  · have := hw x (hxW ▸ hx); exact .inl ⟨this.1, by omega⟩
  · rcases hw₄ x hxW with h | ⟨h, -⟩
    · exact .inl ⟨by simp only [xa] at h; omega, by simp only [xa] at h; omega⟩
    · exact nomatch h

/-- **Placing** `asize` bytes in the free block `xb`, already off its list:
    `write_block`, `split_block` and `update_next`. The block is split
    exactly when the rest has room for a block, and is otherwise exactly
    `asize` bytes, all sizes being multiples of 16. -/
theorem place_spec (h : Stage s (l₁ ++ [xb] ++ l₂) fl none (fun z => z = xb.addr ∨ False))
    (hxf : xb.alloc = false) (hc₁ : CoalescedFrom true l₁) (hpa : lastAlloc true l₁ = true)
    (hc₂ : CoalescedFrom false l₂) (hle : asize ≤ xb.size) (h16 : 16 ≤ asize)
    (hdvd : asize % 16 = 0) :
    ∃ fl' m, ((16 ≤ xb.size - asize ∧
        m = [⟨xb.addr, asize, true⟩, ⟨xb.addr + asize, xb.size - asize, false⟩]) ∨
        (xb.size = asize ∧ m = [⟨xb.addr, asize, true⟩])) ∧
      HeapInv (updateNext (splitBlock (writeBlock s xb.addr xb.size true true) xb.addr asize)
        xb.addr true) (l₁ ++ m ++ l₂) fl' ∧
      SameArena s (updateNext (splitBlock (writeBlock s xb.addr xb.size true true) xb.addr asize)
        xb.addr true) ∧
      ∀ x, (updateNext (splitBlock (writeBlock s xb.addr xb.size true true) xb.addr asize)
        xb.addr true).mem x ≠ s.mem x → (xb.addr ≤ x ∧ x ≤ xb.addr + xb.size) ∨
          ∃ c ∈ l₁ ++ l₂, c.alloc = false ∧ c.addr ≤ x ∧ x < c.addr + c.size := by
  by_cases hsp : 16 ≤ xb.size - asize
  · obtain ⟨⟨fl', hI⟩, har, hw⟩ := place_split h hxf hc₁ hpa hc₂ h16 hdvd hsp
    exact ⟨fl', _, .inl ⟨hsp, rfl⟩, hI, har, hw⟩
  · have heq : xb.size = asize := by have := h.shape.size_dvd xb (by simp); omega
    obtain ⟨⟨fl', hI⟩, har, hw⟩ := place_whole h hc₁ hpa hc₂ heq
    exact ⟨fl', _, .inr ⟨heq, rfl⟩, hI, har, hw⟩

end Place

/-- What an allocation of `asize` bytes leaves, from the heap `s` of blocks
    `bs` to the heap `t` of blocks `bs'`, grown by `n` bytes: the invariant,
    the new allocated block `B` of exactly `asize` bytes cut from the free
    block of `b` bytes at its address (a block of `bs` when the heap did not
    grow, the last block, up to the new epilogue, when it did), split when the
    rest has room for a block, the free bytes less `asize` and plus the
    growth, the other allocated blocks, and their payloads untouched. -/
structure Allocates (s : St) (bs : List Blk) (asize n : Nat) (t : St) (bs' : List Blk) (B : Blk) :
    Prop where
  inv : ∃ fl', HeapInv t bs' fl'
  mem : B ∈ bs'
  alloc : B.alloc = true
  size : B.size = asize
  arena : SameArena { s with memBrk := s.memBrk + n } t
  bytes : freeBytes bs' + asize = freeBytes bs + n
  live : ∀ c, c ∈ bs' ∧ c.alloc = true ↔ (c ∈ bs ∧ c.alloc = true) ∨ c = B
  fresh : ∀ c ∈ bs, c.alloc = true → c ≠ B
  split : ∃ b, asize ≤ b ∧ (n = 0 → (⟨B.addr, b, false⟩ : Blk) ∈ bs) ∧ (n ≠ 0 → B.addr + b = s.memBrk + n - 8) ∧
    ((16 ≤ b - asize ∧ (⟨B.addr + asize, b - asize, false⟩ : Blk) ∈ bs') ∨ b = asize)
  frame : ∀ c ∈ bs, c.alloc = true → ∀ x, c.addr + 8 ≤ x → x < c.addr + c.size → t.mem x = s.mem x

section Allocate

variable {s : St} {bs : List Blk} {fl : Nat → List Nat} {xb : Blk} {asize : Nat}

/-- The allocation step of `malloc` in a free block `xb` that fits:
    `remove_from_free`, `write_block`, `split_block` and `update_next`. -/
theorem allocate_spec (hI : HeapInv s bs fl) (hxb : xb ∈ bs) (hxf : xb.alloc = false)
    (hle : asize ≤ xb.size) (h16 : 16 ≤ asize) (hdvd : asize % 16 = 0) :
    ∃ bs', Allocates s bs asize 0 (updateNext (splitBlock (writeBlock (removeFromFree s xb.addr) xb.addr
      (getSize (removeFromFree s xb.addr) xb.addr) true true) xb.addr asize) xb.addr true) bs'
      ⟨xb.addr, asize, true⟩ := by
  obtain ⟨l₁, l₂, rfl⟩ := List.append_of_mem hxb
  have hbs : l₁ ++ xb :: l₂ = l₁ ++ [xb] ++ l₂ := by simp
  rw [hbs] at hI ⊢
  have hco := coalescedFrom_append.mp hI.coalesced
  have hco₁ := coalescedFrom_append.mp hco.1
  have hpa : lastAlloc true l₁ = true := (coalescedFrom_cons.mp hco₁.2).1 hxf
  have hc₂ : CoalescedFrom false l₂ := by
    rw [← hxf]; have := hco.2; rwa [lastAlloc_append] at this
  obtain ⟨hst, hw₁⟩ := hI.stage.remove (by simp) hxf (fun h => h)
  have hsz : getSize (removeFromFree s xb.addr) xb.addr = xb.size := (hst.shape.blocks xb (by simp)).size
  rw [hsz]
  obtain ⟨fl', m, hm, hI', har, hw⟩ := place_spec hst hxf hco₁.1 hpa hc₂ hle h16 hdvd
  have hA : ∀ c ∈ m, c.alloc = true → c = ⟨xb.addr, asize, true⟩ := fun c hc hca => by
    rcases hm with ⟨-, rfl⟩ | ⟨-, rfl⟩ <;> simp at hc <;> rcases hc with rfl | rfl <;> first | rfl | exact nomatch hca
  have hAm : (⟨xb.addr, asize, true⟩ : Blk) ∈ m := by rcases hm with ⟨-, rfl⟩ | ⟨-, rfl⟩ <;> simp
  have hS := hI.shape
  obtain ⟨a, e, h₁, ⟨rfl, rfl⟩, h₂⟩ := contig_append3.mp hS.contig
  refine ⟨l₁ ++ m ++ l₂, ⟨⟨fl', hI'⟩, by simp [hAm], rfl, rfl, sameArena_removeFromFree.trans har, ?_,
    fun c => ⟨fun ⟨hc, ha⟩ => ?_, fun h => ?_⟩, fun c hc hca e => ?_,
    ⟨xb.size, hle, fun _ => by rw [← hxf]; simp, fun h => absurd rfl h, ?_⟩,
    fun c hc hca x h1 h2 => ?_⟩⟩
  · rcases hm with ⟨h, rfl⟩ | ⟨h, rfl⟩ <;> simp [freeBytes_append, freeBytes, hxf] <;> omega
  · simp only [List.mem_append] at hc
    rcases hc with (hc | hc) | hc
    · exact .inl ⟨by simp [hc], ha⟩
    · exact .inr (hA c hc ha)
    · exact .inl ⟨by simp [hc], ha⟩
  · rcases h with ⟨hc, ha⟩ | rfl
    · have : c ≠ xb := fun e => by rw [e, hxf] at ha; exact nomatch ha
      simp only [List.mem_append, List.mem_singleton, this, or_false] at hc
      exact ⟨mem_middle_of_mem hc, ha⟩
    · exact ⟨by simp [hAm], rfl⟩
  · rw [hS.eq_of_addr (c := xb) hc (by simp) (by rw [e]), hxf] at hca; exact nomatch hca
  · rcases hm with ⟨h, rfl⟩ | ⟨h, -⟩
    · exact .inl ⟨h, by simp⟩
    · exact .inr h
  · have away : ∀ d ∈ l₁ ++ [xb] ++ l₂, d.alloc = false → ¬ (d.addr ≤ x ∧ x < d.addr + d.size) :=
      fun d hd hdf hdx => by
        rw [hS.unique hc hd ⟨by omega, h2⟩ hdx, hdf] at hca; exact nomatch hca
    have hcx : c ≠ xb := fun e => by rw [e, hxf] at hca; exact nomatch hca
    have hout : x < xb.addr ∨ xb.addr + xb.size < x := by
      simp only [List.mem_append, List.mem_singleton, hcx, or_false] at hc
      rcases hc with hc | hc
      · have := (Contig.bounds h₁).2 c hc; omega
      · have := (Contig.bounds h₂).2 c hc; have := hS.size_ge c (by simp [hc]); omega
    refine (not_not.mp (mt (hw x) ?_)).trans (not_not.mp (mt (hw₁ x) fun ⟨d, hd, hdf, hdx⟩ => away d hd hdf hdx))
    rintro (⟨h3, h4⟩ | ⟨d, hd, hdf, hdx⟩)
    · omega
    · exact away d (mem_middle_of_mem (List.mem_append.mp hd)) hdf hdx

/-- Growing the heap first, then allocating in the grown heap, is an
    allocation from the first heap that grows it. -/
theorem Allocates.grow {s₁ t : St} {bs₁ bs' : List Blk} {B : Blk} {n : Nat} (hS : Shape s bs)
    (har : SameArena { s with memBrk := s.memBrk + n } s₁) (hfb : freeBytes bs₁ = freeBytes bs + n)
    (hlive : ∀ c, c ∈ bs₁ ∧ c.alloc = true ↔ c ∈ bs ∧ c.alloc = true)
    (hw : ∀ x, s₁.mem x ≠ s.mem x → s.memBrk - 8 ≤ x ∨
      ∃ c ∈ bs, c.alloc = false ∧ c.addr ≤ x ∧ x < c.addr + c.size) (hn : n ≠ 0)
    (hlast : ∀ b, (⟨B.addr, b, false⟩ : Blk) ∈ bs₁ → B.addr + b = s.memBrk + n - 8)
    (h : Allocates s₁ bs₁ asize 0 t bs' B) : Allocates s bs asize n t bs' B where
  inv := h.inv
  mem := h.mem
  alloc := h.alloc
  size := h.size
  arena := har.trans h.arena
  bytes := by have := h.bytes; omega
  live c := by rw [h.live, hlive]
  fresh c hc hca := h.fresh c ((hlive c).mpr ⟨hc, hca⟩).1 hca
  split := let ⟨b, hb, hin, _, hsp⟩ := h.split; ⟨b, hb, fun h => absurd h hn, fun _ => hlast b (hin rfl), hsp⟩
  frame c hc hca x h1 h2 := by
    refine (h.frame c ((hlive c).mpr ⟨hc, hca⟩).1 hca x h1 h2).trans (Decidable.byContradiction fun hx => ?_)
    have := hS.bounds hc
    rcases hw x hx with hx | ⟨d, hd, hdf, hdx⟩
    · omega
    · rw [hS.unique hc hd ⟨by omega, h2⟩ hdx, hdf] at hca; exact nomatch hca

end Allocate

/-- Every request, however large, asks for a multiple of 16 of at least 16
    bytes that fits a `size_t`. -/
theorem asizeOf_dvd (size : Nat) : asizeOf size % 16 = 0 ∧ 16 ≤ asizeOf size ∧ asizeOf size < 2 ^ 64 := by
  simp only [asizeOf, roundUp, wsize, dsize, minBlockSize, max_def]
  split <;> omega

section Malloc

variable {s : St} {bs : List Blk} {fl : Nat → List Nat} {size : Nat}

/-- **MALLOC**: on the working invariant, for every nonzero request, either
    no free block fits, `mem_sbrk` refuses and `malloc` returns `NULL` with the
    state unchanged, or it returns the payload of a new block of exactly
    `asizeOf size` bytes, cut from the block `find_fit` chose, or from the
    heap grown by `max asize chunksize` bytes when it found none. -/
theorem malloc_spec (hI : HeapInv s bs fl) (h0 : size ≠ 0) :
    (malloc s size = (s, 0) ∧ findFit s (asizeOf size) = 0 ∧
      s.memMaxAddr < s.memBrk + max (asizeOf size) chunksize) ∨
    ∃ bs' B n, (malloc s size).2 = B.addr + 8 ∧
      (findFit s (asizeOf size) ≠ 0 ∧ n = 0 ∨
        findFit s (asizeOf size) = 0 ∧ n = max (asizeOf size) chunksize) ∧
      Allocates s bs (asizeOf size) n (malloc s size).1 bs' B := by
  have hS := hI.shape
  have hst : s.heapStart ≠ 0 := by rw [hS.start]; have := hS.base_pos; omega
  obtain ⟨hd, h16, hlt⟩ := asizeOf_dvd size
  simp only [malloc, hst, h0, if_false]
  generalize hR : (if findFit s (asizeOf size) = 0 then extendHeap s (max (asizeOf size) chunksize)
    else (s, findFit s (asizeOf size))) = R
  by_cases hf : findFit s (asizeOf size) = 0
  · rw [if_pos hf] at hR
    have hm : max (asizeOf size) chunksize % 16 = 0 ∧ 32 ≤ max (asizeOf size) chunksize ∧
        max (asizeOf size) chunksize < 2 ^ 64 := by simp only [max_def, chunksize]; split <;> omega
    rcases extendHeap_spec hI hm.1 hm.2.1 hm.2.2 with ⟨hno, hext⟩ |
      ⟨l₀, M, fl', hr, hMf, hMs, hI', har, hfb, hlive, hw⟩
    · subst hR; rw [hext]
      exact .inl ⟨by simp, hf, hno⟩
    · subst hR
      have hM : M ∈ l₀ ++ [M] := by simp
      rw [hr, if_neg (hI'.shape.ptr hM).2.2]
      obtain ⟨bs', hA⟩ := allocate_spec hI' hM hMf (le_trans (le_max_left _ _) hMs) h16 hd
      have hlast : ∀ b, (⟨M.addr, b, false⟩ : Blk) ∈ l₀ ++ [M] →
          M.addr + b = s.memBrk + max (asizeOf size) chunksize - 8 := fun b hb => by
        have hsz : b = M.size := congrArg Blk.size (hI'.shape.eq_of_addr hb hM rfl)
        obtain ⟨e, -, rfl, he⟩ := contig_append.mp hI'.shape.contig
        have hend : M.addr + M.size = s.memBrk + max (asizeOf size) chunksize - 8 := by
          have : M.addr + M.size = _ := he; rw [this, har.memBrk]
        omega
      exact .inr ⟨bs', ⟨M.addr, asizeOf size, true⟩, _, rfl, .inr ⟨hf, rfl⟩,
        hA.grow hS har hfb hlive hw (by simp [max_def, chunksize]; split <;> omega) hlast⟩
  · rw [if_neg hf] at hR
    subst hR
    obtain ⟨xb, hxb, hxa, hxf, hle⟩ := (hI.findFit (asizeOf size)).2 hf
    dsimp only
    rw [← hxa] at hf ⊢
    rw [if_neg hf]
    obtain ⟨bs', hA⟩ := allocate_spec hI hxb hxf hle h16 hd
    exact .inr ⟨bs', ⟨xb.addr, asizeOf size, true⟩, 0, rfl, .inl ⟨hf, rfl⟩, hA⟩

/-- `malloc` returns `NULL` only for a zero request, or when no free block
    fits and `mem_sbrk` refuses; it then leaves the state as it was. -/
theorem malloc_null (hI : HeapInv s bs fl) (h : (malloc s size).2 = 0) :
    (malloc s size).1 = s ∧ (size = 0 ∨ findFit s (asizeOf size) = 0 ∧
      s.memMaxAddr < s.memBrk + max (asizeOf size) chunksize) := by
  by_cases h0 : size = 0
  · have hst : s.heapStart ≠ 0 := by rw [hI.shape.start]; have := hI.shape.base_pos; omega
    simp [malloc, h0, hst]
  · rcases malloc_spec hI h0 with ⟨hm, hf, hno⟩ | ⟨bs', B, n, hq, -, -⟩
    · exact ⟨by rw [hm], .inr ⟨hf, hno⟩⟩
    · omega

end Malloc

/-! ## Initialisation -/

/-- A memlib arena before `mm_init`: a 16-aligned base below `2^63`, with
    nothing handed out yet. -/
structure Fresh (s : St) : Prop where
  base_align : s.memStartBrk % 16 = 0
  base_pos : 0 < s.memStartBrk
  brk : s.memBrk = s.memStartBrk
  max_lt : s.memMaxAddr < 2 ^ 63

/-- `Fresh` holds of the arena `freshArena` models. -/
theorem fresh_freshArena : Fresh freshArena := ⟨by decide, by decide, rfl, by decide⟩

section Init

variable {s : St}

/-- **INIT**: a successful `mm_init` on a fresh arena leaves the working
    invariant: the prologue, one free block of `chunksize` bytes, and the
    epilogue. -/
theorem mmInit_spec (hF : Fresh s) (h : (mmInit s).2 = true) : ∃ bs fl, HeapInv (mmInit s).1 bs fl := by
  by_cases hsb : s.memBrk + 16 ≤ s.memMaxAddr
  · set E : St := { ((({ { s with memBrk := s.memBrk + 16 } with freeRoot := fun _ => 0 } : St).store
      s.memBrk (pack 0 true true)).store (s.memBrk + 8) (pack 0 true true)) with heapStart := s.memBrk + 8 }
    have hE : mmInit s = ((extendHeap E chunksize).1, decide ((extendHeap E chunksize).2 ≠ 0)) := by
      simp only [mmInit, memSbrk, wsize, show 2 * 8 < 2 ^ 63 by decide, true_and, if_pos hsb]
    have hpk : E.mem (s.memBrk + 8) = pack 0 true true := store_mem_self
    have h₀ : HeapInv E [] (fun _ => []) := by
      refine ⟨⟨hF.base_align, hF.base_pos, hF.max_lt, hsb,
        show s.memBrk + 8 = s.memStartBrk + 8 by rw [hF.brk], ?_,
        show s.memBrk + 8 = s.memBrk + 16 - 8 by omega, fun _ h => (nomatch h), fun _ h => (nomatch h),
        fun _ h => (nomatch h), ⟨true, by simpa only [show s.memBrk + 16 - 8 = s.memBrk + 8 by omega]⟩⟩,
        ⟨fun _ h => (nomatch h), fun _ => ?_⟩, fun _ h => (nomatch h),
        ⟨fun _ _ => rfl, fun _ _ => trivial, fun _ _ _ h => (nomatch h)⟩,
        ⟨⟨fun _ _ _ h => (nomatch h), fun _ _ => List.nodup_nil⟩, fun _ h => (nomatch h)⟩⟩
      · show E.mem s.memStartBrk = _
        rw [← hF.brk, store_mem_of_ne (by omega)]; exact store_mem_self
      · show getPrevAlloc E (s.memBrk + 16 - 8) = true
        rw [show s.memBrk + 16 - 8 = s.memBrk + 8 by omega]; exact getPrevAlloc_of_pack hpk (by decide)
    rcases extendHeap_spec h₀ (show chunksize % 16 = 0 by decide) (by decide) (by decide) with ⟨-, hx⟩ |
      ⟨l₀, M, fl', -, -, -, hI, -⟩
    · rw [hE, hx] at h; simp at h
    · exact ⟨_, _, by rw [hE]; exact hI⟩
  · simp [mmInit, memSbrk, hsb] at h

end Init

end MmOps
