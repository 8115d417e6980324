import SystemsLabs.MmMallocProofs
import Mathlib.Tactic.Ring

/-! # Payload writes: `calloc` and `realloc`

    The bytes of the model live in its words, little-endian; `memset` and
    `memcpy` rewrite the bytes of a range one word at a time. The results:

    * **`HeapInv.frame`** — writes past the headers of allocated blocks keep
      the working invariant;
    * **`loadByte_memcpy`** — `memcpy` copies its bytes, and `memcpy_mem`,
      `memset_mem` — it changes no word outside the range;
    * **`calloc_spec`** — within the size contract `calloc` is an allocation
      whose payload it zeroes, and **`calloc_null`** — a `NULL` result leaves
      the state;
    * **`realloc_preserves_contents`** — `realloc` moves a live payload into a
      new block that holds the new size, with its first bytes, freeing the old
      block and keeping every other live payload. -/

namespace MmLayout

open MmCodec MmState St

section Payload

variable {s t : St} {bs : List Blk} {fl : Nat → List Nat}

/-- Writes past the headers of allocated blocks keep the invariant: no
    header, footer or link word lies there. -/
theorem HeapInv.frame (hI : HeapInv s bs fl) (har : SameArena s t) (hroot : t.freeRoot = s.freeRoot)
    (hw : ∀ x, t.mem x ≠ s.mem x → ∃ B ∈ bs, B.alloc = true ∧ B.addr < x ∧ x < B.addr + B.size) :
    HeapInv t bs fl := by
  have hS := hI.shape
  have keep : ∀ x, (∀ B ∈ bs, B.alloc = true → ¬ (B.addr < x ∧ x < B.addr + B.size)) →
      t.mem x = s.mem x := fun x hx => Decidable.byContradiction fun h => by
    obtain ⟨B, hB, hBa, hBx⟩ := hw x h; exact hx B hB hBa hBx
  have hdr : ∀ c ∈ bs, t.mem c.addr = s.mem c.addr := fun c hc => keep _ fun B hB _ hBx => by
    have := hS.size_ge c hc
    have := hS.unique hB hc ⟨by omega, hBx.2⟩ ⟨le_rfl, by omega⟩; subst this; omega
  have hfree : ∀ c ∈ bs, c.alloc = false → ∀ x, c.addr ≤ x → x < c.addr + c.size → t.mem x = s.mem x :=
    fun c hc hcf x h1 h2 => keep _ fun B hB hBa hBx => by
      rw [hS.unique hB hc ⟨by omega, hBx.2⟩ ⟨h1, h2⟩, hcf] at hBa; exact nomatch hBa
  have hepi : t.mem (s.memBrk - 8) = s.mem (s.memBrk - 8) := keep _ fun B hB _ hBx => by
    have := hS.bounds hB; omega
  refine ⟨⟨har.memStartBrk ▸ hS.base_align, har.memStartBrk ▸ hS.base_pos, har.memMaxAddr ▸ hS.max_lt,
    har.memBrk ▸ har.memMaxAddr ▸ hS.brk_le, har.heapStart ▸ har.memStartBrk ▸ hS.start, ?_,
    har.heapStart ▸ har.memBrk ▸ hS.contig, hS.size_ge, hS.size_dvd, fun c hc => ?_, ?_⟩,
    hI.prev.of_mod8 (fun c hc => by rw [hdr c hc]) har.memBrk (by rw [hepi]), hI.coalesced,
    hI.lists.frame hS hI.couple.toListed hroot fun c hc ⟨i, hi, hci⟩ => ?_, hI.couple⟩
  · rw [har.memStartBrk, keep _ fun B hB _ hBx => by
      have := hS.bounds hB; have := hS.start; omega]
    exact hS.prologue
  · have hc' := hS.blocks c hc
    cases hca : c.alloc
    · exact hc'.frame (hS.size_ge c hc) (hfree c hc hca)
    · exact ⟨hdr c hc ▸ hc'.hdr_lt, (getSize_congr (hdr c hc)).trans hc'.size,
        (getAlloc_congr (hdr c hc)).trans hc'.alloc, (getMini_congr (hdr c hc)).trans hc'.mini,
        fun h => absurd (hca ▸ h) (by decide)⟩
  · rw [har.memBrk, hepi]; exact hS.epilogue
  · obtain ⟨b, hb, hba, hbf, -⟩ := hI.couple.mem i hi _ hci
    exact hfree c hc (hS.eq_of_addr hb hc hba ▸ hbf)

end Payload

end MmLayout

namespace MmOps

open MmCodec MmState St MmLayout MmFreeList MmFindFit

section Bytes

/-- A word as the bytes above byte `k`, byte `k`, and the bytes below it. -/
theorem byteOf_decomp {A c r k : Nat} (j : Nat) (hc : c < 256) (hr : r < 256 ^ k) :
    byteOf ((A * 256 + c) * 256 ^ k + r) j =
      if j = k then c else if j < k then byteOf r j else byteOf A (j - k - 1) := by
  have hP : 0 < 256 ^ k := by positivity
  have hdiv : ((A * 256 + c) * 256 ^ k + r) / 256 ^ k = A * 256 + c := by
    rw [Nat.add_comm, Nat.add_mul_div_right _ _ hP, Nat.div_eq_of_lt hr, Nat.zero_add]
  unfold byteOf
  split_ifs with h1 h2
  · subst h1; rw [hdiv]; omega
  · obtain ⟨d, rfl⟩ : ∃ d, k = j + d + 1 := ⟨k - j - 1, by omega⟩
    rw [show (A * 256 + c) * 256 ^ (j + d + 1) + r = r + (A * 256 + c) * 256 ^ d * 256 * 256 ^ j by ring,
      Nat.add_mul_div_right _ _ (by positivity), Nat.add_mul_mod_self_right]
  · obtain ⟨d, rfl⟩ : ∃ d, j = k + d + 1 := ⟨j - k - 1, by omega⟩
    rw [show k + d + 1 - k - 1 = d by omega, show 256 ^ (k + d + 1) = 256 ^ k * 256 * 256 ^ d by ring,
      ← Nat.div_div_eq_div_mul, ← Nat.div_div_eq_div_mul, hdiv,
      show (A * 256 + c) / 256 = A by omega]

theorem byteOf_lt (w k : Nat) : byteOf w k < 256 := Nat.mod_lt _ (by decide)

/-- A word as its byte `k` and the rest, before and after `setByte`. -/
theorem setByte_decomp (w k v : Nat) :
    w = (w / 256 ^ (k + 1) * 256 + byteOf w k) * 256 ^ k + w % 256 ^ k ∧
      setByte w k v = (w / 256 ^ (k + 1) * 256 + v) * 256 ^ k + w % 256 ^ k := by
  have h₁ : w / 256 ^ k = w / 256 ^ (k + 1) * 256 + byteOf w k := by
    rw [byteOf, pow_succ, ← Nat.div_div_eq_div_mul]; omega
  have h₂ : w = (w / 256 ^ (k + 1) * 256 + byteOf w k) * 256 ^ k + w % 256 ^ k := by
    rw [← h₁]; exact (Nat.div_add_mod' w _).symm
  refine ⟨h₂, ?_⟩
  rw [setByte]
  nth_rewrite 1 [h₂]
  rw [Nat.add_mul, Nat.add_mul]
  omega

theorem byteOf_setByte (w k v j : Nat) (hv : v < 256) :
    byteOf (setByte w k v) j = if j = k then v else byteOf w j := by
  obtain ⟨h₁, h₂⟩ := setByte_decomp w k v
  rw [h₂, byteOf_decomp j hv (Nat.mod_lt _ (by positivity))]
  conv_rhs => rw [h₁, byteOf_decomp j (byteOf_lt w k) (Nat.mod_lt _ (by positivity))]
  split_ifs <;> rfl

variable (P : Nat → Prop) [DecidablePred P]

/-- The byte loop of `memset` and `memcpy`: byte `j` after the first `n`
    byte positions. -/
theorem byteOf_foldl_range (f : Nat → Nat) (hf : ∀ k, f k < 256) (w : Nat) :
    ∀ n j, byteOf ((List.range n).foldl (fun w k => if P k then setByte w k (f k) else w) w) j =
      if j < n ∧ P j then f j else byteOf w j
  | 0, j => by simp
  | n + 1, j => by
    rw [List.range_succ, List.foldl_append, List.foldl_cons, List.foldl_nil]
    by_cases hP : P n
    · rw [if_pos hP, byteOf_setByte _ _ _ _ (hf n), byteOf_foldl_range f hf w n j]
      by_cases hj : j = n
      · subst hj; simp [hP]
      · simp only [hj, if_false, show j < n + 1 ↔ j < n by omega]
    · rw [if_neg hP, byteOf_foldl_range f hf w n j]
      by_cases hj : j = n
      · subst hj; simp [hP]
      · simp only [show j < n + 1 ↔ j < n by omega]

/-- A byte loop that writes no position leaves the word. -/
theorem foldl_range_skip (g : Nat → Nat → Nat) :
    ∀ n w, (∀ k < n, ¬ P k) → (List.range n).foldl (fun w k => if P k then g w k else w) w = w
  | 0, _, _ => rfl
  | n + 1, w, h => by
    rw [List.range_succ, List.foldl_append, List.foldl_cons, List.foldl_nil, if_neg (h n (by omega)),
      foldl_range_skip g n w fun k hk => h k (by omega)]

end Bytes

section MemOps

variable {s : St} {dst src p c n a : Nat}

theorem loadByte_lt (s : St) (a : Nat) : loadByte s a < 256 := byteOf_lt _ _

/-- `memcpy` copies: byte `i < n` at `dst` is byte `i` at `src` before the call. -/
theorem loadByte_memcpy {i : Nat} (hi : i < n) : loadByte (memcpy s dst src n) (dst + i) = loadByte s (src + i) := by
  show byteOf ((memcpy s dst src n).mem _) _ = _
  simp only [memcpy]
  rw [byteOf_foldl_range _ _ (fun k => loadByte_lt s _), if_pos ⟨Nat.mod_lt _ (by decide), by omega, by omega⟩]
  congr 2; omega

/-- `memcpy` changes only the words that share a byte with the destination. -/
theorem memcpy_mem (h : a + 8 ≤ dst ∨ dst + n ≤ a) : (memcpy s dst src n).mem a = s.mem a := by
  simp only [memcpy]; exact foldl_range_skip _ _ 8 _ fun k hk => by omega

/-- `memset` changes only the words that share a byte with the destination. -/
theorem memset_mem (h : a + 8 ≤ p ∨ p + n ≤ a) : (memset s p c n).mem a = s.mem a := by
  simp only [memset]; exact foldl_range_skip _ _ 8 _ fun k hk => by omega

@[simp] theorem memcpy_freeRoot : (memcpy s dst src n).freeRoot = s.freeRoot := rfl
@[simp] theorem memset_freeRoot : (memset s p c n).freeRoot = s.freeRoot := rfl

theorem sameArena_memcpy : SameArena s (memcpy s dst src n) := ⟨rfl, rfl, rfl, rfl⟩
theorem sameArena_memset : SameArena s (memset s p c n) := ⟨rfl, rfl, rfl, rfl⟩

end MemOps

theorem loadByte_congr {s t : St} {a : Nat} (h : t.mem (a - a % 8) = s.mem (a - a % 8)) :
    loadByte t a = loadByte s a := by
  unfold loadByte; rw [h]

section Write

variable {s t t' : St} {bs bs' : List Blk} {B : Blk} {asize n : Nat}

/-- Writes inside the payload of the new block keep an allocation. -/
theorem Allocates.write (h : Allocates s bs asize n t bs' B) (har : SameArena t t')
    (hroot : t'.freeRoot = t.freeRoot) (hw : ∀ x, t'.mem x ≠ t.mem x → B.addr < x ∧ x < B.addr + B.size) :
    Allocates s bs asize n t' bs' B :=
  { h with
    inv := let ⟨fl', hI'⟩ := h.inv; ⟨fl', hI'.frame har hroot fun x hx => ⟨B, h.mem, h.alloc, hw x hx⟩⟩
    arena := h.arena.trans har
    frame := fun c hc hca x h1 h2 => by
      obtain ⟨fl', hI'⟩ := h.inv
      have hc' := ((h.live c).mpr (.inl ⟨hc, hca⟩)).1
      refine (show t'.mem x = t.mem x from Decidable.byContradiction fun hx => ?_).trans
        (h.frame c hc hca x h1 h2)
      have := hw x hx
      exact h.fresh c hc hca (hI'.shape.unique hc' h.mem ⟨by omega, h2⟩ ⟨by omega, this.2⟩) }

end Write

section Calloc

variable {s : St} {bs : List Blk} {fl : Nat → List Nat}

/-- `calloc` returns `NULL` for no elements, on overflow, or when `malloc`
    does, and then leaves the state as it was. -/
theorem calloc_null (hI : HeapInv s bs fl) {n m : Nat} (h : (calloc s n m).2 = 0) : (calloc s n m).1 = s := by
  simp only [calloc] at h ⊢
  split_ifs at h ⊢ with h1 h2 h3
  · rfl
  · rfl
  · exact (malloc_null hI h3).1
  · exact absurd h h3

/-- **CALLOC**: under the size contract, `calloc` either fails and leaves
    the state, or allocates a block that holds the product, whose payload it
    zeroes, keeping every other payload. -/
theorem calloc_spec (hI : HeapInv s bs fl) (n m : Nat) (hle : n * m % 2 ^ 64 ≤ 2 ^ 64 - 24) :
    ((calloc s n m).2 = 0 ∧ (calloc s n m).1 = s) ∨
    ∃ bs' B k, (calloc s n m).2 = B.addr + 8 ∧ n * m % 2 ^ 64 + 8 ≤ B.size ∧
      Allocates s bs (asizeOf (n * m % 2 ^ 64)) k (calloc s n m).1 bs' B := by
  by_cases h : (calloc s n m).2 = 0
  · exact .inl ⟨h, calloc_null hI h⟩
  refine .inr ?_
  simp only [calloc] at h ⊢
  split_ifs at h ⊢ with h1 h2 h3
  · exact absurd rfl h
  · exact absurd rfl h
  · exact absurd rfl h
  have hst : s.heapStart ≠ 0 := by rw [hI.shape.start]; have := hI.shape.base_pos; omega
  rcases malloc_spec hI (show n * m % 2 ^ 64 ≠ 0 from fun h0 => h3 (by rw [h0]; simp [malloc, hst])) with
    ⟨hm, -, -⟩ | ⟨bs', B, k, hq, -, hA⟩
  · exact absurd (by rw [hm]) h3
  have hBs : n * m % 2 ^ 64 + 8 ≤ B.size := hA.size ▸ (asizeOf_spec hle).2.2
  refine ⟨bs', B, k, hq, hBs, hA.write sameArena_memset memset_freeRoot fun x hx => ?_⟩
  by_contra hout
  exact hx (memset_mem (by rw [hq]; omega))

end Calloc

section Realloc

variable {s : St} {bs : List Blk} {fl : Nat → List Nat} {c : Blk} {size : Nat}

/-- `realloc` of a live payload to a size within the contract that does not
    fail: a new block that holds the size, apart from the old one, with the
    old payload's first bytes; the old block freed and every other live
    payload kept. -/
theorem realloc_copies (hI : HeapInv s bs fl) (hc : c ∈ bs) (hca : c.alloc = true) (h0 : 0 < size)
    (hle : size ≤ 2 ^ 64 - 24) (hq : (realloc s (c.addr + 8) size).2 ≠ 0) :
    ∃ bs' fl' B, HeapInv (realloc s (c.addr + 8) size).1 bs' fl' ∧ B ∈ bs' ∧ B.alloc = true ∧
      (realloc s (c.addr + 8) size).2 = B.addr + 8 ∧ B.addr ≠ c.addr ∧ size ≤ B.size - 8 ∧
      (∀ i < min (c.size - 8) size,
        loadByte (realloc s (c.addr + 8) size).1 (B.addr + 8 + i) = loadByte s (c.addr + 8 + i)) ∧
      (∀ d ∈ bs', d.alloc = true → d.addr ≠ c.addr) ∧
      ∀ d ∈ bs, d.alloc = true → d ≠ c → d ∈ bs' ∧
        ∀ x, d.addr + 8 ≤ x → x < d.addr + d.size → (realloc s (c.addr + 8) size).1.mem x = s.mem x := by
  have hp0 : c.addr + 8 ≠ 0 := by omega
  rcases malloc_spec hI (show size ≠ 0 by omega) with ⟨hm, -, -⟩ | ⟨bs₁, B, n, hq', -, hA⟩
  · simp [realloc, hm, hp0, show size ≠ 0 by omega] at hq
  obtain ⟨fl₁, hI₁⟩ := hA.inv
  have hS₁ := hI₁.shape
  have hc₁ : c ∈ bs₁ := ((hA.live c).mpr (.inl ⟨hc, hca⟩)).1
  have hcB : c ≠ B := hA.fresh c hc hca
  have hB := hA.mem
  have hBs : size + 8 ≤ B.size := hA.size ▸ (asizeOf_spec hle).2.2
  have hpay : getPayloadSize (malloc s size).1 c.addr = c.size - 8 := by
    rw [getPayloadSize, (hS₁.blocks c hc₁).size]; rfl
  have hreal : realloc s (c.addr + 8) size =
      (free (memcpy (malloc s size).1 (B.addr + 8) (c.addr + 8) (min (c.size - 8) size)) (c.addr + 8),
        B.addr + 8) := by
    simp only [realloc, payloadToHeader, wsize, show size ≠ 0 by omega, hp0, if_false,
      show c.addr + 8 - 8 = c.addr by omega]
    have hmin : (if size < c.size - 8 then size else c.size - 8) = min (c.size - 8) size := by
      rw [min_def]; split_ifs <;> omega
    rw [hq', if_neg (by omega), hpay, hmin]
  have hcs : min (c.size - 8) size ≤ c.size - 8 ∧ min (c.size - 8) size ≤ size :=
    ⟨min_le_left _ _, min_le_right _ _⟩
  set t₂ := memcpy (malloc s size).1 (B.addr + 8) (c.addr + 8) (min (c.size - 8) size)
  have hw₂ : ∀ x, t₂.mem x ≠ (malloc s size).1.mem x → B.addr < x ∧ x < B.addr + B.size :=
    fun x hx => by by_contra h; exact hx (memcpy_mem (by omega))
  have hI₂ : HeapInv t₂ bs₁ fl₁ :=
    hI₁.frame sameArena_memcpy memcpy_freeRoot fun x hx => ⟨B, hB, hA.alloc, hw₂ x hx⟩
  obtain ⟨bs₂, fl₂, hI₃, -, -, hlive₃, hframe₃⟩ := free_spec hI₂ hc₁ hca
  have hBc : B.addr ≠ c.addr := fun e => hcB (hS₁.eq_of_addr hc₁ hB e.symm)
  have hmB := hS₁.addr_mod hB
  have hmc := hS₁.addr_mod hc₁
  rw [hreal]
  refine ⟨bs₂, fl₂, B, hI₃, ((hlive₃ B).mpr ⟨hB, hA.alloc, Ne.symm hcB⟩).1, hA.alloc, rfl, hBc,
    by omega, fun i hi => ?_, fun d hd hda e => ?_, fun d hd hda hdc => ?_⟩
  · rw [loadByte_congr (hframe₃ B hB hA.alloc (Ne.symm hcB) _ (by omega) (by omega)),
      loadByte_memcpy hi, loadByte_congr (hA.frame c hc hca _ (by omega) (by omega))]
  · obtain ⟨hd₁, -, hdc⟩ := (hlive₃ d).mp ⟨hd, hda⟩
    exact hdc (hS₁.eq_of_addr hd₁ hc₁ e)
  · have hd₁ : d ∈ bs₁ := ((hA.live d).mpr (.inl ⟨hd, hda⟩)).1
    have hdB : d ≠ B := hA.fresh d hd hda
    refine ⟨((hlive₃ d).mpr ⟨hd₁, hda, hdc⟩).1, fun x h1 h2 => ?_⟩
    rw [hframe₃ d hd₁ hda hdc x h1 h2]
    refine (Decidable.byContradiction fun hx => ?_ : t₂.mem x = _).trans (hA.frame d hd hda x h1 h2)
    have := hw₂ x hx
    exact hdB (hS₁.unique hd₁ hB ⟨by omega, h2⟩ ⟨by omega, by omega⟩)

/-- **REALLOC**: on the working invariant, which every state reached within
    the size contract keeps (`reach_heapInv`), for a live payload `p` of a block `c` and
    `0 < size ≤ 2^64 - 24`, a non-`NULL` result is the payload of a new
    allocated block apart from `c` with room for `size` bytes, whose first
    `min (get_size c - 8) size` bytes are those of `p` before the call; `p` is
    no longer live, and every other live payload keeps its block and its
    bytes. `realloc(NULL, size)` is `malloc(size)`, and `realloc(p, 0)` is
    `free(p)` returning `NULL`. -/
theorem realloc_preserves_contents (hI : HeapInv s bs fl) (hc : c ∈ bs) (hca : c.alloc = true)
    (h0 : 0 < size) (hle : size ≤ 2 ^ 64 - 24) :
    ((realloc s (c.addr + 8) size).2 ≠ 0 →
      ∃ bs' fl' B, HeapInv (realloc s (c.addr + 8) size).1 bs' fl' ∧ B ∈ bs' ∧ B.alloc = true ∧
        (realloc s (c.addr + 8) size).2 = B.addr + 8 ∧ B.addr ≠ c.addr ∧ size ≤ B.size - 8 ∧
        (∀ i < min (c.size - 8) size,
          loadByte (realloc s (c.addr + 8) size).1 (B.addr + 8 + i) = loadByte s (c.addr + 8 + i)) ∧
        (∀ d ∈ bs', d.alloc = true → d.addr ≠ c.addr) ∧
        ∀ d ∈ bs, d.alloc = true → d ≠ c → d ∈ bs' ∧
          ∀ x, d.addr + 8 ≤ x → x < d.addr + d.size → (realloc s (c.addr + 8) size).1.mem x = s.mem x) ∧
    (∀ sz, realloc s 0 sz = malloc s sz) ∧ realloc s (c.addr + 8) 0 = (free s (c.addr + 8), 0) := by
  have hst : s.heapStart ≠ 0 := by rw [hI.shape.start]; have := hI.shape.base_pos; omega
  refine ⟨realloc_copies hI hc hca h0 hle, fun sz => ?_, by simp [realloc]⟩
  by_cases hsz : sz = 0
  · simp [realloc, malloc, hsz, hst, free]
  · simp [realloc, hsz]

/-- After `mm_init`, `p = malloc(100)`: `realloc(p, 200)` returns a new block
    holding the 104 bytes of `p`'s payload. -/
theorem realloc_preserves_contents_after_malloc :
    ∃ bs fl c, HeapInv (malloc (mmInit freshArena).1 100).1 bs fl ∧ c ∈ bs ∧ c.alloc = true ∧
      c.addr + 8 = (malloc (mmInit freshArena).1 100).2 ∧ 0 < 200 ∧ 200 ≤ 2 ^ 64 - 24 ∧
      (realloc (malloc (mmInit freshArena).1 100).1 (c.addr + 8) 200).2 ≠ 0 ∧
      ∃ bs' fl' B, HeapInv (realloc (malloc (mmInit freshArena).1 100).1 (c.addr + 8) 200).1 bs' fl' ∧
        B ∈ bs' ∧ B.alloc = true ∧ B.addr ≠ c.addr ∧ 200 ≤ B.size - 8 ∧
        ∀ i < min (c.size - 8) 200,
          loadByte (realloc (malloc (mmInit freshArena).1 100).1 (c.addr + 8) 200).1 (B.addr + 8 + i) =
            loadByte (malloc (mmInit freshArena).1 100).1 (c.addr + 8 + i) := by
  obtain ⟨bs₀, fl₀, hI₀⟩ := mmInit_spec fresh_freshArena (by decide)
  rcases malloc_spec hI₀ (show (100 : Nat) ≠ 0 by decide) with ⟨hm, -⟩ | ⟨bs, B, n, hp, -, hA⟩
  · exact absurd (congrArg Prod.snd hm) (by decide)
  obtain ⟨fl, hI⟩ := hA.inv
  have hq : (realloc (malloc (mmInit freshArena).1 100).1 (B.addr + 8) 200).2 ≠ 0 := by
    rw [← hp]; decide
  obtain ⟨bs', fl', B', h₁, h₂, h₃, -, h₅, h₆, h₇, -⟩ :=
    (realloc_preserves_contents hI hA.mem hA.alloc (show 0 < 200 by decide) (by decide)).1 hq
  exact ⟨bs, fl, B, hI, hA.mem, hA.alloc, hp.symm, by decide, by decide, hq,
    bs', fl', B', h₁, h₂, h₃, h₅, h₆, h₇⟩

/-- `realloc` of a live payload to a nonzero size returns `NULL` only when
    its `malloc` does, and then leaves the state as it was. -/
theorem realloc_null (hI : HeapInv s bs fl) {p : Nat} (hp : p ≠ 0) (hsz : size ≠ 0)
    (h : (realloc s p size).2 = 0) : (realloc s p size).1 = s := by
  simp only [realloc, hsz, hp, if_false] at h ⊢
  split_ifs at h ⊢ with h3
  · exact (malloc_null hI h3).1
  all_goals exact absurd h h3

end Realloc

end MmOps
