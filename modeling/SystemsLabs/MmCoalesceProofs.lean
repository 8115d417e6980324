import SystemsLabs.MmOpsProofs

/-! # Coalescing and `free`, on the working invariant

    `free` rewrites a live block as free, pushes it on its list, and lets
    `coalesce_block` merge it with a free neighbour on either side. This file
    proves what that does to a heap satisfying `HeapInv`:

    * **`findPrev_finds_walk_predecessor`** — the boundary-tag decoding that
      every merge with the previous block relies on: `find_prev` returns the
      free block before `b` in the walk, from its mini tag or its footer;
    * **`coalesceBlock_spec`** — the four cases of `coalesce_block`, each a
      `Stage` rewrite of the blocks around the new free block;
    * **`free_spec`** — `free` of a live block keeps `HeapInv`, adds the
      block's bytes to the free bytes, and keeps every other live block and
      its payload. -/

namespace MmOps

open MmCodec MmState St MmLayout MmFreeList

section Decode

variable {s : St} {epi : Nat}

/-- On the walk, a block whose prev-alloc bit is clear is the first one,
    entered with a clear bit, or follows a block `a` of the walk. -/
theorem ImplicitFrom.pred_of_prevAlloc :
    ∀ {x : Nat} {pa : Bool} {l : List Nat}, ImplicitFrom s epi x pa l →
      ∀ {b}, b ∈ l → getPrevAlloc s b = false →
        (b = x ∧ pa = false) ∨
          ∃ l₁ a pa' l₂, l = l₁ ++ a :: b :: l₂ ∧ ImplicitFrom s epi a pa' (a :: b :: l₂)
  | _, _, [], _, _, hb, _ => absurd hb (List.not_mem_nil _)
  | x, pa, y :: l, h, b, hb, hpb => by
      rcases List.mem_cons.mp hb with rfl | hb
      · exact .inl ⟨h.1, h.2.2.2.2.2.1 ▸ h.1 ▸ hpb⟩
      · right
        rcases ImplicitFrom.pred_of_prevAlloc h.tail hb hpb with ⟨rfl, -⟩ | ⟨l₁, a, pa', l₂, rfl, ha⟩
        · obtain _ | ⟨z, l₂⟩ := l
          · exact absurd hb (List.not_mem_nil _)
          · have hz : z = findNext s x := h.tail.1
            obtain rfl := h.1
            exact ⟨[], y, pa, l₂, by rw [hz]; rfl, hz ▸ h⟩
        · exact ⟨y :: l₁, a, pa', l₂, rfl, ha⟩

/-- `find_prev` decodes the boundary tag of the free block before `b`: the
    tagged successor word of a mini block, or the footer of a larger one. -/
theorem findPrev_of_walk {a b : Nat} {pa : Bool} {l : List Nat}
    (h : ImplicitFrom s epi a pa (a :: b :: l)) (hpb : getPrevAlloc s b = false) :
    b = a + getSize s a ∧ getAlloc s a = false ∧ findPrev s b = a ∧
      (getSize s a = 16 → extractMini (s.mem (b - 8)) = true ∧ a = b - 16) ∧
      (getSize s a ≠ 16 → extractMini (s.mem (b - 8)) = false ∧
        extractSize (s.mem (b - 8)) = getSize s a ∧ footerToHeader s (b - 8) = a) := by
  obtain ⟨-, -, hpos, hdvd, -, -, -, hfoot, htag, hb, -, -, -, -, hpa, -⟩ := h
  have hab : b = a + getSize s a := hb
  have haf : getAlloc s a = false := by rw [← hpa, ← hb, hpb]
  have hfp : findPrevFooter b = b - 8 := rfl
  by_cases h16 : getSize s a = 16
  · have ht : extractMini (s.mem (b - 8)) = true := by
      rw [show b - 8 = a + 8 by omega]; exact htag haf h16
    refine ⟨hab, haf, ?_, fun _ => ⟨ht, by omega⟩, fun h => absurd h16 h⟩
    simp only [findPrev, hfp, ht, if_true]; omega
  · have hf : headerToFooter s a = b - 8 := by
      simp only [headerToFooter, wsize, dsize]; omega
    obtain ⟨hsz, hmi⟩ := hfoot haf h16
    rw [hf] at hsz hmi
    have hft : footerToHeader s (b - 8) = a := by
      simp only [footerToHeader, hsz, wsize]; rw [if_pos (by omega)]; omega
    refine ⟨hab, haf, ?_, fun h => absurd h h16, fun _ => ⟨hmi, hsz, hft⟩⟩
    simp only [findPrev, hfp, hmi, hsz, Bool.false_eq_true, if_false, hft]
    rw [if_neg (by omega)]

end Decode

/-- **FIND_PREV**: on the heap walk, every block whose prev-alloc bit is
    clear has a free predecessor in the walk, and `find_prev` returns it. A
    mini predecessor is found from the mini tag at `b - 8`, a larger one from
    its footer; the word read is the predecessor's own last word. -/
theorem findPrev_finds_walk_predecessor {s : St} {l : List Nat}
    (hl : ImplicitFrom s (s.memBrk - 1 - 7) s.heapStart true l) {b : Nat} (hb : b ∈ l)
    (hpb : getPrevAlloc s b = false) :
    ∃ l₁ a l₂, l = l₁ ++ a :: b :: l₂ ∧ findPrev s b = a ∧ a ≠ 0 ∧
      b = a + getSize s a ∧ getAlloc s a = false ∧
      (getSize s a = 16 → extractMini (s.mem (b - 8)) = true ∧ a = b - 16) ∧
      (getSize s a ≠ 16 → extractMini (s.mem (b - 8)) = false ∧
        extractSize (s.mem (b - 8)) = getSize s a ∧ footerToHeader s (b - 8) = a) := by
  rcases ImplicitFrom.pred_of_prevAlloc hl hb hpb with ⟨-, h⟩ | ⟨l₁, a, pa, l₂, rfl, ha⟩
  · exact absurd h (by decide)
  · obtain ⟨hab, haf, hfp, hmini, hlarge⟩ := findPrev_of_walk ha hpb
    exact ⟨l₁, a, l₂, rfl, hfp, by have := ha.2.1; omega, hab, haf, hmini, hlarge⟩

set_option maxRecDepth 4000 in
/-- After `mm_init`, two `malloc(100)` and a `free` of the first, the second
    block follows a free 112-byte block. -/
theorem findPrev_after_free_first :
    ImplicitFrom (free (malloc (malloc (mmInit freshArena).1 100).1 100).1 (2 ^ 35 + 16))
        ((free (malloc (malloc (mmInit freshArena).1 100).1 100).1 (2 ^ 35 + 16)).memBrk - 1 - 7)
        (free (malloc (malloc (mmInit freshArena).1 100).1 100).1 (2 ^ 35 + 16)).heapStart true
        [2 ^ 35 + 8, 2 ^ 35 + 120, 2 ^ 35 + 232] ∧
      getPrevAlloc (free (malloc (malloc (mmInit freshArena).1 100).1 100).1 (2 ^ 35 + 16))
        (2 ^ 35 + 120) = false ∧
      ∃ l₁ a l₂, [2 ^ 35 + 8, 2 ^ 35 + 120, 2 ^ 35 + 232] = l₁ ++ a :: (2 ^ 35 + 120) :: l₂ ∧
        findPrev (free (malloc (malloc (mmInit freshArena).1 100).1 100).1 (2 ^ 35 + 16))
          (2 ^ 35 + 120) = a := by
  have hl : ImplicitFrom (free (malloc (malloc (mmInit freshArena).1 100).1 100).1 (2 ^ 35 + 16))
      ((free (malloc (malloc (mmInit freshArena).1 100).1 100).1 (2 ^ 35 + 16)).memBrk - 1 - 7)
      (free (malloc (malloc (mmInit freshArena).1 100).1 100).1 (2 ^ 35 + 16)).heapStart true
      [2 ^ 35 + 8, 2 ^ 35 + 120, 2 ^ 35 + 232] := by decide
  have hp : getPrevAlloc (free (malloc (malloc (mmInit freshArena).1 100).1 100).1 (2 ^ 35 + 16))
      (2 ^ 35 + 120) = false := by decide
  obtain ⟨l₁, a, l₂, h, hf, -⟩ := findPrev_finds_walk_predecessor hl (by simp) hp
  exact ⟨hl, hp, l₁, a, l₂, h, hf⟩

/-- What coalescing the free block `xb` of `l₁ ++ [xb] ++ l₂` leaves: the
    blocks around it, the merged free block `M` that contains it, and the
    invariant's parts with the header after `M` as the one stale bit. -/
def Coalesces (s : St) (l₁ : List Blk) (xb : Blk) (l₂ : List Blk) (r : St × Nat) : Prop :=
  ∃ (l₀ l₃ : List Blk) (M : Blk) (fl' : Nat → List Nat),
    (l₁ = l₀ ∨ ∃ pb : Blk, pb.alloc = false ∧ l₁ = l₀ ++ [pb]) ∧
    (l₂ = l₃ ∨ ∃ nb : Blk, nb.alloc = false ∧ l₂ = nb :: l₃) ∧
    r.2 = M.addr ∧ M.alloc = false ∧ M.addr ≤ xb.addr ∧ xb.addr + xb.size ≤ M.addr + M.size ∧
    Stage r.1 (l₀ ++ [M] ++ l₃) fl' (some (M.addr + M.size)) (fun _ => False) ∧
    CoalescedFrom true (l₀ ++ [M] ++ l₃) ∧ SameArena s r.1 ∧
    freeBytes (l₀ ++ [M] ++ l₃) = freeBytes (l₁ ++ [xb] ++ l₂) ∧
    ∀ x, r.1.mem x ≠ s.mem x →
      ∃ c ∈ l₁ ++ [xb] ++ l₂, c.alloc = false ∧ c.addr ≤ x ∧ x < c.addr + c.size

theorem freeBytes_of_free : ∀ {m : List Blk}, (∀ b ∈ m, b.alloc = false) →
    freeBytes m = (m.map Blk.size).sum
  | [], _ => rfl
  | b :: m, h => by
      rw [freeBytes, freeBytes_of_free fun c hc => h c (List.mem_cons_of_mem _ hc),
        h b (List.mem_cons_self _ _)]
      simp

section Coalesce

variable {s s₃ : St} {l₁ l₂ l₀ m l₃ : List Blk} {xb : Blk} {fl : Nat → List Nat}
  {skip : Option Nat} {a e : Nat}

/-- The common tail of the three merging cases of `coalesce_block`: the
    blocks `m` around `xb`, all free and now off the lists, become one. -/
theorem coalesce_tail (h : Stage s₃ (l₀ ++ m ++ l₃) fl skip (fun z => ∃ b ∈ m, b.addr = z))
    (h₁ : Contig s₃.heapStart l₀ a) (hm : Contig a m e) (h₂ : Contig e l₃ (s₃.memBrk - 8))
    (hxm : xb ∈ m) (hmf : ∀ b ∈ m, b.alloc = false)
    (hc₀ : CoalescedFrom true l₀) (hpa : lastAlloc true l₀ = true) (hc₃ : CoalescedFrom false l₃)
    (hsk : ∀ y, skip = some y → a ≤ y ∧ y ≤ e)
    (hbs : l₁ ++ [xb] ++ l₂ = l₀ ++ m ++ l₃)
    (hl₁ : l₁ = l₀ ∨ ∃ pb : Blk, pb.alloc = false ∧ l₁ = l₀ ++ [pb])
    (hl₂ : l₂ = l₃ ∨ ∃ nb : Blk, nb.alloc = false ∧ l₂ = nb :: l₃)
    (har : SameArena s s₃)
    (hw : ∀ x, s₃.mem x ≠ s.mem x →
      ∃ c ∈ l₀ ++ m ++ l₃, c.alloc = false ∧ c.addr ≤ x ∧ x < c.addr + c.size) :
    Coalesces s l₁ xb l₂ (addToFree (writeBlock s₃ a (e - a) false true) a, a) := by
  have hne : m ≠ [] := List.ne_nil_of_mem hxm
  have hbm := Contig.bounds hm
  obtain ⟨h₅, hw₅⟩ := h.merge h₁ hm h₂ hne (fun b hb => h.off _ ⟨b, hb, rfl⟩) hpa hsk
  have hxs := h.shape.size_ge xb (by simp [hxm])
  refine ⟨l₀, l₃, ⟨a, e - a, false⟩,
    Function.update fl (getSeglistInd (e - a)) (a :: fl (getSeglistInd (e - a))), hl₁, hl₂, rfl, rfl, (hbm.2 xb hxm).1,
    by have := (hbm.2 xb hxm).2; show _ ≤ a + (e - a); omega, ?_, ?_,
    har.trans (SameArena.writeBlock.trans sameArena_addToFree), ?_, fun x hx => ?_⟩
  · show Stage _ _ _ (some (a + (e - a))) _
    rw [show a + (e - a) = e by omega]
    refine h₅.congrX fun z => ⟨fun ⟨⟨b, hb, hbz⟩, hout⟩ => ?_, False.elim⟩
    have := hbm.2 b hb; have := h.shape.size_ge b (by simp [hb]); omega
  · rw [coalescedFrom_append, coalescedFrom_append]
    exact ⟨⟨hc₀, coalescedFrom_cons.mpr ⟨fun _ => hpa, coalescedFrom_nil _⟩⟩,
      by rw [lastAlloc_append]; exact hc₃⟩
  · rw [hbs, freeBytes_append, freeBytes_append, freeBytes_append, freeBytes_append,
      freeBytes_of_free hmf, hm.eq_add_sum]
    simp [freeBytes]
  · rw [hbs]
    by_cases h₃ : s₃.mem x = s.mem x
    · rcases hw₅ x (h₃ ▸ hx) with ⟨h1, h2⟩ | ⟨c, hc, hcf, h1, h2⟩
      · obtain ⟨b, hb, hb'⟩ := hm.cover h1 h2
        exact ⟨b, by simp [hb], hmf b hb, hb'⟩
      · rcases List.mem_append.mp hc with hc | hc
        · exact ⟨c, by simp [hc], hcf, h1, h2⟩
        · exact ⟨c, by simp [hc], hcf, h1, h2⟩
    · exact hw x h₃

theorem coalescedFrom_of_head {pa pa' : Bool} :
    ∀ {l : List Blk}, CoalescedFrom pa l → (∀ c ∈ l.head?, c.alloc = true) → CoalescedFrom pa' l
  | [], _, _ => coalescedFrom_nil _
  | c :: l, h, hc => by
      have hca := hc c rfl
      exact coalescedFrom_cons.mpr ⟨fun h' => absurd hca (by rw [h']; decide),
        (coalescedFrom_cons.mp h).2⟩

/-- Both neighbours allocated: nothing to merge. -/
theorem coalesce_none (h : Stage s (l₁ ++ [xb] ++ l₂) fl skip (fun _ => False))
    (hxf : xb.alloc = false) (hsk : ∀ y, skip = some y → y = xb.addr + xb.size)
    (hc₁ : CoalescedFrom true l₁) (hc₂ : CoalescedFrom true l₂)
    (hp : lastAlloc true l₁ = true) (hn : ∀ c ∈ l₂.head?, c.alloc = true)
    (heq : coalesceBlock s xb.addr = (s, xb.addr)) :
    Coalesces s l₁ xb l₂ (coalesceBlock s xb.addr) := by
  rw [heq]
  refine ⟨l₁, l₂, xb, fl, .inl rfl, .inl rfl, rfl, hxf, le_rfl, le_rfl,
    { h with prev := ?_ }, ?_, .refl s, rfl, fun x hx => absurd rfl hx⟩
  · cases hs : skip with
    | none => exact (hs ▸ h.prev).weaken
    | some y => rw [← hsk y hs]; exact hs ▸ h.prev
  · rw [coalescedFrom_append, coalescedFrom_append]
    exact ⟨⟨hc₁, coalescedFrom_cons.mpr ⟨fun _ => hp, coalescedFrom_nil _⟩⟩,
      coalescedFrom_of_head hc₂ hn⟩

/-- Two list removals in a row change only free blocks' words. -/
theorem foot_trans {s₁ s₂ : St} {bs : List Blk}
    (hw₁ : ∀ x, s₁.mem x ≠ s.mem x → ∃ c ∈ bs, c.alloc = false ∧ c.addr ≤ x ∧ x < c.addr + c.size)
    (hw₂ : ∀ x, s₂.mem x ≠ s₁.mem x → ∃ c ∈ bs, c.alloc = false ∧ c.addr ≤ x ∧ x < c.addr + c.size) :
    ∀ x, s₂.mem x ≠ s.mem x → ∃ c ∈ bs, c.alloc = false ∧ c.addr ≤ x ∧ x < c.addr + c.size :=
  fun x hx => by
    by_cases h₁ : s₁.mem x = s.mem x
    · exact hw₂ x (h₁ ▸ hx)
    · exact hw₁ x h₁

/-- The next block is free: `block` absorbs it. -/
theorem coalesce_next {nb : Blk} (h : Stage s (l₁ ++ [xb] ++ nb :: l₃) fl skip (fun _ => False))
    (hxf : xb.alloc = false) (hnf : nb.alloc = false)
    (hsk : ∀ y, skip = some y → y = xb.addr + xb.size)
    (hc₁ : CoalescedFrom true l₁) (hc₂ : CoalescedFrom true (nb :: l₃))
    (hp : lastAlloc true l₁ = true)
    (heq : coalesceBlock s xb.addr = (addToFree (writeBlock (removeFromFree
      (removeFromFree s nb.addr) xb.addr) xb.addr (nb.size + xb.size) false true) xb.addr, xb.addr)) :
    Coalesces s l₁ xb (nb :: l₃) (coalesceBlock s xb.addr) := by
  rw [heq]
  obtain ⟨a, e, h₁, ⟨rfl, rfl⟩, hnb, h₂⟩ := contig_append3.mp h.shape.contig
  have hxs := h.shape.size_ge xb (by simp); have hns := h.shape.size_ge nb (by simp)
  have hbs : l₁ ++ [xb] ++ nb :: l₃ = l₁ ++ [xb, nb] ++ l₃ := by simp
  obtain ⟨h₁', hw₁⟩ := h.remove (show nb ∈ l₁ ++ [xb] ++ nb :: l₃ by simp) hnf id
  obtain ⟨h₂', hw₂⟩ := h₁'.remove (show xb ∈ l₁ ++ [xb] ++ nb :: l₃ by simp) hxf (by rintro (e | e) <;> [omega; exact e])
  have har : SameArena s (removeFromFree (removeFromFree s nb.addr) xb.addr) :=
    sameArena_removeFromFree.trans sameArena_removeFromFree
  rw [show nb.size + xb.size = nb.addr + nb.size - xb.addr by omega]
  rw [hbs] at h₂' hw₁ hw₂
  refine coalesce_tail (m := [xb, nb]) (h₂'.congrX fun z => ?_) (har.heapStart ▸ h₁)
    ⟨rfl, hnb, by rw [hnb]; rfl⟩ (by rw [har.memBrk, hnb]; exact h₂) (by simp) (by simp [hxf, hnf]) hc₁ hp
    (hnf ▸ (coalescedFrom_cons.mp hc₂).2) ?_ hbs (.inl rfl) (.inr ⟨nb, hnf, rfl⟩) har
    (foot_trans hw₁ hw₂)
  · simp only [List.mem_cons, List.mem_singleton, List.not_mem_nil, or_false, exists_eq_or_imp,
      exists_eq_left]
    omega
  · intro y hy; rw [hsk y hy]; omega

/-- The previous block is free: it absorbs `block`. -/
theorem coalesce_prev {pb : Blk} (h : Stage s (l₀ ++ [pb] ++ [xb] ++ l₂) fl skip (fun _ => False))
    (hxf : xb.alloc = false) (hpf : pb.alloc = false)
    (hsk : ∀ y, skip = some y → y = xb.addr + xb.size)
    (hc₁ : CoalescedFrom true (l₀ ++ [pb])) (hc₂ : CoalescedFrom true l₂)
    (hn : ∀ c ∈ l₂.head?, c.alloc = true)
    (heq : coalesceBlock s xb.addr = (addToFree (writeBlock (removeFromFree
      (removeFromFree s pb.addr) xb.addr) pb.addr (xb.size + pb.size) false true) pb.addr, pb.addr)) :
    Coalesces s (l₀ ++ [pb]) xb l₂ (coalesceBlock s xb.addr) := by
  rw [heq]
  obtain ⟨a, e, h₁, ⟨rfl, rfl⟩, h₂⟩ := contig_append3.mp h.shape.contig
  obtain ⟨a', h₀, hpb, hpe⟩ := contig_append.mp h₁
  have hxs := h.shape.size_ge xb (by simp); have hps := h.shape.size_ge pb (by simp)
  have hbs : l₀ ++ [pb] ++ [xb] ++ l₂ = l₀ ++ [pb, xb] ++ l₂ := by simp
  obtain ⟨h₁', hw₁⟩ := h.remove (show pb ∈ _ by simp) hpf id
  obtain ⟨h₂', hw₂⟩ := h₁'.remove (show xb ∈ _ by simp) hxf (by
    rintro (e | e)
    · have : xb.addr = pb.addr + pb.size := by rw [hpb]; exact hpe.symm
      omega
    · exact e)
  have har : SameArena s (removeFromFree (removeFromFree s pb.addr) xb.addr) :=
    sameArena_removeFromFree.trans sameArena_removeFromFree
  have hc₀ := coalescedFrom_append.mp hc₁
  rw [show xb.size + pb.size = xb.addr + xb.size - pb.addr by
    have : xb.addr = pb.addr + pb.size := by rw [hpb]; exact hpe.symm
    omega]
  rw [hbs] at h₂' hw₁ hw₂
  refine coalesce_tail (m := [pb, xb]) (h₂'.congrX fun z => ?_) (har.heapStart ▸ hpb ▸ h₀)
    ⟨rfl, by rw [hpb]; exact hpe.symm, by rw [← hpe, ← hpb]; rfl⟩ (har.memBrk ▸ h₂) (by simp)
    (by simp [hxf, hpf]) hc₀.1
    ((coalescedFrom_cons.mp hc₀.2).1 hpf) (coalescedFrom_of_head hc₂ hn) ?_ hbs
    (.inr ⟨pb, hpf, rfl⟩) (.inl rfl) har (foot_trans hw₁ hw₂)
  · simp only [List.mem_cons, List.mem_singleton, List.not_mem_nil, or_false, exists_eq_or_imp,
      exists_eq_left]
    omega
  · intro y hy; rw [hsk y hy]
    have : xb.addr = pb.addr + pb.size := by rw [hpb]; exact hpe.symm
    omega

/-- Both neighbours are free: the previous block absorbs `block` and the next one. -/
theorem coalesce_both {pb nb : Blk}
    (h : Stage s (l₀ ++ [pb] ++ [xb] ++ nb :: l₃) fl skip (fun _ => False))
    (hxf : xb.alloc = false) (hpf : pb.alloc = false) (hnf : nb.alloc = false)
    (hsk : ∀ y, skip = some y → y = xb.addr + xb.size)
    (hc₁ : CoalescedFrom true (l₀ ++ [pb])) (hc₂ : CoalescedFrom true (nb :: l₃))
    (heq : coalesceBlock s xb.addr = (addToFree (writeBlock (removeFromFree (removeFromFree
      (removeFromFree s pb.addr) nb.addr) xb.addr) pb.addr (pb.size + xb.size + nb.size) false true)
        pb.addr, pb.addr)) :
    Coalesces s (l₀ ++ [pb]) xb (nb :: l₃) (coalesceBlock s xb.addr) := by
  rw [heq]
  obtain ⟨a, e, h₁, ⟨rfl, rfl⟩, hnb, h₂⟩ := contig_append3.mp h.shape.contig
  obtain ⟨a', h₀, hpb, hpe⟩ := contig_append.mp h₁
  have hxp : xb.addr = pb.addr + pb.size := by rw [hpb]; exact hpe.symm
  have hxs := h.shape.size_ge xb (by simp); have hps := h.shape.size_ge pb (by simp)
  have hns := h.shape.size_ge nb (by simp)
  have hbs : l₀ ++ [pb] ++ [xb] ++ nb :: l₃ = l₀ ++ [pb, xb, nb] ++ l₃ := by simp
  obtain ⟨h₁', hw₁⟩ := h.remove (show pb ∈ _ by simp) hpf id
  obtain ⟨h₂', hw₂⟩ := h₁'.remove (show nb ∈ _ by simp) hnf (by rintro (e | e) <;> [omega; exact e])
  obtain ⟨h₃', hw₃⟩ := h₂'.remove (show xb ∈ _ by simp) hxf (by
    rintro (e | e | e) <;> [omega; omega; exact e])
  have har : SameArena s (removeFromFree (removeFromFree (removeFromFree s pb.addr) nb.addr) xb.addr) :=
    sameArena_removeFromFree.trans (sameArena_removeFromFree.trans sameArena_removeFromFree)
  have hc₀ := coalescedFrom_append.mp hc₁
  rw [show pb.size + xb.size + nb.size = nb.addr + nb.size - pb.addr by omega]
  rw [hbs] at h₃' hw₁ hw₂ hw₃
  refine coalesce_tail (m := [pb, xb, nb]) (h₃'.congrX fun z => ?_) (har.heapStart ▸ hpb ▸ h₀)
    ⟨rfl, hxp, by rw [hnb, hxp], by rw [hnb, hxp]; rfl⟩ (by rw [har.memBrk, hnb]; exact h₂) (by simp)
    (by simp [hxf, hpf, hnf]) hc₀.1 ((coalescedFrom_cons.mp hc₀.2).1 hpf)
    (hnf ▸ (coalescedFrom_cons.mp hc₂).2) ?_ hbs (.inr ⟨pb, hpf, rfl⟩) (.inr ⟨nb, hnf, rfl⟩) har
    (foot_trans (foot_trans hw₁ hw₂) hw₃)
  · simp only [List.mem_cons, List.mem_singleton, List.not_mem_nil, or_false, exists_eq_or_imp,
      exists_eq_left]
    omega
  · intro y hy; rw [hsk y hy]; omega

theorem lastAlloc_eq_false {l : List Blk} (h : lastAlloc true l = false) :
    ∃ l₀ pb, l = l₀ ++ [pb] ∧ pb.alloc = false := by
  cases l using List.reverseRecOn with
  | nil => exact absurd h (by decide)
  | append_singleton l₀ pb _ => exact ⟨l₀, pb, rfl, by rw [lastAlloc_append] at h; exact h⟩

/-- **COALESCE**: `coalesce_block` on a free, listed block whose neighbours
    are coalesced, with at most the header after it stale. -/
theorem coalesceBlock_spec (h : Stage s (l₁ ++ [xb] ++ l₂) fl skip (fun _ => False))
    (hxf : xb.alloc = false) (hsk : ∀ y, skip = some y → y = xb.addr + xb.size)
    (hc₁ : CoalescedFrom true l₁) (hc₂ : CoalescedFrom true l₂) :
    Coalesces s l₁ xb l₂ (coalesceBlock s xb.addr) := by
  have hS := h.shape
  obtain ⟨a, e, h₁, ⟨rfl, rfl⟩, h₂⟩ := contig_append3.mp hS.contig
  have hxb : xb ∈ l₁ ++ [xb] ++ l₂ := by simp
  have hxs := hS.size_ge xb hxb
  have hsize : getSize s xb.addr = xb.size := (hS.blocks xb hxb).size
  have hpa0 : getPrevAlloc s xb.addr = lastAlloc true l₁ :=
    h.prev.bits (xb, lastAlloc true l₁) (by rw [withPrev_append, withPrev_append]; simp [withPrev])
      fun e => by have := hsk _ e.symm; dsimp only at this; omega
  have hnext : findNext s xb.addr = xb.addr + xb.size := by rw [findNext, hsize]
  have hna : getAlloc s (xb.addr + xb.size) = (l₂.head?.map Blk.alloc).getD true := by
    cases l₂ with
    | nil =>
      obtain ⟨pa, he⟩ := hS.epilogue
      rw [show xb.addr + xb.size = s.memBrk - 8 from h₂, getAlloc, he, extractAlloc_pack (by decide)]
      rfl
    | cons nb l₃ => rw [← h₂.1]; exact (hS.blocks nb (by simp)).alloc
  have hlisted : ∀ {b : Blk}, b ∈ l₁ ++ [xb] ++ l₂ → b.alloc = false →
      ∃ i < seglistLength, b.addr ∈ fl i := fun hb hbf =>
    ⟨_, getSeglistInd_lt _, h.complete _ hb hbf id⟩
  cases hp : lastAlloc true l₁ <;> cases hn : (l₂.head?.map Blk.alloc).getD true
  · -- both neighbours free
    obtain ⟨l₀, pb, rfl, hpf⟩ := lastAlloc_eq_false hp
    obtain ⟨nb, l₃, rfl, hnf⟩ : ∃ nb l₃, l₂ = nb :: l₃ ∧ nb.alloc = false := by
      cases l₂ with
      | nil => exact absurd hn (by decide)
      | cons nb l₃ => exact ⟨nb, l₃, rfl, hn⟩
    obtain ⟨_, _, hpa, hpe⟩ := contig_append.mp h₁
    have hpb : pb ∈ l₀ ++ [pb] ++ [xb] ++ nb :: l₃ := by simp
    have hnb : nb ∈ l₀ ++ [pb] ++ [xb] ++ nb :: l₃ := by simp
    have hxp : xb.addr = pb.addr + pb.size := by rw [hpa]; exact hpe.symm
    have hprev : findPrev s xb.addr = pb.addr := by
      rw [hxp]; exact findPrev_eq hS h.lists hpb hpf (hlisted hpb hpf)
    refine coalesce_both h hxf hpf hnf hsk hc₁ hc₂ ?_
    simp only [coalesceBlock, hpa0.trans hp, hnext, ← h₂.1, (hS.blocks nb hnb).alloc, hnf, hprev,
      hsize, (hS.blocks pb hpb).size, (hS.blocks nb hnb).size, Bool.not_false, Bool.and_self,
      if_true]
  · -- the previous block free, the next allocated
    obtain ⟨l₀, pb, rfl, hpf⟩ := lastAlloc_eq_false hp
    obtain ⟨_, _, hpa, hpe⟩ := contig_append.mp h₁
    have hpb : pb ∈ l₀ ++ [pb] ++ [xb] ++ l₂ := by simp
    have hxp : xb.addr = pb.addr + pb.size := by rw [hpa]; exact hpe.symm
    have hprev : findPrev s xb.addr = pb.addr := by
      rw [hxp]; exact findPrev_eq hS h.lists hpb hpf (hlisted hpb hpf)
    refine coalesce_prev h hxf hpf hsk hc₁ hc₂ (fun c hc => by rw [hc] at hn; exact hn) ?_
    simp only [coalesceBlock, hpa0.trans hp, hnext, hna.trans hn, hprev, hsize,
      (hS.blocks pb hpb).size, Bool.not_false, Bool.not_true, Bool.false_and, Bool.false_eq_true,
      if_false, if_true]
  · -- the previous block allocated, the next free
    obtain ⟨nb, l₃, rfl, hnf⟩ : ∃ nb l₃, l₂ = nb :: l₃ ∧ nb.alloc = false := by
      cases l₂ with
      | nil => exact absurd hn (by decide)
      | cons nb l₃ => exact ⟨nb, l₃, rfl, hn⟩
    have hnb : nb ∈ l₁ ++ [xb] ++ nb :: l₃ := by simp
    refine coalesce_next h hxf hnf hsk hc₁ hc₂ hp ?_
    simp only [coalesceBlock, hpa0.trans hp, hnext, ← h₂.1, (hS.blocks nb hnb).alloc, hnf, hsize,
      (hS.blocks nb hnb).size, Bool.not_false, Bool.not_true, Bool.and_false, Bool.and_true,
      Bool.false_eq_true, if_false, if_true]
  · -- both neighbours allocated
    refine coalesce_none h hxf hsk hc₁ hc₂ hp (fun c hc => by rw [hc] at hn; exact hn) ?_
    simp only [coalesceBlock, hpa0.trans hp, hnext, hna.trans hn, Bool.not_true, Bool.and_false,
      Bool.false_eq_true, if_false]

/-- The blocks a coalescing keeps allocated are those it found allocated. -/
theorem live_of_merge {M : Blk} (hl₁ : l₁ = l₀ ∨ ∃ pb : Blk, pb.alloc = false ∧ l₁ = l₀ ++ [pb])
    (hl₂ : l₂ = l₃ ∨ ∃ nb : Blk, nb.alloc = false ∧ l₂ = nb :: l₃)
    (hMf : M.alloc = false) (hxf : xb.alloc = false) (c : Blk) :
    c ∈ l₀ ++ [M] ++ l₃ ∧ c.alloc = true ↔ c ∈ l₁ ++ [xb] ++ l₂ ∧ c.alloc = true := by
  refine and_congr_left fun hc => ?_
  have ne : ∀ {b : Blk}, b.alloc = false → c ≠ b := fun hb e => by rw [e, hb] at hc; exact nomatch hc
  have h₁ : c ∈ l₁ ↔ c ∈ l₀ := by
    rcases hl₁ with rfl | ⟨pb, hpf, rfl⟩
    · rfl
    · simp [ne hpf]
  have h₂ : c ∈ l₂ ↔ c ∈ l₃ := by
    rcases hl₂ with rfl | ⟨nb, hnf, rfl⟩
    · rfl
    · simp [ne hnf]
  simp [ne hMf, ne hxf, h₁, h₂]

/-- The allocated blocks a coalescing keeps. -/
theorem Coalesces.alloc_iff {r : St × Nat} (h : Coalesces s l₁ xb l₂ r) (hxf : xb.alloc = false) :
    ∃ (l₀ l₃ : List Blk) (M : Blk) (fl' : Nat → List Nat),
      r.2 = M.addr ∧ M.alloc = false ∧
      Stage r.1 (l₀ ++ [M] ++ l₃) fl' (some (M.addr + M.size)) (fun _ => False) ∧
      CoalescedFrom true (l₀ ++ [M] ++ l₃) ∧ SameArena s r.1 ∧
      freeBytes (l₀ ++ [M] ++ l₃) = freeBytes (l₁ ++ [xb] ++ l₂) ∧
      (∀ c, c ∈ l₀ ++ [M] ++ l₃ ∧ c.alloc = true ↔ c ∈ l₁ ++ [xb] ++ l₂ ∧ c.alloc = true) ∧
      ∀ x, r.1.mem x ≠ s.mem x →
        ∃ c ∈ l₁ ++ [xb] ++ l₂, c.alloc = false ∧ c.addr ≤ x ∧ x < c.addr + c.size := by
  obtain ⟨l₀, l₃, M, fl', hl₁, hl₂, hr, hMf, -, -, hst, hco, har, hfb, hw⟩ := h
  exact ⟨l₀, l₃, M, fl', hr, hMf, hst, hco, har, hfb, live_of_merge hl₁ hl₂ hMf hxf, hw⟩

end Coalesce

section Free

variable {s : St} {bs : List Blk} {fl : Nat → List Nat} {xb : Blk}

/-- A block of `l₁` or `l₂` is a block of `l₁ ++ m ++ l₂`, whatever `m`. -/
theorem mem_middle_of_mem {c : Blk} {l₁ m l₂ : List Blk} (h : c ∈ l₁ ∨ c ∈ l₂) : c ∈ l₁ ++ m ++ l₂ :=
  List.mem_append.mpr (h.imp_left (List.mem_append_left _))

/-- **FREE**: `free` of a live block keeps the invariant, adds the block's
    bytes to the free bytes, keeps every other live block and its payload,
    and leaves the arena as it was. -/
theorem free_spec (hI : HeapInv s bs fl) (hxb : xb ∈ bs) (hxa : xb.alloc = true) :
    ∃ bs' fl', HeapInv (free s (xb.addr + 8)) bs' fl' ∧ SameArena s (free s (xb.addr + 8)) ∧
      freeBytes bs' = freeBytes bs + xb.size ∧
      (∀ c, c ∈ bs' ∧ c.alloc = true ↔ c ∈ bs ∧ c.alloc = true ∧ c ≠ xb) ∧
      ∀ c ∈ bs, c.alloc = true → c ≠ xb → ∀ x, c.addr + 8 ≤ x → x < c.addr + c.size →
        (free s (xb.addr + 8)).mem x = s.mem x := by
  obtain ⟨l₁, l₂, rfl⟩ := List.append_of_mem hxb
  have hbs : l₁ ++ xb :: l₂ = l₁ ++ [xb] ++ l₂ := by simp
  rw [hbs] at hI ⊢
  have hS := hI.shape
  obtain ⟨a, e, h₁, ⟨rfl, rfl⟩, h₂⟩ := contig_append3.mp hS.contig
  have hxb' : xb ∈ l₁ ++ [xb] ++ l₂ := by simp
  have hxs := hS.size_ge xb hxb'; have hxd := hS.size_dvd xb hxb'
  have hxlt : xb.size < 2 ^ 64 := by
    have := hS.bounds hxb'; have := hS.epi_lt; omega
  have hsz : getSize s xb.addr = xb.size := (hS.blocks xb hxb').size
  have hpa : getPrevAlloc s xb.addr = lastAlloc true l₁ :=
    hI.prev.bits (xb, lastAlloc true l₁) (by rw [withPrev_append, withPrev_append]; simp [withPrev])
      (by simp)
  set xb' : Blk := ⟨xb.addr, xb.size, false⟩
  have hw₁ : ∀ x, (writeBlock s xb.addr xb.size false (lastAlloc true l₁)).mem x ≠ s.mem x →
      xb.addr ≤ x ∧ x < xb.addr + xb.size := fun x hx => by
    by_contra h
    exact hx (writeBlock_mem_of_ne hxd hxlt (by omega) fun _ _ => by omega)
  have hst₁ := hI.stage.replace .writeBlock writeBlock_freeRoot h₁ h₂
    (show Contig _ [xb'] _ from ⟨rfl, rfl⟩) (fun b hb => by rw [List.mem_singleton.mp hb]; exact ⟨hxs, hxd⟩)
    (fun b hb => by rw [List.mem_singleton.mp hb]; exact blockOK_writeBlock hxd hxs hxlt) hw₁
    (fun b hb j hj hbj => by
      obtain ⟨c, hc, hca, hcf, -⟩ := hI.couple.mem j hj _ hbj
      rw [List.mem_singleton.mp hb] at hca
      rw [hS.eq_of_addr hc hxb' hca, hxa] at hcf; exact absurd hcf (by decide))
    (fun y hy => nomatch hy) (some (xb.addr + xb.size))
    (fun p hp _ => by
      obtain rfl : p = (xb', lastAlloc true l₁) := List.mem_singleton.mp hp
      exact getPrevAlloc_writeBlock hxd hxs hxlt)
    (fun h => absurd rfl h)
  obtain ⟨hst₂, hw₂⟩ := hst₁.push (show xb' ∈ _ by simp) rfl (.inl ⟨xb', by simp, rfl, rfl⟩)
  have hco := coalescedFrom_append.mp (coalescedFrom_append.mp hI.coalesced).1
  have hc₂ : CoalescedFrom true l₂ := by
    have := (coalescedFrom_append.mp hI.coalesced).2
    rw [lastAlloc_append] at this
    exact hxa ▸ this
  obtain ⟨l₀, l₃, M, fl₃, hr, hMf, hst₃, hco₃, har₃, hfb₃, halloc₃, hw₃⟩ :=
    (coalesceBlock_spec (hst₂.congrX fun z => ⟨fun ⟨hz, h⟩ => by
      rcases h with ⟨b, hb, -, rfl⟩ | ⟨h, -⟩
      · exact hz (by rw [List.mem_singleton.mp hb])
      · exact h, False.elim⟩) rfl (fun y hy => (Option.some.inj hy).symm) hco.1 hc₂).alloc_iff rfl
  have hM : M ∈ l₀ ++ [M] ++ l₃ := by simp
  obtain ⟨hst₄, hw₄⟩ := hst₃.updateNext hM
  simp only [free, payloadToHeader, wsize, show xb.addr + 8 - 8 = xb.addr by omega,
    show xb.addr + 8 ≠ 0 by omega, if_false, hsz, hpa]
  rw [hMf] at hst₄ hw₄
  rw [hr]
  have hin : ∀ {c}, c ∈ l₁ ++ [xb] ++ l₂ → c ≠ xb → c ∈ l₁ ∨ c ∈ l₂ := fun hc hcx => by
    simpa only [List.mem_append, List.mem_singleton, hcx, or_false] using hc
  have hne : ∀ {c}, c ∈ l₁ ∨ c ∈ l₂ → c ≠ xb := fun hc e => by
    subst e
    rcases hc with hc | hc
    · have := (Contig.bounds h₁).2 _ hc; omega
    · have := (Contig.bounds h₂).2 _ hc; omega
  have halloc : ∀ c, c ∈ l₀ ++ [M] ++ l₃ ∧ c.alloc = true ↔
      c ∈ l₁ ++ [xb] ++ l₂ ∧ c.alloc = true ∧ c ≠ xb := fun c => by
    rw [halloc₃]
    constructor
    · rintro ⟨hc, ha⟩
      have hcx' : c ≠ xb' := fun e => by rw [e] at ha; exact Bool.false_ne_true ha
      have : c ∈ l₁ ∨ c ∈ l₂ := by simpa only [List.mem_append, List.mem_singleton, hcx', or_false] using hc
      exact ⟨mem_middle_of_mem this, ha, hne this⟩
    · rintro ⟨hc, ha, hcx⟩
      exact ⟨mem_middle_of_mem (hin hc hcx), ha⟩
  refine ⟨l₀ ++ [M] ++ l₃, fl₃, hst₄.heapInv hco₃,
    SameArena.writeBlock.trans (sameArena_addToFree.trans (har₃.trans .updateNext)), ?_, halloc,
    fun c hc hca hcx x h1 h2 => ?_⟩
  · rw [hfb₃]; simp [freeBytes_append, freeBytes, hxa, xb']; omega
  · have hc' := hin hc hcx
    have hc₁ : c ∈ l₁ ++ [xb'] ++ l₂ := mem_middle_of_mem hc'
    have hc₃ : c ∈ l₀ ++ [M] ++ l₃ := ((halloc c).mpr ⟨hc, hca, hcx⟩).1
    have away : ∀ {bs₀ : List Blk} {t : St}, Shape t bs₀ → c ∈ bs₀ →
        ¬ ∃ c' ∈ bs₀, c'.alloc = false ∧ c'.addr ≤ x ∧ x < c'.addr + c'.size := by
      rintro bs₀ t hS₀ hc₀ ⟨c', hc', hcf, h3, h4⟩
      rw [hS₀.unique hc₀ hc' ⟨by omega, h2⟩ ⟨h3, h4⟩, hcf] at hca
      exact absurd hca (by decide)
    have e₁ : (writeBlock s xb.addr xb.size false (lastAlloc true l₁)).mem x = s.mem x := by
      by_contra h
      have := hw₁ x h
      rcases hc' with hc' | hc'
      · have := (Contig.bounds h₁).2 _ hc'; omega
      · have := (Contig.bounds h₂).2 _ hc'; omega
    have e₂ := not_not.mp (mt (hw₂ x) (away hst₁.shape hc₁))
    have e₃ := not_not.mp (mt (hw₃ x) (away hst₁.shape hc₁))
    have e₄ : (updateNext (coalesceBlock (addToFree (writeBlock s xb.addr xb.size false
        (lastAlloc true l₁)) xb.addr) xb.addr).1 M.addr false).mem x =
        (coalesceBlock (addToFree (writeBlock s xb.addr xb.size false (lastAlloc true l₁)) xb.addr)
          xb.addr).1.mem x := by
      by_contra h
      rcases hw₄ x h with rfl | ⟨_, h3, h4⟩
      · rcases hst₃.shape.isHeader_end hM with ⟨d, hd, hdM⟩ | hepi
        · have := hst₃.shape.unique hc₃ hd ⟨by omega, h2⟩ ⟨by omega, by have := hst₃.shape.size_ge d hd; omega⟩
          subst this; omega
        · have := hst₃.shape.bounds hc₃; omega
      · exact away hst₃.shape hc₃ ⟨M, hM, hMf, h3, h4⟩
    rw [e₄, e₃, e₂, e₁]

end Free

end MmOps
