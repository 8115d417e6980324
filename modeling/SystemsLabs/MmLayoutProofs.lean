import SystemsLabs.MmStateProofs

/-! # What a well-formed heap is

    Two statements of the allocator's invariant, and the bridge between them.

    * The CHECKER-LEVEL invariants, in the words of the source's own checks:
      `InvImpl` (the implicit list reached by `find_next` from `heap_start`
      tiles the arena up to the epilogue, with consistent tags) and `InvFree`
      (each of the fifteen lists, followed by `get_next_free`, is a finite
      duplicate-free chain whose back pointers agree, holding exactly the free
      blocks of its size class).
    * The WORKING invariant `HeapInv s bs fl`, over an abstract heap: the
      blocks `bs : List Blk` in address order and the free lists
      `fl : Nat → List Nat`. It is split by what each part reads: `Shape`
      (the arena, headers and footers), `PrevOK` (the prev-alloc bits, which
      an operation may leave stale at one header until `update_next`),
      `Coalesced` (pure), `Lists` (the link words) and `Couple` (pure: the
      lists hold exactly the free blocks). -/

namespace MmLayout

open MmCodec MmState St

/-! ## The checker-level invariants -/

/-- `ImplicitFrom s epi block pa l`: walking the implicit list with
    `find_next` from `block`, whose predecessor's allocated bit is `pa`, visits
    exactly the headers `l` and then reaches the epilogue at `epi`, with every
    tag `mm.c` keeps consistent on the way. -/
def ImplicitFrom (s : St) (epi : Nat) : Nat → Bool → List Nat → Prop
  | block, pa, [] => block = epi ∧ getSize s epi = 0 ∧ getPrevAlloc s epi = pa
  | block, pa, b :: l =>
    b = block ∧ block % 16 = 8 ∧ 0 < getSize s block ∧ getSize s block % 16 = 0 ∧
    getMini s block = decide (getSize s block = 16) ∧ getPrevAlloc s block = pa ∧
    (getAlloc s block = false → pa = true) ∧
    (getAlloc s block = false → getSize s block ≠ 16 →
      extractSize (s.mem (headerToFooter s block)) = getSize s block ∧
      extractMini (s.mem (headerToFooter s block)) = false) ∧
    (getAlloc s block = false → getSize s block = 16 → extractMini (s.mem (block + 8)) = true) ∧
    ImplicitFrom s epi (findNext s block) (getAlloc s block) l

/-- The implicit-list invariant: from `heap_start` the walk reaches the epilogue
    at `mem_heap_hi() - 7`, the first block counting as preceded by an
    allocated one. -/
def InvImpl (s : St) : Prop := ∃ l, ImplicitFrom s (s.memBrk - 1 - 7) s.heapStart true l

/-- `FreeChain s prev block l`: following `get_next_free` from `block` visits
    exactly `l` and then `NULL`, and each node's `get_prev_free` is the node
    before it (`prev` for the first). -/
def FreeChain (s : St) : Nat → Nat → List Nat → Prop
  | _, block, [] => block = 0
  | prev, block, x :: l =>
    x = block ∧ block ≠ 0 ∧ getPrevFree s block = prev ∧ FreeChain s block (getNextFree s block) l

/-- The free-list invariant: the fifteen lists are duplicate-free chains
    from their roots, each node free and in its size class, and together they
    are a permutation of the free blocks of the implicit list. -/
def InvFree (s : St) : Prop :=
  ∃ (l : List Nat) (fl : Nat → List Nat),
    ImplicitFrom s (s.memBrk - 1 - 7) s.heapStart true l ∧
    (∀ i < seglistLength, FreeChain s 0 (s.freeRoot i) (fl i) ∧ (fl i).Nodup ∧
      ∀ x ∈ fl i, getAlloc s x = false ∧ getSeglistInd (getSize s x) = i) ∧
    ((List.range seglistLength).flatMap fl).Perm (l.filter (fun x => !getAlloc s x))

/-- `x` is a block of the heap walk from `heap_start`. -/
def OnImplicit (s : St) (x : Nat) : Prop :=
  ∃ l, ImplicitFrom s (s.memBrk - 1 - 7) s.heapStart true l ∧ x ∈ l

/-- `x` is a node of one of the fifteen lists. -/
def OnFreeList (s : St) (x : Nat) : Prop :=
  ∃ i < seglistLength, ∃ l, FreeChain s 0 (s.freeRoot i) l ∧ x ∈ l

/-- The walk is decidable for a given list of headers, so the invariants
    can be checked on a concrete heap. -/
instance instDecidableImplicitFrom {s : St} {epi : Nat} :
    ∀ {b : Nat} {pa : Bool} {l : List Nat}, Decidable (ImplicitFrom s epi b pa l)
  | _, _, [] => by dsimp only [ImplicitFrom]; infer_instance
  | b, _, _ :: l =>
    have := @instDecidableImplicitFrom s epi (findNext s b) (getAlloc s b) l
    by dsimp only [ImplicitFrom]; infer_instance

instance instDecidableFreeChain {s : St} :
    ∀ {pv b : Nat} {l : List Nat}, Decidable (FreeChain s pv b l)
  | _, _, [] => by dsimp only [FreeChain]; infer_instance
  | _, b, _ :: l =>
    have := @instDecidableFreeChain s b (getNextFree s b) l
    by dsimp only [FreeChain]; infer_instance

theorem InvFree.invImpl {s : St} (h : InvFree s) : InvImpl s :=
  let ⟨l, _, hl, _⟩ := h; ⟨l, hl⟩

theorem ImplicitFrom.tail {s : St} {epi b x : Nat} {pa : Bool} {l : List Nat}
    (h : ImplicitFrom s epi b pa (x :: l)) :
    ImplicitFrom s epi (findNext s b) (getAlloc s b) l :=
  h.2.2.2.2.2.2.2.2.2

/-- Short of the epilogue, the walk only meets blocks of positive size. -/
theorem ImplicitFrom.size_pos {s : St} {epi b : Nat} {pa : Bool} {l : List Nat}
    (h : ImplicitFrom s epi b pa l) (hb : b ≠ epi) : 0 < getSize s b := by
  cases l with
  | nil => exact absurd h.1 hb
  | cons _ _ => exact h.2.2.1

/-- The heap walk is deterministic. -/
theorem ImplicitFrom.unique {s : St} {epi : Nat} :
    ∀ {b : Nat} {pa pa' : Bool} {l l' : List Nat},
      ImplicitFrom s epi b pa l → ImplicitFrom s epi b pa' l' → l = l'
  | _, _, _, [], [], _, _ => rfl
  | _, _, _, [], _ :: _, ⟨he, h0, _⟩, ⟨_, _, hpos, _⟩ => by subst he; omega
  | _, _, _, _ :: _, [], ⟨_, _, hpos, _⟩, ⟨he, h0, _⟩ => by subst he; omega
  | _, _, _, _ :: _, _ :: _, ⟨h1, _, _, _, _, _, _, _, _, hr⟩, ⟨h1', _, _, _, _, _, _, _, _, hr'⟩ => by
      rw [h1, h1', ImplicitFrom.unique hr hr']

/-- A chain from `NULL` is empty; a chain from a node starts with it. -/
theorem FreeChain.root {s : St} {pv b : Nat} {l : List Nat} (h : FreeChain s pv b l) :
    (b = 0 ↔ l = []) ∧ (b ≠ 0 → b ∈ l) := by
  cases l with
  | nil => exact ⟨iff_of_true h rfl, fun hb => absurd h hb⟩
  | cons x l =>
      obtain ⟨hx, hb, _⟩ := h
      exact ⟨iff_of_false hb (List.cons_ne_nil _ _), fun _ => hx ▸ List.mem_cons_self _ _⟩

/-- A heap with a block on its walk has started: its first header is at
    `8 mod 16`, so `heap_start` is not `NULL`. -/
theorem OnImplicit.heapStart_ne_zero {s : St} {x : Nat} (h : OnImplicit s x) :
    s.heapStart ≠ 0 := by
  obtain ⟨_ | ⟨b, l⟩, hl, hx⟩ := h
  · simp at hx
  · have := hl.2.1; omega

/-! ## The abstract heap -/

/-- A block of the implicit list: its header address, size and allocated bit. -/
structure Blk where
  addr : Nat
  size : Nat
  alloc : Bool
deriving DecidableEq, Repr

/-- Each block with the allocated bit of the block before it. -/
def withPrev : Bool → List Blk → List (Blk × Bool)
  | _, [] => []
  | pa, b :: bs => (b, pa) :: withPrev b.alloc bs

/-- The allocated bit of the last block, `pa` for no block. -/
def lastAlloc : Bool → List Blk → Bool
  | pa, [] => pa
  | _, b :: bs => lastAlloc b.alloc bs

/-- The blocks lie end to end from `a` to `e`. -/
def Contig : Nat → List Blk → Nat → Prop
  | a, [], e => a = e
  | a, b :: bs, e => b.addr = a ∧ Contig (a + b.size) bs e

/-- The words one block owns say what the block is: its header (with no
    promise on the prev-alloc bit, see `PrevOK`) and the footer of a free block
    that is not mini. -/
structure BlockOK (s : St) (b : Blk) : Prop where
  hdr_lt : s.mem b.addr < 2 ^ 64
  size : getSize s b.addr = b.size
  alloc : getAlloc s b.addr = b.alloc
  mini : getMini s b.addr = decide (b.size = 16)
  footer : b.alloc = false → b.size ≠ 16 →
    extractSize (s.mem (b.addr + b.size - 8)) = b.size ∧
    extractMini (s.mem (b.addr + b.size - 8)) = false

/-- The arena, the sentinels and the blocks of the implicit list. -/
structure Shape (s : St) (bs : List Blk) : Prop where
  base_align : s.memStartBrk % 16 = 0
  base_pos : 0 < s.memStartBrk
  max_lt : s.memMaxAddr < 2 ^ 63
  brk_le : s.memBrk ≤ s.memMaxAddr
  start : s.heapStart = s.memStartBrk + 8
  prologue : s.mem s.memStartBrk = pack 0 true true
  contig : Contig s.heapStart bs (s.memBrk - 8)
  size_ge : ∀ b ∈ bs, 16 ≤ b.size
  size_dvd : ∀ b ∈ bs, b.size % 16 = 0
  blocks : ∀ b ∈ bs, BlockOK s b
  epilogue : ∃ pa, s.mem (s.memBrk - 8) = pack 0 true pa

/-- Every header's prev-alloc bit, the epilogue's included, is the allocated
    bit of the block before it; a header at `skip` may be stale. -/
structure PrevOK (s : St) (bs : List Blk) (skip : Option Nat) : Prop where
  bits : ∀ p ∈ withPrev true bs, some p.1.addr ≠ skip → getPrevAlloc s p.1.addr = p.2
  epilogue : some (s.memBrk - 8) ≠ skip → getPrevAlloc s (s.memBrk - 8) = lastAlloc true bs

/-- No two free blocks are neighbours, and the first block follows the
    allocated prologue. -/
def Coalesced (bs : List Blk) : Prop := ∀ p ∈ withPrev true bs, p.1.alloc = false → p.2 = true

/-- `Linked prev next pv l nx`: the list segment `l` is linked both ways
    through the views `prev` and `next`, `pv` before its first node and `nx`
    after its last. -/
def Linked (prev next : Nat → Nat) : Nat → List Nat → Nat → Prop
  | _, [], _ => True
  | pv, x :: l, nx => prev x = pv ∧ next x = l.headD nx ∧ Linked prev next x l nx

/-- The roots and link words of the fifteen lists; the successor word of a
    listed mini block carries the mini tag that `find_prev` reads. -/
structure Lists (s : St) (fl : Nat → List Nat) : Prop where
  root : ∀ i < seglistLength, s.freeRoot i = (fl i).headD 0
  chain : ∀ i < seglistLength, Linked (getPrevFree s) (getNextFree s) 0 (fl i) 0
  tag : ∀ i < seglistLength, ∀ x ∈ fl i, getMini s x = true → extractMini (s.mem (x + 8)) = true

/-- Every listed node is a free block of its size class, once. -/
structure Listed (bs : List Blk) (fl : Nat → List Nat) : Prop where
  mem : ∀ i < seglistLength, ∀ x ∈ fl i,
    ∃ b ∈ bs, b.addr = x ∧ b.alloc = false ∧ getSeglistInd b.size = i
  nodup : ∀ i < seglistLength, (fl i).Nodup

/-- The lists hold exactly the free blocks. -/
structure Couple (bs : List Blk) (fl : Nat → List Nat) extends Listed bs fl : Prop where
  complete : ∀ b ∈ bs, b.alloc = false → b.addr ∈ fl (getSeglistInd b.size)

/-- The working invariant of the allocator. -/
structure HeapInv (s : St) (bs : List Blk) (fl : Nat → List Nat) : Prop where
  shape : Shape s bs
  prev : PrevOK s bs none
  coalesced : Coalesced bs
  lists : Lists s fl
  couple : Couple bs fl

/-! ## The shape of the block list -/

section Shape

theorem withPrev_append (pa : Bool) (l₁ l₂ : List Blk) :
    withPrev pa (l₁ ++ l₂) = withPrev pa l₁ ++ withPrev (lastAlloc pa l₁) l₂ := by
  induction l₁ generalizing pa with
  | nil => rfl
  | cons b l ih => exact congrArg _ (ih b.alloc)

theorem lastAlloc_append (pa : Bool) (l₁ l₂ : List Blk) :
    lastAlloc pa (l₁ ++ l₂) = lastAlloc (lastAlloc pa l₁) l₂ := by
  induction l₁ generalizing pa with
  | nil => rfl
  | cons b l ih => exact ih b.alloc

theorem fst_mem_of_withPrev {p : Blk × Bool} :
    ∀ {pa : Bool} {bs : List Blk}, p ∈ withPrev pa bs → p.1 ∈ bs
  | _, [], h => nomatch h
  | _, b :: bs, h => by
      rcases List.mem_cons.mp h with rfl | h
      · exact List.mem_cons_self _ _
      · exact List.mem_cons_of_mem _ (fst_mem_of_withPrev h)

theorem mem_withPrev_of_mem {b : Blk} :
    ∀ {pa : Bool} {bs : List Blk}, b ∈ bs → ∃ p, (b, p) ∈ withPrev pa bs
  | _, [], h => nomatch h
  | pa, c :: bs, h => by
      rcases List.mem_cons.mp h with rfl | h
      · exact ⟨pa, List.mem_cons_self _ _⟩
      · obtain ⟨p, hp⟩ := @mem_withPrev_of_mem b c.alloc bs h
        exact ⟨p, List.mem_cons_of_mem _ hp⟩

theorem contig_append {a e : Nat} :
    ∀ {l₁ l₂ : List Blk}, Contig a (l₁ ++ l₂) e ↔ ∃ m, Contig a l₁ m ∧ Contig m l₂ e
  | [], _ => by simp [Contig]
  | b :: l, _ => by
      show (b.addr = a ∧ Contig (a + b.size) (l ++ _) e) ↔ _
      simp only [contig_append, Contig]
      constructor
      · rintro ⟨h1, m, h2, h3⟩; exact ⟨m, ⟨h1, h2⟩, h3⟩
      · rintro ⟨m, ⟨h1, h2⟩, h3⟩; exact ⟨h1, m, h2, h3⟩

/-- Every block lies between the two ends of a contiguous list. -/
theorem Contig.bounds {a e : Nat} :
    ∀ {bs : List Blk}, Contig a bs e → a ≤ e ∧ ∀ b ∈ bs, a ≤ b.addr ∧ b.addr + b.size ≤ e
  | [], h => ⟨le_of_eq h, fun _ hb => nomatch hb⟩
  | c :: bs, ⟨h1, h2⟩ => by
      obtain ⟨hle, hbs⟩ := Contig.bounds h2
      refine ⟨by omega, fun b hb => ?_⟩
      rcases List.mem_cons.mp hb with rfl | hb
      · omega
      · have := hbs b hb; omega

/-- Blocks of a contiguous list come in address order, each ending before the
    next one starts. -/
theorem Contig.pairwise {a e : Nat} :
    ∀ {bs : List Blk}, Contig a bs e → bs.Pairwise (fun b c => b.addr + b.size ≤ c.addr)
  | [], _ => List.Pairwise.nil
  | c :: bs, ⟨h1, h2⟩ => by
      refine List.Pairwise.cons (fun b hb => ?_) (Contig.pairwise h2)
      have := (Contig.bounds h2).2 b hb
      omega

/-- Two blocks of a contiguous list that share a byte are the same block. -/
theorem Contig.unique {a e w : Nat} {bs : List Blk} (h : Contig a bs e)
    {b c : Blk} (hb : b ∈ bs) (hc : c ∈ bs)
    (hwb : b.addr ≤ w ∧ w < b.addr + b.size) (hwc : c.addr ≤ w ∧ w < c.addr + c.size) :
    b = c := by
  induction bs generalizing a with
  | nil => exact nomatch hb
  | cons d bs ih =>
      obtain ⟨h1, h2⟩ := h
      have hp := Contig.pairwise h2
      have hbd := (Contig.bounds h2).2
      rcases List.mem_cons.mp hb with rfl | hb' <;> rcases List.mem_cons.mp hc with rfl | hc'
      · rfl
      · have := hbd c hc'; omega
      · have := hbd b hb'; omega
      · exact ih h2 hb' hc'

end Shape

/-! ## Frames: a block only reads the words it owns -/

section Frame

variable {s s' : St} {b : Blk}

/-- `BlockOK` survives any change to the memory outside the block. -/
theorem BlockOK.frame (h : BlockOK s b) (hs : 16 ≤ b.size)
    (hag : ∀ a, b.addr ≤ a → a < b.addr + b.size → s'.mem a = s.mem a) : BlockOK s' b where
  hdr_lt := by rw [hag _ le_rfl (by omega)]; exact h.hdr_lt
  size := by rw [getSize_congr (hag _ le_rfl (by omega))]; exact h.size
  alloc := by rw [getAlloc_congr (hag _ le_rfl (by omega))]; exact h.alloc
  mini := by rw [getMini_congr (hag _ le_rfl (by omega))]; exact h.mini
  footer := fun h1 h2 => by rw [hag (b.addr + b.size - 8) (by omega) (by omega)]; exact h.footer h1 h2

/-- A store to a word of `b` other than its header and its footer keeps `BlockOK`. -/
theorem BlockOK.store {a w : Nat} (h : BlockOK s b) (ha : a ≠ b.addr)
    (hf : b.alloc = false → b.size ≠ 16 → a ≠ b.addr + b.size - 8) :
    BlockOK (s.store a w) b where
  hdr_lt := by rw [store_mem_of_ne (Ne.symm ha)]; exact h.hdr_lt
  size := by rw [getSize_congr (store_mem_of_ne (Ne.symm ha))]; exact h.size
  alloc := by rw [getAlloc_congr (store_mem_of_ne (Ne.symm ha))]; exact h.alloc
  mini := by rw [getMini_congr (store_mem_of_ne (Ne.symm ha))]; exact h.mini
  footer := fun h1 h2 => by
    rw [store_mem_of_ne (Ne.symm (hf h1 h2))]; exact h.footer h1 h2

theorem Linked.append {prev next : Nat → Nat} {pv nx : Nat} :
    ∀ {l₁ l₂ : List Nat}, Linked prev next pv (l₁ ++ l₂) nx ↔
      Linked prev next pv l₁ (l₂.headD nx) ∧ Linked prev next (l₁.getLast?.getD pv) l₂ nx
  | [], l₂ => by simp [Linked]
  | [x], l₂ => by
      cases l₂ <;> simp [Linked, and_assoc]
  | x :: y :: l, l₂ => by
      have ih := @Linked.append prev next x nx (y :: l) l₂
      simp only [List.cons_append, Linked, List.headD_cons] at ih ⊢
      rw [ih, List.getLast?_cons_cons]
      constructor
      · rintro ⟨h1, h2, h3, h4⟩; exact ⟨⟨h1, h2, h3⟩, h4⟩
      · rintro ⟨⟨h1, h2, h3⟩, h4⟩; exact ⟨h1, h2, h3, h4⟩

/-- A linked segment reads only the views at its nodes. -/
theorem Linked.congr {prev next prev' next' : Nat → Nat} {pv nx : Nat} :
    ∀ {l : List Nat}, Linked prev next pv l nx →
      (∀ x ∈ l, prev' x = prev x ∧ next' x = next x) → Linked prev' next' pv l nx
  | [], _, _ => trivial
  | x :: l, ⟨h1, h2, h3⟩, hag => by
      have hx := hag x (List.mem_cons_self _ _)
      exact ⟨hx.1.trans h1, hx.2.trans h2,
        Linked.congr h3 (fun y hy => hag y (List.mem_cons_of_mem _ hy))⟩

end Frame

/-! ## Facts a shape provides -/

namespace Shape

variable {s : St} {bs : List Blk} (hS : Shape s bs)
include hS

theorem bounds {b : Blk} (hb : b ∈ bs) :
    s.heapStart ≤ b.addr ∧ b.addr + b.size ≤ s.memBrk - 8 :=
  (Contig.bounds hS.contig).2 b hb

theorem heapStart_le_epi : s.heapStart ≤ s.memBrk - 8 := (Contig.bounds hS.contig).1

theorem epi_lt : s.memBrk - 8 + 8 = s.memBrk ∧ s.memBrk < 2 ^ 63 := by
  have := hS.heapStart_le_epi; have := hS.start; have := hS.brk_le; have := hS.max_lt
  omega

theorem addr_mod : ∀ {b : Blk}, b ∈ bs → b.addr % 16 = 8 := by
  have key : ∀ {a e : Nat} {l : List Blk}, Contig a l e → a % 16 = 8 →
      (∀ b ∈ l, b.size % 16 = 0) → ∀ b ∈ l, b.addr % 16 = 8 := by
    intro a e l
    induction l generalizing a with
    | nil => intro _ _ _ b hb; exact nomatch hb
    | cons c l ih =>
        rintro ⟨h1, h2⟩ ha hd b hb
        have hc := hd c (List.mem_cons_self _ _)
        rcases List.mem_cons.mp hb with rfl | hb
        · omega
        · exact ih h2 (by omega) (fun d hd' => hd d (List.mem_cons_of_mem _ hd')) b hb
  have := hS.start; have := hS.base_align
  intro b hb
  exact key hS.contig (by omega) hS.size_dvd b hb

/-- Two blocks sharing a byte are one block. -/
theorem unique {b c : Blk} (hb : b ∈ bs) (hc : c ∈ bs) {w : Nat}
    (hwb : b.addr ≤ w ∧ w < b.addr + b.size) (hwc : c.addr ≤ w ∧ w < c.addr + c.size) :
    b = c :=
  Contig.unique hS.contig hb hc hwb hwc

/-- A block's address names it. -/
theorem eq_of_addr {b c : Blk} (hb : b ∈ bs) (hc : c ∈ bs) (h : b.addr = c.addr) : b = c :=
  hS.unique hb hc (w := b.addr) ⟨le_rfl, by have := hS.size_ge b hb; omega⟩
    ⟨by omega, by have := hS.size_ge c hc; omega⟩

/-- A store strictly inside block `b` (not its header, not its footer) keeps
    the shape and the prev-alloc bits. -/
theorem store_inside {b : Blk} (hb : b ∈ bs) {a w : Nat} (ha : b.addr < a)
    (ha' : a < b.addr + b.size) (hf : b.alloc = false → b.size ≠ 16 → a ≠ b.addr + b.size - 8) :
    Shape (s.store a w) bs ∧ ∀ x, (s.store a w).mem x % 8 = s.mem x % 8 ∨ x = a := by
  have hbd := hS.bounds hb
  have hs := hS.start
  have hep := hS.epi_lt
  refine ⟨⟨hS.base_align, hS.base_pos, hS.max_lt, hS.brk_le, hS.start, ?_, hS.contig, hS.size_ge,
    hS.size_dvd, fun c hc => ?_, ?_⟩, fun x => ?_⟩
  · rw [store_memStartBrk, store_mem_of_ne (by omega)]; exact hS.prologue
  · by_cases hcb : c = b
    · subst hcb; exact (hS.blocks c hc).store (by omega) hf
    · refine (hS.blocks c hc).frame (hS.size_ge c hc) fun x hx hx' => store_mem_of_ne ?_
      rintro rfl
      exact hcb (hS.unique hc hb ⟨hx, hx'⟩ ⟨by omega, ha'⟩)
  · rw [store_memBrk, store_mem_of_ne (by omega)]; exact hS.epilogue
  · by_cases hx : x = a
    · exact .inr hx
    · exact .inl (by rw [store_mem_of_ne hx])

end Shape

/-! ## Unlinking and pushing, on the views -/

section Views

variable {prev next : Nat → Nat}

/-- Unlinking `x` from a segment: its predecessor's successor and its
    successor's predecessor skip it. -/
theorem Linked.unlink {b x : Nat} {l₂ : List Nat} :
    ∀ {a : Nat} {l₁ : List Nat}, Linked prev next a (l₁ ++ x :: l₂) b →
      (l₁ ++ x :: l₂).Nodup → a ∉ l₁ ++ l₂ → b ∉ l₁ ++ l₂ →
      Linked (Function.update prev (l₂.headD b) (l₁.getLast?.getD a))
        (Function.update next (l₁.getLast?.getD a) (l₂.headD b)) a (l₁ ++ l₂) b
  | a, [], ⟨_, _, h⟩, hnd, ha, hb => by
    cases l₂ with
    | nil => trivial
    | cons y l₃ =>
      obtain ⟨h1, h2, h3⟩ := h
      have hy : y ≠ a := fun hya => ha (hya ▸ List.mem_cons_self y l₃)
      simp only [List.nil_append, List.nodup_cons, List.mem_cons, not_or] at hnd
      refine ⟨by simp, by simp [hy, h2], h3.congr fun z hz => ?_⟩
      have hzy : z ≠ y := fun e => hnd.2.1 (e ▸ hz)
      have hza : z ≠ a := fun e => ha (e ▸ List.mem_cons_of_mem y hz)
      simp [hzy, hza]
  | a, u :: l₁, ⟨h1, h2, h3⟩, hnd, ha, hb => by
    have hnd' := List.nodup_cons.mp hnd
    have hu : u ∉ l₁ ++ l₂ := fun hm => hnd'.1 (by
      rcases List.mem_append.mp hm with h | h
      · exact List.mem_append_left _ h
      · exact List.mem_append_right _ (List.mem_cons_of_mem _ h))
    have ih := Linked.unlink h3 hnd'.2 hu (fun hm => hb (List.mem_cons_of_mem _ hm))
    have hnx : l₂.headD b ≠ u := by
      cases l₂ with
      | nil => exact fun e => hb (e ▸ List.mem_cons_self u _)
      | cons y l₃ => exact fun e => hu (e ▸ List.mem_append_right _ (List.mem_cons_self y l₃))
    have hlast : (u :: l₁).getLast?.getD a = l₁.getLast?.getD u := by
      cases l₁ <;> simp [List.getLast?_cons]
    rw [hlast]
    refine ⟨by rw [Function.update_noteq (Ne.symm hnx)]; exact h1, ?_, ih⟩
    cases l₁ with
    | nil => simp
    | cons v l₁ =>
      have hpv : (v :: l₁).getLast?.getD u ≠ u := by
        intro e
        rw [List.getLast?_eq_getLast (v :: l₁) (List.cons_ne_nil _ _)] at e
        exact hu (List.mem_append_left _ (e ▸ List.getLast_mem _))
      rw [Function.update_noteq (Ne.symm hpv)]; exact h2

/-- Pushing `x` at the head of a segment from `0` to `0`. -/
theorem Linked.push {x : Nat} {l : List Nat} (h : Linked prev next 0 l 0) (hnd : l.Nodup)
    (hx : x ∉ l) :
    Linked (Function.update (Function.update prev (l.headD 0) x) x 0)
      (Function.update next x (l.headD 0)) 0 (x :: l) 0 := by
  refine ⟨by simp, by simp, ?_⟩
  cases l with
  | nil => trivial
  | cons y l =>
    obtain ⟨_, h2, h3⟩ := h
    have hxy : y ≠ x := fun e => hx (e ▸ List.mem_cons_self y l)
    have hnd' := List.nodup_cons.mp hnd
    refine ⟨by simp [hxy], by simp [hxy, h2], h3.congr fun z hz => ?_⟩
    have hzx : z ≠ x := fun e => hx (e ▸ List.mem_cons_of_mem y hz)
    have hzy : z ≠ y := fun e => hnd'.1 (e ▸ hz)
    simp [hzx, hzy]

end Views

/-! ## One link write -/

/-- The prev-alloc bits only read the low three bits of each header. -/
theorem PrevOK.of_mod8 {s s' : St} {bs : List Blk} {skip : Option Nat} (h : PrevOK s bs skip)
    (hb : ∀ c ∈ bs, s'.mem c.addr % 8 = s.mem c.addr % 8) (hbrk : s'.memBrk = s.memBrk)
    (he : s'.mem (s.memBrk - 8) % 8 = s.mem (s.memBrk - 8) % 8) : PrevOK s' bs skip where
  bits p hp hs := by
    rw [(flags_of_mod8 (hb _ (fst_mem_of_withPrev hp))).2.1]; exact h.bits p hp hs
  epilogue hs := by
    rw [hbrk] at hs ⊢; rw [(flags_of_mod8 he).2.1]; exact h.epilogue hs

section Write

variable {s : St} {bs : List Blk} {b : Blk}

/-- A successor write lands at `b + 8`, inside the block and short of its footer. -/
theorem Shape.setNextFree (hS : Shape s bs) (hb : b ∈ bs) (n : Nat) :
    Shape (MmState.setNextFree s b.addr n) bs ∧
      ∀ a, (MmState.setNextFree s b.addr n).mem a ≠ s.mem a → a = b.addr + 8 := by
  have := hS.size_ge b hb; have := hS.size_dvd b hb
  rw [setNextFree_eq]
  refine ⟨(hS.store_inside hb (by omega) (by omega) fun _ h16 => by omega).1, fun a ha => ?_⟩
  by_contra hne; exact ha (store_mem_of_ne hne)

/-- A predecessor write lands in the header of a mini block, keeping its
    flag bits, or at `b + 16` inside a larger one. -/
theorem Shape.setPrevFree (hS : Shape s bs) (hb : b ∈ bs) {p : Nat} (hp : p % 8 = 0)
    (hp' : p < 2 ^ 63) :
    Shape (MmState.setPrevFree s b.addr p) bs ∧
      (∀ a, (MmState.setPrevFree s b.addr p).mem a ≠ s.mem a →
        (a = b.addr ∧ b.size = 16) ∨ (a = b.addr + 16 ∧ b.size ≠ 16)) ∧
      (MmState.setPrevFree s b.addr p).mem b.addr % 8 = s.mem b.addr % 8 := by
  have hok := hS.blocks b hb
  have := hS.size_ge b hb; have := hS.size_dvd b hb
  have hbd := hS.bounds hb; have := hS.epi_lt; have := hS.start
  refine ⟨?_, fun a ha => ?_, setPrevFree_mem_mod8 hp⟩
  · unfold MmState.setPrevFree
    split
    · rename_i hm
      have h16 : b.size = 16 := by rw [hok.mini] at hm; simpa using hm
      have hw : (s.mem b.addr &&& 0x7) ||| p = p + s.mem b.addr % 8 := and7_or_eq hp
      refine ⟨hS.base_align, hS.base_pos, hS.max_lt, hS.brk_le, hS.start, ?_, hS.contig,
        hS.size_ge, hS.size_dvd, fun c hc => ?_, ?_⟩
      · rw [store_memStartBrk, store_mem_of_ne (by omega)]; exact hS.prologue
      · by_cases hcb : c = b
        · subst hcb
          have hfl := @flags_of_mod8 s (s.store c.addr ((s.mem c.addr &&& 0x7) ||| p)) c.addr
            (by rw [store_mem_self, hw]; omega)
          refine ⟨by rw [store_mem_self, hw]; omega, ?_, by rw [hfl.1]; exact hok.alloc,
            by rw [hfl.2.2]; exact hok.mini, fun _ h => absurd h16 h⟩
          rw [getSize_of_mini (by rw [store_mem_self, hw]; omega) hm, h16]
        · refine (hS.blocks c hc).frame (hS.size_ge c hc) fun x hx hx' => store_mem_of_ne ?_
          rintro rfl
          exact hcb (hS.unique hc hb ⟨hx, hx'⟩ ⟨le_rfl, by omega⟩)
      · rw [store_memBrk, store_mem_of_ne (by omega)]; exact hS.epilogue
    · rename_i hm
      have h16 : b.size ≠ 16 := by rw [hok.mini] at hm; simpa using hm
      exact (hS.store_inside hb (by omega) (by omega) fun _ _ => by omega).1
  · unfold MmState.setPrevFree at ha
    split at ha
    · rename_i hm
      have h16 : b.size = 16 := by rw [hok.mini] at hm; simpa using hm
      exact .inl ⟨by by_contra hne; exact ha (store_mem_of_ne hne), h16⟩
    · rename_i hm
      have h16 : b.size ≠ 16 := by rw [hok.mini] at hm; simpa using hm
      exact .inr ⟨by by_contra hne; exact ha (store_mem_of_ne hne), h16⟩

/-- The link views of a block read only the words inside it. -/
theorem Shape.views_congr (hS : Shape s bs) {s' : St} {c : Blk} (hc : c ∈ bs)
    (hag : ∀ a, c.addr ≤ a → a < c.addr + c.size → s'.mem a = s.mem a) :
    getPrevFree s' c.addr = getPrevFree s c.addr ∧ getNextFree s' c.addr = getNextFree s c.addr ∧
      getMini s' c.addr = getMini s c.addr ∧ s'.mem (c.addr + 8) = s.mem (c.addr + 8) := by
  have := hS.size_ge c hc; have := hS.size_dvd c hc
  have hm := (hS.blocks c hc).mini
  have h0 := hag c.addr le_rfl (by omega)
  have h8 := hag (c.addr + 8) (by omega) (by omega)
  refine ⟨?_, getNextFree_congr h8, getMini_congr h0, h8⟩
  unfold getPrevFree
  rw [getMini_congr h0, h0]
  split
  · rfl
  · rename_i hmf
    rw [hm] at hmf
    rw [hag (c.addr + 16) (by omega) (by simp at hmf; omega)]

/-- A write inside block `b` leaves the link views of every other block as they were. -/
theorem Shape.views_of_ne (hS : Shape s bs) {s' : St} {c : Blk} (hb : b ∈ bs) (hc : c ∈ bs)
    (hne : c ≠ b) (hw : ∀ a, s'.mem a ≠ s.mem a → b.addr ≤ a ∧ a < b.addr + b.size) :
    getPrevFree s' c.addr = getPrevFree s c.addr ∧ getNextFree s' c.addr = getNextFree s c.addr ∧
      getMini s' c.addr = getMini s c.addr ∧ s'.mem (c.addr + 8) = s.mem (c.addr + 8) :=
  Shape.views_congr hS hc fun a h1 h2 => by
    by_contra hne'
    exact hne (hS.unique hc hb ⟨h1, h2⟩ (hw a hne'))

/-- A block address is an 8-aligned non-null pointer below `2^63`. -/
theorem Shape.ptr (hS : Shape s bs) (hb : b ∈ bs) : b.addr % 8 = 0 ∧ b.addr < 2 ^ 63 ∧ b.addr ≠ 0 := by
  have := hS.addr_mod hb; have := hS.bounds hb; have := hS.epi_lt; omega

/-- The views after `set_next_free(b, n)`. -/
theorem Shape.setNextFree_views (hS : Shape s bs) (hb : b ∈ bs) {n : Nat} (hn : n % 8 = 0)
    (hn' : n < 2 ^ 63) {c : Blk} (hc : c ∈ bs) :
    getPrevFree (MmState.setNextFree s b.addr n) c.addr = getPrevFree s c.addr ∧
      getNextFree (MmState.setNextFree s b.addr n) c.addr =
        (if c.addr = b.addr then n else getNextFree s c.addr) ∧
      getMini (MmState.setNextFree s b.addr n) c.addr = getMini s c.addr ∧
      (getMini s c.addr = true → extractMini (s.mem (c.addr + 8)) = true →
        extractMini ((MmState.setNextFree s b.addr n).mem (c.addr + 8)) = true) := by
  by_cases hcb : c = b
  · subst hcb
    exact ⟨getPrevFree_setNextFree_self, by simp [getNextFree_setNextFree_self hn (by omega)],
      getMini_setNextFree, fun hm _ => extractMini_setNextFree hm hn⟩
  · have hne : c.addr ≠ b.addr := fun h => hcb (Shape.eq_of_addr hS hc hb h)
    obtain ⟨h1, h2, h3, h4⟩ := Shape.views_of_ne hS hb hc hcb fun a ha => by
      have := (Shape.setNextFree hS hb n).2 a ha; have := hS.size_ge b hb; omega
    exact ⟨h1, by simp [hne, h2], h3, fun _ ht => h4 ▸ ht⟩

/-- The views after `set_prev_free(b, p)`. -/
theorem Shape.setPrevFree_views (hS : Shape s bs) (hb : b ∈ bs) {p : Nat} (hp : p % 8 = 0)
    (hp' : p < 2 ^ 63) {c : Blk} (hc : c ∈ bs) :
    getPrevFree (MmState.setPrevFree s b.addr p) c.addr =
        (if c.addr = b.addr then p else getPrevFree s c.addr) ∧
      getNextFree (MmState.setPrevFree s b.addr p) c.addr = getNextFree s c.addr ∧
      getMini (MmState.setPrevFree s b.addr p) c.addr = getMini s c.addr ∧
      (MmState.setPrevFree s b.addr p).mem (c.addr + 8) = s.mem (c.addr + 8) := by
  have hmod := hS.addr_mod hb; have hmodc := hS.addr_mod hc
  have h8 : (MmState.setPrevFree s b.addr p).mem (c.addr + 8) = s.mem (c.addr + 8) :=
    setPrevFree_mem_of_ne (by omega) (by omega)
  by_cases hcb : c = b
  · subst hcb
    exact ⟨by simp [getPrevFree_setPrevFree_self hp (by omega)], getNextFree_setPrevFree_self,
      getMini_setPrevFree hp, h8⟩
  · have hne : c.addr ≠ b.addr := fun h => hcb (Shape.eq_of_addr hS hc hb h)
    obtain ⟨h1, h2, h3, _⟩ := Shape.views_of_ne hS hb hc hcb fun a ha => by
      have := hS.size_ge b hb; have := hS.size_dvd b hb
      rcases (Shape.setPrevFree hS hb hp hp').2.1 a ha with ⟨rfl, _⟩ | ⟨rfl, _⟩ <;> omega
    exact ⟨by simp [hne, h1], h2, h3, h8⟩

/-- The epilogue sits where a header would. -/
theorem Shape.epi_mod (hS : Shape s bs) : (s.memBrk - 8) % 16 = 8 := by
  have key : ∀ {a e : Nat} {l : List Blk}, Contig a l e → (∀ b ∈ l, b.size % 16 = 0) →
      e % 16 = a % 16 := by
    intro a e l
    induction l generalizing a with
    | nil => intro h _; exact congrArg (· % 16) h.symm
    | cons c l ih =>
      rintro ⟨_, h2⟩ hd
      rw [ih h2 fun d hd' => hd d (List.mem_cons_of_mem _ hd')]
      have := hd c (List.mem_cons_self _ _); omega
  rw [key hS.contig hS.size_dvd, hS.start]
  have := hS.base_align; omega

theorem Shape.setNextFree_prev (hS : Shape s bs) (hb : b ∈ bs) {skip : Option Nat}
    (hP : PrevOK s bs skip) (n : Nat) : PrevOK (MmState.setNextFree s b.addr n) bs skip := by
  have hw := (Shape.setNextFree hS hb n).2
  have hmod := hS.addr_mod hb; have := hS.epi_mod
  refine hP.of_mod8 (fun c hc => ?_) (by rw [setNextFree_eq]; rfl) ?_
  · have := hS.addr_mod hc
    by_contra h; have := hw _ fun e => h (e ▸ rfl); omega
  · by_contra h; have := hw _ fun e => h (e ▸ rfl); omega

theorem Shape.setPrevFree_prev (hS : Shape s bs) (hb : b ∈ bs) {skip : Option Nat}
    (hP : PrevOK s bs skip) {p : Nat} (hp : p % 8 = 0) (hp' : p < 2 ^ 63) :
    PrevOK (MmState.setPrevFree s b.addr p) bs skip := by
  obtain ⟨_, hw, hself⟩ := Shape.setPrevFree hS hb hp hp'
  have := hS.size_ge b hb; have := hS.size_dvd b hb; have hbd := hS.bounds hb
  refine hP.of_mod8 (fun c hc => ?_) (by unfold MmState.setPrevFree; split <;> rfl) ?_
  · by_cases hcb : c = b
    · subst hcb; exact hself
    · by_contra h
      have hc' := hS.size_ge c hc
      have hab : b.addr ≤ c.addr ∧ c.addr < b.addr + b.size := by
        rcases hw _ fun e => h (e ▸ rfl) with ⟨e, _⟩ | ⟨e, _⟩ <;> omega
      exact hcb (hS.unique hc hb ⟨le_rfl, by omega⟩ hab)
  · by_contra h
    rcases hw _ fun e => h (e ▸ rfl) with ⟨e, _⟩ | ⟨e, _⟩ <;> omega

theorem Shape.setRoot {s : St} {bs : List Blk} (hS : Shape s bs) (i r : Nat) : Shape (s.setRoot i r) bs :=
  { hS with blocks := fun b hb => { hS.blocks b hb with } }

theorem PrevOK.setRoot {s : St} {bs : List Blk} {skip : Option Nat} (hP : PrevOK s bs skip) (i r : Nat) :
    PrevOK (s.setRoot i r) bs skip :=
  { hP with }

/-- Distinct lists share no node. -/
theorem Listed.ne_of_mem (hS : Shape s bs) (hD : Listed bs fl) {i j y z : Nat}
    (hi : i < seglistLength) (hj : j < seglistLength) (hy : y ∈ fl i) (hz : z ∈ fl j) (hij : j ≠ i) :
    z ≠ y := by
  rintro rfl
  obtain ⟨b, hb, hba, -, hbc⟩ := hD.mem i hi z hy
  obtain ⟨c, hc, hca, -, hcc⟩ := hD.mem j hj z hz
  exact hij (hcc.symm.trans ((congrArg (getSeglistInd ·.size) (hS.eq_of_addr hc hb (hca.trans hba.symm))).trans hbc))

end Write

end MmLayout
