import Mathlib.Order.Interval.Finset.Nat
import SystemsLabs.MmBlocksProofs

/-! # The fit search `find_fit`

    `find_fit(asize)` first scans the home list `get_seglist_ind(asize)`,
    keeping the smallest fit seen and returning it early once more than ten
    nodes have been looked at; if the home list holds no fit, it returns the
    head of the first non-empty list above, unconditionally.

    The route to `findFit_spec`:

    * a list walk in the model runs on fuel; along a `FreeChain` the fuel
      `2^64` always suffices (`findFitLoop_eq`), so the loop is the list
      recursion `fitLoop`;
    * `fitLoop` returns `NULL` exactly when no node fits, and otherwise a node
      that fits (`fitLoop_spec`);
    * every node of a higher list is larger than `asize`, since
      `get_seglist_ind` is monotone (`getSeglistInd_mono`). -/

namespace MmFindFit

open MmCodec MmState St MmLayout

/-- The fuel of every list walk: a `NULL`-terminated list of distinct nonzero
    addresses below `2^64` has fewer than `2^64` nodes. -/
def walkFuel : Nat := 2 ^ 64

/-- The home-bucket loop of `find_fit`: `min` is the smallest fit seen so far
    and `checked` the number of nodes visited. The early `return min` (taken
    once `checked > max_check`) leaves `min` non-NULL, so `find_fit` then
    returns it exactly as it does after the loop. -/
def findFitLoop (s : St) (asize : Nat) : Nat → Nat → Nat → Nat → Nat
  | 0, _, min, _ => min
  | fuel + 1, block, min, checked =>
    if block = 0 then min
    else if asize ≤ getSize s block then
      let min := if min = 0 then block else min
      let min := if getSize s block < getSize s min then block else min
      if min ≠ 0 ∧ checked > 9 then min
      else findFitLoop s asize fuel (getNextFree s block) min (checked + 1)
    else findFitLoop s asize fuel (getNextFree s block) min (checked + 1)

/-- The fallback loop of `find_fit`: the head of the first non-empty list among
    the `n` lists from index `i` on. -/
def firstNonEmpty (s : St) : Nat → Nat → Nat
  | 0, _ => 0
  | n + 1, i => if s.freeRoot i ≠ 0 then s.freeRoot i else firstNonEmpty s n (i + 1)

/-- `find_fit(asize)`. -/
def findFit (s : St) (asize : Nat) : Nat :=
  let seglistInd := getSeglistInd asize
  let min := findFitLoop s asize walkFuel (s.freeRoot seglistInd) 0 0
  if min = 0 then firstNonEmpty s (seglistLength - (seglistInd + 1)) (seglistInd + 1) else min

/-! ## The loops on lists -/

/-- `findFitLoop` on the list of nodes it visits. -/
def fitLoop (s : St) (asize : Nat) : List Nat → Nat → Nat → Nat
  | [], min, _ => min
  | block :: l, min, checked =>
    if asize ≤ getSize s block then
      let min := if min = 0 then block else min
      let min := if getSize s block < getSize s min then block else min
      if min ≠ 0 ∧ checked > 9 then min else fitLoop s asize l min (checked + 1)
    else fitLoop s asize l min (checked + 1)

section Loops

variable {s : St} {asize : Nat}

/-- Nodes of a chain are not `NULL`, and all but the first are link words, so
    below `2^64`. -/
theorem FreeChain.mem_bound {y : Nat} :
    ∀ {pv b : Nat} {l : List Nat}, FreeChain s pv b l → y ∈ l → y ≠ 0 ∧ (y = b ∨ y < 2 ^ 64)
  | _, _, [], _, hy => nomatch hy
  | _, b, x :: l, ⟨hx, hb, _, hrest⟩, hy => by
      rcases List.mem_cons.mp hy with rfl | hy
      · exact ⟨hx ▸ hb, .inl hx⟩
      · refine ⟨(FreeChain.mem_bound hrest hy).1, .inr ?_⟩
        rcases (FreeChain.mem_bound hrest hy).2 with rfl | h
        · exact Nat.and_lt_two_pow _ (by simp [linkMask])
        · exact h

/-- A duplicate-free chain has at most `2^64` nodes, so `walkFuel` never runs
    out along it. -/
theorem FreeChain.length_le {pv b : Nat} {l : List Nat} (h : FreeChain s pv b l)
    (hnd : l.Nodup) : l.length ≤ walkFuel := by
  have hsub : l.toFinset ⊆ insert b (Finset.Ioo 0 (2 ^ 64)) := by
    intro y hy
    obtain ⟨h0, hb⟩ := FreeChain.mem_bound h (List.mem_toFinset.mp hy)
    rcases hb with rfl | hb
    · exact Finset.mem_insert_self _ _
    · exact Finset.mem_insert_of_mem (Finset.mem_Ioo.mpr ⟨Nat.pos_of_ne_zero h0, hb⟩)
  have := (Finset.card_le_card hsub).trans (Finset.card_insert_le _ _)
  rw [List.toFinset_card_of_nodup hnd, Nat.card_Ioo] at this
  simp only [walkFuel]
  omega

/-- Along a chain that fits in the fuel, the model's loop is the list recursion. -/
theorem findFitLoop_eq :
    ∀ {fuel pv block min checked : Nat} {l : List Nat}, FreeChain s pv block l →
      l.length ≤ fuel → findFitLoop s asize fuel block min checked = fitLoop s asize l min checked
  | 0, _, _, _, _, [], h, _ => by simp [findFitLoop, fitLoop]
  | fuel + 1, _, _, _, _, [], h, _ => by simp [findFitLoop, fitLoop, show _ = 0 from h]
  | 0, _, _, _, _, _ :: _, _, hl => by simp at hl
  | fuel + 1, _, block, min, checked, x :: l, ⟨hx, hb, _, hrest⟩, hl => by
      subst hx
      have ih := fun {min checked : Nat} =>
        @findFitLoop_eq fuel _ _ min checked l hrest (by simp at hl; omega)
      simp only [findFitLoop, fitLoop, hb, if_false, ih]

/-- `fitLoop` returns `NULL` exactly when it starts from `NULL` and no node fits. -/
theorem fitLoop_eq_zero :
    ∀ {l : List Nat} {min checked : Nat}, (∀ x ∈ l, x ≠ 0) →
      (fitLoop s asize l min checked = 0 ↔ min = 0 ∧ ∀ x ∈ l, getSize s x < asize)
  | [], _, _, _ => by simp [fitLoop]
  | x :: l, min, checked, h0 => by
      have hx := h0 x (List.mem_cons_self _ _)
      have ih := fun {min checked : Nat} =>
        @fitLoop_eq_zero l min checked (fun y hy => h0 y (List.mem_cons_of_mem _ hy))
      simp only [fitLoop, List.mem_cons, forall_eq_or_imp]
      by_cases hfit : asize ≤ getSize s x
      · simp only [hfit, if_true, not_lt.mpr hfit, false_and, and_false, iff_false]
        generalize hm : (if getSize s x < getSize s (if min = 0 then x else min) then x
            else if min = 0 then x else min) = m
        have hmin : m ≠ 0 := by subst hm; split_ifs <;> simp_all
        split_ifs
        · exact hmin
        · rw [ih]; exact fun h => hmin h.1
      · have hlt : getSize s x < asize := by omega
        simp only [hfit, if_false, ih, hlt, true_and]

/-- A non-`NULL` result of `fitLoop` fits and is the start value or a node. -/
theorem fitLoop_fits :
    ∀ {l : List Nat} {min checked : Nat}, (min = 0 ∨ asize ≤ getSize s min) →
      fitLoop s asize l min checked = 0 ∨
        (asize ≤ getSize s (fitLoop s asize l min checked) ∧
          (fitLoop s asize l min checked = min ∨ fitLoop s asize l min checked ∈ l))
  | [], _, _, h => by simp only [fitLoop]; rcases h with h | h <;> simp [h]
  | x :: l, min, checked, h => by
      simp only [fitLoop]
      by_cases hfit : asize ≤ getSize s x
      · simp only [hfit, if_true]
        generalize hm : (if getSize s x < getSize s (if min = 0 then x else min) then x
            else if min = 0 then x else min) = m
        have hm' : asize ≤ getSize s m ∧ (m = x ∨ m = min) := by
          subst hm; rcases h with h | h <;> split_ifs <;> simp_all
        split_ifs
        · exact .inr ⟨hm'.1, hm'.2.imp_left (· ▸ List.mem_cons_self _ _) |>.symm⟩
        · rcases @fitLoop_fits l m (checked + 1) (.inr hm'.1) with h' | h'
          · exact .inl h'
          · refine .inr ⟨h'.1, ?_⟩
            rcases h'.2 with h'' | h''
            · rw [h'']; exact hm'.2.elim (fun e => .inr (e ▸ List.mem_cons_self _ _)) .inl
            · exact .inr (List.mem_cons_of_mem _ h'')
      · simp only [hfit, if_false]
        rcases @fitLoop_fits l min (checked + 1) h with h' | h'
        · exact .inl h'
        · exact .inr ⟨h'.1, h'.2.imp id (List.mem_cons_of_mem _)⟩

theorem firstNonEmpty_eq_zero :
    ∀ {n i : Nat}, firstNonEmpty s n i = 0 ↔ ∀ j, i ≤ j → j < i + n → s.freeRoot j = 0
  | 0, _ => by simp [firstNonEmpty]; intros; omega
  | n + 1, i => by
      simp only [firstNonEmpty]
      by_cases h : s.freeRoot i = 0
      · simp only [h, ne_eq, not_true_eq_false, if_false, firstNonEmpty_eq_zero]
        constructor
        · intro h' j hj hj'
          rcases Nat.eq_or_lt_of_le hj with rfl | hj
          · exact h
          · exact h' j hj (by omega)
        · intro h' j hj hj'; exact h' j (by omega) (by omega)
      · simp only [h, ne_eq, not_false_eq_true, if_true, false_iff]
        exact fun h' => h (h' i le_rfl (by omega))

theorem firstNonEmpty_mem :
    ∀ {n i : Nat}, firstNonEmpty s n i ≠ 0 →
      ∃ j, i ≤ j ∧ j < i + n ∧ firstNonEmpty s n i = s.freeRoot j
  | 0, _, h => by simp [firstNonEmpty] at h
  | n + 1, i, h => by
      simp only [firstNonEmpty] at h ⊢
      by_cases hi : s.freeRoot i = 0
      · simp only [hi, ne_eq, not_true_eq_false, if_false] at h ⊢
        obtain ⟨j, h1, h2, h3⟩ := firstNonEmpty_mem h
        exact ⟨j, by omega, by omega, h3⟩
      · simp only [hi, ne_eq, not_false_eq_true, if_true]
        exact ⟨i, le_rfl, by omega, rfl⟩

end Loops

/-! ## Soundness and completeness -/

/-- **FIT SEARCH**: on any heap satisfying the free-list invariant (which
    includes the implicit-list walk) and for any `asize`, `find_fit` returns
    `NULL` exactly when no free block of the heap has `asize` bytes, and
    otherwise a node of one of the lists with at least `asize` bytes. Neither
    the look-ahead bound nor the head-only fallback loses a fit. -/
theorem findFit_spec {s : St} (hF : InvFree s) (asize : Nat) :
    (findFit s asize = 0 ↔ ∀ x, OnImplicit s x → getAlloc s x = false → getSize s x < asize) ∧
    (findFit s asize ≠ 0 → OnFreeList s (findFit s asize) ∧ asize ≤ getSize s (findFit s asize)) := by
  obtain ⟨l, fl, hI, hL, hperm⟩ := hF
  set h := getSeglistInd asize with hdef
  have hh : h < seglistLength := getSeglistInd_lt asize
  have hfree : ∀ x, (OnImplicit s x ∧ getAlloc s x = false) ↔ ∃ i < seglistLength, x ∈ fl i := by
    intro x
    have hmem := hperm.mem_iff (a := x)
    simp only [List.mem_flatMap, List.mem_range, List.mem_filter, Bool.not_eq_true'] at hmem
    have hon : OnImplicit s x ↔ x ∈ l :=
      ⟨fun ⟨l', hl', hx⟩ => ImplicitFrom.unique hl' hI ▸ hx, fun hx => ⟨l, hI, hx⟩⟩
    rw [hon, hmem]
  have hroot : ∀ j < seglistLength, (s.freeRoot j = 0 ↔ fl j = []) ∧
      (s.freeRoot j ≠ 0 → s.freeRoot j ∈ fl j) := fun j hj => (hL j hj).1.root
  have hbig : ∀ j < seglistLength, h < j → ∀ x ∈ fl j, asize < getSize s x :=
    fun j hj hhj x hx => lt_of_getSeglistInd_lt (((hL j hj).2.2 x hx).2 ▸ hhj)
  have hsmall : ∀ j < seglistLength, j < h → ∀ x ∈ fl j, getSize s x < asize :=
    fun j hj hhj x hx => lt_of_getSeglistInd_lt (((hL j hj).2.2 x hx).2 ▸ hhj)
  have hloop : findFitLoop s asize walkFuel (s.freeRoot h) 0 0 = fitLoop s asize (fl h) 0 0 :=
    findFitLoop_eq (hL h hh).1 (FreeChain.length_le (hL h hh).1 (hL h hh).2.1)
  have hnz : ∀ x ∈ fl h, x ≠ 0 := fun x hx => (FreeChain.mem_bound (hL h hh).1 hx).1
  simp only [findFit, ← hdef, hloop]
  have hfit0 := @fitLoop_eq_zero s asize (fl h) 0 0 hnz
  have hfits := @fitLoop_fits s asize (fl h) 0 0 (.inl rfl)
  have hfb := @firstNonEmpty_eq_zero s (seglistLength - (h + 1)) (h + 1)
  have hfm := @firstNonEmpty_mem s (seglistLength - (h + 1)) (h + 1)
  have h15 : seglistLength = 15 := rfl
  constructor
  · constructor
    · intro hz x hx hxf
      obtain ⟨i, hi, hxi⟩ := (hfree x).mp ⟨hx, hxf⟩
      split_ifs at hz with h0
      · rcases lt_trichotomy i h with hlt | rfl | hgt
        · exact hsmall i hi hlt x hxi
        · exact (hfit0.mp h0).2 x hxi
        · have := (hroot i hi).1.mp (hfb.mp hz i (by omega) (by omega))
          simp [this] at hxi
      · exact absurd hz h0
    · intro hall
      have hsm : ∀ j < seglistLength, ∀ x ∈ fl j, getSize s x < asize :=
        fun j hj x hx => hall x ((hfree x).mpr ⟨j, hj, hx⟩).1 ((hfree x).mpr ⟨j, hj, hx⟩).2
      have h0 : fitLoop s asize (fl h) 0 0 = 0 := hfit0.mpr ⟨rfl, hsm h hh⟩
      rw [if_pos h0]
      refine hfb.mpr fun j hj hj' => ?_
      by_contra hne
      have := hbig j (by omega) (by omega) _ ((hroot j (by omega)).2 hne)
      have := hsm j (by omega) _ ((hroot j (by omega)).2 hne)
      omega
  · intro hne
    split_ifs at hne ⊢ with h0
    · obtain ⟨j, hj1, hj2, hj3⟩ := hfm hne
      have hmem := (hroot j (by omega)).2 (hj3 ▸ hne)
      rw [hj3]
      exact ⟨⟨j, by omega, fl j, (hL j (by omega)).1, hmem⟩,
        le_of_lt (hbig j (by omega) (by omega) _ hmem)⟩
    · rcases hfits with h' | ⟨h1, h2 | h2⟩
      · exact absurd h' h0
      · exact absurd h2 h0
      · exact ⟨⟨h, hh, fl h, (hL h hh).1, h2⟩, h1⟩

end MmFindFit

namespace MmLayout

open MmCodec MmState St

/-! ## The working invariant gives the checker-level ones -/

section Bridge

variable {s : St} {bs : List Blk} {fl : Nat → List Nat}

/-- The epilogue word reads as size 0, allocated. -/
theorem Shape.epilogue_views (hS : Shape s bs) :
    getSize s (s.memBrk - 8) = 0 ∧ getAlloc s (s.memBrk - 8) = true := by
  obtain ⟨pa, he⟩ := hS.epilogue
  refine ⟨?_, by rw [getAlloc, he, extractAlloc_pack (by decide)]⟩
  rw [getSize_of_pack he (by decide) (by decide)]

/-- The heap walk visits the blocks of a contiguous run, given their words. -/
theorem implicitFrom_of {e : Nat} (he : getSize s e = 0) :
    ∀ {a : Nat} {pa : Bool} {l : List Blk}, Contig a l e →
      (∀ b ∈ l, BlockOK s b ∧ 16 ≤ b.size ∧ b.size % 16 = 0 ∧ b.addr % 16 = 8) →
      (∀ p ∈ withPrev pa l, getPrevAlloc s p.1.addr = p.2) → CoalescedFrom pa l →
      (∀ b ∈ l, b.alloc = false → b.size = 16 → extractMini (s.mem (b.addr + 8)) = true) →
      getPrevAlloc s e = lastAlloc pa l → ImplicitFrom s e a pa (l.map Blk.addr)
  | a, pa, [], hc, _, _, _, _, hpe => ⟨hc, he, hpe⟩
  | a, pa, b :: l, ⟨hab, hc⟩, hok, hpb, hco, htag, hpe => by
      subst hab
      obtain ⟨hb, h16, hd, hm⟩ := hok b (List.mem_cons_self _ _)
      have hfoot : headerToFooter s b.addr = b.addr + b.size - 8 := by
        simp only [headerToFooter, hb.size, wsize, dsize]; omega
      refine ⟨rfl, hm, by rw [hb.size]; omega, by rw [hb.size]; exact hd, by rw [hb.mini, hb.size],
        hpb (b, pa) (List.mem_cons_self _ _), fun hf => (coalescedFrom_cons.mp hco).1 (hb.alloc ▸ hf),
        fun hf h16' => by rw [hfoot, hb.size]; exact hb.footer (hb.alloc ▸ hf) (hb.size ▸ h16'),
        fun hf h16' => htag b (List.mem_cons_self _ _) (hb.alloc ▸ hf) (hb.size ▸ h16'), ?_⟩
      rw [findNext, hb.size, hb.alloc]
      exact implicitFrom_of he hc (fun c hc => hok c (List.mem_cons_of_mem _ hc))
        (fun p hp => hpb p (List.mem_cons_of_mem _ hp)) (coalescedFrom_cons.mp hco).2
        (fun c hc => htag c (List.mem_cons_of_mem _ hc)) hpe

/-- **BRIDGE** (walk): on a heap satisfying the working invariant, the walk
    from `heap_start` visits exactly the blocks. -/
theorem HeapInv.implicitFrom (h : HeapInv s bs fl) :
    ImplicitFrom s (s.memBrk - 1 - 7) s.heapStart true (bs.map Blk.addr) := by
  have hS := h.shape
  rw [show s.memBrk - 1 - 7 = s.memBrk - 8 by omega]
  exact implicitFrom_of hS.epilogue_views.1 hS.contig
    (fun b hb => ⟨hS.blocks b hb, hS.size_ge b hb, hS.size_dvd b hb, hS.addr_mod hb⟩)
    (fun p hp => h.prev.bits p hp (by simp)) h.coalesced
    (fun b hb hf h16 => h.lists.tag _ (getSeglistInd_lt _) _ (h.couple.complete b hb hf)
      (by rw [(hS.blocks b hb).mini, h16]; rfl))
    (h.prev.epilogue (by simp))

theorem freeChain_of_linked :
    ∀ {pv : Nat} {l : List Nat}, Linked (getPrevFree s) (getNextFree s) pv l 0 → (∀ x ∈ l, x ≠ 0) →
      FreeChain s pv (l.headD 0) l
  | _, [], _, _ => rfl
  | _, x :: l, ⟨h1, h2, h3⟩, hnz => ⟨rfl, hnz x (List.mem_cons_self _ _), h1, by
      rw [List.headD_cons, h2]
      exact freeChain_of_linked h3 fun y hy => hnz y (List.mem_cons_of_mem _ hy)⟩

/-- Block addresses increase along the heap. -/
theorem Shape.nodup_addr (hS : Shape s bs) : (bs.map Blk.addr).Nodup := by
  refine List.Pairwise.nodup (r := (· < ·)) (List.pairwise_map.mpr ?_)
  exact (Contig.pairwise hS.contig).imp_of_mem fun hb _ h => by have := hS.size_ge _ hb; omega

/-- Each list is the walk from its root. -/
theorem HeapInv.freeChain (h : HeapInv s bs fl) {i : Nat} (hi : i < seglistLength) :
    FreeChain s 0 (s.freeRoot i) (fl i) := by
  rw [h.lists.root i hi]
  exact freeChain_of_linked (h.lists.chain i hi) fun x hx => by
    obtain ⟨b, hb, rfl, -⟩ := h.couple.mem i hi x hx; exact (h.shape.ptr hb).2.2

/-- **BRIDGE** (lists): the working invariant gives the free-list invariant
    that `mm_checkheap` states. -/
theorem HeapInv.invFree (h : HeapInv s bs fl) : InvFree s := by
  have hS := h.shape
  have hfree : ∀ x, (∃ i < seglistLength, x ∈ fl i) ↔ ∃ b ∈ bs, b.addr = x ∧ b.alloc = false :=
    fun x => ⟨fun ⟨i, hi, hx⟩ => (h.couple.mem i hi x hx).imp fun b ⟨hb, h1, h2, _⟩ => ⟨hb, h1, h2⟩,
      fun ⟨b, hb, hbx, hbf⟩ => ⟨_, getSeglistInd_lt _, hbx ▸ h.couple.complete b hb hbf⟩⟩
  refine ⟨bs.map Blk.addr, fl, h.implicitFrom, fun i hi => ⟨h.freeChain hi, h.couple.nodup i hi,
    fun x hx => ?_⟩, (List.perm_ext_iff_of_nodup ?_ (hS.nodup_addr.filter _)).mpr fun x => ?_⟩
  · obtain ⟨b, hb, rfl, hbf, hbc⟩ := h.couple.mem i hi x hx
    exact ⟨(hS.blocks b hb).alloc.trans hbf, by rw [(hS.blocks b hb).size, hbc]⟩
  · refine List.nodup_flatMap.mpr ⟨fun i hi => h.couple.nodup i (List.mem_range.mp hi), ?_⟩
    refine List.Pairwise.imp_of_mem ?_ (List.nodup_range _)
    intro i j hi hj hij x hxi hxj
    exact h.couple.ne_of_mem hS (List.mem_range.mp hi) (List.mem_range.mp hj) hxi hxj (Ne.symm hij) rfl
  · simp only [List.mem_flatMap, List.mem_range, List.mem_filter, List.mem_map, Bool.not_eq_true']
    rw [show (∃ i, i < seglistLength ∧ x ∈ fl i) ↔ _ from hfree x]
    constructor
    · rintro ⟨b, hb, rfl, hbf⟩; exact ⟨⟨b, hb, rfl⟩, (hS.blocks b hb).alloc.trans hbf⟩
    · rintro ⟨⟨b, hb, rfl⟩, hbf⟩; exact ⟨b, hb, rfl, (hS.blocks b hb).alloc.symm.trans hbf⟩

/-- The list walk is deterministic. -/
theorem FreeChain.unique :
    ∀ {pv pv' b : Nat} {l l' : List Nat}, FreeChain s pv b l → FreeChain s pv' b l' → l = l'
  | _, _, _, [], [], _, _ => rfl
  | _, _, _, [], _ :: _, h, h' => absurd h h'.2.1
  | _, _, _, _ :: _, [], h, h' => absurd h' h.2.1
  | _, _, _, _ :: _, _ :: _, ⟨h1, _, _, h⟩, ⟨h1', _, _, h'⟩ => by rw [h1, h1', FreeChain.unique h h']

/-- `find_fit` on the working invariant: `NULL` exactly when no free block
    fits, and otherwise a free block that fits. -/
theorem HeapInv.findFit (h : HeapInv s bs fl) (asize : Nat) :
    (MmFindFit.findFit s asize = 0 ↔ ∀ b ∈ bs, b.alloc = false → b.size < asize) ∧
    (MmFindFit.findFit s asize ≠ 0 → ∃ b ∈ bs, b.addr = MmFindFit.findFit s asize ∧
      b.alloc = false ∧ asize ≤ b.size) := by
  have hS := h.shape
  have hon : ∀ x, OnImplicit s x ↔ ∃ b ∈ bs, b.addr = x := fun x =>
    ⟨fun ⟨l, hl, hx⟩ => by rw [ImplicitFrom.unique hl h.implicitFrom] at hx; simpa using hx,
      fun ⟨b, hb, hbx⟩ => ⟨_, h.implicitFrom, List.mem_map.mpr ⟨b, hb, hbx⟩⟩⟩
  obtain ⟨h0, h1⟩ := MmFindFit.findFit_spec h.invFree asize
  refine ⟨h0.trans ⟨fun H b hb hbf => ?_, fun H x hx hxf => ?_⟩, fun hne => ?_⟩
  · have := H b.addr ((hon _).mpr ⟨b, hb, rfl⟩) ((hS.blocks b hb).alloc.trans hbf)
    rwa [(hS.blocks b hb).size] at this
  · obtain ⟨b, hb, rfl⟩ := (hon x).mp hx
    rw [(hS.blocks b hb).size]; exact H b hb ((hS.blocks b hb).alloc.symm.trans hxf)
  · obtain ⟨⟨i, hi, l, hl, hx⟩, hsz⟩ := h1 hne
    have hli : l = fl i := FreeChain.unique hl (h.freeChain hi)
    obtain ⟨b, hb, hbx, hbf, -⟩ := h.couple.mem i hi _ (hli ▸ hx)
    exact ⟨b, hb, hbx, hbf, by rw [← hbx, (hS.blocks b hb).size] at hsz; exact hsz⟩

end Bridge

end MmLayout
