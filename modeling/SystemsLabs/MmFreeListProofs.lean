import SystemsLabs.MmLayoutProofs

/-! # The segregated free lists of `mm.c`

    Each of the fifteen lists `free_root[i]` is doubly linked through the
    free blocks themselves: a block that is not mini keeps its successor at
    `block + 8` and its predecessor at `block + 16`; a mini block keeps its
    successor, tagged with the mini bit, at `block + 8`, and its predecessor
    in the high bits of its own header. `add_to_free` pushes at the head and
    `remove_from_free` unlinks in one of four cases (sole, tail, head,
    interior). -/

namespace MmFreeList

open MmCodec MmState St MmLayout

/-- `remove_from_free(block)`: the four cases sole, tail, head, interior. -/
def removeFromFree (s : St) (block : Nat) : St :=
  let prev := getPrevFree s block
  let next := getNextFree s block
  let seglistInd := getSeglistInd (getSize s block)
  if next = 0 ∧ prev = 0 then s.setRoot seglistInd 0
  else if next = 0 then setNextFree s prev 0
  else if prev = 0 then (setPrevFree s next 0).setRoot seglistInd next
  else setPrevFree (setNextFree s prev next) next prev

/-- `add_to_free(block)`: push at the head of the block's list. -/
def addToFree (s : St) (block : Nat) : St :=
  let seglistInd := getSeglistInd (getSize s block)
  if s.freeRoot seglistInd = 0 then
    let s := s.setRoot seglistInd block
    let s := setPrevFree s (s.freeRoot seglistInd) 0
    setNextFree s (s.freeRoot seglistInd) 0
  else
    let s := setPrevFree s (s.freeRoot seglistInd) block
    let s := setNextFree s block (s.freeRoot seglistInd)
    let s := setPrevFree s block 0
    s.setRoot seglistInd block

/-- Both list edits only write words and roots. -/
theorem sameArena_removeFromFree {s : St} {block : Nat} :
    SameArena s (removeFromFree s block) :=
  .ite .setRoot (.ite .setNextFree (.ite (SameArena.setPrevFree.trans .setRoot)
    (SameArena.setNextFree.trans .setPrevFree)))

theorem sameArena_addToFree {s : St} {block : Nat} : SameArena s (addToFree s block) :=
  .ite (SameArena.setRoot.trans (SameArena.setPrevFree.trans .setNextFree))
    (SameArena.setPrevFree.trans (SameArena.setNextFree.trans
      (SameArena.setPrevFree.trans .setRoot)))

/-- A store to a word `add_to_free(x)` neither reads nor writes commutes with it. -/
theorem addToFree_store {s : St} {w v x : Nat} (hx : w ≠ x ∧ w ≠ x + 8 ∧ w ≠ x + 16)
    (hr : w ≠ s.freeRoot (getSeglistInd (getSize s x)) ∧
      w ≠ s.freeRoot (getSeglistInd (getSize s x)) + 16) :
    addToFree (s.store w v) x = (addToFree s x).store w v := by
  have hsz : getSize (s.store w v) x = getSize s x := getSize_congr (store_mem_of_ne (Ne.symm hx.1))
  unfold addToFree
  simp only [hsz, store_freeRoot]
  split
  · simp only [setRoot_freeRoot, setPrevFree_freeRoot, store_freeRoot, if_true]
    rw [setRoot_store, setPrevFree_store hx.1 hx.2.2, setNextFree_store hx.1 hx.2.1]
  · rw [setPrevFree_store hr.1 hr.2, store_freeRoot, setNextFree_store hx.1 hx.2.1,
      setPrevFree_store hx.1 hx.2.2, setRoot_store]

/-! ## What the two edits do to the invariant -/

section Specs

variable {s : St} {bs : List Blk} {fl : Nat → List Nat} {skip : Option Nat}

/-- The lists after unlinking `x`, from the views the unlinking leaves. -/
theorem lists_of_unlink (hS : Shape s bs) (hL : Lists s fl) (hD : Listed bs fl) {i x : Nat}
    (hi : i < seglistLength) {l₁ l₂ : List Nat} (hfl : fl i = l₁ ++ x :: l₂) {s' : St}
    (hV : ∀ c ∈ bs,
      getPrevFree s' c.addr = Function.update (getPrevFree s) (l₂.headD 0) (l₁.getLast?.getD 0) c.addr ∧
      getNextFree s' c.addr = Function.update (getNextFree s) (l₁.getLast?.getD 0) (l₂.headD 0) c.addr ∧
      getMini s' c.addr = getMini s c.addr ∧
      (getMini s c.addr = true → extractMini (s.mem (c.addr + 8)) = true →
        extractMini (s'.mem (c.addr + 8)) = true))
    (hR : ∀ j < seglistLength, s'.freeRoot j = (Function.update fl i (l₁ ++ l₂) j).headD 0) :
    Lists s' (Function.update fl i (l₁ ++ l₂)) := by
  have hnd : (l₁ ++ x :: l₂).Nodup := hfl ▸ hD.nodup i hi
  have node : ∀ j < seglistLength, ∀ z ∈ fl j, ∃ c ∈ bs, c.addr = z ∧ z ≠ 0 := fun j hj z hz => by
    obtain ⟨c, hc, hca, -⟩ := hD.mem j hj z hz
    exact ⟨c, hc, hca, hca ▸ (hS.ptr hc).2.2⟩
  have hsub : ∀ z, z ∈ l₁ ++ l₂ → z ∈ fl i := fun z hz => by
    rw [hfl]; rcases List.mem_append.mp hz with h | h
    · exact List.mem_append_left _ h
    · exact List.mem_append_right _ (List.mem_cons_of_mem _ h)
  refine ⟨hR, fun j hj => ?_, fun j hj z hz => ?_⟩
  · by_cases hji : j = i
    · subst hji
      rw [Function.update_same]
      have h0 : (0 : Nat) ∉ l₁ ++ l₂ := fun h => by
        obtain ⟨_, _, _, h0⟩ := node j hj 0 (hsub 0 h); exact h0 rfl
      refine (Linked.unlink (hfl ▸ hL.chain j hj) hnd h0 h0).congr fun z hz => ?_
      obtain ⟨c, hc, rfl, -⟩ := node j hj z (hsub z hz)
      exact ⟨(hV c hc).1, (hV c hc).2.1⟩
    · rw [Function.update_noteq hji]
      refine (hL.chain j hj).congr fun z hz => ?_
      obtain ⟨c, hc, rfl, hz0⟩ := node j hj _ hz
      have hne : ∀ y ∈ fl i, c.addr ≠ y := fun y hy => hD.ne_of_mem hS hi hj hy hz hji
      have hpv : c.addr ≠ l₁.getLast?.getD 0 := by
        cases l₁ using List.reverseRecOn with
        | nil => exact hz0
        | append_singleton l v _ =>
          simpa using hne v (hfl ▸ List.mem_append_left _ (List.mem_append_right _ (List.mem_singleton_self v)))
      have hnx : c.addr ≠ l₂.headD 0 := by
        cases l₂ with
        | nil => exact hz0
        | cons v l => exact hne v (hfl ▸ List.mem_append_right _ (List.mem_cons_of_mem _ (List.mem_cons_self _ _)))
      rw [(hV c hc).1, (hV c hc).2.1, Function.update_noteq hnx, Function.update_noteq hpv]
      exact ⟨rfl, rfl⟩
  · have hz' : z ∈ fl j := by
      by_cases hji : j = i
      · subst hji; rw [Function.update_same] at hz; exact hsub z hz
      · rwa [Function.update_noteq hji] at hz
    obtain ⟨c, hc, rfl, -⟩ := node j hj z hz'
    intro hm
    rw [(hV c hc).2.2.1] at hm
    exact (hV c hc).2.2.2 hm (hL.tag j hj _ hz' hm)

/-- `remove_from_free(x)` for a node `x` of list `i`: the blocks are as they
    were, the list loses `x`, and only words inside the free blocks around
    `x` change. -/
theorem removeFromFree_spec (hS : Shape s bs) (hP : PrevOK s bs skip) (hL : Lists s fl)
    (hD : Listed bs fl) {i x : Nat} (hi : i < seglistLength) (hx : x ∈ fl i) :
    Shape (removeFromFree s x) bs ∧ PrevOK (removeFromFree s x) bs skip ∧
      Lists (removeFromFree s x) (Function.update fl i ((fl i).erase x)) ∧
      ∀ a, (removeFromFree s x).mem a ≠ s.mem a →
        ∃ c ∈ bs, c.alloc = false ∧ c.addr ≠ x ∧ c.addr ≤ a ∧ a < c.addr + c.size := by
  obtain ⟨l₁, l₂, hfl⟩ := List.append_of_mem hx
  have hnd : (l₁ ++ x :: l₂).Nodup := hfl ▸ hD.nodup i hi
  have hx₁ : x ∉ l₁ := fun h => (List.nodup_append.mp hnd).2.2 h (List.mem_cons_self x l₂)
  have herase : (fl i).erase x = l₁ ++ l₂ := by
    rw [hfl, List.erase_append_right _ hx₁, List.erase_cons_head]
  rw [herase]
  have hch := hL.chain i hi
  rw [hfl] at hch
  obtain ⟨-, hpx, hnx, -⟩ := Linked.append.mp hch
  obtain ⟨xb, hxb, hxa, hxf, hxc⟩ := hD.mem i hi x hx
  have hcls : getSeglistInd (getSize s x) = i := by rw [← hxa, (hS.blocks xb hxb).size, hxc]
  have hroot : ∀ {r : St}, r.freeRoot = s.freeRoot → l₁ ≠ [] →
      ∀ j < seglistLength, r.freeRoot j = (Function.update fl i (l₁ ++ l₂) j).headD 0 := by
    intro r hr h₁ j hj
    rw [hr, hL.root j hj, Function.update_apply]
    split
    · subst j; rw [hfl]; obtain ⟨v, l, rfl⟩ := List.exists_cons_of_ne_nil h₁; rfl
    · rfl
  have hne0 : ∀ c ∈ bs, c.addr ≠ 0 := fun c hc => (hS.ptr hc).2.2
  have hpv : ∀ {l₀ : List Nat} {v : Nat}, (l₀ ++ [v]).getLast?.getD 0 = v := by simp
  cases l₂ with
  | nil =>
    cases l₁ using List.reverseRecOn with
    | nil =>
      -- the only node
      have heq : removeFromFree s x = s.setRoot i 0 := by simp [removeFromFree, hpx, hnx, hcls]
      rw [heq]
      refine ⟨hS.setRoot i 0, hP.setRoot i 0, lists_of_unlink hS hL hD hi hfl (fun c hc => ?_) ?_,
        fun a ha => absurd rfl ha⟩
      · simp only [List.getLast?_nil, Option.getD_none, List.headD_nil,
          Function.update_noteq (hne0 c hc)]
        exact ⟨rfl, rfl, rfl, fun _ h => h⟩
      · intro j hj
        rw [setRoot_freeRoot, Function.update_apply]
        split
        · rfl
        · rw [hL.root j hj]
    | append_singleton l₀ v _ =>
      -- the last node
      obtain ⟨vb, hvb, rfl, hvf, -⟩ := hD.mem i hi v
        (hfl ▸ List.mem_append_left _ (List.mem_append_right _ (List.mem_singleton_self _)))
      have heq : removeFromFree s x = setNextFree s vb.addr 0 := by
        simp [removeFromFree, hpx, hnx, hcls, hne0 vb hvb]
      rw [heq]
      have hvx : vb.addr ≠ x := fun e => hx₁ (e ▸ List.mem_append_right _ (List.mem_singleton_self _))
      refine ⟨(Shape.setNextFree hS hvb 0).1, Shape.setNextFree_prev hS hvb hP 0,
        lists_of_unlink hS hL hD hi hfl (fun c hc => ?_)
          (hroot setNextFree_freeRoot (by simp)),
        fun a ha => ⟨vb, hvb, hvf, hvx, ?_⟩⟩
      · obtain ⟨h1, h2, h3, h4⟩ := Shape.setNextFree_views hS hvb (n := 0) rfl (by norm_num) hc
        rw [hpv, List.headD_nil, Function.update_noteq (hne0 c hc), Function.update_apply]
        exact ⟨h1, h2, h3, h4⟩
      · have := (Shape.setNextFree hS hvb 0).2 a ha; have := hS.size_ge vb hvb; omega
  | cons y l₃ =>
    obtain ⟨yb, hyb, rfl, hyf, -⟩ := hD.mem i hi y
      (hfl ▸ List.mem_append_right _ (List.mem_cons_of_mem _ (List.mem_cons_self _ _)))
    have hyx : yb.addr ≠ x := fun e => (List.nodup_cons.mp (List.nodup_append.mp hnd).2.1).1
      (e ▸ List.mem_cons_self _ _)
    cases l₁ using List.reverseRecOn with
    | nil =>
      -- the first node of a longer list
      have heq : removeFromFree s x = (setPrevFree s yb.addr 0).setRoot i yb.addr := by
        simp [removeFromFree, hpx, hnx, hcls, hne0 yb hyb]
      rw [heq]
      refine ⟨(Shape.setPrevFree hS hyb rfl (by norm_num)).1.setRoot _ _,
        (Shape.setPrevFree_prev hS hyb hP rfl (by norm_num)).setRoot _ _,
        lists_of_unlink hS hL hD hi hfl (fun c hc => ?_) (fun j hj => ?_),
        fun a ha => ⟨yb, hyb, hyf, hyx, ?_⟩⟩
      · obtain ⟨h1, h2, h3, h4⟩ := Shape.setPrevFree_views hS hyb (p := 0) rfl (by norm_num) hc
        rw [List.getLast?_nil, Option.getD_none, List.headD_cons, Function.update_apply,
          Function.update_noteq (hne0 c hc)]
        exact ⟨h1, h2, h3, fun _ h => h4 ▸ h⟩
      · rw [setRoot_freeRoot, Function.update_apply]
        split
        · rfl
        · rename_i hji
          show (setPrevFree s yb.addr 0).freeRoot j = _
          unfold setPrevFree; split <;> exact hL.root j hj
      · have := hS.size_ge yb hyb
        rcases (Shape.setPrevFree hS hyb (p := 0) rfl (by norm_num)).2.1 a ha with ⟨rfl, _⟩ | ⟨rfl, _⟩ <;>
          omega
    | append_singleton l₀ v _ =>
      -- a node inside the list
      obtain ⟨vb, hvb, rfl, hvf, -⟩ := hD.mem i hi v
        (hfl ▸ List.mem_append_left _ (List.mem_append_right _ (List.mem_singleton_self _)))
      have hvx : vb.addr ≠ x := fun e => hx₁ (e ▸ List.mem_append_right _ (List.mem_singleton_self _))
      have heq : removeFromFree s x = setPrevFree (setNextFree s vb.addr yb.addr) yb.addr vb.addr := by
        simp [removeFromFree, hpx, hnx, hcls, hne0 vb hvb, hne0 yb hyb]
      rw [heq]
      obtain ⟨hS₁, hw₁⟩ := Shape.setNextFree hS hvb yb.addr
      have hy := hS.ptr hyb; have hv := hS.ptr hvb
      refine ⟨(Shape.setPrevFree hS₁ hyb hv.1 hv.2.1).1,
        Shape.setPrevFree_prev hS₁ hyb (Shape.setNextFree_prev hS hvb hP _) hv.1 hv.2.1,
        lists_of_unlink hS hL hD hi hfl (fun c hc => ?_)
          (hroot (by simp only [setPrevFree_freeRoot, setNextFree_freeRoot]) (by simp)),
        fun a ha => ?_⟩
      · obtain ⟨h1, h2, h3, h4⟩ := Shape.setNextFree_views hS hvb hy.1 hy.2.1 hc
        obtain ⟨h1', h2', h3', h4'⟩ := Shape.setPrevFree_views hS₁ hyb hv.1 hv.2.1 hc
        rw [hpv, List.headD_cons, Function.update_apply, Function.update_apply]
        refine ⟨by rw [h1', h1], by rw [h2', h2], by rw [h3', h3], fun hm ht => h4' ▸ h4 hm ht⟩
      · by_cases ha₁ : (setNextFree s vb.addr yb.addr).mem a = s.mem a
        · rw [← ha₁] at ha
          have := hS.size_ge yb hyb
          refine ⟨yb, hyb, hyf, hyx, ?_⟩
          rcases (Shape.setPrevFree hS₁ hyb hv.1 hv.2.1).2.1 a ha with ⟨rfl, _⟩ | ⟨rfl, _⟩ <;> omega
        · have := hw₁ a ha₁; have := hS.size_ge vb hvb
          exact ⟨vb, hvb, hvf, hvx, by omega, by omega⟩

/-- The lists after pushing `x`, from the views the push leaves. -/
theorem lists_of_push (hS : Shape s bs) (hL : Lists s fl) (hD : Listed bs fl) {i : Nat}
    (hi : i < seglistLength) {xb : Blk} (hxb : xb ∈ bs) (hx : ∀ j < seglistLength, xb.addr ∉ fl j)
    {s' : St}
    (hV : ∀ c ∈ bs,
      getPrevFree s' c.addr =
        Function.update (Function.update (getPrevFree s) ((fl i).headD 0) xb.addr) xb.addr 0 c.addr ∧
      getNextFree s' c.addr = Function.update (getNextFree s) xb.addr ((fl i).headD 0) c.addr ∧
      getMini s' c.addr = getMini s c.addr ∧
      (getMini s c.addr = true → (c = xb ∨ extractMini (s.mem (c.addr + 8)) = true) →
        extractMini (s'.mem (c.addr + 8)) = true))
    (hR : ∀ j < seglistLength, s'.freeRoot j = (Function.update fl i (xb.addr :: fl i) j).headD 0) :
    Lists s' (Function.update fl i (xb.addr :: fl i)) := by
  have node : ∀ j < seglistLength, ∀ z ∈ fl j, ∃ c ∈ bs, c.addr = z ∧ z ≠ 0 := fun j hj z hz => by
    obtain ⟨c, hc, hca, -⟩ := hD.mem j hj z hz
    exact ⟨c, hc, hca, hca ▸ (hS.ptr hc).2.2⟩
  refine ⟨hR, fun j hj => ?_, fun j hj z hz => ?_⟩
  · by_cases hji : j = i
    · subst hji
      rw [Function.update_same]
      refine (Linked.push (hL.chain j hj) (hD.nodup j hj) (hx j hj)).congr fun z hz => ?_
      rcases List.mem_cons.mp hz with rfl | hz
      · exact ⟨(hV xb hxb).1, (hV xb hxb).2.1⟩
      · obtain ⟨c, hc, rfl, -⟩ := node j hj z hz
        exact ⟨(hV c hc).1, (hV c hc).2.1⟩
    · rw [Function.update_noteq hji]
      refine (hL.chain j hj).congr fun z hz => ?_
      obtain ⟨c, hc, rfl, hz0⟩ := node j hj _ hz
      have hcx : c.addr ≠ xb.addr := fun e => hx j hj (e ▸ hz)
      have hch : c.addr ≠ (fl i).headD 0 := by
        obtain h | ⟨r, l, h⟩ : fl i = [] ∨ ∃ r l, fl i = r :: l := by cases fl i <;> simp
        · rw [h]; exact hz0
        · rw [h]; exact hD.ne_of_mem hS hi hj (y := r) (h ▸ List.mem_cons_self r l) hz hji
      rw [(hV c hc).1, (hV c hc).2.1, Function.update_noteq hcx, Function.update_noteq hcx,
        Function.update_noteq hch]
      exact ⟨rfl, rfl⟩
  · intro hm
    by_cases hji : j = i
    · subst hji
      rw [Function.update_same] at hz
      rcases List.mem_cons.mp hz with rfl | hz
      · rw [(hV xb hxb).2.2.1] at hm; exact (hV xb hxb).2.2.2 hm (.inl rfl)
      · obtain ⟨c, hc, rfl, -⟩ := node j hj z hz
        rw [(hV c hc).2.2.1] at hm; exact (hV c hc).2.2.2 hm (.inr (hL.tag j hj _ hz hm))
    · rw [Function.update_noteq hji] at hz
      obtain ⟨c, hc, rfl, -⟩ := node j hj z hz
      rw [(hV c hc).2.2.1] at hm; exact (hV c hc).2.2.2 hm (.inr (hL.tag j hj _ hz hm))

/-- `add_to_free(x)` for a free block `x` on no list: the blocks are as they
    were, `x` heads its size class's list, and only words inside `x` and the
    old head change. -/
theorem addToFree_spec (hS : Shape s bs) (hP : PrevOK s bs skip) (hL : Lists s fl)
    (hD : Listed bs fl) {xb : Blk} (hxb : xb ∈ bs) (hxf : xb.alloc = false)
    (hx : ∀ j < seglistLength, xb.addr ∉ fl j) :
    Shape (addToFree s xb.addr) bs ∧ PrevOK (addToFree s xb.addr) bs skip ∧
      Lists (addToFree s xb.addr)
        (Function.update fl (getSeglistInd xb.size) (xb.addr :: fl (getSeglistInd xb.size))) ∧
      ∀ a, (addToFree s xb.addr).mem a ≠ s.mem a →
        ∃ c ∈ bs, c.alloc = false ∧ c.addr ≤ a ∧ a < c.addr + c.size := by
  set i := getSeglistInd xb.size with hidef
  have hi : i < seglistLength := getSeglistInd_lt _
  have hcls : getSeglistInd (getSize s xb.addr) = i := by rw [(hS.blocks xb hxb).size]
  have hx0 := hS.ptr hxb
  have hne0 : ∀ c ∈ bs, c.addr ≠ 0 := fun c hc => (hS.ptr hc).2.2
  have hxs := hS.size_ge xb hxb
  have hroot := hL.root i hi
  obtain hfi | ⟨r, l, hfi⟩ : fl i = [] ∨ ∃ r l, fl i = r :: l := by cases fl i <;> simp
  · -- an empty list
    rw [hfi, List.headD_nil] at hroot
    have heq : addToFree s xb.addr = setNextFree (setPrevFree (s.setRoot i xb.addr) xb.addr 0) xb.addr 0 := by
      simp [addToFree, hcls, hroot, setRoot_freeRoot]
    rw [heq]
    have hS₁ := hS.setRoot i xb.addr
    obtain ⟨hS₂, hw₂, -⟩ := Shape.setPrevFree hS₁ hxb (p := 0) rfl (by norm_num)
    obtain ⟨hS₃, hw₃⟩ := Shape.setNextFree hS₂ hxb 0
    refine ⟨hS₃, Shape.setNextFree_prev hS₂ hxb
        (Shape.setPrevFree_prev hS₁ hxb (hP.setRoot i xb.addr) rfl (by norm_num)) 0,
      lists_of_push hS hL hD hi hxb hx (fun c hc => ?_) (fun j hj => ?_),
      fun a ha => ⟨xb, hxb, hxf, ?_⟩⟩
    · obtain ⟨h1, h2, h3, h4⟩ := Shape.setNextFree_views hS₂ hxb (n := 0) rfl (by norm_num) hc
      obtain ⟨h1', h2', h3', h4'⟩ := Shape.setPrevFree_views hS₁ hxb (p := 0) rfl (by norm_num) hc
      simp only [hfi, List.headD_nil, Function.update_apply, if_neg (hne0 c hc)]
      refine ⟨h1.trans h1', h2.trans (by rw [h2']; rfl), h3.trans h3', fun hm hc' => ?_⟩
      by_cases hcx : c = xb
      · subst hcx
        exact extractMini_setNextFree (by rw [h3']; exact hm) rfl
      · exact h4 (by rw [h3']; exact hm) (by rw [h4']; exact hc'.resolve_left hcx)
    · rw [setNextFree_freeRoot, setPrevFree_freeRoot, setRoot_freeRoot, Function.update_apply]
      split
      · rfl
      · rw [hL.root j hj]
    · by_cases h₃ : (setPrevFree (s.setRoot i xb.addr) xb.addr 0).mem a = s.mem a
      · have := hw₃ a (h₃ ▸ ha); omega
      · rcases hw₂ a h₃ with ⟨rfl, _⟩ | ⟨rfl, _⟩ <;> omega
  · -- push in front of the head `r`
    rw [hfi, List.headD_cons] at hroot
    obtain ⟨rb, hrb, rfl, hrf, -⟩ := hD.mem i hi r (hfi ▸ List.mem_cons_self r l)
    have hr := hS.ptr hrb
    have hrx : rb ≠ xb := fun e => hx i hi (e ▸ hfi ▸ List.mem_cons_self _ l)
    have hrx' : rb.addr ≠ xb.addr := fun e => hrx (hS.eq_of_addr hrb hxb e)
    have heq : addToFree s xb.addr =
        (setPrevFree (setNextFree (setPrevFree s rb.addr xb.addr) xb.addr rb.addr) xb.addr 0).setRoot
          i xb.addr := by
      simp [addToFree, hcls, hroot, hne0 rb hrb]
    rw [heq]
    obtain ⟨hS₁, hw₁, -⟩ := Shape.setPrevFree hS hrb hx0.1 hx0.2.1
    obtain ⟨hS₂, hw₂⟩ := Shape.setNextFree hS₁ hxb rb.addr
    obtain ⟨hS₃, hw₃, -⟩ := Shape.setPrevFree hS₂ hxb (p := 0) rfl (by norm_num)
    have hrs := hS.size_ge rb hrb
    refine ⟨hS₃.setRoot _ _, (Shape.setPrevFree_prev hS₂ hxb (Shape.setNextFree_prev hS₁ hxb
        (Shape.setPrevFree_prev hS hrb hP hx0.1 hx0.2.1) _) rfl (by norm_num)).setRoot _ _,
      lists_of_push hS hL hD hi hxb hx (fun c hc => ?_) (fun j hj => ?_), fun a ha => ?_⟩
    · obtain ⟨h1, h2, h3, h4⟩ := Shape.setPrevFree_views hS hrb hx0.1 hx0.2.1 hc
      obtain ⟨h1', h2', h3', h4'⟩ := Shape.setNextFree_views hS₁ hxb hr.1 hr.2.1 hc
      obtain ⟨h1'', h2'', h3'', h4''⟩ := Shape.setPrevFree_views hS₂ hxb (p := 0) rfl (by norm_num) hc
      simp only [hfi, List.headD_cons, Function.update_apply]
      refine ⟨h1''.trans (by rw [h1', h1]), h2''.trans (by rw [h2', h2]), h3''.trans (h3'.trans h3),
        fun hm hc' => ?_⟩
      show extractMini ((setPrevFree _ xb.addr 0).mem (c.addr + 8)) = true
      rw [h4'']
      by_cases hcx : c = xb
      · subst hcx
        exact extractMini_setNextFree (by rw [h3]; exact hm) hr.1
      · exact h4' (by rw [h3]; exact hm) (by rw [h4]; exact hc'.resolve_left hcx)
    · rw [setRoot_freeRoot, Function.update_apply]
      split
      · rfl
      · rw [setPrevFree_freeRoot, setNextFree_freeRoot, setPrevFree_freeRoot, hL.root j hj]
    · have := hS.size_dvd xb hxb; have := hS.size_dvd rb hrb
      by_cases h₃ : (setNextFree (setPrevFree s rb.addr xb.addr) xb.addr rb.addr).mem a = s.mem a
      · exact ⟨xb, hxb, hxf, by
          rcases hw₃ a (by rw [← h₃] at ha; exact ha) with ⟨rfl, _⟩ | ⟨rfl, _⟩ <;> omega⟩
      · by_cases h₂ : (setPrevFree s rb.addr xb.addr).mem a = s.mem a
        · exact ⟨xb, hxb, hxf, by have := hw₂ a (h₂ ▸ h₃); omega⟩
        · exact ⟨rb, hrb, hrf, by rcases hw₁ a h₂ with ⟨rfl, _⟩ | ⟨rfl, _⟩ <;> omega⟩

end Specs

end MmFreeList
