import SystemsLabs.MmFreeListProofs

/-! # Rewriting blocks

    The writers of `mm.c` that change which blocks the heap holds, on the
    working invariant of `MmLayout`:

    * `write_block` makes one well-formed block (`blockOK_writeBlock`);
    * a run of blocks `m` over `[a, e)` rewritten as blocks `m'` over the same
      span keeps the shape (`Shape.replace`), and keeps the prev-alloc bits but
      possibly the one at `e` (`PrevOK.replace`);
    * `set_prev_alloc` on a header fixes that one bit (`PrevOK.fix`), which is
      what `update_next` does (`updateNext_spec`);
    * `find_prev` finds a free predecessor through its footer or through a
      mini block's tagged successor word (`findPrev_eq`);
    * a run of free blocks off the lists becomes one listed free block
      (`merge_spec`): the common tail of every case of `coalesce_block`. -/

namespace MmLayout

open MmCodec MmState St

section WriteBlock

variable {s : St} {x size : Nat} {alloc pa : Bool}

/-- The block `write_block` writes is well formed. -/
theorem blockOK_writeBlock (hs : size % 16 = 0) (h16 : 16 ≤ size) (hlt : size < 2 ^ 64) :
    BlockOK (writeBlock s x size alloc pa) ⟨x, size, alloc⟩ where
  hdr_lt := by rw [writeBlock_mem_self hs h16 hlt]; exact pack_lt hs _ _ hlt
  size := getSize_of_pack (writeBlock_mem_self hs h16 hlt) hs hlt
  alloc := getAlloc_of_pack (writeBlock_mem_self hs h16 hlt) hs
  mini := getMini_of_pack (writeBlock_mem_self hs h16 hlt) hs
  footer h1 h2 := by
    have : (writeBlock s x size alloc pa).mem (x + size - 8) = pack size alloc pa := by
      rw [writeBlock_eq hs hlt, if_pos ⟨h1, h2⟩, store_mem_self]
    simp only at h1 h2 ⊢
    rw [this, extractSize_pack hs _ _ hlt, extractMini_pack hs]
    simpa using h2

end WriteBlock

theorem contig_append3 {x y : Nat} {l₁ m l₂ : List Blk} :
    Contig x (l₁ ++ m ++ l₂) y ↔ ∃ a e, Contig x l₁ a ∧ Contig a m e ∧ Contig e l₂ y := by
  simp only [contig_append]
  constructor
  · rintro ⟨e, ⟨a, h₁, hm⟩, h₂⟩; exact ⟨a, e, h₁, hm, h₂⟩
  · rintro ⟨a, e, h₁, hm, h₂⟩; exact ⟨e, ⟨a, h₁, hm⟩, h₂⟩

section Replace

variable {s s' : St} {l₁ m m' l₂ : List Blk} {a e : Nat}

/-- Rewriting the blocks `m`, which span `[a, e)`, as blocks `m'` over the
    same span keeps the shape, given that only words of the span change and
    the new blocks are well formed. -/
theorem Shape.replace (hS : Shape s (l₁ ++ m ++ l₂)) (har : SameArena s s')
    (h₁ : Contig s.heapStart l₁ a) (h₂ : Contig e l₂ (s.memBrk - 8)) (hm' : Contig a m' e)
    (hsz : ∀ b ∈ m', 16 ≤ b.size ∧ b.size % 16 = 0) (hok : ∀ b ∈ m', BlockOK s' b)
    (hag : ∀ x, s'.mem x ≠ s.mem x → a ≤ x ∧ x < e) : Shape s' (l₁ ++ m' ++ l₂) := by
  have hb₁ := Contig.bounds h₁; have hb₂ := Contig.bounds h₂
  have out : ∀ x, x < a ∨ e ≤ x → s'.mem x = s.mem x := fun x hx => by
    by_contra h; have := hag x h; omega
  have hst := hS.start
  have hin : ∀ {b}, b ∈ l₁ ∨ b ∈ l₂ → b ∈ l₁ ++ m ++ l₂ := fun h => by
    rcases h with h | h <;> simp [h]
  refine ⟨har.memStartBrk ▸ hS.base_align, har.memStartBrk ▸ hS.base_pos,
    har.memMaxAddr ▸ hS.max_lt, har.memBrk ▸ har.memMaxAddr ▸ hS.brk_le,
    har.heapStart ▸ har.memStartBrk ▸ hS.start, ?_, ?_, fun b hb => ?_, fun b hb => ?_,
    fun b hb => ?_, ?_⟩
  · rw [har.memStartBrk, out _ (.inl (by omega))]; exact hS.prologue
  · rw [har.heapStart, har.memBrk]; exact contig_append3.mpr ⟨a, e, h₁, hm', h₂⟩
  · rcases List.mem_append.mp hb with hb | hb
    · rcases List.mem_append.mp hb with hb | hb
      · exact hS.size_ge b (hin (.inl hb))
      · exact (hsz b hb).1
    · exact hS.size_ge b (hin (.inr hb))
  · rcases List.mem_append.mp hb with hb | hb
    · rcases List.mem_append.mp hb with hb | hb
      · exact hS.size_dvd b (hin (.inl hb))
      · exact (hsz b hb).2
    · exact hS.size_dvd b (hin (.inr hb))
  · rcases List.mem_append.mp hb with hb | hb
    · rcases List.mem_append.mp hb with hb | hb
      · have := hb₁.2 b hb
        exact (hS.blocks b (hin (.inl hb))).frame (hS.size_ge b (hin (.inl hb)))
          fun x _ _ => out x (.inl (by omega))
      · exact hok b hb
    · have := hb₂.2 b hb
      exact (hS.blocks b (hin (.inr hb))).frame (hS.size_ge b (hin (.inr hb)))
        fun x _ _ => out x (.inr (by omega))
  · rw [har.memBrk, out _ (.inr hb₂.1)]; exact hS.epilogue

/-- The prev-alloc bits after rewriting the blocks `m` over `[a, e)` as `m'`:
    the bits outside the span are as they were, so it remains to give those of
    `m'` and the one at `e`, which a change of the last block's allocated bit
    leaves stale unless it is the new `skip`. -/
theorem PrevOK.replace (hS : Shape s (l₁ ++ m ++ l₂)) (hP : PrevOK s (l₁ ++ m ++ l₂) skip)
    (h₁ : Contig s.heapStart l₁ a) (h₂ : Contig e l₂ (s.memBrk - 8)) (hbrk : s'.memBrk = s.memBrk)
    (hag : ∀ x, s'.mem x ≠ s.mem x → a ≤ x ∧ x < e) (hsk : ∀ x, skip = some x → a ≤ x ∧ x ≤ e)
    {skip' : Option Nat}
    (hbits : ∀ p ∈ withPrev (lastAlloc true l₁) m', some p.1.addr ≠ skip' →
      getPrevAlloc s' p.1.addr = p.2)
    (he : some e ≠ skip' → getPrevAlloc s' e = lastAlloc (lastAlloc true l₁) m') :
    PrevOK s' (l₁ ++ m' ++ l₂) skip' := by
  have hb₁ := Contig.bounds h₁; have hb₂ := Contig.bounds h₂
  have out : ∀ x, x < a ∨ e ≤ x → getPrevAlloc s' x = getPrevAlloc s x := fun x hx =>
    getPrevAlloc_congr (by by_contra h; have := hag x h; omega)
  have hold : ∀ x, x < a ∨ e < x → some x ≠ skip := fun x hx h => by
    have := hsk x h.symm; omega
  have hsz : ∀ b ∈ l₁ ++ m ++ l₂, 16 ≤ b.size := hS.size_ge
  refine ⟨fun p hp hs => ?_, fun hs => ?_⟩
  · rw [withPrev_append, withPrev_append, List.mem_append, List.mem_append] at hp
    rcases hp with (hp | hp) | hp
    · have hc := fst_mem_of_withPrev hp
      have := hb₁.2 _ hc; have := hsz p.1 (by simp [hc])
      rw [out _ (.inl (by omega))]
      exact hP.bits p (by rw [withPrev_append, withPrev_append]; simp [hp]) (hold _ (.inl (by omega)))
    · exact hbits p hp hs
    · cases l₂ with
      | nil => exact nomatch hp
      | cons c l₂ =>
        obtain ⟨hce, h₂'⟩ := h₂
        rcases List.mem_cons.mp hp with rfl | hp
        · show getPrevAlloc s' c.addr = lastAlloc true (l₁ ++ m')
          rw [lastAlloc_append, hce]; exact he (hce ▸ hs)
        · have hc := fst_mem_of_withPrev hp
          have := (Contig.bounds h₂').2 _ hc; have := hsz c (by simp)
          rw [out _ (.inr (by omega))]
          refine hP.bits p ?_ (hold _ (.inr (by omega)))
          rw [withPrev_append, withPrev_append]; simp [withPrev, hp]
  · rw [hbrk] at hs ⊢
    rw [lastAlloc_append, lastAlloc_append]
    cases l₂ with
    | nil => exact h₂ ▸ he (h₂ ▸ hs)
    | cons c l₂ =>
      obtain ⟨hce, h₂'⟩ := h₂
      have := (Contig.bounds h₂').1; have := hsz c (by simp)
      rw [out _ (.inr (by omega))]
      have := hP.epilogue (hold _ (.inr (by omega)))
      rwa [lastAlloc_append, lastAlloc_append] at this

end Replace

/-- The lists read only the link views of listed blocks and the roots. -/
theorem Lists.congr {s s' : St} {fl : Nat → List Nat} (hL : Lists s fl)
    (hroot : s'.freeRoot = s.freeRoot)
    (hv : ∀ i < seglistLength, ∀ z ∈ fl i, getPrevFree s' z = getPrevFree s z ∧
      getNextFree s' z = getNextFree s z ∧ getMini s' z = getMini s z ∧
      s'.mem (z + 8) = s.mem (z + 8)) : Lists s' fl := by
  refine ⟨fun i hi => hroot ▸ hL.root i hi, fun i hi => (hL.chain i hi).congr fun z hz => ?_,
    fun i hi z hz hm => ?_⟩
  · obtain ⟨h1, h2, -⟩ := hv i hi z hz; exact ⟨h1, h2⟩
  · obtain ⟨-, -, h3, h4⟩ := hv i hi z hz
    rw [h4]; exact hL.tag i hi z hz (h3 ▸ hm)

/-- The lists read only the words of listed blocks and the roots. -/
theorem Lists.frame {s s' : St} {bs : List Blk} {fl : Nat → List Nat} (hS : Shape s bs)
    (hL : Lists s fl) (hD : Listed bs fl) (hroot : s'.freeRoot = s.freeRoot)
    (hag : ∀ c ∈ bs, (∃ i < seglistLength, c.addr ∈ fl i) →
      ∀ x, c.addr ≤ x → x < c.addr + c.size → s'.mem x = s.mem x) : Lists s' fl :=
  hL.congr hroot fun i hi z hz => by
    obtain ⟨c, hc, rfl, -⟩ := hD.mem i hi z hz
    exact hS.views_congr hc fun x h1 h2 => hag c hc ⟨i, hi, hz⟩ x h1 h2

/-! ## Setting a prev-alloc bit -/

section SetPrevAlloc

variable {s : St} {bs : List Blk} {h : Nat}

/-- A header: of a block, or the epilogue. -/
def IsHeader (s : St) (bs : List Blk) (h : Nat) : Prop := (∃ d ∈ bs, d.addr = h) ∨ h = s.memBrk - 8

theorem Shape.header_lt (hS : Shape s bs) (hh : IsHeader s bs h) : s.mem h < 2 ^ 64 ∧ h % 16 = 8 := by
  rcases hh with ⟨d, hd, rfl⟩ | rfl
  · exact ⟨(hS.blocks d hd).hdr_lt, hS.addr_mod hd⟩
  · obtain ⟨pa, he⟩ := hS.epilogue
    exact ⟨he ▸ pack_lt (by norm_num) _ _ (by norm_num), hS.epi_mod⟩

/-- A header lies in no block but its own. -/
theorem Shape.header_not_mem (hS : Shape s bs) (hh : IsHeader s bs h) {c : Blk} (hc : c ∈ bs)
    (hne : c.addr ≠ h) : ¬ (c.addr ≤ h ∧ h < c.addr + c.size) := by
  rintro ⟨h1, h2⟩
  rcases hh with ⟨d, hd, rfl⟩ | rfl
  · exact hne (congrArg Blk.addr (hS.unique hc hd ⟨h1, h2⟩ ⟨le_rfl, by have := hS.size_ge d hd; omega⟩))
  · have := hS.bounds hc; omega

/-- `set_prev_alloc` on a header keeps the shape, every other block's words
    and the link views of the header's own block. -/
theorem Shape.setPrevAlloc (hS : Shape s bs) (hh : IsHeader s bs h) (v : Bool) :
    Shape (MmState.setPrevAlloc s h v) bs ∧
      (∀ c ∈ bs, c.addr ≠ h → ∀ x, c.addr ≤ x → x < c.addr + c.size →
        (MmState.setPrevAlloc s h v).mem x = s.mem x) ∧
      getPrevFree (MmState.setPrevAlloc s h v) h = getPrevFree s h ∧
      getNextFree (MmState.setPrevAlloc s h v) h = getNextFree s h ∧
      getMini (MmState.setPrevAlloc s h v) h = getMini s h ∧
      (MmState.setPrevAlloc s h v).mem (h + 8) = s.mem (h + 8) ∧
      getPrevAlloc (MmState.setPrevAlloc s h v) h = v := by
  obtain ⟨hlt, hmod⟩ := hS.header_lt hh
  obtain ⟨hw, hsz, hal, hmi⟩ := setPrevAlloc_views hlt v
  have hm := setPrevAlloc_mem hlt v
  have hpa := getPrevAlloc_setPrevAlloc hlt v
  rw [setPrevAlloc_eq hlt] at hw hsz hal hmi hm hpa ⊢
  have frame : ∀ c ∈ bs, c.addr ≠ h → ∀ x, c.addr ≤ x → x < c.addr + c.size →
      (s.store h (s.mem h - s.mem h / 2 % 2 * 2 + (if v then 2 else 0))).mem x = s.mem x :=
    fun c hc hch x h1 h2 => store_mem_of_ne fun e => hS.header_not_mem hh hc hch (e ▸ ⟨h1, h2⟩)
  have hst := hS.start; have hep := hS.epi_lt
  have hhs : s.heapStart ≤ h ∧ h ≤ s.memBrk - 8 := by
    rcases hh with ⟨d, hd, rfl⟩ | rfl
    · have := hS.bounds hd; have := hS.size_ge d hd; omega
    · exact ⟨hS.heapStart_le_epi, le_rfl⟩
  refine ⟨⟨hS.base_align, hS.base_pos, hS.max_lt, hS.brk_le, hS.start, ?_, hS.contig, hS.size_ge,
    hS.size_dvd, fun c hc => ?_, ?_⟩, frame, ?_, getNextFree_congr (store_mem_of_ne (by omega)), hmi,
    store_mem_of_ne (by omega), hpa⟩
  · rw [store_memStartBrk, store_mem_of_ne (by omega)]; exact hS.prologue
  · by_cases hch : c.addr = h
    · have hok := hS.blocks c hc
      have hcs := hS.size_ge c hc
      subst hch
      exact ⟨hw, hsz.trans hok.size, hal.trans hok.alloc, hmi.trans hok.mini,
        fun h1 h2 => by rw [store_mem_of_ne (by omega)]; exact hok.footer h1 h2⟩
    · exact (hS.blocks c hc).frame (hS.size_ge c hc) (frame c hc hch)
  · rw [store_memBrk]
    by_cases he : h = s.memBrk - 8
    · obtain ⟨pa, hpa⟩ := hS.epilogue
      refine ⟨v, ?_⟩
      rw [← he, hm, he, hpa, pack_eq (by norm_num), pack_eq (by norm_num)]
      cases pa <;> cases v <;> simp
    · rw [store_mem_of_ne (Ne.symm he)]; exact hS.epilogue
  · unfold getPrevFree
    rw [hmi]
    split
    · rw [and_linkMask hw, and_linkMask hlt, hm]; split <;> omega
    · rw [store_mem_of_ne (by omega)]

/-- Fixing the one stale prev-alloc bit. -/
theorem PrevOK.fix {s' : St} {skip' : Option Nat} (hP : PrevOK s bs (some h))
    (hbrk : s'.memBrk = s.memBrk) (hother : ∀ x, x ≠ h → getPrevAlloc s' x = getPrevAlloc s x)
    (hfix : ∀ p ∈ withPrev true bs, p.1.addr = h → getPrevAlloc s' h = p.2)
    (hfixe : s.memBrk - 8 = h → getPrevAlloc s' h = lastAlloc true bs) : PrevOK s' bs skip' where
  bits p hp _ := by
    by_cases hph : p.1.addr = h
    · rw [hph]; exact hfix p hp hph
    · rw [hother _ hph]; exact hP.bits p hp (by simpa using hph)
  epilogue _ := by
    rw [hbrk]
    by_cases heh : s.memBrk - 8 = h
    · rw [heh]; exact hfixe heh
    · rw [hother _ heh]; exact hP.epilogue (by simpa using heh)

end SetPrevAlloc

/-! ## The block after a block -/

/-- In a contiguous list, each block's recorded predecessor bit is the start's
    or that of the block ending where it starts. -/
theorem withPrev_pred {pa : Bool} :
    ∀ {a e : Nat} {bs : List Blk}, Contig a bs e → ∀ p ∈ withPrev pa bs,
      (p.1.addr = a ∧ p.2 = pa) ∨ ∃ b ∈ bs, b.addr + b.size = p.1.addr ∧ p.2 = b.alloc
  | _, _, [], _, _, hp => nomatch hp
  | a, e, c :: bs, ⟨h1, h2⟩, p, hp => by
      rcases List.mem_cons.mp hp with rfl | hp
      · exact .inl ⟨h1, rfl⟩
      · rcases withPrev_pred h2 p hp with ⟨h3, h4⟩ | ⟨b, hb, h3, h4⟩
        · exact .inr ⟨c, List.mem_cons_self _ _, by omega, h4⟩
        · exact .inr ⟨b, List.mem_cons_of_mem _ hb, h3, h4⟩

theorem lastAlloc_pred {pa : Bool} :
    ∀ {a e : Nat} {bs : List Blk}, Contig a bs e →
      (a = e ∧ lastAlloc pa bs = pa) ∨ ∃ b ∈ bs, b.addr + b.size = e ∧ lastAlloc pa bs = b.alloc
  | _, _, [], h => .inl ⟨h, rfl⟩
  | a, e, c :: bs, ⟨h1, h2⟩ => by
      rcases @lastAlloc_pred c.alloc _ _ _ h2 with ⟨h3, h4⟩ | ⟨b, hb, h3, h4⟩
      · exact .inr ⟨c, List.mem_cons_self _ _, by omega, h4⟩
      · exact .inr ⟨b, List.mem_cons_of_mem _ hb, h3, h4⟩

/-- Two blocks ending at one address are one block. -/
theorem Shape.eq_of_end (hS : Shape s bs) {b c : Blk} (hb : b ∈ bs) (hc : c ∈ bs)
    (h : b.addr + b.size = c.addr + c.size) : b = c := by
  have := hS.size_ge b hb; have := hS.size_ge c hc
  exact hS.unique hb hc (w := b.addr + b.size - 1) ⟨by omega, by omega⟩ ⟨by omega, by omega⟩

/-- The header after block `b` records `b`'s allocated bit. -/
theorem Shape.pred_of_end (hS : Shape s bs) {b : Blk} (hb : b ∈ bs) :
    (∀ p ∈ withPrev true bs, p.1.addr = b.addr + b.size → p.2 = b.alloc) ∧
      (s.memBrk - 8 = b.addr + b.size → lastAlloc true bs = b.alloc) := by
  have hst := hS.start; have hbd := hS.bounds hb; have := hS.size_ge b hb
  refine ⟨fun p hp he => ?_, fun he => ?_⟩
  · rcases withPrev_pred hS.contig p hp with ⟨h1, _⟩ | ⟨c, hc, h1, h2⟩
    · omega
    · rw [h2, hS.eq_of_end hc hb (h1.trans he)]
  · rcases @lastAlloc_pred true _ _ _ hS.contig with ⟨h1, _⟩ | ⟨c, hc, h1, h2⟩
    · omega
    · rw [h2, hS.eq_of_end hc hb (h1.trans he)]

theorem Contig.next {a e : Nat} :
    ∀ {bs : List Blk}, Contig a bs e → ∀ {b : Blk}, b ∈ bs →
      (∃ c ∈ bs, c.addr = b.addr + b.size) ∨ b.addr + b.size = e
  | [], _, _, hb => nomatch hb
  | c :: bs, ⟨h1, h2⟩, b, hb => by
      rcases List.mem_cons.mp hb with rfl | hb
      · cases bs with
        | nil => exact .inr (by rw [h1]; exact h2)
        | cons d l => exact .inl ⟨d, by simp, by rw [h2.1, h1]⟩
      · rcases Contig.next h2 hb with ⟨d, hd, h⟩ | h
        · exact .inl ⟨d, List.mem_cons_of_mem _ hd, h⟩
        · exact .inr h

/-- The prev-alloc bit after block `b`, where it is not stale, is `b`'s allocated bit. -/
theorem Shape.prevAlloc_end (hS : Shape s bs) {skip : Option Nat} (hP : PrevOK s bs skip) {b : Blk}
    (hb : b ∈ bs) (hsk : some (b.addr + b.size) ≠ skip) :
    getPrevAlloc s (b.addr + b.size) = b.alloc := by
  rcases hS.contig.next hb with ⟨d, hd, hde⟩ | he
  · obtain ⟨p, hp⟩ := @mem_withPrev_of_mem _ true _ hd
    rw [← hde, hP.bits (d, p) hp (hde ▸ hsk)]
    exact (hS.pred_of_end hb).1 (d, p) hp hde
  · rw [he, hP.epilogue (he ▸ hsk)]; exact (hS.pred_of_end hb).2 he.symm

/-- The header after block `b` is a header. -/
theorem Shape.isHeader_end (hS : Shape s bs) {b : Blk} (hb : b ∈ bs) :
    IsHeader s bs (b.addr + b.size) :=
  hS.contig.next hb


section Footer

variable {s : St} {bs : List Blk} {xb : Blk}

/-- A store at the footer of a free block that is not mini, of a word with
    the block's size and no mini bit, keeps the shape. -/
theorem Shape.store_footer (hS : Shape s bs) (hxb : xb ∈ bs) (hf : xb.alloc = false)
    (h16 : xb.size ≠ 16) {w : Nat} (hw : extractSize w = xb.size ∧ extractMini w = false) :
    Shape (s.store (xb.addr + xb.size - 8) w) bs := by
  have := hS.size_ge xb hxb; have := hS.size_dvd xb hxb
  have hbd := hS.bounds hxb; have hst := hS.start; have hep := hS.epi_lt
  refine ⟨hS.base_align, hS.base_pos, hS.max_lt, hS.brk_le, hS.start, ?_, hS.contig, hS.size_ge,
    hS.size_dvd, fun c hc => ?_, ?_⟩
  · rw [store_memStartBrk, store_mem_of_ne (by omega)]; exact hS.prologue
  · by_cases hcx : c = xb
    · subst hcx
      have hok := hS.blocks c hc
      have h0 : (s.store (c.addr + c.size - 8) w).mem c.addr = s.mem c.addr :=
        store_mem_of_ne (by omega)
      exact ⟨h0 ▸ hok.hdr_lt, (getSize_congr h0).trans hok.size, (getAlloc_congr h0).trans hok.alloc,
        (getMini_congr h0).trans hok.mini, fun _ _ => by rw [store_mem_self]; exact hw⟩
    · refine (hS.blocks c hc).frame (hS.size_ge c hc) fun x h1 h2 => store_mem_of_ne ?_
      rintro rfl
      exact hcx (hS.unique hc hxb ⟨h1, h2⟩ ⟨by omega, by omega⟩)
  · rw [store_memBrk, store_mem_of_ne (by omega)]; exact hS.epilogue

/-- `write_footer` of a free block that is not mini. -/
theorem writeFooter_eq (hS : Shape s bs) (hxb : xb ∈ bs) :
    writeFooter s xb.addr = s.store (xb.addr + xb.size - 8) (s.mem xb.addr) := by
  have := hS.size_ge xb hxb
  simp only [writeFooter, headerToFooter, (hS.blocks xb hxb).size, wsize, dsize]
  congr 1; omega

theorem Shape.writeFooter (hS : Shape s bs) (hxb : xb ∈ bs) (hf : xb.alloc = false)
    (h16 : xb.size ≠ 16) : Shape (MmState.writeFooter s xb.addr) bs := by
  have hok := hS.blocks xb hxb
  have hm : extractMini (s.mem xb.addr) = false := by
    have := hok.mini; simp only [getMini] at this; rw [this]; simpa using h16
  have hsz : extractSize (s.mem xb.addr) = xb.size := by
    have := hok.size; simp only [getSize, hm] at this; simpa using this
  rw [writeFooter_eq hS hxb]
  exact hS.store_footer hxb hf h16 ⟨hsz, hm⟩

/-- `update_next(b, b.alloc)`, with the header after `b` the one stale bit:
    the bit is fixed, and a free block that is not mini gets its footer again. -/
theorem updateNext_spec (hS : Shape s bs) (hP : PrevOK s bs (some (xb.addr + xb.size)))
    {fl : Nat → List Nat} (hL : Lists s fl) (hD : Listed bs fl) (hxb : xb ∈ bs)
    (skip' : Option Nat) :
    Shape (updateNext s xb.addr xb.alloc) bs ∧ PrevOK (updateNext s xb.addr xb.alloc) bs skip' ∧
      Lists (updateNext s xb.addr xb.alloc) fl ∧
      ∀ a, (updateNext s xb.addr xb.alloc).mem a ≠ s.mem a →
        a = xb.addr + xb.size ∨ (xb.alloc = false ∧ xb.addr ≤ a ∧ a < xb.addr + xb.size) := by
  have hhd := hS.isHeader_end hxb
  have hxs := hS.size_ge xb hxb; have hxd := hS.size_dvd xb hxb
  have hmod := hS.addr_mod hxb
  obtain ⟨hS₁, hfr₁, hv1, hv2, hv3, hv4, hpa⟩ := hS.setPrevAlloc hhd xb.alloc
  set s₁ := MmState.setPrevAlloc s (xb.addr + xb.size) xb.alloc with hs₁
  have hne₁ : ∀ x, x ≠ xb.addr + xb.size → s₁.mem x = s.mem x := fun x hx =>
    setPrevAlloc_mem_of_ne hx _
  have hP₁ : PrevOK s₁ bs skip' := hP.fix (SameArena.setPrevAlloc).memBrk
    (fun x hx => getPrevAlloc_congr (hne₁ x hx))
    (fun p hp he => by rw [hpa, (hS.pred_of_end hxb).1 p hp he])
    (fun he => by rw [hpa, (hS.pred_of_end hxb).2 he])
  have hL₁ : Lists s₁ fl := hL.congr setPrevAlloc_freeRoot fun i hi z hz => by
    obtain ⟨c, hc, rfl, -⟩ := hD.mem i hi z hz
    by_cases hch : c.addr = xb.addr + xb.size
    · rw [hch]; exact ⟨hv1, hv2, hv3, hv4⟩
    · exact hS.views_congr hc (hfr₁ c hc hch)
  have hnext : findNext s xb.addr = xb.addr + xb.size := by rw [findNext, (hS.blocks xb hxb).size]
  have hmini : getMini s₁ xb.addr = decide (xb.size = 16) :=
    (getMini_congr (hne₁ _ (by omega))).trans (hS.blocks xb hxb).mini
  simp only [updateNext, hnext, ← hs₁, hmini]
  split
  · rename_i hc
    have hf : xb.alloc = false := by simpa using (Bool.and_eq_true _ _).mp hc |>.1
    have h16 : xb.size ≠ 16 := by simpa using (Bool.and_eq_true _ _).mp hc |>.2
    have hfa : ∀ c ∈ bs, c.addr ≠ xb.addr + xb.size - 8 ∧
        (c ≠ xb → ¬ (c.addr ≤ xb.addr + xb.size - 8 ∧ xb.addr + xb.size - 8 < c.addr + c.size)) :=
      fun c hc => ⟨fun e => by
        by_cases hcx : c = xb
        · subst hcx; omega
        · exact hcx (hS.unique hc hxb ⟨le_rfl, by have := hS.size_ge c hc; omega⟩
            ⟨by omega, by omega⟩), fun hcx h => hcx (hS.unique hc hxb h ⟨by omega, by omega⟩)⟩
    rw [writeFooter_eq hS₁ hxb]
    have hw : ∀ x, x ≠ xb.addr + xb.size - 8 →
        (s₁.store (xb.addr + xb.size - 8) (s₁.mem xb.addr)).mem x = s₁.mem x :=
      fun x hx => store_mem_of_ne hx
    refine ⟨writeFooter_eq hS₁ hxb ▸ hS₁.writeFooter hxb hf h16,
      hP₁.of_mod8 (fun c hc => by rw [hw _ (hfa c hc).1]) rfl ?_,
      hL₁.congr rfl fun i hi z hz => ?_, fun a ha => ?_⟩
    · have := hS.bounds hxb
      rw [show s₁.memBrk = s.memBrk from SameArena.setPrevAlloc.memBrk, hw _ (by omega)]
    · obtain ⟨c, hc, rfl, -⟩ := hD.mem i hi z hz
      by_cases hcx : c = xb
      · subst hcx
        have h32 : 32 ≤ c.size := by omega
        exact ⟨getPrevFree_congr (hw _ (by omega)) (hw _ (by omega)), getNextFree_congr (hw _ (by omega)),
          getMini_congr (hw _ (by omega)), hw _ (by omega)⟩
      · exact hS₁.views_congr hc fun x h1 h2 => hw x fun e => (hfa c hc).2 hcx (e ▸ ⟨h1, h2⟩)
    · by_cases h₁ : s₁.mem a = s.mem a
      · refine .inr ⟨hf, ?_⟩
        have : a = xb.addr + xb.size - 8 := by by_contra hx; exact ha (by rw [hw _ hx, h₁])
        omega
      · exact .inl (by by_contra hx; exact h₁ (hne₁ a hx))
  · exact ⟨hS₁, hP₁, hL₁, fun a ha => .inl (by by_contra hx; exact ha (hne₁ a hx))⟩

/-- `find_prev` finds a free predecessor: through its footer, or through the
    tagged successor word of a listed mini block. -/
theorem findPrev_eq (hS : Shape s bs) {fl : Nat → List Nat} (hL : Lists s fl) {pb : Blk}
    (hpb : pb ∈ bs) (hpf : pb.alloc = false) (hl : ∃ i < seglistLength, pb.addr ∈ fl i) :
    findPrev s (pb.addr + pb.size) = pb.addr := by
  have hok := hS.blocks pb hpb
  have := hS.size_ge pb hpb
  by_cases h16 : pb.size = 16
  · obtain ⟨i, hi, hin⟩ := hl
    have ht := hL.tag i hi _ hin (by rw [hok.mini, h16]; rfl)
    simp only [findPrev, findPrevFooter, wsize, h16]
    rw [show pb.addr + 16 - 8 = pb.addr + 8 by omega, if_pos ht]; omega
  · obtain ⟨hsz, hmi⟩ := hok.footer hpf h16
    simp only [findPrev, findPrevFooter, footerToHeader, wsize]
    rw [hmi, if_neg Bool.false_ne_true, hsz, if_neg (by omega), if_pos (by omega)]; omega

end Footer

/-! ## The lists as sets of blocks -/

section Listed

variable {bs bs' : List Blk} {fl : Nat → List Nat} {i x : Nat}

theorem mem_update_erase (hnd : (fl i).Nodup) {j z : Nat} :
    z ∈ Function.update fl i ((fl i).erase x) j ↔ z ∈ fl j ∧ (j = i → z ≠ x) := by
  by_cases hji : j = i
  · subst hji; rw [Function.update_same, hnd.mem_erase_iff]; tauto
  · rw [Function.update_noteq hji]; tauto

theorem mem_update_cons {j z : Nat} :
    z ∈ Function.update fl i (x :: fl i) j ↔ z ∈ fl j ∨ (j = i ∧ z = x) := by
  by_cases hji : j = i
  · subst hji; rw [Function.update_same, List.mem_cons]; tauto
  · rw [Function.update_noteq hji]; tauto

theorem Listed.erase (hD : Listed bs fl) (hi : i < seglistLength) :
    Listed bs (Function.update fl i ((fl i).erase x)) where
  mem j hj z hz := hD.mem j hj z ((mem_update_erase (hD.nodup i hi)).mp hz).1
  nodup j hj := by
    by_cases hji : j = i
    · subst hji; rw [Function.update_same]; exact (hD.nodup j hj).erase x
    · rw [Function.update_noteq hji]; exact hD.nodup j hj

theorem Listed.push (hD : Listed bs fl) {xb : Blk} (hxb : xb ∈ bs) (hxf : xb.alloc = false)
    (hx : ∀ j < seglistLength, xb.addr ∉ fl j) :
    Listed bs (Function.update fl (getSeglistInd xb.size) (xb.addr :: fl (getSeglistInd xb.size))) where
  mem j hj z hz := by
    rcases mem_update_cons.mp hz with hz | ⟨rfl, rfl⟩
    · exact hD.mem j hj z hz
    · exact ⟨xb, hxb, rfl, hxf, rfl⟩
  nodup j hj := by
    by_cases hji : j = getSeglistInd xb.size
    · subst hji; rw [Function.update_same]; exact (hD.nodup _ hj).cons (hx _ hj)
    · rw [Function.update_noteq hji]; exact hD.nodup j hj

theorem Listed.mono (hD : Listed bs fl)
    (h : ∀ i < seglistLength, ∀ c ∈ bs, c.addr ∈ fl i → c ∈ bs') : Listed bs' fl where
  mem i hi z hz := by
    obtain ⟨c, hc, rfl, h2⟩ := hD.mem i hi z hz
    exact ⟨c, h i hi c hc hz, rfl, h2⟩
  nodup := hD.nodup

end Listed

theorem PrevOK.weaken {s : St} {bs : List Blk} {skip : Option Nat} (hP : PrevOK s bs none) :
    PrevOK s bs skip :=
  ⟨fun p hp _ => hP.bits p hp (by simp), fun _ => hP.epilogue (by simp)⟩

theorem Contig.mod16 : ∀ {a e : Nat} {m : List Blk}, Contig a m e →
    (∀ b ∈ m, b.size % 16 = 0) → e % 16 = a % 16
  | _, _, [], h, _ => by rw [← show _ = _ from h]
  | _, _, b :: m, ⟨_, h2⟩, hd => by
      rw [Contig.mod16 h2 fun c hc => hd c (List.mem_cons_of_mem _ hc)]
      have := hd b (List.mem_cons_self _ _); omega

theorem Contig.eq_add_sum : ∀ {a e : Nat} {m : List Blk}, Contig a m e → e = a + (m.map Blk.size).sum
  | _, _, [], h => by simp [← show _ = _ from h]
  | _, _, b :: m, ⟨_, h2⟩ => by rw [Contig.eq_add_sum h2]; simp; omega

/-! ## Coalescing and free bytes, on block lists -/

/-- `Coalesced` from a given prev-alloc bit. -/
def CoalescedFrom (pa : Bool) (bs : List Blk) : Prop :=
  ∀ p ∈ withPrev pa bs, p.1.alloc = false → p.2 = true

theorem coalescedFrom_nil (pa : Bool) : CoalescedFrom pa [] := fun _ h => nomatch h

theorem coalescedFrom_cons {pa : Bool} {c : Blk} {l : List Blk} :
    CoalescedFrom pa (c :: l) ↔ (c.alloc = false → pa = true) ∧ CoalescedFrom c.alloc l := by
  simp only [CoalescedFrom, withPrev, List.mem_cons, forall_eq_or_imp]

theorem coalescedFrom_append {pa : Bool} {l₁ l₂ : List Blk} :
    CoalescedFrom pa (l₁ ++ l₂) ↔ CoalescedFrom pa l₁ ∧ CoalescedFrom (lastAlloc pa l₁) l₂ := by
  simp only [CoalescedFrom, withPrev_append, List.mem_append, or_imp, forall_and]

/-- The bytes of the free blocks. -/
def freeBytes : List Blk → Nat
  | [] => 0
  | b :: bs => (if b.alloc then 0 else b.size) + freeBytes bs

theorem freeBytes_append (l₁ l₂ : List Blk) : freeBytes (l₁ ++ l₂) = freeBytes l₁ + freeBytes l₂ := by
  induction l₁ with
  | nil => simp [freeBytes]
  | cons b l ih => rw [List.cons_append, freeBytes, freeBytes, ih]; omega

/-- Every byte of a contiguous span lies in one of its blocks. -/
theorem Contig.cover {x : Nat} : ∀ {a e : Nat} {m : List Blk}, Contig a m e → a ≤ x → x < e →
    ∃ b ∈ m, b.addr ≤ x ∧ x < b.addr + b.size
  | _, _, [], h, h1, h2 => by rw [show _ = _ from h] at h1; omega
  | _, _, b :: m, ⟨hb, h⟩, h1, h2 => by
      by_cases hx : x < b.addr + b.size
      · exact ⟨b, List.mem_cons_self _ _, by omega, hx⟩
      · obtain ⟨c, hc, hc'⟩ := Contig.cover h (by omega) h2
        exact ⟨c, List.mem_cons_of_mem _ hc, hc'⟩

/-! ## Stages: the invariant in the middle of an operation -/

/-- What holds between two steps of an operation: the shape, the prev-alloc
    bits but at `skip`, the link words, and the lists holding free blocks of
    their classes, every free block but those marked by `X`, which are on no
    list. -/
structure Stage (s : St) (bs : List Blk) (fl : Nat → List Nat) (skip : Option Nat)
    (X : Nat → Prop) : Prop where
  shape : Shape s bs
  prev : PrevOK s bs skip
  lists : Lists s fl
  listed : Listed bs fl
  complete : ∀ b ∈ bs, b.alloc = false → ¬ X b.addr → b.addr ∈ fl (getSeglistInd b.size)
  off : ∀ z, X z → ∀ j < seglistLength, z ∉ fl j

namespace Stage

open MmFreeList

variable {s : St} {bs : List Blk} {fl : Nat → List Nat} {skip : Option Nat} {X : Nat → Prop}

theorem congrX {X' : Nat → Prop} (h : Stage s bs fl skip X) (hX : ∀ z, X z ↔ X' z) :
    Stage s bs fl skip X' :=
  { h with complete := fun b hb hf hx => h.complete b hb hf ((hX _).not.mpr hx)
           off := fun z hz => h.off z ((hX z).mpr hz) }

/-- `remove_from_free` of a listed block: it joins `X`. -/
theorem remove (h : Stage s bs fl skip X) {xb : Blk} (hxb : xb ∈ bs) (hxf : xb.alloc = false)
    (hX : ¬ X xb.addr) :
    Stage (removeFromFree s xb.addr) bs
        (Function.update fl (getSeglistInd xb.size) ((fl (getSeglistInd xb.size)).erase xb.addr))
        skip (fun z => z = xb.addr ∨ X z) ∧
      ∀ x, (removeFromFree s xb.addr).mem x ≠ s.mem x →
        ∃ c ∈ bs, c.alloc = false ∧ c.addr ≤ x ∧ x < c.addr + c.size := by
  have hi := getSeglistInd_lt xb.size
  have hin := h.complete xb hxb hxf hX
  have hnd := h.listed.nodup _ hi
  obtain ⟨hS, hP, hL, hw⟩ := removeFromFree_spec h.shape h.prev h.lists h.listed hi hin
  refine ⟨⟨hS, hP, hL, h.listed.erase hi, fun b hb hf hx => ?_, fun z hz j hj hzj => ?_⟩,
    fun x hx => (hw x hx).imp fun c ⟨hc, hcf, _, h1, h2⟩ => ⟨hc, hcf, h1, h2⟩⟩
  · have hb' : b.addr ≠ xb.addr := fun e => hx (.inl e)
    exact (mem_update_erase hnd).mpr ⟨h.complete b hb hf fun e => hx (.inr e), fun _ => hb'⟩
  · obtain ⟨hz', hzx⟩ := (mem_update_erase hnd).mp hzj
    rcases hz with rfl | hz
    · by_cases hji : j = getSeglistInd xb.size
      · exact hzx hji rfl
      · exact h.listed.ne_of_mem h.shape hi hj hin hz' hji rfl
    · exact h.off z hz j hj hz'

/-- `add_to_free` of a free block marked in `X`: it leaves `X`. -/
theorem push (h : Stage s bs fl skip X) {xb : Blk} (hxb : xb ∈ bs) (hxf : xb.alloc = false)
    (hX : X xb.addr) :
    Stage (addToFree s xb.addr) bs
        (Function.update fl (getSeglistInd xb.size) (xb.addr :: fl (getSeglistInd xb.size)))
        skip (fun z => z ≠ xb.addr ∧ X z) ∧
      ∀ x, (addToFree s xb.addr).mem x ≠ s.mem x →
        ∃ c ∈ bs, c.alloc = false ∧ c.addr ≤ x ∧ x < c.addr + c.size := by
  have hoff := h.off _ hX
  obtain ⟨hS, hP, hL, hw⟩ := addToFree_spec h.shape h.prev h.lists h.listed hxb hxf hoff
  refine ⟨⟨hS, hP, hL, h.listed.push hxb hxf hoff, fun b hb hf hx => ?_, fun z hz j hj hzj => ?_⟩, hw⟩
  · by_cases hbx : b.addr = xb.addr
    · rw [h.shape.eq_of_addr hb hxb hbx]; exact mem_update_cons.mpr (.inr ⟨rfl, rfl⟩)
    · exact mem_update_cons.mpr (.inl (h.complete b hb hf fun e => hx ⟨hbx, e⟩))
  · rcases mem_update_cons.mp hzj with hz' | ⟨_, rfl⟩
    · exact h.off z hz.2 j hj hz'
    · exact hz.1 rfl

variable {l₁ m m' l₂ : List Blk} {a e : Nat}

/-- Rewriting the unlisted blocks `m` over `[a, e)` as blocks `m'`: the free
    blocks of `m'` join `X`, which forgets the addresses of the span. -/
theorem replace (h : Stage s (l₁ ++ m ++ l₂) fl skip X) {s' : St} (har : SameArena s s')
    (hroot : s'.freeRoot = s.freeRoot)
    (h₁ : Contig s.heapStart l₁ a) (h₂ : Contig e l₂ (s.memBrk - 8)) (hm' : Contig a m' e)
    (hsz : ∀ b ∈ m', 16 ≤ b.size ∧ b.size % 16 = 0) (hok : ∀ b ∈ m', BlockOK s' b)
    (hag : ∀ x, s'.mem x ≠ s.mem x → a ≤ x ∧ x < e)
    (hoff : ∀ b ∈ m, ∀ j < seglistLength, b.addr ∉ fl j)
    (hsk : ∀ y, skip = some y → a ≤ y ∧ y ≤ e) (skip' : Option Nat)
    (hbits : ∀ p ∈ withPrev (lastAlloc true l₁) m', some p.1.addr ≠ skip' →
      getPrevAlloc s' p.1.addr = p.2)
    (he : some e ≠ skip' → getPrevAlloc s' e = lastAlloc (lastAlloc true l₁) m') :
    Stage s' (l₁ ++ m' ++ l₂) fl skip'
      (fun z => (∃ b ∈ m', b.alloc = false ∧ b.addr = z) ∨ (X z ∧ (z < a ∨ e ≤ z))) := by
  have hb₁ := Contig.bounds h₁; have hb₂ := Contig.bounds h₂; have hbm' := Contig.bounds hm'
  have hlisted : ∀ i < seglistLength, ∀ c ∈ l₁ ++ m ++ l₂, c.addr ∈ fl i →
      c.addr + c.size ≤ a ∧ c ∈ l₁ ∨ e ≤ c.addr ∧ c ∈ l₂ := fun i hi c hc hci => by
    rcases List.mem_append.mp hc with hc | hc
    · rcases List.mem_append.mp hc with hc | hc
      · exact .inl ⟨(hb₁.2 c hc).2, hc⟩
      · exact absurd hci (hoff c hc i hi)
    · exact .inr ⟨(hb₂.2 c hc).1, hc⟩
  refine ⟨h.shape.replace har h₁ h₂ hm' hsz hok hag,
    h.prev.replace h.shape h₁ h₂ har.memBrk hag hsk hbits he,
    h.lists.frame h.shape h.listed hroot fun c hc ⟨i, hi, hci⟩ x h1 h2 => ?_,
    h.listed.mono fun i hi c hc hci => ?_, fun b hb hf hx => ?_, fun z hz j hj hzj => ?_⟩
  · by_contra hx
    have := hag x hx
    rcases hlisted i hi c hc hci with ⟨_, _⟩ | ⟨_, _⟩ <;> omega
  · rcases hlisted i hi c hc hci with ⟨_, hc'⟩ | ⟨_, hc'⟩ <;> simp [hc']
  · rcases List.mem_append.mp hb with hb | hb
    · rcases List.mem_append.mp hb with hb | hb
      · have := hb₁.2 b hb; have := h.shape.size_ge b (by simp [hb])
        exact h.complete b (by simp [hb]) hf fun hX => hx (.inr ⟨hX, .inl (by omega)⟩)
      · exact absurd (.inl ⟨b, hb, hf, rfl⟩) hx
    · have := hb₂.2 b hb
      exact h.complete b (by simp [hb]) hf fun hX => hx (.inr ⟨hX, .inr this.1⟩)
  · rcases hz with ⟨b, hb, -, rfl⟩ | ⟨hX, -⟩
    · obtain ⟨c, hc, hca, -⟩ := h.listed.mem j hj _ hzj
      have := hbm'.2 b hb; have := hsz b hb; have := h.shape.size_ge c hc
      rcases hlisted j hj c hc (hca ▸ hzj) with ⟨_, _⟩ | ⟨_, _⟩ <;> omega
    · exact h.off z hX j hj hzj

/-- The tail of every coalescing case: the unlisted free blocks `m` over
    `[a, e)` become one free block, written and pushed on its list. The header
    at `e` may be left stale. -/
theorem merge (h : Stage s (l₁ ++ m ++ l₂) fl skip X)
    (h₁ : Contig s.heapStart l₁ a) (hm : Contig a m e) (h₂ : Contig e l₂ (s.memBrk - 8))
    (hne : m ≠ []) (hoff : ∀ b ∈ m, ∀ j < seglistLength, b.addr ∉ fl j)
    (hpa : lastAlloc true l₁ = true) (hsk : ∀ y, skip = some y → a ≤ y ∧ y ≤ e) :
    Stage (addToFree (writeBlock s a (e - a) false true) a) (l₁ ++ [⟨a, e - a, false⟩] ++ l₂)
        (Function.update fl (getSeglistInd (e - a)) (a :: fl (getSeglistInd (e - a)))) (some e)
        (fun z => X z ∧ (z < a ∨ e ≤ z)) ∧
      ∀ x, (addToFree (writeBlock s a (e - a) false true) a).mem x ≠ s.mem x →
        (a ≤ x ∧ x < e) ∨ ∃ c ∈ l₁ ++ l₂, c.alloc = false ∧ c.addr ≤ x ∧ x < c.addr + c.size := by
  obtain ⟨b₀, m', rfl⟩ := List.exists_cons_of_ne_nil hne
  have hS := h.shape
  have hin : ∀ {b}, b ∈ b₀ :: m' → b ∈ l₁ ++ b₀ :: m' ++ l₂ := fun h =>
    List.mem_append_left _ (List.mem_append_right _ h)
  have hsz : e - a = ((b₀ :: m').map Blk.size).sum := by rw [hm.eq_add_sum]; omega
  have h16 : 16 ≤ e - a := by
    have := hS.size_ge b₀ (hin (List.mem_cons_self _ _)); rw [hsz]; simp; omega
  have hdvd : (e - a) % 16 = 0 := by
    have := hm.mod16 fun b hb => hS.size_dvd b (hin hb); omega
  have hlt : e - a < 2 ^ 64 := by
    have := (Contig.bounds h₂).1; have := hS.epi_lt; omega
  set M : Blk := ⟨a, e - a, false⟩
  have hw : ∀ x, (writeBlock s a (e - a) false true).mem x ≠ s.mem x → a ≤ x ∧ x < e :=
    fun x hx => by
      by_contra h
      exact hx (writeBlock_mem_of_ne hdvd hlt (by omega) fun _ _ => by omega)
  have h₄ := h.replace .writeBlock writeBlock_freeRoot h₁ h₂
    (show Contig a [M] e from ⟨rfl, by show a + (e - a) = e; omega⟩)
    (fun b hb => by rw [List.mem_singleton.mp hb]; exact ⟨h16, hdvd⟩)
    (fun b hb => by rw [List.mem_singleton.mp hb]; exact blockOK_writeBlock hdvd h16 hlt) hw hoff hsk
    (some e)
    (fun p hp _ => by
      obtain rfl : p = (M, lastAlloc true l₁) := List.mem_singleton.mp hp
      rw [hpa]; exact getPrevAlloc_writeBlock hdvd h16 hlt)
    (fun h => absurd rfl h)
  obtain ⟨h₅, hw₅⟩ := h₄.push (show M ∈ _ by simp) rfl (.inl ⟨M, by simp, rfl, rfl⟩)
  refine ⟨h₅.congrX fun z => ?_, fun x hx => ?_⟩
  · simp only [List.mem_singleton, exists_eq_left, M]
    constructor
    · rintro ⟨hz, ⟨-, rfl⟩ | ⟨hX, hout⟩⟩
      · exact absurd rfl hz
      · exact ⟨hX, hout⟩
    · rintro ⟨hX, hout⟩
      exact ⟨by rintro rfl; omega, .inr ⟨hX, hout⟩⟩
  · by_cases h₄' : (writeBlock s a (e - a) false true).mem x = s.mem x
    · obtain ⟨c, hc, hcf, h1, h2⟩ := hw₅ x (h₄' ▸ hx)
      rcases List.mem_append.mp hc with hc | hc
      · rcases List.mem_append.mp hc with hc | hc
        · exact .inr ⟨c, by simp [hc], hcf, h1, h2⟩
        · rw [List.mem_singleton.mp hc] at h1 h2; exact .inl ⟨h1, by simp [M] at h2; omega⟩
      · exact .inr ⟨c, by simp [hc], hcf, h1, h2⟩
    · exact .inl (hw x h₄')

end Stage

theorem HeapInv.stage {s : St} {bs : List Blk} {fl : Nat → List Nat} (h : HeapInv s bs fl) :
    Stage s bs fl none (fun _ => False) :=
  ⟨h.shape, h.prev, h.lists, h.couple.toListed, fun b hb hf _ => h.couple.complete b hb hf,
    fun _ hz => hz.elim⟩

theorem Stage.heapInv {s : St} {bs : List Blk} {fl : Nat → List Nat}
    (h : Stage s bs fl none (fun _ => False)) (hc : Coalesced bs) : HeapInv s bs fl :=
  ⟨h.shape, h.prev, hc, h.lists, ⟨h.listed, fun b hb hf => h.complete b hb hf id⟩⟩

/-- `update_next` ends a stage whose one stale bit follows block `M`. -/
theorem Stage.updateNext {s : St} {bs : List Blk} {fl : Nat → List Nat} {M : Blk}
    (h : Stage s bs fl (some (M.addr + M.size)) (fun _ => False)) (hM : M ∈ bs) :
    Stage (updateNext s M.addr M.alloc) bs fl none (fun _ => False) ∧
      ∀ x, (updateNext s M.addr M.alloc).mem x ≠ s.mem x →
        x = M.addr + M.size ∨ (M.alloc = false ∧ M.addr ≤ x ∧ x < M.addr + M.size) := by
  obtain ⟨hS, hP, hL, hw⟩ := updateNext_spec h.shape h.prev h.lists h.listed hM none
  exact ⟨⟨hS, hP, hL, h.listed, h.complete, h.off⟩, hw⟩

end MmLayout
