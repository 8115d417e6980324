import SystemsLabs.ProxyCacheProofs

/-! # The proxy cache is an LRU list

    The reference is a list of (key, size) entries, most recent first: a hit,
    or an insert of a present key, moves the entry to the front; a new insert
    drops entries from the back while `MAX_CACHE_SIZE - total ≤ n` and then
    pushes the new entry. The route:

    * step lemmas for `in_cache` (`Inv.lookup_hit`, `Inv.lookup_miss`),
      `makeSpace` (`Inv.makeSpace`, which also shows that it ends and only
      evicts from lists of two entries or more) and the new-entry branch of
      `insert` (`Inv.insert_new`);
    * **`Inv.step`** and **`Inv.run`**, and from them `cache_refines_lru`:
      over any sequence of the proxy's calls, the cache's (key, size) list is
      the reference list's;
    * the hypothesis that keys are shorter than `MAXLINE` is needed:
      `in_cache` compares only the first `MAXLINE` characters, and two keys
      that agree there collide (`long_keys_collide`). -/

namespace ProxyLru

open ProxyCache Cache

/-! ## The reference LRU list -/

/-- An entry of the reference list: a key and its size. -/
abbrev Entry := Key × Nat

/-- The bytes a list holds. -/
def total (L : List Entry) : Nat := (L.map Prod.snd).sum

/-- A hit: the entry of key `k`, if any, moves to the front. -/
def touch (L : List Entry) (k : Key) : List Entry :=
  match L.find? (fun e => e.1 = k) with
  | some e => e :: L.erase e
  | none => L

/-- Eviction for an object of `n` bytes: entries leave from the back while
    `MAX_CACHE_SIZE - total ≤ n`. -/
def evict (n : Nat) (L : List Entry) : List Entry :=
  if _hL : L ≠ [] ∧ maxCacheSize - total L ≤ n then evict n L.dropLast else L
termination_by L.length
decreasing_by rw [List.length_dropLast]; have := List.length_pos.mpr _hL.1; omega

/-- A call the proxy makes on its cache, under `cache_lock`. -/
inductive Op where
  /-- `insert(path, port, host, payload, n)`, the new entry's memory holding `refcnt0`. -/
  | insert (k : Key) (n : Nat) (refcnt0 : Int)
  /-- `in_cache(host, port, path, &block)`. -/
  | lookup (k : Key)

/-- The reference LRU list's answer to a call. -/
def refStep (L : List Entry) : Op → List Entry
  | .insert k n _ => if L.any (fun e => e.1 = k) then touch L k else (k, n) :: evict n L
  | .lookup k => touch L k

/-- The reference list after a sequence of calls. -/
def refRun (L : List Entry) : List Op → List Entry
  | [] => L
  | op :: ops => refRun (refStep L op) ops

/-- The cache's answer to a call. -/
def cacheStep (c : Cache) : Op → Option Cache
  | .insert k n r => insert c k.path k.port k.host n r
  | .lookup k => (inCache c k.host k.port k.path).map Prod.fst

/-- The cache after a sequence of calls; `none` if one of them faults or does not end. -/
def cacheRun (c : Cache) : List Op → Option Cache
  | [] => some c
  | op :: ops => (cacheStep c op).bind fun c => cacheRun c ops

theorem evict_of_le {n : Nat} {L : List Entry} (h : L ≠ [] ∧ maxCacheSize - total L ≤ n) :
    evict n L = evict n L.dropLast := by
  rw [evict, dif_pos h]

theorem evict_of_not {n : Nat} {L : List Entry} (h : ¬(L ≠ [] ∧ maxCacheSize - total L ≤ n)) :
    evict n L = L := by
  rw [evict, dif_neg h]

theorem touch_of_not_mem {L : List Entry} {k : Key} (h : ∀ e ∈ L, e.1 ≠ k) : touch L k = L := by
  have : L.find? (fun e => e.1 = k) = none := List.find?_eq_none.mpr fun e he => by simpa using h e he
  simp only [touch, this]

theorem touch_of_eq {L₁ L₂ : List Entry} {e : Entry} {k : Key} (h : ∀ e' ∈ L₁, e'.1 ≠ k)
    (he : e.1 = k) : touch (L₁ ++ e :: L₂) k = e :: (L₁ ++ L₂) := by
  have h1 : L₁.find? (fun e => e.1 = k) = none := List.find?_eq_none.mpr fun e he => by simpa using h e he
  have h2 : e ∉ L₁ := fun hm => h e hm he
  simp only [touch, List.find?_append, h1,
    List.find?_cons_of_pos (p := fun e : Entry => decide (e.1 = k)) _ (by simpa using he),
    Option.none_or, List.erase_append_right _ h2, List.erase_cons_head]

/-! ## The invariant -/

/-- The calls the proxy makes: `forward_to_client` inserts at most
    `MAX_OBJECT_SIZE` bytes, under a key of its parser. -/
def Op.Fits : Op → Prop
  | .insert k n _ => n ≤ maxObjectSize ∧ k.Short
  | .lookup _ => True

/-- **THE CACHE INVARIANT**, `l` being the entries from `head` to `tail`: the
    list is linked both ways from `head` to `tail` with no cycle; every entry
    is at an address `malloc` has handed out; the keys are distinct and short;
    every size is at most `MAX_OBJECT_SIZE`; and `cache_size` is the sum of
    the sizes, below `MAX_CACHE_SIZE`. -/
structure Inv (c : Cache) (l : List Nat) : Prop where
  listed : Listed c l
  fresh_pos : 0 < c.fresh
  lt_fresh : ∀ x ∈ l, x < c.fresh
  keys : (l.map fun x => (c.entryOf x).1).Nodup
  short : ∀ x ∈ l, (c.entryOf x).1.Short
  sizes : ∀ x ∈ l, (c.entryOf x).2 ≤ maxObjectSize
  cacheSize_eq : c.cacheSize = total (l.map c.entryOf)
  cacheSize_lt : c.cacheSize < maxCacheSize

section Inv

variable {c c' : Cache} {l l' : List Nat}

theorem Inv.length_lt (hI : Inv c l) : l.length < c.fresh := by
  have hsub : l ⊆ List.range' 1 (c.fresh - 1) := fun x hx => by
    have h0 : x ≠ 0 := fun e => hI.listed.seg.not_mem_zero (e ▸ hx)
    have := hI.lt_fresh x hx
    simp only [List.mem_range'_1]; omega
  have := (hI.listed.nodup.subperm hsub).length_le
  simp only [List.length_range'] at this
  have := hI.fresh_pos
  omega

theorem view_keeps (hK : Keeps c c') (l : List Nat) : l.map c'.entryOf = l.map c.entryOf :=
  List.map_congr_left fun y _ => hK.entry y

/-- A rearrangement of the list that keeps every entry and the size keeps the invariant. -/
theorem Inv.perm (hI : Inv c l) (hL : Listed c' l') (hp : l'.Perm l) (hK : Keeps c c')
    (hS : c'.cacheSize = c.cacheSize) : Inv c' l' where
  listed := hL
  fresh_pos := hK.fresh ▸ hI.fresh_pos
  lt_fresh := fun x hx => hK.fresh ▸ hI.lt_fresh x (hp.subset hx)
  keys := by
    simp only [hK.entry]; exact (hp.map _).nodup_iff.mpr hI.keys
  short := fun x hx => hK.entry x ▸ hI.short x (hp.subset hx)
  sizes := fun x hx => hK.entry x ▸ hI.sizes x (hp.subset hx)
  cacheSize_eq := by
    rw [hS, hI.cacheSize_eq, view_keeps hK]; exact (((hp.map _).map _).sum_eq).symm
  cacheSize_lt := hS ▸ hI.cacheSize_lt

/-- On a listed entry, `in_cache`'s comparison is equality with its key. -/
theorem Inv.matchAt_iff (hI : Inv c l) {y : Nat} (hy : y ∈ l) (k : Key) :
    matchAt c k.host k.port k.path y = true ↔ (c.entryOf y).1 = k := by
  obtain ⟨-, b, hb⟩ := hI.listed.seg.blocks_of_mem hy
  have hs : b.key.Short := by simpa [entryOf, hb] using hI.short y hy
  simp only [matchAt, hb, Option.map_some', Option.getD_some, sameKey_iff hs, entryOf]
  exact ⟨fun h => h ▸ rfl, fun h => h ▸ rfl⟩

/-- A miss changes nothing. -/
theorem Inv.lookup_miss (hI : Inv c l) {k : Key} (hk : ∀ y ∈ l, (c.entryOf y).1 ≠ k) :
    inCache c k.host k.port k.path = some (c, none) := by
  have : l.find? (matchAt c k.host k.port k.path) = none :=
    List.find?_eq_none.mpr fun y hy h => hk y hy ((hI.matchAt_iff hy k).mp (by simpa using h))
  rw [inCache, hI.listed.head, inCacheLoop_eq hI.listed.seg hI.length_lt, this]

/-- **A HIT MOVES THE ENTRY TO THE FRONT**, as in the reference list. -/
theorem Inv.lookup_hit (hI : Inv c l) {k : Key} {y : Nat} (hy : y ∈ l) (hk : (c.entryOf y).1 = k) :
    ∃ c' l', inCache c k.host k.port k.path = some (c', some y) ∧ Inv c' l' ∧ y ∈ l' ∧
      l'.map c'.entryOf = touch (l.map c.entryOf) k := by
  obtain ⟨l₁, l₂, rfl⟩ := List.append_of_mem hy
  have hk₁ : ∀ z ∈ l₁, (c.entryOf z).1 ≠ k := by
    have := hI.keys
    rw [List.map_append, List.map_cons, List.nodup_middle, List.nodup_cons] at this
    exact fun z hz e => this.1 (List.mem_append_left _ (List.mem_map.mpr ⟨z, hz, e.trans hk.symm⟩))
  have hfind : (l₁ ++ y :: l₂).find? (matchAt c k.host k.port k.path) = some y := by
    have h1 : l₁.find? (matchAt c k.host k.port k.path) = none :=
      List.find?_eq_none.mpr fun z hz h => hk₁ z hz ((hI.matchAt_iff
        (List.mem_append_left _ hz) k).mp (by simpa using h))
    rw [List.find?_append, h1, Option.none_or,
      List.find?_cons_of_pos _ ((hI.matchAt_iff hy k).mpr hk)]
  obtain ⟨c₁, e₁, hL₁, hK₁, hS₁⟩ := visit_spec hI.listed
  obtain ⟨c₂, e₂, hL₂, hK₂, hS₂⟩ := incrementRef_spec hL₁ (List.mem_cons_self y _)
  refine ⟨c₂, _, ?_, hI.perm hL₂ List.perm_middle.symm (hK₁.trans hK₂) (hS₂.trans hS₁),
    List.mem_cons_self y _, ?_⟩
  · rw [inCache, hI.listed.head, inCacheLoop_eq hI.listed.seg hI.length_lt, hfind]
    simp only [e₁, e₂, Option.bind_eq_bind, Option.some_bind]; rfl
  · rw [view_keeps (hK₁.trans hK₂), List.map_cons, List.map_append, List.map_append,
      List.map_cons, touch_of_eq (fun e he => ?_) hk]
    obtain ⟨z, hz, rfl⟩ := List.mem_map.mp he
    exact hk₁ z hz

@[simp] theorem total_nil : total [] = 0 := rfl

@[simp] theorem total_cons (e : Entry) (L : List Entry) : total (e :: L) = e.2 + total L :=
  List.sum_cons

@[simp] theorem total_append (L₁ L₂ : List Entry) : total (L₁ ++ L₂) = total L₁ + total L₂ := by
  simp only [total, List.map_append, List.sum_append]

/-- Evicting the last entry keeps the invariant of the rest. -/
theorem Inv.dropLast {t : Nat} (hI : Inv c (l ++ [t])) (hL : Listed c' l) (hK : Keeps c c')
    (hS : c'.cacheSize = sizeSub c.cacheSize (c.entryOf t).2) : Inv c' l where
  listed := hL
  fresh_pos := hK.fresh ▸ hI.fresh_pos
  lt_fresh := fun x hx => hK.fresh ▸ hI.lt_fresh x (List.mem_append_left _ hx)
  keys := by
    simp only [hK.entry]; exact hI.keys.sublist ((List.sublist_append_left l [t]).map _)
  short := fun x hx => hK.entry x ▸ hI.short x (List.mem_append_left _ hx)
  sizes := fun x hx => hK.entry x ▸ hI.sizes x (List.mem_append_left _ hx)
  cacheSize_eq := by
    have h := hI.cacheSize_eq
    have := hI.cacheSize_lt
    simp only [List.map_append, List.map_cons, List.map_nil, total_append, total_cons,
      total_nil] at h
    simp only [maxCacheSize] at this
    rw [hS, view_keeps hK, sizeSub_of_le (by omega) (by omega)]
    omega
  cacheSize_lt := by
    have h := hI.cacheSize_eq
    have := hI.cacheSize_lt
    simp only [List.map_append, List.map_cons, List.map_nil, total_append, total_cons,
      total_nil] at h
    simp only [maxCacheSize] at this ⊢
    rw [hS, sizeSub_of_le (by omega) (by omega)]
    omega

/-- When `makeSpace` must evict, the list has two entries or more: a single
    entry holds at most `MAX_OBJECT_SIZE` bytes, far less than the
    `MAX_CACHE_SIZE - MAX_OBJECT_SIZE` eviction needs. -/
theorem Inv.two_le_of_evict {n : Nat} (hI : Inv c l) (hn : n ≤ maxObjectSize)
    (hc : maxCacheSize - c.cacheSize ≤ n) : ∃ l₀ p t, l = l₀ ++ [p] ++ [t] := by
  rcases l with _ | ⟨a, _ | ⟨b, r⟩⟩
  · have := hI.cacheSize_eq; simp only [List.map_nil, total_nil] at this
    simp only [maxCacheSize, maxObjectSize] at hc hn; omega
  · have h1 := hI.cacheSize_eq; have h2 := hI.sizes a (List.mem_singleton_self a)
    simp only [List.map_cons, List.map_nil, total_cons, total_nil] at h1
    simp only [maxCacheSize, maxObjectSize] at hc hn h2; omega
  · obtain ⟨l₁, t, e⟩ := (List.eq_nil_or_concat (a :: b :: r)).resolve_left (List.cons_ne_nil _ _)
    obtain ⟨l₀, p, e'⟩ := (List.eq_nil_or_concat l₁).resolve_left fun h => by
      simp [h] at e
    exact ⟨l₀, p, t, by rw [e, e', List.concat_eq_append, List.concat_eq_append]⟩

/-- **MAKESPACE IS THE REFERENCE EVICTION**: with fuel for the list, for an
    object of at most `MAX_OBJECT_SIZE` bytes, `makeSpace` ends, never calls
    `removeLRU` on fewer than two entries, keeps a prefix of the list, drops
    exactly what the reference drops, and leaves room for the object. -/
theorem Inv.makeSpace {n : Nat} (hn : n ≤ maxObjectSize) : ∀ {fuel : Nat} {c : Cache}
    {l : List Nat}, Inv c l → l.length < fuel →
    ∃ c' l', makeSpace n fuel c = some c' ∧ Inv c' l' ∧ l' <+: l ∧ Keeps c c' ∧
      l'.map c'.entryOf = evict n (l.map c.entryOf) ∧ n < maxCacheSize - c'.cacheSize
  | 0, _, _, _, h => absurd h (Nat.not_lt_zero _)
  | fuel + 1, c, l, hI, hf => by
    have hsub : sizeSub maxCacheSize c.cacheSize = maxCacheSize - c.cacheSize :=
      sizeSub_of_le (Nat.le_of_lt hI.cacheSize_lt) (by simp [maxCacheSize])
    by_cases hc : maxCacheSize - c.cacheSize ≤ n
    · obtain ⟨l₀, p, t, rfl⟩ := hI.two_le_of_evict hn hc
      obtain ⟨c₁, e₁, hL₁, hK₁, hS₁⟩ := removeLRU_spec hI.listed
      have hI₁ : Inv c₁ (l₀ ++ [p]) := hI.dropLast hL₁ hK₁ hS₁
      obtain ⟨c', l', e, hI', hpre, hK, hv, hroom⟩ :=
        @Inv.makeSpace n hn fuel c₁ (l₀ ++ [p]) hI₁
          (by simp only [List.length_append, List.length_singleton] at hf ⊢; omega)
      have hcond : (l₀ ++ [p] ++ [t]).map c.entryOf ≠ [] ∧
          maxCacheSize - total ((l₀ ++ [p] ++ [t]).map c.entryOf) ≤ n := ⟨by simp, hI.cacheSize_eq ▸ hc⟩
      refine ⟨c', l', ?_, hI', hpre.trans (List.prefix_append _ _), hK₁.trans hK, ?_, hroom⟩
      · simp only [ProxyCache.makeSpace, hsub, hc, if_true, e₁, Option.some_bind]; exact e
      · rw [hv, view_keeps hK₁, evict_of_le hcond, List.map_append _ (l₀ ++ [p]),
          List.map_singleton, List.dropLast_concat]
    · refine ⟨c, l, by simp only [ProxyCache.makeSpace, hsub, hc, if_false], hI, List.prefix_refl l,
        Keeps.refl c, (evict_of_not fun h => hc (by rw [hI.cacheSize_eq]; exact h.2)).symm, by omega⟩

/-- **A NEW ENTRY GOES TO THE FRONT** after the eviction, at a fresh address. -/
theorem Inv.insert_new (hI : Inv c l) {k : Key} {n : Nat} {r : Int} (hn : n ≤ maxObjectSize)
    (hs : k.Short) (hk : ∀ y ∈ l, (c.entryOf y).1 ≠ k) :
    ∃ c' l', insert c k.path k.port k.host n r = some c' ∧ Inv c' l' ∧
      l'.map c'.entryOf = (k, n) :: evict n (l.map c.entryOf) := by
  obtain ⟨c₁, l₁, e₁, hI₁, hpre, hK₁, hv₁, hroom⟩ := hI.makeSpace hn hI.length_lt
  set x := c₁.fresh with hx
  set b : Block := ⟨n, k.host, k.path, k.port, 0, 0, r, false, false, 0, 0⟩ with hb
  set c₂ : Cache := { c₁.set x b with fresh := x + 1, cacheSize := (c₁.cacheSize + n) % 2 ^ 64 }
  have hxl : x ∉ l₁ := fun h => Nat.lt_irrefl _ (hI₁.lt_fresh x h)
  have hx0 : x ≠ 0 := Nat.pos_iff_ne_zero.mp hI₁.fresh_pos
  have hL₂ : Listed c₂ l₁ := (hI₁.listed.set_of_not_mem hxl).congr rfl rfl rfl
  obtain ⟨c₃, e₃, hL₃, hK₃, hS₃⟩ := insertHead_spec hL₂ hx0 hxl (b := b) (by simp [c₂])
  have hent : ∀ y, c₃.entryOf y = if y = x then (k, n) else c₁.entryOf y := fun y => by
    rw [hK₃.entry y]; simp only [c₂, entryOf, set_blocks]; split_ifs <;> simp [Block.key, b]
  have hl₁ : ∀ y ∈ l₁, c₃.entryOf y = c₁.entryOf y := fun y hy => by
    rw [hent, if_neg fun (e : y = x) => hxl (e ▸ hy)]
  have hsz : c₁.cacheSize + n < 2 ^ 64 := by simp only [maxCacheSize] at hroom; omega
  have hv₃ : l₁.map c₃.entryOf = l₁.map c₁.entryOf := List.map_congr_left hl₁
  refine ⟨c₃, x :: l₁, ?_, ⟨hL₃, ?_, ?_, ?_, ?_, ?_, ?_, ?_⟩, ?_⟩
  · simp only [ProxyCache.insert, hI.lookup_miss hk, Option.bind_eq_bind, Option.some_bind, e₁]
    exact e₃
  · rw [hK₃.fresh]; exact Nat.succ_pos x
  · intro y hy
    rw [hK₃.fresh]
    rcases List.mem_cons.mp hy with rfl | hy
    · exact Nat.lt_succ_self _
    · exact Nat.lt_succ_of_lt (hI₁.lt_fresh y hy)
  · rw [List.map_cons, hent, if_pos rfl, List.map_congr_left fun y hy => by rw [hl₁ y hy]]
    refine List.nodup_cons.mpr ⟨fun h => ?_, hI₁.keys⟩
    obtain ⟨y, hy, hyk⟩ := List.mem_map.mp h
    exact hk y (hpre.subset hy) (by rw [← hK₁.entry y]; exact hyk)
  · intro y hy
    rcases List.mem_cons.mp hy with rfl | hy
    · rw [hent, if_pos rfl]; exact hs
    · rw [hl₁ y hy]; exact hI₁.short y hy
  · intro y hy
    rcases List.mem_cons.mp hy with rfl | hy
    · rw [hent, if_pos rfl]; exact hn
    · rw [hl₁ y hy]; exact hI₁.sizes y hy
  · rw [hS₃, List.map_cons, hent, if_pos rfl, total_cons, hv₃, ← hI₁.cacheSize_eq]
    show (c₁.cacheSize + n) % 2 ^ 64 = _
    rw [Nat.mod_eq_of_lt hsz]; omega
  · rw [hS₃]; show (c₁.cacheSize + n) % 2 ^ 64 < _; rw [Nat.mod_eq_of_lt hsz]; omega
  · rw [List.map_cons, hent, if_pos rfl, hv₃, hv₁]

/-- **STEP**: each call the proxy makes keeps the invariant and moves the
    cache's (key, size) list exactly as the reference list moves. -/
theorem Inv.step (hI : Inv c l) : ∀ {op : Op}, op.Fits →
    ∃ c' l', cacheStep c op = some c' ∧ Inv c' l' ∧ l'.map c'.entryOf = refStep (l.map c.entryOf) op
  | .lookup k, _ => by
    by_cases h : ∃ y ∈ l, (c.entryOf y).1 = k
    · obtain ⟨y, hy, hk⟩ := h
      obtain ⟨c', l', e, hI', -, hv⟩ := hI.lookup_hit hy hk
      exact ⟨c', l', by simp [cacheStep, e], hI', hv⟩
    · push_neg at h
      refine ⟨c, l, by simp [cacheStep, hI.lookup_miss h], hI, (touch_of_not_mem ?_).symm⟩
      simpa using h
  | .insert k n r, ⟨hn, hs⟩ => by
    by_cases h : ∃ y ∈ l, (c.entryOf y).1 = k
    · obtain ⟨y, hy, hk⟩ := h
      obtain ⟨c₁, l₁, e₁, hI₁, hy₁, hv₁⟩ := hI.lookup_hit hy hk
      obtain ⟨hy0, b, hb⟩ := hI₁.listed.seg.blocks_of_mem hy₁
      obtain ⟨c₂, e₂, hL₂, hK₂, hS₂⟩ := decrementRef_spec hI₁.listed hy0 hb
      have hany : (l.map c.entryOf).any (fun e => e.1 = k) = true :=
        List.any_eq_true.mpr ⟨c.entryOf y, List.mem_map_of_mem _ hy, by simp [hk]⟩
      refine ⟨c₂, l₁, ?_, hI₁.perm hL₂ (List.Perm.refl _) hK₂ hS₂, ?_⟩
      · simp only [cacheStep, ProxyCache.insert, e₁, Option.bind_eq_bind, Option.some_bind]
        exact e₂
      · rw [view_keeps hK₂, hv₁]; simp only [refStep, hany, if_true]
    · push_neg at h
      obtain ⟨c', l', e, hI', hv⟩ := hI.insert_new (r := r) hn hs h
      have hany : (l.map c.entryOf).any (fun e => e.1 = k) = false := by simpa using h
      exact ⟨c', l', e, hI', by simp only [refStep, hany]; exact hv⟩

/-- **RUN**: over any sequence of the proxy's calls. -/
theorem Inv.run : ∀ {ops : List Op} {c : Cache} {l : List Nat}, Inv c l → (∀ op ∈ ops, op.Fits) →
    ∃ c' l', cacheRun c ops = some c' ∧ Inv c' l' ∧
      l'.map c'.entryOf = refRun (l.map c.entryOf) ops
  | [], c, l, hI, _ => ⟨c, l, rfl, hI, rfl⟩
  | op :: ops, _, _, hI, h => by
    obtain ⟨c₁, l₁, e₁, hI₁, hv₁⟩ := hI.step (h op (List.mem_cons_self _ _))
    obtain ⟨c', l', e, hI', hv⟩ := hI₁.run fun o ho => h o (List.mem_cons_of_mem _ ho)
    exact ⟨c', l', by simp [cacheRun, e₁, e], hI', by rw [hv, hv₁]; rfl⟩

end Inv

/-- `init_cache()` starts with the empty list. -/
theorem inv_initCache : Inv initCache [] :=
  ⟨⟨trivial, List.nodup_nil, rfl, rfl⟩, Nat.one_pos, fun _ h => absurd h (List.not_mem_nil _),
    List.nodup_nil, fun _ h => absurd h (List.not_mem_nil _), fun _ h => absurd h (List.not_mem_nil _),
    rfl, by decide⟩

/-- **THE PROXY CACHE IS AN LRU LIST.** From `init_cache`, over any sequence of
    the proxy's inserts and lookups, no call faults or loops, every state
    satisfies the cache invariant, and the (key, size) list from `head` to
    `tail` is the reference LRU list's. -/
theorem cache_refines_lru (ops : List Op) (hops : ∀ op ∈ ops, op.Fits) :
    ∃ c l, cacheRun initCache ops = some c ∧ Inv c l ∧ l.map c.entryOf = refRun [] ops :=
  inv_initCache.run hops

/-- An object stored, then looked up, under a short key. -/
theorem cache_refines_lru_store_and_hit :
    (∀ op ∈ [Op.insert ⟨['h'], ['8', '0'], ['/']⟩ 10 0, Op.lookup ⟨['h'], ['8', '0'], ['/']⟩],
      op.Fits) ∧
    ∃ c l, cacheRun initCache [Op.insert ⟨['h'], ['8', '0'], ['/']⟩ 10 0,
        Op.lookup ⟨['h'], ['8', '0'], ['/']⟩] = some c ∧ Inv c l ∧
      l.map c.entryOf = refRun [] [Op.insert ⟨['h'], ['8', '0'], ['/']⟩ 10 0,
        Op.lookup ⟨['h'], ['8', '0'], ['/']⟩] := by
  have h : ∀ op ∈ [Op.insert ⟨['h'], ['8', '0'], ['/']⟩ 10 0,
      Op.lookup ⟨['h'], ['8', '0'], ['/']⟩], op.Fits := by
    simp [Op.Fits, Key.Short, maxline, maxObjectSize]
  exact ⟨h, cache_refines_lru _ h⟩

/-- A path of `MAXLINE` characters `a` and then `ch`. -/
def longKey (ch : Char) : Key := ⟨['h'], ['8', '0'], List.replicate maxline 'a' ++ [ch]⟩

theorem longKey_take (ch : Char) : (longKey ch).path.take maxline = List.replicate maxline 'a' :=
  List.take_left' (List.length_replicate _ _)

theorem longKey_ne : longKey 'b' ≠ longKey 'c' := by
  simp [longKey]

/-- The first insert into the empty cache stores the entry at address 1,
    alone in the list. -/
theorem insert_initCache (k : Key) {n : Nat} (r : Int) (hn : n < maxCacheSize) :
    ∃ c, ProxyCache.insert initCache k.path k.port k.host n r = some c ∧ c.head = 1 ∧ c.tail = 1 ∧
      c.fresh = 2 ∧ c.blocks 1 = some ⟨n, k.host, k.path, k.port, 0, 0, r, false, false, 0, 0⟩ := by
  have hsp : ¬ sizeSub maxCacheSize 0 ≤ n := by simp only [sizeSub, maxCacheSize] at hn ⊢; omega
  simp only [ProxyCache.insert, inCache, inCacheLoop, initCache, makeSpace, hsp, if_false, if_true,
    insertHead, Cache.modify, Cache.get, Option.pure_def, Option.bind_eq_bind, Option.some_bind]
  simp

/-- An insert whose key `in_cache` matches with the live head entry is a
    hit: the count goes up and back down, and the cache is as it was. -/
theorem insert_of_head_match {c : Cache} {k : Key} {b : Block} (hh : c.head = 1) (hf : c.fresh ≠ 0)
    (hb : c.blocks 1 = some b) (hk : sameKey k.host k.port k.path b = true) (hd : b.dead = false)
    (n : Nat) (r : Int) : ProxyCache.insert c k.path k.port k.host n r = some (c.set 1 b) := by
  obtain ⟨fuel, hfuel⟩ := Nat.exists_eq_succ_of_ne_zero hf
  simp only [ProxyCache.insert, inCache, hfuel, inCacheLoop, hh, get_of_ne one_ne_zero, hb, hk, visit,
    incrementRef, modify_of_blocks one_ne_zero hb, decrementRef, Option.pure_def, Option.bind_eq_bind,
    Option.some_bind, if_true, if_false, one_ne_zero, set_blocks, hd, Bool.false_and, Bool.false_eq_true,
    add_sub_cancel_right, set_set]
  cases b; subst hd; rfl

/-- Two keys `in_cache` cannot tell apart: a second insert is a hit on the first. -/
theorem insert_twice_of_take_eq {k₁ k₂ : Key} (hh : k₂.host.take maxline = k₁.host.take maxline)
    (hp : k₂.port.take maxline = k₁.port.take maxline)
    (hq : k₂.path.take maxline = k₁.path.take maxline) :
    (cacheRun initCache [.insert k₁ 1 0, .insert k₂ 1 0]).map
      (fun c => (c.head, c.tail, c.entryOf 1)) = some (1, 1, (k₁, 1)) := by
  obtain ⟨c, hc, hhd, htl, hf, hb⟩ := insert_initCache k₁ 0 (show 1 < maxCacheSize by decide)
  have hk : sameKey k₂.host k₂.port k₂.path ⟨1, k₁.host, k₁.path, k₁.port, 0, 0, 0, false, false, 0, 0⟩ := by
    simp [sameKey, hh, hp, hq]
  simp only [cacheRun, cacheStep, hc, Option.some_bind, insert_of_head_match hhd (by omega) hb hk rfl,
    Option.map_some', entryOf_set, set_head, set_tail, hhd, htl, if_true, Block.key]

/-- **LONG KEYS COLLIDE**: two inserts under paths that differ only after
    their first `MAXLINE` characters leave one entry, the first key's, where
    the reference list holds both. -/
theorem long_keys_collide :
    (cacheRun initCache [.insert (longKey 'b') 1 0, .insert (longKey 'c') 1 0]).map
      (fun c => (c.head, c.tail, c.entryOf 1)) = some (1, 1, (longKey 'b', 1)) ∧
    refRun [] [.insert (longKey 'b') 1 0, .insert (longKey 'c') 1 0] =
      [(longKey 'c', 1), (longKey 'b', 1)] :=
  ⟨insert_twice_of_take_eq rfl rfl (by rw [longKey_take, longKey_take]),
    by simp [refRun, refStep, evict, longKey_ne, maxCacheSize]⟩

end ProxyLru