import Mathlib

/-! # The proxy's object cache `cache.c`

    The cache is a doubly linked list of `cache_block_t` entries, the most
    recently used at `head`, with a running `cache_size`. Every entry also
    carries the reference count and the `dead` flag through which readers and
    eviction share it. Entries live at the addresses `malloc` hands out.

    * **`Block`**, **`Cache`** — an entry with the fields `cache.c` reads and
      writes, and the cache: the entries by address, `head`, `tail`,
      `cache_size`, and the address the next `malloc` returns;
    * the functions of `cache.c`, each as the source computes it: a
      dereference of `NULL` is `none`, and so is a loop that has not ended
      after one step per address `malloc` has handed out;
    * **`Seg`** — a run of entries linked both ways — and the lemmas that
      edit it, from which each list operation gets its specification. -/

namespace ProxyCache

/-- `MAX_OBJECT_SIZE`. -/
def maxObjectSize : Nat := 100 * 1024

/-- `MAX_CACHE_SIZE`. -/
def maxCacheSize : Nat := 1024 * 1024

/-- `MAXLINE`, the line bound of `csapp.h` (8192). -/
def maxline : Nat := 8192

/-- The key of an entry: `host`, `port` and `path`, as NUL-free strings. -/
structure Key where
  host : List Char
  port : List Char
  path : List Char
  deriving DecidableEq, Inhabited, Repr

/-- A `cache_block_t`. `payloadFrees` and `structFrees` count the calls
    `free(block->payload)` and `free(block)`; `keysFreed` records the `free`
    of the three key strings. `ref_lock` is left out: every step below runs
    under it. -/
structure Block where
  size : Nat
  host : List Char
  path : List Char
  port : List Char
  prev : Nat
  next : Nat
  refcnt : Int
  dead : Bool
  keysFreed : Bool
  payloadFrees : Nat
  structFrees : Nat
  deriving DecidableEq, Repr

/-- The key of a block. -/
def Block.key (b : Block) : Key := ⟨b.host, b.port, b.path⟩

/-- The cache's globals and the entries, by address. -/
structure Cache where
  /-- The entry at each address `malloc` has returned; `none` elsewhere. -/
  blocks : Nat → Option Block
  head : Nat
  tail : Nat
  /-- `cache_size`, a `size_t`. -/
  cacheSize : Nat
  /-- The address the next `malloc(sizeof(cache_block_t))` returns. -/
  fresh : Nat

namespace Cache

/-- `*p`: `NULL` faults. -/
def get (c : Cache) (p : Nat) : Option Block := if p = 0 then none else c.blocks p

/-- `*p = b`. -/
def set (c : Cache) (p : Nat) (b : Block) : Cache :=
  { c with blocks := fun q => if q = p then some b else c.blocks q }

/-- An update of some fields of `*p`. -/
def modify (c : Cache) (p : Nat) (f : Block → Block) : Option Cache :=
  (c.get p).map fun b => c.set p (f b)

/-- The two links of the entry at `x`. -/
def link (c : Cache) (x : Nat) : Option (Nat × Nat) := (c.blocks x).map fun b => (b.prev, b.next)

/-- The key and size of the entry at `x`, what the cache's order is about. -/
def entryOf (c : Cache) (x : Nat) : Key × Nat :=
  ((c.blocks x).map fun b => (b.key, b.size)).getD default

end Cache

open Cache

/-- `size_t` subtraction. -/
def sizeSub (a b : Nat) : Nat := (a + 2 ^ 64 - b % 2 ^ 64) % 2 ^ 64

/-- `init_cache()`. -/
def initCache : Cache := ⟨fun _ => none, 0, 0, 0, 1⟩

/-! ## The functions of `cache.c` -/

/-- `free_block(block)`: the strings always go; the payload and the struct
    only if no reader holds the entry, otherwise it is marked `dead`. -/
def freeBlock (c : Cache) (block : Nat) : Option Cache := do
  let b ← c.get block
  let b := { b with keysFreed := true }
  if b.refcnt = 0 then
    pure (c.set block { b with payloadFrees := b.payloadFrees + 1, structFrees := b.structFrees + 1 })
  else pure (c.set block { b with dead := true })

/-- `insert_head(block)`. -/
def insertHead (c : Cache) (block : Nat) : Option Cache :=
  if c.head = 0 then
    ({ c with head := block, tail := block } : Cache).modify block
      fun b => { b with prev := 0, next := 0 }
  else do
    let c ← c.modify c.head fun b => { b with prev := block }
    let c ← c.modify block fun b => { b with next := c.head, prev := 0 }
    pure { c with head := block }

/-- `visit(block)`: unlink the entry and put it at the head. -/
def visit (c : Cache) (block : Nat) : Option Cache := do
  let b ← c.get block
  let prev := b.prev
  let next := b.next
  if block = c.head then pure c
  else if block = c.tail then do
    let c ← c.modify prev fun x => { x with next := 0 }
    insertHead { c with tail := prev } block
  else do
    let c ← c.modify prev fun x => { x with next := next }
    let c ← c.modify next fun x => { x with prev := prev }
    insertHead c block

/-- `increment_ref(block)`. -/
def incrementRef (c : Cache) (block : Nat) : Option Cache :=
  c.modify block fun b => { b with refcnt := b.refcnt + 1 }

/-- `decrement_ref(block)`: the guard is `dead && refcnt`, the count after the
    decrement being nonzero. -/
def decrementRef (c : Cache) (block : Nat) : Option Cache := do
  let b ← c.get block
  let b := { b with refcnt := b.refcnt - 1 }
  if b.dead && b.refcnt ≠ 0 then
    pure (c.set block { b with payloadFrees := b.payloadFrees + 1, structFrees := b.structFrees + 1 })
  else pure (c.set block b)

/-- The three `strncmp(..., MAXLINE)` of `in_cache` all return 0. -/
def sameKey (host port path : List Char) (b : Block) : Bool :=
  host.take maxline = b.host.take maxline && port.take maxline = b.port.take maxline &&
    path.take maxline = b.path.take maxline

/-- The loop of `in_cache` from `block`: the first matching entry is visited
    and its count incremented. -/
def inCacheLoop (host port path : List Char) (c : Cache) : Nat → Nat → Option (Cache × Option Nat)
  | 0, _ => none
  | fuel + 1, block =>
    if block = 0 then some (c, none)
    else do
      let b ← c.get block
      if sameKey host port path b then do
        let c ← visit c block
        let c ← incrementRef c block
        pure (c, some block)
      else inCacheLoop host port path c fuel b.next

/-- `in_cache(host, port, path, &match_block)`: the new cache and the match. -/
def inCache (c : Cache) (host port path : List Char) : Option (Cache × Option Nat) :=
  inCacheLoop host port path c c.fresh c.head

/-- `removeLRU()`. -/
def removeLRU (c : Cache) : Option Cache :=
  let removed := c.tail
  if c.tail = 0 then some c
  else do
    let t ← c.get c.tail
    let c ← c.modify t.prev fun x => { x with next := 0 }
    let c := { c with tail := t.prev }
    let r ← c.get removed
    freeBlock { c with cacheSize := sizeSub c.cacheSize r.size } removed

/-- `makeSpace(space)`: evict while `MAX_CACHE_SIZE - cache_size <= space`. -/
def makeSpace (space : Nat) : Nat → Cache → Option Cache
  | 0, _ => none
  | fuel + 1, c =>
    if sizeSub maxCacheSize c.cacheSize ≤ space then (removeLRU c).bind (makeSpace space fuel)
    else some c

/-- `insert(path, port, host, payload, payload_size)`. The new entry goes to
    the address `malloc` returns next; `insert` never sets `refcnt`, so the
    entry keeps the `refcnt0` its fresh memory held. Its links are set by
    `insert_head`, and the payload bytes are not modelled. -/
def insert (c : Cache) (path port host : List Char) (payloadSize : Nat) (refcnt0 : Int) :
    Option Cache := do
  let (c, hit) ← inCache c host port path
  match hit with
  | some b => decrementRef c b
  | none =>
    let c ← makeSpace payloadSize c.fresh c
    let block := c.fresh
    let b : Block := ⟨payloadSize, host, path, port, 0, 0, refcnt0, false, false, 0, 0⟩
    let c := { c.set block b with
      fresh := c.fresh + 1, cacheSize := (c.cacheSize + payloadSize) % 2 ^ 64 }
    insertHead c block

/-! ## Reading and writing entries -/

namespace Cache

variable {c : Cache} {p q : Nat} {b : Block} {f : Block → Block}

theorem get_of_ne (h : p ≠ 0) : c.get p = c.blocks p := if_neg h

@[simp] theorem set_blocks : (c.set p b).blocks q = if q = p then some b else c.blocks q := rfl
@[simp] theorem set_head : (c.set p b).head = c.head := rfl
@[simp] theorem set_tail : (c.set p b).tail = c.tail := rfl
@[simp] theorem set_cacheSize : (c.set p b).cacheSize = c.cacheSize := rfl
@[simp] theorem set_fresh : (c.set p b).fresh = c.fresh := rfl

@[simp] theorem set_set {b' : Block} : (c.set p b).set p b' = c.set p b' := by
  simp only [set, Cache.mk.injEq, and_self, and_true]
  funext q; split_ifs <;> rfl

theorem modify_of_blocks (hp : p ≠ 0) (h : c.blocks p = some b) :
    c.modify p f = some (c.set p (f b)) := by
  simp [modify, get_of_ne hp, h]

theorem link_set : (c.set p b).link q = if q = p then some (b.prev, b.next) else c.link q := by
  unfold link; split_ifs <;> simp [*]

theorem entryOf_set : (c.set p b).entryOf q = if q = p then (b.key, b.size) else c.entryOf q := by
  unfold entryOf; split_ifs <;> simp [*]

theorem blocks_of_link {x : Nat} {pn : Nat × Nat} (h : c.link x = some pn) :
    ∃ b, c.blocks x = some b ∧ b.prev = pn.1 ∧ b.next = pn.2 := by
  unfold link at h
  cases hb : c.blocks x with
  | none => simp [hb] at h
  | some b => simp only [hb, Option.map_some', Option.some.injEq] at h; exact ⟨b, rfl, by rw [← h], by rw [← h]⟩

end Cache

/-! ## Keys and sizes -/

/-- A key of the proxy's parser: each string shorter than `MAXLINE`, as the
    request line it comes from is. -/
def Key.Short (k : Key) : Prop :=
  k.host.length < maxline ∧ k.port.length < maxline ∧ k.path.length < maxline

/-- Cut at `MAXLINE`, a string equals a short one only if it is that string. -/
theorem take_maxline_eq_iff {a b : List Char} (hb : b.length < maxline) :
    a.take maxline = b.take maxline ↔ a = b := by
  rw [List.take_of_length_le (Nat.le_of_lt hb)]
  refine ⟨fun h => ?_, fun h => by subst h; exact List.take_of_length_le (Nat.le_of_lt hb)⟩
  by_cases ha : a.length ≤ maxline
  · rwa [List.take_of_length_le ha] at h
  · have := congrArg List.length h
    rw [List.length_take, min_eq_left (by omega)] at this
    omega

/-- Against an entry with a short key, `in_cache`'s three `strncmp` are key equality. -/
theorem sameKey_iff {host port path : List Char} {b : Block} (hs : b.key.Short) :
    sameKey host port path b = true ↔ (⟨host, port, path⟩ : Key) = b.key := by
  obtain ⟨h1, h2, h3⟩ : b.host.length < maxline ∧ b.port.length < maxline ∧
    b.path.length < maxline := hs
  simp only [sameKey, Bool.and_eq_true, decide_eq_true_eq, take_maxline_eq_iff h1,
    take_maxline_eq_iff h2, take_maxline_eq_iff h3, and_assoc, Block.key, Key.mk.injEq]

/-- Without wrap-around, `size_t` subtraction is subtraction. -/
theorem sizeSub_of_le {a b : Nat} (h : b ≤ a) (ha : a < 2 ^ 64) : sizeSub a b = a - b := by
  rw [sizeSub, Nat.mod_eq_of_lt (by omega : b < 2 ^ 64),
    show a + 2 ^ 64 - b = a - b + 2 ^ 64 by omega, Nat.add_mod_right, Nat.mod_eq_of_lt (by omega)]

/-! ## Runs of linked entries -/

def Seg (c : Cache) : Nat → List Nat → Nat → Prop
  | _, [], _ => True
  | pv, x :: l, nx => x ≠ 0 ∧ c.link x = some (pv, l.headD nx) ∧ Seg c x l nx

section Seg

variable {c c' : Cache} {nx : Nat}

private theorem headD_append {l₁ l₂ : List Nat} {d : Nat} :
    (l₁ ++ l₂).headD d = l₁.headD (l₂.headD d) := by
  cases l₁ <;> rfl

theorem seg_append : ∀ {pv : Nat} {l₁ l₂ : List Nat},
    Seg c pv (l₁ ++ l₂) nx ↔ Seg c pv l₁ (l₂.headD nx) ∧ Seg c (l₁.getLastD pv) l₂ nx
  | _, [], _ => by simp only [List.nil_append, Seg, List.getLastD_nil, true_and]
  | _, x :: l₁, l₂ => by
    simp only [List.cons_append, Seg, List.append_eq, seg_append, List.getLastD_cons, headD_append,
      and_assoc]

theorem seg_snoc {pv x : Nat} {l : List Nat} :
    Seg c pv (l ++ [x]) nx ↔ Seg c pv l x ∧ x ≠ 0 ∧ c.link x = some (l.getLastD pv, nx) := by
  simp only [seg_append, Seg, List.headD_cons, List.headD_nil, and_true]

theorem Seg.frame : ∀ {pv : Nat} {l : List Nat}, Seg c pv l nx →
    (∀ x ∈ l, c'.link x = c.link x) → Seg c' pv l nx
  | _, [], _, _ => trivial
  | _, _ :: _, ⟨hx, hl, hs⟩, h =>
    ⟨hx, (h _ (List.mem_cons_self _ _)).trans hl, hs.frame fun y hy => h y (List.mem_cons_of_mem _ hy)⟩

theorem Seg.not_mem_zero : ∀ {pv : Nat} {l : List Nat}, Seg c pv l nx → 0 ∉ l
  | _, [], _ => List.not_mem_nil 0
  | _, _ :: _, ⟨hx, _, hs⟩ => List.not_mem_cons_of_ne_of_not_mem (Ne.symm hx) hs.not_mem_zero

end Seg

/-! ## The list of entries -/

/-- The cache's list is `l`: linked both ways from `head` to `tail`, with
    `NULL` before the first entry and after the last. -/
structure Listed (c : Cache) (l : List Nat) : Prop where
  seg : Seg c 0 l 0
  nodup : l.Nodup
  head : c.head = l.headD 0
  tail : c.tail = l.getLastD 0

/-- `c'` keeps the keys and sizes of `c` and its next address. -/
structure Keeps (c c' : Cache) : Prop where
  entry : ∀ y, c'.entryOf y = c.entryOf y
  fresh : c'.fresh = c.fresh

theorem Keeps.refl (c : Cache) : Keeps c c := ⟨fun _ => rfl, rfl⟩

theorem Keeps.trans {c₁ c₂ c₃ : Cache} (h : Keeps c₁ c₂) (h' : Keeps c₂ c₃) : Keeps c₁ c₃ :=
  ⟨fun y => (h'.entry y).trans (h.entry y), h'.fresh.trans h.fresh⟩

/-- Rewriting an entry's links (or its count and flags) keeps its key and size. -/
theorem Keeps.set {c : Cache} {p : Nat} {b b' : Block} (hb : c.blocks p = some b)
    (hk : b'.key = b.key) (hs : b'.size = b.size) : Keeps c (c.set p b') :=
  ⟨fun y => by rw [entryOf_set]; split_ifs with h <;> simp [entryOf, h, hb, hk, hs], rfl⟩

section Ops

variable {c : Cache} {l : List Nat} {x : Nat}

theorem insertHead_spec (hL : Listed c l) (hx : x ≠ 0) (hxl : x ∉ l) {b : Block}
    (hb : c.blocks x = some b) :
    ∃ c', insertHead c x = some c' ∧ Listed c' (x :: l) ∧ Keeps c c' ∧
      c'.cacheSize = c.cacheSize := by
  cases l with
  | nil =>
    have e : insertHead c x = some (({ c with head := x, tail := x } : Cache).set x
        { b with prev := 0, next := 0 }) := by
      simp only [insertHead, show c.head = 0 from hL.head, if_true]; exact modify_of_blocks hx hb
    refine ⟨_, e, ⟨⟨hx, by simp [link_set], trivial⟩, List.nodup_cons.mpr ⟨List.not_mem_nil _, List.nodup_nil⟩, rfl, rfl⟩,
      ⟨fun y => ?_, rfl⟩, rfl⟩
    simp only [entryOf_set]; split_ifs with h <;> simp [entryOf, Block.key, h, hb]
  | cons h t =>
    obtain ⟨hh, hlink, hrest⟩ := hL.seg
    obtain ⟨bh, hbh, hp, hn⟩ := blocks_of_link hlink
    have hxh : x ≠ h := fun e => hxl (e ▸ List.mem_cons_self _ _)
    have hnd := List.nodup_cons.mp hL.nodup
    have hc1 : (c.set h { bh with prev := x }).blocks x = some b := by simp [hxh, hb]
    have e : insertHead c x = some { ((c.set h { bh with prev := x }).set x
        { b with next := h, prev := 0 }) with head := x } := by
      simp only [insertHead, hL.head, List.headD_cons, hh, if_false, modify_of_blocks hh hbh,
        Option.bind_eq_bind, Option.some_bind, set_head, modify_of_blocks hx hc1]; rfl
    refine ⟨_, e, ⟨⟨hx, ?_, hh, ?_, hrest.frame ?_⟩, List.nodup_cons.mpr ⟨hxl, hL.nodup⟩, rfl, ?_⟩,
      ⟨fun y => ?_, rfl⟩, rfl⟩
    · simp [link]
    · simp [link, hxh.symm, hbh, hn]
    · intro y hy
      have hyx : y ≠ x := fun e => hxl (e ▸ List.mem_cons_of_mem _ hy)
      have hyh : y ≠ h := fun e => hnd.1 (e ▸ hy)
      simp [link, hyx, hyh]
    · show c.tail = _
      simp only [hL.tail, List.getLastD_cons]
    · simp only [entryOf, set_blocks]; split_ifs with h1 h2 <;> simp [Block.key, *]

private theorem getLastD_append_cons {l₁ l₂ : List Nat} {y d : Nat} :
    (l₁ ++ y :: l₂).getLastD d = l₂.getLastD y := by
  induction l₁ generalizing d with
  | nil => simp only [List.nil_append, List.getLastD_cons]
  | cons a l ih => simp only [List.cons_append, List.getLastD_cons, ih]

/-- Unlinking the tail: its predecessor's `next` becomes `NULL`. -/
private theorem unlink_tail {l₀ : List Nat} {p : Nat} (hL : Listed c (l₀ ++ [p] ++ [x])) :
    ∃ bp, c.blocks p = some bp ∧ p ≠ 0 ∧ c.modify p (fun y => { y with next := 0 }) =
      some (c.set p { bp with next := 0 }) ∧
      Listed { c.set p { bp with next := 0 } with tail := p } (l₀ ++ [p]) := by
  have hseg := hL.seg
  rw [seg_snoc, seg_snoc] at hseg
  obtain ⟨⟨hs0, hp0, hlp⟩, -⟩ := hseg
  obtain ⟨bp, hbp, hpp, hpn⟩ := blocks_of_link hlp
  have hnd := (List.nodup_append.mp hL.nodup).1
  refine ⟨bp, hbp, hp0, modify_of_blocks hp0 hbp, ⟨?_, hnd, ?_, (List.getLastD_concat _ _ _).symm⟩⟩
  · refine seg_snoc.mpr ⟨hs0.frame fun y hy => ?_, hp0, by simp [link, hbp, hpp]⟩
    have : y ≠ p := fun e => (List.nodup_append.mp hnd).2.2 hy (List.mem_singleton.mpr e)
    simp [link, this]
  · show c.head = _
    rw [hL.head]; cases l₀ <;> rfl

/-- Unlinking an inner entry: its neighbours are linked to each other. -/
private theorem unlink_mid {l₀ l₂ : List Nat} {p m : Nat}
    (hL : Listed c (l₀ ++ [p] ++ x :: m :: l₂)) :
    ∃ bp bm, c.blocks p = some bp ∧ c.blocks m = some bm ∧ p ≠ 0 ∧ m ≠ 0 ∧ p ≠ m ∧
      Listed ((c.set p { bp with next := m }).set m { bm with prev := p }) (l₀ ++ [p] ++ m :: l₂) := by
  have hseg := hL.seg
  rw [seg_append, seg_snoc] at hseg
  obtain ⟨⟨hs0, hp0, hlp⟩, hx0, hlx, hm0, hlm, hs2⟩ := hseg
  obtain ⟨bp, hbp, hpp, -⟩ := blocks_of_link hlp
  obtain ⟨bm, hbm, -, hmn⟩ := blocks_of_link hlm
  have hnd := hL.nodup
  rw [List.nodup_append, List.nodup_cons, List.nodup_cons] at hnd
  obtain ⟨hnd0, ⟨hx, hm, hnd2⟩, hdis⟩ := hnd
  have hpm : p ≠ m := fun e => hdis (List.mem_append_right _ (List.mem_singleton.mpr rfl))
    (e ▸ List.mem_cons_of_mem _ (List.mem_cons_self _ _))
  have hfr : ∀ y, y ≠ p → y ≠ m →
      ((c.set p { bp with next := m }).set m { bm with prev := p }).link y = c.link y := by
    intro y h1 h2; simp [link, h1, h2]
  refine ⟨bp, bm, hbp, hbm, hp0, hm0, hpm, ⟨?_, ?_, ?_, ?_⟩⟩
  · refine seg_append.mpr ⟨seg_snoc.mpr ⟨hs0.frame fun y hy => hfr y ?_ ?_, hp0, ?_⟩,
      hm0, ?_, hs2.frame fun y hy => hfr y ?_ ?_⟩
    · exact fun e => (List.nodup_append.mp hnd0).2.2 hy (List.mem_singleton.mpr e)
    · exact fun e => hdis (List.mem_append_left _ hy) (e ▸ List.mem_cons_of_mem _ (List.mem_cons_self _ _))
    · simp [link, hpm, hbp, hpp]
    · simp [link, hbm, hmn]
    · exact fun e => hdis (List.mem_append_right _ (List.mem_singleton.mpr e))
        (List.mem_cons_of_mem _ (List.mem_cons_of_mem _ hy))
    · exact fun e => hm (e ▸ hy)
  · exact List.nodup_append.mpr ⟨hnd0, List.nodup_cons.mpr ⟨hm, hnd2⟩,
      fun y h1 h2 => hdis h1 (List.mem_cons_of_mem _ h2)⟩
  · show c.head = _
    rw [hL.head]; cases l₀ <;> rfl
  · show c.tail = _
    rw [hL.tail, getLastD_append_cons, getLastD_append_cons, List.getLastD_cons]

/-- **VISIT**: the entry is unlinked from wherever it is and becomes the head. -/
theorem visit_spec {l₁ l₂ : List Nat} (hL : Listed c (l₁ ++ x :: l₂)) :
    ∃ c', visit c x = some c' ∧ Listed c' (x :: (l₁ ++ l₂)) ∧ Keeps c c' ∧
      c'.cacheSize = c.cacheSize := by
  obtain ⟨hx0, hlx, -⟩ := (seg_append.mp hL.seg).2
  obtain ⟨bx, hbx, hpx, hnx⟩ := blocks_of_link hlx
  have hxl : x ∉ l₁ ++ l₂ := (List.nodup_cons.mp (List.nodup_middle.mp hL.nodup)).1
  obtain rfl | ⟨l₀, p, rfl⟩ : l₁ = [] ∨ ∃ l₀ p, l₁ = l₀ ++ [p] :=
    (List.eq_nil_or_concat l₁).imp_right fun ⟨l₀, p, h⟩ => ⟨l₀, p, h.trans (List.concat_eq_append _ _)⟩
  · have hh : x = c.head := by rw [hL.head]; rfl
    exact ⟨c, by simp [visit, get_of_ne hx0, hbx, ← hh], by simpa using hL, Keeps.refl c, rfl⟩
  have hpx' : bx.prev = p := by rw [hpx]; exact List.getLastD_concat _ _ _
  have hxh : x ≠ c.head := by
    rw [hL.head]
    cases l₀ with
    | nil => exact fun e => hxl (e ▸ List.mem_append_left _ (List.mem_singleton_self _))
    | cons a _ => exact fun e => hxl (e ▸ List.mem_append_left _ (List.mem_cons_self _ _))
  rcases l₂ with _ | ⟨m, l₂⟩
  · have ht : x = c.tail := by rw [hL.tail]; exact (List.getLastD_concat _ _ _).symm
    obtain ⟨bp, hbp, hp0, hmod, hL'⟩ := unlink_tail hL
    have hxp : x ≠ p := fun e => hxl (e ▸ List.mem_append_left _ (List.mem_append_right _
      (List.mem_singleton_self _)))
    obtain ⟨c', e, hL'', hK, hS⟩ := insertHead_spec hL' hx0 (by simpa using hxl)
      (show (c.set p { bp with next := 0 }).blocks x = some bx by simp [hxp, hbx])
    have hK1 : Keeps c { c.set p { bp with next := 0 } with tail := p } :=
      (Keeps.set hbp rfl rfl : Keeps c (c.set p { bp with next := 0 })).trans ⟨fun _ => rfl, rfl⟩
    refine ⟨c', ?_, by simpa using hL'', hK1.trans hK, hS⟩
    simp only [visit, get_of_ne hx0, hbx, Option.bind_eq_bind, Option.some_bind, hpx', if_neg hxh,
      ← ht, if_true, hmod]
    exact e
  · have ht : x ≠ c.tail := by
      rw [hL.tail, getLastD_append_cons, List.getLastD_cons]
      intro e
      exact (List.nodup_cons.mp (List.nodup_middle.mp hL.nodup)).1
        (e ▸ List.mem_append_right _ (List.getLastD_mem_cons _ _))
    have hnx' : bx.next = m := hnx
    obtain ⟨bp, bm, hbp, hbm, hp0, hm0, hpm, hL'⟩ := unlink_mid hL
    have hxp : x ≠ p := fun e => hxl (e ▸ List.mem_append_left _ (List.mem_append_right _
      (List.mem_singleton_self _)))
    have hxm : x ≠ m := fun e => hxl (e ▸ List.mem_append_right _ (List.mem_cons_self _ _))
    obtain ⟨c', e, hL'', hK, hS⟩ := insertHead_spec hL' hx0 hxl
      (show ((c.set p { bp with next := m }).set m { bm with prev := p }).blocks x = some bx by
        simp [hxp, hxm, hbx])
    have hK1 : Keeps c ((c.set p { bp with next := m }).set m { bm with prev := p }) :=
      (Keeps.set hbp rfl rfl : Keeps c (c.set p { bp with next := m })).trans
        (Keeps.set (b := bm) (by simp [hpm.symm, hbm]) rfl rfl)
    refine ⟨c', ?_, hL'', hK1.trans hK, hS⟩
    simp only [visit, get_of_ne hx0, hbx, Option.bind_eq_bind, Option.some_bind, hpx', hnx',
      if_neg hxh, if_neg ht, modify_of_blocks hp0 hbp]
    rw [modify_of_blocks (b := bm) hm0 (by simp [hpm.symm, hbm])]
    exact e

theorem Seg.blocks_of_mem : ∀ {pv nx : Nat} {l : List Nat}, Seg c pv l nx → x ∈ l →
    x ≠ 0 ∧ ∃ b, c.blocks x = some b
  | _, _, [], _, h => absurd h (List.not_mem_nil _)
  | _, _, _ :: _, ⟨hy, hl, hs⟩, h => by
    rcases List.mem_cons.mp h with rfl | h
    · obtain ⟨b, hb, -⟩ := blocks_of_link hl; exact ⟨hy, b, hb⟩
    · exact hs.blocks_of_mem h

/-- A write that keeps an entry's links keeps the list. -/
theorem Listed.set_links (hL : Listed c l) {b b' : Block} (hb : c.blocks x = some b)
    (hp : b'.prev = b.prev) (hn : b'.next = b.next) : Listed (c.set x b') l :=
  ⟨hL.seg.frame fun y _ => by
    rw [link_set]; split_ifs with h
    · subst h; simp [link, hb, hp, hn]
    · rfl, hL.nodup, hL.head, hL.tail⟩

/-- A write to an entry off the list keeps the list. -/
theorem Listed.set_of_not_mem (hL : Listed c l) {b : Block} (hx : x ∉ l) : Listed (c.set x b) l :=
  ⟨hL.seg.frame fun y hy => by rw [link_set, if_neg fun (e : y = x) => hx (e ▸ hy)], hL.nodup,
    hL.head, hL.tail⟩

/-- The list is read from the entries, `head` and `tail` only. -/
theorem Listed.congr {c' : Cache} (hL : Listed c l) (hb : c'.blocks = c.blocks)
    (hh : c'.head = c.head) (ht : c'.tail = c.tail) : Listed c' l :=
  ⟨hL.seg.frame fun y _ => by simp only [link, hb], hL.nodup, hh.trans hL.head, ht.trans hL.tail⟩

theorem incrementRef_spec (hL : Listed c l) (hx : x ∈ l) :
    ∃ c', incrementRef c x = some c' ∧ Listed c' l ∧ Keeps c c' ∧ c'.cacheSize = c.cacheSize := by
  obtain ⟨hx0, b, hb⟩ := hL.seg.blocks_of_mem hx
  exact ⟨_, modify_of_blocks hx0 hb, hL.set_links hb rfl rfl, Keeps.set hb rfl rfl, rfl⟩

/-- `free_block` and `decrement_ref` change an entry's count, flags and
    free counts, never its links, key or size. -/
theorem freeBlock_spec (hL : Listed c l) {b : Block} (hx : x ≠ 0) (hb : c.blocks x = some b) :
    ∃ c', freeBlock c x = some c' ∧ Listed c' l ∧ Keeps c c' ∧ c'.cacheSize = c.cacheSize := by
  simp only [freeBlock, get_of_ne hx, hb, Option.bind_eq_bind, Option.some_bind]
  split_ifs
  · exact ⟨_, rfl, hL.set_links hb rfl rfl, Keeps.set hb rfl rfl, rfl⟩
  · exact ⟨_, rfl, hL.set_links hb rfl rfl, Keeps.set hb rfl rfl, rfl⟩

theorem decrementRef_spec (hL : Listed c l) {b : Block} (hx : x ≠ 0) (hb : c.blocks x = some b) :
    ∃ c', decrementRef c x = some c' ∧ Listed c' l ∧ Keeps c c' ∧ c'.cacheSize = c.cacheSize := by
  simp only [decrementRef, get_of_ne hx, hb, Option.bind_eq_bind, Option.some_bind]
  split_ifs
  · exact ⟨_, rfl, hL.set_links hb rfl rfl, Keeps.set hb rfl rfl, rfl⟩
  · exact ⟨_, rfl, hL.set_links hb rfl rfl, Keeps.set hb rfl rfl, rfl⟩

/-- Whether the entry at `y` matches the three strings as `in_cache` compares them. -/
def matchAt (c : Cache) (host port path : List Char) (y : Nat) : Bool :=
  ((c.blocks y).map (sameKey host port path)).getD false

/-- **THE LOOKUP WALK**: from any entry of the list on, with fuel for the rest
    of the list, `in_cache` visits and counts the first matching entry, or
    reports a miss and changes nothing. -/
theorem inCacheLoop_eq {host port path : List Char} : ∀ {pv fuel : Nat} {rest : List Nat},
    Seg c pv rest 0 → rest.length < fuel →
    inCacheLoop host port path c fuel (rest.headD 0) =
      match rest.find? (matchAt c host port path) with
      | none => some (c, none)
      | some y => do
        let c ← visit c y
        let c ← incrementRef c y
        pure (c, some y)
  | _, 0, _, _, h => absurd h (Nat.not_lt_zero _)
  | _, _ + 1, [], _, _ => rfl
  | _, fuel + 1, y :: rest, ⟨hy, hl, hs⟩, h => by
    obtain ⟨b, hb, -, hn⟩ := blocks_of_link hl
    have hm : matchAt c host port path y = sameKey host port path b := by simp [matchAt, hb]
    simp only [inCacheLoop, List.headD_cons, hy, if_false, get_of_ne hy, hb, Option.bind_eq_bind,
      Option.some_bind, List.find?_cons, hm]
    cases sameKey host port path b
    · rw [hn]; exact inCacheLoop_eq hs (Nat.lt_of_succ_lt_succ h)
    · rfl

/-- **EVICTION**: on a list of two or more entries `removeLRU` unlinks the
    tail, subtracts its size and hands it to `free_block`. -/
theorem removeLRU_spec {l₀ : List Nat} {p t : Nat} (hL : Listed c (l₀ ++ [p] ++ [t])) :
    ∃ c', removeLRU c = some c' ∧ Listed c' (l₀ ++ [p]) ∧ Keeps c c' ∧
      c'.cacheSize = sizeSub c.cacheSize (c.entryOf t).2 := by
  obtain ⟨-, ht0, hlt⟩ := seg_snoc.mp hL.seg
  obtain ⟨bt, hbt, hpt, -⟩ := blocks_of_link hlt
  have htail : c.tail = t := by rw [hL.tail]; exact List.getLastD_concat _ _ _
  have hpt' : bt.prev = p := by rw [hpt]; exact List.getLastD_concat _ _ _
  obtain ⟨bp, hbp, hp0, hmod, hL'⟩ := unlink_tail hL
  have htp : t ≠ p := fun e => (List.nodup_append.mp hL.nodup).2.2
    (List.mem_append_right _ (List.mem_singleton_self p)) (List.mem_singleton.mpr e.symm)
  have hbt' : (c.set p { bp with next := 0 }).blocks t = some bt := by simp [htp, hbt]
  obtain ⟨c', e, hL'', hK, hS⟩ := freeBlock_spec (l := l₀ ++ [p])
    (c := { (c.set p { bp with next := 0 }) with
      tail := p, cacheSize := sizeSub c.cacheSize bt.size }) (hL'.congr rfl rfl rfl) ht0 hbt'
  have hK1 : Keeps c { (c.set p { bp with next := 0 }) with
      tail := p, cacheSize := sizeSub c.cacheSize bt.size } :=
    (Keeps.set hbp rfl rfl : Keeps c (c.set p { bp with next := 0 })).trans ⟨fun _ => rfl, rfl⟩
  refine ⟨c', ?_, hL'', hK1.trans hK, by rw [hS]; simp [entryOf, hbt]⟩
  simp only [removeLRU, htail, ht0, if_false, get_of_ne ht0, hbt, Option.bind_eq_bind,
    Option.some_bind, hpt', hmod]
  rw [hbt', Option.some_bind]; exact e

/-- On a one-entry list `removeLRU` dereferences the `NULL` `tail->prev`. -/
theorem removeLRU_singleton {t : Nat} (hL : Listed c [t]) : removeLRU c = none := by
  obtain ⟨ht0, hlt, -⟩ := hL.seg
  obtain ⟨bt, hbt, hpt, -⟩ := blocks_of_link hlt
  have htail : c.tail = t := hL.tail
  simp only [removeLRU, htail, ht0, if_false, get_of_ne ht0, hbt, Option.bind_eq_bind,
    Option.some_bind, hpt]
  rfl

end Ops

end ProxyCache
