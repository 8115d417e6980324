import SystemsLabs.ProxyCacheProofs

/-! # Readers, eviction and the reference count of a cache entry

    `serve` takes a hit under `cache_lock` (`in_cache`, which increments the
    entry's `refcnt`), writes the payload to its client without the lock, and
    then calls `decrement_ref`; `forward_to_client` inserts under
    `cache_lock`, and an insert may evict through `removeLRU` and
    `free_block`. Each of these is one atomic step here, taken by any thread
    in any order.

    The protocol is meant to free an evicted entry's payload and struct
    exactly when its last reader is done. `decrement_ref` frees when the entry
    is `dead` and the count after the decrement is NONZERO, so the last
    reader's release never frees it, and the release of one of several readers
    frees it under the others (`decrementRef_frees_too_early_or_never`). -/

namespace ProxyRefcount

open ProxyCache Cache

/-- One atomic step of a proxy thread on the cache. -/
inductive Event where
  /-- `forward_to_client` stores an object: `insert` under `cache_lock`,
      the new entry's memory holding `refcnt0`. -/
  | insert (k : Key) (n : Nat) (refcnt0 : Int)
  /-- `serve` of thread `t` looks the key up under `cache_lock`. -/
  | hit (t : Nat) (k : Key)
  /-- Thread `t` has written the payload of its entry and calls `decrement_ref`. -/
  | release (t : Nat)
  deriving Repr

/-- The cache and the entry each serving thread holds between its hit and
    its `decrement_ref`. -/
structure Sys where
  cache : Cache
  holders : List (Nat × Nat)

/-- The proxy's start: an empty cache, no thread serving from it. -/
def Sys.init : Sys := ⟨initCache, []⟩

/-- A step; `none` is a fault of the cache code, or a thread doing what
    `serve` does not (a second hit before its release, a release with no hit). -/
def sysStep (s : Sys) : Event → Option Sys
  | .insert k n r => (insert s.cache k.path k.port k.host n r).map fun c => { s with cache := c }
  | .hit t k =>
    if s.holders.any (·.1 = t) then none
    else (inCache s.cache k.host k.port k.path).map fun (c, hit) =>
      match hit with
      | some x => ⟨c, (t, x) :: s.holders⟩
      | none => { s with cache := c }
  | .release t =>
    match s.holders.find? (·.1 = t) with
    | none => none
    | some (_, x) => (decrementRef s.cache x).map fun c => ⟨c, s.holders.filter (·.1 ≠ t)⟩

/-- A run of steps. -/
def sysRun (s : Sys) : List Event → Option Sys
  | [] => some s
  | e :: es => (sysStep s e).bind fun s => sysRun s es

/-- The key of the `i`-th object of the scenario below. -/
def objKey (i : Nat) : Key := ⟨['h'], ['8', '0'], ['/', Char.ofNat (97 + i)]⟩

/-- The object at `/a` is inserted (its fresh memory reads `refcnt` 0) and
    taken by threads `0, ..., readers - 1`; ten more objects of
    `MAX_OBJECT_SIZE` follow, the last of which evicts it; then thread 0
    releases it. -/
def evictWhileHeld (readers : Nat) : List Event :=
  .insert (objKey 0) maxObjectSize 0 :: (List.range readers).map (fun t => .hit t (objKey 0)) ++
    (List.range 10).map (fun i => .insert (objKey (i + 1)) maxObjectSize 0) ++ [.release 0]

/-- **THE RELEASE GUARD IS INVERTED.** With one reader, the evicted entry at
    address 1 ends `dead` with no thread holding it, and its struct (and
    payload) never freed. With two readers, the first release frees the
    payload and the struct while thread 1 still holds the entry. -/
theorem decrementRef_frees_too_early_or_never :
    (sysRun Sys.init (evictWhileHeld 1)).map (fun s =>
      ((s.cache.blocks 1).map fun b => (b.dead, b.payloadFrees, b.structFrees), s.holders)) =
      some (some (true, 0, 0), []) ∧
    (sysRun Sys.init (evictWhileHeld 2)).map (fun s =>
      ((s.cache.blocks 1).map fun b => (b.dead, b.payloadFrees, b.structFrees), s.holders)) =
      some (some (true, 1, 1), [(1, 1)]) := by
  decide

end ProxyRefcount
