import SystemsLabs.CsimModelProofs

/-! # csim is a write-back LRU cache

    The REFERENCE cache keeps each set as a list of resident blocks
    `(tag, dirty)` from the most to the least recently used, with
    `tag = address >> (s + b)` and set `(address >> b) mod 2^s`: a hit moves
    its block to the front (a store marks it dirty), a miss pushes the new
    block in front, dropping the last one when the set already holds `E`. It
    counts hits, misses, evictions and dirty evictions; the dirty bytes are
    `2^b` times the dirty blocks resident.

    `csim.c` keeps no such list: each line carries the trace time of its last
    access, and the victim is the line with the least. The RECENCY relation
    reads the list off the lines: `idx` names the valid lines in strictly
    decreasing `lastModified` order, all earlier than the current time, with
    distinct tags. A hit, a miss into a free line and an eviction each
    rewrite one line and move it to the front of `idx` (`Recency.set_cons`),
    and `getLeastRecentlyUsed` on a full set picks the last of `idx`
    (`Recency.lru_eq`).

    `Refines` adds the counters; `Refines.step` is one trace line,
    `Refines.run` a whole trace, and `simulate_refines_lru` the statistics of
    `simulate` for every geometry with `s ≤ 64` and `E ≥ 1` and every trace. -/

namespace CsimLru

open Csim

/-! ## The reference cache -/

/-- A block resident in the reference cache: its tag and whether it is dirty. -/
abbrev RefLine := Int × Bool

/-- A write-allocate, write-back LRU cache: each set lists its resident
    blocks from the most to the least recently used. -/
structure RefCache where
  sets : Nat → List RefLine
  hits : Nat
  misses : Nat
  evictions : Nat
  dirtyEvicted : Nat

/-- The empty cache. -/
def RefCache.empty : RefCache := ⟨fun _ => [], 0, 0, 0, 0⟩

/-- Set `j` replaced by `L`. -/
def RefCache.put (R : RefCache) (j : Nat) (L : List RefLine) : RefCache :=
  { R with sets := fun k => if k = j then L else R.sets k }

/-- One trace line on `2^s` sets of `E` blocks of `2^b` bytes. -/
def refAccess (s E b : Nat) (R : RefCache) (ins : Instruction) : RefCache :=
  if ins.operation ≠ 'S' ∧ ins.operation ≠ 'L' then R
  else
    let isStore := decide (ins.operation = 'S')
    let tag := ins.address >>> (s + b)
    let j := ((ins.address >>> b) % 2 ^ s).toNat
    let L := R.sets j
    match L.find? (·.1 = tag) with
    | some e => { R.put j ((tag, e.2 || isStore) :: L.filter (·.1 ≠ tag)) with hits := R.hits + 1 }
    | none =>
      if L.length < E then { R.put j ((tag, isStore) :: L) with misses := R.misses + 1 }
      else
        { R.put j ((tag, isStore) :: L.dropLast) with
          misses := R.misses + 1, evictions := R.evictions + 1,
          dirtyEvicted := R.dirtyEvicted + if (L.getLastD (0, false)).2 then 1 else 0 }

/-- A trace on the reference cache. -/
def refRun (s E b : Nat) (trace : List Instruction) : RefCache :=
  trace.foldl (refAccess s E b) RefCache.empty

/-- The dirty blocks resident in the `2^s` sets. -/
def dirtyLines (s : Nat) (R : RefCache) : Nat :=
  ((List.range (2 ^ s)).map fun j => (R.sets j).countP (·.2)).sum

/-- The statistics the reference reports. -/
def refStats (s b : Nat) (R : RefCache) : Stats :=
  ⟨R.hits, R.misses, R.evictions, 2 ^ b * dirtyLines s R, 2 ^ b * R.dirtyEvicted⟩

/-! ## The lines of a set as a recency list -/

/-- Reading a line of a set after writing line `i`. -/
private theorem getD_set_self {ls : List Line} {i : Nat} (x : Line) (hi : i < ls.length) :
    (ls.set i x).getD i emptyLine = x := by
  simp [List.getElem?_set, hi]

private theorem getD_set_ne {ls : List Line} {i k : Nat} (x : Line) (hik : i ≠ k) :
    (ls.set i x).getD k emptyLine = ls.getD k emptyLine := by
  simp [List.getElem?_set, hik]

/-- `find?` over two lists that hold the same single match. -/
private theorem find?_eq_of_unique {l₁ l₂ : List Nat} {p q : Nat → Bool}
    (hiff : ∀ x, x ∈ l₁ ∧ p x ↔ x ∈ l₂ ∧ q x)
    (huniq : ∀ x y, x ∈ l₂ → q x → y ∈ l₂ → q y → x = y) : l₁.find? p = l₂.find? q := by
  cases h₂ : l₂.find? q with
  | none =>
    exact List.find?_eq_none.mpr fun x hx hp =>
      List.find?_eq_none.mp h₂ x ((hiff x).mp ⟨hx, hp⟩).1 ((hiff x).mp ⟨hx, hp⟩).2
  | some y =>
    have hy := (hiff y).mpr ⟨List.mem_of_find?_eq_some h₂, List.find?_some h₂⟩
    cases h₁ : l₁.find? p with
    | none => exact absurd hy.2 (List.find?_eq_none.mp h₁ y hy.1)
    | some x =>
      have hx := (hiff x).mp ⟨List.mem_of_find?_eq_some h₁, List.find?_some h₁⟩
      rw [huniq x y hx.1 hx.2 (List.mem_of_find?_eq_some h₂) (List.find?_some h₂)]

/-- `idx` lists the valid lines of the set `ls` from the most to the least
    recently used: exactly the valid lines, with strictly decreasing
    `lastModified`, all below `time`, and with distinct tags. -/
structure Recency (E : Nat) (time : Int) (ls : List Line) (idx : List Nat) : Prop where
  length : ls.length = E
  mem_iff : ∀ i, i ∈ idx ↔ i < E ∧ (ls.getD i emptyLine).valid = true
  time_lt : ∀ i ∈ idx, (ls.getD i emptyLine).lastModified < time
  sorted : idx.Pairwise fun i k =>
    (ls.getD k emptyLine).lastModified < (ls.getD i emptyLine).lastModified
  tags : (idx.map fun i => (ls.getD i emptyLine).tag).Nodup

/-- The reference list `idx` reads off the set. -/
def view (ls : List Line) (idx : List Nat) : List RefLine :=
  idx.map fun i => ((ls.getD i emptyLine).tag, (ls.getD i emptyLine).dirty)

namespace Recency

variable {E : Nat} {time : Int} {ls : List Line} {idx : List Nat}

theorem nodup (h : Recency E time ls idx) : idx.Nodup :=
  h.sorted.imp fun hlt heq => by subst heq; exact lt_irrefl _ hlt

theorem lt_of_mem (h : Recency E time ls idx) {i : Nat} (hi : i ∈ idx) : i < E :=
  ((h.mem_iff i).mp hi).1

theorem length_le (h : Recency E time ls idx) : idx.length ≤ E := by
  simpa using (List.subperm_of_subset h.nodup fun i hi => List.mem_range.mpr (h.lt_of_mem hi)).length_le

/-- The set has a free line exactly when fewer than `E` lines are valid. -/
theorem length_lt_iff (h : Recency E time ls idx) :
    idx.length < E ↔ ∃ i < E, (ls.getD i emptyLine).valid = false := by
  constructor
  · intro hlt
    by_contra hne
    push_neg at hne
    have hsub : List.range E ⊆ idx := fun i hi =>
      (h.mem_iff i).mpr ⟨List.mem_range.mp hi, by simpa using hne i (List.mem_range.mp hi)⟩
    have := (List.subperm_of_subset (List.nodup_range E) hsub).length_le
    rw [List.length_range] at this
    omega
  · rintro ⟨i, hi, hv⟩
    have hsub : idx ⊆ (List.range E).erase i := fun k hk =>
      (List.mem_erase_of_ne fun hki => by
        rw [← hki, ((h.mem_iff k).mp hk).2] at hv; exact Bool.noConfusion hv).mpr
        (List.mem_range.mpr (h.lt_of_mem hk))
    have := (List.subperm_of_subset h.nodup hsub).length_le
    rw [List.length_erase_of_mem (List.mem_range.mpr hi), List.length_range] at this
    omega

theorem tag_inj (h : Recency E time ls idx) {i k : Nat} (hi : i ∈ idx) (hk : k ∈ idx)
    (heq : (ls.getD i emptyLine).tag = (ls.getD k emptyLine).tag) : i = k :=
  List.inj_on_of_nodup_map h.tags hi hk heq

/-- The hit search of `executeInstruction` finds the valid line with the tag. -/
theorem find?_hit (h : Recency E time ls idx) (t : Int) :
    (List.range E).find? (fun i => (ls.getD i emptyLine).valid && decide ((ls.getD i emptyLine).tag = t)) =
      idx.find? fun i => decide ((ls.getD i emptyLine).tag = t) :=
  find?_eq_of_unique (fun x => by simp [List.mem_range, h.mem_iff, and_assoc])
    fun x y hx hxt hy hyt => h.tag_inj hx hy ((of_decide_eq_true hxt).trans (of_decide_eq_true hyt).symm)

/-- What a line access does to the recency list: line `i` is written with
    the current time and goes to the front, ahead of lines `rest` kept from
    the list. -/
theorem set_cons (h : Recency E time ls idx) {i : Nat} {rest : List Nat} {x : Line}
    (hsub : rest.Sublist idx) (hi : i ∉ rest) (hx : x.lastModified = time)
    (hmem : ∀ k, k ∈ i :: rest ↔ k < E ∧ ((ls.set i x).getD k emptyLine).valid = true)
    (htag : ∀ k ∈ rest, (ls.getD k emptyLine).tag ≠ x.tag) :
    Recency E (time + 1) (ls.set i x) (i :: rest) := by
  have hi' : i < ls.length := h.length ▸ ((hmem i).mp (List.mem_cons_self _ _)).1
  have hfr : ∀ k ∈ rest, (ls.set i x).getD k emptyLine = ls.getD k emptyLine :=
    fun k hk => getD_set_ne x fun hik => hi (hik ▸ hk)
  have hold : ∀ k ∈ rest, (ls.getD k emptyLine).lastModified < time :=
    fun k hk => h.time_lt k (hsub.subset hk)
  refine ⟨(List.length_set ..).trans h.length, hmem, ?_, ?_, ?_⟩
  · refine List.forall_mem_cons.mpr ⟨?_, fun k hk => ?_⟩
    · rw [getD_set_self x hi', hx]; exact Int.lt_succ time
    · rw [hfr k hk]; exact (hold k hk).trans (Int.lt_succ time)
  · refine List.pairwise_cons.mpr ⟨fun k hk => ?_, (h.sorted.sublist hsub).imp_of_mem fun ha hb hab => ?_⟩
    · rw [hfr k hk, getD_set_self x hi', hx]; exact hold k hk
    · rw [hfr _ ha, hfr _ hb]; exact hab
  · rw [List.map_cons, getD_set_self x hi', List.map_congr_left fun k hk => by rw [hfr k hk]]
    refine List.nodup_cons.mpr ⟨fun hm => ?_, (hsub.map _).nodup h.tags⟩
    obtain ⟨k, hk, he⟩ := List.mem_map.mp hm
    exact htag k hk he

/-- A line that keeps its `valid` bit, moved to the front of the same lines. -/
theorem mem_iff_of_perm (h : Recency E time ls idx) {i : Nat} {rest : List Nat} {x : Line}
    (hperm : (i :: rest).Perm idx) (hv : x.valid = (ls.getD i emptyLine).valid) :
    ∀ k, k ∈ i :: rest ↔ k < E ∧ ((ls.set i x).getD k emptyLine).valid = true := by
  have hi : i < ls.length := h.length ▸ h.lt_of_mem (hperm.subset (List.mem_cons_self _ _))
  intro k
  rw [hperm.mem_iff, h.mem_iff]
  by_cases hk : i = k
  · subst hk; rw [getD_set_self x hi, hv]
  · rw [getD_set_ne x hk]

/-- A hit on line `i`: the line keeps its tag and `valid` bit. -/
theorem hit (h : Recency E time ls idx) {i : Nat} (hi : i ∈ idx) {x : Line}
    (htag : x.tag = (ls.getD i emptyLine).tag) (hv : x.valid = (ls.getD i emptyLine).valid)
    (hx : x.lastModified = time) :
    Recency E (time + 1) (ls.set i x) (i :: idx.erase i) :=
  h.set_cons (List.erase_sublist _ _) h.nodup.not_mem_erase hx
    (h.mem_iff_of_perm (List.perm_cons_erase hi).symm hv)
    fun _ hk hkt => (h.nodup.mem_erase_iff.mp hk).1
      (h.tag_inj (List.mem_of_mem_erase hk) hi (hkt.trans htag))

/-- A miss that fills the free line `f`. -/
theorem fill (h : Recency E time ls idx) {f : Nat} (hf : f < E)
    (hv : (ls.getD f emptyLine).valid = false) {t : Int}
    (hmiss : ∀ k ∈ idx, (ls.getD k emptyLine).tag ≠ t) (st : Bool) :
    Recency E (time + 1) (ls.set f ⟨t, st, true, time⟩) (f :: idx) := by
  have hf' : f < ls.length := h.length ▸ hf
  have hnot : f ∉ idx := fun hm => by rw [((h.mem_iff f).mp hm).2] at hv; exact Bool.noConfusion hv
  refine h.set_cons (List.Sublist.refl idx) hnot rfl (fun k => ?_) hmiss
  by_cases hk : f = k
  · subst hk; rw [getD_set_self _ hf']; simp [hf]
  · rw [getD_set_ne _ hk, List.mem_cons, h.mem_iff]; simp [Ne.symm hk]

/-- A miss that evicts the least recently used line `m`. -/
theorem evict (h : Recency E time ls idx) {idx₀ : List Nat} {m : Nat} (hidx : idx = idx₀ ++ [m])
    {t : Int} (hmiss : ∀ k ∈ idx, (ls.getD k emptyLine).tag ≠ t) (st : Bool) :
    Recency E (time + 1)
      (ls.set m { ls.getD m emptyLine with lastModified := time, tag := t, dirty := st })
      (m :: idx₀) := by
  have hnd : (idx₀ ++ [m]).Nodup := hidx ▸ h.nodup
  refine h.set_cons (hidx ▸ List.sublist_append_left idx₀ [m])
    (fun hm => (List.nodup_append.mp hnd).2.2 hm (List.mem_singleton_self m)) rfl
    (h.mem_iff_of_perm (hidx ▸ List.perm_append_singleton m idx₀).symm rfl)
    fun k hk => hmiss k (hidx ▸ List.mem_append_left [m] hk)

/-- With every line valid, `getLeastRecentlyUsed` picks the last of the list. -/
theorem lru_eq (h : Recency E time ls idx) (hfull : ∀ i < E, (ls.getD i emptyLine).valid = true)
    {idx₀ : List Nat} {m : Nat} (hidx : idx = idx₀ ++ [m]) :
    getLeastRecentlyUsed (ls.map (·.lastModified)) E = m := by
  have hm : m ∈ idx := hidx ▸ List.mem_append_right idx₀ (List.mem_singleton_self m)
  obtain ⟨hlt, hle⟩ := getLeastRecentlyUsed_le (ls.map (·.lastModified)) (Nat.zero_lt_of_lt (h.lt_of_mem hm))
  have hlm : ∀ i < E, (ls.map (·.lastModified)).getD i 0 = (ls.getD i emptyLine).lastModified :=
    fun i hi => by simp [h.length ▸ hi]
  have hr := (h.mem_iff _).mpr ⟨hlt, hfull _ hlt⟩
  by_contra hne
  rw [hidx, List.mem_append, List.mem_singleton] at hr
  have hsort := (List.pairwise_append.mp (hidx ▸ h.sorted)).2.2 _ (hr.resolve_right hne) m
    (List.mem_singleton_self m)
  have := hle m (h.lt_of_mem hm)
  rw [hlm _ hlt, hlm _ (h.lt_of_mem hm)] at this
  exact absurd hsort (not_lt.mpr this)

end Recency

/-! ## The reference list read off a set -/

theorem view_set_of_not_mem {ls : List Line} {i : Nat} {l : List Nat} (x : Line) (hi : i ∉ l) :
    view (ls.set i x) l = view ls l :=
  List.map_congr_left fun k hk => by rw [getD_set_ne x fun hik => hi (by rwa [hik])]

theorem view_set_cons {ls : List Line} {i : Nat} {rest : List Nat} (x : Line) (hi : i ∉ rest)
    (hlen : i < ls.length) : view (ls.set i x) (i :: rest) = (x.tag, x.dirty) :: view ls rest := by
  rw [view, List.map_cons, getD_set_self x hlen, ← view, view_set_of_not_mem x hi]

/-- The reference's search for a tag finds the line the set's search finds. -/
theorem find?_view (ls : List Line) (idx : List Nat) (t : Int) :
    (view ls idx).find? (·.1 = t) = (idx.find? fun i => (ls.getD i emptyLine).tag = t).map
      fun i => ((ls.getD i emptyLine).tag, (ls.getD i emptyLine).dirty) :=
  List.find?_map _ _

@[simp] theorem length_view (ls : List Line) (idx : List Nat) :
    (view ls idx).length = idx.length :=
  List.length_map _ _

theorem view_concat (ls : List Line) (idx₀ : List Nat) (m : Nat) :
    view ls (idx₀ ++ [m]) = view ls idx₀ ++ [((ls.getD m emptyLine).tag, (ls.getD m emptyLine).dirty)] :=
  List.map_append _ _ _

namespace Recency

variable {E : Nat} {time : Int} {ls : List Line} {idx : List Nat}

theorem succ (h : Recency E time ls idx) : Recency E (time + 1) ls idx :=
  ⟨h.length, h.mem_iff, fun i hi => (h.time_lt i hi).trans (Int.lt_succ time), h.sorted, h.tags⟩

/-- Moving a hit to the front drops it from the rest of the list by its tag. -/
theorem view_erase (h : Recency E time ls idx) {i : Nat} (hi : i ∈ idx) :
    view ls (idx.erase i) = (view ls idx).filter (·.1 ≠ (ls.getD i emptyLine).tag) := by
  rw [view, view, List.filter_map, h.nodup.erase_eq_filter]
  congr 1
  refine List.filter_congr fun k hk => ?_
  rw [Bool.eq_iff_iff, bne_iff_ne]
  simp only [Function.comp, decide_eq_true_eq]
  exact ⟨fun hki heq => hki (h.tag_inj hk hi heq), fun hne hki => hne (hki ▸ rfl)⟩

theorem countP_view_erase {i : Nat} (hi : i ∈ idx) :
    (view ls idx).countP (·.2) =
      (view ls (idx.erase i)).countP (·.2) + if (ls.getD i emptyLine).dirty then 1 else 0 := by
  rw [view, ((List.perm_cons_erase hi).map _).countP_eq, List.map_cons, List.countP_cons]
  rfl

end Recency

/-! ## The refinement -/

/-- `RefCache.put` replaces one set. -/
@[simp] theorem RefCache.put_sets (R : RefCache) (j : Nat) (L : List RefLine) (k : Nat) :
    (R.put j L).sets k = if k = j then L else R.sets k := rfl

@[simp] theorem RefCache.put_hits (R : RefCache) (j : Nat) (L : List RefLine) :
    (R.put j L).hits = R.hits := rfl

@[simp] theorem RefCache.put_misses (R : RefCache) (j : Nat) (L : List RefLine) :
    (R.put j L).misses = R.misses := rfl

@[simp] theorem RefCache.put_evictions (R : RefCache) (j : Nat) (L : List RefLine) :
    (R.put j L).evictions = R.evictions := rfl

@[simp] theorem RefCache.put_dirtyEvicted (R : RefCache) (j : Nat) (L : List RefLine) :
    (R.put j L).dirtyEvicted = R.dirtyEvicted := rfl

/-- Replacing set `j` changes the sum of dirty counts by the change to set `j`. -/
theorem sum_countP_put (R : RefCache) (L : List RefLine) {j : Nat} :
    ∀ {n : Nat}, j < n →
      ((List.range n).map fun k => ((R.put j L).sets k).countP (·.2)).sum + (R.sets j).countP (·.2) =
        ((List.range n).map fun k => (R.sets k).countP (·.2)).sum + L.countP (·.2)
  | 0, hj => absurd hj (Nat.not_lt_zero j)
  | n + 1, hj => by
    simp only [List.range_succ, List.map_append, List.sum_append, List.map_singleton,
      List.sum_singleton, RefCache.put_sets]
    rcases Nat.lt_succ_iff_lt_or_eq.mp hj with hj | rfl
    · have := sum_countP_put R L hj
      rw [if_neg (Nat.ne_of_gt hj)]
      simp only [RefCache.put_sets] at this
      omega
    · have hrest : ((List.range j).map fun k => ((if k = j then L else R.sets k).countP (·.2))) =
          (List.range j).map fun k => (R.sets k).countP (·.2) :=
        List.map_congr_left fun k hk => by rw [if_neg (Nat.ne_of_lt (List.mem_range.mp hk))]
      rw [if_pos rfl, hrest]
      omega

theorem dirtyLines_put (R : RefCache) (L : List RefLine) {s j : Nat} (hj : j < 2 ^ s) :
    dirtyLines s (R.put j L) + (R.sets j).countP (·.2) = dirtyLines s R + L.countP (·.2) :=
  sum_countP_put R L hj

/-- The simulator's state at time `time` and the reference cache agree: the
    geometry is `s`, `E`, `b`, each set reads as the reference's list, and
    the statistics are the reference's. -/
structure Refines (s E b : Nat) (time : Int) (c : Sim) (R : RefCache) : Prop where
  setBits : c.setBits = s
  associativity : c.associativity = E
  blockBits : c.blockBits = b
  sets : ∀ j < 2 ^ s, ∃ idx, Recency E time (c.sets j) idx ∧ R.sets j = view (c.sets j) idx
  hits : c.stats.hits = R.hits
  misses : c.stats.misses = R.misses
  evictions : c.stats.evictions = R.evictions
  dirtyBytes : c.stats.dirtyBytes = 2 ^ b * dirtyLines s R
  dirtyEvictions : c.stats.dirtyEvictions = 2 ^ b * R.dirtyEvicted

namespace Refines

variable {s E b : Nat} {time : Int} {c : Sim} {R : RefCache}

theorem stats_eq (h : Refines s E b time c R) : c.stats = refStats s b R := by
  rw [refStats, ← h.hits, ← h.misses, ← h.evictions, ← h.dirtyBytes, ← h.dirtyEvictions]

theorem succ (h : Refines s E b time c R) : Refines s E b (time + 1) c R :=
  { h with sets := fun j hj => (h.sets j hj).imp fun _ hr => ⟨hr.1.succ, hr.2⟩ }

/-- An access that rewrites set `j` and the statistics keeps the refinement
    when the new set reads as the reference's new list, and the counters
    move together. -/
theorem put (h : Refines s E b time c R) {j : Nat} (hj : j < 2 ^ s) {ls' : List Line}
    {idx' : List Nat} (hR' : Recency E (time + 1) ls' idx') {stats' : Stats} {R' : RefCache}
    (hsets : R'.sets = (R.put j (view ls' idx')).sets) (hh : stats'.hits = R'.hits)
    (hm : stats'.misses = R'.misses) (he : stats'.evictions = R'.evictions)
    (hdb : stats'.dirtyBytes + 2 ^ b * (R.sets j).countP (·.2) =
      c.stats.dirtyBytes + 2 ^ b * (view ls' idx').countP (·.2))
    (hde : stats'.dirtyEvictions = 2 ^ b * R'.dirtyEvicted) :
    Refines s E b (time + 1) { c with sets := fun k => if k = j then ls' else c.sets k, stats := stats' } R' := by
  have hD : dirtyLines s R' = dirtyLines s (R.put j (view ls' idx')) := by
    rw [dirtyLines, dirtyLines, hsets]
  have hsum := congrArg (2 ^ b * ·) (dirtyLines_put R (view ls' idx') hj)
  simp only [Nat.mul_add] at hsum
  refine ⟨h.setBits, h.associativity, h.blockBits, fun k hk => ?_, hh, hm, he, ?_, hde⟩
  · by_cases hkj : k = j
    · subst hkj; exact ⟨idx', by simpa using hR', by simp [hsets]⟩
    · obtain ⟨idx, hr, hv⟩ := h.sets k hk
      exact ⟨idx, by simpa [hkj] using hr.succ, by simp [hsets, hkj, hv]⟩
  · show stats'.dirtyBytes = 2 ^ b * dirtyLines s R'
    have := h.dirtyBytes
    rw [hD]
    omega

/-- The dirty blocks of one set are among those counted. -/
theorem countP_le (h : Refines s E b time c R) {j : Nat} (hj : j < 2 ^ s) :
    2 ^ b * (R.sets j).countP (·.2) ≤ c.stats.dirtyBytes := by
  have := dirtyLines_put R [] hj
  rw [List.countP_nil] at this
  rw [h.dirtyBytes]
  exact Nat.mul_le_mul_left _ (by omega)

/-- One trace line keeps the refinement: a hit, a miss into a free line and
    an eviction each move the set and the reference list alike. -/
theorem step (h : Refines s E b time c R) (hs : s ≤ 64) (hE : 0 < E) (ins : Instruction) :
    Refines s E b (time + 1) (executeInstruction ins c time) (refAccess s E b R ins) := by
  by_cases hop : ins.operation ≠ 'S' ∧ ins.operation ≠ 'L'
  · simp only [executeInstruction, refAccess, if_pos hop]; exact h.succ
  have hop' : ins.operation = 'S' ∨ ins.operation = 'L' := by tauto
  have hjc : getSetNum ins.address c.setBits c.blockBits = getSetNum ins.address s b := by
    rw [h.setBits, h.blockBits]
  have htc : ins.address >>> (c.setBits + c.blockBits) = ins.address >>> (s + b) := by
    rw [h.setBits, h.blockBits]
  have hj := getSetNum_lt ins.address s b
  obtain ⟨idx, hR, hv⟩ := h.sets _ hj
  have hfind := hR.find?_hit (ins.address >>> (s + b))
  rw [← h.associativity] at hfind
  simp only [refAccess, if_neg hop, ← getSetNum_eq hs, hv, find?_view]
  cases hf : idx.find? fun i =>
      decide (((c.sets (getSetNum ins.address s b)).getD i emptyLine).tag = ins.address >>> (s + b)) with
  | some i =>
    have hi := List.mem_of_find?_eq_some hf
    have ht := List.find?_some hf
    rw [decide_eq_true_eq] at ht
    have hlen := hR.length ▸ hR.lt_of_mem hi
    rw [executeInstruction_hit hop' hjc htc rfl (hfind.trans hf)]
    simp only [Option.map_some']
    refine h.put hj (hR.hit hi (by rfl) (by rfl) (by rfl)) ?hitSets ?_ ?_ ?_ ?hitDirty ?_
    case hitSets => rw [view_set_cons _ hR.nodup.not_mem_erase hlen, hR.view_erase hi, ht]
    case hitDirty =>
      rw [view_set_cons _ hR.nodup.not_mem_erase hlen, hv, Recency.countP_view_erase hi,
        List.countP_cons, h.blockBits]
      generalize decide (ins.operation = 'S') = st
      cases st <;> cases ((c.sets (getSetNum ins.address s b)).getD i emptyLine).dirty <;>
        simp_arith [Nat.mul_add]
    all_goals simp [h.hits, h.misses, h.evictions, h.dirtyEvictions]
  | none =>
    have hmiss : ∀ k ∈ idx, ((c.sets (getSetNum ins.address s b)).getD k emptyLine).tag ≠
        ins.address >>> (s + b) := fun k hk hkt => List.find?_eq_none.mp hf k hk (decide_eq_true hkt)
    rw [executeInstruction_miss hop' hjc htc rfl (hfind.trans hf)]
    simp only [Option.map_none', length_view]
    by_cases hfree : idx.length < E
    · obtain ⟨f, hfE, hgf, hvf⟩ := getFreeSpace_of_invalid (hR.length_lt_iff.mp hfree)
      rw [if_pos hfree, handleMiss_fill (h.associativity ▸ hgf)]
      have hnot : f ∉ idx := fun hm => by
        rw [((hR.mem_iff f).mp hm).2] at hvf; exact Bool.noConfusion hvf
      refine h.put hj (hR.fill hfE hvf hmiss _) ?fillSets ?_ ?_ ?_ ?fillDirty ?_
      case fillSets => rw [view_set_cons _ hnot (hR.length ▸ hfE)]
      case fillDirty =>
        rw [view_set_cons _ hnot (hR.length ▸ hfE), hv, List.countP_cons, h.blockBits]
        generalize decide (ins.operation = 'S') = st
        cases st <;> simp_arith [Nat.mul_add]
      all_goals simp [h.hits, h.misses, h.evictions, h.dirtyEvictions]
    · have hfull : ∀ i < E, ((c.sets (getSetNum ins.address s b)).getD i emptyLine).valid = true :=
        fun i hi => by
          by_contra hvi
          exact hfree (hR.length_lt_iff.mpr ⟨i, hi, by simpa using hvi⟩)
      obtain ⟨idx₀, m, hidx⟩ : ∃ idx₀ m, idx = idx₀ ++ [m] := by
        rcases List.eq_nil_or_concat idx with h0 | ⟨idx₀, m, h1⟩
        · rw [h0] at hfree; exact absurd hE hfree
        · exact ⟨idx₀, m, h1.trans (List.concat_eq_append idx₀ m)⟩
      have hm : m ∈ idx := hidx ▸ List.mem_append_right idx₀ (List.mem_singleton_self m)
      have hnot : m ∉ idx₀ := fun hm₀ =>
        (List.nodup_append.mp (hidx ▸ hR.nodup)).2.2 hm₀ (List.mem_singleton_self m)
      have hX := h.countP_le hj
      rw [hv, hidx, view_concat, List.countP_append] at hX
      rw [if_neg hfree,
        handleMiss_evict (m := m) (by rw [h.associativity]; exact getFreeSpace_of_valid hfull)
          (by rw [h.associativity]; exact hR.lru_eq hfull hidx),
        hidx, view_concat, List.dropLast_concat, List.getLastD_concat]
      refine h.put hj (hR.evict hidx hmiss _) ?evictSets ?_ ?_ ?_ ?evictDirty ?_
      case evictSets => rw [view_set_cons _ hnot (hR.length ▸ hR.lt_of_mem hm)]
      case evictDirty =>
        rw [view_set_cons _ hnot (hR.length ▸ hR.lt_of_mem hm), hv, hidx, view_concat,
          List.countP_append, List.countP_cons, List.countP_cons, h.blockBits]
        generalize decide (ins.operation = 'S') = st
        generalize ((c.sets (getSetNum ins.address s b)).getD m emptyLine).dirty = d at hX ⊢
        cases st <;> cases d <;> simp [Nat.mul_add] at hX ⊢ <;> omega
      all_goals simp [h.hits, h.misses, h.evictions, h.dirtyEvictions, h.blockBits, Nat.mul_add]

/-- A whole trace keeps the refinement. -/
theorem run (h : Refines s E b time c R) (hs : s ≤ 64) (hE : 0 < E) (trace : List Instruction) :
    Refines s E b (time + trace.length) (runTrace c trace time) (trace.foldl (refAccess s E b) R) := by
  induction trace generalizing time c R with
  | nil => simpa [runTrace] using h
  | cons ins trace ih =>
    rw [runTrace, List.foldl_cons, List.length_cons,
      show time + ((trace.length + 1 : Nat) : Int) = time + 1 + trace.length by omega]
    exact ih (h.step hs hE ins)

/-- `makeCache (makeSets s E) s E b` starts as the empty reference cache. -/
theorem init (s E b : Nat) : Refines s E b 1 (makeCache (makeSets s E) s E b) RefCache.empty := by
  refine ⟨rfl, rfl, rfl, fun j hj => ⟨[], ⟨?_, fun i => ?_, by simp, by simp, by simp⟩, rfl⟩,
    rfl, rfl, rfl, ?_, rfl⟩
  · simp [makeCache, makeSets, hj]
  · simp [makeCache, makeSets, hj, List.getElem?_replicate]
    intro _; split <;> rfl
  · simp [makeCache, dirtyLines, RefCache.empty]

end Refines

/-- The statistics `csim` prints are the reference cache's, and every
    reference set holds at most `E` distinct tags. -/
theorem simulate_refines_lru {s E b : Nat} (hs : s ≤ 64) (hE : 0 < E) (trace : List Instruction) :
    simulate s E b trace = refStats s b (refRun s E b trace) ∧
      ∀ j < 2 ^ s, ((refRun s E b trace).sets j).length ≤ E ∧
        (((refRun s E b trace).sets j).map Prod.fst).Nodup := by
  have h := (Refines.init s E b).run hs hE trace
  refine ⟨h.stats_eq, fun j hj => ?_⟩
  obtain ⟨idx, hR, hv⟩ := h.sets j hj
  rw [refRun, hv, length_view, view, List.map_map]
  exact ⟨hR.length_le, hR.tags⟩

/-- Two sets of two 16-byte lines, a load, a store to the other set, and the
    load again. -/
theorem simulate_refines_lru_two_sets :
    1 ≤ 64 ∧ 0 < 2 ∧
      (simulate 1 2 4 [⟨0x10, 'L'⟩, ⟨0x20, 'S'⟩, ⟨0x10, 'L'⟩] =
          refStats 1 4 (refRun 1 2 4 [⟨0x10, 'L'⟩, ⟨0x20, 'S'⟩, ⟨0x10, 'L'⟩]) ∧
        ∀ j < 2 ^ 1, ((refRun 1 2 4 [⟨0x10, 'L'⟩, ⟨0x20, 'S'⟩, ⟨0x10, 'L'⟩]).sets j).length ≤ 2 ∧
          (((refRun 1 2 4 [⟨0x10, 'L'⟩, ⟨0x20, 'S'⟩, ⟨0x10, 'L'⟩]).sets j).map Prod.fst).Nodup) :=
  ⟨by decide, by decide, simulate_refines_lru (by decide) (by decide) _⟩

example : simulate 1 2 4 [⟨0x10, 'L'⟩, ⟨0x20, 'S'⟩, ⟨0x10, 'L'⟩] = ⟨1, 2, 0, 16, 0⟩ := by decide

end CsimLru
