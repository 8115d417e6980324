import SystemsLabs.ProxyCacheProofs

/-! # Relaying a response: `forward_to_client` of `proxy.c`

    `forward_to_client` reads the server's response in chunks of at most
    `MAXLINE` bytes with `rio_readnb`, copies each chunk into the stack buffer
    `payload[MAX_OBJECT_SIZE]` while the running total `mem_written` allows it,
    and hands `payload` and the total to `insert` when the total fits.

    * **`ReadResult`**, **`Fwd`** — one result of `rio_readnb`, and the
      function's locals, with the destinations of its `memcpy` calls;
    * **`forwardToClient`** — the loop and the final `insert` call, `n` and
      `mem_written` being the `size_t` values the source computes;
    * **`forwardToClient_of_chunks`** — when every read succeeds, every copy
      lands inside `payload` and `insert` gets exactly the chunks read;
    * **`forwardToClient_read_error_overflows`** — a read error stores `-1`
      in `n`, `mem_written + n` wraps, and the function copies past
      `payload`'s end, or, when the error comes first, one byte before it and
      then calls `insert`.

    The copy of each chunk to the client (`rio_writen`) is not modelled. -/

namespace ProxyForward

open ProxyCache

/-- A result of `rio_readnb(server_rio, buf, MAXLINE)`: `-1` on a read error,
    otherwise the bytes it read into `buf`, none at the end of the response. -/
inductive ReadResult
  | error
  | chunk (bytes : List Nat)
  deriving DecidableEq, Repr

/-- The result as the `size_t n` holds it: `-1` becomes `2^64 - 1`. -/
def ReadResult.n : ReadResult → Nat
  | .error => 2 ^ 64 - 1
  | .chunk bytes => bytes.length

/-- `buf` after the read: the bytes read, over what `buf` held before. -/
def ReadResult.fill : ReadResult → (Nat → Nat) → Nat → Nat
  | .error, buf => buf
  | .chunk bytes, buf => fun i => bytes.getD i (buf i)

/-- The locals of `forward_to_client`. -/
structure Fwd where
  /-- `buf[MAXLINE]`, by offset. -/
  buf : Nat → Nat
  /-- `payload[MAX_OBJECT_SIZE]`, by offset from `payload`, modulo `2^64`. -/
  payload : Nat → Nat
  /-- `mem_written`, a `size_t`. -/
  memWritten : Nat
  /-- The calls `memcpy(payload + mem_written, buf, n)`, as `(mem_written, n)`. -/
  copies : List (Nat × Nat)

/-- `memcpy(payload + off, src, n)`: byte `k < n` of `src` lands at offset
    `off + k` modulo `2^64`. The store is not bounds-checked: where C faults
    past the stack, the model goes on, so a copy is stated by its range
    (`Fwd.copies`) and not by what follows it. -/
def copyAt (dst : Nat → Nat) (off : Nat) (src : Nat → Nat) (n : Nat) : Nat → Nat :=
  fun i => if (i + 2 ^ 64 - off) % 2 ^ 64 < n then src ((i + 2 ^ 64 - off) % 2 ^ 64) else dst i

/-- One round of the loop, once `rio_readnb` returned `r` and `n != 0`. -/
def step (st : Fwd) (r : ReadResult) : Fwd :=
  let buf := r.fill st.buf
  let n := r.n
  if (st.memWritten + n) % 2 ^ 64 ≤ maxObjectSize then
    { buf, payload := copyAt st.payload st.memWritten buf n,
      memWritten := (st.memWritten + n) % 2 ^ 64, copies := st.copies ++ [(st.memWritten, n)] }
  else { st with buf, memWritten := (st.memWritten + n) % 2 ^ 64 }

/-- `while ((n = rio_readnb(server_rio, buf, MAXLINE)) != 0)`, over the
    results the server's reads give. -/
def loop : Fwd → List ReadResult → Fwd
  | st, [] => st
  | st, r :: rs => if r.n = 0 then st else loop (step st r) rs

/-- `forward_to_client`: its locals at the end, and the arguments
    `(payload[0, mem_written), mem_written)` of the `insert` call if it makes
    one. `buf` and `payload` start with whatever the stack held. -/
def forwardToClient (buf payload : Nat → Nat) (reads : List ReadResult) :
    Fwd × Option (List Nat × Nat) :=
  let st := loop ⟨buf, payload, 0, []⟩ reads
  (st, if st.memWritten ≤ maxObjectSize then
    some ((List.range st.memWritten).map st.payload, st.memWritten) else none)

/-! ## One round at a time -/

theorem step_memWritten (st : Fwd) (r : ReadResult) :
    (step st r).memWritten = (st.memWritten + r.n) % 2 ^ 64 := by
  dsimp only [step]; split <;> rfl

theorem step_copies (st : Fwd) (r : ReadResult) :
    (step st r).copies = if (st.memWritten + r.n) % 2 ^ 64 ≤ maxObjectSize then
      st.copies ++ [(st.memWritten, r.n)] else st.copies := by
  dsimp only [step]; split <;> rfl

theorem loop_stop {st : Fwd} {r : ReadResult} {rs : List ReadResult} (h : r.n = 0) :
    loop st (r :: rs) = st := if_pos h

theorem loop_cons {st : Fwd} {r : ReadResult} {rs : List ReadResult} (h : r.n ≠ 0) :
    loop st (r :: rs) = loop (step st r) rs := if_neg h

/-! ## Reads that all succeed -/

/-- The loop over successful reads, ended by the empty read, is a fold. -/
theorem loop_chunks : ∀ {st : Fwd} {chunks : List (List Nat)}, (∀ c ∈ chunks, c ≠ []) →
    loop st (chunks.map .chunk ++ [.chunk []]) = chunks.foldl (fun st c => step st (.chunk c)) st
  | _, [], _ => rfl
  | st, c :: cs, h => by
      have hc : (ReadResult.chunk c).n ≠ 0 := by
        simpa [ReadResult.n] using h c (List.mem_cons_self _ _)
      rw [List.map_cons, List.cons_append, loop_cons hc, List.foldl_cons,
        loop_chunks fun c' hc' => h c' (List.mem_cons_of_mem _ hc')]

/-- What the locals hold after the chunks `done` were read: `mem_written`
    counts their bytes, every copy stayed inside `payload`, and while they fit
    `payload` starts with them. -/
structure Copied (st : Fwd) (done : List Nat) : Prop where
  written : st.memWritten = done.length
  inside : ∀ w ∈ st.copies, w.1 + w.2 ≤ maxObjectSize
  prefix_eq : done.length ≤ maxObjectSize → ∀ i (h : i < done.length), st.payload i = done[i]

theorem Copied.read {st : Fwd} {done c : List Nat} (h : Copied st done)
    (hlt : done.length + c.length < 2 ^ 64) : Copied (step st (.chunk c)) (done ++ c) := by
  have hmod : (st.memWritten + c.length) % 2 ^ 64 = done.length + c.length := by
    rw [h.written]; exact Nat.mod_eq_of_lt hlt
  unfold step
  simp only [ReadResult.n, ReadResult.fill, hmod]
  split
  · rename_i hfit
    refine ⟨by simp, fun w hw => ?_, fun _ i hi => ?_⟩
    · rcases List.mem_append.mp hw with hw | hw
      · exact h.inside w hw
      · rw [List.mem_singleton.mp hw, h.written]; exact hfit
    · simp only [copyAt, h.written]
      by_cases hi' : i < done.length
      · have : ¬ (i + 2 ^ 64 - done.length) % 2 ^ 64 < c.length := by omega
        rw [if_neg this, h.prefix_eq (by omega) i hi', List.getElem_append_left hi']
      · simp only [List.length_append] at hi
        have hk : (i + 2 ^ 64 - done.length) % 2 ^ 64 = i - done.length := by omega
        rw [hk, if_pos (by omega), List.getElem_append_right (by omega)]
        simp [List.getD_eq_getElem?_getD, List.getElem?_eq_getElem (show i - done.length < c.length by omega)]
  · rename_i hfit
    exact ⟨by simp, h.inside, fun hle => absurd hle (by simpa using hfit)⟩

theorem Copied.fold : ∀ {st : Fwd} {done : List Nat} {chunks : List (List Nat)}, Copied st done →
    done.length + chunks.flatten.length < 2 ^ 64 →
    Copied (chunks.foldl (fun st c => step st (.chunk c)) st) (done ++ chunks.flatten)
  | _, _, [], h, _ => by simpa using h
  | st, done, c :: cs, h, hlt => by
      rw [List.foldl_cons, List.flatten_cons, ← List.append_assoc]
      simp only [List.flatten_cons, List.length_append] at hlt
      exact Copied.fold (h.read (by omega)) (by simp only [List.length_append]; omega)

/-- When every read succeeds, and the response is shorter than `2^64` bytes,
    every copy lands inside `payload`, and `insert` is called exactly when the
    chunks fit, with their concatenation and its length. -/
theorem forwardToClient_of_chunks (buf payload : Nat → Nat) {chunks : List (List Nat)}
    (hne : ∀ c ∈ chunks, c ≠ []) (hlt : chunks.flatten.length < 2 ^ 64) :
    (∀ w ∈ (forwardToClient buf payload (chunks.map .chunk ++ [.chunk []])).1.copies,
        w.1 + w.2 ≤ maxObjectSize) ∧
      (forwardToClient buf payload (chunks.map .chunk ++ [.chunk []])).2 =
        if chunks.flatten.length ≤ maxObjectSize then some (chunks.flatten, chunks.flatten.length)
        else none := by
  have h₀ : Copied ⟨buf, payload, 0, []⟩ [] :=
    ⟨rfl, fun _ hw => (nomatch hw), fun _ i hi => absurd hi (Nat.not_lt_zero i)⟩
  have h := Copied.fold h₀ (by simpa using hlt)
  rw [List.nil_append] at h
  simp only [forwardToClient, loop_chunks hne, h.written]
  refine ⟨h.inside, ?_⟩
  split_ifs with hle
  · refine congrArg (fun l => some (l, _)) (List.ext_getElem (by simp) fun i h₁ h₂ => ?_)
    simp [h.prefix_eq hle i h₂]
  · rfl

/-- Two successful reads of two bytes and one byte, then the end: `insert`
    gets the three bytes. -/
theorem forwardToClient_of_two_chunks :
    (∀ c ∈ [[1, 2], [3]], c ≠ []) ∧ [[1, 2], [3]].flatten.length < 2 ^ 64 ∧
      (∀ w ∈ (forwardToClient (fun _ => 0) (fun _ => 0) ([[1, 2], [3]].map .chunk ++ [.chunk []])).1.copies,
        w.1 + w.2 ≤ maxObjectSize) ∧
      (forwardToClient (fun _ => 0) (fun _ => 0) ([[1, 2], [3]].map .chunk ++ [.chunk []])).2 =
        if [[1, 2], [3]].flatten.length ≤ maxObjectSize then
          some ([[1, 2], [3]].flatten, [[1, 2], [3]].flatten.length)
        else none :=
  have hne : ∀ c ∈ [[1, 2], [3]], c ≠ [] := by decide
  have hlt : [[1, 2], [3]].flatten.length < 2 ^ 64 := by decide
  ⟨hne, hlt, forwardToClient_of_chunks (fun _ => 0) (fun _ => 0) hne hlt⟩

/-! ## A failed read -/

/-- **A read error wraps `mem_written`.** After a one-byte chunk, a failed
    read stores `-1` in `n`; `mem_written + n` wraps to `0`, which passes the
    size test, so `forward_to_client` copies `2^64 - 1` bytes to
    `payload + 1`, through `payload[MAX_OBJECT_SIZE]` and on. When the failed
    read comes first, `mem_written` becomes `2^64 - 1`, the next one-byte
    chunk wraps it back to `0` and is copied to `payload - 1`, one byte before
    the buffer, and `insert` is then called with an empty object although a
    read failed. -/
theorem forwardToClient_read_error_overflows (buf payload : Nat → Nat) (c : Nat) :
    (∃ w ∈ (forwardToClient buf payload [.chunk [c], .error, .chunk []]).1.copies,
        ∃ k < w.2, (w.1 + k) % 2 ^ 64 = maxObjectSize) ∧
      (forwardToClient buf payload [.error, .chunk [c], .chunk []]).1.copies = [(2 ^ 64 - 1, 1)] ∧
      (forwardToClient buf payload [.error, .chunk [c], .chunk []]).2 = some ([], 0) := by
  have hrun : (loop ⟨buf, payload, 0, []⟩ [.chunk [c], .error, .chunk []]).copies =
      [(0, 1), (1, 2 ^ 64 - 1)] := by
    rw [loop_cons (r := .chunk [c]) (by simp [ReadResult.n]), loop_cons (r := .error) (by decide),
      loop_stop (r := .chunk []) rfl, step_copies, step_copies, step_memWritten]
    simp [ReadResult.n, maxObjectSize]
  have hrun' : (loop ⟨buf, payload, 0, []⟩ [.error, .chunk [c], .chunk []]).memWritten = 0 ∧
      (loop ⟨buf, payload, 0, []⟩ [.error, .chunk [c], .chunk []]).copies = [(2 ^ 64 - 1, 1)] := by
    rw [loop_cons (r := .error) (by decide), loop_cons (r := .chunk [c]) (by simp [ReadResult.n]),
      loop_stop (r := .chunk []) rfl, step_memWritten, step_memWritten, step_copies, step_copies,
      step_memWritten]
    simp [ReadResult.n, maxObjectSize]
  simp only [forwardToClient, hrun, hrun', List.mem_cons, List.mem_singleton, List.not_mem_nil, or_false]
  exact ⟨⟨(1, 2 ^ 64 - 1), .inr rfl, maxObjectSize - 1, by simp [maxObjectSize],
    by simp [maxObjectSize]⟩, trivial, by simp [maxObjectSize]⟩

end ProxyForward
