import Mathlib.Order.Basic

/-! # The transposes of `trans.c`

    Each transpose function of `trans.c` reads the `N × M` matrix `A` and
    writes `B[j][i] = A[i][j]`, in its own loop order. A matrix is a map from
    (row, column) to an element; `A` is only read, and each loop is a
    `List.range` fold of the stores `B[r][c] = v`.

    * **`Writes S T B B'`** — `B'` is `B` with the cells `S` set to `T`; the
      whole development rests on one run lemma, `Writes.foldl_range`: a loop
      whose round `x` writes the cells `S x` writes their union;
    * **`garboTranspose`**, **`largeTranspose`**, **`smallTranspose`**,
      **`transposeSubmit`** — the loops as the source runs them; the two
      blocked ones share their outer loops (`blocked`) and differ in the
      8 × 8 block, where `smallTranspose` defers the diagonal element;
    * **`blocked_transposes_agree`** — on sizes that are multiples of 8 both
      blocked loops give the naive loop's result, which is the transpose and
      leaves the rest of `B` alone, and so `transpose_submit` transposes
      every matrix. -/

namespace Transpose

variable {α : Type}

/-- A matrix `double X[rows][cols]`, by (row, column). -/
abbrev Mat (α : Type) := Nat → Nat → α

/-- The store `B[r][c] = v`. -/
def store (B : Mat α) (r c : Nat) (v : α) : Mat α :=
  fun r' c' => if r' = r ∧ c' = c then v else B r' c'

/-- `garboTranspose(M, N, A, B, tmp)`: row by row, `B[j][i] = A[i][j]`. -/
def garboTranspose (M N : Nat) (A B : Mat α) : Mat α :=
  (List.range N).foldl (fun B i => (List.range M).foldl (fun B j => store B j i (A i j)) B) B

/-- The two outer loops shared by the blocked transposes: `body B i j`
    handles the 8 × 8 block of `A` at block row `i`, block column `j`. -/
def blocked (body : Mat α → Nat → Nat → Mat α) (M N : Nat) (B : Mat α) : Mat α :=
  (List.range (N / 8)).foldl (fun B i => (List.range (M / 8)).foldl (fun B j => body B i j) B) B

/-- The block of `largeTranspose`: `B[j*8+c][i*8+k] = A[8*i+k][8*j+c]`. -/
def largeBlock (A : Mat α) (B : Mat α) (i j : Nat) : Mat α :=
  (List.range 8).foldl (fun B k =>
    (List.range 8).foldl (fun B c => store B (j * 8 + c) (i * 8 + k) (A (8 * i + k) (8 * j + c))) B) B

/-- The block of `smallTranspose`: on a diagonal block the element
    `k = c` is stored after the rest of row `k`. -/
def smallBlock (A : Mat α) (B : Mat α) (i j : Nat) : Mat α :=
  (List.range 8).foldl (fun B k =>
    let B := (List.range 8).foldl (fun B c =>
      if k ≠ c ∨ i ≠ j then store B (j * 8 + c) (i * 8 + k) (A (8 * i + k) (8 * j + c)) else B) B
    if i = j then store B (j * 8 + k) (i * 8 + k) (A (j * 8 + k) (i * 8 + k)) else B) B

/-- `largeTranspose(M, N, A, B, tmp)`. -/
def largeTranspose (M N : Nat) (A B : Mat α) : Mat α := blocked (largeBlock A) M N B

/-- `smallTranspose(M, N, A, B, tmp)`. -/
def smallTranspose (M N : Nat) (A B : Mat α) : Mat α := blocked (smallBlock A) M N B

/-- `transpose_submit(M, N, A, B, tmp)`. -/
def transposeSubmit (M N : Nat) (A B : Mat α) : Mat α :=
  if M = 1024 ∧ N = 1024 then largeTranspose M N A B
  else if M = 32 ∧ N = 32 then smallTranspose M N A B
  else garboTranspose M N A B

/-! ## Sets of stores -/

/-- `B'` is `B` with the cells `S` set to `T` and every other cell kept. -/
def Writes (S : Nat → Nat → Prop) (T B B' : Mat α) : Prop :=
  ∀ r c, (S r c → B' r c = T r c) ∧ (¬ S r c → B' r c = B r c)

/-- `B'` is the transpose of the `N × M` matrix `A` in `[0, M) × [0, N)`,
    and `B` elsewhere. -/
def Transposes (M N : Nat) (A B B' : Mat α) : Prop :=
  Writes (fun r c => r < M ∧ c < N) (fun r c => A c r) B B'

section Writes

variable {S S' : Nat → Nat → Prop} {T B B' B'' : Mat α}

theorem Writes.single {r c : Nat} : Writes (fun r' c' => r' = r ∧ c' = c) T B (store B r c (T r c)) :=
  fun r' c' => ⟨fun ⟨h₁, h₂⟩ => by simp [Transpose.store, h₁, h₂], fun h => if_neg h⟩

theorem Writes.refl : Writes (fun _ _ => False) T B B := fun _ _ => ⟨False.elim, fun _ => rfl⟩

theorem Writes.trans (h : Writes S T B B') (h' : Writes S' T B' B'') :
    Writes (fun r c => S r c ∨ S' r c) T B B'' := fun r c => by
  by_cases hs' : S' r c
  · exact ⟨fun _ => (h' r c).1 hs', fun hn => absurd (.inr hs') hn⟩
  · rw [(h' r c).2 hs']
    exact ⟨fun hs => (h r c).1 (hs.resolve_right hs'), fun hn => (h r c).2 fun hs => hn (.inl hs)⟩

theorem Writes.congr (h : Writes S T B B') (hS : ∀ r c, S r c ↔ S' r c) : Writes S' T B B' :=
  fun r c => by rw [← hS r c]; exact h r c

/-- The result of a set of stores is determined by the set. -/
theorem Writes.unique (h : Writes S T B B') (h' : Writes S T B B'') : B' = B'' := by
  funext r c
  by_cases hs : S r c
  · rw [(h r c).1 hs, (h' r c).1 hs]
  · rw [(h r c).2 hs, (h' r c).2 hs]

theorem Writes.single_if {p : Prop} [Decidable p] {r c : Nat} :
    Writes (fun r' c' => p ∧ r' = r ∧ c' = c) T B (if p then store B r c (T r c) else B) := by
  by_cases hp : p
  · rw [if_pos hp]; exact Writes.single.congr fun _ _ => (and_iff_right hp).symm
  · rw [if_neg hp]; exact Writes.refl.congr fun _ _ => ⟨False.elim, fun h => hp h.1⟩

/-- **The run lemma**: a loop whose round `x` writes the cells `S x` writes
    the cells of every round. -/
theorem Writes.foldl_range {S : Nat → Nat → Nat → Prop} {f : Mat α → Nat → Mat α} :
    ∀ {n} B, (∀ B, ∀ x < n, Writes (S x) T B (f B x)) →
      Writes (fun r c => ∃ x < n, S x r c) T B ((List.range n).foldl f B)
  | 0, _, _ => Writes.refl.congr fun _ _ => by simp
  | n + 1, B, hf => by
      rw [List.range_succ, List.foldl_append, List.foldl_cons, List.foldl_nil]
      refine ((foldl_range B fun B x hx => hf B x (by omega)).trans (hf _ n (by omega))).congr
        fun r c => ⟨?_, ?_⟩
      · rintro (⟨x, hx, h⟩ | h)
        · exact ⟨x, by omega, h⟩
        · exact ⟨n, by omega, h⟩
      · rintro ⟨x, hx, h⟩
        rcases Nat.lt_succ_iff_lt_or_eq.mp hx with hx | rfl
        · exact .inl ⟨x, hx, h⟩
        · exact .inr h

end Writes

/-! ## The loops -/

variable (A : Mat α)

theorem garboTranspose_transposes (M N : Nat) (B : Mat α) :
    Transposes M N A B (garboTranspose M N A B) := by
  have hrow : ∀ B i, Writes (fun r c => ∃ j < M, r = j ∧ c = i) (fun r c => A c r) B
      ((List.range M).foldl (fun B j => store B j i (A i j)) B) :=
    fun B i => Writes.foldl_range B fun _ _ _ => Writes.single
  refine (Writes.foldl_range B fun B i _ => hrow B i).congr fun r c => ⟨?_, fun ⟨hr, hc⟩ => ⟨c, hc, r, hr, rfl, rfl⟩⟩
  rintro ⟨i, hi, j, hj, rfl, rfl⟩
  exact ⟨hj, hi⟩

/-- The cells of block `(i, j)`. -/
def blockCells (i j r c : Nat) : Prop := ∃ k < 8, ∃ l < 8, r = j * 8 + l ∧ c = i * 8 + k

theorem largeBlock_writes (B : Mat α) (i j : Nat) :
    Writes (blockCells i j) (fun r c => A c r) B (largeBlock A B i j) := by
  have hrow : ∀ B k, Writes (fun r c => ∃ l < 8, r = j * 8 + l ∧ c = i * 8 + k) (fun r c => A c r) B
      ((List.range 8).foldl (fun B l => store B (j * 8 + l) (i * 8 + k) (A (8 * i + k) (8 * j + l))) B) :=
    fun B k => by
      refine Writes.foldl_range B fun B l _ => ?_
      rw [show A (8 * i + k) (8 * j + l) = (fun r c => A c r) (j * 8 + l) (i * 8 + k) by
        simp only [Nat.mul_comm]]
      exact Writes.single
  exact Writes.foldl_range B fun B k _ => hrow B k

theorem smallBlock_writes (B : Mat α) (i j : Nat) :
    Writes (blockCells i j) (fun r c => A c r) B (smallBlock A B i j) := by
  have hrow : ∀ B, ∀ k < 8, Writes (fun r c => ∃ l < 8, r = j * 8 + l ∧ c = i * 8 + k)
      (fun r c => A c r) B
      (let B := (List.range 8).foldl (fun B l => if k ≠ l ∨ i ≠ j then
          store B (j * 8 + l) (i * 8 + k) (A (8 * i + k) (8 * j + l)) else B) B
        if i = j then store B (j * 8 + k) (i * 8 + k) (A (j * 8 + k) (i * 8 + k)) else B) := by
    intro B k hk
    have hoff : Writes (fun r c => ∃ l < 8, (k ≠ l ∨ i ≠ j) ∧ r = j * 8 + l ∧ c = i * 8 + k)
        (fun r c => A c r) B ((List.range 8).foldl (fun B l => if k ≠ l ∨ i ≠ j then
          store B (j * 8 + l) (i * 8 + k) (A (8 * i + k) (8 * j + l)) else B) B) := by
      refine Writes.foldl_range B fun B l _ => ?_
      rw [show A (8 * i + k) (8 * j + l) = (fun r c => A c r) (j * 8 + l) (i * 8 + k) by
        simp only [Nat.mul_comm]]
      exact Writes.single_if
    dsimp only
    by_cases hij : i = j
    · subst hij
      rw [if_pos rfl]
      refine (hoff.trans (Writes.single (T := fun r c => A c r))).congr fun r c => ⟨?_, ?_⟩
      · rintro (⟨l, hl, -, h⟩ | ⟨rfl, rfl⟩)
        · exact ⟨l, hl, h⟩
        · exact ⟨k, hk, rfl, rfl⟩
      · rintro ⟨l, hl, h⟩
        by_cases hkl : k = l
        · subst hkl; exact .inr h
        · exact .inl ⟨l, hl, .inl hkl, h⟩
    · rw [if_neg hij]
      exact hoff.congr fun r c =>
        ⟨fun ⟨l, hl, _, h⟩ => ⟨l, hl, h⟩, fun ⟨l, hl, h⟩ => ⟨l, hl, .inr hij, h⟩⟩
  exact Writes.foldl_range B hrow

/-- The outer loops of the blocked transposes: when each block body writes
    its block, they write the rows and columns below the multiples of 8. -/
theorem blocked_writes {body : Mat α → Nat → Nat → Mat α}
    (hb : ∀ B i j, Writes (blockCells i j) (fun r c => A c r) B (body B i j)) (M N : Nat)
    (B : Mat α) : Transposes (M / 8 * 8) (N / 8 * 8) A B (blocked body M N B) := by
  refine (Writes.foldl_range B fun B i _ => Writes.foldl_range B fun B j _ => hb B i j).congr
    fun r c => ⟨?_, fun ⟨hr, hc⟩ => ⟨c / 8, by omega, r / 8, by omega, c % 8, by omega, r % 8,
      by omega, by omega, by omega⟩⟩
  rintro ⟨i, hi, j, hj, k, hk, l, hl, rfl, rfl⟩
  omega

/-- **Blocked transposes agree with the naive one.** On sizes that are
    multiples of 8, `largeTranspose` and `smallTranspose` transpose `A` into
    `[0, M) × [0, N)` of `B`, keep the rest of `B`, and so give exactly what
    `garboTranspose` gives; `transpose_submit` transposes every matrix. -/
theorem blocked_transposes_agree (A B : Mat α) :
    (∀ M N, M % 8 = 0 → N % 8 = 0 →
      Transposes M N A B (largeTranspose M N A B) ∧ Transposes M N A B (smallTranspose M N A B) ∧
        largeTranspose M N A B = garboTranspose M N A B ∧
        smallTranspose M N A B = garboTranspose M N A B) ∧
      ∀ M N, Transposes M N A B (garboTranspose M N A B) ∧
        Transposes M N A B (transposeSubmit M N A B) := by
  have hlarge := fun M N => blocked_writes A (largeBlock_writes A) M N B
  have hsmall := fun M N => blocked_writes A (smallBlock_writes A) M N B
  have hgarbo := fun M N => garboTranspose_transposes A M N B
  refine ⟨fun M N hM hN => ?_, fun M N => ⟨hgarbo M N, ?_⟩⟩
  · have hl := hlarge M N; have hs := hsmall M N
    rw [Nat.div_mul_cancel (Nat.dvd_of_mod_eq_zero hM),
      Nat.div_mul_cancel (Nat.dvd_of_mod_eq_zero hN)] at hl hs
    exact ⟨hl, hs, hl.unique (hgarbo M N), hs.unique (hgarbo M N)⟩
  · unfold transposeSubmit
    split_ifs with h₁ h₂
    · obtain ⟨rfl, rfl⟩ := h₁; exact hlarge 1024 1024
    · obtain ⟨rfl, rfl⟩ := h₂; exact hsmall 32 32
    · exact hgarbo M N

end Transpose
