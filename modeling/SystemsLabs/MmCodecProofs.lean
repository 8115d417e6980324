import Mathlib.Data.Nat.Bitwise
import Mathlib.Tactic.IntervalCases

/-! # The header word of `mm.c` and its bit codec

    `mm.c` keeps a block's size and three flags in one 64-bit word: bit 0 is
    the allocated bit, bit 1 the previous-block-allocated bit, bit 2 the mini
    bit (set by `pack` whenever the size is the 16-byte minimum), and the bits
    above the low four hold the size. The same word layout serves as footer, as
    epilogue, and (with the low three bits cleared) as the tagged pointers of a
    free mini block.

    This file models the constants and the codec (`pack`, `extract_*`,
    `round_up`, `get_seglist_ind`) as the source computes them, on `Nat`
    words below `2^64`, and proves the ARITHMETIC FORMS that every later file
    works with: after `extractSize_eq`, `extractAlloc_eq`, ..., a header goal is
    a goal about `/` and `%` by constants, which `omega` closes. -/

namespace MmCodec

/-! ## Constants -/

/-- `seglist_length`: the number of segregated free lists. -/
def seglistLength : Nat := 15

/-- `wsize`: word and header size in bytes. -/
def wsize : Nat := 8

/-- `dsize`: double word size, the alignment unit. -/
def dsize : Nat := 2 * wsize

/-- `min_block_size`: the size of a mini block. -/
def minBlockSize : Nat := dsize

/-- `chunksize`: the least amount the heap grows by. -/
def chunksize : Nat := 2 ^ 12

/-- `alloc_mask`. -/
def allocMask : Nat := 0x1

/-- `alloc_prev_mask`. -/
def allocPrevMask : Nat := 0x2

/-- `mini_mask`. -/
def miniMask : Nat := 0x4

/-- `size_mask = ~(word_t)0xF`, as a 64-bit word. -/
def sizeMask : Nat := 2 ^ 64 - 16

/-- `~0x7` converted to `size_t`: the mask that strips the three flag bits
    off a tagged free-list pointer. -/
def linkMask : Nat := 2 ^ 64 - 8

attribute [simp] seglistLength wsize dsize minBlockSize chunksize allocMask
  allocPrevMask miniMask

/-! ## The codec, as `mm.c` computes it -/

/-- `round_up(size, n)`: `size + (n - 1)` is `size_t` arithmetic and wraps. -/
def roundUp (size n : Nat) : Nat := n * ((size + (n - 1)) % 2 ^ 64 / n)

/-- `pack(size, alloc, prev_alloc)`: the mini bit is set whenever the size is
    `min_block_size`. -/
def pack (size : Nat) (alloc prevAlloc : Bool) : Nat :=
  let word := size
  let word := if alloc then word ||| allocMask else word
  let word := if prevAlloc then word ||| allocPrevMask else word
  if size = minBlockSize then word ||| miniMask else word

/-- `extract_size(word)`. -/
def extractSize (word : Nat) : Nat := word &&& sizeMask

/-- `extract_mini(word)`. -/
def extractMini (word : Nat) : Bool := (word &&& miniMask) >>> 2 != 0

/-- `extract_alloc(word)`. -/
def extractAlloc (word : Nat) : Bool := word &&& allocMask != 0

/-- `extract_prev_alloc(word)`. -/
def extractPrevAlloc (word : Nat) : Bool := (word &&& allocPrevMask) >>> 1 != 0

/-- The loop `for (i = size >> 4; i != 0; i = i >> 1) count++` of
    `get_seglist_ind`, given `fuel` rounds; 64 rounds end it on every 64-bit
    size. -/
def countBits : Nat → Nat → Nat
  | 0, _ => 0
  | fuel + 1, i => if i = 0 then 0 else countBits fuel (i >>> 1) + 1

/-- `get_seglist_ind(size)`: the free list a block of `size` bytes belongs to. -/
def getSeglistInd (size : Nat) : Nat :=
  let count := if size ≤ 16 then 1 else countBits 64 (size >>> 4)
  min (count - 1) (seglistLength - 1)

/-! ## The size classes -/

theorem countBits_mono : ∀ (fuel : Nat) {i j : Nat}, i ≤ j → countBits fuel i ≤ countBits fuel j
  | 0, _, _, _ => le_rfl
  | fuel + 1, i, j, h => by
      have ih := countBits_mono fuel (i := i >>> 1) (j := j >>> 1)
        (by simp only [Nat.shiftRight_eq_div_pow]; exact Nat.div_le_div_right h)
      simp only [countBits]
      split_ifs <;> omega

/-- Larger sizes never go to a lower list: `find_fit`'s fallback relies on it. -/
theorem getSeglistInd_mono {s t : Nat} (h : s ≤ t) : getSeglistInd s ≤ getSeglistInd t := by
  have := countBits_mono 64 (i := s >>> 4) (j := t >>> 4)
    (by simp only [Nat.shiftRight_eq_div_pow]; exact Nat.div_le_div_right h)
  simp only [getSeglistInd, seglistLength]
  split_ifs <;> omega

/-- Buckets are ordered like the sizes they hold. -/
theorem lt_of_getSeglistInd_lt {s t : Nat} (h : getSeglistInd s < getSeglistInd t) : s < t :=
  Nat.lt_of_not_le fun hts => Nat.not_le.mpr h (getSeglistInd_mono hts)

theorem getSeglistInd_lt (s : Nat) : getSeglistInd s < seglistLength := by
  simp only [getSeglistInd, seglistLength]; omega

/-- The bit-counting loop runs `log2 i + 1` rounds on a nonzero `i`, cut at its fuel. -/
theorem countBits_eq : ∀ fuel i, countBits fuel i = min fuel (if i = 0 then 0 else Nat.log2 i + 1)
  | 0, _ => by simp [countBits]
  | fuel + 1, i => by
      rw [countBits, countBits_eq fuel, Nat.shiftRight_one]
      by_cases h0 : i = 0
      · simp [h0]
      by_cases h1 : i = 1
      · subst h1; simp [Nat.log2]
      have hl : Nat.log2 i = Nat.log2 (i / 2) + 1 := by
        rw [Nat.log2]; simp only [show i ≥ 2 by omega, ite_true]
      simp only [h0, show i / 2 ≠ 0 by omega, hl, ite_false]
      omega

/-- The closed form of the bucket index, and the order facts `find_fit` uses. -/
theorem getSeglistInd_closed_form :
    (∀ s, getSeglistInd s = min (Nat.log2 (max 1 (s / 16))) 14) ∧
      Monotone getSeglistInd ∧
      (∀ s, s % 16 = 0 → 0 < s → (getSeglistInd s = 0 ↔ s = 16)) ∧
      ∀ s a, getSeglistInd a < getSeglistInd s → a < s := by
  have hcf : ∀ s, getSeglistInd s = min (Nat.log2 (max 1 (s / 16))) 14 := by
    intro s
    simp only [getSeglistInd, seglistLength, countBits_eq, Nat.shiftRight_eq_div_pow,
      show 2 ^ 4 = 16 from rfl]
    split_ifs with h₁ h₂
    · simp [show max 1 (s / 16) = 1 by omega, Nat.log2]
    · omega
    · rw [show max 1 (s / 16) = s / 16 by omega]; omega
  refine ⟨hcf, fun _ _ => getSeglistInd_mono, fun s h16 hs => ?_,
    fun _ _ h => lt_of_getSeglistInd_lt h⟩
  have hl : Nat.log2 (max 1 (s / 16)) < 1 ↔ max 1 (s / 16) < 2 ^ 1 := Nat.log2_lt (by omega)
  rw [hcf]
  omega

example : getSeglistInd 48 = 1 ∧ getSeglistInd (2 ^ 63) = 14 := by decide

/-! ## Bit lemmas -/

/-- Or-ing in bits below an aligned word is addition. -/
theorem or_eq_add {a b k : Nat} (ha : a % 2 ^ k = 0) (hb : b < 2 ^ k) : a ||| b = a + b := by
  have := Nat.mul_add_lt_is_or hb (a / 2 ^ k)
  rw [Nat.mul_div_cancel' (Nat.dvd_of_mod_eq_zero ha)] at this
  omega

/-- Masking with the high bits `[k, n)` of an `n`-bit word clears the low `k` bits. -/
theorem and_high_mask {w n k : Nat} (hk : k ≤ n) (hw : w < 2 ^ n) :
    w &&& (2 ^ n - 2 ^ k) = w - w % 2 ^ k := by
  have hm : 2 ^ n - 2 ^ k = (2 ^ (n - k) - 1) <<< k := by
    rw [Nat.shiftLeft_eq, Nat.sub_mul, one_mul, ← Nat.pow_add, Nat.sub_add_cancel hk]
  have hs : w >>> k <<< k = w - w % 2 ^ k := by
    rw [Nat.shiftLeft_eq, Nat.shiftRight_eq_div_pow]
    have := Nat.div_add_mod w (2 ^ k)
    rw [Nat.mul_comm]
    omega
  rw [hm, ← hs]
  apply Nat.eq_of_testBit_eq
  intro i
  simp only [Nat.testBit_and, Nat.testBit_shiftLeft, Nat.testBit_two_pow_sub_one,
    Nat.testBit_shiftRight, ge_iff_le]
  by_cases hi : k ≤ i
  · rw [Nat.add_sub_cancel' hi]
    by_cases hin : i < n
    · simp [hi, hin]; omega
    · have : w.testBit i = false := Nat.testBit_eq_false_of_lt
        (lt_of_lt_of_le hw (Nat.pow_le_pow_right Nat.two_pos (by omega)))
      simp [this]
  · simp [hi]

/-- Selecting bit `k` and shifting it down gives that bit. -/
theorem and_two_pow_shiftRight (w k : Nat) : (w &&& 2 ^ k) >>> k = w / 2 ^ k % 2 := by
  apply Nat.eq_of_testBit_eq
  intro i
  rw [Nat.testBit_shiftRight, Nat.testBit_and, Nat.testBit_two_pow, ← Nat.shiftRight_eq_div_pow,
    show (2 : Nat) = 2 ^ 1 from rfl, Nat.testBit_mod_two_pow, Nat.testBit_shiftRight]
  rcases i with _ | i <;> simp

/-- The aligned part of a word. -/
theorem aligned_part (w k : Nat) : (w - w % 2 ^ k) % 2 ^ k = 0 :=
  Nat.sub_mod_eq_zero_of_mod_eq (Nat.mod_mod _ _).symm

/-- A word is its aligned part or-ed with its low bits. -/
theorem split_low (w k : Nat) : w = (w - w % 2 ^ k) ||| w % 2 ^ k := by
  rw [or_eq_add (aligned_part w k) (Nat.mod_lt _ (Nat.two_pow_pos k))]
  have := Nat.mod_le w (2 ^ k)
  omega

/-! ## Arithmetic forms -/

section Forms

variable {w : Nat}

theorem extractSize_eq (hw : w < 2 ^ 64) : extractSize w = w - w % 16 :=
  and_high_mask (k := 4) (by norm_num) hw

theorem extractAlloc_eq : extractAlloc w = decide (w % 2 = 1) := by
  simp only [extractAlloc, allocMask, Nat.and_one_is_mod]
  rcases Nat.mod_two_eq_zero_or_one w with h | h <;> simp [h]

theorem extractPrevAlloc_eq : extractPrevAlloc w = decide (w / 2 % 2 = 1) := by
  simp only [extractPrevAlloc, allocPrevMask]
  rw [show (0x2 : Nat) = 2 ^ 1 from rfl, and_two_pow_shiftRight]
  rcases Nat.mod_two_eq_zero_or_one (w / 2) with h | h <;> simp [h]

theorem extractMini_eq : extractMini w = decide (w / 4 % 2 = 1) := by
  simp only [extractMini, miniMask]
  rw [show (0x4 : Nat) = 2 ^ 2 from rfl, and_two_pow_shiftRight]
  rcases Nat.mod_two_eq_zero_or_one (w / 4) with h | h <;> simp [h]

/-- Stripping the flag bits of a tagged pointer. -/
theorem and_linkMask (hw : w < 2 ^ 64) : w &&& linkMask = w - w % 8 :=
  and_high_mask (k := 3) (by norm_num) hw

/-- `header | alloc_prev_mask`. -/
theorem or_allocPrevMask : w ||| allocPrevMask = w + 2 - w / 2 % 2 * 2 := by
  conv_lhs => rw [split_low w 2]
  have h4 : w % 2 ^ 2 < 2 ^ 2 := Nat.mod_lt _ (by norm_num)
  rw [allocPrevMask, Nat.or_assoc,
    or_eq_add (aligned_part w 2) (Nat.or_lt_two_pow h4 (by norm_num))]
  have key : w % 2 ^ 2 ||| 0x2 = w % 2 ^ 2 + 2 - w % 2 ^ 2 / 2 * 2 := by
    interval_cases w % 2 ^ 2 <;> rfl
  rw [key]
  omega

/-- `header & ~alloc_prev_mask`, with `~0x2` as a 64-bit word. -/
theorem and_not_allocPrevMask (hw : w < 2 ^ 64) :
    w &&& (2 ^ 64 - 1 - allocPrevMask) = w - w / 2 % 2 * 2 := by
  have hm : 2 ^ 64 - 1 - allocPrevMask = (2 ^ 64 - 2 ^ 2) ||| 1 := by decide
  rw [hm, Nat.and_or_distrib_left, and_high_mask (by norm_num) hw, Nat.and_one_is_mod,
    or_eq_add (aligned_part w 2) (lt_of_lt_of_le (Nat.mod_lt _ (by norm_num)) (by norm_num))]
  omega

/-- `(header & 0x7) | prev` for an 8-aligned `prev`. -/
theorem and7_or_eq {p : Nat} (hp : p % 8 = 0) : (w &&& 0x7) ||| p = p + w % 8 := by
  rw [show (0x7 : Nat) = 2 ^ 3 - 1 from rfl, Nat.and_pow_two_sub_one_eq_mod, Nat.or_comm,
    or_eq_add (k := 3) hp (Nat.mod_lt _ (by norm_num))]
  rfl

/-- `next | mini_mask` for an 8-aligned `next`. -/
theorem or_miniMask_eq {p : Nat} (hp : p % 8 = 0) : p ||| miniMask = p + 4 :=
  or_eq_add (k := 3) hp (by norm_num)

end Forms

/-- `pack` on a 16-aligned size is a sum of flag values. -/
theorem pack_eq {size : Nat} (hs : size % 16 = 0) (alloc prevAlloc : Bool) :
    pack size alloc prevAlloc = size + (if alloc then 1 else 0) + (if prevAlloc then 2 else 0) +
      (if size = 16 then 4 else 0) := by
  have key : ∀ f, f < 16 → size ||| f = size + f := fun f hf => or_eq_add (k := 4) hs hf
  by_cases h16 : size = 16 <;> cases alloc <;> cases prevAlloc <;>
    simp only [pack, h16, minBlockSize, dsize, wsize, allocMask, allocPrevMask, miniMask,
      Nat.or_assoc, if_true, if_false, Bool.false_eq_true] <;>
    simp (disch := norm_num) [key]

section Pack

variable {size : Nat} (hs : size % 16 = 0) (alloc prevAlloc : Bool)
include hs

theorem pack_lt (hlt : size < 2 ^ 64) : pack size alloc prevAlloc < 2 ^ 64 := by
  rw [pack_eq hs]; split_ifs <;> omega

theorem extractSize_pack (hlt : size < 2 ^ 64) : extractSize (pack size alloc prevAlloc) = size := by
  rw [extractSize_eq (pack_lt hs alloc prevAlloc hlt), pack_eq hs]; split_ifs <;> omega

theorem extractAlloc_pack : extractAlloc (pack size alloc prevAlloc) = alloc := by
  rw [extractAlloc_eq, pack_eq hs]; cases alloc <;> simp <;> split_ifs <;> omega

theorem extractPrevAlloc_pack : extractPrevAlloc (pack size alloc prevAlloc) = prevAlloc := by
  rw [extractPrevAlloc_eq, pack_eq hs]; cases prevAlloc <;> simp <;> split_ifs <;> omega

theorem extractMini_pack : extractMini (pack size alloc prevAlloc) = decide (size = 16) := by
  rw [extractMini_eq, pack_eq hs]; by_cases h : size = 16 <;> simp [h] <;> split_ifs <;> omega

end Pack

end MmCodec
