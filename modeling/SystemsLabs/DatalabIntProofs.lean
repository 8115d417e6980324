import Mathlib.Data.BitVec

/-! # The integer puzzles of `bits.c`

    Each integer puzzle of the data lab computes a function of 64-bit `long`s
    with a handful of bitwise operators. A `long` is a `BitVec 64`: `+` wraps,
    `>>` on a `long` is the arithmetic shift `sshiftRight`, and C's `!` is
    `lnot`. Every puzzle is checked against its plain meaning, for all inputs:

    * **`bitMatch_getLsbD`**, **`leastBitPos_getLsbD`**, **`copyLSB_eq`**,
      **`bitMask_getLsbD`** — the masks, bit by bit;
    * **`allOddBits_eq`**, **`isPalindrome_eq`** — the predicates on the bit
      pattern; `isPalindrome` reverses the high half in five swap lines
      (`swapStep_getLsbD`, `partner_reverse`) and compares it with the low
      half;
    * **`conditional_eq`**, **`isLess_eq`** — `x ? y : z`, and the signed
      comparison, right also where `x - y` overflows;
    * **`trueThreeFourths_toInt`** — `3 * x / 4` rounded toward zero, as an
      exact integer: the puzzle never overflows. -/

namespace DatalabInt

/-- C's `!x` on a `long`: `1` for zero, `0` otherwise. -/
def lnot (x : BitVec 64) : BitVec 64 := if x = 0 then 1 else 0

/-! ## Signs and words -/

/-- Shifting right by 63 spreads the sign bit over the word. -/
theorem sshiftRight_63 (v : BitVec 64) :
    v.sshiftRight 63 = if v.msb then BitVec.allOnes 64 else 0 := by
  apply BitVec.eq_of_getLsbD_eq; rintro ⟨i, hi⟩; dsimp only
  have hm : v.msb = v.getLsbD 63 := BitVec.msb_eq_getLsbD_last v
  rw [BitVec.getLsbD_sshiftRight, hm]
  have hr : (if v.getLsbD 63 = true then BitVec.allOnes 64 else 0).getLsbD i = v.getLsbD 63 := by
    split <;> rename_i h <;> simp only [BitVec.getLsbD_allOnes, BitVec.getLsbD_zero, hi, h] <;> simp_all
  rw [hr]
  by_cases h0 : i = 0
  · subst h0; simp
  · rw [if_neg (by omega)]; simp [hi]

theorem sshiftRight_63_and_one (v : BitVec 64) :
    v.sshiftRight 63 &&& 1 = if v.msb then 1 else 0 := by
  rw [sshiftRight_63]; split
  · exact BitVec.allOnes_and
  · exact BitVec.zero_and

theorem msb_shiftLeft_63 (v : BitVec 64) : (v <<< 63).msb = v.getLsbD 0 := by
  rw [BitVec.msb_eq_getLsbD_last]; simp

theorem xor_eq_zero_iff_eq {x y : BitVec 64} : x ^^^ y = 0 ↔ x = y := by
  constructor
  · intro h
    calc x = x ^^^ (y ^^^ y) := by simp
      _ = (x ^^^ y) ^^^ y := by rw [BitVec.xor_assoc]
      _ = y := by rw [h]; simp
  · rintro rfl; exact BitVec.xor_self

theorem toInt_range (x : BitVec 64) : -2 ^ 63 ≤ x.toInt ∧ x.toInt < 2 ^ 63 := by
  have := x.isLt; rw [BitVec.toInt_eq_toNat_cond]; split <;> omega

theorem bmod_of_range {v : Int} (h1 : -2 ^ 63 ≤ v) (h2 : v < 2 ^ 63) : v.bmod (2 ^ 64) = v := by
  rw [Int.bmod_def]; split <;> omega

/-! ## The masks -/

/-- `bitMatch(x, y)`: the bits where `x` and `y` agree, with `~` and `&` only. -/
def bitMatch (x y : BitVec 64) : BitVec 64 := ~~~(~~~(x &&& y) &&& ~~~(~~~x &&& ~~~y))

theorem bitMatch_getLsbD (x y : BitVec 64) (i : Nat) :
    (bitMatch x y).getLsbD i = (decide (i < 64) && (x.getLsbD i == y.getLsbD i)) := by
  simp only [bitMatch, BitVec.getLsbD_not, BitVec.getLsbD_and]
  by_cases hi : i < 64 <;> simp [hi]
  cases x.getLsbD i <;> cases y.getLsbD i <;> rfl

example : bitMatch 0x7 0xE = 0xFFFFFFFFFFFFFFF6 := by decide

/-- `leastBitPos(x)`: `-x & x`, with `-x` written `~x + 1`. -/
def leastBitPos (x : BitVec 64) : BitVec 64 := (~~~x + 1) &&& x

theorem leastBitPos_getLsbD (x : BitVec 64) (i : Nat) :
    (leastBitPos x).getLsbD i = (x.getLsbD i && !decide (∃ j < i, x.getLsbD j = true)) := by
  have hneg : ~~~x + 1 = -x := (BitVec.neg_eq_not_add x).symm
  rw [leastBitPos, hneg, BitVec.getLsbD_and, BitVec.getLsbD_neg]
  by_cases hi : i < 64
  · cases x.getLsbD i <;> simp [hi]
  · simp [BitVec.getLsbD_ge x i (by omega)]

/-- `copyLSB(x)`: `(x << 63) >> 63`. -/
def copyLSB (x : BitVec 64) : BitVec 64 := (x <<< 63).sshiftRight 63

theorem copyLSB_eq (x : BitVec 64) :
    copyLSB x = if x.getLsbD 0 then BitVec.allOnes 64 else 0 := by
  rw [copyLSB, sshiftRight_63, msb_shiftLeft_63]

/-- `bitMask(highbit, lowbit)`: ones from `lowbit` up, cut above `highbit`.
    The source assumes `0 ≤ lowbit, highbit < 64`; a shift by a count outside
    `[0, 64)` is undefined in C, and the model gives `none` there. -/
def bitMask (highbit lowbit : BitVec 64) : Option (BitVec 64) :=
  if highbit.toNat < 64 ∧ lowbit.toNat < 64 then
    let all1s : BitVec 64 := ~~~0
    let h := ~~~((all1s <<< highbit.toNat) <<< 1)
    let l := all1s <<< lowbit.toNat
    some (l &&& h)
  else none

/-- Within the source's assumption the mask holds exactly the bits from
    `lowbit` to `highbit`, and so none when `lowbit > highbit`. -/
theorem bitMask_getLsbD {highbit lowbit : BitVec 64} (hh : highbit.toNat < 64) (hl : lowbit.toNat < 64) :
    ∃ m, bitMask highbit lowbit = some m ∧
      ∀ i, m.getLsbD i = decide (lowbit.toNat ≤ i ∧ i ≤ highbit.toNat) := by
  refine ⟨_, if_pos ⟨hh, hl⟩, fun i => ?_⟩
  simp only [BitVec.ofNat_eq_ofNat, BitVec.not_zero, BitVec.getLsbD_and,
    BitVec.getLsbD_not, BitVec.getLsbD_shiftLeft, BitVec.getLsbD_allOnes]
  rw [Bool.eq_iff_iff]
  simp only [Bool.and_eq_true, Bool.and_eq_false_iff, Bool.not_eq_true', Bool.not_eq_false',
    decide_eq_true_eq, decide_eq_false_iff_not]
  omega

example : bitMask 5 3 = some 0x38 := by decide

/-! ## The predicates -/

/-- `allOddBits(x)`: the odd-bit mask `0xAA…AA` is built by doubling a byte
    pair, and `x` must cover it. -/
def allOddBits (x : BitVec 64) : BitVec 64 :=
  let odds : BitVec 64 := (0xAA <<< 8) + 0xAA
  let odds := (odds <<< 16) + odds
  let odds := (odds <<< 32) + odds
  lnot ((x &&& odds) ^^^ odds)

theorem odds_eq : (let odds : BitVec 64 := (0xAA <<< 8) + 0xAA
    let odds := (odds <<< 16) + odds
    (odds <<< 32) + odds) = 0xAAAAAAAAAAAAAAAA := by decide

theorem odds_getLsbD :
    ∀ i < 64, (0xAAAAAAAAAAAAAAAA : BitVec 64).getLsbD i = decide (i % 2 = 1) := by decide

theorem and_odds_iff (x : BitVec 64) :
    x &&& 0xAAAAAAAAAAAAAAAA = 0xAAAAAAAAAAAAAAAA ↔
      ∀ i : Nat, i < 32 → x.getLsbD (2 * i + 1) = true := by
  constructor
  · intro h i hi
    have := congrArg (fun v => v.getLsbD (2 * i + 1)) h
    simp only [BitVec.getLsbD_and, odds_getLsbD _ (by omega : 2 * i + 1 < 64),
      show (2 * i + 1) % 2 = 1 by omega, decide_True, Bool.and_true] at this
    exact this
  · intro h
    apply BitVec.eq_of_getLsbD_eq; rintro ⟨j, hj⟩; dsimp only
    rw [BitVec.getLsbD_and, odds_getLsbD j hj]
    by_cases hp : j % 2 = 1
    · have := h (j / 2) (by omega)
      rw [show 2 * (j / 2) + 1 = j by omega] at this
      simp [this, hp]
    · simp [hp]

theorem allOddBits_eq (x : BitVec 64) :
    allOddBits x = if ∀ i : Nat, i < 32 → x.getLsbD (2 * i + 1) = true then 1 else 0 := by
  simp only [allOddBits, odds_eq, lnot, xor_eq_zero_iff_eq, and_odds_iff]

/-- One swap line of `isPalindrome`: `((m & half) << k) | (m & (half >> k))`
    exchanges the neighbouring `k`-bit groups that the mask `m` picks. -/
def swapStep (m : BitVec 64) (k : Nat) (half : BitVec 64) : BitVec 64 :=
  ((m &&& half) <<< k) ||| (m &&& half.sshiftRight k)

/-- The bit that a swap line of width `k` moves to position `j`. -/
def partner (k j : Nat) : Nat := if j / k % 2 = 0 then j + k else j - k

/-- `isPalindrome(x)`: the high half, reversed in five swap lines, must equal
    the low half. The masks are `int` constants widened to `long`. -/
def isPalindrome (x : BitVec 64) : BitVec 64 :=
  let firstHalfMask : BitVec 64 := ~~~((~~~0 : BitVec 64) <<< 32)
  let half := x.sshiftRight 32 &&& firstHalfMask
  let swap1 : BitVec 64 := (0x55 <<< 8) ||| 0x55
  let swap2 : BitVec 64 := (0x33 <<< 8) ||| 0x33
  let swap3 : BitVec 64 := (0x0f <<< 8) ||| 0x0f
  let swap4 : BitVec 64 := (0x00 <<< 8) ||| 0xff
  let swap5 : BitVec 64 := (0xff <<< 8) ||| 0xff
  let swap1 := (swap1 <<< 16) ||| swap1
  let swap2 := (swap2 <<< 16) ||| swap2
  let swap3 := (swap3 <<< 16) ||| swap3
  let swap4 := (swap4 <<< 16) ||| swap4
  let half := swapStep swap1 1 half
  let half := swapStep swap2 2 half
  let half := swapStep swap3 4 half
  let half := swapStep swap4 8 half
  let half := swapStep swap5 16 half
  lnot (half ^^^ (x &&& firstHalfMask))

/-- A swap line over a half word whose mask picks the low group of every
    `2k`-bit block sends bit `partner k j` to `j`. -/
theorem swapStep_getLsbD {m h : BitVec 64} {k : Nat} (hk : k = 1 ∨ k = 2 ∨ k = 4 ∨ k = 8 ∨ k = 16)
    (hm : ∀ j, m.getLsbD j = decide (j < 32 ∧ j / k % 2 = 0))
    (hh : ∀ j, 32 ≤ j → h.getLsbD j = false) (j : Nat) :
    (swapStep m k h).getLsbD j = (decide (j < 32) && h.getLsbD (partner k j)) := by
  have hmsb : h.msb = false := by rw [BitVec.msb_eq_getLsbD_last]; exact hh _ (by omega)
  simp only [swapStep, partner, BitVec.getLsbD_or, BitVec.getLsbD_shiftLeft, BitVec.getLsbD_and,
    BitVec.getLsbD_sshiftRight, hm, hmsb]
  by_cases hj : j < 32
  · by_cases he : j / k % 2 = 0
    · have h1 : ¬ ((j - k) < 32 ∧ (j - k) / k % 2 = 0) ∨ j < k := by
        rcases hk with rfl|rfl|rfl|rfl|rfl <;> omega
      rw [if_pos he, if_pos (by omega : k + j < 64), Nat.add_comm k j]
      rcases h1 with h1 | h1 <;> simp [hj, he, h1] <;> omega
    · have h1 : (j - k) < 32 ∧ (j - k) / k % 2 = 0 ∧ k ≤ j := by
        rcases hk with rfl|rfl|rfl|rfl|rfl <;> omega
      rw [if_neg he]
      simp [hj, he, h1, show ¬ j < k by omega, show j < 64 by omega]
  · have h1 : ¬ ((j - k) < 32 ∧ (j - k) / k % 2 = 0) ∨ j < k ∨ 32 ≤ j - k := by
      rcases hk with rfl|rfl|rfl|rfl|rfl <;> omega
    rcases h1 with h1 | h1 | h1 <;> simp [hj, h1]

/-- The five lines, widest first, reverse the 32 bits of the half. -/
theorem partner_reverse : ∀ j < 32,
    partner 1 (partner 2 (partner 4 (partner 8 (partner 16 j)))) = 31 - j ∧
    partner 16 j < 32 ∧ partner 8 (partner 16 j) < 32 ∧ partner 4 (partner 8 (partner 16 j)) < 32 ∧
    partner 2 (partner 4 (partner 8 (partner 16 j))) < 32 := by decide

theorem mask_getLsbD {m : BitVec 64} {k : Nat}
    (h : ∀ j < 64, m.getLsbD j = decide (j < 32 ∧ j / k % 2 = 0)) (j : Nat) :
    m.getLsbD j = decide (j < 32 ∧ j / k % 2 = 0) := by
  by_cases hj : j < 64
  · exact h j hj
  · rw [BitVec.getLsbD_ge m j (by omega)]; exact (decide_eq_false (by omega)).symm

theorem firstHalfMask_getLsbD (j : Nat) :
    (~~~((~~~0 : BitVec 64) <<< 32)).getLsbD j = decide (j < 32) := by
  simp only [BitVec.ofNat_eq_ofNat, BitVec.not_zero, BitVec.getLsbD_not, BitVec.getLsbD_shiftLeft,
    BitVec.getLsbD_allOnes]
  rw [Bool.eq_iff_iff]
  simp only [Bool.and_eq_true, Bool.not_eq_true', Bool.and_eq_false_iff, Bool.not_eq_false',
    decide_eq_true_eq, decide_eq_false_iff_not]
  omega

theorem half_getLsbD (x : BitVec 64) (j : Nat) :
    (x.sshiftRight 32 &&& ~~~((~~~0 : BitVec 64) <<< 32)).getLsbD j =
      (decide (j < 32) && x.getLsbD (j + 32)) := by
  rw [BitVec.getLsbD_and, firstHalfMask_getLsbD, BitVec.getLsbD_sshiftRight]
  by_cases hj : j < 32
  · rw [if_pos (by omega), Nat.add_comm]; simp [hj, show j < 64 by omega]
  · simp [hj]

theorem getLsbD_of_low {h : BitVec 64} {f : Nat → Bool}
    (hb : ∀ j, h.getLsbD j = (decide (j < 32) && f j)) : ∀ j, 32 ≤ j → h.getLsbD j = false :=
  fun j hj => by rw [hb]; simp only [Bool.and_eq_false_iff, decide_eq_false_iff_not]; exact .inl (by omega)

theorem isPalindrome_eq (x : BitVec 64) :
    isPalindrome x = if ∀ i : Nat, i < 64 → x.getLsbD i = x.getLsbD (63 - i) then 1 else 0 := by
  have m1 := mask_getLsbD (m := (((0x55 <<< 8 : Nat) : BitVec 64) ||| 0x55) <<< 16 |||
    (((0x55 <<< 8 : Nat) : BitVec 64) ||| 0x55)) (k := 1) (by decide)
  have m2 := mask_getLsbD (m := (((0x33 <<< 8 : Nat) : BitVec 64) ||| 0x33) <<< 16 |||
    (((0x33 <<< 8 : Nat) : BitVec 64) ||| 0x33)) (k := 2) (by decide)
  have m3 := mask_getLsbD (m := (((0x0f <<< 8 : Nat) : BitVec 64) ||| 0x0f) <<< 16 |||
    (((0x0f <<< 8 : Nat) : BitVec 64) ||| 0x0f)) (k := 4) (by decide)
  have m4 := mask_getLsbD (m := (((0x00 <<< 8 : Nat) : BitVec 64) ||| 0xff) <<< 16 |||
    (((0x00 <<< 8 : Nat) : BitVec 64) ||| 0xff)) (k := 8) (by decide)
  have m5 := mask_getLsbD (m := ((0xff <<< 8 : Nat) : BitVec 64) ||| 0xff) (k := 16) (by decide)
  have e0 := half_getLsbD x
  have e1 := swapStep_getLsbD (by decide) m1 (getLsbD_of_low e0)
  have e2 := swapStep_getLsbD (by decide) m2 (getLsbD_of_low e1)
  have e3 := swapStep_getLsbD (by decide) m3 (getLsbD_of_low e2)
  have e4 := swapStep_getLsbD (by decide) m4 (getLsbD_of_low e3)
  have e5 := swapStep_getLsbD (by decide) m5 (getLsbD_of_low e4)
  -- the reversed half holds bit `63 - j` of `x` at every `j < 32`
  have rev : ∀ j, j < 32 → (decide (partner 16 j < 32) &&
      (decide (partner 8 (partner 16 j) < 32) && (decide (partner 4 (partner 8 (partner 16 j)) < 32) &&
      (decide (partner 2 (partner 4 (partner 8 (partner 16 j))) < 32) &&
      (decide (partner 1 (partner 2 (partner 4 (partner 8 (partner 16 j)))) < 32) &&
      x.getLsbD (partner 1 (partner 2 (partner 4 (partner 8 (partner 16 j)))) + 32)))))) =
        x.getLsbD (63 - j) := by
    intro j hj
    obtain ⟨hr, h1, h2, h3, h4⟩ := partner_reverse j hj
    rw [hr, show 31 - j + 32 = 63 - j by omega]
    simp [hj, h1, h2, h3, h4, show 31 - j < 32 by omega]
  simp only [isPalindrome, lnot, xor_eq_zero_iff_eq]
  congr 1
  apply propext
  constructor
  · intro h i hi
    by_cases hi32 : i < 32
    · have := congrArg (fun v => v.getLsbD i) h
      simp only [e5, e4, e3, e2, e1, e0, rev i hi32, Bool.true_and, BitVec.getLsbD_and,
        firstHalfMask_getLsbD, hi32, decide_True, Bool.and_true] at this
      exact this.symm
    · have := congrArg (fun v => v.getLsbD (63 - i)) h
      simp only [e5, e4, e3, e2, e1, e0, rev (63 - i) (by omega), Bool.true_and, BitVec.getLsbD_and,
        firstHalfMask_getLsbD, show 63 - i < 32 by omega, decide_True, Bool.and_true,
        show 63 - (63 - i) = i by omega] at this
      exact this
  · intro hp
    apply BitVec.eq_of_getLsbD_eq; rintro ⟨j, hj⟩; dsimp only
    rw [e5, e4, e3, e2, e1, e0, BitVec.getLsbD_and, firstHalfMask_getLsbD]
    by_cases hj32 : j < 32
    · rw [rev j hj32, hp j hj]; simp [hj32]
    · simp [hj32]

example : isPalindrome 0x6F0F0123c480F0F6 = 1 := by decide

/-! ## Choice and comparison -/

/-- `conditional(x, y, z)`: `!x`, moved to the sign bit and spread, selects
    `z`; its complement selects `y`. -/
def conditional (x y z : BitVec 64) : BitVec 64 :=
  let conditionMask := (lnot x <<< 63).sshiftRight 63
  (~~~conditionMask &&& y) ||| (conditionMask &&& z)

theorem conditional_eq (x y z : BitVec 64) : conditional x y z = if x ≠ 0 then y else z := by
  have hm : (lnot x <<< 63).sshiftRight 63 = if x = 0 then BitVec.allOnes 64 else 0 := by
    rw [sshiftRight_63, msb_shiftLeft_63]; unfold lnot; split <;> simp_all
  simp only [conditional, hm]
  by_cases hx : x = 0
  · rw [if_pos hx, if_neg (fun h => h hx)]
    simp only [BitVec.not_allOnes, BitVec.zero_and, BitVec.allOnes_and, BitVec.zero_or]
  · rw [if_neg hx, if_pos hx]
    simp only [BitVec.ofNat_eq_ofNat, BitVec.not_zero, BitVec.allOnes_and, BitVec.zero_and,
      BitVec.or_zero]

/-- `isLess(x, y)`: the sign of `x - y` where the signs agree, and `x < 0 ≤ y`
    where they differ. -/
def isLess (x y : BitVec 64) : BitVec 64 :=
  let difference := x + (~~~y + 1)
  let sameSign := (x &&& y) ||| (~~~x &&& ~~~y)
  ((sameSign &&& difference) ||| (x &&& ~~~y)).sshiftRight 63 &&& 1

/-- The sign test of `isLess` decides the signed order: with equal signs
    `x - y` cannot overflow. -/
theorem msb_sub_lt (x y : BitVec 64) :
    ((x.msb && y.msb || !x.msb && !y.msb) && (x - y).msb || x.msb && !y.msb) =
      decide (x.toInt < y.toInt) := by
  simp only [BitVec.msb_eq_decide, BitVec.toNat_sub, BitVec.toInt_eq_toNat_cond]
  have := x.isLt; have := y.isLt
  rw [Bool.eq_iff_iff]
  simp only [Bool.or_eq_true, Bool.and_eq_true, Bool.not_eq_true', decide_eq_true_eq,
    decide_eq_false_iff_not]
  split <;> split <;> omega

theorem isLess_eq (x y : BitVec 64) : isLess x y = if x.toInt < y.toInt then 1 else 0 := by
  have hd : x + (~~~y + 1) = x - y := by rw [BitVec.sub_toAdd, BitVec.neg_eq_not_add]; rfl
  simp only [isLess, hd, sshiftRight_63_and_one, BitVec.msb_or, BitVec.msb_and, BitVec.msb_not,
    show (0 : Nat) < 64 by decide, decide_True, Bool.true_and, msb_sub_lt, decide_eq_true_eq]

/-! ## Three fourths -/

/-- `trueThreeFourths(x)`: three times `x >> 2`, plus three fourths of the
    low two bits, rounded toward zero on the side of the sign. -/
def trueThreeFourths (x : BitVec 64) : BitVec 64 :=
  let remainder := x &&& 3
  let totalRemainder := remainder + remainder + remainder
  let missingPositive := totalRemainder.sshiftRight 2
  let missingNegative := ~~~((~~~totalRemainder + 1).sshiftRight 2) + 1
  let sign := x.sshiftRight 63
  let n := x.sshiftRight 2
  n + n + n + (~~~sign &&& missingPositive) + (sign &&& missingNegative)

theorem toInt_sshiftRight_2 (x : BitVec 64) : (x.sshiftRight 2).toInt = x.toInt / 4 := by
  have := toInt_range x
  rw [BitVec.sshiftRight_eq, BitVec.toInt_ofInt, Int.shiftRight_eq_div_pow]
  exact bmod_of_range (by omega) (by omega)

theorem toInt_and_three (x : BitVec 64) : ((x &&& 3).toNat : Int) = x.toInt % 4 := by
  have h3 : (x &&& 3).toNat = x.toNat % 4 := by
    rw [BitVec.toNat_and, show (3 : BitVec 64).toNat = 2 ^ 2 - 1 from rfl,
      Nat.and_pow_two_sub_one_eq_mod]
  have := x.isLt
  rw [h3, BitVec.toInt_eq_toNat_cond]; split <;> omega

/-- The correction term for each of the four remainders and both signs. -/
theorem correction_toInt (r : Nat) (hr : r < 4) (neg : Bool) :
    let t : BitVec 64 := BitVec.ofNat 64 r + BitVec.ofNat 64 r + BitVec.ofNat 64 r
    let sign : BitVec 64 := if neg then BitVec.allOnes 64 else 0
    ((~~~sign &&& t.sshiftRight 2) + (sign &&& (~~~((~~~t + 1).sshiftRight 2) + 1))).toInt =
      if neg then -((-(3 * (r : Int))) / 4) else 3 * (r : Int) / 4 := by
  have : r = 0 ∨ r = 1 ∨ r = 2 ∨ r = 3 := by omega
  rcases this with rfl | rfl | rfl | rfl <;> cases neg <;> decide

theorem trueThreeFourths_toInt (x : BitVec 64) :
    (trueThreeFourths x).toInt = (3 * x.toInt).tdiv 4 := by
  have ha := toInt_range x
  have hr := toInt_and_three x
  have hlt : (x &&& 3).toNat < 4 := by
    have := Int.emod_lt_of_pos x.toInt (by decide : (0 : Int) < 4); omega
  have hs : x.sshiftRight 63 = if decide (x.toInt < 0) then BitVec.allOnes 64 else 0 := by
    rw [sshiftRight_63, BitVec.msb_eq_toInt]
  have hofn : BitVec.ofNat 64 (x &&& 3).toNat = x &&& 3 :=
    BitVec.eq_of_toNat_eq (by rw [BitVec.toNat_ofNat]; exact Nat.mod_eq_of_lt (by omega))
  have hc := correction_toInt _ hlt (decide (x.toInt < 0))
  simp only [hofn] at hc
  have hn := toInt_sshiftRight_2 x
  simp only [trueThreeFourths, hs]
  rw [BitVec.add_assoc (x.sshiftRight 2 + x.sshiftRight 2 + x.sshiftRight 2), BitVec.toInt_add, hc,
    BitVec.toInt_add, BitVec.toInt_add, hn,
    bmod_of_range (v := x.toInt / 4 + x.toInt / 4) (by omega) (by omega),
    bmod_of_range (v := x.toInt / 4 + x.toInt / 4 + x.toInt / 4) (by omega) (by omega)]
  split <;> rename_i hneg
  · simp only [decide_eq_true_eq] at hneg
    rw [bmod_of_range (by omega) (by omega), show 3 * x.toInt = -(-(3 * x.toInt)) by omega,
      Int.neg_tdiv, Int.tdiv_eq_ediv (by omega) (by omega)]
    omega
  · simp only [decide_eq_true_eq] at hneg
    rw [bmod_of_range (by omega) (by omega), Int.tdiv_eq_ediv (by omega) (by omega)]
    omega

example : trueThreeFourths 4611686018427387904 = 3458764513820540928 := by decide

end DatalabInt
