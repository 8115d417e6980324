import SystemsLabs.DatalabFloatFormat

/-! # The float puzzles of `bits.c`

    Each puzzle works on the bit pattern with integer operations only, and
    each computes the IEEE operation on the value of its argument, for every
    word (`decode` of `DatalabFloatFormat`):

    * **`floatNegate_decode`** — the value negated, NaN returned as it is;
    * **`floatIsEqual_eq`**, **`floatIsLess_eq`** — the IEEE comparisons,
      false on NaN and with `+0 = -0`;
    * **`floatScale2_decode`** — the value doubled: subnormals shift into the
      normal range, the top exponent overflows to infinity;
    * **`floatUnsigned2Float_decode`** — an `unsigned` converted with rounding
      to nearest even; the loop finds the leading one (`topBit_eq_log2`), and
      the guard, round and sticky bits decide the tie (`decode_unsigned_large`). -/

namespace DatalabFloat

/-- `floatNegate(uf)`: NaN is returned as it is; any other word has its sign
    bit flipped by `uf ^ (1L << 31)`, computed in `long` and narrowed back. -/
def floatNegate (uf : BitVec 32) : BitVec 32 :=
  let expMask : BitVec 32 := 0x7f800000
  if (uf &&& expMask) = expMask ∧ (uf &&& 0x007fffff) ≠ 0 then uf
  else (uf.setWidth 64 ^^^ (1 : BitVec 64) <<< 31).setWidth 32

/-- Xor with `2^n` below `2^(n+1)` is adding `2^n` and wrapping. -/
theorem xor_two_pow {a n : Nat} (h : a < 2 ^ (n + 1)) : a ^^^ 2 ^ n = (a + 2 ^ n) % 2 ^ (n + 1) := by
  apply Nat.eq_of_testBit_eq; intro i
  rw [Nat.testBit_xor, Nat.testBit_mod_two_pow, Nat.testBit_two_pow, Nat.add_comm a]
  rcases Nat.lt_trichotomy i n with hi | rfl | hi
  · rw [Nat.testBit_two_pow_add_gt hi]; simp [show i < n + 1 by omega, show n ≠ i by omega]
  · rw [Nat.testBit_two_pow_add_eq]; simp
  · rw [Nat.testBit_lt_two_pow (Nat.lt_of_lt_of_le h (Nat.pow_le_pow_right (by decide) hi))]
    simp [show ¬ i < n + 1 by omega, show n ≠ i by omega]

theorem toNat_xor_signBit (u : BitVec 32) : (u ^^^ 0x80000000).toNat = (u.toNat + 2 ^ 31) % 2 ^ 32 := by
  rw [BitVec.toNat_xor]; exact xor_two_pow u.isLt

/-- The `long` xor, narrowed back, flips the sign bit of the word. -/
theorem long_xor_signBit (uf : BitVec 32) :
    (uf.setWidth 64 ^^^ (1 : BitVec 64) <<< 31).setWidth 32 = uf ^^^ 0x80000000 := by
  apply BitVec.eq_of_getLsbD_eq; intro i
  have hc : ∀ i : Fin 32, ((1 : BitVec 64) <<< 31).getLsbD i = (0x80000000 : BitVec 32).getLsbD i := by
    decide
  simp only [BitVec.getLsbD_setWidth, BitVec.getLsbD_xor, hc, i.isLt, show (i : Nat) < 64 by omega,
    decide_True, Bool.true_and]

/-- Flipping the sign bit keeps the exponent and fraction. -/
theorem fields_xor_signBit (u : BitVec 32) :
    sign (u ^^^ 0x80000000) = !sign u ∧ bexp (u ^^^ 0x80000000) = bexp u ∧ frac (u ^^^ 0x80000000) = frac u := by
  have ht := toNat_xor_signBit u
  have hu := u.isLt
  refine ⟨?_, by simp only [bexp, ht]; omega, by simp only [frac, ht]; omega⟩
  simp only [sign_eq, ht]
  rw [Bool.eq_iff_iff]; simp only [decide_eq_true_eq, Bool.not_eq_true', decide_eq_false_iff_not]; omega

/-- Flipping the sign bit negates the value. -/
theorem decode_xor_signBit (u : BitVec 32) : decode (u ^^^ 0x80000000) = (decode u).neg := by
  obtain ⟨hs, he, hf⟩ := fields_xor_signBit u
  unfold decode; rw [hs, he, hf]; split <;> [split; skip] <;> rfl

theorem floatNegate_decode (uf : BitVec 32) :
    decode (floatNegate uf) = (decode uf).neg ∧ (decode uf = .nan → floatNegate uf = uf) := by
  simp only [floatNegate, and_expMask_eq_iff, and_fracMask_ne_iff, ← decode_eq_nan_iff]
  split
  · rename_i h; rw [h]; exact ⟨rfl, fun _ => rfl⟩
  · rename_i h; rw [long_xor_signBit, decode_xor_signBit]; exact ⟨rfl, fun h' => absurd h' h⟩

/-- `floatIsEqual(uf, ug)`: 0 on NaN, 1 for two zeros of any sign, else the
    bit patterns compared; the `int` result is 0 or 1. -/
def floatIsEqual (uf ug : BitVec 32) : Bool :=
  let expMask : BitVec 32 := 0x7f800000
  let ufNaN := (uf &&& expMask) = expMask ∧ (uf &&& 0x007fffff) ≠ 0
  let ugNaN := (ug &&& expMask) = expMask ∧ (ug &&& 0x007fffff) ≠ 0
  let removeSign : BitVec 32 := ~~~((1 : BitVec 32) <<< 31)
  if ufNaN ∨ ugNaN then false
  else if (uf &&& removeSign) = 0 ∧ (ug &&& removeSign) = 0 then true
  else decide (uf = ug)

/-- `floatIsLess(uf, ug)`: 0 on NaN, on two zeros and on equal words; else
    the magnitude bits compared as unsigned integers, the other way round for
    two negative words, and by the sign bits when the signs differ. -/
def floatIsLess (uf ug : BitVec 32) : Bool :=
  let expMask : BitVec 32 := 0x7f800000
  let ufNaN := (uf &&& expMask) = expMask ∧ (uf &&& 0x007fffff) ≠ 0
  let ugNaN := (ug &&& expMask) = expMask ∧ (ug &&& 0x007fffff) ≠ 0
  let ufSign : BitVec 32 := (uf >>> 31) &&& 1
  let ugSign : BitVec 32 := (ug >>> 31) &&& 1
  let comparison := BitVec.ult (uf &&& 0x7fffffff) (ug &&& 0x7fffffff)
  if ufNaN ∨ ugNaN then false
  else if (uf &&& 0x7fffffff) = 0 ∧ (ug &&& 0x7fffffff) = 0 then false
  else if uf = ug then false
  else if (ufSign ||| ugSign) = 0 then comparison
  else if (ufSign &&& ugSign) ≠ 0 then !comparison
  else BitVec.slt ugSign ufSign

/-- `(u >> 31) & 1` is the sign as 0 or 1. -/
theorem signBit_eq (u : BitVec 32) : (u >>> 31) &&& 1 = if sign u then 1 else 0 := by
  have := u.isLt
  rw [sign_eq, BitVec.toNat_eq, BitVec.toNat_and, BitVec.toNat_ushiftRight, Nat.shiftRight_eq_div_pow,
    show (1 : BitVec 32).toNat = 1 from rfl, Nat.and_one_is_mod]
  split <;> rename_i h <;> simp only [decide_eq_true_eq] at h <;> simp <;> omega

/-- The unsigned comparison of the magnitude bits compares the codes. -/
theorem ult_absMask (u v : BitVec 32) :
    BitVec.ult (u &&& 0x7fffffff) (v &&& 0x7fffffff) = decide (code u < code v) := by
  rw [BitVec.ult, toNat_and_absMask, toNat_and_absMask]

theorem floatIsEqual_eq (uf ug : BitVec 32) : floatIsEqual uf ug = (decode uf).eq (decode ug) := by
  simp only [floatIsEqual, and_expMask_eq_iff, and_fracMask_ne_iff, ← decode_eq_nan_iff,
    show ~~~((1 : BitVec 32) <<< 31) = 0x7fffffff by decide, and_absMask_eq_zero_iff]
  split
  · rename_i h; rcases h with h | h <;> rw [h] <;> cases decode _ <;> rfl
  · rename_i h; rw [not_or] at h
    rw [eq_decode h.1 h.2]; simp only [eq_iff_sign_code uf ug]
    rw [Bool.eq_iff_iff]
    cases sign uf <;> cases sign ug <;> simp [signed] <;> omega

theorem floatIsLess_eq (uf ug : BitVec 32) : floatIsLess uf ug = (decode uf).lt (decode ug) := by
  simp only [floatIsLess, and_expMask_eq_iff, and_fracMask_ne_iff, ← decode_eq_nan_iff,
    and_absMask_eq_zero_iff, ult_absMask, signBit_eq, eq_iff_sign_code uf ug]
  split
  · rename_i h; rcases h with h | h <;> rw [h] <;> cases decode _ <;> rfl
  · rename_i h; rw [not_or] at h
    rw [lt_decode h.1 h.2]
    rw [Bool.eq_iff_iff]
    cases sign uf <;> cases sign ug <;> simp [signed] <;> omega

/-- `floatScale2(uf)`: NaN, infinities and zeros come back as they are; a
    subnormal has its fraction shifted left, the carry moving into the
    exponent; a normal word gets one more in the exponent, and infinity with
    its sign when that fills the field. The `int` locals wrap as 32-bit words. -/
def floatScale2 (uf : BitVec 32) : BitVec 32 :=
  let expMask : BitVec 32 := 0x7f800000
  let ufNaNorInf := (uf &&& expMask) = expMask
  let carry : BitVec 32 := (0x00400000 : BitVec 32) &&& uf
  let new : BitVec 32 := ((uf <<< 1) &&& (0x007fffff : BitVec 32)) ||| (uf &&& (0xff800000 : BitVec 32))
  if ufNaNorInf then uf
  else if (uf &&& 0x7fffffff) = 0 then uf
  else if (uf &&& expMask) = 0 then new + (carry <<< 1)
  else
    let new := uf + 0x00800000
    if (new &&& expMask) = expMask then new &&& 0xff800000 else new

/-- A subnormal word: the fraction doubles, and the bit shifted out of it
    is carried into the exponent. -/
theorem decode_scale2_subnormal {uf : BitVec 32} (hd : bexp uf = 0) :
    decode ((((uf <<< 1) &&& (0x007fffff : BitVec 32)) ||| (uf &&& (0xff800000 : BitVec 32))) +
      ((0x00400000 : BitVec 32) &&& uf) <<< 1) = roundNearestEven (sign uf) (2 * magOf (bexp uf) (frac uf)) := by
  have hu := toNat_fields uf
  have hf := frac_lt uf
  have hA : ((uf <<< 1) &&& 0x007fffff).toNat < 2 ^ 23 := by rw [toNat_and_fracMask]; exact frac_lt _
  have hB : (uf &&& 0xff800000).toNat = 2 ^ 23 * (uf.toNat / 2 ^ 23 % 2 ^ 9) :=
    toNat_and_mask uf (j := 23) (n := 9) (by decide)
  have hC : (0x00400000 &&& uf).toNat = 2 ^ 22 * (uf.toNat / 2 ^ 22 % 2 ^ 1) := by
    rw [BitVec.and_comm]; exact toNat_and_mask uf (j := 22) (n := 1) (by decide)
  have hr : (((uf <<< 1) &&& (0x007fffff : BitVec 32) ||| uf &&& (0xff800000 : BitVec 32)) +
      ((0x00400000 : BitVec 32) &&& uf) <<< 1).toNat =
      (if sign uf then 2 ^ 31 else 0) + 2 ^ 23 * (2 * frac uf / 2 ^ 23) + 2 * frac uf % 2 ^ 23 := by
    rw [BitVec.toNat_add, toNat_or_of_lt hA hB, toNat_and_fracMask, BitVec.toNat_shiftLeft, hC]
    simp only [frac, BitVec.toNat_shiftLeft, Nat.shiftLeft_eq]
    unfold frac at hu hf; rw [hd] at hu
    cases hs : sign uf <;> simp only [hs, if_true, if_false, Bool.false_eq_true] at hu ⊢ <;> omega
  rw [decode_of_toNat (by omega) (Nat.mod_lt _ (by decide)) hr, hd]
  simp only [magOf, if_true, Nat.pow_zero, Nat.mul_one, Nat.zero_sub,
    show 2 * frac uf / 2 ^ 23 - 1 = 0 by omega]
  rw [roundNearestEven_small _ (by omega)]
  congr 1; split <;> omega

/-- A normal word: one more in the exponent, or infinity of its sign when the
    exponent field fills. -/
theorem decode_scale2_normal {uf : BitVec 32} (hd : bexp uf ≠ 0) (h255 : bexp uf ≠ 255) :
    decode (if bexp (uf + 0x00800000) = 255 then uf + 0x00800000 &&& 0xff800000 else uf + 0x00800000) =
      roundNearestEven (sign uf) (2 * magOf (bexp uf) (frac uf)) := by
  have hu := toNat_fields uf
  have hb := bexp_lt uf
  have hf := frac_lt uf
  have hn : (uf + 0x00800000).toNat = (if sign uf then 2 ^ 31 else 0) + 2 ^ 23 * (bexp uf + 1) + frac uf := by
    rw [BitVec.toNat_add, show (0x00800000 : BitVec 32).toNat = 2 ^ 23 from rfl]
    cases hs : sign uf <;> simp only [hs, if_true, if_false, Bool.false_eq_true] at hu ⊢ <;> omega
  obtain ⟨-, he', -⟩ := fields_of_toNat (by omega) (frac_lt uf) hn
  have hmag : 2 * magOf (bexp uf) (frac uf) = (2 ^ 23 + frac uf) * 2 ^ bexp uf := by
    obtain ⟨k, hk⟩ : ∃ k, bexp uf = k + 1 := ⟨bexp uf - 1, by omega⟩
    simp only [magOf, hk, Nat.add_one_ne_zero, if_false, Nat.add_sub_cancel, Nat.pow_succ]
    rw [Nat.mul_comm 2, Nat.mul_assoc]
  rw [he']
  split
  · -- the exponent overflows: infinity of the same sign
    rename_i hover
    have h254 : bexp uf = 254 := by omega
    have hm : (uf + 0x00800000 &&& 0xff800000).toNat = (if sign uf then 2 ^ 31 else 0) + 2 ^ 23 * 255 := by
      have hm0 : (uf + 0x00800000 &&& (0xff800000 : BitVec 32)).toNat =
          2 ^ 23 * ((uf + 0x00800000).toNat / 2 ^ 23 % 2 ^ 9) := toNat_and_mask _ (j := 23) (n := 9) (by decide)
      rw [hm0, hn]
      split <;> omega
    rw [decode_inf_of_toNat hm, hmag, h254, roundNearestEven_overflow _ (k := 254) (le_refl _)]
    exact Nat.mul_le_mul_right _ (by omega)
  · rw [decode_of_toNat (by omega) (frac_lt uf) hn, hmag, roundNearestEven_exact _ (by omega) (.inl (by omega))]
    · simp only [magOf, Nat.add_one_ne_zero, if_false, Nat.add_sub_cancel]
    · unfold maxFinite
      exact Nat.mul_le_mul (by omega) (Nat.pow_le_pow_right (by decide) (by omega))

theorem floatScale2_decode (uf : BitVec 32) :
    decode (floatScale2 uf) = (decode uf).scale2 ∧ (decode uf = .nan → floatScale2 uf = uf) := by
  simp only [floatScale2, and_expMask_eq_iff, and_absMask_eq_zero_iff, and_expMask_eq_zero_iff]
  split
  · rename_i h; refine ⟨?_, fun _ => rfl⟩; unfold decode; rw [if_pos h]; split <;> rfl
  · rename_i h255
    have hfin : decode uf = .fin (sign uf) (magOf (bexp uf) (frac uf)) := by unfold decode; rw [if_neg h255]
    rw [hfin]; refine ⟨?_, fun h => nomatch h⟩
    simp only [Value.scale2]
    split
    · rename_i h0
      have hz : magOf (bexp uf) (frac uf) = 0 := (magOf_eq_zero_iff uf).mpr h0
      rw [hz, hfin, hz]; exact (roundNearestEven_small _ (by decide)).symm
    · split
      · exact decode_scale2_subnormal ‹_›
      · exact decode_scale2_normal ‹_› h255

/-- The loop `while (!(u >> i)) i--;` entered at `i`: the highest set bit at
    or below `i` (the source only runs it on `u ≠ 0`, which stops it by `i = 0`). -/
def topBit (u : BitVec 32) : Nat → Nat
  | 0 => 0
  | i + 1 => if u >>> (i + 1) = 0 then topBit u i else i + 1

theorem ushiftRight_eq_zero_iff (u : BitVec 32) (n : Nat) : u >>> n = 0 ↔ u.toNat < 2 ^ n := by
  rw [BitVec.toNat_eq, BitVec.toNat_ushiftRight, Nat.shiftRight_eq_div_pow]
  exact Nat.div_eq_zero_iff (Nat.two_pow_pos n)

/-- The loop stops at the highest set bit. -/
theorem topBit_eq_log2 {u : BitVec 32} (hu : u ≠ 0) : ∀ i, u.toNat < 2 ^ (i + 1) → topBit u i = u.toNat.log2 := by
  have h0 : u.toNat ≠ 0 := fun h => hu (BitVec.eq_of_toNat_eq h)
  intro i
  induction i with
  | zero => intro h; exact (log2_eq (k := 0) (by omega) (by omega)).symm
  | succ i ih =>
    intro h
    simp only [topBit]
    split
    · rename_i hz; exact ih ((ushiftRight_eq_zero_iff u _).mp hz)
    · rename_i hz; rw [ushiftRight_eq_zero_iff, Nat.not_lt] at hz
      exact (log2_eq hz h).symm


/-- `floatUnsigned2Float(u)`: the exponent is `127 + i` for the highest set
    bit `i`; below `i = 23` the bits are shifted up exactly, otherwise the
    fraction is `u >> (i - 23)`, rounded up by the guard, round and sticky
    bits of `u << (31 - i)`, a carry out of the fraction moving into the
    exponent. -/
def floatUnsigned2Float (u : BitVec 32) : BitVec 32 :=
  if u = 0 then u
  else
    let i := topBit u 31
    let exp : BitVec 32 := BitVec.ofNat 32 (127 + i) <<< 23
    let uShifted := u <<< (31 - i)
    if i < 23 then exp ||| ((0x007fffff : BitVec 32) &&& (u <<< (23 - i)))
    else
      let guard := (uShifted <<< 23) &&& (0x80000000 : BitVec 32)
      let round := (uShifted <<< 24) &&& (0x80000000 : BitVec 32)
      let sticky := uShifted <<< 25
      let fraction := (0x007fffff : BitVec 32) &&& (u >>> (i - 23))
      if (guard ≠ 0 ∧ round ≠ 0) ∨ (round ≠ 0 ∧ sticky ≠ 0) then
        let fraction := fraction + 1
        let exp := if (fraction &&& (0x00800000 : BitVec 32)) ≠ 0 then exp + 0x00800000 else exp
        exp ||| (fraction &&& (0x007fffff : BitVec 32))
      else exp ||| (fraction &&& (0x007fffff : BitVec 32))

/-- Rounding `u · 2^149` when the leading one of `u` is bit `k + 23`: the last
    kept bit is worth `2^(k+149)` and the dropped bits are `u % 2^k`. -/
theorem roundNearestEven_unsigned {u k : Nat} (h1 : 2 ^ (k + 23) ≤ u) (h2 : u < 2 ^ (k + 24)) (hk : k ≤ 8) :
    roundNearestEven false (u * 2 ^ 149) =
      .fin false ((if 2 ^ k < 2 * (u % 2 ^ k) ∨ 2 * (u % 2 ^ k) = 2 ^ k ∧ u / 2 ^ k % 2 = 1
        then u / 2 ^ k + 1 else u / 2 ^ k) * 2 ^ (k + 149)) := by
  have hl : (u * 2 ^ 149).log2 = k + 23 + 149 := by
    apply log2_eq
    · rw [Nat.pow_add]; exact Nat.mul_le_mul_right _ h1
    · rw [show k + 23 + 149 + 1 = k + 24 + 149 by omega, Nat.pow_add]
      exact Nat.mul_lt_mul_of_pos_right h2 (Nat.two_pow_pos _)
  have hq : u * 2 ^ 149 / 2 ^ (k + 149) = u / 2 ^ k := by
    rw [Nat.pow_add]; exact Nat.mul_div_mul_right _ _ (Nat.two_pow_pos _)
  have hr : u * 2 ^ 149 % 2 ^ (k + 149) = u % 2 ^ k * 2 ^ 149 := by
    rw [Nat.pow_add]; exact Nat.mul_mod_mul_right _ _ _
  have hlt : 2 ^ (k + 149) < 2 * (u % 2 ^ k * 2 ^ 149) ↔ 2 ^ k < 2 * (u % 2 ^ k) := by
    rw [Nat.pow_add, ← Nat.mul_assoc]; exact Nat.mul_lt_mul_right (Nat.two_pow_pos _)
  have heq : 2 * (u % 2 ^ k * 2 ^ 149) = 2 ^ (k + 149) ↔ 2 * (u % 2 ^ k) = 2 ^ k := by
    rw [Nat.pow_add, ← Nat.mul_assoc]; exact Nat.mul_right_cancel_iff (Nat.two_pow_pos _)
  have hq24 : u / 2 ^ k < 2 ^ 24 := by
    rw [Nat.div_lt_iff_lt_mul (Nat.two_pow_pos _), ← Nat.pow_add, Nat.add_comm]; exact h2
  simp only [roundNearestEven, show (u * 2 ^ 149).log2 - 23 = k + 149 by omega, hq, hr, hlt, heq]
  rw [if_pos]
  calc _ ≤ 2 ^ 24 * 2 ^ (k + 149) := Nat.mul_le_mul_right _ (by split <;> omega)
    _ ≤ 2 ^ 24 * 2 ^ 252 := Nat.mul_le_mul_left _ (Nat.pow_le_pow_right (by decide) (by omega))
    _ ≤ maxFinite := by unfold maxFinite; rw [Nat.pow_succ 2 252]; omega


theorem toNat_exp {i : Nat} (hi : i < 32) : (BitVec.ofNat 32 (127 + i) <<< 23).toNat = 2 ^ 23 * (127 + i) := by
  simp only [BitVec.toNat_shiftLeft, BitVec.toNat_ofNat, Nat.shiftLeft_eq]; omega

theorem log2_bounds {a : Nat} (h : a ≠ 0) : 2 ^ a.log2 ≤ a ∧ a < 2 ^ (a.log2 + 1) :=
  ⟨Nat.log2_self_le h, Nat.lt_log2_self⟩

/-- Below 2^24 the conversion is exact. -/
theorem decode_unsigned_small {u : BitVec 32} (hu : u ≠ 0) (hl : u.toNat.log2 < 23) :
    decode (floatUnsigned2Float u) = roundNearestEven false (u.toNat * 2 ^ 149) := by
  have h0 : u.toNat ≠ 0 := fun h => hu (BitVec.eq_of_toNat_eq h)
  obtain ⟨b1, b2⟩ := log2_bounds h0
  have hp : 2 ^ u.toNat.log2 * 2 ^ (23 - u.toNat.log2) = 2 ^ 23 := by rw [← Nat.pow_add]; congr 1; omega
  have hW1 : 2 ^ 23 ≤ u.toNat * 2 ^ (23 - u.toNat.log2) := hp ▸ Nat.mul_le_mul_right _ b1
  have hW2 : u.toNat * 2 ^ (23 - u.toNat.log2) < 2 ^ 24 := by
    calc _ < 2 ^ (u.toNat.log2 + 1) * 2 ^ (23 - u.toNat.log2) := Nat.mul_lt_mul_of_pos_right b2 (Nat.two_pow_pos _)
      _ = 2 ^ 24 := by rw [← Nat.pow_add]; congr 1; omega
  have hw : (u <<< (23 - u.toNat.log2)).toNat = u.toNat * 2 ^ (23 - u.toNat.log2) := by
    rw [BitVec.toNat_shiftLeft, Nat.shiftLeft_eq]; omega
  simp only [floatUnsigned2Float, hu, if_false, topBit_eq_log2 hu 31 u.isLt, if_pos hl]
  have hr : (BitVec.ofNat 32 (127 + u.toNat.log2) <<< 23 ||| (0x007fffff : BitVec 32) &&& u <<< (23 - u.toNat.log2)).toNat =
      2 ^ 23 * (127 + u.toNat.log2) + (u.toNat * 2 ^ (23 - u.toNat.log2) - 2 ^ 23) := by
    rw [BitVec.or_comm, toNat_or_of_lt (by rw [BitVec.and_comm, toNat_and_fracMask]; exact frac_lt _) (toNat_exp (by omega)),
      BitVec.and_comm, toNat_and_fracMask, frac, hw]
    omega
  have hv : u.toNat * 2 ^ (23 - u.toNat.log2) * 2 ^ (127 + u.toNat.log2 - 1) = u.toNat * 2 ^ 149 := by
    rw [Nat.mul_assoc, ← Nat.pow_add, show 23 - u.toNat.log2 + (127 + u.toNat.log2 - 1) = 149 by omega]
  rw [decode_normal (by omega) (by omega) hW1 hW2 hr, ← hv, roundNearestEven_exact _ hW2 (.inl hW1)]
  unfold maxFinite
  exact Nat.mul_le_mul (by omega) (Nat.pow_le_pow_right (by decide) (by omega))


/-- From 2^24 up the significand is `u >> k`, rounded by the guard, round
    and sticky bits of `u << (8 - k)`. -/
theorem decode_unsigned_large {u : BitVec 32} (hu : u ≠ 0) {k : Nat} (hl : u.toNat.log2 = k + 23) :
    decode (floatUnsigned2Float u) = roundNearestEven false (u.toNat * 2 ^ 149) := by
  have h0 : u.toNat ≠ 0 := fun h => hu (BitVec.eq_of_toNat_eq h)
  obtain ⟨b1, b2⟩ := log2_bounds h0
  rw [hl] at b1 b2
  have hk : k ≤ 8 := by
    have := (Nat.log2_lt h0).mpr u.isLt; omega
  rw [roundNearestEven_unsigned b1 b2 hk]
  -- `u = q * 2^k + r`, and the shifted word holds `q` above eight dropped bits `t`
  have hpk : 2 ^ k * 2 ^ (8 - k) = 2 ^ 8 := by rw [← Nat.pow_add]; congr 1; omega
  have hdm := Nat.div_add_mod u.toNat (2 ^ k)
  have hr : u.toNat % 2 ^ k < 2 ^ k := Nat.mod_lt _ (Nat.two_pow_pos k)
  have hq1 : 2 ^ 23 ≤ u.toNat / 2 ^ k := by
    rw [Nat.le_div_iff_mul_le (Nat.two_pow_pos _), ← Nat.pow_add, Nat.add_comm]; exact b1
  have hq2 : u.toNat / 2 ^ k < 2 ^ 24 := by
    rw [Nat.div_lt_iff_lt_mul (Nat.two_pow_pos _), ← Nat.pow_add, show 24 + k = k + 23 + 1 by omega]; exact b2
  have ht : u.toNat % 2 ^ k * 2 ^ (8 - k) < 2 ^ 8 :=
    hpk ▸ Nat.mul_lt_mul_of_pos_right hr (Nat.two_pow_pos _)
  have hus : (u <<< (8 - k)).toNat = u.toNat / 2 ^ k * 2 ^ 8 + u.toNat % 2 ^ k * 2 ^ (8 - k) := by
    have hsplit : u.toNat * 2 ^ (8 - k) = u.toNat / 2 ^ k * 2 ^ 8 + u.toNat % 2 ^ k * 2 ^ (8 - k) := by
      conv => lhs; rw [← hdm]
      rw [Nat.add_mul, Nat.mul_comm (2 ^ k), Nat.mul_assoc, hpk]
    rw [BitVec.toNat_shiftLeft, Nat.shiftLeft_eq, hsplit]; omega
  -- the rounding test in the code is the tie-to-even test on `t`
  have hlt : 2 ^ k < 2 * (u.toNat % 2 ^ k) ↔ 2 ^ 8 < 2 * (u.toNat % 2 ^ k * 2 ^ (8 - k)) := by
    rw [← hpk, ← Nat.mul_assoc]; exact (Nat.mul_lt_mul_right (Nat.two_pow_pos _)).symm
  have heq : 2 * (u.toNat % 2 ^ k) = 2 ^ k ↔ 2 * (u.toNat % 2 ^ k * 2 ^ (8 - k)) = 2 ^ 8 := by
    rw [← hpk, ← Nat.mul_assoc]; exact (Nat.mul_right_cancel_iff (Nat.two_pow_pos _)).symm
  have hfr : ((0x007fffff : BitVec 32) &&& u >>> k).toNat = u.toNat / 2 ^ k - 2 ^ 23 := by
    rw [BitVec.and_comm, toNat_and_fracMask, frac, BitVec.toNat_ushiftRight, Nat.shiftRight_eq_div_pow]; omega
  have hexp := toNat_exp (i := k + 23) (by omega)
  simp only [floatUnsigned2Float, hu, if_false, topBit_eq_log2 hu 31 u.isLt, hl, if_neg (show ¬ k + 23 < 23 by omega),
    show 31 - (k + 23) = 8 - k by omega, Nat.add_sub_cancel, ne_zero_iff_toNat, BitVec.toNat_shiftLeft, Nat.shiftLeft_eq,
    toNat_and_signMask, toNat_and_carryBit, BitVec.toNat_add, hfr, hus, hlt, heq]
  generalize u.toNat / 2 ^ k = q at hq1 hq2 hfr ⊢
  generalize u.toNat % 2 ^ k * 2 ^ (8 - k) = t at ht ⊢
  clear hdm hr hus hlt heq b1 b2 hpk hl
  have hone : (1 : BitVec 32).toNat = 1 := rfl
  have hlow : ∀ x : BitVec 32, (x &&& 0x007fffff).toNat < 2 ^ 23 := fun x => by
    rw [toNat_and_fracMask]; exact frac_lt x
  by_cases hup : 2 ^ 8 < 2 * t ∨ 2 * t = 2 ^ 8 ∧ q % 2 = 1
  · rw [if_pos hup, if_pos (by omega), hone]
    have hf1 : (((0x007fffff : BitVec 32) &&& u >>> k) + 1 &&& 0x007fffff).toNat = (q - 2 ^ 23 + 1) % 2 ^ 23 := by
      rw [toNat_and_fracMask, frac, BitVec.toNat_add, hfr, hone]; omega
    split
    · -- the significand rounds up to 2^24: one more in the exponent
      rename_i hc
      have he : (BitVec.ofNat 32 (127 + (k + 23)) <<< 23 + 0x00800000).toNat = 2 ^ 23 * (151 + k) := by
        rw [BitVec.toNat_add, hexp, show (0x00800000 : BitVec 32).toNat = 2 ^ 23 from rfl]; omega
      rw [decode_normal (E := 151 + k) (m := 2 ^ 23) (by omega) (by omega) (Nat.le_refl _) (by omega)
        (by rw [toNat_or_low he (hlow _), hf1]; omega)]
      rw [show q + 1 = 2 ^ 24 by omega, ← Nat.pow_add, ← Nat.pow_add,
        show 23 + (151 + k - 1) = 24 + (k + 149) by omega]
    · rename_i hc
      rw [decode_normal (E := 127 + (k + 23)) (m := q + 1) (by omega) (by omega) (by omega) (by omega)
        (by rw [toNat_or_low hexp (hlow _), hf1]; omega)]
      rw [show 127 + (k + 23) - 1 = k + 149 by omega]
  · rw [if_neg hup, if_neg (by omega)]
    rw [decode_normal (E := 127 + (k + 23)) (m := q) (by omega) (by omega) hq1 hq2
      (by rw [toNat_or_low hexp (hlow _), toNat_and_fracMask, frac, hfr]; omega)]
    rw [show 127 + (k + 23) - 1 = k + 149 by omega]


theorem floatUnsigned2Float_decode (u : BitVec 32) :
    decode (floatUnsigned2Float u) = roundNearestEven false (u.toNat * 2 ^ 149) := by
  by_cases hu : u = 0
  · subst hu
    rw [show (0 : BitVec 32).toNat * 2 ^ 149 = 0 from Nat.zero_mul _, roundNearestEven_small _ (by decide)]
    exact decode_of_toNat (e := 0) (f := 0) (by decide) (by decide) rfl
  · by_cases hl : u.toNat.log2 < 23
    · exact decode_unsigned_small hu hl
    · exact decode_unsigned_large hu (Nat.sub_add_cancel (Nat.le_of_not_lt hl)).symm

/-- `2^24 + 1` and `2^24 + 3` are ties: one rounds down, the other up, to the
    even significand. -/
example : floatUnsigned2Float 16777217 = 0x4b800000 ∧ floatUnsigned2Float 16777219 = 0x4b800002 := by
  decide

end DatalabFloat
