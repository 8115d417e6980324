import Mathlib.Data.BitVec

/-! # Single-precision words, as the float puzzles of `bits.c` read them

    The float puzzles take and return `unsigned` bit patterns of IEEE-754
    single-precision values. A word has a sign bit, an 8-bit biased exponent
    `bexp` and a 23-bit fraction `frac`; `decode` gives its value: NaN, a
    signed infinity, or a sign and a magnitude counted in units of `2^-149`,
    the smallest subnormal, so that every finite value is a natural number.

    * **`lt_decode`**, **`eq_decode`** — the value order of two non-NaN words
      is the signed order of their codes `2^23 * bexp + frac`, which is why
      the puzzles may compare float bits as integers;
    * **`roundNearestEven`** — the float nearest an exact magnitude, ties to
      an even significand, infinity past the largest finite magnitude:
      representable magnitudes are their own rounding
      (`roundNearestEven_exact`), and from `2^277` on everything is infinite
      (`roundNearestEven_overflow`);
    * the masks the puzzles apply, read as fields (`toNat_and_mask`). -/

namespace DatalabFloat

/-! ## Fields and values -/

/-- The sign bit. -/
def sign (u : BitVec 32) : Bool := u.msb

/-- The biased exponent, bits 23 to 30. -/
def bexp (u : BitVec 32) : Nat := u.toNat / 2 ^ 23 % 2 ^ 8

/-- The fraction, bits 0 to 22. -/
def frac (u : BitVec 32) : Nat := u.toNat % 2 ^ 23

/-- The magnitude of a finite word in units of `2^-149`: the significand
    (with its hidden bit when `e ≠ 0`) times `2^(e-1)`. -/
def magOf (e f : Nat) : Nat := (if e = 0 then f else 2 ^ 23 + f) * 2 ^ (e - 1)

/-- The value of a single-precision word. -/
inductive Value
  | nan
  | inf (neg : Bool)
  | fin (neg : Bool) (mag : Nat)
deriving DecidableEq, Repr

def decode (u : BitVec 32) : Value :=
  if bexp u = 255 then (if frac u = 0 then .inf (sign u) else .nan)
  else .fin (sign u) (magOf (bexp u) (frac u))

/-- A finite value as an integer multiple of `2^-149`. -/
def signed (neg : Bool) (m : Nat) : Int := if neg then -(m : Int) else m

/-- IEEE negation. -/
def Value.neg : Value → Value
  | .nan => .nan
  | .inf s => .inf (!s)
  | .fin s m => .fin (!s) m

/-- IEEE equality: false on NaN, and `+0 = -0`. -/
def Value.eq : Value → Value → Bool
  | .fin s m, .fin t n => decide (signed s m = signed t n)
  | .inf s, .inf t => decide (s = t)
  | _, _ => false

/-- IEEE less-than: false on NaN. -/
def Value.lt : Value → Value → Bool
  | .fin s m, .fin t n => decide (signed s m < signed t n)
  | .fin _ _, .inf t => !t
  | .inf s, .fin _ _ => s
  | .inf s, .inf t => s && !t
  | _, _ => false

/-- The exponent and fraction bits together: the word without its sign. -/
def code (u : BitVec 32) : Nat := 2 ^ 23 * bexp u + frac u

theorem frac_lt (u : BitVec 32) : frac u < 2 ^ 23 := Nat.mod_lt _ (Nat.two_pow_pos _)

theorem bexp_lt (u : BitVec 32) : bexp u < 2 ^ 8 := Nat.mod_lt _ (Nat.two_pow_pos _)

theorem sign_eq (u : BitVec 32) : sign u = decide (2 ^ 31 ≤ u.toNat) := BitVec.msb_eq_decide u

theorem toNat_fields (u : BitVec 32) :
    u.toNat = (if sign u then 2 ^ 31 else 0) + 2 ^ 23 * bexp u + frac u := by
  have := u.isLt
  simp only [sign, bexp, frac, BitVec.msb_eq_decide]
  split <;> rename_i h <;> simp at h <;> omega

theorem eq_iff_sign_code (u v : BitVec 32) : u = v ↔ sign u = sign v ∧ code u = code v := by
  constructor
  · rintro rfl; exact ⟨rfl, rfl⟩
  · rintro ⟨hs, hc⟩
    rw [BitVec.toNat_eq, toNat_fields u, toNat_fields v, hs]
    unfold code at hc; omega

/-- The fields of a word given by its number. -/
theorem fields_of_toNat {w : BitVec 32} {s : Bool} {e f : Nat} (he : e < 2 ^ 8) (hf : f < 2 ^ 23)
    (h : w.toNat = (if s then 2 ^ 31 else 0) + 2 ^ 23 * e + f) :
    sign w = s ∧ bexp w = e ∧ frac w = f := by
  simp only [sign_eq, bexp, frac, h]
  cases s <;> simp only [if_true, if_false, Bool.false_eq_true] <;> refine ⟨?_, ?_, ?_⟩ <;> simp <;> omega

theorem decode_of_toNat {w : BitVec 32} {s : Bool} {e f : Nat} (he : e < 255) (hf : f < 2 ^ 23)
    (h : w.toNat = (if s then 2 ^ 31 else 0) + 2 ^ 23 * e + f) : decode w = .fin s (magOf e f) := by
  obtain ⟨hs, he', hf'⟩ := fields_of_toNat (by omega) hf h
  unfold decode; rw [hs, he', hf', if_neg (by omega)]

theorem decode_inf_of_toNat {w : BitVec 32} {s : Bool}
    (h : w.toNat = (if s then 2 ^ 31 else 0) + 2 ^ 23 * 255) : decode w = .inf s := by
  obtain ⟨hs, he', hf'⟩ := fields_of_toNat (e := 255) (f := 0) (by decide) (by decide) h
  unfold decode; rw [hs, he', hf']; rfl

/-- A positive normal word with exponent field `E` and significand `m`. -/
theorem decode_normal {w : BitVec 32} {E m : Nat} (hE1 : 1 ≤ E) (hE2 : E < 255) (hm1 : 2 ^ 23 ≤ m)
    (hm2 : m < 2 ^ 24) (h : w.toNat = 2 ^ 23 * E + (m - 2 ^ 23)) :
    decode w = .fin false (m * 2 ^ (E - 1)) := by
  rw [decode_of_toNat (s := false) (e := E) (f := m - 2 ^ 23) hE2 (by omega)
    (by rw [h, if_neg Bool.false_ne_true, Nat.zero_add])]
  simp only [magOf, if_neg (show E ≠ 0 by omega), show 2 ^ 23 + (m - 2 ^ 23) = m by omega]

theorem decode_eq_nan_iff (u : BitVec 32) : decode u = .nan ↔ bexp u = 255 ∧ frac u ≠ 0 := by
  unfold decode; split <;> [split; skip] <;> simp_all

/-! ## The order of values -/

theorem magOf_lt_pow {e f : Nat} (hf : f < 2 ^ 23) : magOf e f < 2 ^ 23 * 2 ^ e := by
  unfold magOf
  split
  · subst e; simpa using hf
  · rename_i he
    calc (2 ^ 23 + f) * 2 ^ (e - 1) < (2 ^ 23 + 2 ^ 23) * 2 ^ (e - 1) :=
          Nat.mul_lt_mul_of_pos_right (by omega) (Nat.two_pow_pos _)
      _ = 2 ^ 23 * 2 ^ e := by
          obtain ⟨k, rfl⟩ : ∃ k, e = k + 1 := ⟨e - 1, by omega⟩
          rw [Nat.add_sub_cancel, Nat.pow_succ]; omega

theorem pow_le_magOf {e e' f' : Nat} (h : e < e') : 2 ^ 23 * 2 ^ e ≤ magOf e' f' := by
  unfold magOf
  rw [if_neg (by omega)]
  exact Nat.mul_le_mul (by omega) (Nat.pow_le_pow_right (by decide) (by omega))

/-- Magnitudes grow with the code `2^23 * bexp + frac`. -/
theorem magOf_lt_magOf {e f e' f' : Nat} (hf : f < 2 ^ 23) (hf' : f' < 2 ^ 23)
    (h : 2 ^ 23 * e + f < 2 ^ 23 * e' + f') : magOf e f < magOf e' f' := by
  by_cases he : e = e'
  · subst he
    unfold magOf
    exact Nat.mul_lt_mul_of_pos_right (by split <;> omega) (Nat.two_pow_pos _)
  · exact Nat.lt_of_lt_of_le (magOf_lt_pow hf) (pow_le_magOf (by omega))

theorem magOf_lt_iff (u v : BitVec 32) :
    magOf (bexp u) (frac u) < magOf (bexp v) (frac v) ↔ code u < code v := by
  have := frac_lt u; have := frac_lt v
  constructor
  · intro h; apply Classical.byContradiction; intro hc
    rcases Nat.lt_or_eq_of_le (Nat.not_lt.mp hc) with hlt | heq
    · exact Nat.lt_asymm h (magOf_lt_magOf (frac_lt v) (frac_lt u) hlt)
    · have hb : bexp v = bexp u := by unfold code at heq; omega
      have hf : frac v = frac u := by unfold code at heq; omega
      rw [hb, hf] at h; exact Nat.lt_irrefl _ h
  · exact magOf_lt_magOf (frac_lt u) (frac_lt v)

theorem magOf_eq_iff (u v : BitVec 32) :
    magOf (bexp u) (frac u) = magOf (bexp v) (frac v) ↔ code u = code v := by
  have := magOf_lt_iff u v; have := magOf_lt_iff v u; omega

theorem magOf_eq_zero_iff (u : BitVec 32) : magOf (bexp u) (frac u) = 0 ↔ code u = 0 := by
  constructor
  · intro h; apply Classical.byContradiction; intro hc
    have := (magOf_lt_iff 0 u).mpr (Nat.pos_of_ne_zero hc)
    rw [h] at this; exact Nat.not_lt_zero _ this
  · intro h
    have hb : bexp u = 0 := by unfold code at h; omega
    have hf : frac u = 0 := by unfold code at h; omega
    rw [hb, hf]; rfl

/-- A map that keeps the order of magnitudes and their zero keeps the
    order of signed values. -/
theorem signed_lt_iff {a b a' b' : Nat} (s t : Bool) (h : a < b ↔ a' < b') (h' : b < a ↔ b' < a')
    (h0 : a = 0 ↔ a' = 0) (h0' : b = 0 ↔ b' = 0) :
    signed s a < signed t b ↔ signed s a' < signed t b' := by
  cases s <;> cases t <;> simp only [signed, if_true, if_false, Bool.false_eq_true] <;> omega

theorem signed_eq_iff {a b a' b' : Nat} (s t : Bool) (h : a = b ↔ a' = b')
    (h0 : a = 0 ↔ a' = 0) (h0' : b = 0 ↔ b' = 0) :
    signed s a = signed t b ↔ signed s a' = signed t b' := by
  cases s <;> cases t <;> simp only [signed, if_true, if_false, Bool.false_eq_true] <;> omega

/-- A word that is not NaN is an infinity or a finite value. -/
theorem decode_of_ne_nan {u : BitVec 32} (hu : decode u ≠ .nan) :
    decode u = if bexp u = 255 then .inf (sign u) else .fin (sign u) (magOf (bexp u) (frac u)) := by
  rw [Ne, decode_eq_nan_iff] at hu
  unfold decode; split
  · rename_i hb; rw [if_pos (by omega)]
  · rfl

theorem code_of_inf {u : BitVec 32} (hu : decode u ≠ .nan) (hb : bexp u = 255) : code u = 2 ^ 23 * 255 := by
  rw [Ne, decode_eq_nan_iff] at hu
  unfold code; omega

theorem code_lt_of_fin {u : BitVec 32} (hb : bexp u ≠ 255) : code u < 2 ^ 23 * 255 := by
  have := bexp_lt u; have := frac_lt u
  unfold code; omega

theorem lt_decode {u v : BitVec 32} (hu : decode u ≠ .nan) (hv : decode v ≠ .nan) :
    (decode u).lt (decode v) = decide (signed (sign u) (code u) < signed (sign v) (code v)) := by
  rw [decode_of_ne_nan hu, decode_of_ne_nan hv]
  split <;> split <;> rename_i hbu hbv <;> simp only [Value.lt]
  · rw [code_of_inf hu hbu, code_of_inf hv hbv]; cases sign u <;> cases sign v <;> decide
  · rw [code_of_inf hu hbu]; have := code_lt_of_fin hbv
    cases sign u <;> cases sign v <;> simp [signed] <;> omega
  · rw [code_of_inf hv hbv]; have := code_lt_of_fin hbu
    cases sign u <;> cases sign v <;> simp [signed] <;> omega
  · rw [decide_eq_decide]
    exact signed_lt_iff _ _ (magOf_lt_iff u v) (magOf_lt_iff v u) (magOf_eq_zero_iff u) (magOf_eq_zero_iff v)

theorem eq_decode {u v : BitVec 32} (hu : decode u ≠ .nan) (hv : decode v ≠ .nan) :
    (decode u).eq (decode v) = decide (signed (sign u) (code u) = signed (sign v) (code v)) := by
  rw [decode_of_ne_nan hu, decode_of_ne_nan hv]
  split <;> split <;> rename_i hbu hbv <;> simp only [Value.eq]
  · rw [code_of_inf hu hbu, code_of_inf hv hbv]; cases sign u <;> cases sign v <;> decide
  · rw [code_of_inf hu hbu]; have := code_lt_of_fin hbv
    cases sign u <;> cases sign v <;> simp [signed] <;> omega
  · rw [code_of_inf hv hbv]; have := code_lt_of_fin hbu
    cases sign u <;> cases sign v <;> simp [signed] <;> omega
  · rw [decide_eq_decide]
    exact signed_eq_iff _ _ (magOf_eq_iff u v) (magOf_eq_zero_iff u) (magOf_eq_zero_iff v)

/-! ## Rounding -/

/-- The largest finite magnitude, `(2 - 2^-23) · 2^127`. -/
def maxFinite : Nat := (2 ^ 24 - 1) * 2 ^ 253

/-- The float nearest `±M · 2^-149`: the significand keeps 24 bits from the
    leading one of `M`, rounds half to even on the bits below, and a result
    past `maxFinite` is infinite. -/
def roundNearestEven (neg : Bool) (M : Nat) : Value :=
  let e := M.log2 - 23
  let q := M / 2 ^ e
  let r := M % 2 ^ e
  let m := (if 2 ^ e < 2 * r ∨ 2 * r = 2 ^ e ∧ q % 2 = 1 then q + 1 else q) * 2 ^ e
  if m ≤ maxFinite then .fin neg m else .inf neg

/-- IEEE doubling. -/
def Value.scale2 : Value → Value
  | .nan => .nan
  | .inf s => .inf s
  | .fin s m => roundNearestEven s (2 * m)

theorem log2_eq {n k : Nat} (h1 : 2 ^ k ≤ n) (h2 : n < 2 ^ (k + 1)) : n.log2 = k := by
  have hn : n ≠ 0 := by have := Nat.two_pow_pos k; omega
  have := (Nat.le_log2 hn).mpr h1
  have := (Nat.log2_lt hn).mpr h2
  omega

theorem roundNearestEven_exact (s : Bool) {q e : Nat} (hq : q < 2 ^ 24) (hn : 2 ^ 23 ≤ q ∨ e = 0)
    (hm : q * 2 ^ e ≤ maxFinite) : roundNearestEven s (q * 2 ^ e) = .fin s (q * 2 ^ e) := by
  have he : (q * 2 ^ e).log2 - 23 = e := by
    rcases hn with hn | rfl
    · have : (q * 2 ^ e).log2 = e + 23 := by
        apply log2_eq
        · rw [Nat.pow_add, Nat.mul_comm]; exact Nat.mul_le_mul_right _ hn
        · rw [show e + 23 + 1 = e + 24 by omega, Nat.pow_add, Nat.mul_comm (2 ^ e)]
          exact Nat.mul_lt_mul_of_pos_right hq (Nat.two_pow_pos e)
      omega
    · rcases Nat.eq_zero_or_pos q with rfl | hq0
      · rw [Nat.zero_mul, Nat.log2_zero]
      · have := (Nat.log2_lt (by omega)).mpr (show q * 2 ^ 0 < 2 ^ 24 by simpa using hq); omega
  simp only [roundNearestEven, he, Nat.mul_div_cancel _ (Nat.two_pow_pos e), Nat.mul_mod_left, Nat.mul_zero]
  have : ¬ (2 ^ e < 0 ∨ 0 = 2 ^ e ∧ q % 2 = 1) := by have := Nat.two_pow_pos e; omega
  rw [if_neg this, if_pos hm]

theorem roundNearestEven_small (s : Bool) {M : Nat} (h : M < 2 ^ 24) : roundNearestEven s M = .fin s M := by
  have := roundNearestEven_exact s (e := 0) h (.inr rfl)
    (by unfold maxFinite; simp only [Nat.pow_zero, Nat.mul_one]; omega)
  simpa using this

theorem roundNearestEven_overflow (s : Bool) {M k : Nat} (hk : 254 ≤ k) (h : 2 ^ 23 * 2 ^ k ≤ M) :
    roundNearestEven s M = .inf s := by
  have hM : M ≠ 0 :=
    Nat.pos_iff_ne_zero.mp (Nat.lt_of_lt_of_le (Nat.mul_pos (Nat.two_pow_pos _) (Nat.two_pow_pos _)) h)
  have hl : 23 + k ≤ M.log2 := (Nat.le_log2 hM).mpr (by rw [Nat.pow_add]; exact h)
  have hq : 2 ^ 23 ≤ M / 2 ^ (M.log2 - 23) := by
    rw [Nat.le_div_iff_mul_le (Nat.two_pow_pos _), ← Nat.pow_add, show 23 + (M.log2 - 23) = M.log2 by omega]
    exact Nat.log2_self_le hM
  simp only [roundNearestEven]
  rw [if_neg]
  apply Nat.not_le_of_lt
  calc maxFinite < 2 ^ 24 * 2 ^ 253 := Nat.mul_lt_mul_of_pos_right (by decide) (Nat.two_pow_pos 253)
    _ = 2 ^ 23 * 2 ^ 254 := by rw [Nat.pow_succ 2 253]; omega
    _ ≤ 2 ^ 23 * 2 ^ (M.log2 - 23) := Nat.mul_le_mul_left _ (Nat.pow_le_pow_right (by decide) (by omega))
    _ ≤ _ := Nat.mul_le_mul_right _ (by split <;> omega)

/-! ## Masks -/

/-- A run of `n` ones from bit `j` picks those bits. -/
theorem and_mask (a j n : Nat) : a &&& 2 ^ j * (2 ^ n - 1) = 2 ^ j * (a / 2 ^ j % 2 ^ n) := by
  apply Nat.eq_of_testBit_eq; intro i
  simp only [Nat.testBit_and, Nat.testBit_mul_pow_two, Nat.testBit_two_pow_sub_one, Nat.testBit_mod_two_pow]
  by_cases h : i ≥ j
  · simp only [h, decide_True, Bool.true_and]
    rw [← Nat.shiftRight_eq_div_pow, Nat.testBit_shiftRight, show j + (i - j) = i by omega]
    cases a.testBit i <;> simp
  · simp [h]

theorem toNat_and_mask (u : BitVec 32) {j n : Nat} (h : j + n ≤ 32) :
    (u &&& BitVec.ofNat 32 (2 ^ j * (2 ^ n - 1))).toNat = 2 ^ j * (u.toNat / 2 ^ j % 2 ^ n) := by
  have hlt : 2 ^ j * (2 ^ n - 1) < 2 ^ 32 := by
    calc 2 ^ j * (2 ^ n - 1) < 2 ^ j * 2 ^ n :=
          Nat.mul_lt_mul_of_pos_left (by have := Nat.one_le_two_pow (n := n); omega) (Nat.two_pow_pos j)
      _ = 2 ^ (j + n) := (Nat.pow_add 2 j n).symm
      _ ≤ 2 ^ 32 := Nat.pow_le_pow_right (by decide) h
  rw [BitVec.toNat_and, BitVec.toNat_ofNat, Nat.mod_eq_of_lt hlt, and_mask]

theorem toNat_and_expMask (u : BitVec 32) : (u &&& 0x7f800000).toNat = 2 ^ 23 * bexp u :=
  toNat_and_mask u (j := 23) (n := 8) (by decide)

theorem toNat_and_fracMask (u : BitVec 32) : (u &&& 0x007fffff).toNat = frac u := by
  have : (u &&& 0x007fffff).toNat = 2 ^ 0 * (u.toNat / 2 ^ 0 % 2 ^ 23) :=
    toNat_and_mask u (j := 0) (n := 23) (by decide)
  rw [this, frac]; omega

theorem toNat_and_absMask (u : BitVec 32) : (u &&& 0x7fffffff).toNat = code u := by
  have : (u &&& 0x7fffffff).toNat = 2 ^ 0 * (u.toNat / 2 ^ 0 % 2 ^ 31) :=
    toNat_and_mask u (j := 0) (n := 31) (by decide)
  rw [this, code, bexp, frac]; omega

theorem toNat_and_signMask (x : BitVec 32) : (x &&& 0x80000000).toNat = 2 ^ 31 * (x.toNat / 2 ^ 31 % 2 ^ 1) :=
  toNat_and_mask x (j := 31) (n := 1) (by decide)

theorem toNat_and_carryBit (x : BitVec 32) : (x &&& 0x00800000).toNat = 2 ^ 23 * (x.toNat / 2 ^ 23 % 2 ^ 1) :=
  toNat_and_mask x (j := 23) (n := 1) (by decide)

theorem and_expMask_eq_iff (u : BitVec 32) : (u &&& 0x7f800000) = 0x7f800000 ↔ bexp u = 255 := by
  rw [BitVec.toNat_eq, toNat_and_expMask, show (0x7f800000 : BitVec 32).toNat = 2 ^ 23 * 255 from rfl]
  have := u.isLt; simp only [bexp]; omega

theorem and_expMask_eq_zero_iff (u : BitVec 32) : (u &&& 0x7f800000) = 0 ↔ bexp u = 0 := by
  rw [BitVec.toNat_eq, toNat_and_expMask]; simp

theorem and_fracMask_ne_iff (u : BitVec 32) : (u &&& 0x007fffff) ≠ 0 ↔ frac u ≠ 0 := by
  rw [Ne, BitVec.toNat_eq, toNat_and_fracMask]; simp

theorem and_absMask_eq_zero_iff (u : BitVec 32) : (u &&& 0x7fffffff) = 0 ↔ code u = 0 := by
  rw [BitVec.toNat_eq, toNat_and_absMask]; rfl

theorem ne_zero_iff_toNat (x : BitVec 32) : x ≠ 0 ↔ x.toNat ≠ 0 := by rw [Ne, BitVec.toNat_eq]; rfl

/-- Or-ing a low part below bit 23 into a high part adds them. -/
theorem toNat_or_of_lt {x y : BitVec 32} {k : Nat} (hx : x.toNat < 2 ^ 23) (hy : y.toNat = 2 ^ 23 * k) :
    (x ||| y).toNat = 2 ^ 23 * k + x.toNat := by
  rw [BitVec.toNat_or, Nat.or_comm, hy, Nat.mul_add_lt_is_or hx]

theorem toNat_or_low {x y : BitVec 32} {k : Nat} (hx : x.toNat = 2 ^ 23 * k) (hy : y.toNat < 2 ^ 23) :
    (x ||| y).toNat = 2 ^ 23 * k + y.toNat := by
  rw [BitVec.or_comm]; exact toNat_or_of_lt hy hx

end DatalabFloat
