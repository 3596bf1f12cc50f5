import Mathlib.Data.ZMod.Basic

/-!
# Machine words

Arithmetic of a `w`-bit unsigned word, on its natural-number value: addition and
subtraction wrap around modulo `2 ^ w`, and there is a saturating addition. Proofs
about a counter that is moved by such operations are done in `ZMod (2 ^ w)`, where
wrapping is plain ring arithmetic (`cast_wrapAdd`, `cast_wrapSub`); `eq_of_cast_eq`
reads the exact value back.
-/

namespace Word

variable {w a b : ℕ}

/-- Wrapping addition. -/
def wrapAdd (w a b : ℕ) : ℕ := (a + b) % 2 ^ w

/-- Wrapping subtraction. -/
def wrapSub (w a b : ℕ) : ℕ := (a + (2 ^ w - b % 2 ^ w)) % 2 ^ w

/-- The largest word. -/
def maxVal (w : ℕ) : ℕ := 2 ^ w - 1

/-- The largest signed word, which is what a slice is long at most. -/
def maxSigned (w : ℕ) : ℕ := 2 ^ (w - 1) - 1

/-- Saturating addition. -/
def satAdd (w a b : ℕ) : ℕ := min (a + b) (maxVal w)

theorem maxVal_add_one (w : ℕ) : maxVal w + 1 = 2 ^ w := Nat.sub_add_cancel (Nat.two_pow_pos w)

theorem lt_of_le_maxVal (h : a ≤ maxVal w) : a < 2 ^ w := by
  rw [← maxVal_add_one]
  exact Nat.lt_succ_of_le h

theorem wrapAdd_lt (w a b : ℕ) : wrapAdd w a b < 2 ^ w := Nat.mod_lt _ (Nat.two_pow_pos w)

theorem wrapSub_lt (w a b : ℕ) : wrapSub w a b < 2 ^ w := Nat.mod_lt _ (Nat.two_pow_pos w)

/-- No wrap while the sum fits. -/
theorem wrapAdd_of_lt (h : a + b < 2 ^ w) : wrapAdd w a b = a + b := Nat.mod_eq_of_lt h

/-- No wrap while the difference is not negative. -/
theorem wrapSub_of_le (ha : a < 2 ^ w) (h : b ≤ a) : wrapSub w a b = a - b := by
  rw [wrapSub, Nat.mod_eq_of_lt (h.trans_lt ha),
    show a + (2 ^ w - b) = a - b + 2 ^ w by omega, Nat.add_mod_right]
  exact Nat.mod_eq_of_lt (by omega)

/-- Twice the largest signed word is two short of the range. -/
theorem maxSigned_add_self (hw : 0 < w) : maxSigned w + maxSigned w + 2 = 2 ^ w := by
  have hpow : 2 ^ w = 2 ^ (w - 1) + 2 ^ (w - 1) := by
    rw [← Nat.two_mul, ← Nat.pow_succ', Nat.succ_eq_add_one, Nat.sub_add_cancel hw]
  have hpos := Nat.two_pow_pos (w - 1)
  rw [maxSigned, hpow]
  omega

/-- A saturating sum is a word. -/
theorem satAdd_le (w a b : ℕ) : satAdd w a b ≤ maxVal w := min_le_right _ _

/-- No saturation while the sum fits. -/
theorem satAdd_of_lt (h : a + b < 2 ^ w) : satAdd w a b = a + b := by
  rw [← maxVal_add_one] at h
  exact min_eq_left (Nat.le_of_lt_succ h)

/-- A sum that saturates below the largest word fits. -/
theorem lt_of_satAdd_lt (h : satAdd w a b < maxVal w) : a + b < 2 ^ w := by
  rcases min_lt_iff.mp h with hlt | hlt
  · exact lt_of_le_maxVal hlt.le
  · exact absurd hlt (lt_irrefl _)

@[simp] theorem cast_wrapAdd (w a b : ℕ) : (wrapAdd w a b : ZMod (2 ^ w)) = a + b := by
  rw [wrapAdd, ZMod.natCast_mod, Nat.cast_add]

@[simp] theorem cast_wrapSub (w a b : ℕ) : (wrapSub w a b : ZMod (2 ^ w)) = a - b := by
  have hlt : b % 2 ^ w ≤ 2 ^ w := (Nat.mod_lt _ (Nat.two_pow_pos w)).le
  rw [wrapSub, ZMod.natCast_mod, Nat.cast_add, Nat.cast_sub hlt, ZMod.natCast_self,
    ZMod.natCast_mod, zero_sub, sub_eq_add_neg]

theorem wrapSub_right_comm (w a b c : ℕ) :
    wrapSub w (wrapSub w a b) c = wrapSub w (wrapSub w a c) b := by
  have hcast : (wrapSub w (wrapSub w a b) c : ZMod (2 ^ w)) = wrapSub w (wrapSub w a c) b := by
    simp only [cast_wrapSub, sub_right_comm]
  have hmod := (ZMod.natCast_eq_natCast_iff _ _ _).mp hcast
  rwa [Nat.ModEq, Nat.mod_eq_of_lt (wrapSub_lt _ _ _), Nat.mod_eq_of_lt (wrapSub_lt _ _ _)] at hmod

/-- A word congruent to a number is that number's residue. -/
theorem eq_mod_of_cast_eq {n : ℕ} (ha : a < 2 ^ w) (h : (a : ZMod (2 ^ w)) = n) :
    a = n % 2 ^ w := by
  have hmod := (ZMod.natCast_eq_natCast_iff a n _).mp h
  rw [← Nat.mod_eq_of_lt ha]
  exact hmod

/-- A word congruent to a number that fits is that number. -/
theorem eq_of_cast_eq {n : ℕ} (ha : a < 2 ^ w) (hn : n < 2 ^ w)
    (h : (a : ZMod (2 ^ w)) = n) : a = n :=
  (eq_mod_of_cast_eq ha h).trans (Nat.mod_eq_of_lt hn)

/-- A word that is off by `d` from a number is that number exactly if the number is a word and `d`
is nil. -/
theorem eq_iff_of_cast {n : ℕ} {d : ℤ} (ha : a < 2 ^ w)
    (h : (a : ZMod (2 ^ w)) = ((n + d : ℤ) : ZMod (2 ^ w))) :
    a = n ↔ n < 2 ^ w ∧ (d : ZMod (2 ^ w)) = 0 := by
  rw [Int.cast_add, Int.cast_natCast] at h
  constructor
  · rintro rfl
    exact ⟨ha, left_eq_add.mp h⟩
  · rintro ⟨hn, hd⟩
    rw [hd, add_zero] at h
    exact eq_of_cast_eq ha hn h

/-- Subtracting what was added gives the word back. -/
theorem wrapSub_wrapAdd (ha : a < 2 ^ w) (b : ℕ) : wrapSub w (wrapAdd w a b) b = a := by
  refine eq_of_cast_eq (wrapSub_lt _ _ _) ha ?_
  rw [cast_wrapSub, cast_wrapAdd, add_sub_cancel_right]

end Word
