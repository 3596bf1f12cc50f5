import Mathlib.Data.List.Lex
import Mathlib.Order.Fin.Basic
import Mathlib.Tactic.Ring

/-!
# Big-endian digits

Fixed-length positional notation, most significant digit first. At a fixed length the
lexicographic order of digit strings is the order of the numbers they denote
(`value_lt_value`, `digits_lt_digits`), and `digits` and `value` are inverse to each
other on the numbers that fit.
-/

namespace BigEndian

variable {b : ℕ}

/-- The number a digit string denotes. -/
def value : List (Fin b) → ℕ
  | [] => 0
  | d :: ds => d.val * b ^ ds.length + value ds

/-- The last `n` digits of a number, most significant first. -/
def digits (b : ℕ) [NeZero b] : ℕ → ℕ → List (Fin b)
  | 0, _ => []
  | n + 1, x => Fin.ofNat b (x / b ^ n) :: digits b n (x % b ^ n)

theorem value_lt (ds : List (Fin b)) : value ds < b ^ ds.length := by
  induction ds with
  | nil => exact Nat.one_pos
  | cons d ds ih =>
    have hd : d.val + 1 ≤ b := d.isLt
    calc value (d :: ds) < d.val * b ^ ds.length + b ^ ds.length := Nat.add_lt_add_left ih _
      _ = (d.val + 1) * b ^ ds.length := by ring
      _ ≤ b * b ^ ds.length := Nat.mul_le_mul_right _ hd
      _ = b ^ (d :: ds).length := by rw [List.length_cons, pow_succ, mul_comm]

variable [NeZero b]

@[simp] theorem length_digits (n x : ℕ) : (digits b n x).length = n := by
  induction n generalizing x with
  | zero => rfl
  | succ n ih => rw [digits, List.length_cons, ih]

/-- Reading back the digits of a number that fits. -/
theorem value_digits {n x : ℕ} (h : x < b ^ n) : value (digits b n x) = x := by
  induction n generalizing x with
  | zero =>
    rw [pow_zero] at h
    rw [Nat.lt_one_iff.mp h]
    rfl
  | succ n ih =>
    have hpos : 0 < b ^ n := pow_pos (Nat.pos_of_ne_zero (NeZero.ne b)) n
    have hdiv : x / b ^ n < b := by
      rw [Nat.div_lt_iff_lt_mul hpos, ← pow_succ']
      exact h
    rw [digits, value, ih (Nat.mod_lt _ hpos), length_digits, Fin.val_ofNat,
      Nat.mod_eq_of_lt hdiv]
    exact Nat.div_add_mod' x (b ^ n)

/-- Every digit string is the digits of its value. -/
theorem digits_value (ds : List (Fin b)) : digits b ds.length (value ds) = ds := by
  induction ds with
  | nil => rfl
  | cons d ds ih =>
    have hpos : 0 < b ^ ds.length := pow_pos (Nat.pos_of_ne_zero (NeZero.ne b)) _
    have hlt := value_lt ds
    have hdiv : (d.val * b ^ ds.length + value ds) / b ^ ds.length = d.val := by
      rw [add_comm, Nat.add_mul_div_right _ _ hpos, Nat.div_eq_of_lt hlt, zero_add]
    have hmod : (d.val * b ^ ds.length + value ds) % b ^ ds.length = value ds := by
      rw [add_comm, Nat.add_mul_mod_self_right, Nat.mod_eq_of_lt hlt]
    rw [List.length_cons, digits, value, hdiv, hmod, ih]
    congr 1
    exact Fin.ext (Nat.mod_eq_of_lt d.isLt)

omit [NeZero b] in
/-- At equal lengths, lexicographic order is numeric order. -/
theorem value_lt_value {ds es : List (Fin b)} (hlen : ds.length = es.length) :
    value ds < value es ↔ ds < es := by
  induction ds generalizing es with
  | nil =>
    obtain rfl : es = [] := List.eq_nil_of_length_eq_zero hlen.symm
    simp
  | cons d ds ih =>
    cases es with
    | nil => cases hlen
    | cons e es =>
      have hlen' : ds.length = es.length := Nat.succ.inj hlen
      have hd := value_lt ds
      have he := value_lt es
      rw [hlen'] at hd
      rw [List.cons_lt_cons_iff, ← ih hlen', value, value, hlen']
      rcases lt_trichotomy d e with h | h | h
      · -- the leading digit decides
        have hstep : (d.val + 1) * b ^ es.length ≤ e.val * b ^ es.length :=
          Nat.mul_le_mul_right _ h
        have : d.val * b ^ es.length + value ds < e.val * b ^ es.length + value es := by
          rw [add_mul, one_mul] at hstep
          omega
        simp [h, this]
      · subst h
        simp
      · have hstep : (e.val + 1) * b ^ es.length ≤ d.val * b ^ es.length :=
          Nat.mul_le_mul_right _ h
        have : ¬ d.val * b ^ es.length + value ds < e.val * b ^ es.length + value es := by
          rw [add_mul, one_mul] at hstep
          omega
        simp [this, h.not_gt, h.ne']

theorem digits_lt_digits {n x y : ℕ} (hx : x < b ^ n) (hy : y < b ^ n) :
    digits b n x < digits b n y ↔ x < y := by
  rw [← value_lt_value (by simp), value_digits hx, value_digits hy]

end BigEndian
