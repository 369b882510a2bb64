import Mathlib.Algebra.BigOperators.Group.List.Basic
import Mathlib.Algebra.Order.Ring.Int
import Mathlib.Data.List.Infix
import Mathlib.Tactic.Ring
import TermMachine.Rules.Arithmetic

/-!
# The rules on integers are exact

An operand is an integer of 64 bits (`word`). Whatever a rule on operands gives is the exact result, and it is stuck exactly
if that does not fit, or, for a sum or a product, if the sum or product of some of the first operands does not: a partial
result out of range is not made good by what comes after it. So the order of operands can decide whether there is a result,
but not what it is.

A power is computed by repeated squaring, and every product on the way is checked. None of them is out of range unless the
power is (`Steady.fits_mul`, `Steady.fits_square`): for a base of absolute value two or more they divide the power, and the
only number that fits with one sign alone, `2 ^ 63`, is no square. The exponent however is read as a number of 32 bits, and
every exponent that is none is reported as negative.

Proved:
* `accumulate_checked`: a sum or product is exact as long as every partial result fits.
* `fits_tdiv_iff`: the quotient of `-2 ^ 63` and `-1` is the only one that does not fit.
* `integers_are_exact`: all of the rules but that of the power.
* `powerTimes_eq`: repeated squaring gives the exact power.
* `power_is_exact_iff`: the rule of the power is exact up to exponents of 32 bits.
-/

namespace TermMachine.Rules

/-! ## Numbers that fit -/

theorem fitsInt64_iff {n : Int} : fitsInt64 n = true ↔ -2 ^ 63 ≤ n ∧ n < 2 ^ 63 := by
  simp only [fitsInt64, Bool.and_eq_true, decide_eq_true_eq]
  omega

theorem fits_of_natAbs_lt {n : Int} (h : n.natAbs < 2 ^ 63) : fitsInt64 n = true := by
  rw [fitsInt64_iff]
  omega

theorem natAbs_le_of_fits {n : Int} (h : fitsInt64 n = true) : n.natAbs ≤ 2 ^ 63 := by
  rw [fitsInt64_iff] at h
  omega

theorem fits_toInt (n : Int64) : fitsInt64 n.toInt = true :=
  fitsInt64_iff.mpr ⟨n.le_toInt, n.toInt_lt⟩

theorem fitting_of_fits {n : Int} (h : fitsInt64 n = true) : fitting n = .ok n := if_pos h

theorem fitting_of_not_fits {n : Int} (h : ¬ fitsInt64 n = true) : fitting n = .error .integerOverflow := if_neg h

def word (n : Int64) : Term := .int n.toInt

/-- The rule gives `n` exactly if `fits` holds, and is stuck on an overflow otherwise. -/
structure Checked (outcome : Result Term) (fits : Prop) (n : Int) : Prop where
  returns : ∀ t, outcome = .ok t ↔ fits ∧ t = .int n
  overflow : outcome = .error .integerOverflow ↔ ¬ fits

theorem Checked.of_cases {outcome : Result Term} {fits : Prop} {n : Int} (hok : fits → outcome = .ok (.int n))
    (herror : ¬ fits → outcome = .error .integerOverflow) : Checked outcome fits n := by
  by_cases h : fits
  · rw [hok h]
    refine ⟨fun t => ?_, iff_of_false nofun (not_not.mpr h)⟩
    rw [Except.ok.injEq, eq_comm, and_iff_right h]
  · rw [herror h]
    exact ⟨fun t => iff_of_false nofun fun ht => h ht.1, iff_of_true rfl h⟩

theorem checked_fitting (n : Int) : Checked (do return .int (← fitting n)) (fitsInt64 n = true) n := by
  refine .of_cases (fun h => ?_) fun h => ?_
  · rw [fitting_of_fits h]
    rfl
  · rw [fitting_of_not_fits h]
    rfl

/-! ## Sums and products -/

section
variable {f : Int → Int → Int}

def combined (f : Int → Int → Int) (total : Int) (xs : List Int64) : Int := (xs.map Int64.toInt).foldl f total

theorem accumulate_ok {total : Int} {xs : List Int64}
    (h : ∀ ys, ys <+: xs → fitsInt64 (combined f total ys) = true) :
    accumulate f total (xs.map word) = .ok (combined f total xs) := by
  induction xs generalizing total with
  | nil => rfl
  | cons x xs ih =>
    have hx : fitsInt64 (f total x.toInt) = true := h [x] ⟨xs, rfl⟩
    have hxs : ∀ ys, ys <+: xs → fitsInt64 (combined f (f total x.toInt) ys) = true := by
      intro ys hys
      exact h (x :: ys) (List.cons_prefix_cons.mpr ⟨rfl, hys⟩)
    show (fitting (f total x.toInt) >>= fun total => accumulate f total (xs.map word)) = _
    rw [fitting_of_fits hx]
    exact ih hxs

theorem accumulate_overflow {total : Int} {xs : List Int64} (htotal : fitsInt64 total = true)
    (h : ¬ ∀ ys, ys <+: xs → fitsInt64 (combined f total ys) = true) :
    accumulate f total (xs.map word) = .error .integerOverflow := by
  induction xs generalizing total with
  | nil =>
    refine absurd (fun ys hys => ?_) h
    rw [List.prefix_nil.mp hys]
    exact htotal
  | cons x xs ih =>
    show (fitting (f total x.toInt) >>= fun total => accumulate f total (xs.map word)) = _
    by_cases hx : fitsInt64 (f total x.toInt) = true
    · rw [fitting_of_fits hx]
      refine ih hx fun hxs => h fun ys hys => ?_
      rcases List.prefix_cons_iff.mp hys with rfl | ⟨zs, rfl, hzs⟩
      · exact htotal
      · exact hxs zs hzs
    · rw [fitting_of_not_fits hx]
      rfl

/-- Operands are combined exactly as long as every partial result fits. -/
theorem accumulate_checked {start : Int} (hstart : fitsInt64 start = true) (xs : List Int64) :
    Checked (do return .int (← accumulate f start (xs.map word)))
      (∀ ys, ys <+: xs → fitsInt64 (combined f start ys) = true) (combined f start xs) := by
  refine .of_cases (fun h => ?_) fun h => ?_
  · rw [accumulate_ok h]
    rfl
  · rw [accumulate_overflow hstart h]
    rfl

end

def sum (xs : List Int64) : Int := (xs.map Int64.toInt).sum

def product (xs : List Int64) : Int := (xs.map Int64.toInt).prod

theorem combined_add (xs : List Int64) : combined (· + ·) 0 xs = sum xs := List.sum_eq_foldl.symm

theorem combined_mul (xs : List Int64) : combined (· * ·) 1 xs = product xs := List.prod_eq_foldl.symm

theorem sum_checked (xs : List Int64) : Checked (arithmetic .add [.seq (xs.map word)])
    (∀ ys, ys <+: xs → fitsInt64 (sum ys) = true) (sum xs) := by
  have h := accumulate_checked (f := (· + ·)) (show fitsInt64 0 = true by decide) xs
  simp only [combined_add] at h
  exact h

theorem product_checked (xs : List Int64) : Checked (arithmetic .multiply [.seq (xs.map word)])
    (∀ ys, ys <+: xs → fitsInt64 (product ys) = true) (product xs) := by
  have h := accumulate_checked (f := (· * ·)) (show fitsInt64 1 = true by decide) xs
  simp only [combined_mul] at h
  exact h

/-! ## Quotients and remainders -/

/-- A quotient rounded toward zero, and its remainder. -/
structure Truncated (a b q r : Int) : Prop where
  division : a = b * q + r
  small : r.natAbs < b.natAbs
  sign : r = 0 ∨ r.sign = a.sign

theorem truncated_tdiv (a : Int) {b : Int} (hb : b ≠ 0) : Truncated a b (a.tdiv b) (a.tmod b) where
  division := (Int.mul_tdiv_add_tmod a b).symm
  small := by
    rw [Int.natAbs_tmod]
    exact Nat.mod_lt _ (by omega)
  sign := by
    by_cases h : b ∣ a
    · exact .inl (Int.tmod_eq_zero_of_dvd h)
    · exact .inr (by rw [Int.sign_tmod, if_neg h])

/-- The least number divided by minus one is the only quotient that does not fit. -/
theorem fits_tdiv_iff {a b : Int} (ha : fitsInt64 a = true) (hb : b ≠ 0) :
    fitsInt64 (a.tdiv b) = true ↔ ¬ (a = -2 ^ 63 ∧ b = -1) := by
  by_cases h1 : b = 1
  · subst h1
    rw [Int.tdiv_one]
    exact iff_of_true ha (by omega)
  by_cases hm : b = -1
  · subst hm
    rw [Int.tdiv_neg, Int.tdiv_one]
    rw [fitsInt64_iff] at ha ⊢
    omega
  · have hhalf : (a.tdiv b).natAbs ≤ a.natAbs / 2 := by
      rw [Int.natAbs_tdiv]
      exact Nat.div_le_div_left (by omega) (by decide)
    have hle := natAbs_le_of_fits ha
    exact iff_of_true (fits_of_natAbs_lt (by omega)) (by omega)

section
variable {a b : Int64}

theorem divide_of_ne_zero (hb : b.toInt ≠ 0) :
    arithmetic .divide [word a, word b] = (do return .int (← fitting (a.toInt.tdiv b.toInt))) := if_neg hb

theorem modulo_of_ne_zero (hb : b.toInt ≠ 0) : arithmetic .modulo [word a, word b] =
    (do let _ ← fitting (a.toInt.tdiv b.toInt); return .int (a.toInt.tmod b.toInt)) := if_neg hb

/-- The divisor is zero, or the quotient does not fit, or there are a quotient and a remainder. -/
theorem division_cases (a b : Int64) :
    (b.toInt = 0 ∧ arithmetic .divide [word a, word b] = .ok .empty ∧
      arithmetic .modulo [word a, word b] = .ok .empty) ∨
    ((a.toInt = -2 ^ 63 ∧ b.toInt = -1) ∧ arithmetic .divide [word a, word b] = .error .integerOverflow ∧
      arithmetic .modulo [word a, word b] = .error .integerOverflow) ∨
    (b.toInt ≠ 0 ∧ ¬ (a.toInt = -2 ^ 63 ∧ b.toInt = -1) ∧ ∃ q r, Truncated a.toInt b.toInt q r ∧
      arithmetic .divide [word a, word b] = .ok (.int q) ∧ arithmetic .modulo [word a, word b] = .ok (.int r)) := by
  by_cases hb : b.toInt = 0
  · exact .inl ⟨hb, if_pos hb, if_pos hb⟩
  rw [divide_of_ne_zero hb, modulo_of_ne_zero hb]
  by_cases hfits : fitsInt64 (a.toInt.tdiv b.toInt) = true
  · have hne := (fits_tdiv_iff (fits_toInt a) hb).mp hfits
    rw [fitting_of_fits hfits]
    exact .inr (.inr ⟨hb, hne, _, _, truncated_tdiv a.toInt hb, rfl, rfl⟩)
  · have heq := not_not.mp (mt (fits_tdiv_iff (fits_toInt a) hb).mpr hfits)
    rw [fitting_of_not_fits hfits]
    exact .inr (.inl ⟨heq, rfl, rfl⟩)

/-- There is no value for a divisor of zero, and an overflow for the least number and minus one only. -/
structure Divided (outcome : Result Term) (a b : Int64) : Prop where
  zero : outcome = .ok .empty ↔ b.toInt = 0
  stuck : (∃ reason, outcome = .error reason) ↔ a.toInt = -2 ^ 63 ∧ b.toInt = -1
  overflow : (∃ reason, outcome = .error reason) → outcome = .error .integerOverflow

theorem divided_zero (hb : b.toInt = 0) : Divided (.ok .empty) a b :=
  ⟨iff_of_true rfl hb, iff_of_false nofun (by omega), nofun⟩

theorem divided_overflow (h : a.toInt = -2 ^ 63 ∧ b.toInt = -1) : Divided (.error .integerOverflow) a b :=
  ⟨iff_of_false nofun (by omega), iff_of_true ⟨_, rfl⟩ h, fun _ => rfl⟩

theorem divided_int {n : Int} (hb : b.toInt ≠ 0) (h : ¬ (a.toInt = -2 ^ 63 ∧ b.toInt = -1)) :
    Divided (.ok (.int n)) a b :=
  ⟨iff_of_false nofun hb, iff_of_false nofun h, nofun⟩

theorem divisions_divided (a b : Int64) :
    Divided (arithmetic .divide [word a, word b]) a b ∧ Divided (arithmetic .modulo [word a, word b]) a b := by
  rcases division_cases a b with ⟨hb, hdivide, hmodulo⟩ | ⟨heq, hdivide, hmodulo⟩ |
    ⟨hb, hne, q, r, -, hdivide, hmodulo⟩
  · rw [hdivide, hmodulo]
    exact ⟨divided_zero hb, divided_zero hb⟩
  · rw [hdivide, hmodulo]
    exact ⟨divided_overflow heq, divided_overflow heq⟩
  · rw [hdivide, hmodulo]
    exact ⟨divided_int hb hne, divided_int hb hne⟩

end

/-! ## All rules but the power -/

/-- What the rules make of operands `xs`, or of one or two operands `a` and `b`. -/
structure ExactIntegers (xs : List Int64) (a b : Int64) : Prop where
  /-- A sum is exact, and there is one exactly if the sums of the first operands, of one, two and so on, all fit. -/
  add : Checked (arithmetic .add [.seq (xs.map word)]) (∀ ys, ys <+: xs → fitsInt64 (sum ys) = true) (sum xs)
  multiply : Checked (arithmetic .multiply [.seq (xs.map word)]) (∀ ys, ys <+: xs → fitsInt64 (product ys) = true)
    (product xs)
  /-- Operands in two orders, neither of which overflows, have one sum. -/
  add_perm : ∀ ys t u, xs.Perm ys → arithmetic .add [.seq (xs.map word)] = .ok t →
    arithmetic .add [.seq (ys.map word)] = .ok u → t = u
  multiply_perm : ∀ ys t u, xs.Perm ys → arithmetic .multiply [.seq (xs.map word)] = .ok t →
    arithmetic .multiply [.seq (ys.map word)] = .ok u → t = u
  subtract : Checked (arithmetic .subtract [word a, word b]) (fitsInt64 (a.toInt - b.toInt) = true) (a.toInt - b.toInt)
  negate : Checked (arithmetic .negate [word a]) (fitsInt64 (-a.toInt) = true) (-a.toInt)
  absoluteValue : Checked (arithmetic .absoluteValue [word a]) (fitsInt64 |a.toInt| = true) |a.toInt|
  successor : 0 ≤ a.toInt → Checked (arithmetic .successor [word a]) (fitsInt64 (a.toInt + 1) = true) (a.toInt + 1)
  successor_negative : a.toInt < 0 → arithmetic .successor [word a] = .error (.notNatural a.toInt)
  divide : Divided (arithmetic .divide [word a, word b]) a b
  modulo : Divided (arithmetic .modulo [word a, word b]) a b
  quotient : b.toInt ≠ 0 → ¬ (a.toInt = -2 ^ 63 ∧ b.toInt = -1) → ∃ q r, Truncated a.toInt b.toInt q r ∧
    arithmetic .divide [word a, word b] = .ok (.int q) ∧ arithmetic .modulo [word a, word b] = .ok (.int r)
  overflow_text : Reason.integerOverflow.text? = some "integer overflow"

/-- The rules on integers of 64 bits give the exact result or are stuck, and it is said exactly when. -/
theorem integers_are_exact (xs : List Int64) (a b : Int64) : ExactIntegers xs a b where
  add := sum_checked xs
  multiply := product_checked xs
  add_perm ys t u hperm ht hu := by
    obtain ⟨-, rfl⟩ := ((sum_checked xs).returns t).mp ht
    obtain ⟨-, rfl⟩ := ((sum_checked ys).returns u).mp hu
    rw [sum, sum, (hperm.map _).sum_eq]
  multiply_perm ys t u hperm ht hu := by
    obtain ⟨-, rfl⟩ := ((product_checked xs).returns t).mp ht
    obtain ⟨-, rfl⟩ := ((product_checked ys).returns u).mp hu
    rw [product, product, (hperm.map _).prod_eq]
  subtract := checked_fitting _
  negate := checked_fitting _
  absoluteValue := by
    rw [Int.abs_eq_natAbs]
    exact checked_fitting _
  successor hnonneg := by
    have hnatural : natural [word a] = .ok a.toInt := if_pos hnonneg
    have heq : arithmetic .successor [word a] = (do return .int (← fitting (a.toInt + 1))) := by
      simp only [arithmetic, hnatural]
      rfl
    rw [heq]
    exact checked_fitting _
  successor_negative hneg := by
    have hnatural : natural [word a] = .error (.notNatural a.toInt) := if_neg (by omega)
    simp only [arithmetic, hnatural]
    rfl
  divide := (divisions_divided a b).1
  modulo := (divisions_divided a b).2
  quotient hb hne := by
    rcases division_cases a b with ⟨hzero, -⟩ | ⟨heq, -⟩ | ⟨-, -, h⟩
    · exact absurd hzero hb
    · exact absurd heq hne
    · exact h
  overflow_text := rfl

/-- `2 ^ 63 - 1`, `1` and `-1` have a sum in one order and overflow in another, and `-2 ^ 63` and `2` have a quotient. -/
theorem integers_are_exact_reordered :
    let most : Int64 := Int64.maxValue
    arithmetic .add [.seq ([most, 1, -1].map word)] = .error .integerOverflow ∧
      arithmetic .add [.seq ([most, -1, 1].map word)] = .ok (word most) ∧
      ∃ q r, Truncated (-2 ^ 63) 2 q r ∧ arithmetic .divide [word Int64.minValue, word 2] = .ok (.int q) ∧
        arithmetic .modulo [word Int64.minValue, word 2] = .ok (.int r) := by
  intro most
  have hover := integers_are_exact [most, 1, -1] 0 0
  have hsum := integers_are_exact [most, -1, 1] Int64.minValue 2
  refine ⟨hover.add.overflow.mpr fun hall => ?_, (hsum.add.returns _).mpr ⟨?_, by decide⟩, ?_⟩
  · exact absurd (hall [most, 1] ⟨[-1], rfl⟩) (by decide)
  · intro ys hys
    rw [← List.mem_inits] at hys
    revert ys
    decide
  · exact hsum.quotient (by decide) (by decide)

/-! ## Powers -/

/-- The square root of `2 ^ 63` is between `3037000499` and `3037000500`. -/
theorem square_ne_two_pow (n : Nat) : n ^ 2 ≠ 2 ^ 63 := by
  intro h
  by_cases hn : n ≤ 3037000499
  · have := Nat.pow_le_pow_left hn 2
    omega
  · have := Nat.pow_le_pow_left (show 3037000500 ≤ n by omega) 2
    omega

/-- What repeated squaring keeps: a base of absolute value two or more is multiplied with a number other than zero, and with
any other base neither number grows. -/
def Steady (acc base : Int) : Prop :=
  (base.natAbs ≤ 1 ∧ acc.natAbs ≤ 1) ∨ (2 ≤ base.natAbs ∧ acc ≠ 0)

namespace Steady

variable {acc base : Int} {exponent : Nat}

theorem one (base : Int) : Steady 1 base := by
  by_cases h : base.natAbs ≤ 1
  · exact .inl ⟨h, by decide⟩
  · exact .inr ⟨by omega, by decide⟩

theorem mul (h : Steady acc base) : Steady (acc * base) base := by
  rcases h with ⟨hbase, hacc⟩ | ⟨hbase, hacc⟩
  · refine .inl ⟨hbase, ?_⟩
    rw [Int.natAbs_mul]
    exact Nat.mul_le_mul hacc hbase
  · exact .inr ⟨hbase, Int.mul_ne_zero hacc (by omega)⟩

theorem square (h : Steady acc base) : Steady acc (base * base) := by
  rcases h with ⟨hbase, hacc⟩ | ⟨hbase, hacc⟩
  · refine .inl ⟨?_, hacc⟩
    rw [Int.natAbs_mul]
    exact Nat.mul_le_mul hbase hbase
  · refine .inr ⟨?_, hacc⟩
    rw [Int.natAbs_mul]
    exact hbase.trans (Nat.le_mul_self _)

/-- From the second power on, the square of the base is not out of range unless the product is. -/
theorem bound (hbase : 2 ≤ base.natAbs) (hexp : 2 ≤ exponent)
    (hfits : fitsInt64 (acc * base ^ exponent) = true) : acc.natAbs * base.natAbs ^ 2 ≤ 2 ^ 63 :=
  calc acc.natAbs * base.natAbs ^ 2
      ≤ acc.natAbs * base.natAbs ^ exponent :=
        Nat.mul_le_mul_left _ (Nat.pow_le_pow_right (by omega) hexp)
    _ = (acc * base ^ exponent).natAbs := by rw [Int.natAbs_mul, Int.natAbs_pow]
    _ ≤ 2 ^ 63 := natAbs_le_of_fits hfits

theorem fits_mul (h : Steady acc base) (hexp : 2 ≤ exponent) (hfits : fitsInt64 (acc * base ^ exponent) = true) :
    fitsInt64 (acc * base) = true := by
  refine fits_of_natAbs_lt ?_
  rw [Int.natAbs_mul]
  rcases h with ⟨hbase, hacc⟩ | ⟨hbase, -⟩
  · have := Nat.mul_le_mul hacc hbase
    omega
  · have hbound := bound hbase hexp hfits
    have htwo : acc.natAbs * base.natAbs * 2 ≤ acc.natAbs * base.natAbs ^ 2 := by
      rw [Nat.pow_two, ← Nat.mul_assoc]
      exact Nat.mul_le_mul_left _ hbase
    omega

theorem fits_square (h : Steady acc base) (hexp : 2 ≤ exponent)
    (hfits : fitsInt64 (acc * base ^ exponent) = true) : fitsInt64 (base * base) = true := by
  refine fits_of_natAbs_lt ?_
  rw [Int.natAbs_mul, ← Nat.pow_two]
  rcases h with ⟨hbase, -⟩ | ⟨hbase, hacc⟩
  · have := Nat.pow_le_pow_left hbase 2
    omega
  · have hbound := bound hbase hexp hfits
    have hle : base.natAbs ^ 2 ≤ acc.natAbs * base.natAbs ^ 2 := Nat.le_mul_of_pos_left _ (by omega)
    have hne := square_ne_two_pow base.natAbs
    omega

end Steady

/-- A number on the way that fits if the result does may be checked first. -/
theorem fitting_bind {k n : Int} {f : Int → Result Int} (hk : fitsInt64 n = true → fitsInt64 k = true)
    (hf : fitsInt64 k = true → f k = fitting n) : (fitting k >>= f) = fitting n := by
  by_cases h : fitsInt64 k = true
  · rw [fitting_of_fits h]
    exact hf h
  · rw [fitting_of_not_fits h, fitting_of_not_fits fun hn => h (hk hn)]
    rfl

/-- Repeated squaring gives the exact product. -/
theorem powerTimes_eq {acc base : Int} {exponent : Nat} (h : Steady acc base) (hacc : fitsInt64 acc = true) :
    powerTimes acc base exponent = fitting (acc * base ^ exponent) := by
  fun_induction powerTimes acc base exponent with
  | case1 acc => rw [pow_zero, mul_one, fitting_of_fits hacc]
  | case2 => rw [pow_one]
  | case3 acc base exponent h0 h1 _ hodd ih =>
    -- the factor of the last bit goes over to `acc`, the others are taken in pairs
    have hpairs : acc * base ^ exponent = acc * base * (base * base) ^ (exponent / 2) := by
      conv_lhs => rw [show exponent = 2 * (exponent / 2) + 1 by omega]
      ring
    refine fitting_bind (h.fits_mul (by omega)) fun hmul => fitting_bind (h.fits_square (by omega)) fun _ => ?_
    rw [hpairs]
    exact ih (acc * base) (base * base) h.mul.square hmul
  | case4 acc base exponent h0 h1 _ heven ih =>
    have hpairs : acc * base ^ exponent = acc * (base * base) ^ (exponent / 2) := by
      conv_lhs => rw [show exponent = 2 * (exponent / 2) by omega]
      ring
    refine fitting_bind (h.fits_square (by omega)) fun _ => ?_
    rw [hpairs]
    exact ih acc (base * base) h.square hacc

theorem power_eq (base : Int) (exponent : Nat) : power base exponent = fitting (base ^ exponent) := by
  rw [power, powerTimes_eq (.one base) (by decide), one_mul]

/-- The rule of the power gives the exact power for an exponent that is not negative, and finds the exponent negative only if
it is. -/
structure ExactPower (base exponent : Int64) : Prop where
  exact : 0 ≤ exponent.toInt → Checked (arithmetic .power [word base, word exponent])
    (fitsInt64 (base.toInt ^ exponent.toInt.toNat) = true) (base.toInt ^ exponent.toInt.toNat)
  negative : ∀ n, arithmetic .power [word base, word exponent] = .error (.negativeExponent n) → exponent.toInt < 0

theorem power_checked (base exponent : Int64) (h0 : 0 ≤ exponent.toInt) (h : exponent.toInt < 2 ^ 32) :
    Checked (arithmetic .power [word base, word exponent])
      (fitsInt64 (base.toInt ^ exponent.toInt.toNat) = true) (base.toInt ^ exponent.toInt.toNat) := by
  have hrange : (exponent.toInt < 0 || maxExponent < exponent.toInt) = false := by
    simp only [Bool.or_eq_false_iff, decide_eq_false_iff_not]
    unfold maxExponent
    omega
  have heq : arithmetic .power [word base, word exponent] =
      (do return .int (← power base.toInt exponent.toInt.toNat)) := if_neg (by rw [hrange]; decide)
  rw [heq, power_eq]
  exact checked_fitting _

theorem power_refused (base exponent : Int64) (h : exponent.toInt < 0 ∨ 2 ^ 32 ≤ exponent.toInt) :
    arithmetic .power [word base, word exponent] = .error (.negativeExponent exponent.toInt) := by
  refine if_pos ?_
  simp only [Bool.or_eq_true, decide_eq_true_eq]
  unfold maxExponent
  omega

/-- The rule of the power is exact for exponents below `2 ^ 32`, and for no other: it takes those for negative. -/
theorem power_is_exact_iff (base exponent : Int64) :
    (ExactPower base exponent ↔ exponent.toInt < 2 ^ 32) ∧
      (arithmetic .power [word base, word exponent] = .error (.negativeExponent exponent.toInt) ↔
        exponent.toInt < 0 ∨ 2 ^ 32 ≤ exponent.toInt) := by
  by_cases h : exponent.toInt < 0 ∨ 2 ^ 32 ≤ exponent.toInt
  · have hrefused := power_refused base exponent h
    refine ⟨⟨fun hexact => ?_, fun hlt => ?_⟩, iff_of_true hrefused h⟩
    · have := hexact.negative _ hrefused
      omega
    · exact ⟨fun h0 => by omega, fun n _ => by omega⟩
  · have hchecked := power_checked base exponent (by omega) (by omega)
    have hne : ∀ n, arithmetic .power [word base, word exponent] ≠ .error (.negativeExponent n) := by
      intro n hn
      by_cases hfits : fitsInt64 (base.toInt ^ exponent.toInt.toNat) = true
      · rw [(hchecked.returns _).mpr ⟨hfits, rfl⟩] at hn
        cases hn
      · rw [hchecked.overflow.mpr hfits] at hn
        cases hn
    refine ⟨iff_of_true ⟨fun _ => hchecked, fun n hn => absurd hn (hne n)⟩ (by omega), iff_of_false (hne _) h⟩

/-- The power of one to `2 ^ 32` is one, and the rule finds its exponent negative. -/
theorem power_of_one_is_refused :
    arithmetic .power [.int 1, .int 4294967296] = .error (.negativeExponent 4294967296) ∧
      (1 : Int) ^ 4294967296 = 1 ∧ ¬ ExactPower 1 4294967296 := by
  have hrefused : arithmetic .power [.int 1, .int 4294967296] = .error (.negativeExponent 4294967296) := rfl
  refine ⟨hrefused, one_pow _, fun h => ?_⟩
  exact absurd (h.negative _ hrefused) (by decide)

end TermMachine.Rules
