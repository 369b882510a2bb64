import Mathlib.Data.Int.CardIntervalMod
import Mathlib.Data.List.Perm.Basic
import TermMachine.Sequence

/-!
# Choices are fair

A draw moves the state on by an odd number and scrambles it. Neither step loses anything: an odd number has an inverse
modulo 2^64, so that the states come round only after all of them were passed, and a word is recovered from its exclusive
or with itself shifted to the right, since the bits from the top on are those of the word. So from whatever state a stream
starts, the first 2^64 numbers drawn are all the words, each of them once, in some order.

An index is the remainder of such a number. How often it comes up in 2^64 draws is therefore how many words leave that
remainder, and any two remainders are left equally often, up to one.

Proved:
* `scramble_injective`: the state is recovered from the number that is drawn.
* `draws_perm`: the numbers drawn in one period are the words in another order.
* `count_indices`: how often an index is drawn in one period.
* `choices_are_fair`: all numbers are drawn once in a period, indices equally often, and every element can be picked.
-/

namespace TermMachine

namespace ChoiceStream

/-! ## Draws -/

def period : Nat := 2 ^ 64

def after (s : ChoiceStream) : Nat → ChoiceStream
  | 0 => s
  | n + 1 => (s.after n).next.2

def draws (s : ChoiceStream) (n : Nat) : List UInt64 := (List.range n).map fun k => (s.after k).next.1

def indices (s : ChoiceStream) (count n : Nat) : List Nat := (List.range n).map fun k => ((s.after k).nextIndex count).1

theorem state_after (s : ChoiceStream) (n : Nat) : (s.after n).state = s.state + UInt64.ofNat n * increment := by
  induction n with
  | zero => simp [after]
  | succ n ih =>
    have hstep : (s.after (n + 1)).state = (s.after n).state + increment := rfl
    rw [hstep, ih, UInt64.ofNat_add, UInt64.add_mul, UInt64.ofNat_one, UInt64.one_mul, UInt64.add_assoc]

/-! ## Nothing is lost -/

/-- A factor with an inverse loses nothing. -/
theorem mul_injective {factor : UInt64} (inverse : UInt64) (h : factor * inverse = 1) : Function.Injective (· * factor) := by
  intro v w heq
  have hback : v * factor * inverse = w * factor * inverse := congrArg (· * inverse) heq
  rwa [UInt64.mul_assoc, UInt64.mul_assoc, h, UInt64.mul_one, UInt64.mul_one] at hback

/-- Two words that agree after the shift differ by a word that the shift leaves as it is, and that is zero. -/
theorem xorShift_injective {shift : UInt64} (h : 0 < shift.toNat % 64) :
    Function.Injective fun v : UInt64 => v ^^^ (v >>> shift) := by
  intro v w heq
  have hsame : v ^^^ w = (v ^^^ w) >>> shift := by
    rw [UInt64.shiftRight_xor, ← UInt64.xor_eq_zero_iff]
    have hzero : (v ^^^ v >>> shift) ^^^ (w ^^^ w >>> shift) = 0 := UInt64.xor_eq_zero_iff.mpr heq
    rw [← hzero]
    ac_rfl
  have hdiv : (v ^^^ w).toNat = (v ^^^ w).toNat / 2 ^ (shift.toNat % 64) := by
    rw [← Nat.shiftRight_eq_div_pow, ← UInt64.toNat_shiftRight, ← hsame]
  have hpow : 1 < 2 ^ (shift.toNat % 64) := Nat.one_lt_two_pow (by omega)
  have hnone : (v ^^^ w).toNat = 0 := by
    by_contra hne
    have hlt := Nat.div_lt_self (Nat.pos_of_ne_zero hne) hpow
    omega
  exact UInt64.xor_eq_zero_iff.mp (UInt64.toNat_inj.mp hnone)

theorem scramble_injective : Function.Injective scramble := by
  have hfirst : Function.Injective (· * (0xBF58476D1CE4E5B9 : UInt64)) :=
    mul_injective 0x96DE1B173F119089 (by decide)
  have hsecond : Function.Injective (· * (0x94D049BB133111EB : UInt64)) :=
    mul_injective 0x319642B2D24D8EC3 (by decide)
  intro v w heq
  have h₁ := xorShift_injective (by decide) heq
  have h₂ := xorShift_injective (by decide) (hsecond h₁)
  exact xorShift_injective (by decide) (hfirst h₂)

/-- The states of one period are different. -/
theorem state_after_injective (s : ChoiceStream) {j k : Nat} (hj : j < period) (hk : k < period)
    (h : (s.after j).state = (s.after k).state) : j = k := by
  have hincrement : Function.Injective (· * increment) := mul_injective 0xF1DE83E19937733D (by decide)
  rw [state_after, state_after, UInt64.add_right_inj] at h
  have hwords := congrArg UInt64.toNat (hincrement h)
  rwa [UInt64.toNat_ofNat_of_lt' hj, UInt64.toNat_ofNat_of_lt' hk] at hwords

/-! ## One period -/

def words : List UInt64 := (List.range period).map UInt64.ofNat

theorem mem_words (w : UInt64) : w ∈ words :=
  List.mem_map.mpr ⟨w.toNat, List.mem_range.mpr w.toNat_lt, UInt64.ofNat_toNat⟩

theorem nodup_draws (s : ChoiceStream) : (s.draws period).Nodup := by
  refine List.Nodup.map_on (fun j hj k hk h => ?_) List.nodup_range
  have hstates : (s.after j).state + increment = (s.after k).state + increment := scramble_injective h
  exact state_after_injective s (List.mem_range.mp hj) (List.mem_range.mp hk) ((UInt64.add_left_inj _).mp hstates)

theorem draws_perm (s : ChoiceStream) : (s.draws period).Perm words := by
  have hall : (s.draws period).Subperm words := (nodup_draws s).subperm fun w _ => mem_words w
  exact hall.perm_of_length_le (by simp [words, draws])

/-! ## Indices -/

theorem indices_eq_map (s : ChoiceStream) (count n : Nat) : s.indices count n = (s.draws n).map (·.toNat % count) := by
  rw [indices, draws, List.map_map]
  rfl

theorem indices_perm (s : ChoiceStream) (count : Nat) :
    (s.indices count period).Perm ((List.range period).map (· % count)) := by
  have hperm := (draws_perm s).map (·.toNat % count)
  rw [← indices_eq_map, words, List.map_map] at hperm
  refine hperm.trans (.of_eq (List.map_congr_left fun n hn => ?_))
  rw [Function.comp_apply, UInt64.toNat_ofNat_of_lt' (List.mem_range.mp hn)]

/-- The words below the greatest multiple of `count` leave every remainder equally often, those above it each another. -/
theorem count_indices (s : ChoiceStream) {count index : Nat} (h : index < count) :
    (s.indices count period).count index = period / count + if index < period % count then 1 else 0 := by
  have hmod : index % count = index := Nat.mod_eq_of_lt h
  have hcount := Nat.count_modEq_card period (Nat.zero_lt_of_lt h) index
  rw [hmod] at hcount
  rw [(indices_perm s count).count_eq, List.count, List.countP_map, ← hcount, Nat.count]
  refine List.countP_congr fun n _ => ?_
  simp [Nat.ModEq, hmod]

theorem mem_indices (s : ChoiceStream) {count index : Nat} (h : index < count) (hcount : count ≤ period) :
    index ∈ s.indices count period := by
  rw [(indices_perm s count).mem_iff]
  exact List.mem_map.mpr ⟨index, List.mem_range.mpr (by omega), Nat.mod_eq_of_lt h⟩

end ChoiceStream

/-! ## Picking -/

namespace Sequence

open ChoiceStream

theorem pick_eq_some {items : List Term} (hne : items ≠ []) (s : ChoiceStream) :
    pick items s = some (get items (s.nextIndex items.length).1, s.next.2) := by
  unfold pick
  rw [if_neg (by simpa using hne)]
  rfl

end Sequence

namespace ChoiceStream

open Sequence

structure Fair (s : ChoiceStream) : Prop where
  /-- In one period no number is drawn twice. -/
  distinct : (s.draws period).Nodup
  /-- Every number is drawn once. -/
  once : ∀ w : UInt64, (s.draws period).count w = 1
  below : ∀ count, 0 < count → (s.nextIndex count).1 < count
  /-- In one period no index is drawn more than once oftener than another. -/
  balanced : ∀ count i j, i < count → j < count →
    (s.indices count period).count i ≤ (s.indices count period).count j + 1
  /-- An element is picked from a row that is not empty. -/
  picks : ∀ items ≠ [], ∃ e ∈ items, pick items s = some (e, s.next.2)
  /-- Each of them is, wherever it stands, after fewer draws than there are in a period. -/
  reaches : ∀ (items : List Term) (index : Fin items.length), items.length ≤ period →
    ∃ n < period, pick items (s.after n) = some (items.get index, s.after (n + 1))

/-- Every stream is fair, whatever state it is in: that of every seed, after any number of draws. -/
theorem choices_are_fair (s : ChoiceStream) : Fair s where
  distinct := nodup_draws s
  once w := List.count_eq_one_of_mem (nodup_draws s) ((draws_perm s).mem_iff.mpr (mem_words w))
  below _ hcount := nextIndex_lt s hcount
  balanced count i j hi hj := by
    rw [count_indices s hi, count_indices s hj]
    split <;> omega
  picks items hne := by
    have hindex := nextIndex_lt s (List.length_pos_iff.mpr hne)
    refine ⟨_, List.getElem_mem hindex, ?_⟩
    rw [pick_eq_some hne, get_of_getElem? (List.getElem?_eq_getElem hindex)]
  reaches items index hlength := by
    have hne : items ≠ [] := List.ne_nil_of_length_pos (Nat.zero_lt_of_lt index.isLt)
    obtain ⟨n, hn, hdrawn⟩ := List.mem_map.mp (mem_indices s index.isLt hlength)
    refine ⟨n, List.mem_range.mp hn, ?_⟩
    rw [pick_eq_some hne, hdrawn, get_of_getElem? (List.getElem?_eq_getElem index.isLt)]
    rfl

/-- From the stream of the seed zero, one of two booleans is drawn as often as the other up to one, and each can be picked. -/
theorem choices_are_fair_booleans :
    let s := ofSeed 0
    let items : List Term := [.bool false, .bool true]
    (s.indices 2 period).count 0 ≤ (s.indices 2 period).count 1 + 1 ∧
      (∃ n < period, pick items (s.after n) = some (.bool false, s.after (n + 1))) ∧
      ∃ n < period, pick items (s.after n) = some (.bool true, s.after (n + 1)) := by
  intro s items
  have hfair := choices_are_fair s
  have hlength : items.length ≤ period := by decide
  exact ⟨hfair.balanced 2 0 1 (by decide) (by decide), hfair.reaches items ⟨0, by decide⟩ hlength,
    hfair.reaches items ⟨1, by decide⟩ hlength⟩

end ChoiceStream

end TermMachine
