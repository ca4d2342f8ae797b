import Mathlib.Tactic

/-!
# Xor with a shifted copy

The steps `x ^= x << k` and `x ^= x >> k` of an xorshift generator are linear over xor
(`xor_shiftLeft_xor`, `xor_ushiftRight_xor`) and lose no information: both are injective for
`0 < k`, at every width.
-/

namespace OsProjects.Xorshift

variable {w k : ℕ} {x y : BitVec w}

theorem xor_shiftLeft_xor (k : ℕ) (x y : BitVec w) : (x ^^^ y) ^^^ ((x ^^^ y) <<< k) =
    (x ^^^ (x <<< k)) ^^^ (y ^^^ (y <<< k)) := by
  rw [BitVec.shiftLeft_xor_distrib]
  ac_rfl

theorem xor_ushiftRight_xor (k : ℕ) (x y : BitVec w) : (x ^^^ y) ^^^ ((x ^^^ y) >>> k) =
    (x ^^^ (x >>> k)) ^^^ (y ^^^ (y >>> k)) := by
  rw [BitVec.ushiftRight_xor_distrib]
  ac_rfl

/-- Only `0` is its own shift. -/
theorem eq_zero_of_shiftLeft (hk : 0 < k) (h : x <<< k = x) : x = 0#w := by
  have hiter : ∀ n, x <<< (k * n) = x := by
    intro n
    induction n with
    | zero => simp
    | succ n ih => rw [Nat.mul_succ, BitVec.shiftLeft_add, ih, h]
  rw [← hiter w]
  exact BitVec.shiftLeft_eq_zero (Nat.le_mul_of_pos_left w hk)

theorem eq_zero_of_ushiftRight (hk : 0 < k) (h : x >>> k = x) : x = 0#w := by
  have hiter : ∀ n, x >>> (k * n) = x := by
    intro n
    induction n with
    | zero => simp
    | succ n ih => rw [Nat.mul_succ, BitVec.shiftRight_add, ih, h]
  rw [← hiter w]
  exact BitVec.ushiftRight_eq_zero (Nat.le_mul_of_pos_left w hk)

/-- Two words with the same xor step differ by the xor of their shifts. -/
theorem xor_eq_of_step {a b : BitVec w} (h : x ^^^ a = y ^^^ b) : a ^^^ b = x ^^^ y := by
  calc a ^^^ b = x ^^^ a ^^^ x ^^^ b := by
        rw [BitVec.xor_comm x a, BitVec.xor_assoc a x x, BitVec.xor_self, BitVec.xor_zero]
    _ = y ^^^ b ^^^ x ^^^ b := by rw [h]
    _ = x ^^^ y := by
        rw [BitVec.xor_assoc, BitVec.xor_comm x b, BitVec.xor_assoc, ← BitVec.xor_assoc b b x,
          BitVec.xor_self, BitVec.zero_xor, BitVec.xor_comm]

theorem xor_shiftLeft_injective (hk : 0 < k) :
    Function.Injective fun x : BitVec w => x ^^^ (x <<< k) := by
  intro x y h
  have hxor : (x ^^^ y) <<< k = x ^^^ y := by
    rw [BitVec.shiftLeft_xor_distrib]
    exact xor_eq_of_step h
  exact BitVec.xor_eq_zero_iff.1 (eq_zero_of_shiftLeft hk hxor)

theorem xor_ushiftRight_injective (hk : 0 < k) :
    Function.Injective fun x : BitVec w => x ^^^ (x >>> k) := by
  intro x y h
  have hxor : (x ^^^ y) >>> k = x ^^^ y := by
    rw [BitVec.ushiftRight_xor_distrib]
    exact xor_eq_of_step h
  exact BitVec.xor_eq_zero_iff.1 (eq_zero_of_ushiftRight hk hxor)

end OsProjects.Xorshift
