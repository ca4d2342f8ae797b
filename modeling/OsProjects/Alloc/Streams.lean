import Mathlib.Dynamics.PeriodicPts.Lemmas
import OsProjects.Alloc.Rand

/-!
# Streams of the generator

The steps of `xv6_rand` are linear over xor, and the only word other than `0` that the reduction to
31 bits takes to `0` comes from a state that has bit 31 set.  So the generator is injective on the
states below `2^31`, which it does not leave: two streams never merge, and each returns to its seed
(`streams_apart`).
-/

namespace OsProjects.Alloc

/-- What the `n`-th call of `xv6_rand` returns after `xv6_srand(seed)`, an `int`. -/
def nthRand (s : Kmem) (seed : BitVec 32) (n : ℕ) : ℤ := (callRand^[n] (xv6Srand seed s)).rand.toInt

theorem xorshift_xor (x y : BitVec 32) : xorshift (x ^^^ y) = xorshift x ^^^ xorshift y := by
  simp only [xorshift]
  rw [Xorshift.xor_shiftLeft_xor 13 x y, Xorshift.xor_ushiftRight_xor 17,
    Xorshift.xor_shiftLeft_xor 5]

/-- The reduction to 31 bits is linear as well. -/
theorem xv6Rand_xor (x y : BitVec 32) : xv6Rand (x ^^^ y) = xv6Rand x ^^^ xv6Rand y := by
  rw [xv6Rand_eq, xv6Rand_eq, xv6Rand_eq, xorshift_xor]
  apply BitVec.eq_of_toNat_eq
  simp only [BitVec.toNat_umod, BitVec.toNat_xor]
  exact Nat.xor_mod_two_pow (n := 31)

/-- The states between two calls. -/
abbrev Reduced := { x : BitVec 32 // x.toNat < 2 ^ 31 }

instance : Finite Reduced := by
  apply Finite.of_injective fun x : Reduced => (⟨x.1.toNat, x.2⟩ : Fin (2 ^ 31))
  intro x y h
  have hval : x.1.toNat = y.1.toNat := congrArg (fun i : Fin (2 ^ 31) => i.val) h
  exact Subtype.ext (BitVec.eq_of_toNat_eq hval)

theorem xv6Rand_lt (x : BitVec 32) : (xv6Rand x).toNat < 2 ^ 31 := by
  rw [xv6Rand_eq, BitVec.toNat_umod]
  exact Nat.mod_lt _ (by decide)

/-- A call from such a state. -/
def stepRand (x : Reduced) : Reduced := ⟨xv6Rand x.1, xv6Rand_lt x.1⟩

/-- **One call** does not merge states. -/
theorem stepRand_injective : Function.Injective stepRand := by
  intro x y h
  have heq : xv6Rand x.1 = xv6Rand y.1 := congrArg Subtype.val h
  have hzero : xv6Rand (x.1 ^^^ y.1) = 0 := by
    rw [xv6Rand_xor, heq]
    exact BitVec.xor_self
  apply Subtype.ext
  rcases xv6Rand_eq_zero_iff.1 hzero with h0 | hstuck
  · exact BitVec.xor_eq_zero_iff.1 h0
  -- The other state has bit 31, which neither `x` nor `y` has.
  · have hlt : (x.1 ^^^ y.1).toNat < 2 ^ 31 := by
      rw [BitVec.toNat_xor]
      exact Nat.xor_lt_two_pow x.2 y.2
    rw [hstuck] at hlt
    exact absurd hlt (by decide)

theorem stepRand_iterate (x : Reduced) (n : ℕ) : (stepRand^[n] x).1 = xv6Rand^[n] x.1 := by
  induction n generalizing x with
  | zero => rfl
  | succ n ih => rw [Function.iterate_succ_apply, ih, Function.iterate_succ_apply, stepRand]

theorem rand_of_stepRand (s : Kmem) (x : Reduced) (n : ℕ) :
    (callRand^[n] (xv6Srand x.1 s)).rand = (stepRand^[n] x).1 := by
  rw [callRand_rand, stepRand_iterate]
  rfl

/-- **Streams apart.**  Two seeds below `2^31` have different results at every call, since a call is
injective on the states below `2^31`; and each stream repeats from its seed on. -/
theorem streams_apart (s : Kmem) {x y : BitVec 32} (hx : x.toNat < 2 ^ 31) (hy : y.toNat < 2 ^ 31)
    (hne : x ≠ y) : (∀ n, 1 ≤ n → nthRand s x n ≠ nthRand s y n) ∧
      Set.InjOn xv6Rand {x | x.toNat < 2 ^ 31} ∧
      ∃ p, 0 < p ∧ (callRand^[p] (xv6Srand x s)).rand = x ∧
        ∀ n, nthRand s x (n + p) = nthRand s x n := by
  refine ⟨fun n _ heq => hne ?_, fun a ha b hb hab => ?_, ?_⟩
  · have hrand := BitVec.eq_of_toInt_eq heq
    rw [rand_of_stepRand s ⟨x, hx⟩, rand_of_stepRand s ⟨y, hy⟩] at hrand
    exact congrArg Subtype.val ((stepRand_injective.iterate n) (Subtype.ext hrand))
  · have heq : stepRand ⟨a, ha⟩ = stepRand ⟨b, hb⟩ := Subtype.ext hab
    exact congrArg Subtype.val (stepRand_injective heq)
  · obtain ⟨p, hp, hperiod⟩ := stepRand_injective.mem_periodicPts ⟨x, hx⟩
    refine ⟨p, hp, ?_, fun n => ?_⟩
    · rw [rand_of_stepRand s ⟨x, hx⟩, hperiod.eq]
    · rw [nthRand, nthRand, rand_of_stepRand s ⟨x, hx⟩, rand_of_stepRand s ⟨x, hx⟩,
        Function.iterate_add_apply, hperiod.eq]

/-- The streams of the seeds 1 and 2. -/
theorem streams_apart_one_two : nthRand (.boot fun _ => 0) 1 5 ≠ nthRand (.boot fun _ => 0) 2 5 :=
  (streams_apart (.boot fun _ => 0) (by decide) (by decide) (by decide)).1 5 (by decide)

end OsProjects.Alloc
