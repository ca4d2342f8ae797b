import OsProjects.Alloc.Model
import OsProjects.Foundation.Loop
import OsProjects.Foundation.Xorshift

/-!
# The generator of part_b

The xorshift steps of `xv6_rand` are injective, but the state keeps only the low 31 bits of their
result.  So there is one state other than `0` after which the generator is stuck at `0`, the one
whose result is the bit that is dropped; and it has that bit set itself, so that only `xv6_srand`
can bring it about (`never_stuck_iff`).
-/

namespace OsProjects.Alloc

/-- `xv6_srand` -/
def xv6Srand (seed : BitVec 32) (s : Kmem) : Kmem := { s with rand := seed }

/-- A call of `xv6_rand`. -/
def callRand (s : Kmem) : Kmem := { s with rand := xv6Rand s.rand }

/-- The three xor steps of `xv6_rand`. -/
def xorshift (x : BitVec 32) : BitVec 32 :=
  let x := x ^^^ (x <<< 13)
  let x := x ^^^ (x >>> 17)
  x ^^^ (x <<< 5)

theorem xv6Rand_eq (x : BitVec 32) : xv6Rand x = xorshift x % (2147483647 + 1) := rfl

theorem xorshift_injective : Function.Injective xorshift :=
  (Xorshift.xor_shiftLeft_injective (by decide)).comp
    ((Xorshift.xor_ushiftRight_injective (by decide)).comp
      (Xorshift.xor_shiftLeft_injective (by decide)))

/-- The state with the result `0x80000000`. -/
def stuckSeed : BitVec 32 := 0x88004000

theorem xorshift_stuckSeed : xorshift stuckSeed = 0x80000000 := by decide

theorem mod_eq_zero_iff {x : BitVec 32} :
    x % (2147483647 + 1) = 0 ↔ x = 0 ∨ x = 0x80000000 := by
  simp only [← BitVec.toNat_inj, BitVec.toNat_umod]
  have hlt := x.isLt
  change x.toNat % 2147483648 = 0 ↔ x.toNat = 0 ∨ x.toNat = 2147483648
  omega

/-- **One call** ends in `0` from two states only. -/
theorem xv6Rand_eq_zero_iff {x : BitVec 32} : xv6Rand x = 0 ↔ x = 0 ∨ x = stuckSeed := by
  rw [xv6Rand_eq, mod_eq_zero_iff, ← xorshift_stuckSeed, xorshift_injective.eq_iff]
  exact or_congr_left (xorshift_injective.eq_iff' (by decide))

/-- The state after a call is not the stuck one. -/
theorem xv6Rand_ne_stuckSeed (x : BitVec 32) : xv6Rand x ≠ stuckSeed := by
  intro h
  have hlt : (xv6Rand x).toNat < 2147483648 := by
    rw [xv6Rand_eq, BitVec.toNat_umod]
    exact Nat.mod_lt _ (by decide)
  rw [h] at hlt
  exact absurd hlt (by decide)

theorem callRand_rand (s : Kmem) (n : ℕ) : (callRand^[n] s).rand = xv6Rand^[n] s.rand := by
  induction n generalizing s with
  | zero => rfl
  | succ n ih => rw [Function.iterate_succ_apply, ih, Function.iterate_succ_apply, callRand]

/-- **The generator** seeded with anything but `0` and the stuck state never comes to `0`. -/
theorem never_stuck_iff (s : Kmem) {seed : BitVec 32} (hseed : seed ≠ 0) :
    (∀ n, (callRand^[n] (xv6Srand seed s)).rand ≠ 0) ↔ seed ≠ 0x88004000 := by
  simp only [callRand_rand, xv6Srand]
  constructor
  · rintro h rfl
    exact h 1 (xv6Rand_eq_zero_iff.2 (.inr rfl))
  · intro hne n
    suffices xv6Rand^[n] seed ≠ 0 ∧ xv6Rand^[n] seed ≠ stuckSeed from this.1
    induction n with
    | zero => exact ⟨hseed, hne⟩
    | succ n ih =>
      rw [Function.iterate_succ_apply']
      exact ⟨fun h => (xv6Rand_eq_zero_iff.1 h).elim ih.1 ih.2, xv6Rand_ne_stuckSeed _⟩

/-- A thousand calls from the default seed. -/
theorem never_stuck_one : (callRand^[1000] (xv6Srand 1 (.boot fun _ => 0))).rand ≠ 0 :=
  (never_stuck_iff (.boot fun _ => 0) (by decide)).2 (by decide) 1000

/-- One seed leads to `0` at once. -/
theorem not_never_stuck : ¬∀ (s : Kmem) (seed : BitVec 32), seed ≠ 0 →
    ∀ n, (callRand^[n] (xv6Srand seed s)).rand ≠ 0 :=
  fun h => h (.boot fun _ => 0) 0x88004000 (by decide) 1 (by decide)

/-- From `0` the generator does not move, and `kalloc` takes the head of the free list. -/
theorem kalloc_of_rand_zero {s t : Kmem} {r : ℕ} (hs : s.rand = 0)
    (h : PartB.kalloc s = .ok (r, t)) : t.rand = 0 ∧ r = s.freelist := by
  have h0 : xv6Rand s.rand = 0 := by rw [hs]; decide
  rw [PartB.kalloc, h0] at h
  obtain ⟨n, -, h⟩ := bind_ok.1 h
  split at h
  · cases h
  have hy : ((0 : BitVec 32).toInt.tmod (n : ℤ)).toNat = 0 := by simp
  dsimp only at h
  rw [hy] at h
  obtain ⟨r', hr', h⟩ := bind_ok.1 h
  obtain rfl : s.freelist = r' := Except.ok.inj hr'
  split at h
  swap
  · obtain ⟨rfl, rfl⟩ := Prod.mk.inj (pure_ok.1 h)
    exact ⟨rfl, by simp_all⟩
  obtain ⟨u, hu, h⟩ := bind_ok.1 h
  obtain ⟨v, hv, h⟩ := bind_ok.1 h
  obtain ⟨rfl, rfl⟩ := Prod.mk.inj (pure_ok.1 h)
  refine ⟨?_, rfl⟩
  have hu' : u.rand = 0 := by
    rw [logFrame] at hu
    split at hu
    · obtain rfl := Except.ok.inj hu
      rfl
    · cases hu
  rw [takeOut] at hv
  split at hv
  · obtain rfl := Except.ok.inj hv
    exact hu'
  obtain ⟨rr, -, hv⟩ := bind_ok.1 hv
  split at hv
  · cases hv
  · obtain rfl := pure_ok.1 hv
    exact hu'

end OsProjects.Alloc
