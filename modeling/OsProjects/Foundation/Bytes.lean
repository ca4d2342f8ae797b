import Mathlib.Tactic

/-!
# Bytes in memory

A region of memory or of a disk is a function from offsets to bytes.  `word m w a` is the number
stored little-endian in the `w` bytes at offset `a`.

* `word_lt`, `testBit_word`: its range and its bits;
* `word_congr`: it depends on its own bytes only.

`leBytes w n` is the list of the `w` bytes of `n`, `leNat` the number of a list of bytes, and
`ofChunks` is a memory given by a few pieces.
-/

namespace OsProjects

/-- The contents of a region of memory, by offset. -/
abbrev Bytes := ℕ → UInt8

namespace Bytes

variable {m m' : Bytes} {w a : ℕ}

/-- The number in the `w` bytes at offset `a`, least significant byte first. -/
def word (m : Bytes) : ℕ → ℕ → ℕ
  | 0, _ => 0
  | w + 1, a => (m a).toNat + 256 * word m w (a + 1)

theorem word_lt (m : Bytes) (w a : ℕ) : m.word w a < 256 ^ w := by
  induction w generalizing a with
  | zero => simp [word]
  | succ w ih =>
    have hb := (m a).toNat_lt
    have hr := ih (a + 1)
    rw [word, pow_succ]
    omega

theorem word_congr (h : ∀ i < w, m (a + i) = m' (a + i)) : m.word w a = m'.word w a := by
  induction w generalizing a with
  | zero => rfl
  | succ w ih =>
    have h0 : m a = m' a := h 0 (by omega)
    rw [word, word, h0, ih fun i hi => ?_]
    rw [Nat.add_assoc, Nat.add_comm 1]
    exact h (i + 1) (by omega)

/-- Bit `s` of a stored number is bit `s % 8` of its byte `s / 8`. -/
theorem testBit_word {s : ℕ} (hs : s < 8 * w) :
    (m.word w a).testBit s = (m (a + s / 8)).toNat.testBit (s % 8) := by
  induction w generalizing a s with
  | zero => omega
  | succ w ih =>
    have hb : (m a).toNat < 2 ^ 8 := (m a).toNat_lt
    rw [word, Nat.add_comm, show (256 : ℕ) = 2 ^ 8 from rfl, Nat.testBit_two_pow_mul_add _ hb]
    split
    · rename_i h
      rw [Nat.div_eq_of_lt h, Nat.mod_eq_of_lt h, Nat.add_zero]
    · rename_i h
      obtain ⟨r, rfl⟩ := Nat.exists_eq_add_of_le (not_lt.1 h)
      rw [Nat.add_sub_cancel_left, ih (by omega)]
      have hdiv : (8 + r) / 8 = r / 8 + 1 := by omega
      have hmod : (8 + r) % 8 = r % 8 := by omega
      rw [hdiv, hmod, Nat.add_assoc, Nat.add_comm 1]

/-- The `w` bytes of a number, least significant byte first. -/
def leBytes : ℕ → ℕ → List UInt8
  | 0, _ => []
  | w + 1, n => UInt8.ofNat n :: leBytes w (n / 256)

@[simp] theorem length_leBytes (w n : ℕ) : (leBytes w n).length = w := by
  induction w generalizing n with
  | zero => rfl
  | succ w ih => simp [leBytes, ih]

/-- The number whose bytes are those of a list, least significant byte first. -/
def leNat : List UInt8 → ℕ
  | [] => 0
  | b :: bs => b.toNat + 256 * leNat bs

theorem leNat_append (bs cs : List UInt8) :
    leNat (bs ++ cs) = leNat bs + 256 ^ bs.length * leNat cs := by
  induction bs with
  | nil => simp [leNat]
  | cons b bs ih =>
    rw [List.cons_append, leNat, ih, leNat, List.length_cons, pow_succ']
    ring

theorem leNat_lt (bs : List UInt8) : leNat bs < 256 ^ bs.length := by
  induction bs with
  | nil => simp [leNat]
  | cons b bs ih =>
    have hb := b.toNat_lt
    rw [leNat, List.length_cons, pow_succ']
    omega

theorem leNat_leBytes (w n : ℕ) : leNat (leBytes w n) = n % 256 ^ w := by
  induction w generalizing n with
  | zero => simp [leBytes, leNat, Nat.mod_one]
  | succ w ih =>
    rw [leBytes, leNat, ih, pow_succ', Nat.mod_mul, UInt8.toNat_ofNat']

/-- A memory that is zero but for some pieces, each given with its offset, the last one first. -/
def ofChunks : List (ℕ × List UInt8) → Bytes
  | [], _ => 0
  | (base, bs) :: cs, o =>
      if base ≤ o then if o < base + bs.length then bs.getD (o - base) 0 else 0
      else ofChunks cs o

end Bytes

end OsProjects
