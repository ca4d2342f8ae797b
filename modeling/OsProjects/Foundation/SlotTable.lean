import Mathlib.Data.List.Nodup
import Mathlib.Data.Nat.Notation
import Mathlib.Order.Basic
import Mathlib.Tactic.Common

/-!
# Tables of slots

A table is a list of slots, each empty or with a value under a key.  A value is put into the first
empty slot, or into a new one at the end; a slot is found by the first key that matches.  If a key
is put only where it is not yet, such a table is a finite map: `lookup_put`, `lookup_clear`.
-/

namespace OsProjects

universe u v

/-- Slots that are empty or hold a value under a key. -/
abbrev SlotTable (κ : Type u) (ν : Type v) := List (Option (κ × ν))

namespace SlotTable

variable {κ : Type u} {ν : Type v} {t : SlotTable κ ν} {k k' : κ} {x : ν} {i : ℕ}

/-- The keys that are in the table. -/
def keys (t : SlotTable κ ν) : List κ := t.filterMap (Option.map Prod.fst)

/-- The first empty slot, or the end. -/
def free : SlotTable κ ν → ℕ
  | [] => 0
  | none :: _ => 0
  | some _ :: t => free t + 1

/-- A value goes into the first empty slot. -/
def put (k : κ) (x : ν) : SlotTable κ ν → SlotTable κ ν
  | [] => [some (k, x)]
  | none :: t => some (k, x) :: t
  | some e :: t => some e :: put k x t

@[simp] theorem keys_nil : keys ([] : SlotTable κ ν) = [] := rfl
@[simp] theorem keys_none : keys (none :: t) = keys t := rfl
@[simp] theorem keys_some {e : κ × ν} : keys (some e :: t) = e.1 :: keys t := rfl

theorem keys_put : (keys (put k x t)).Perm (k :: keys t) := by
  induction t with
  | nil => exact .refl _
  | cons e t ih =>
    cases e with
    | none => exact .refl _
    | some e => exact (ih.cons e.1).trans (.swap k e.1 (keys t))

theorem free_le : free t ≤ t.length := by
  induction t with
  | nil => exact Nat.le_refl _
  | cons e t ih =>
    cases e with
    | none => exact Nat.zero_le _
    | some e => exact Nat.succ_le_succ ih

/-- Where the value goes. -/
theorem put_eq : put k x t = t.take (free t) ++ some (k, x) :: t.drop (free t + 1) := by
  induction t with
  | nil => rfl
  | cons e t ih =>
    cases e with
    | none => rfl
    | some e =>
      rw [put, ih]
      rfl

theorem free_eq : free t = (t.findIdx? Option.isNone).getD t.length := by
  induction t with
  | nil => rfl
  | cons e t ih =>
    rw [List.findIdx?_cons]
    cases e with
    | none => rfl
    | some e =>
      rw [free, ih]
      cases t.findIdx? Option.isNone <;> rfl

theorem keys_set_sublist : (keys (t.set i none)).Sublist (keys t) := by
  induction t generalizing i with
  | nil => exact .refl _
  | cons e t ih =>
    cases i with
    | zero =>
      cases e with
      | none => exact .refl _
      | some e => exact List.sublist_cons_self _ _
    | succ i =>
      cases e with
      | none => exact ih
      | some e => exact ih.cons_cons e.1

variable [DecidableEq κ]

/-- The slot has this key. -/
def holds (k : κ) : Option (κ × ν) → Bool
  | none => false
  | some e => e.1 = k

/-- The value under a key. -/
def lookup (k : κ) : SlotTable κ ν → Option ν
  | [] => none
  | none :: t => lookup k t
  | some e :: t => if e.1 = k then some e.2 else lookup k t

theorem lookup_eq_none_iff : lookup k t = none ↔ k ∉ keys t := by
  induction t with
  | nil => simp [lookup]
  | cons e t ih =>
    cases e with
    | none => exact ih
    | some e =>
      rw [lookup, keys_some, List.mem_cons, not_or, ← ih]
      split
      · rename_i h
        simp [h]
      · rename_i h
        exact ⟨fun hnone => ⟨fun heq => h heq.symm, hnone⟩, fun hnone => hnone.2⟩

/-- The first slot with the key has the value. -/
theorem lookup_eq_findIdx : lookup k t =
    (t.findIdx? (holds k)).bind fun i => (t.getD i none).map Prod.snd := by
  induction t with
  | nil => rfl
  | cons e t ih =>
    rw [List.findIdx?_cons]
    cases e with
    | none =>
      rw [lookup, ih]
      cases t.findIdx? (holds k) <;> rfl
    | some e =>
      rw [lookup]
      by_cases h : e.1 = k
      · simp [holds, h]
      · rw [if_neg h, ih, if_neg (by simpa [holds] using h)]
        cases t.findIdx? (holds k) <;> rfl

/-! ### Putting -/

theorem lookup_put (h : lookup k t = none) :
    lookup k' (put k x t) = if k' = k then some x else lookup k' t := by
  induction t with
  | nil => simp only [put, lookup, eq_comm]
  | cons e t ih =>
    cases e with
    | none =>
      rw [put, lookup, lookup]
      by_cases heq : k = k'
      · rw [if_pos heq, if_pos heq.symm]
      · rw [if_neg heq, if_neg fun h => heq h.symm]
    | some e =>
      rw [lookup] at h
      split at h
      · cases h
      · rename_i hne
        rw [put, lookup, lookup, ih h]
        by_cases heq : e.1 = k'
        · rw [if_pos heq, if_pos heq, if_neg fun hk => hne (heq.trans hk)]
        · rw [if_neg heq, if_neg heq]

theorem mem_of_lookup (h : lookup k t = some x) : some (k, x) ∈ t := by
  induction t with
  | nil => cases h
  | cons e t ih =>
    cases e with
    | none => exact List.mem_cons_of_mem _ (ih h)
    | some e =>
      rw [lookup] at h
      split at h
      · rename_i hk
        rw [← Option.some.inj h, ← hk]
        exact List.mem_cons_self
      · exact List.mem_cons_of_mem _ (ih h)

/-- A slot is found if the key is there, and it has its value. -/
theorem findIdx?_eq_none_iff : t.findIdx? (holds k) = none ↔ lookup k t = none := by
  induction t with
  | nil => exact ⟨fun _ => rfl, fun _ => rfl⟩
  | cons e t ih =>
    rw [List.findIdx?_cons]
    cases e with
    | none =>
      rw [lookup, ← ih]
      cases t.findIdx? (holds k) <;> simp [holds]
    | some e =>
      rw [lookup]
      by_cases h : e.1 = k
      · simp [holds, h]
      · rw [if_neg h, if_neg (by simpa [holds] using h), ← ih]
        cases t.findIdx? (holds k) <;> simp

theorem lookup_of_findIdx? (h : t.findIdx? (holds k) = some i) :
    lookup k t = (t.getD i none).map Prod.snd := by
  rw [lookup_eq_findIdx, h]
  rfl

theorem nodup_put (hU : (keys t).Nodup) (h : lookup k t = none) : (keys (put k x t)).Nodup :=
  keys_put.nodup_iff.2 (List.nodup_cons.2 ⟨lookup_eq_none_iff.1 h, hU⟩)

/-! ### Clearing -/

/-- The slot that is found is emptied. -/
theorem lookup_clear (hU : (keys t).Nodup) (h : t.findIdx? (holds k) = some i) :
    lookup k' (t.set i none) = if k' = k then none else lookup k' t := by
  induction t generalizing i with
  | nil => cases h
  | cons e t ih =>
    rw [List.findIdx?_cons] at h
    cases e with
    | none =>
      obtain ⟨j, hj, rfl⟩ := Option.map_eq_some_iff.1 h
      exact ih hU hj
    | some e =>
      obtain ⟨hnot, hU⟩ := List.nodup_cons.1 hU
      by_cases hk : e.1 = k
      · rw [if_pos (by simpa [holds] using hk)] at h
        obtain rfl := Option.some.inj h
        rw [List.set_cons_zero, lookup, lookup, ← hk]
        by_cases heq : k' = e.1
        · rw [if_pos heq, heq]
          exact lookup_eq_none_iff.2 hnot
        · rw [if_neg heq, if_neg fun h => heq h.symm]
      · rw [if_neg (by simpa [holds] using hk)] at h
        obtain ⟨j, hj, rfl⟩ := Option.map_eq_some_iff.1 h
        rw [List.set_cons_succ, lookup, lookup, ih hU hj]
        by_cases heq : e.1 = k'
        · rw [if_pos heq, if_pos heq, if_neg fun h => hk (heq.trans h)]
        · rw [if_neg heq, if_neg heq]

end SlotTable

end OsProjects
