import Mathlib.Tactic
import OsProjects.Foundation.Chain

/-!
# Buckets

The lists of `mapreduce.c`: one for each mapper and one for each partition.  A bucket is a header
node, at address `hdr`, and the nodes malloc'ed for the list; a node holds a key, its values (newest
first) and a pointer to the next node.  Pointers are numbers and `NULL` is `0`.

`llInsert` and `getNext` are the insertion and the getter; both return `none` where the C code would
follow a null pointer or run round a cycle.  The nodes outlive their removal from the list: they are
kept on a free list until the end of the run, which is why a traversal may go on from one.

`Rep b l f` relates a bucket to what it stands for: `l` are its nodes, in order, and `f` gives the
values held for each key.
-/

namespace OsProjects.MapReduce

variable {κ ν : Type}

/-- The address of the header node, an element of `header_of_cur_mapper` or `header_of_reduce`. -/
def hdr : ℕ := 1

/-- A header and its malloc'ed nodes; `fresh` is the address of the next `malloc`. -/
structure Bucket (κ ν : Type) where
  key : ℕ → Option κ
  value : ℕ → List ν
  next : ℕ → ℕ
  fresh : ℕ

/-- A header initialised by `MR_Run`. -/
def Bucket.empty : Bucket κ ν := ⟨fun _ => none, fun _ => [], fun _ => 0, hdr + 1⟩

section Operations

variable [DecidableEq κ]

/-- `while (p && strcmp(p->key, key) != 0) p = p->next;` -/
def searchNode (b : Bucket κ ν) (key : κ) : ℕ → ℕ → Option ℕ
  | 0, _ => none
  | fuel + 1, p =>
      if p = 0 then some 0
      else match b.key p with
        | none => none
        | some k => if k = key then some p else searchNode b key fuel (b.next p)

/-- The insertion of `ll_insert` and `MR_EmitToCombiner`: a new node goes in front of the list, a
new value in front of the values of its key. -/
def llInsert (key : κ) (value : ν) (b : Bucket κ ν) : Option (Bucket κ ν) := do
  let p ← searchNode b key b.fresh (b.next hdr)
  if p = 0 then
    let next := Function.update b.next b.fresh (b.next hdr)
    some { key := Function.update b.key b.fresh (some key)
           value := Function.update b.value b.fresh [value]
           next := Function.update next hdr b.fresh
           fresh := b.fresh + 1 }
  else
    some { b with value := Function.update b.value p (value :: b.value p) }

/-- `while (head && head->key && strcmp(head->key, key) != 0) head = head->next;` -/
def getterSearch (b : Bucket κ ν) (key : κ) : ℕ → ℕ → Option ℕ
  | 0, _ => none
  | fuel + 1, p =>
      if p = 0 then some 0
      else match b.key p with
        | none => some p
        | some k => if k = key then some p else getterSearch b key fuel (b.next p)

/-- `while (head_r && head_r->next && strcmp(head_r->next->key, key) != 0) head_r =
head_r->next;` -/
def getterPred (b : Bucket κ ν) (key : κ) : ℕ → ℕ → Option ℕ
  | 0, _ => none
  | fuel + 1, p =>
      if p = 0 ∨ b.next p = 0 then some p
      else match b.key (b.next p) with
        | none => none
        | some k => if k = key then some p else getterPred b key fuel (b.next p)

/-- The getter of both phases: the newest value of the key is taken out, and with the last value the
node is unlinked. -/
def getNext (key : κ) (b : Bucket κ ν) : Option (Option ν × Bucket κ ν) := do
  let p ← getterSearch b key b.fresh (b.next hdr)
  if p = 0 then some (none, b)
  else match b.value p with
    | [] => some (none, b)
    | val :: vals => do
        let b := { b with value := Function.update b.value p vals }
        if vals.isEmpty then
          let r ← getterPred b key b.fresh hdr
          let head := b.next r
          if r = 0 ∨ head = 0 then none
          else some (some val, { b with next := Function.update b.next r (b.next head) })
        else some (some val, b)

end Operations

/-! ### What a bucket stands for -/

/-- The list of bucket `b` has the nodes `l`, and holds the values `f k` for each key `k`. -/
structure Rep (b : Bucket κ ν) (l : List ℕ) (f : κ → List ν) : Prop where
  chain : Chain 0 b.next hdr (hdr :: l)
  bound : ∀ p ∈ hdr :: l, p < b.fresh
  keyed : ∀ p ∈ l, ∃ k, b.key p = some k ∧ b.value p = f k ∧ f k ≠ []
  inj : ∀ p ∈ l, ∀ q ∈ l, b.key p = b.key q → p = q
  cover : ∀ k, f k ≠ [] → ∃ p ∈ l, b.key p = some k

section Rep

variable {b : Bucket κ ν} {l l₁ l₂ : List ℕ} {f : κ → List ν} {k : κ} {p : ℕ}

theorem rep_empty : Rep (Bucket.empty : Bucket κ ν) [] fun _ => [] where
  chain := by simp [Bucket.empty, hdr]
  bound := by simp [Bucket.empty]
  keyed := by simp
  inj := by simp
  cover := by simp

namespace Rep

theorem nodup (h : Rep b l f) : (hdr :: l).Nodup := h.chain.nodup

/-- The list fits into the addresses malloc'ed so far, so no walk needs more steps. -/
theorem length_lt (h : Rep b l f) : l.length < b.fresh := by
  have hsub : hdr :: l ⊆ List.range b.fresh := fun p hp => List.mem_range.2 (h.bound p hp)
  have := (h.nodup.subperm hsub).length_le
  simp at this
  omega

theorem key_of_mem (h : Rep b l f) (hp : p ∈ l) : ∃ k, b.key p = some k := by
  obtain ⟨k, hk, -⟩ := h.keyed p hp
  exact ⟨k, hk⟩

theorem value_eq (h : Rep b l f) (hp : p ∈ l) (hk : b.key p = some k) : b.value p = f k := by
  obtain ⟨k', hk', hv, -⟩ := h.keyed p hp
  rw [hk] at hk'
  rw [hv, Option.some.inj hk']

theorem ne_nil (h : Rep b l f) (hp : p ∈ l) (hk : b.key p = some k) : f k ≠ [] := by
  obtain ⟨k', hk', -, hne⟩ := h.keyed p hp
  rw [hk] at hk'
  rwa [Option.some.inj hk']

theorem eq_nil_of_nil (h : Rep b [] f) (k : κ) : f k = [] := by
  by_contra hk
  obtain ⟨p, hp, -⟩ := h.cover k hk
  simp at hp

/-- No other node has the key of a node. -/
theorem other_keys (h : Rep b (l₁ ++ p :: l₂) f) (hk : b.key p = some k) :
    ∀ q ∈ l₁ ++ l₂, ∃ k', b.key q = some k' ∧ k' ≠ k := by
  intro q hq
  have hql : q ∈ l₁ ++ p :: l₂ := by
    simp only [List.mem_append, List.mem_cons] at hq ⊢
    exact hq.imp_right Or.inr
  obtain ⟨k', hk'⟩ := h.key_of_mem hql
  refine ⟨k', hk', ?_⟩
  rintro rfl
  have hqp : q = p := h.inj q hql p (by simp) (by rw [hk', hk])
  have hnd := h.nodup
  subst hqp
  simp only [List.nodup_cons, List.nodup_middle] at hnd
  exact hnd.2.1 hq

/-- The keys of the list when it holds no value for `k`. -/
theorem keys_ne (h : Rep b l f) (hk : f k = []) : ∀ q ∈ l, ∃ k', b.key q = some k' ∧ k' ≠ k := by
  intro q hq
  obtain ⟨k', hk'⟩ := h.key_of_mem hq
  exact ⟨k', hk', by rintro rfl; exact h.ne_nil hq hk' hk⟩

end Rep

/-! ### The walks -/

variable [DecidableEq κ]

/-- Both searches stop at the node of the key. -/
theorem search_mem {a : ℕ} (hc : Chain 0 b.next a (l₁ ++ p :: l₂)) (hk : b.key p = some k)
    (hne : ∀ q ∈ l₁, ∃ k', b.key q = some k' ∧ k' ≠ k) {n : ℕ} (hn : l₁.length < n) :
    searchNode b k n a = some p ∧ getterSearch b k n a = some p := by
  induction l₁ generalizing a n with
  | nil =>
    obtain ⟨n, rfl⟩ := Nat.exists_eq_add_of_lt hn
    obtain ⟨rfl, ha, -⟩ := hc
    simp [searchNode, getterSearch, ha, hk]
  | cons q l₁ ih =>
    obtain ⟨n, rfl⟩ : ∃ m, n = m + 1 := ⟨n - 1, by simp at hn; omega⟩
    obtain ⟨rfl, ha, hl⟩ := hc
    obtain ⟨k', hk', hkk⟩ := hne a (by simp)
    have := ih hl (fun q hq => hne q (by simp [hq])) (by simpa using hn)
    simpa [searchNode, getterSearch, ha, hk', hkk] using this

/-- Both searches reach the end of a list without the key. -/
theorem search_notMem {a : ℕ} (hc : Chain 0 b.next a l)
    (hne : ∀ q ∈ l, ∃ k', b.key q = some k' ∧ k' ≠ k) {n : ℕ} (hn : l.length < n) :
    searchNode b k n a = some 0 ∧ getterSearch b k n a = some 0 := by
  induction l generalizing a n with
  | nil =>
    obtain ⟨n, rfl⟩ := Nat.exists_eq_add_of_lt hn
    simp [searchNode, getterSearch, Chain.nil_iff.1 hc]
  | cons q l ih =>
    obtain ⟨n, rfl⟩ : ∃ m, n = m + 1 := ⟨n - 1, by simp at hn; omega⟩
    obtain ⟨rfl, ha, hl⟩ := hc
    obtain ⟨k', hk', hkk⟩ := hne a (by simp)
    have := ih hl (fun q hq => hne q (by simp [hq])) (by simpa using hn)
    simpa [searchNode, getterSearch, ha, hk', hkk] using this

/-- The predecessor search stops at the node in front of the one with the key. -/
theorem getterPred_mem {a r : ℕ} (hc : Chain 0 b.next a (l₁ ++ r :: p :: l₂))
    (hk : b.key p = some k) (hne : ∀ q ∈ (l₁ ++ [r]).tail, ∃ k', b.key q = some k' ∧ k' ≠ k)
    {n : ℕ} (hn : l₁.length < n) : getterPred b k n a = some r := by
  induction l₁ generalizing a n with
  | nil =>
    obtain ⟨n, rfl⟩ := Nat.exists_eq_add_of_lt hn
    obtain ⟨rfl, ha, hp, hp0, -⟩ := hc
    simp [getterPred, ha, hp, hp0, hk]
  | cons q l₁ ih =>
    obtain ⟨n, rfl⟩ : ∃ m, n = m + 1 := ⟨n - 1, by simp at hn; omega⟩
    obtain ⟨rfl, ha, hl⟩ := hc
    have hq : ∃ k', b.key (b.next a) = some k' ∧ k' ≠ k ∧ b.next a ≠ 0 := by
      cases l₁ with
      | nil =>
        obtain ⟨k', hk', hkk⟩ := hne r (by simp)
        exact ⟨k', by rw [hl.1]; exact hk', hkk, by rw [hl.1]; exact hl.2.1⟩
      | cons c l₁ =>
        obtain ⟨k', hk', hkk⟩ := hne c (by simp)
        exact ⟨k', by rw [hl.1]; exact hk', hkk, by rw [hl.1]; exact hl.2.1⟩
    obtain ⟨k', hk', hkk, h0⟩ := hq
    have := ih hl (fun q hq => hne q (by cases l₁ <;> simp_all)) (by simpa using hn)
    simpa [getterPred, ha, h0, hk', hkk] using this

namespace Rep

/-! ### The operations -/

theorem setValue (h : Rep b l f) (hp : p ∈ l) (hk : b.key p = some k) {vs : List ν}
    (hvs : vs ≠ []) :
    Rep { b with value := Function.update b.value p vs } l (Function.update f k vs) where
  chain := h.chain
  bound := h.bound
  keyed := by
    intro q hq
    obtain ⟨k', hk', hv, hne⟩ := h.keyed q hq
    refine ⟨k', hk', ?_⟩
    by_cases hqp : q = p
    · subst hqp
      obtain rfl : k = k' := Option.some.inj (hk.symm.trans hk')
      simpa using hvs
    · have hkk : k' ≠ k := by
        rintro rfl
        exact hqp (h.inj q hq p hp (hk'.trans hk.symm))
      simpa [Function.update_of_ne hqp, Function.update_of_ne hkk] using ⟨hv, hne⟩
  inj := h.inj
  cover := by
    intro k' hk'
    by_cases hkk : k' = k
    · subst hkk
      exact ⟨p, hp, hk⟩
    · exact h.cover k' (by simpa [Function.update_of_ne hkk] using hk')

/-- Insertion adds the value in front of the values of its key. -/
theorem llInsert (h : Rep b l f) (k : κ) (v : ν) :
    ∃ b' l', MapReduce.llInsert k v b = some b' ∧ Rep b' l' (Function.update f k (v :: f k)) := by
  have hc : Chain 0 b.next (b.next hdr) l := h.chain.2.2
  by_cases hk : f k = []
  · have hs := (search_notMem hc (h.keys_ne hk) h.length_lt).1
    have hfresh : b.fresh ∉ hdr :: l := fun hm => absurd (h.bound _ hm) (lt_irrefl _)
    have hhdr : hdr ∉ l := (List.nodup_cons.1 h.nodup).1
    rw [List.mem_cons, not_or] at hfresh
    refine ⟨_, b.fresh :: l, by simp [MapReduce.llInsert, hs]; rfl, ?_⟩
    constructor
    · refine ⟨rfl, by simp [hdr], by simp, by have := h.bound hdr (by simp); omega, ?_⟩
      simp only [Function.update_of_ne hfresh.1, Function.update_self]
      refine hc.congr fun q hq => ?_
      rw [Function.update_of_ne (by rintro rfl; exact hhdr hq),
        Function.update_of_ne (by rintro rfl; exact hfresh.2 hq)]
    · intro q hq
      simp only [List.mem_cons] at hq
      rcases hq with rfl | rfl | hq
      · exact Nat.lt_succ_of_lt (h.bound _ (by simp))
      · exact Nat.lt_succ_self _
      · exact Nat.lt_succ_of_lt (h.bound _ (by simp [hq]))
    · intro q hq
      rcases List.mem_cons.1 hq with rfl | hq
      · exact ⟨k, by simp, by simp [hk], by simp⟩
      · have hqf : q ≠ b.fresh := by rintro rfl; exact hfresh.2 hq
        obtain ⟨k', hk', hv, hne⟩ := h.keyed q hq
        have hkk : k' ≠ k := by rintro rfl; exact hne hk
        exact ⟨k', by simpa [hqf] using hk', by simpa [hqf, hkk] using hv, by simpa [hkk] using hne⟩
    · intro q hq r hr
      have hold : ∀ q ∈ l, Function.update b.key b.fresh (some k) q = b.key q ∧ b.key q ≠
          some k := by
        intro q hq
        obtain ⟨k', hk', hkk⟩ := h.keys_ne hk q hq
        exact ⟨Function.update_of_ne (by rintro rfl; exact hfresh.2 hq) _ _, by simp [hk', hkk]⟩
      rcases List.mem_cons.1 hq with rfl | hq <;> rcases List.mem_cons.1 hr with rfl | hr
      · simp
      · intro he
        simp only [Function.update_self, (hold r hr).1] at he
        exact absurd he.symm (hold r hr).2
      · intro he
        simp only [Function.update_self, (hold q hq).1] at he
        exact absurd he (hold q hq).2
      · intro he
        simp only [(hold q hq).1, (hold r hr).1] at he
        exact h.inj q hq r hr he
    · intro k' hk'
      by_cases hkk : k' = k
      · exact ⟨b.fresh, by simp, by simp [hkk]⟩
      · obtain ⟨q, hq, hkq⟩ := h.cover k' (by simpa [hkk] using hk')
        refine ⟨q, by simp [hq], ?_⟩
        rw [← hkq]
        exact Function.update_of_ne (by rintro rfl; exact hfresh.2 hq) _ _
  · obtain ⟨p, hp, hkp⟩ := h.cover k hk
    obtain ⟨l₁, l₂, rfl⟩ := List.append_of_mem hp
    have hlen := h.length_lt
    have hs := (search_mem hc hkp (fun q hq => h.other_keys hkp q (by simp [hq]))
      (n := b.fresh) (by simp at hlen; omega)).1
    have hp0 : p ≠ 0 := h.chain.ne_null p (by simp)
    refine ⟨_, l₁ ++ p :: l₂, by simp [MapReduce.llInsert, hs, hp0]; rfl, ?_⟩
    rw [h.value_eq hp hkp]
    exact h.setValue hp hkp (by simp)

/-- Nothing held for the key: the getter returns `NULL` and changes nothing. -/
theorem getNext_nil (h : Rep b l f) (hk : f k = []) : getNext k b = some (none, b) := by
  have hs := (search_notMem h.chain.2.2 (h.keys_ne hk) h.length_lt).2
  simp [getNext, hs]

/-- A value that is not the last of its key: only the values of the key change. -/
theorem getNext_cons (h : Rep b l f) {v : ν} {vs : List ν} (hv : f k = v :: vs) (hvs : vs ≠ []) :
    ∃ b', getNext k b = some (some v, b') ∧ Rep b' l (Function.update f k vs) ∧
      b'.key = b.key ∧ b'.next = b.next := by
  obtain ⟨p, hp, hkp⟩ := h.cover k (by simp [hv])
  obtain ⟨l₁, l₂, rfl⟩ := List.append_of_mem hp
  have hlen := h.length_lt
  have hs := (search_mem h.chain.2.2 hkp (fun q hq => h.other_keys hkp q (by simp [hq]))
    (n := b.fresh) (by simp at hlen; omega)).2
  have hp0 : p ≠ 0 := h.chain.ne_null p (by simp)
  have hval : b.value p = v :: vs := (h.value_eq hp hkp).trans hv
  exact ⟨_, by simp [getNext, hs, hp0, hval, hvs], h.setValue hp hkp hvs, rfl, rfl⟩

/-- The last value of its key: the node is unlinked, through its predecessor `r`. -/
theorem getNext_last (h : Rep b l f) {v : ν} {r : ℕ} (hv : f k = [v])
    (hl : hdr :: l = l₁ ++ r :: p :: l₂) (hkp : b.key p = some k) :
    ∃ b', getNext k b = some (some v, b') ∧
      Rep b' (l₁ ++ r :: l₂).tail (Function.update f k []) ∧
      b'.key = b.key ∧ b'.next = Function.update b.next r (b.next p) := by
  obtain ⟨m, hm⟩ : ∃ m, l₁ ++ [r] = hdr :: m := by
    cases l₁ with
    | nil =>
      obtain ⟨rfl, -⟩ := List.cons.inj hl
      exact ⟨[], rfl⟩
    | cons a l₁ =>
      obtain ⟨rfl, -⟩ := List.cons.inj hl
      exact ⟨l₁ ++ [r], rfl⟩
  have hlm : l = m ++ p :: l₂ := by
    have : hdr :: l = (l₁ ++ [r]) ++ p :: l₂ := by simpa using hl
    rw [hm] at this
    exact (List.cons.inj this).2
  have htail : (l₁ ++ r :: l₂).tail = m ++ l₂ := by
    have : l₁ ++ r :: l₂ = (l₁ ++ [r]) ++ l₂ := by simp
    rw [this, hm]
    rfl
  subst hlm
  have hp : p ∈ m ++ p :: l₂ := by simp
  have hoth := h.other_keys hkp
  have hlen := h.length_lt
  have hlen' := congrArg List.length hm
  simp at hlen hlen'
  have hs := (search_mem h.chain.2.2 hkp (fun q hq => hoth q (by simp [hq])) (n := b.fresh)
    (by omega)).2
  have hchain : Chain 0 b.next hdr (l₁ ++ r :: p :: l₂) := hl ▸ h.chain
  have hp0 : p ≠ 0 := hchain.ne_null p (by simp)
  have hr0 : r ≠ 0 := hchain.ne_null r (by simp)
  have hrp : b.next r = p := hchain.split.2.2.1
  have hval : b.value p = [v] := (h.value_eq hp hkp).trans hv
  have hpred : getterPred { b with value := Function.update b.value p [] } k b.fresh hdr = some r :=
    getterPred_mem (b := { b with value := Function.update b.value p [] }) hchain hkp
      (fun q hq => hoth q (by rw [hm] at hq; simpa using Or.inl hq))
      (by omega)
  refine ⟨{ b with
      value := Function.update b.value p [], next := Function.update b.next r (b.next p) },
    by simp [getNext, hs, hp0, hval, hpred, hr0, hrp], ?_, rfl, rfl⟩
  rw [htail]
  constructor
  · have hu := hchain.unlink
    rwa [List.append_cons, hm] at hu
  · exact fun q hq => h.bound q (by simp at hq ⊢; tauto)
  · intro q hq
    obtain ⟨k', hk', hv', hne⟩ := h.keyed q (by simp at hq ⊢; tauto)
    obtain ⟨k'', hk'', hkk⟩ := hoth q hq
    obtain rfl : k' = k'' := Option.some.inj (hk'.symm.trans hk'')
    have hqp : q ≠ p := by rintro rfl; exact hkk (Option.some.inj (hk'.symm.trans hkp))
    exact ⟨k', hk', by simpa [hqp, hkk] using hv', by simpa [hkk] using hne⟩
  · exact fun q hq q' hq' => h.inj q (by simp at hq ⊢; tauto) q' (by simp at hq' ⊢; tauto)
  · intro k' hk'
    have hkk : k' ≠ k := by rintro rfl; simp at hk'
    obtain ⟨q, hq, hkq⟩ := h.cover k' (by simpa [hkk] using hk')
    refine ⟨q, ?_, hkq⟩
    have hqp : q ≠ p := by rintro rfl; exact hkk (Option.some.inj (hkq.symm.trans hkp))
    simp at hq ⊢
    tauto

end Rep

end Rep

end OsProjects.MapReduce
