import OsProjects.MapReduce.Model

/-!
# The books of one bucket

A bucket is filled while its thread emits, and then visited by a wrapper, whose getter takes the
values out again.  `Ledger` relates the bucket and the place of the visit to what has happened so
far: the keys the wrapper has made a call for, the pairs received through the getter and the pairs
emitted into the bucket.  The same books are kept for a mapper's bucket and for a partition.
-/

namespace OsProjects.MapReduce

variable {κ ν : Type} [DecidableEq κ]

/-- The values a log has for a key, in order. -/
def valuesOf (log : List (κ × ν)) (k : κ) : List ν := (log.filter (·.1 = k)).map (·.2)

@[simp] theorem valuesOf_nil (k : κ) : valuesOf ([] : List (κ × ν)) k = [] := rfl

@[simp] theorem valuesOf_append (log log' : List (κ × ν)) (k : κ) :
    valuesOf (log ++ log') k = valuesOf log k ++ valuesOf log' k := by
  simp [valuesOf]

@[simp] theorem valuesOf_self (k : κ) (v : ν) : valuesOf [(k, v)] k = [v] := by
  simp [valuesOf]

theorem valuesOf_of_ne {k k' : κ} (h : k' ≠ k) (v : ν) : valuesOf [(k', v)] k = [] := by
  simp [valuesOf, h]

theorem valuesOf_ne_nil_iff {log : List (κ × ν)} {k : κ} :
    valuesOf log k ≠ [] ↔ ∃ v, (k, v) ∈ log := by
  simp [valuesOf, List.filter_eq_nil_iff]

theorem count_valuesOf [DecidableEq ν] (log : List (κ × ν)) (k : κ) (v : ν) :
    (valuesOf log k).count v = log.count (k, v) := by
  induction log with
  | nil => rfl
  | cons p log ih =>
    rw [← List.singleton_append, valuesOf_append, List.count_append, List.count_append, ih]
    by_cases hk : p.1 = k
    · obtain ⟨k', v'⟩ := p
      obtain rfl : k' = k := hk
      simp [List.count_singleton]
    · rw [show valuesOf [p] k = [] from valuesOf_of_ne hk p.2]
      have : p ≠ (k, v) := by rintro rfl; exact hk rfl
      simp [this]

theorem perm_of_valuesOf [DecidableEq ν] {log log' : List (κ × ν)}
    (h : ∀ k, (valuesOf log k).Perm (valuesOf log' k)) : log.Perm log' := by
  apply List.perm_iff_count.2
  intro p
  simpa only [count_valuesOf] using (h p.1).count_eq p.2

/-- The key of the call a wrapper is in. -/
def Visit.key? : Visit κ → Option κ
  | .between _ => none
  | .inside _ key _ => some key

/-- Where a visit may stand in a bucket that holds the values `f`.  Between two calls, the nodes
visited before are gone.  In a call, the node is the first of the list until its last value has been
taken; then it is off the list, and its pointer leads to the first of the rest. -/
def Visit.At (b : Bucket κ ν) (f : κ → List ν) : Visit κ → Prop
  | .between head => b.next hdr = head
  | .inside head key sawNull =>
      f key = [] ∧ b.next head = b.next hdr ∨
        sawNull = false ∧ f key ≠ [] ∧ b.next hdr = head ∧ b.key head = some key

/-- The bucket holds `f`, which is what has been emitted and not yet received; a call has been made
for each key received so far, and only the call going on may leave values of its key. -/
structure Ledger (b : Bucket κ ν) (v : Visit κ) (f : κ → List ν) (called : List κ)
    (received emitted : List (κ × ν)) : Prop where
  rep : ∃ l, Rep b l f
  position : v.At b f
  conserve : ∀ k, (valuesOf received k ++ f k).Perm (valuesOf emitted k)
  nodup : called.Nodup
  key_mem : ∀ k, v.key? = some k → k ∈ called
  emitted_of_mem : ∀ k ∈ called, valuesOf emitted k ≠ []
  current : ∀ k ∈ called, f k ≠ [] → v.key? = some k
  called_of_received : ∀ k, valuesOf received k ≠ [] → k ∈ called

namespace Ledger

variable {b : Bucket κ ν} {v : Visit κ} {f : κ → List ν} {called : List κ}
  {received emitted : List (κ × ν)} {head : ℕ} {k : κ}

theorem empty : Ledger (Bucket.empty : Bucket κ ν) (.between 0) (fun _ => []) [] [] [] where
  rep := ⟨[], rep_empty⟩
  position := rfl
  conserve := by simp
  nodup := List.nodup_nil
  key_mem := by simp [Visit.key?]
  emitted_of_mem := by simp
  current := by simp
  called_of_received := by simp

/-- `MR_EmitToCombiner` or `ll_insert`, before the first call. -/
theorem insert (h : Ledger b (.between head) f [] received emitted) (k : κ) (val : ν) :
    ∃ b' f', llInsert k val b = some b' ∧
      Ledger b' (.between (b'.next hdr)) f' [] received (emitted ++ [(k, val)]) := by
  obtain ⟨l, hl⟩ := h.rep
  obtain ⟨b', l', hb', hl'⟩ := hl.llInsert k val
  refine ⟨b', Function.update f k (val :: f k), hb', ?_⟩
  exact
    { rep := ⟨l', hl'⟩
      position := rfl
      conserve := by
        intro k'
        by_cases hk : k' = k
        · subst hk
          rw [Function.update_self, valuesOf_append, valuesOf_self]
          calc (valuesOf received k' ++ val :: f k').Perm (val :: (valuesOf received k' ++ f k')) :=
                List.perm_middle
            _ |>.Perm (val :: valuesOf emitted k') := (h.conserve k').cons val
            _ |>.Perm (valuesOf emitted k' ++ [val]) := (List.perm_append_singleton _ _).symm
        · rw [Function.update_of_ne hk, valuesOf_append, valuesOf_of_ne (Ne.symm hk),
            List.append_nil]
          exact h.conserve k'
      nodup := List.nodup_nil
      key_mem := by simp [Visit.key?]
      emitted_of_mem := by simp
      current := by simp
      called_of_received := h.called_of_received }

/-- A call is made for the node `head`: its key has not been called before. -/
theorem call (h : Ledger b (.between head) f called received emitted) (hhead : head ≠ 0) :
    ∃ k, b.key head = some k ∧
      Ledger b (.inside head k false) f (called ++ [k]) received emitted := by
  obtain ⟨l, hl⟩ := h.rep
  have hpos : b.next hdr = head := h.position
  obtain ⟨l', rfl, -⟩ := hl.chain.2.2.exists_cons (hpos ▸ hhead)
  have hmem : head ∈ b.next hdr :: l' := by simp [hpos]
  obtain ⟨k, hk⟩ := hl.key_of_mem hmem
  have hne : f k ≠ [] := hl.ne_nil hmem hk
  have hnew : k ∉ called := fun hc => by simpa [Visit.key?] using h.current k hc hne
  refine ⟨k, hk, ?_⟩
  exact
    { rep := ⟨_, hl⟩
      position := Or.inr ⟨rfl, hne, hpos, hk⟩
      conserve := h.conserve
      nodup := by simpa [List.nodup_append] using ⟨h.nodup, fun a ha hak => hnew (hak ▸ ha)⟩
      key_mem := by simp [Visit.key?]
      emitted_of_mem := by
        intro k' hk'
        rcases List.mem_append.1 hk' with hk' | hk'
        · exact h.emitted_of_mem k' hk'
        · rw [List.mem_singleton.1 hk']
          intro hnil
          have := (h.conserve k).length_eq
          simp [hnil, hne] at this
      current := by
        intro k' hk' hf
        rcases List.mem_append.1 hk' with hk' | hk'
        · simpa [Visit.key?] using h.current k' hk' hf
        · simp [Visit.key?, List.mem_singleton.1 hk']
      called_of_received := fun k' hk' => List.mem_append_left _ (h.called_of_received k' hk') }

/-- The getter called with the key of the call. -/
theorem get (h : Ledger b (.inside head k false) f called received emitted) :
    ∃ val b' f', getNext k b = some (val, b') ∧
      Ledger b' (.inside head k val.isNone) f' called (received ++ val.toList.map (k, ·))
        emitted := by
  obtain ⟨l, hl⟩ := h.rep
  have hmem : k ∈ called := h.key_mem k rfl
  cases hf : f k with
  | nil =>
    refine ⟨none, b, f, hl.getNext_nil hf, ?_⟩
    have hpos : b.next head = b.next hdr := by
      rcases h.position with ⟨-, hn⟩ | ⟨-, hne, -⟩
      · exact hn
      · exact absurd hf hne
    simpa using { h with position := Or.inl ⟨hf, hpos⟩ }
  | cons val vs =>
    obtain ⟨hhead, hkey⟩ : b.next hdr = head ∧ b.key head = some k := by
      rcases h.position with ⟨hnil, -⟩ | ⟨-, -, hh⟩
      · simp [hf] at hnil
      · exact hh
    -- the books after the value has gone from the bucket to the client
    have books : ∀ b', (∃ l', Rep b' l' (Function.update f k vs)) →
        (Visit.inside head k false).At b' (Function.update f k vs) →
        Ledger b' (.inside head k false) (Function.update f k vs) called
          (received ++ [(k, val)]) emitted := by
      intro b' hrep hat
      exact
        { rep := hrep
          position := hat
          conserve := by
            intro k'
            by_cases hk : k' = k
            · subst hk
              simpa [hf] using h.conserve k'
            · rw [Function.update_of_ne hk, valuesOf_append, valuesOf_of_ne (Ne.symm hk),
                List.append_nil]
              exact h.conserve k'
          nodup := h.nodup
          key_mem := h.key_mem
          emitted_of_mem := h.emitted_of_mem
          current := by
            intro k' hk' hne
            by_cases hk : k' = k
            · simp [Visit.key?, hk]
            · rw [Function.update_of_ne hk] at hne
              exact h.current k' hk' hne
          called_of_received := by
            intro k' hk'
            by_cases hk : k' = k
            · exact hk ▸ hmem
            · rw [valuesOf_append, valuesOf_of_ne (Ne.symm hk), List.append_nil] at hk'
              exact h.called_of_received k' hk' }
    by_cases hvs : vs = []
    · subst hvs
      obtain ⟨p, hp, -⟩ := hl.cover k (by simp [hf])
      have h0 : b.next hdr ≠ 0 := fun h0 => List.ne_nil_of_mem hp (hl.chain.2.2.eq_nil_iff.2 h0)
      obtain ⟨l', rfl, -⟩ := hl.chain.2.2.exists_cons h0
      rw [hhead] at hl
      have hne : head ≠ hdr := by
        rintro rfl
        simpa using hl.nodup
      have hsplit : hdr :: head :: l' = [] ++ hdr :: head :: l' := rfl
      obtain ⟨b', hg, hrep, -, hnext'⟩ := hl.getNext_last hf hsplit hkey
      refine ⟨some val, b', _, hg, books b' ⟨_, hrep⟩ (Or.inl ⟨by simp, ?_⟩)⟩
      rw [hnext', Function.update_self, Function.update_of_ne hne]
    · obtain ⟨b', hg, hrep, hkey', hnext'⟩ := hl.getNext_cons hf hvs
      refine ⟨some val, b', _, hg, books b' ⟨l, hrep⟩ (Or.inr ⟨rfl, ?_, ?_, ?_⟩)⟩
      · simpa using hvs
      · rw [hnext', hhead]
      · rw [hkey', hkey]

/-- The call returns after its getter returned `NULL`. -/
theorem ret (h : Ledger b (.inside head k true) f called received emitted) :
    Ledger b (.between (b.next head)) f called received emitted := by
  obtain ⟨hnil, hpos⟩ : f k = [] ∧ b.next head = b.next hdr := by
    rcases h.position with hp | ⟨hfalse, -⟩
    · exact hp
    · cases hfalse
  exact
    { h with
      position := hpos.symm
      key_mem := by simp [Visit.key?]
      current := by
        intro k' hk' hf
        have := h.current k' hk' hf
        simp only [Visit.key?, Option.some.injEq] at this
        exact absurd (this ▸ hnil) hf }

/-- At the end of the list nothing is held any more. -/
theorem eq_nil (h : Ledger b (.between 0) f called received emitted) (k : κ) : f k = [] := by
  obtain ⟨l, hl⟩ := h.rep
  have hpos : b.next hdr = 0 := h.position
  have : l = [] := hl.chain.2.2.eq_nil_iff.2 hpos
  exact (this ▸ hl).eq_nil_of_nil k

/-- A bucket into which nothing has been emitted has no nodes. -/
theorem next_eq_zero (h : Ledger b v f called received []) : b.next hdr = 0 := by
  obtain ⟨l, hl⟩ := h.rep
  have hf : ∀ k, f k = [] := fun k => by
    have : valuesOf received k = [] ∧ f k = [] := by simpa using h.conserve k
    exact this.2
  refine hl.chain.2.2.eq_nil_iff.1 (List.eq_nil_iff_forall_not_mem.2 fun p hp => ?_)
  obtain ⟨k, -, -, hne⟩ := hl.keyed p hp
  exact hne (hf k)

/-- **The books balance at the end of a visit**: one call for each key emitted, and the values
received are those emitted. -/
theorem balance (h : Ledger b (.between 0) f called received emitted) :
    called.Nodup ∧ (∀ k, k ∈ called ↔ ∃ v, (k, v) ∈ emitted) ∧
      ∀ k, (valuesOf received k).Perm (valuesOf emitted k) := by
  have hperm : ∀ k, (valuesOf received k).Perm (valuesOf emitted k) := fun k => by
    simpa [h.eq_nil k] using h.conserve k
  refine ⟨h.nodup, fun k => ?_, hperm⟩
  rw [← valuesOf_ne_nil_iff]
  constructor
  · exact h.emitted_of_mem k
  · intro hne
    refine h.called_of_received k fun hnil => hne ?_
    have := hperm k
    rw [hnil] at this
    exact this.nil_eq.symm

/-- There are at most as many calls as emitted pairs. -/
theorem called_length (h : Ledger b v f called received emitted) :
    called.length ≤ emitted.length := by
  have hsub : called ⊆ emitted.map Prod.fst := fun k hk => by
    obtain ⟨val, hval⟩ := valuesOf_ne_nil_iff.1 (h.emitted_of_mem k hk)
    exact List.mem_map_of_mem hval
  simpa using (h.nodup.subperm hsub).length_le

/-- There are at most as many received pairs as emitted ones. -/
theorem received_length [DecidableEq ν] (h : Ledger b v f called received emitted) :
    received.length ≤ emitted.length := by
  refine (List.subperm_ext_iff.2 fun p _ => ?_).length_le
  have hsub := (List.sublist_append_left (valuesOf received p.1) (f p.1)).subperm.trans
    (h.conserve p.1).subperm
  simpa only [count_valuesOf] using hsub.count_le p.2

end Ledger

end OsProjects.MapReduce
