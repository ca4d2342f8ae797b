import OsProjects.MapReduce.Ledger

/-!
# Traversals of a bucket

The loops of `reduce_wrapper` and `mapper_wrapper` over a bucket, run by one thread on its own
bucket, when each call of the Reducer or Combiner makes any number of getter calls with its key.  It
may leave values of the key in the bucket, or go on calling after `NULL`.

* `Rep.getNext`: what one getter call does, at whatever place of the list the key is;
* `Rep.getterCalls`: after any number of calls the pointer of the node still leads to the next one;
* `Complete`: a traversal has visited every key once, and its getter calls returned what they
should;
* `traversals_complete`: the traversals of both wrappers.
-/

namespace OsProjects.MapReduce

variable {κ ν : Type} [DecidableEq κ]

/-! ### The loops -/

/-- What a callback does to the bucket: `n` getter calls with its own key. -/
def getterCalls (key : κ) : ℕ → Bucket κ ν → Option (List (Option ν) × Bucket κ ν)
  | 0, b => some ([], b)
  | n + 1, b => do
    let (val, b) ← getNext key b
    let (vals, b) ← getterCalls key n b
    some (val :: vals, b)

/-- `while (test && head) { callback(head->key, ...); head = head->next; }`: the keys of the calls
and what the getter returned in them.  The `i`-th call makes `calls i` getter calls. -/
def traverse (test : Bool) (calls : ℕ → ℕ) :
    ℕ → ℕ → ℕ → Bucket κ ν → Option (List (κ × List (Option ν)) × Bucket κ ν)
  | 0, _, _, _ => none
  | fuel + 1, i, head, b =>
    if test ∧ head ≠ 0 then do
      let key ← b.key head
      let (vals, b) ← getterCalls key (calls i) b
      let (visits, b) ← traverse test calls fuel (i + 1) (b.next head) b
      some ((key, vals) :: visits, b)
    else some ([], b)

/-- The loop of `reduce_wrapper`. -/
def reduceTraversal (calls : ℕ → ℕ) (b : Bucket κ ν) :
    Option (List (κ × List (Option ν)) × Bucket κ ν) :=
  traverse true calls b.fresh 0 (b.next hdr) b

/-- The loop of `mapper_wrapper` over the bucket of mapper `loca_r`. -/
def mapperTraversal (job : Job κ) (loca_r : ℕ) (calls : ℕ → ℕ) (b : Bucket κ ν) :
    Option (List (κ × List (Option ν)) × Bucket κ ν) :=
  traverse (decide (loca_r < job.argc)) calls b.fresh 0 (b.next hdr) b

/-- Insertions one after the other. -/
def insertAll (pairs : List (κ × ν)) (b : Bucket κ ν) : Option (Bucket κ ν) :=
  pairs.foldlM (fun b pair => llInsert pair.1 pair.2 b) b

/-- The loop of `mapper_wrapper` over its files; `emits` are the pairs that the Mapper emits to the
Combiner for each of them. -/
def mapFiles (job : Job κ) (emits : ℕ → List (κ × ν)) (loca : ℕ) (b : Bucket κ ν) :
    Option (Bucket κ ν) :=
  if loca < job.argc then do
    let b ← insertAll (emits loca) b
    mapFiles job emits (loca + job.numMappers) b
  else some b
termination_by job.argc - loca
decreasing_by
  have := job.mappers_pos
  omega

/-- The pairs emitted for the files of a mapper. -/
def emitted (job : Job κ) (emits : ℕ → List (κ × ν)) (loca : ℕ) : List (κ × ν) :=
  if loca < job.argc then emits loca ++ emitted job emits (loca + job.numMappers) else []
termination_by job.argc - loca
decreasing_by
  have := job.mappers_pos
  omega

/-- What `n` getter calls for a key return: its values, and then `NULL`. -/
def answers (n : ℕ) (vals : List ν) : List (Option ν) :=
  (vals.take n).map some ++ List.replicate (n - vals.length) none

/-- A traversal of a bucket that holds the values `f`. -/
def Complete (f : κ → List ν) (calls : ℕ → ℕ)
    (run : Option (List (κ × List (Option ν)) × Bucket κ ν)) : Prop :=
  ∃ (keys : List κ) (b : Bucket κ ν) (l : List ℕ), keys.Nodup ∧ (∀ k, k ∈ keys ↔ f k ≠ []) ∧
    run = some (keys.mapIdx fun i k => (k, answers (calls i) (f k)), b) ∧
    Rep b l fun k => (f k).drop (calls (keys.idxOf k))

/-! ### Getter calls -/

section GetterCalls

variable {b : Bucket κ ν} {l m r : List ℕ} {f : κ → List ν} {k : κ} {p n : ℕ}

theorem answers_nil (n : ℕ) : answers n ([] : List ν) = List.replicate n none := by
  rw [answers, List.take_nil, List.map_nil, List.nil_append, List.length_nil, Nat.sub_zero]

theorem answers_cons (n : ℕ) (v : ν) (vs : List ν) :
    answers (n + 1) (v :: vs) = some v :: answers n vs := by
  rw [answers, List.take_succ_cons, List.map_cons, List.cons_append, List.length_cons,
    Nat.add_sub_add_right, answers]

/-- A node of the list has a predecessor, the header or another node. -/
theorem exists_predecessor (m r : List ℕ) (p : ℕ) : ∃ l₁ q, hdr :: m = l₁ ++ [q] ∧
    hdr :: (m ++ p :: r) = l₁ ++ q :: p :: r := by
  obtain ⟨l₁, q, hm⟩ := (List.eq_nil_or_concat' (hdr :: m)).resolve_left (List.cons_ne_nil _ _)
  refine ⟨l₁, q, hm, ?_⟩
  rw [← List.cons_append, hm, List.append_assoc, List.singleton_append]

/-- **One getter call** returns the newest value of its key, or `NULL` if there is none, and leaves
the other keys alone. -/
theorem Rep.getNext (h : Rep b l f) (k : κ) : ∃ b' l',
    MapReduce.getNext k b = some ((f k).head?, b') ∧
      Rep b' l' (Function.update f k (f k).tail) := by
  cases hv : f k with
  | nil =>
    refine ⟨b, l, h.getNext_nil hv, ?_⟩
    rwa [List.tail_nil, ← hv, Function.update_eq_self]
  | cons v vs =>
    by_cases hvs : vs = []
    · subst hvs
      obtain ⟨p, hp, hkp⟩ := h.cover k (by simp [hv])
      obtain ⟨m, r, rfl⟩ := List.append_of_mem hp
      obtain ⟨l₁, q, -, hl⟩ := exists_predecessor m r p
      obtain ⟨b', hget, hrep, -, -⟩ := h.getNext_last hv hl hkp
      exact ⟨b', _, hget, hrep⟩
    · obtain ⟨b', hget, hrep, -, -⟩ := h.getNext_cons hv hvs
      exact ⟨b', l, hget, hrep⟩

omit [DecidableEq κ] in
/-- The rest of the list can be reached from a node. -/
theorem Rep.rest (h : Rep b (m ++ p :: r) f) : Chain 0 b.next (b.next p) r := by
  have hchain : Chain 0 b.next hdr ((hdr :: m) ++ p :: r) := h.chain
  exact hchain.split.2.2

theorem Rep.getterCalls_nil (h : Rep b l f) (hk : f k = []) (n : ℕ) :
    getterCalls k n b = some (List.replicate n none, b) := by
  induction n with
  | zero => rfl
  | succ n ih =>
    rw [getterCalls, h.getNext_nil hk]
    simp only [Option.bind_eq_bind, Option.bind_some, ih, List.replicate_succ]

/-- The last value of a node is taken out: the pointer of the node stays. -/
theorem Rep.unlink (h : Rep b (m ++ p :: r) f) (hkp : b.key p = some k) {v : ν} (hv : f k = [v]) :
    ∃ b', MapReduce.getNext k b = some (some v, b') ∧
      Rep b' (m ++ r) (Function.update f k []) ∧ Chain 0 b'.next (b'.next p) r ∧
      b'.key = b.key := by
  obtain ⟨l₁, q, hm, hl⟩ := exists_predecessor m r p
  obtain ⟨b', hget, hrep, hkey, hnext⟩ := h.getNext_last hv hl hkp
  have htail : (l₁ ++ q :: r).tail = m ++ r := by
    rw [← List.singleton_append, ← List.append_assoc, ← hm, List.cons_append, List.tail_cons]
  rw [htail] at hrep
  refine ⟨b', hget, hrep, ?_, hkey⟩
  -- The predecessor is neither the node nor behind it.
  have hnd : (l₁ ++ q :: p :: r).Nodup := hl ▸ h.nodup
  have hq := (List.nodup_cons.1 (List.nodup_append.1 hnd).2.1).1
  rw [List.mem_cons, not_or] at hq
  rw [hnext, Function.update_of_ne (Ne.symm hq.1)]
  exact h.rest.update_of_notMem hq.2

/-- **The getter calls of one callback.**  Whether or not its node has been unlinked, the rest of
the list can be reached from it. -/
theorem Rep.getterCalls (h : Rep b (m ++ p :: r) f) (hkp : b.key p = some k) (n : ℕ) :
    ∃ b' m', MapReduce.getterCalls k n b = some (answers n (f k), b') ∧
      Rep b' (m' ++ r) (Function.update f k ((f k).drop n)) ∧ Chain 0 b'.next (b'.next p) r ∧
      b'.key = b.key := by
  induction n generalizing b f with
  | zero =>
    refine ⟨b, m ++ [p], ?_, ?_, h.rest, rfl⟩
    · rw [answers, List.take_zero, Nat.zero_sub]
      rfl
    · rwa [List.append_assoc, List.singleton_append, List.drop_zero, Function.update_eq_self]
  | succ n ih =>
    obtain ⟨v, vs, hv⟩ := List.exists_cons_of_ne_nil (h.ne_nil (by simp) hkp)
    rw [hv, answers_cons, List.drop_succ_cons]
    by_cases hvs : vs = []
    · subst hvs
      obtain ⟨b₁, hget, hrep, hchain, hkey⟩ := h.unlink hkp hv
      have hrest := hrep.getterCalls_nil (Function.update_self k [] f) n
      refine ⟨b₁, m, ?_, ?_, hchain, hkey⟩
      · rw [MapReduce.getterCalls, hget]
        simp only [Option.bind_eq_bind, Option.bind_some, hrest, answers_nil]
      · rwa [List.drop_nil]
    · obtain ⟨b₁, hget, hrep, hkey, hnext⟩ := h.getNext_cons hv hvs
      obtain ⟨b', m', hcalls, hrep', hchain, hkey'⟩ := ih hrep (hkey ▸ hkp)
      rw [Function.update_self] at hcalls
      rw [Function.update_self, Function.update_idem] at hrep'
      refine ⟨b', m', ?_, hrep', hchain, hkey'.trans hkey⟩
      rw [MapReduce.getterCalls, hget]
      simp only [Option.bind_eq_bind, Option.bind_some, hcalls]

end GetterCalls

/-! ### The traversal -/

section Traversal

variable {b : Bucket κ ν} {l m r : List ℕ} {f : κ → List ν} {keys : List κ} {calls : ℕ → ℕ}
  {k : κ} {head p i fuel : ℕ}

/-- The values that are left after the visits of some keys, the `i`-th visit first. -/
def left (f : κ → List ν) (calls : ℕ → ℕ) (i : ℕ) (keys : List κ) (k : κ) : List ν :=
  if k ∈ keys then (f k).drop (calls (i + keys.idxOf k)) else f k

theorem left_cons (hk : k ∉ keys) :
    left (Function.update f k ((f k).drop (calls i))) calls (i + 1) keys =
      left f calls i (k :: keys) := by
  funext x
  by_cases hx : x = k
  · subst hx
    rw [left, if_neg hk, Function.update_self, left, if_pos List.mem_cons_self,
      List.idxOf_cons_self, Nat.add_zero]
  · have hmem : x ∈ k :: keys ↔ x ∈ keys := by simp [hx]
    rw [left, left, Function.update_of_ne hx, List.idxOf_cons_ne _ (Ne.symm hx)]
    simp only [hmem, Nat.add_assoc, Nat.add_comm 1, Nat.succ_eq_add_one]

omit [DecidableEq κ] in
/-- The key of a node is not among those behind it. -/
theorem Rep.key_notMem (h : Rep b (m ++ p :: r) f) (hkp : b.key p = some k)
    (hkeys : r.map b.key = keys.map some) : k ∉ keys := by
  intro hk
  have hmem : some k ∈ r.map b.key := hkeys ▸ List.mem_map_of_mem hk
  obtain ⟨q, hq, hkq⟩ := List.mem_map.1 hmem
  obtain ⟨k', hk', hne⟩ := h.other_keys hkp q (List.mem_append_right m hq)
  exact hne (Option.some.inj (hk'.symm.trans hkq))

/-- A traversal visits the nodes it can reach at its start. -/
theorem Rep.traverse (h : Rep b (m ++ r) f) (hc : Chain 0 b.next head r)
    (hkeys : r.map b.key = keys.map some) (hfuel : r.length < fuel) :
    ∃ b' l', traverse true calls fuel i head b =
        some (keys.mapIdx fun j k => (k, answers (calls (i + j)) (f k)), b') ∧
      Rep b' l' (left f calls i keys) := by
  induction r generalizing m b f head i keys fuel with
  | nil =>
    obtain rfl : keys = [] := by simpa using hkeys
    obtain ⟨fuel, rfl⟩ := Nat.exists_eq_add_of_lt hfuel
    refine ⟨b, m ++ [], ?_, ?_⟩
    · rw [MapReduce.traverse, if_neg (by simpa using hc)]
      rfl
    · have hleft : left f calls i [] = f := by
        funext k
        rw [left, if_neg List.not_mem_nil]
      rwa [hleft]
  | cons p r ih =>
    obtain ⟨fuel, rfl⟩ : ∃ n, fuel = n + 1 := ⟨fuel - 1, by simp at hfuel; omega⟩
    obtain ⟨rfl, hne, -⟩ := hc
    obtain ⟨k, keys', rfl, hkp, hkeys⟩ : ∃ k keys', keys = k :: keys' ∧ b.key head = some k ∧
        r.map b.key = keys'.map some := by
      cases keys with
      | nil => cases hkeys
      | cons k keys' =>
        obtain ⟨hkp, hkeys⟩ := List.cons.inj hkeys
        exact ⟨k, keys', rfl, hkp, hkeys⟩
    have hnot := h.key_notMem hkp hkeys
    obtain ⟨b₁, m', hcalls, hrep, hchain, hkey⟩ := h.getterCalls hkp (calls i)
    obtain ⟨b', l', hrun, hrep'⟩ := ih hrep hchain (hkey ▸ hkeys) (by simpa using hfuel)
    refine ⟨b', l', ?_, left_cons hnot ▸ hrep'⟩
    rw [MapReduce.traverse, if_pos ⟨rfl, hne⟩, hkp]
    simp only [Option.bind_eq_bind, Option.bind_some, hcalls, hrun, List.mapIdx_cons, Nat.add_zero]
    -- The values of the keys to come are those of the start.
    have hsame : (keys'.mapIdx fun j x => (x, answers (calls (i + 1 + j))
        (Function.update f k ((f k).drop (calls i)) x))) =
        keys'.mapIdx fun j x => (x, answers (calls (i + (j + 1))) (f x)) := by
      rw [List.mapIdx_eq_mapIdx_iff]
      intro j hj
      have hne' : keys'[j] ≠ k := fun he => hnot (he ▸ List.getElem_mem hj)
      rw [Function.update_of_ne hne', Nat.add_assoc, Nat.add_comm 1 j]
    rw [hsame]

omit [DecidableEq κ] in
theorem Rep.exists_keys (h : Rep b l f) : ∃ keys : List κ, l.map b.key = keys.map some := by
  have hkeyed : ∀ p ∈ l, ∃ k, b.key p = some k := fun p hp => h.key_of_mem hp
  clear h
  induction l with
  | nil => exact ⟨[], rfl⟩
  | cons p l ih =>
    obtain ⟨⟨k, hk⟩, hl⟩ := List.forall_mem_cons.1 hkeyed
    obtain ⟨keys, hkeys⟩ := ih hl
    exact ⟨k :: keys, by rw [List.map_cons, hk, hkeys, List.map_cons]⟩

/-- The loop of a traversal is complete. -/
theorem Rep.complete (h : Rep b l f) (calls : ℕ → ℕ) :
    Complete f calls (MapReduce.traverse true calls b.fresh 0 (b.next hdr) b) := by
  obtain ⟨keys, hkeys⟩ := h.exists_keys
  have hmem : ∀ k, k ∈ keys ↔ ∃ p ∈ l, b.key p = some k := fun k => by
    rw [← List.mem_map, hkeys, List.mem_map_of_injective (Option.some_injective κ)]
  have hcover : ∀ k, k ∈ keys ↔ f k ≠ [] := fun k =>
    (hmem k).trans ⟨fun ⟨p, hp, hkp⟩ => h.ne_nil hp hkp, h.cover k⟩
  have hnodup : keys.Nodup := by
    apply List.Nodup.of_map some
    rw [← hkeys]
    exact (List.nodup_cons.1 h.nodup).2.map_on h.inj
  obtain ⟨b', l', hrun, hrep⟩ : ∃ b' l', MapReduce.traverse true calls b.fresh 0 (b.next hdr) b =
      some (keys.mapIdx fun j k => (k, answers (calls (0 + j)) (f k)), b') ∧
      Rep b' l' (left f calls 0 keys) := Rep.traverse (m := []) h h.chain.2.2 hkeys h.length_lt
  refine ⟨keys, b', l', hnodup, hcover, ?_, ?_⟩
  · simp only [hrun, Nat.zero_add]
  · have hleft : left f calls 0 keys = fun k => (f k).drop (calls (keys.idxOf k)) := by
      funext k
      by_cases hk : k ∈ keys
      · rw [left, if_pos hk, Nat.zero_add]
      · have hnil : f k = [] := by
          by_contra hne
          exact hk ((hcover k).2 hne)
        rw [left, if_neg hk, hnil, List.drop_nil]
    rwa [← hleft]

/-! ### The wrappers -/

/-- The values of a key after an insertion in front of them and further ones. -/
theorem reverse_valuesOf_cons (key : κ) (val : ν) (pairs : List (κ × ν)) (f : κ → List ν) (k : κ) :
    (valuesOf ((key, val) :: pairs) k).reverse ++ f k =
      (valuesOf pairs k).reverse ++ Function.update f key (val :: f key) k := by
  rw [← List.singleton_append, valuesOf_append, List.reverse_append, List.append_assoc]
  by_cases hk : k = key
  · rw [hk, valuesOf_self, Function.update_self]
    rfl
  · rw [valuesOf_of_ne (Ne.symm hk), Function.update_of_ne hk]
    rfl

/-- Insertions put the values of each key in front of the older ones, the last of them first. -/
theorem Rep.insertAll (h : Rep b l f) (pairs : List (κ × ν)) :
    ∃ b' l', MapReduce.insertAll pairs b = some b' ∧
      Rep b' l' fun k => (valuesOf pairs k).reverse ++ f k := by
  induction pairs generalizing b l f with
  | nil => exact ⟨b, l, rfl, h⟩
  | cons pair pairs ih =>
    obtain ⟨b₁, l₁, hins, hrep⟩ := h.llInsert pair.1 pair.2
    obtain ⟨b', l', hall, hrep'⟩ := ih hrep
    refine ⟨b', l', ?_, ?_⟩
    · rw [MapReduce.insertAll, List.foldlM_cons, hins]
      exact hall
    · have hvalues := funext (reverse_valuesOf_cons pair.1 pair.2 pairs f)
      rwa [hvalues]

theorem Rep.mapFiles (h : Rep b l f) (job : Job κ) (emits : ℕ → List (κ × ν)) (loca : ℕ) :
    ∃ b' l', MapReduce.mapFiles job emits loca b = some b' ∧
      Rep b' l' fun k => (valuesOf (emitted job emits loca) k).reverse ++ f k := by
  induction hn : job.argc - loca using Nat.strong_induction_on generalizing loca b l f with
  | h n ih =>
    rw [MapReduce.mapFiles, emitted]
    by_cases hlt : loca < job.argc
    · have hpos := job.mappers_pos
      obtain ⟨b₁, l₁, hins, hrep⟩ := h.insertAll (emits loca)
      obtain ⟨b', l', hall, hrep'⟩ := ih _ (by omega) hrep (loca + job.numMappers) rfl
      refine ⟨b', l', ?_, ?_⟩
      · rw [if_pos hlt, hins]
        exact hall
      · simpa only [if_pos hlt, valuesOf_append, List.reverse_append, List.append_assoc] using hrep'
    · rw [if_neg hlt, if_neg hlt]
      exact ⟨b, l, rfl, h⟩

/-- A mapper with a bucket to combine has a file, so its loop is entered. -/
theorem Rep.complete_mapper (h : Rep b l f) {job : Job κ} {loca_r : ℕ} (calls : ℕ → ℕ)
    (hfile : (∀ k, f k = []) ∨ loca_r < job.argc) :
    Complete f calls (mapperTraversal job loca_r calls b) := by
  by_cases hlt : loca_r < job.argc
  · rw [mapperTraversal, decide_eq_true hlt]
    exact h.complete calls
  · have hnil := hfile.resolve_right hlt
    obtain ⟨n, hn⟩ := Nat.exists_eq_add_of_lt h.length_lt
    refine ⟨[], b, l, List.nodup_nil, fun k => ?_, ?_, ?_⟩
    · simp [hnil k]
    · rw [mapperTraversal, decide_eq_false hlt, hn, MapReduce.traverse, if_neg (by simp)]
      rfl
    · have hdrop : (fun k => (f k).drop (calls (([] : List κ).idxOf k))) = f := by
        funext k
        rw [hnil k, List.drop_nil]
      rwa [hdrop]

omit [DecidableEq κ] in
theorem emitted_of_le {job : Job κ} (emits : ℕ → List (κ × ν)) {loca : ℕ} (h : job.argc ≤ loca) :
    emitted job emits loca = [] := by
  rw [emitted, if_neg (by omega)]

/-- **Complete traversals.**  Getter calls, the traversal of `reduce_wrapper` after any insertions
into a bucket, and the traversal of `mapper_wrapper` after the Mapper calls for its files. -/
theorem traversals_complete (h : Rep b l f) :
    (∀ k, ∃ b' l', getNext k b = some ((f k).head?, b') ∧
      Rep b' l' (Function.update f k (f k).tail)) ∧
    (∀ pairs calls, ∃ b₁ l₁, insertAll pairs b = some b₁ ∧
      Rep b₁ l₁ (fun k => (valuesOf pairs k).reverse ++ f k) ∧
      Complete (fun k => (valuesOf pairs k).reverse ++ f k) calls (reduceTraversal calls b₁)) ∧
    ∀ (job : Job κ) emits loca calls, (∀ k, f k = []) ∨ loca < job.argc →
      ∃ b₁ l₁, mapFiles job emits loca b = some b₁ ∧
        Rep b₁ l₁ (fun k => (valuesOf (emitted job emits loca) k).reverse ++ f k) ∧
        Complete (fun k => (valuesOf (emitted job emits loca) k).reverse ++ f k) calls
          (mapperTraversal job loca calls b₁) := by
  refine ⟨h.getNext, fun pairs calls => ?_, fun job emits loca calls hfile => ?_⟩
  · obtain ⟨b₁, l₁, hins, hrep⟩ := h.insertAll pairs
    exact ⟨b₁, l₁, hins, hrep, hrep.complete calls⟩
  · obtain ⟨b₁, l₁, hmap, hrep⟩ := h.mapFiles job emits loca
    refine ⟨b₁, l₁, hmap, hrep, hrep.complete_mapper calls ?_⟩
    by_cases hlt : loca < job.argc
    · exact .inr hlt
    · refine .inl fun k => ?_
      rw [emitted_of_le emits (by omega), valuesOf_nil, hfile.resolve_right hlt k]
      rfl

end Traversal

/-- Two keys, one of them with two values. -/
def someValues : List (ℕ × ℕ) := [(7, 10), (8, 20), (7, 11)]

/-- Every call asks for one value. -/
theorem traversals_complete_someValues : ∃ b₁ l₁,
    insertAll someValues (Bucket.empty : Bucket ℕ ℕ) = some b₁ ∧
      Rep b₁ l₁ (fun k => (valuesOf someValues k).reverse ++ []) ∧
      Complete (fun k => (valuesOf someValues k).reverse ++ []) (fun _ => 1)
        (reduceTraversal (fun _ => 1) b₁) :=
  (traversals_complete rep_empty).2.1 someValues fun _ => 1

/-- The first call goes on after `NULL`, the second leaves a value. -/
example : (do
    let b ← insertAll someValues Bucket.empty
    let run ← reduceTraversal (fun i => 2 - i) b
    some run.1) = some [(8, [some 20, none]), (7, [some 11])] := by
  decide

end OsProjects.MapReduce
