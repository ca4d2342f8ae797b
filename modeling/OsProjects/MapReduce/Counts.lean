import OsProjects.MapReduce.Wordcount

/-!
# `wordcount` counts every word

The library conserves what the client emits; here the client's own variables are accounted for.
`CallBooks` does this for the calls of `Combine` and of `Reduce` alike: each finished call has put
out one line, with its key and the sum of the weights of the values it received, the weight being
`1` for `Combine` and `atoi` for `Reduce`.

* `wbooks_run`: every run keeps the accounts of all threads;
* `WBooks.total_sent`, `WBooks.total_sent_le`: what has been sent for a word, against the files;
* `WBooks.stdout_perm`: what has been printed when `MR_Run` returns;
* `WBooks.goes_on`: until then some thread can take a step.
-/

namespace OsProjects.MapReduce

/-! ### Totals and lines -/

section Lines

/-- The sum of the weights of the values a log has for a key. -/
def total (weight : Word → ℤ) (log : List (Word × Word)) (k : Word) : ℤ :=
  ((valuesOf log k).map weight).sum

/-- What a call with key `k` puts out. -/
def line (weight : Word → ℤ) (log : List (Word × Word)) (k : Word) : Word × Word :=
  (k, printInt (total weight log k))

variable {weight : Word → ℤ} {log log' : List (Word × Word)} {k k' v : Word}

@[simp] theorem total_append : total weight (log ++ log') k =
    total weight log k + total weight log' k := by
  simp [total]

theorem total_self : total weight [(k, v)] k = weight v := by
  simp [total]

theorem total_of_ne (h : k' ≠ k) : total weight [(k', v)] k = 0 := by
  simp [total, valuesOf_of_ne h]

theorem line_append_of_ne (h : k' ≠ k) : line weight (log ++ [(k', v)]) k = line weight log k := by
  rw [line, total_append, total_of_ne h, add_zero, line]

theorem valuesOf_lines {ks : List Word} (g : Word → Word) (hnd : ks.Nodup) (k : Word) :
    valuesOf (ks.map fun w => (w, g w)) k = if k ∈ ks then [g k] else [] := by
  induction ks with
  | nil => rfl
  | cons w ks ih =>
    rw [List.nodup_cons] at hnd
    rw [List.map_cons, ← List.singleton_append, valuesOf_append, ih hnd.2]
    by_cases hw : w = k
    · subst hw
      simp [hnd.1]
    · rw [valuesOf_of_ne hw]
      simp [Ne.symm hw]

end Lines

/-! ### The books of the calls of one thread -/

section Calls

/-- The key of the call a thread is in, and whether its getter has returned `NULL`. -/
def Visit.call : Visit Word → Option (Word × Bool)
  | .between _ => none
  | .inside _ key sawNull => some (key, sawNull)

@[simp] theorem Visit.call_between (head : ℕ) : (Visit.between head : Visit Word).call = none := rfl

@[simp] theorem Visit.call_inside (head : ℕ) (key : Word) (sawNull : Bool) :
    (Visit.inside head key sawNull).call = some (key, sawNull) := rfl

def MapperPc.call : MapperPc Word → Option (Word × Bool)
  | .combining v => v.call
  | _ => none

def ReducerPc.call : ReducerPc Word → Option (Word × Bool)
  | .reducing v => v.call
  | _ => none

/-- What the calls of one thread have put out so far: a line for each call that has returned, and
one for the call it is in once this has been done, which is after the getter returned `NULL`. -/
def CallBooks (weight : Word → ℤ) (calls : List Word) (received outs : List (Word × Word))
    (call : Call) : Option (Word × Bool) → Prop
  | none => outs = calls.map (line weight received)
  | some (key, sawNull) => ∃ earlier, calls = earlier ++ [key] ∧
      call.count = total weight received key ∧ (call.done = true → sawNull = true) ∧
      outs = (if call.done then calls else earlier).map (line weight received)

namespace CallBooks

variable {weight : Word → ℤ} {calls : List Word} {received outs : List (Word × Word)} {call : Call}
  {key value : Word}

theorem start (h : CallBooks weight calls received outs call none)
    (hnew : valuesOf received key = []) :
    CallBooks weight (calls ++ [key]) received outs ⟨0, false⟩ (some (key, false)) :=
  ⟨calls, rfl, by simp [total, hnew], by simp, h⟩

theorem getSome (h : CallBooks weight calls received outs call (some (key, false)))
    (hnd : calls.Nodup) :
    CallBooks weight calls (received ++ [(key, value)]) outs
      { call with count := call.count + weight value } (some (key, false)) := by
  obtain ⟨earlier, rfl, hcount, hdone, houts⟩ := h
  have hf : call.done = false := by simpa using hdone
  refine ⟨earlier, rfl, ?_, hdone, ?_⟩
  · rw [hcount, total_append, total_self]
  · rw [houts, hf, if_neg (by simp)]
    apply List.map_congr_left
    intro k hk
    apply (line_append_of_ne ?_).symm
    rintro rfl
    exact (List.nodup_append.1 hnd).2.2 _ hk _ (by simp) rfl

theorem getNull (h : CallBooks weight calls received outs call (some (key, false))) :
    CallBooks weight calls received outs call (some (key, true)) := by
  obtain ⟨earlier, hcalls, hcount, -, houts⟩ := h
  exact ⟨earlier, hcalls, hcount, fun _ => rfl, houts⟩

theorem emit (h : CallBooks weight calls received outs call (some (key, true)))
    (hdone : call.done = false) :
    CallBooks weight calls received (outs ++ [(key, printInt call.count)])
      { call with done := true } (some (key, true)) := by
  obtain ⟨earlier, hcalls, hcount, -, houts⟩ := h
  refine ⟨earlier, hcalls, hcount, fun _ => rfl, ?_⟩
  rw [hdone, if_neg (by simp)] at houts
  rw [if_pos rfl, houts, hcalls, List.map_append, hcount]
  rfl

theorem ret (h : CallBooks weight calls received outs call (some (key, true)))
    (hdone : call.done = true) :
    CallBooks weight calls received outs call none := by
  obtain ⟨earlier, -, -, -, houts⟩ := h
  rwa [if_pos hdone] at houts

/-- What has been put out are the lines of some of the calls. -/
theorem exists_lines {v : Option (Word × Bool)}
    (h : CallBooks weight calls received outs call v) :
    ∃ ks, List.Sublist ks calls ∧ outs = ks.map (line weight received) := by
  cases v with
  | none => exact ⟨calls, List.Sublist.refl _, h⟩
  | some v =>
    obtain ⟨earlier, rfl, -, -, houts⟩ := h
    refine ⟨_, ?_, houts⟩
    split
    · exact List.Sublist.refl _
    · exact List.sublist_append_left _ _

end CallBooks

end Calls

/-! ### Records -/

section Records

/-- The steps of the library. -/
def libEvents (was : List WEvent) : List (Event Word Word) :=
  was.filterMap fun | .lib e => some e | .printf _ _ _ => none

/-- The lines printed by reducer thread `j`. -/
def prints (j : ℕ) (was : List WEvent) : List (Word × Word) :=
  was.filterMap fun | .printf j' key value => if j' = j then some (key, value) else none | _ => none

/-- The pairs mapper thread `i` emitted to the Reducer. -/
def sentBy (i : ℕ) (as : List (Event Word Word)) : List (Word × Word) :=
  as.filterMap fun | .emitToReducer i' k v => if i' = i then some (k, v) else none | _ => none

variable {i j : ℕ} {as : List (Event Word Word)} {was : List WEvent} {e : Event Word Word}
  {key value : Word}

@[simp] theorem libEvents_lib : libEvents (was ++ [.lib e]) = libEvents was ++ [e] := by
  simp [libEvents]

@[simp] theorem libEvents_printf : libEvents (was ++ [.printf j key value]) = libEvents was := by
  simp [libEvents]

@[simp] theorem prints_lib : prints j (was ++ [.lib e]) = prints j was := by
  simp [prints]

@[simp] theorem prints_printf {j' : ℕ} : prints j (was ++ [.printf j' key value]) =
    prints j was ++ if j' = j then [(key, value)] else [] := by
  by_cases h : j' = j <;> simp [prints, h]

@[simp] theorem sentBy_snoc : sentBy i (as ++ [e]) = sentBy i as ++
    match e with | .emitToReducer i' k v => if i' = i then [(k, v)] else [] | _ => [] := by
  cases e with
  | emitToReducer i' k v => by_cases h : i' = i <;> simp [sentBy, h]
  | _ => simp [sentBy]

theorem sentBy_frame (as : List (Event Word Word)) (he : e.mapper? ≠ some i) :
    sentBy i (as ++ [e]) = sentBy i as := by
  cases e with
  | emitToReducer i' k v =>
    have hne : i' ≠ i := by simpa [Event.mapper?] using he
    simp [hne]
  | _ => simp

end Records

/-! ### What a step does to the client's variables -/

section Frame

variable {files : List (List UInt8)} {s : WState} {c : Client} {e : Event Word Word} {i j : ℕ}
  {key value : Word}

theorem emitToCombiner_ok (h : clientStep files s (.emitToCombiner i key value) = some c) :
    ∃ cursor, (s.client.map i).next = some (key, cursor) ∧ value = one ∧
      c = { s.client with map := Function.update s.client.map i cursor } := by
  simp only [clientStep, Option.bind_eq_bind, Option.bind_eq_some_iff] at h
  obtain ⟨⟨token, cursor⟩, hnext, h⟩ := h
  split at h
  · rename_i hkv
    obtain ⟨rfl, rfl⟩ := hkv
    exact ⟨cursor, hnext, rfl, (Option.some.inj h).symm⟩
  · cases h

theorem mapReturn_ok (h : clientStep files s (.mapReturn i) = some c) :
    (s.client.map i).next = none ∧ c = s.client := by
  simp only [clientStep] at h
  split at h
  · rename_i hnext
    exact ⟨hnext, (Option.some.inj h).symm⟩
  · cases h

theorem sprintf_eq {count : ℤ} {text : Word} (h : sprintf count = some text) :
    text = printInt count := by
  unfold sprintf at h
  split at h
  · exact (Option.some.inj h).symm
  · cases h

theorem emitToReducer_ok (h : clientStep files s (.emitToReducer i key value) = some c) :
    ∃ head, s.lib.mapper i = .combining (.inside head key true) ∧
      (s.client.combine i).done = false ∧ value = printInt (s.client.combine i).count ∧
      c = { s.client with
        combine :=
          Function.update s.client.combine i { s.client.combine i with done := true } } := by
  simp only [clientStep] at h
  split at h
  · rename_i head key' hpc
    simp only [Option.bind_eq_bind, Option.bind_eq_some_iff] at h
    obtain ⟨text, htext, h⟩ := h
    split at h
    · rename_i hkv
      obtain ⟨hdone, rfl, rfl⟩ := hkv
      exact ⟨head, hpc, hdone, sprintf_eq htext, (Option.some.inj h).symm⟩
    · cases h
  · cases h

theorem combineReturn_ok (h : clientStep files s (.combineReturn i) = some c) :
    (s.client.combine i).done = true ∧ c = s.client := by
  simp only [clientStep] at h
  split at h
  · rename_i hdone
    exact ⟨hdone, (Option.some.inj h).symm⟩
  · cases h

theorem reduceReturn_ok (h : clientStep files s (.reduceReturn j) = some c) :
    (s.client.reduce j).done = true ∧ c = s.client := by
  simp only [clientStep] at h
  split at h
  · rename_i hdone
    exact ⟨hdone, (Option.some.inj h).symm⟩
  · cases h

theorem printf_ok (h : printfStep s j key value = some c) :
    ∃ head, s.lib.reducer j = .reducing (.inside head key true) ∧
      (s.client.reduce j).done = false ∧ value = printInt (s.client.reduce j).count ∧
      c = { s.client with
        reduce := Function.update s.client.reduce j { s.client.reduce j with done := true }
        stdout := s.client.stdout ++ [(key, value)] } := by
  simp only [printfStep] at h
  split at h
  · rename_i head key' hpc
    simp only [Option.bind_eq_bind, Option.bind_eq_some_iff] at h
    obtain ⟨text, htext, h⟩ := h
    split at h
    · rename_i hkv
      obtain ⟨hdone, rfl, rfl⟩ := hkv
      exact ⟨head, hpc, hdone, sprintf_eq htext, (Option.some.inj h).symm⟩
    · cases h
  · cases h

/-- A step of another thread. -/
theorem clientStep_mapper (h : clientStep files s e = some c) (he : e.mapper? ≠ some i) :
    c.map i = s.client.map i ∧ c.combine i = s.client.combine i := by
  have hother : ∀ i', some i' ≠ some i → i ≠ i' := fun i' hne heq => hne (heq ▸ rfl)
  cases e with
  | emitToCombiner i' k v =>
    obtain ⟨cursor, -, -, rfl⟩ := emitToCombiner_ok h
    simp [hother i' he]
  | mapReturn i' => exact (mapReturn_ok h).2 ▸ ⟨rfl, rfl⟩
  | emitToReducer i' k v =>
    obtain ⟨head, -, -, -, rfl⟩ := emitToReducer_ok h
    simp [hother i' he]
  | combineReturn i' => exact (combineReturn_ok h).2 ▸ ⟨rfl, rfl⟩
  | reduceReturn j => exact (reduceReturn_ok h).2 ▸ ⟨rfl, rfl⟩
  | map i' f | combine i' k =>
    cases h
    simp [hother i' he]
  | getForCombine i' k r =>
    cases r <;> cases h
    · exact ⟨rfl, rfl⟩
    · simp [hother i' he]
  | getForReducer j k r => cases r <;> cases h <;> exact ⟨rfl, rfl⟩
  | _ =>
    cases h
    exact ⟨rfl, rfl⟩

theorem clientStep_reducer (h : clientStep files s e = some c) (he : e.reducer? ≠ some j) :
    c.reduce j = s.client.reduce j := by
  have hother : ∀ j', some j' ≠ some j → j ≠ j' := fun j' hne heq => hne (heq ▸ rfl)
  cases e with
  | emitToCombiner i' k v =>
    obtain ⟨cursor, -, -, rfl⟩ := emitToCombiner_ok h
    rfl
  | mapReturn i' => exact (mapReturn_ok h).2 ▸ rfl
  | emitToReducer i' k v =>
    obtain ⟨head, -, -, -, rfl⟩ := emitToReducer_ok h
    rfl
  | combineReturn i' => exact (combineReturn_ok h).2 ▸ rfl
  | reduceReturn j => exact (reduceReturn_ok h).2 ▸ rfl
  | reduce j' k =>
    cases h
    simp [hother j' he]
  | getForCombine i' k r => cases r <;> cases h <;> rfl
  | getForReducer j' k r =>
    cases r <;> cases h
    · rfl
    · simp [hother j' he]
  | _ =>
    cases h
    rfl

theorem clientStep_stdout (h : clientStep files s e = some c) : c.stdout = s.client.stdout := by
  cases e with
  | emitToCombiner i' k v =>
    obtain ⟨cursor, -, -, rfl⟩ := emitToCombiner_ok h
    rfl
  | mapReturn i' => rw [(mapReturn_ok h).2]
  | emitToReducer i' k v =>
    obtain ⟨head, -, -, -, rfl⟩ := emitToReducer_ok h
    rfl
  | combineReturn i' => rw [(combineReturn_ok h).2]
  | reduceReturn j => rw [(reduceReturn_ok h).2]
  | getForCombine i' k r | getForReducer j k r => cases r <;> cases h <;> rfl
  | _ =>
    cases h
    rfl

end Frame

/-! ### The accounts of the threads -/

section Accounts

/-- What the client's variables of mapper thread `i` have to do with the events so far: what it has
emitted and the words left of its file are the words of its files, and what it has sent are the
lines of its calls. -/
structure WMapper (files : List (List UInt8)) (i : ℕ) (as : List (Event Word Word))
    (pc : MapperPc Word) (b : Bucket Word Word) (cursor : Cursor) (call : Call) : Prop where
  noNul : 0 ∉ cursor.fp
  emitted : combineEmitted i as ++ cursor.tokens.map (·, one) =
    ((filesOf i as).flatMap fun f => tokens (content files f)).map (·, one)
  ended : (∀ loca, pc ≠ .mapping loca) → cursor.tokens = []
  calls : CallBooks (fun _ => 1) (combineCalls i as) (combineReceived i as) (sentBy i as) call
    pc.call

variable {files : List (List UInt8)} {job : Job Word} {s : WState} {c : Client}
  {e : Event Word Word} {i j : ℕ} {as : List (Event Word Word)} {pc pc' : MapperPc Word}
  {b b' : Bucket Word Word}

theorem wmapper_init (files : List (List UInt8)) (i : ℕ) :
    WMapper files i [] .idle (Bucket.empty : Bucket Word Word) ⟨none, []⟩ ⟨0, false⟩ where
  noNul := by simp
  emitted := rfl
  ended _ := rfl
  calls := rfl

theorem content_noNul (h0 : ∀ f ∈ files, 0 ∉ f) (i : ℕ) : 0 ∉ content files i := by
  rw [content, List.getD_eq_getElem?_getD]
  cases hf : files[i - 1]? with
  | none => simp
  | some f => exact h0 f (List.mem_of_getElem? hf)

/-- A new call has a key for which nothing has been received, and its keys stay distinct. -/
theorem MapperBooks.visit_facts (h : MapperBooks job i as pc b) :
    (combineCalls i as).Nodup ∧
      ∀ k, k ∉ combineCalls i as → valuesOf (combineReceived i as) k = [] := by
  obtain ⟨f, hl⟩ := h.ledger
  exact ⟨hl.nodup, fun k hk => by_contra fun hne => hk (hl.called_of_received k hne)⟩

/-- Every step of the library keeps the accounts of every mapper thread. -/
theorem WMapper.step (h0 : ∀ f ∈ files, 0 ∉ f)
    (h : WMapper files i as pc b (s.client.map i) (s.client.combine i))
    (hpc : s.lib.mapper i = pc) (hb : MapperBooks job i as pc b)
    (hb' : MapperBooks job i (as ++ [e]) pc' b') (hc : MapperChange job i e pc b pc' b')
    (hclient : clientStep files s e = some c) :
    WMapper files i (as ++ [e]) pc' b' (c.map i) (c.combine i) := by
  obtain ⟨hnoNul, hemitted, hended, hcalls⟩ := h
  cases hc with
  | frame he =>
    obtain ⟨hmap, hcomb⟩ := clientStep_mapper hclient he
    obtain ⟨h1, h2, h3, h4⟩ := mapper_record_frame as he
    rw [hmap, hcomb]
    refine ⟨hnoNul, ?_, hended, ?_⟩
    · rw [h1, h2]
      exact hemitted
    · rw [h3, h4, sentBy_frame as he]
      exact hcalls
  | create he h1 hn =>
    subst he
    cases hclient
    exact ⟨hnoNul, by simpa using hemitted, fun _ => hended (by simp), by
      simpa [MapperPc.call] using hcalls⟩
  | enter he =>
    subst he
    cases hclient
    exact ⟨hnoNul, by simpa using hemitted, fun _ => hended (by simp), by
      simpa [MapperPc.call] using hcalls⟩
  | @map loca _ he hlt =>
    subst he
    cases hclient
    have hnil := hended (by simp)
    rw [hnil] at hemitted
    refine ⟨?_, ?_, fun hne => absurd rfl (hne loca), by
      simpa [MapperPc.call] using hcalls⟩
    · simpa using content_noNul h0 loca
    · have htokens : (Cursor.mk none (content files loca)).tokens =
          tokens (content files loca) := by
        rw [Cursor.tokens_eq]
        rfl
      simpa [htokens] using hemitted
  | @emit loca _ _ k v he hins =>
    subst he
    obtain ⟨cursor, hnext, rfl, rfl⟩ := emitToCombiner_ok hclient
    obtain ⟨htokens, hnoNul'⟩ := next_some hnoNul hnext
    rw [htokens] at hemitted
    refine ⟨by simpa using hnoNul', ?_, fun hne => absurd rfl (hne loca), by
      simpa [MapperPc.call] using hcalls⟩
    simpa using hemitted
  | mapReturn he =>
    subst he
    obtain ⟨hnext, rfl⟩ := mapReturn_ok hclient
    exact ⟨hnoNul, by simpa using hemitted, fun _ => next_none hnext, by
      simpa [MapperPc.call] using hcalls⟩
  | visit he hle hcomb =>
    subst he
    cases hclient
    exact ⟨hnoNul, by simpa using hemitted, fun _ => hended (by simp), by
      simpa [MapperPc.call] using hcalls⟩
  | skip he hle hcomb =>
    subst he
    cases hclient
    exact ⟨hnoNul, by simpa using hemitted, fun _ => hended (by simp), by
      simpa [MapperPc.call] using hcalls⟩
  | @call head _ k he hi h0 hk =>
    subst he
    cases hclient
    have hnew : k ∉ combineCalls i as := by
      have hnd := hb'.visit_facts.1
      intro hk
      simp only [combineCalls_snoc, if_pos, List.nodup_append] at hnd
      exact hnd.2.2 k hk k (by simp) rfl
    refine ⟨hnoNul, by simpa using hemitted, fun _ => hended (by simp), ?_⟩
    simpa [MapperPc.call] using CallBooks.start hcalls (hb.visit_facts.2 k hnew)
  | @get head _ _ k val he hg =>
    subst he
    have hended' := hended (by simp)
    cases val with
    | none =>
      cases hclient
      exact ⟨hnoNul, by simpa using hemitted, fun _ => hended', by
        simpa [MapperPc.call] using CallBooks.getNull hcalls⟩
    | some v =>
      cases hclient
      refine ⟨hnoNul, by simpa using hemitted, fun _ => hended', ?_⟩
      simpa [MapperPc.call] using CallBooks.getSome hcalls hb.visit_facts.1
  | @emitToReducer _ _ k v he hin =>
    subst he
    obtain ⟨head, hpc', hdone, rfl, rfl⟩ := emitToReducer_ok hclient
    obtain rfl := hpc.symm.trans hpc'
    refine ⟨hnoNul, by simpa using hemitted, fun _ => hended (by simp), ?_⟩
    simpa [MapperPc.call] using CallBooks.emit hcalls hdone
  | ret he =>
    subst he
    obtain ⟨hdone, rfl⟩ := combineReturn_ok hclient
    exact ⟨hnoNul, by simpa using hemitted, fun _ => hended (by simp), by
      simpa [MapperPc.call] using CallBooks.ret hcalls hdone⟩
  | done he hhead =>
    subst he
    cases hclient
    exact ⟨hnoNul, by simpa using hemitted, fun _ => hended (by simp), by
      simpa [MapperPc.call] using hcalls⟩

variable {was : List WEvent} {pcr pcr' : ReducerPc Word} {outs : List (Word × Word)}

theorem ReducerBooks.visit_facts (h : ReducerBooks job j as pcr b) :
    (reduceCalls j as).Nodup ∧
      ∀ k, k ∉ reduceCalls j as → valuesOf (reduceReceived j as) k = [] := by
  obtain ⟨f, hl⟩ := h.ledger
  exact ⟨hl.nodup, fun k hk => by_contra fun hne => hk (hl.called_of_received k hne)⟩

/-- Every step of the library keeps the books of the calls of every reducer thread. -/
theorem wreducer_step
    (h : CallBooks atoi (reduceCalls j as) (reduceReceived j as) outs (s.client.reduce j) pcr.call)
    (hb : ReducerBooks job j as pcr b) (hb' : ReducerBooks job j (as ++ [e]) pcr' b')
    (hc : ReducerChange job j e pcr b pcr' b') (hclient : clientStep files s e = some c) :
    CallBooks atoi (reduceCalls j (as ++ [e])) (reduceReceived j (as ++ [e])) outs (c.reduce j)
      pcr'.call := by
  cases hc with
  | frame he hs =>
    obtain ⟨-, h2, h3⟩ := reducer_record_frame as he hs
    rw [h2, h3, clientStep_reducer hclient he]
    exact h
  | insert he hj hins =>
    subst he
    rw [clientStep_reducer hclient (by simp [Event.reducer?])]
    simpa using h
  | create he =>
    subst he
    cases hclient
    simpa [ReducerPc.call] using h
  | enter he =>
    subst he
    cases hclient
    simpa [ReducerPc.call] using h
  | @call head _ k he h0 hk =>
    subst he
    cases hclient
    have hnew : k ∉ reduceCalls j as := by
      have hnd := hb'.visit_facts.1
      intro hk
      simp only [reduceCalls_snoc, if_pos, List.nodup_append] at hnd
      exact hnd.2.2 k hk k (by simp) rfl
    simpa [ReducerPc.call] using CallBooks.start h (hb.visit_facts.2 k hnew)
  | @get head _ _ k val he hg =>
    subst he
    cases val with
    | none =>
      cases hclient
      simpa [ReducerPc.call] using CallBooks.getNull h
    | some v =>
      cases hclient
      simpa [ReducerPc.call] using CallBooks.getSome h hb.visit_facts.1
  | ret he =>
    subst he
    obtain ⟨hdone, rfl⟩ := reduceReturn_ok hclient
    simpa [ReducerPc.call] using CallBooks.ret h hdone
  | done he =>
    subst he
    cases hclient
    simpa [ReducerPc.call] using h

/-- The invariant of a run of `wordcount`. -/
structure WBooks (files : List (List UInt8)) (job : Job Word) (was : List WEvent) (s : WState) :
    Prop where
  account : Account job (libEvents was) s.lib
  mapper : ∀ i, WMapper files i (libEvents was) (s.lib.mapper i) (s.lib.headerOfCurMapper i)
    (s.client.map i) (s.client.combine i)
  reducer : ∀ j, CallBooks atoi (reduceCalls j (libEvents was)) (reduceReceived j (libEvents was))
    (prints j was) (s.client.reduce j) (s.lib.reducer j).call
  stdout : ∀ k, valuesOf s.client.stdout k = valuesOf (prints (job.partition k) was) k

theorem ReducerBooks.partition_of_call (h : ReducerBooks job j as pcr b) {k : Word}
    (hk : k ∈ reduceCalls j as) : job.partition k = j := by
  obtain ⟨f, hl⟩ := h.ledger
  obtain ⟨v, hv⟩ := valuesOf_ne_nil_iff.1 (hl.emitted_of_mem k hk)
  simp only [sentTo, List.mem_filter, decide_eq_true_eq] at hv
  exact hv.2

theorem WBooks.printf {s : WState} (h : WBooks files job was s) {key value : Word}
    (hp : printfStep s j key value = some c) :
    WBooks files job (was ++ [.printf j key value]) { s with client := c } := by
  obtain ⟨head, hpc, hdone, rfl, rfl⟩ := printf_ok hp
  have hr := h.reducer j
  rw [hpc] at hr
  have hkey : job.partition key = j := by
    apply (h.account.books.reducer j).partition_of_call
    obtain ⟨earlier, hcalls, -⟩ := hr
    simp [hcalls]
  refine ⟨by simpa using h.account, by simpa using h.mapper, fun j' => ?_, fun k => ?_⟩
  · rcases eq_or_ne j' j with rfl | hne
    · simpa [hpc, ReducerPc.call] using CallBooks.emit hr hdone
    · simpa [hne, Ne.symm hne] using h.reducer j'
  · have hk := h.stdout k
    rcases eq_or_ne key k with rfl | hne
    · simp [hk, hkey]
    · by_cases hj : j = job.partition k <;> simp [hk, hj, valuesOf_of_ne hne]

theorem WBooks.lib {s : WState} {l : State Word Word} (h0 : ∀ f ∈ files, 0 ∉ f)
    (h : WBooks files job was s) (hclient : clientStep files s e = some c)
    (hlib : MapReduce.step job s.lib e = some l) :
    WBooks files job (was ++ [.lib e]) { lib := l, client := c } := by
  have hacc := h.account.step hlib
  have hids := h.account.books.ids
  have hph := h.account.books.phase
  refine ⟨by simpa using hacc, fun i => ?_, fun j => ?_, fun k => ?_⟩
  · rw [libEvents_lib]
    exact (h.mapper i).step h0 rfl (h.account.books.mapper i) (hacc.books.mapper i)
      (step_mapper hids hph hlib i) hclient
  · rw [libEvents_lib, prints_lib]
    exact wreducer_step (h.reducer j) (h.account.books.reducer j) (hacc.books.reducer j)
      (step_reducer hph hlib j) hclient
  · rw [prints_lib]
    show valuesOf c.stdout k = _
    rw [clientStep_stdout hclient]
    exact h.stdout k

theorem wbooks_run {s : WState} (h0 : ∀ f ∈ files, 0 ∉ f)
    (h : Run (WStep files job) winit was s) : WBooks files job was s := by
  refine h.trace_invariant ?_ fun was s e t h hs => ?_
  · exact
      { account := account_run (Run.nil _)
        mapper := wmapper_init files
        reducer := fun j => rfl
        stdout := fun k => rfl }
  · cases e with
    | lib e =>
      simp only [WStep, wstep, Option.bind_eq_bind, Option.bind_eq_some_iff,
        Option.some.injEq] at hs
      obtain ⟨c, hc, l, hl, rfl⟩ := hs
      exact h.lib h0 hc hl
    | printf j key value =>
      simp only [WStep, wstep, Option.bind_eq_bind, Option.bind_eq_some_iff,
        Option.some.injEq] at hs
      obtain ⟨c, hc, rfl⟩ := hs
      exact h.printf hc

end Accounts

/-! ### Sums over the threads -/

section Sums

variable {as : List (Event Word Word)} {S : Finset ℕ} {k v : Word}

theorem mem_sent_iff {p : Word × Word} : p ∈ sent as ↔ ∃ i, p ∈ sentBy i as := by
  simp only [sent, sentBy, List.mem_filterMap]
  constructor
  · rintro ⟨e, he, hp⟩
    cases e with
    | emitToReducer i k v => exact ⟨i, _, he, by simpa using hp⟩
    | _ => cases hp
  · rintro ⟨i, e, he, hp⟩
    cases e <;> simp at hp
    exact ⟨_, he, by simp [hp.2]⟩

/-- What all threads have sent, thread by thread. -/
theorem total_sent_eq_sum (weight : Word → ℤ) (k : Word) (hS : ∀ i, i ∉ S → sentBy i as = []) :
    total weight (sent as) k = ∑ i ∈ S, total weight (sentBy i as) k := by
  induction as using List.reverseRecOn with
  | nil => simp [sent, sentBy, total]
  | append_singleton as e ih =>
    have hpre : ∀ i, i ∉ S → sentBy i as = [] := by
      intro i hi
      have hnil := hS i hi
      rw [sentBy_snoc, List.append_eq_nil_iff] at hnil
      exact hnil.1
    have hsent : sent (as ++ [e]) = sent as ++ sent [e] := List.filterMap_append
    simp only [hsent, sentBy_snoc, total_append, Finset.sum_add_distrib, ih hpre]
    cases e with
    | emitToReducer i k' v =>
      have hi : i ∈ S := by
        by_contra hi
        simpa using hS i hi
      have hone : ∀ i', total weight (if i = i' then [(k', v)] else []) k =
          if i = i' then total weight [(k', v)] k else 0 := by
        intro i'
        split <;> simp [total]
      simp [sent, hone, Finset.sum_ite_eq, hi]
    | _ => simp [sent, total]

/-- A measure of the words in the files given to the Mapper, thread by thread. -/
theorem files_eq_sum (g : ℕ → List Word) (μ : List Word → ℕ) (hnil : μ [] = 0)
    (happend : ∀ l l', μ (l ++ l') = μ l + μ l') (hS : ∀ i, i ∉ S → filesOf i as = []) :
    μ ((MapReduce.files as).flatMap g) = ∑ i ∈ S, μ ((filesOf i as).flatMap g) := by
  induction as using List.reverseRecOn with
  | nil => simp [MapReduce.files, filesOf, hnil]
  | append_singleton as e ih =>
    have hpre : ∀ i, i ∉ S → filesOf i as = [] := by
      intro i hi
      have h := hS i hi
      rw [filesOf_snoc, List.append_eq_nil_iff] at h
      exact h.1
    simp only [files_snoc, filesOf_snoc, List.flatMap_append, happend, Finset.sum_add_distrib,
      ih hpre]
    cases e with
    | map i f =>
      have hi : i ∈ S := by
        by_contra hi
        simpa using hS i hi
      have hone : ∀ i', μ ((if i = i' then [f] else []).flatMap g) =
          if i = i' then μ (g f) else 0 := by
        intro i'
        split <;> simp [hnil]
      simp [hone, Finset.sum_ite_eq, hi]
    | _ => simp [hnil]

end Sums

/-! ### What has been sent and received, against the files -/

section Totals

variable {files : List (List UInt8)} {job : Job Word} {s : WState} {was : List WEvent} {i j : ℕ}
  {k : Word}

/-- The words of all files. -/
def allTokens (files : List (List UInt8)) : List Word := files.flatMap tokens

theorem total_one (log : List (Word × Word)) (k : Word) :
    total (fun _ => 1) log k = (valuesOf log k).length := by
  simp [total]

theorem valuesOf_map_one (ws : List Word) (k : Word) :
    (valuesOf (ws.map (·, one)) k).length = ws.count k := by
  induction ws with
  | nil => rfl
  | cons w ws ih =>
    rw [List.map_cons, ← List.singleton_append, valuesOf_append, List.length_append, ih]
    by_cases hw : w = k
    · subst hw
      simp [Nat.add_comm]
    · rw [valuesOf_of_ne hw, List.count_cons_of_ne hw]
      simp

theorem allTokens_eq (files : List (List UInt8)) :
    allTokens files = (List.range' 1 files.length).flatMap fun f => tokens (content files f) := by
  have hcontent : (List.range' 1 files.length).map (content files) = files := by
    apply List.ext_getElem
    · simp
    · intro m h1 h2
      simp [content, h2]
  rw [allTokens]
  conv_lhs => rw [← hcontent, List.flatMap_map]

/-- The threads that have taken a step are those that `MR_Run` creates. -/
theorem WBooks.filesOf_nil (h : WBooks files job was s) (hi : i ∉ Finset.Icc 1 job.numMappers) :
    filesOf i (libEvents was) = [] := by
  apply List.eq_nil_iff_forall_not_mem.2
  intro f hf
  obtain ⟨h1, hn, -⟩ := h.account.books.mem_filesOf hf
  exact hi (Finset.mem_Icc.2 ⟨h1, hn⟩)

theorem WBooks.combineEmitted_length (h : WBooks files job was s) (i : ℕ) (k : Word) :
    (valuesOf (combineEmitted i (libEvents was)) k).length + (s.client.map i).tokens.count k =
      ((filesOf i (libEvents was)).flatMap fun f => tokens (content files f)).count k := by
  have hlen := congrArg (fun log => (valuesOf log k).length) (h.mapper i).emitted
  simpa only [valuesOf_append, List.length_append, valuesOf_map_one] using hlen

/-- A pair that has been sent is the line of a call. -/
theorem WBooks.mem_sentBy (h : WBooks files job was s) {v : Word}
    (hp : (k, v) ∈ sentBy i (libEvents was)) :
    k ∈ combineCalls i (libEvents was) ∧
      v = printInt (valuesOf (combineReceived i (libEvents was)) k).length := by
  obtain ⟨ks, hks, hsent⟩ := (h.mapper i).calls.exists_lines
  rw [hsent, List.mem_map] at hp
  obtain ⟨k', hk', hline⟩ := hp
  obtain ⟨rfl, rfl⟩ := Prod.mk.inj hline
  exact ⟨hks.subset hk', by rw [total_one]⟩

theorem WBooks.sentBy_nil (h : WBooks files job was s) (hi : i ∉ Finset.Icc 1 job.numMappers) :
    sentBy i (libEvents was) = [] := by
  apply List.eq_nil_iff_forall_not_mem.2
  rintro ⟨k, v⟩ hp
  obtain ⟨f, hl⟩ := (h.account.books.mapper i).ledger
  have hlen := h.combineEmitted_length i k
  rw [h.filesOf_nil hi] at hlen
  have hne := hl.emitted_of_mem k (h.mem_sentBy hp).1
  rw [← List.length_pos_iff] at hne
  simp only [List.flatMap_nil, List.count_nil] at hlen
  omega

theorem total_lines {ks : List Word} (hnd : ks.Nodup) (log : List (Word × Word)) (k : Word) :
    total atoi (ks.map (line (fun _ => 1) log)) k =
      if k ∈ ks then ((valuesOf log k).length : ℤ) else 0 := by
  have hvalues := valuesOf_lines (fun k => printInt (total (fun _ => 1) log k)) hnd k
  rw [total]
  show (List.map atoi (valuesOf (ks.map fun w => (w, printInt (total (fun _ => 1) log w))) k)).sum =
    _
  rw [hvalues]
  split
  · simp [total_one, atoi_printInt]
  · rfl

/-- A thread has sent no more occurrences of a word than its files have. -/
theorem WBooks.total_sentBy_le (h : WBooks files job was s) (i : ℕ) (k : Word) :
    total atoi (sentBy i (libEvents was)) k ≤
      ((filesOf i (libEvents was)).flatMap fun f => tokens (content files f)).count k := by
  obtain ⟨f, hl⟩ := (h.account.books.mapper i).ledger
  obtain ⟨ks, hks, hsent⟩ := (h.mapper i).calls.exists_lines
  have hlen := h.combineEmitted_length i k
  have hperm := (hl.conserve k).length_eq
  rw [List.length_append] at hperm
  rw [hsent, total_lines (hks.nodup hl.nodup)]
  split <;> omega

/-- When the thread has returned, it has sent them all. -/
theorem WBooks.total_sentBy (h : WBooks files job was s)
    (hcall : (s.lib.mapper i).call = none) (hmap : ∀ loca, s.lib.mapper i ≠ .mapping loca)
    (hperm : (valuesOf (combineReceived i (libEvents was)) k).Perm
      (valuesOf (combineEmitted i (libEvents was)) k)) :
    total atoi (sentBy i (libEvents was)) k =
      ((filesOf i (libEvents was)).flatMap fun f => tokens (content files f)).count k := by
  obtain ⟨f, hl⟩ := (h.account.books.mapper i).ledger
  have hcalls := (h.mapper i).calls
  rw [hcall] at hcalls
  have hsent : sentBy i (libEvents was) = (combineCalls i (libEvents was)).map
    (line (fun _ => 1) (combineReceived i (libEvents was))) := hcalls
  have hlen := h.combineEmitted_length i k
  rw [(h.mapper i).ended hmap, List.count_nil, ← hperm.length_eq] at hlen
  rw [hsent, total_lines hl.nodup]
  split
  · omega
  · rename_i hk
    have hnil : valuesOf (combineReceived i (libEvents was)) k = [] :=
      by_contra fun hne => hk (hl.called_of_received k hne)
    rw [hnil, List.length_nil] at hlen
    omega

/-- The words in the files given to the Mapper are some of all words. -/
theorem WBooks.files_subperm (h : WBooks files job was s) (hargc : job.argc = files.length + 1) :
    ((MapReduce.files (libEvents was)).flatMap fun f => tokens (content files f)).Subperm
      (allTokens files) := by
  have hsub : MapReduce.files (libEvents was) ⊆ List.range' 1 files.length := by
    intro f hf
    obtain ⟨i, hf⟩ := mem_files_iff.1 hf
    obtain ⟨h1, -, hlt, -, t, -, -, rfl⟩ := h.account.books.mem_filesOf hf
    rw [List.mem_range'_1]
    omega
  obtain ⟨l, hperm, hl⟩ := List.subperm_of_subset h.account.books.files_nodup hsub
  rw [allTokens_eq]
  exact ⟨_, hperm.flatMap_right _, hl.flatMap _⟩

/-- What all threads have to do with a measure of the words. -/
theorem WBooks.files_measure (h : WBooks files job was s) (μ : List Word → ℕ) (hnil : μ [] = 0)
    (happend : ∀ l l', μ (l ++ l') = μ l + μ l') :
    μ ((MapReduce.files (libEvents was)).flatMap fun f => tokens (content files f)) =
      ∑ i ∈ Finset.Icc 1 job.numMappers,
        μ ((filesOf i (libEvents was)).flatMap fun f => tokens (content files f)) :=
  files_eq_sum _ μ hnil happend fun _ hi => h.filesOf_nil hi

theorem WBooks.count_files (h : WBooks files job was s) (k : Word) :
    ((MapReduce.files (libEvents was)).flatMap fun f => tokens (content files f)).count k =
      ∑ i ∈ Finset.Icc 1 job.numMappers,
        ((filesOf i (libEvents was)).flatMap fun f => tokens (content files f)).count k :=
  h.files_measure (List.count k) List.count_nil fun _ _ => List.count_append

theorem WBooks.count_filesOf_le (h : WBooks files job was s) (hargc : job.argc = files.length + 1)
    (i : ℕ) (k : Word) :
    ((filesOf i (libEvents was)).flatMap fun f => tokens (content files f)).count k
      ≤ (allTokens files).count k := by
  by_cases hi : i ∈ Finset.Icc 1 job.numMappers
  · apply le_trans ?_ ((h.files_subperm hargc).count_le k)
    rw [h.count_files k]
    exact Finset.single_le_sum
      (f := fun i => ((filesOf i (libEvents was)).flatMap fun f => tokens (content files f)).count
      k)
      (fun _ _ => Nat.zero_le _) hi
  · rw [h.filesOf_nil hi]
    exact Nat.zero_le _

/-- What has been sent for a word is at most what the files have. -/
theorem WBooks.total_sent_le (h : WBooks files job was s) (hargc : job.argc = files.length + 1)
    (k : Word) : total atoi (sent (libEvents was)) k ≤ (allTokens files).count k := by
  have hcount := (h.files_subperm hargc).count_le k
  rw [h.count_files k] at hcount
  rw [total_sent_eq_sum atoi k fun i hi => h.sentBy_nil hi]
  have hsum := Finset.sum_le_sum fun i (_ : i ∈ Finset.Icc 1 job.numMappers) =>
    h.total_sentBy_le i k
  rw [← Nat.cast_sum] at hsum
  omega

/-- When `MR_Run` returns it is just that. -/
theorem WBooks.total_sent (h : WBooks files job was s) (hargc : job.argc = files.length + 1)
    (hcomb : job.combine = true) (hret : s.lib.main = .returned) (k : Word) :
    total atoi (sent (libEvents was)) k = (allTokens files).count k := by
  obtain ⟨hfiles, hcombine, -⟩ := h.account.books.conserved hret
  have hph := h.account.books.phase
  unfold Phase at hph
  simp only [hret] at hph
  obtain ⟨⟨hactive, hmaps⟩, -, -⟩ := hph
  have hlen : job.argc - 1 = files.length := by omega
  rw [total_sent_eq_sum atoi k fun i hi => h.sentBy_nil hi, allTokens_eq,
    ← hlen, ← (hfiles.flatMap_right _).count_eq, h.count_files k, Nat.cast_sum]
  apply Finset.sum_congr rfl
  intro i hi
  obtain ⟨h1, hn⟩ := Finset.mem_Icc.1 hi
  have hexit := hmaps i ((hactive i).2 ⟨h1, hn⟩)
  exact h.total_sentBy (by rw [hexit]; rfl) (by simp [hexit]) ((hcombine hcomb i h1 hn).2.2 k)

theorem WBooks.mem_allTokens_of_sent (h : WBooks files job was s)
    (hargc : job.argc = files.length + 1) {v : Word} (hp : (k, v) ∈ sent (libEvents was)) :
    k ∈ allTokens files := by
  obtain ⟨i, hp⟩ := mem_sent_iff.1 hp
  obtain ⟨f, hl⟩ := (h.account.books.mapper i).ledger
  have hne := hl.emitted_of_mem k (h.mem_sentBy hp).1
  have hlen := h.combineEmitted_length i k
  have hle := h.count_filesOf_le hargc i k
  rw [← List.length_pos_iff] at hne
  apply List.count_pos_iff.1
  omega

/-- **What has been printed** when `MR_Run` returns. -/
theorem WBooks.stdout_perm (h : WBooks files job was s) (hargc : job.argc = files.length + 1)
    (hcomb : job.combine = true) (hret : s.lib.main = .returned) :
    s.client.stdout.Perm
      ((allTokens files).dedup.map fun w => (w, printInt ((allTokens files).count w))) := by
  obtain ⟨-, -, hreduce⟩ := h.account.books.conserved hret
  have hph := h.account.books.phase
  unfold Phase at hph
  simp only [hret] at hph
  obtain ⟨-, -, hreds⟩ := hph
  apply perm_of_valuesOf
  intro k
  apply List.Perm.of_eq
  -- The word is printed by the reducer of its partition, if any.
  obtain ⟨hnd, hcalls, hrec⟩ := hreduce (job.partition k)
  have hbooks := h.reducer (job.partition k)
  rw [hreds _ (job.partition_lt k)] at hbooks
  have hprints : prints (job.partition k) was = (reduceCalls (job.partition k) (libEvents was)).map
    (line atoi (reduceReceived (job.partition k) (libEvents was))) := hbooks
  have htotal : total atoi (reduceReceived (job.partition k) (libEvents was)) k =
      (allTokens files).count k := by
    rw [← h.total_sent hargc hcomb hret k]
    exact ((hrec k rfl).map atoi).sum_eq
  have hlines := valuesOf_lines
    (fun w => printInt (total atoi (reduceReceived (job.partition k) (libEvents was)) w)) hnd k
  rw [h.stdout k, hprints, valuesOf_lines _ (List.nodup_dedup _) k]
  refine hlines.trans ?_
  have hiff : k ∈ reduceCalls (job.partition k) (libEvents was) ↔ k ∈ (allTokens files).dedup := by
    rw [hcalls k, List.mem_dedup]
    constructor
    · rintro ⟨-, v, hv⟩
      exact h.mem_allTokens_of_sent hargc hv
    · intro hk
      refine ⟨rfl, valuesOf_ne_nil_iff.1 fun hnil => ?_⟩
      have hpos := List.count_pos_iff.2 hk
      have hsent := h.total_sent hargc hcomb hret k
      rw [total, hnil, List.map_nil, List.sum_nil] at hsent
      omega
  simp only [hiff, htotal]

end Totals

/-! ### No buffer overflows and no thread is stuck -/

section GoesOn

variable {files : List (List UInt8)} {job : Job Word} {s : WState} {was : List WEvent} {i j : ℕ}
  {k : Word}

theorem sprintf_ok {n : ℤ} (h0 : 0 ≤ n) (hn : n < 10 ^ 9) : sprintf n = some (printInt n) := by
  have hlen : (decimal n.natAbs).length ≤ 9 := length_decimal_le (by decide) (by omega)
  have hprint : printInt n = decimal n.natAbs := by rw [printInt, if_neg (by omega)]
  rw [sprintf, hprint, if_pos (by omega)]

/-- The text of a count of `Combine` fits. -/
theorem WBooks.sprintf_combine (h : WBooks files job was s) (hargc : job.argc = files.length + 1)
    (hcount : ∀ k, (allTokens files).count k < 10 ^ 9) {sawNull : Bool}
    (hcall : (s.lib.mapper i).call = some (k, sawNull)) :
    sprintf (s.client.combine i).count = some (printInt (s.client.combine i).count) := by
  have hcalls := (h.mapper i).calls
  rw [hcall] at hcalls
  obtain ⟨earlier, -, htotal, -, -⟩ := hcalls
  obtain ⟨f, hl⟩ := (h.account.books.mapper i).ledger
  have hperm := (hl.conserve k).length_eq
  have hlen := h.combineEmitted_length i k
  have hle := h.count_filesOf_le hargc i k
  have hlt := hcount k
  rw [List.length_append] at hperm
  rw [total_one] at htotal
  apply sprintf_ok <;> omega

theorem WBooks.atoi_nonneg (h : WBooks files job was s) {v : Word}
    (hv : v ∈ valuesOf (sent (libEvents was)) k) : 0 ≤ atoi v := by
  simp only [valuesOf, List.mem_map, List.mem_filter, decide_eq_true_eq] at hv
  obtain ⟨p, ⟨hp, rfl⟩, rfl⟩ := hv
  obtain ⟨i, hp⟩ := mem_sent_iff.1 hp
  rw [(h.mem_sentBy hp).2, atoi_printInt]
  exact Int.natCast_nonneg _

theorem valuesOf_sentTo (as : List (Event Word Word)) (hk : job.partition k = j) :
    valuesOf (sentTo job j as) k = valuesOf (sent as) k := by
  simp only [valuesOf, sentTo, List.filter_filter]
  congr 1
  apply List.filter_congr
  intro p _
  by_cases hp : p.1 = k <;> simp [hp, hk]

/-- The text of a count of `Reduce` fits. -/
theorem WBooks.sprintf_reduce (h : WBooks files job was s) (hargc : job.argc = files.length + 1)
    (hcount : ∀ k, (allTokens files).count k < 10 ^ 9) {sawNull : Bool}
    (hcall : (s.lib.reducer j).call = some (k, sawNull)) :
    sprintf (s.client.reduce j).count = some (printInt (s.client.reduce j).count) := by
  have hcalls := h.reducer j
  rw [hcall] at hcalls
  obtain ⟨earlier, hks, htotal, -, -⟩ := hcalls
  have hk := (h.account.books.reducer j).partition_of_call (k := k) (by simp [hks])
  obtain ⟨f, hl⟩ := (h.account.books.reducer j).ledger
  have hperm := hl.conserve k
  rw [valuesOf_sentTo _ hk] at hperm
  have hnonneg : ∀ v ∈ valuesOf (reduceReceived j (libEvents was)) k ++ f k, 0 ≤ atoi v :=
    fun v hv => h.atoi_nonneg (hperm.subset hv)
  have hsum := (hperm.map atoi).sum_eq
  rw [List.map_append, List.sum_append] at hsum
  have hreceived : 0 ≤ total atoi (reduceReceived j (libEvents was)) k := by
    apply List.sum_nonneg
    simpa using fun v hv => hnonneg v (List.mem_append_left _ hv)
  have hrest : 0 ≤ ((f k).map atoi).sum := by
    apply List.sum_nonneg
    simpa using fun v hv => hnonneg v (List.mem_append_right _ hv)
  have hle := h.total_sent_le hargc k
  have hlt := hcount k
  simp only [total] at *
  apply sprintf_ok <;> omega

/-- Before the return some thread can take a step. -/
theorem WBooks.goes_on (h : WBooks files job was s) (hargc : job.argc = files.length + 1)
    (hcount : ∀ k, (allTokens files).count k < 10 ^ 9) (hret : s.lib.main ≠ .returned) :
    ∃ e t, WStep files job s e t := by
  obtain ⟨hlive, hemit, hsend, -, -⟩ := h.account.books.live h.account.locked
  obtain ⟨e, l, hkind, hl⟩ := hlive hret
  -- A library step that the client allows.
  have lib : ∀ {e : Event Word Word} {l : State Word Word} {c : Client},
    clientStep files s e = some c →
      step job s.lib e = some l → ∃ e t, WStep files job s e t := by
    intro e l c hc hl
    exact ⟨.lib e, { lib := l, client := c }, by simp [WStep, wstep, hc, hl]⟩
  cases e with
  | emitToCombiner i k v | emitToReducer i k v => cases hkind
  | mapReturn i =>
    cases hnext : (s.client.map i).next with
    | none => exact lib (c := s.client) (by simp [clientStep, hnext]) hl
    | some r =>
      obtain ⟨token, cursor⟩ := r
      obtain ⟨loca, hpc⟩ : ∃ loca, s.lib.mapper i = .mapping loca := by
        simp only [step] at hl
        split at hl
        · exact ⟨_, by assumption⟩
        · cases hl
      obtain ⟨l', hl'⟩ := hemit i loca token one hpc
      exact lib (by simp [clientStep, hnext]; rfl) hl'
  | combineReturn i =>
    cases hdone : (s.client.combine i).done with
    | true => exact lib (c := s.client) (by simp [clientStep, hdone]) hl
    | false =>
      obtain ⟨head, k, hpc⟩ : ∃ head k, s.lib.mapper i = .combining (.inside head k true) := by
        simp only [step] at hl
        split at hl
        · exact ⟨_, _, by assumption⟩
        · cases hl
      have htext := h.sprintf_combine hargc hcount (i := i) (k := k) (by rw [hpc]; rfl)
      obtain ⟨l', hl'⟩ := hsend i k (printInt (s.client.combine i).count) (by rw [hpc]; rfl)
      exact lib (by simp [clientStep, hpc, htext, hdone]; rfl) hl'
  | reduceReturn j =>
    cases hdone : (s.client.reduce j).done with
    | true => exact lib (c := s.client) (by simp [clientStep, hdone]) hl
    | false =>
      obtain ⟨head, k, hpc⟩ : ∃ head k, s.lib.reducer j = .reducing (.inside head k true) := by
        simp only [step] at hl
        split at hl
        · exact ⟨_, _, by assumption⟩
        · cases hl
      have htext := h.sprintf_reduce hargc hcount (j := j) (k := k) (by rw [hpc]; rfl)
      have hprintf : ∃ c, printfStep s j k (printInt (s.client.reduce j).count) = some c :=
        ⟨_, by simp [printfStep, hpc, htext, hdone]; rfl⟩
      obtain ⟨c, hc⟩ := hprintf
      exact ⟨.printf j k (printInt (s.client.reduce j).count), { s with client := c }, by
        simp [WStep, wstep, hc]⟩
  | getForCombine i k r => cases r <;> exact lib rfl hl
  | getForReducer j k r => cases r <;> exact lib rfl hl
  | _ => exact lib rfl hl

end GoesOn

end OsProjects.MapReduce
