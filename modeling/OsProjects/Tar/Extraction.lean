import OsProjects.Tar.RoundTrip

/-!
# How much an extraction writes

The loop that writes a file counts up to the length in the header and does not look at the end of
the archive, so a header can ask for more than there is: every byte that is missing is written as
`0xFF`.  Here the archive is any list of bytes, whole or cut off anywhere, other than a file the run
writes to.  Whether `fopen` returns a stream in a turn is left to the host.

* `extraction`: what a run writes and how it ends;
* `Covered`: the missing bytes are no more than the headers;
* `bounded_iff`: which archives are at least as long as what is written;
* `untar_extraction`: the unarchiver ends as `extraction` does, and writes the same.
-/

namespace OsProjects.Tar

/-- How a run over an archive ends. -/
inductive End
  | finished
  /-- `fopen` returned `NULL`, and the run exits. -/
  | cannotOpen
  /-- The `int` that counts the bytes of a file has passed its largest value. -/
  | overflow
deriving DecidableEq, Repr

/-- The length of the entry at the start of a stream, as the unarchiver reads it. -/
def declared (size_buffer f_tar : List UInt8) : Except Error ℕ :=
  turns (fread ((f_tar.drop 100).take 8) size_buffer)

theorem length_extract_fst (n : ℕ) (f_tar : List UInt8) : (extract n f_tar).1.length = n := by
  rw [extract_eq, List.length_append, List.length_take, List.length_replicate]
  omega

theorem length_extract_snd (n : ℕ) (f_tar : List UInt8) :
    (extract n f_tar).2.length = f_tar.length - n := by
  rw [extract_eq, List.length_drop]

theorem length_extract_lt (n : ℕ) {f_tar : List UInt8} (hne : f_tar ≠ []) :
    (extract n (f_tar.drop 108)).2.length < f_tar.length := by
  have hpos := List.length_pos_iff.2 hne
  rw [length_extract_snd, List.length_drop]
  omega

/-- What a run writes from its `k`-th turn on, file by file, and its end. -/
def extraction (opens : ℕ → Bool) (size_buffer : List UInt8) (k : ℕ) (f_tar : List UInt8) :
    List Content × End :=
  if hne : f_tar = [] then ([], .finished)
  else if opens k then
    match declared size_buffer f_tar with
    | .error _ => ([(extract (2 ^ 31) (f_tar.drop 108)).1], .overflow)
    | .ok n =>
      let out := extract n (f_tar.drop 108)
      have := length_extract_lt n hne
      let r := extraction opens size_buffer (k + 1) out.2
      (out.1 :: r.1, r.2)
  else ([], .cannotOpen)
termination_by f_tar.length

section Extraction

variable {opens : ℕ → Bool} {size_buffer : List UInt8} {k n spare : ℕ} {f_tar : List UInt8}

/-! ### One turn -/

@[simp] theorem extraction_nil : extraction opens size_buffer k [] = ([], .finished) := by
  rw [extraction, dif_pos rfl]

theorem extraction_refused (hne : f_tar ≠ []) (ho : opens k = false) :
    extraction opens size_buffer k f_tar = ([], .cannotOpen) := by
  rw [extraction, dif_neg hne, ho, if_neg Bool.false_ne_true]

theorem extraction_overflow {e : Error} (hne : f_tar ≠ []) (ho : opens k = true)
    (hd : declared size_buffer f_tar = .error e) :
    (extraction opens size_buffer k f_tar).2 = .overflow := by
  rw [extraction, dif_neg hne, if_pos ho, hd]

theorem extraction_turn (hne : f_tar ≠ []) (ho : opens k = true)
    (hd : declared size_buffer f_tar = .ok n) :
    extraction opens size_buffer k f_tar =
      ((extract n (f_tar.drop 108)).1 ::
          (extraction opens size_buffer (k + 1) (extract n (f_tar.drop 108)).2).1,
        (extraction opens size_buffer (k + 1) (extract n (f_tar.drop 108)).2).2) := by
  rw [extraction, dif_neg hne, if_pos ho, hd]

/-! ### The bound -/

/-- Every length that a run comes to fits an `int`, and the bytes missing from the last entry are no
more than `spare` and the bytes of headers together. -/
inductive Covered (opens : ℕ → Bool) (size_buffer : List UInt8) : ℕ → ℕ → List UInt8 → Prop
  | ended (k spare : ℕ) : Covered opens size_buffer k spare []
  | refused {k spare : ℕ} {f_tar : List UInt8} (ho : opens k = false) :
      Covered opens size_buffer k spare f_tar
  /-- An entry that is all there. -/
  | whole {k spare n : ℕ} {f_tar : List UInt8} (hd : declared size_buffer f_tar = .ok n)
      (hn : n ≤ (f_tar.drop 108).length)
      (hrest : Covered opens size_buffer (k + 1) (spare + min 108 f_tar.length)
        ((f_tar.drop 108).drop n)) : Covered opens size_buffer k spare f_tar
  /-- An entry during which the archive ends. -/
  | short {k spare n : ℕ} {f_tar : List UInt8} (hd : declared size_buffer f_tar = .ok n)
      (hn : (f_tar.drop 108).length < n)
      (hle : n ≤ (f_tar.drop 108).length + (spare + min 108 f_tar.length)) :
      Covered opens size_buffer k spare f_tar

/-- A run ends without an overflow and has written no more bytes than `f_tar` has. -/
def Bounded (f_tar : List UInt8) (r : List Content × End) : Prop :=
  r.2 ≠ .overflow ∧ (r.1.map List.length).sum ≤ f_tar.length

theorem covered_of_le (h : (extraction opens size_buffer k f_tar).2 ≠ .overflow)
    (hle : ((extraction opens size_buffer k f_tar).1.map List.length).sum ≤ f_tar.length + spare) :
    Covered opens size_buffer k spare f_tar := by
  induction hlen : f_tar.length using Nat.strong_induction_on generalizing f_tar k spare with
  | h len ih =>
    by_cases hne : f_tar = []
    · rw [hne]
      exact .ended k spare
    cases ho : opens k with
    | false => exact .refused ho
    | true =>
      cases hd : declared size_buffer f_tar with
      | error e => exact absurd (extraction_overflow hne ho hd) h
      | ok n =>
        rw [extraction_turn hne ho hd] at h hle
        rw [List.map_cons, List.sum_cons, length_extract_fst] at hle
        have hdrop := List.length_drop (i := 108) (l := f_tar)
        by_cases hn : n ≤ (f_tar.drop 108).length
        · refine .whole hd hn ?_
          have hlt := length_extract_lt n hne
          have hsnd := length_extract_snd n (f_tar.drop 108)
          have hrest : (extract n (f_tar.drop 108)).2 = (f_tar.drop 108).drop n := by
            rw [extract_eq]
          rw [← hrest]
          exact ih _ (hlen ▸ hlt) h (by omega) rfl
        · exact .short hd (by omega) (by omega)

theorem le_of_refused (ho : opens k = false) :
    (extraction opens size_buffer k f_tar).2 ≠ .overflow ∧
      ((extraction opens size_buffer k f_tar).1.map List.length).sum ≤ f_tar.length + spare := by
  by_cases hne : f_tar = []
  · simp [hne]
  · simp [extraction_refused hne ho]

theorem Covered.le (h : Covered opens size_buffer k spare f_tar) :
    (extraction opens size_buffer k f_tar).2 ≠ .overflow ∧
      ((extraction opens size_buffer k f_tar).1.map List.length).sum ≤ f_tar.length + spare := by
  induction h with
  | ended k spare => simp
  | refused ho => exact le_of_refused ho
  | @whole k spare n f_tar hd hn hrest ih =>
    by_cases hne : f_tar = []
    · simp [hne]
    cases ho : opens k with
    | false => exact le_of_refused ho
    | true =>
      have hout : (extract n (f_tar.drop 108)).2 = (f_tar.drop 108).drop n := by
        rw [extract_eq]
      rw [extraction_turn hne ho hd, hout, List.map_cons, List.sum_cons, length_extract_fst]
      refine ⟨ih.1, ?_⟩
      have hle := ih.2
      rw [List.length_drop] at hle
      rw [List.length_drop] at hn hle
      omega
  | @short k spare n f_tar hd hn hle =>
    by_cases hne : f_tar = []
    · simp [hne]
    cases ho : opens k with
    | false => exact le_of_refused ho
    | true =>
      have hout : (extract n (f_tar.drop 108)).2 = [] := by
        rw [extract_eq]
        exact List.drop_eq_nil_of_le hn.le
      rw [extraction_turn hne ho hd, hout, extraction_nil, List.map_cons, List.sum_cons,
        length_extract_fst]
      refine ⟨by simp, ?_⟩
      rw [List.length_drop] at hle
      simp only [List.map_nil, List.sum_nil]
      omega

/-- **The bound of an extraction.** -/
theorem bounded_iff (opens : ℕ → Bool) (size_buffer f_tar : List UInt8) :
    Bounded f_tar (extraction opens size_buffer 0 f_tar) ↔
      Covered opens size_buffer 0 0 f_tar :=
  ⟨fun h => covered_of_le h.1 h.2, fun h => h.le⟩

/-- An archive that ends with its first header, which gives the file 109 bytes. -/
def header109 : List UInt8 := nameField [0x61] ++ Bytes.leBytes 8 109

theorem extraction_header109 :
    extraction (fun _ => true) ones.size_buffer 0 header109 =
      ([List.replicate 109 eofByte], .finished) := by
  have hne : header109 ≠ [] := by decide
  have hd : declared ones.size_buffer header109 = .ok 109 := by decide
  have hdrop : header109.drop 108 = [] := by decide
  rw [extraction_turn hne rfl hd, hdrop, extract_eq, List.drop_nil, extraction_nil]
  rfl

theorem not_bounded :
    ¬ Bounded header109 (extraction (fun _ => true) ones.size_buffer 0 header109) := by
  rw [extraction_header109]
  rintro ⟨-, hle⟩
  simp [header109, length_nameField] at hle

end Extraction

/-! ### The unarchiver -/

section Untar

variable {opens : ℕ → Bool} {h : Host} {l : Locals} {f_tar : List UInt8} {k n : ℕ} {e : Error}

/-- Whether a turn gets a stream from `fopen`. -/
def opensEntry (h : Host) (l : Locals) (f_tar : List UInt8) : Except Error Unit := do
  let name ← cString (l.readName f_tar).filename_buffer
  fopenOut h name

/-- In which turns of a run the unarchiver gets a stream from `fopen`. -/
def opened (h : Host) (l : Locals) (f_tar : List UInt8) : ℕ → Bool
  | 0 => (opensEntry h l f_tar).isOk
  | k + 1 =>
    match untarEntry h l f_tar with
    | .error _ => false
    | .ok r => opened h (l.readName f_tar) r.2 k

/-- A run that does not come to `fopen` with a name of its own ends there. -/
def ending : Except Error (List (Name × Content)) → End
  | .ok _ => .finished
  | .error .overflow => .overflow
  | .error _ => .cannotOpen

theorem opensEntry_error (ho : opensEntry h l f_tar = .error e) :
    untarEntry h l f_tar = .error e ∧ e ≠ .overflow := by
  rcases bind_error.1 ho with hname | ⟨name, hname, hopen⟩
  · rw [untarEntry, hname]
    refine ⟨rfl, ?_⟩
    rintro rfl
    rw [cString] at hname
    split at hname <;> cases hname
  · rw [untarEntry, hname, ok_bind, hopen]
    refine ⟨rfl, ?_⟩
    rintro rfl
    rw [fopenOut] at hopen
    split at hopen
    · cases hopen
    · split at hopen <;> cases hopen

theorem declared_error (hd : declared l.size_buffer f_tar = .error e) : e = .overflow := by
  rw [declared, turns] at hd
  split at hd
  · cases hd
  · exact (Except.error.inj hd).symm

/-- A turn that gets a stream fails only if the counter overflows. -/
theorem opensEntry_ok (ho : opensEntry h l f_tar = .ok ()) :
    (declared l.size_buffer f_tar = .error .overflow ∧
        untarEntry h l f_tar = .error .overflow) ∨
      ∃ n name, declared l.size_buffer f_tar = .ok n ∧
        untarEntry h l f_tar =
          .ok ((name, (extract n (f_tar.drop 108)).1), (extract n (f_tar.drop 108)).2) := by
  obtain ⟨name, hname, hopen⟩ := bind_ok.1 ho
  rw [untarEntry, hname, ok_bind, hopen, ok_bind]
  change _ ∧ (declared l.size_buffer f_tar >>= _) = _ ∨ ∃ n name', _ ∧
    (declared l.size_buffer f_tar >>= _) = _
  cases hd : declared l.size_buffer f_tar with
  | error e =>
    rw [declared_error hd]
    exact .inl ⟨rfl, rfl⟩
  | ok n => exact .inr ⟨n, name, rfl, rfl⟩

theorem untar_error (hne : f_tar ≠ []) (hr : untarEntry h l f_tar = .error e) :
    untar h l f_tar = .error e := by
  rw [untar, dif_neg hne]
  split
  · rename_i he
    rw [hr] at he
    exact congrArg Except.error (Except.error.inj he).symm
  · rename_i he
    rw [hr] at he
    cases he

/-- From any turn on. -/
theorem untar_extraction_from (hopens : ∀ i, opens (k + i) = opened h l f_tar i) :
    (extraction opens l.size_buffer k f_tar).2 = ending (untar h l f_tar) ∧
      ∀ out, untar h l f_tar = .ok out →
        (extraction opens l.size_buffer k f_tar).1 = out.map Prod.snd := by
  induction hlen : f_tar.length using Nat.strong_induction_on generalizing l f_tar k with
  | h len ih =>
    by_cases hne : f_tar = []
    · subst hne
      rw [extraction_nil, untar_nil]
      refine ⟨rfl, fun out hout => ?_⟩
      rw [← Except.ok.inj hout]
      rfl
    have hfirst := hopens 0
    rw [Nat.add_zero, opened] at hfirst
    cases ho : opensEntry h l f_tar with
    | error e =>
      obtain ⟨hr, hover⟩ := opensEntry_error ho
      rw [ho] at hfirst
      rw [extraction_refused hne hfirst, untar_error hne hr]
      refine ⟨?_, fun out hout => by cases hout⟩
      cases e with
      | overflow => exact absurd rfl hover
      | _ => rfl
    | ok _ =>
      rw [ho] at hfirst
      rcases opensEntry_ok ho with ⟨hd, hr⟩ | ⟨n, name, hd, hr⟩
      · rw [extraction_overflow hne hfirst hd, untar_error hne hr]
        exact ⟨rfl, fun out hout => by cases hout⟩
      · -- The buffer of the name is all that a turn leaves changed for the next.
        have hrest : ∀ i, opens (k + 1 + i) =
            opened h (l.readName f_tar) (extract n (f_tar.drop 108)).2 i := by
          intro i
          rw [Nat.add_right_comm, Nat.add_assoc, hopens, opened, hr]
        obtain ⟨hend, hout⟩ := ih _ (hlen ▸ length_extract_lt n hne) hrest rfl
        change (extraction opens l.size_buffer _ _).2 = _ at hend
        rw [extraction_turn hne hfirst hd, untar_cons hne hr, hend]
        cases hu : untar h (l.readName f_tar) (extract n (f_tar.drop 108)).2 with
        | error e => exact ⟨by cases e <;> rfl, fun out hout => by cases hout⟩
        | ok files =>
          refine ⟨rfl, fun out hcons => ?_⟩
          rw [← Except.ok.inj hcons, List.map_cons, ← hout files hu]
          rfl

/-- **The unarchiver and `extraction`** end in the same way, and what the unarchiver has written
when it gets through is the same. -/
theorem untar_extraction (h : Host) (l : Locals) (f_tar : List UInt8) :
    (extraction (opened h l f_tar) l.size_buffer 0 f_tar).2 = ending (untar h l f_tar) ∧
      ∀ out, untar h l f_tar = .ok out →
        (extraction (opened h l f_tar) l.size_buffer 0 f_tar).1 = out.map Prod.snd :=
  untar_extraction_from fun i => congrArg _ (Nat.zero_add i)

/-- An unarchiver that gets through keeps to the length of the archive exactly if its entries are
covered. -/
theorem untar_le_iff {out : List (Name × Content)} (hout : untar h l f_tar = .ok out) :
    ((out.map Prod.snd).map List.length).sum ≤ f_tar.length ↔
      Covered (opened h l f_tar) l.size_buffer 0 0 f_tar := by
  obtain ⟨hend, hwritten⟩ := untar_extraction h l f_tar
  rw [hout] at hend
  rw [← hwritten out hout]
  have hover : (extraction (opened h l f_tar) l.size_buffer 0 f_tar).2 ≠ .overflow := by
    rw [hend]
    exact End.noConfusion
  exact ⟨fun hle => covered_of_le hover hle, fun hc => hc.le.2⟩

/-- One whose counter overflows has met an entry that is not. -/
theorem not_covered_of_overflow (hout : untar h l f_tar = .error .overflow) :
    ¬Covered (opened h l f_tar) l.size_buffer 0 0 f_tar := by
  intro hc
  obtain ⟨hend, -⟩ := untar_extraction h l f_tar
  rw [hout] at hend
  exact hc.le.1 hend

end Untar

end OsProjects.Tar
