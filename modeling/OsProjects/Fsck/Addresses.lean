import OsProjects.Fsck.Model

/-!
# The address checks

The loops over the block addresses of the in-use inodes, as one list of references.  `Clean` says
what they check of such a list: each reference is in range with its tested bit set, no block is
a direct address twice, and none is an indirect block or an entry of one twice.  `Marked` says what
the marker arrays and the counter hold after it.  Each loop finishes exactly if the references it
passes are clean (`checkRefs_ok_iff`, `checkAddrs_ok_iff`, `checkAllAddrs_ok_iff`).
-/

namespace OsProjects.Fsck

variable {sb : Superblock} {img : Image} {s t : Counts} {r : Ref} {R rs : List Ref} {a : ℕ}

@[simp] theorem complain_ok {c : Prop} [Decidable c] {d : Diag} {u : Unit} :
    complain c d = .ok u ↔ ¬c := by
  unfold complain
  split <;> simp_all

theorem complain_error {c : Prop} [Decidable c] {d : Diag} {e : Stop} :
    complain c d = .error e ↔ c ∧ e = .exit d := by
  unfold complain
  split <;> simp_all [eq_comm]

@[simp] theorem access_ok {c : Prop} [Decidable c] {u : Unit} : access c = .ok u ↔ c := by
  unfold access
  split <;> simp_all

theorem access_error {c : Prop} [Decidable c] {e : Stop} :
    access c = .error e ↔ ¬c ∧ e = .outOfBounds := by
  unfold access
  split <;> simp_all [eq_comm]

theorem deref_ok {u : Unit} : deref a = .ok u ↔ blockOff a + bsize ≤ imgSize := access_ok

/-! ### One reference -/

/-- The nonzero direct addresses of a list of references. -/
def directAddrs (R : List Ref) : List ℕ :=
  R.filterMap fun | .direct a => if a = 0 then none else some a | _ => none

/-- The nonzero indirect blocks and entries of a list of references. -/
def indirectAddrs (R : List Ref) : List ℕ :=
  R.filterMap fun | .indirect a | .entry a => if a = 0 then none else some a | _ => none

/-- The nonzero addresses whose bits are tested: direct addresses and entries. -/
def testedAddrs (R : List Ref) : List ℕ :=
  R.filterMap fun | .direct a | .entry a => if a = 0 then none else some a | .indirect _ => none

/-- The references that count as used blocks of their file. -/
def usedBlocks (R : List Ref) : ℕ :=
  R.countP fun | .direct a | .entry a => a ≠ 0 | .indirect _ => false

/-- The checks of one reference that depend on the image only. -/
def RefOk (sb : Superblock) (img : Image) : Ref → Prop
  | .direct a | .entry a => a ≠ 0 → ¬OutOfRange sb a ∧ bitTest img a = true ∧ a < sb.size
  | .indirect a => (a ≠ 0 → a < sb.size) ∧ blockOff a + bsize ≤ imgSize

instance (sb : Superblock) (img : Image) : (r : Ref) → Decidable (RefOk sb img r)
  | .direct a | .entry a =>
      inferInstanceAs (Decidable (a ≠ 0 → ¬OutOfRange sb a ∧ bitTest img a = true ∧ a < sb.size))
  | .indirect a =>
      inferInstanceAs (Decidable ((a ≠ 0 → a < sb.size) ∧ blockOff a + bsize ≤ imgSize))

/-- The marker of the reference is not set. -/
def Fresh (s : Counts) : Ref → Prop
  | .direct a => a ≠ 0 → s.directAddrArray a = false
  | .indirect a | .entry a => a ≠ 0 → s.indirectAddrArray a = false

/-- What a passed reference leaves behind. -/
def mark (s : Counts) : Ref → Counts
  | .direct a =>
      if a = 0 then s
      else { s with
        directAddrArray := Function.update s.directAddrArray a true
        countDbInode := s.countDbInode + 1
        usedDatablock := s.usedDatablock + 1 }
  | .indirect a =>
      if a = 0 then s
      else { s with
        indirectAddrArray := Function.update s.indirectAddrArray a true
        countDbInode := s.countDbInode + 1 }
  | .entry a =>
      if a = 0 then s
      else { s with
        indirectAddrArray := Function.update s.indirectAddrArray a true
        countDbInode := s.countDbInode + 1
        usedDatablock := s.usedDatablock + 1 }

theorem checkRef_ok_iff : checkRef sb img s r = .ok t ↔
    RefOk sb img r ∧ Fresh s r ∧ mark s r = t := by
  cases r with
  | direct a =>
    by_cases ha : a = 0
    · simp [checkRef, RefOk, Fresh, mark, ha]
    · simp [-bind_pure_comp, checkRef, RefOk, Fresh, mark, ha, bind_ok, and_assoc]
  | indirect a =>
    by_cases ha : a = 0
    · simp [-bind_pure_comp, checkRef, markIndirect, RefOk, Fresh, mark, ha, bind_ok, deref_ok]
    · simp [-bind_pure_comp, checkRef, markIndirect, RefOk, Fresh, mark, ha, bind_ok, deref_ok]
      tauto
  | entry a =>
    by_cases ha : a = 0
    · simp [checkRef, RefOk, Fresh, mark, ha]
    · simp [-bind_pure_comp, checkRef, RefOk, Fresh, mark, ha, bind_ok, and_assoc]

/-! ### Lists of references -/

/-- What the loops check of the references they pass. -/
structure Clean (sb : Superblock) (img : Image) (R : List Ref) : Prop where
  ok : ∀ r ∈ R, RefOk sb img r
  direct_nodup : (directAddrs R).Nodup
  indirect_nodup : (indirectAddrs R).Nodup

/-- The marker arrays and the counter after the references `R`. -/
structure Marked (R : List Ref) (s : Counts) : Prop where
  direct : ∀ a, s.directAddrArray a = true ↔ a ∈ directAddrs R
  indirect : ∀ a, s.indirectAddrArray a = true ↔ a ∈ indirectAddrs R
  count : s.countDbInode = (directAddrs R).length + (indirectAddrs R).length

@[simp] theorem directAddrs_append : directAddrs (R ++ rs) = directAddrs R ++ directAddrs rs := by
  simp [directAddrs]

@[simp] theorem indirectAddrs_append :
    indirectAddrs (R ++ rs) = indirectAddrs R ++ indirectAddrs rs := by
  simp [indirectAddrs]

theorem mem_indirectAddrs : a ∈ indirectAddrs R ↔ (.indirect a ∈ R ∨ .entry a ∈ R) ∧ a ≠ 0 := by
  simp only [indirectAddrs, List.mem_filterMap]
  constructor
  · rintro ⟨r, hr, h⟩
    cases r <;> simp at h <;> obtain ⟨h0, rfl⟩ := h
    · exact ⟨.inl hr, h0⟩
    · exact ⟨.inr hr, h0⟩
  · rintro ⟨hr | hr, h0⟩ <;> exact ⟨_, hr, by simp [h0]⟩

theorem mem_testedAddrs : a ∈ testedAddrs R ↔ (.direct a ∈ R ∨ .entry a ∈ R) ∧ a ≠ 0 := by
  simp only [testedAddrs, List.mem_filterMap]
  constructor
  · rintro ⟨r, hr, h⟩
    cases r <;> simp at h <;> obtain ⟨h0, rfl⟩ := h
    · exact ⟨.inl hr, h0⟩
    · exact ⟨.inr hr, h0⟩
  · rintro ⟨hr | hr, h0⟩ <;> exact ⟨_, hr, by simp [h0]⟩

theorem marked_nil (h : s.directAddrArray = fun _ => false)
    (h' : s.indirectAddrArray = fun _ => false) (h0 : s.countDbInode = 0) : Marked [] s := by
  constructor <;> simp [h, h', h0, directAddrs, indirectAddrs]

theorem clean_nil : Clean sb img [] := by
  constructor <;> simp [directAddrs, indirectAddrs]

@[simp] theorem directAddrs_direct :
    directAddrs [.direct a] = if a = 0 then [] else [a] := by
  by_cases ha : a = 0 <;> simp [directAddrs, ha]

@[simp] theorem indirectAddrs_indirect :
    indirectAddrs [.indirect a] = if a = 0 then [] else [a] := by
  by_cases ha : a = 0 <;> simp [indirectAddrs, ha]

@[simp] theorem indirectAddrs_entry :
    indirectAddrs [.entry a] = if a = 0 then [] else [a] := by
  by_cases ha : a = 0 <;> simp [indirectAddrs, ha]

@[simp] theorem directAddrs_indirect : directAddrs [.indirect a] = [] := rfl
@[simp] theorem directAddrs_entry : directAddrs [.entry a] = [] := rfl
@[simp] theorem indirectAddrs_direct : indirectAddrs [.direct a] = [] := rfl

/-- A passed reference is marked and counted. -/
theorem Marked.mark (h : Marked R s) : Marked (R ++ [r]) (mark s r) := by
  have hcount := h.count
  have hupdate : ∀ {m : ℕ → Bool} {l : List ℕ}, (∀ a, m a = true ↔ a ∈ l) → ∀ b a,
      Function.update m b true a = true ↔ a ∈ l ++ [b] := by
    intro m l hm b a
    rcases eq_or_ne a b with rfl | hab
    · simp
    · simp [hab, hm]
  cases r with
  | direct b =>
    by_cases hb : b = 0
    · constructor <;> simp [Fsck.mark, hb, h.direct, h.indirect, h.count]
    · constructor
      · simpa [Fsck.mark, hb] using hupdate h.direct b
      · simp [Fsck.mark, hb, h.indirect]
      · simp [Fsck.mark, hb]
        omega
  | indirect b | entry b =>
    by_cases hb : b = 0
    · constructor <;> simp [Fsck.mark, hb, h.direct, h.indirect, h.count]
    · constructor
      · simp [Fsck.mark, hb, h.direct]
      · simpa [Fsck.mark, hb] using hupdate h.indirect b
      · simp [Fsck.mark, hb]
        omega

theorem Clean.of_append (h : Clean sb img (R ++ rs)) : Clean sb img R where
  ok r hr := h.ok r (List.mem_append_left _ hr)
  direct_nodup := by
    have := h.direct_nodup
    rw [directAddrs_append] at this
    exact this.of_append_left
  indirect_nodup := by
    have := h.indirect_nodup
    rw [indirectAddrs_append] at this
    exact this.of_append_left

/-- One more reference is clean exactly if its own check passes and its marker is not set. -/
theorem Marked.clean_snoc (h : Marked R s) :
    Clean sb img (R ++ [r]) ↔ Clean sb img R ∧ RefOk sb img r ∧ Fresh s r := by
  have hfresh : ∀ {m : ℕ → Bool} {l : List ℕ}, (∀ a, m a = true ↔ a ∈ l) → l.Nodup → ∀ b,
      (l ++ if b = 0 then [] else [b]).Nodup ↔ (b ≠ 0 → m b = false) := by
    intro m l hm hl b
    by_cases hb : b = 0
    · simp [hb, hl]
    · rw [if_neg hb, List.nodup_append]
      have : m b = false ↔ b ∉ l := by rw [← hm b, Bool.not_eq_true]
      simp [hl, hb, this]
      exact ⟨fun hne hmem => hne b hmem rfl, fun hmem a ha hab => hmem (hab ▸ ha)⟩
  have hok : (∀ r' ∈ R ++ [r], RefOk sb img r') ↔ (∀ r' ∈ R, RefOk sb img r') ∧ RefOk sb img r := by
    simp [or_imp, forall_and]
  constructor
  · rintro ⟨h1, h2, h3⟩
    obtain ⟨h1, hr⟩ := hok.1 h1
    have hd : (directAddrs R).Nodup := by
      rw [directAddrs_append] at h2
      exact h2.of_append_left
    have hi : (indirectAddrs R).Nodup := by
      rw [indirectAddrs_append] at h3
      exact h3.of_append_left
    refine ⟨⟨h1, hd, hi⟩, hr, ?_⟩
    cases r with
    | direct b => exact (hfresh h.direct hd b).1 (by simpa using h2)
    | indirect b | entry b => exact (hfresh h.indirect hi b).1 (by simpa using h3)
  · rintro ⟨⟨h1, hd, hi⟩, hr, hf⟩
    refine ⟨hok.2 ⟨h1, hr⟩, ?_, ?_⟩
    · cases r with
      | direct b => simpa using (hfresh h.direct hd b).2 hf
      | indirect b | entry b => simpa using hd
    · cases r with
      | direct b => simpa using hi
      | indirect b | entry b => simpa using (hfresh h.indirect hi b).2 hf

/-! ### The loops -/

/-- The loop over a list of references. -/
theorem checkRefs_ok_iff (hM : Marked R s) (hC : Clean sb img R) :
    rs.foldlM (checkRef sb img) s = .ok t ↔ Clean sb img (R ++ rs) ∧ rs.foldl mark s = t := by
  induction rs generalizing R s with
  | nil => simp [hC]
  | cons r rs ih =>
    rw [foldlM_cons_ok, List.foldl_cons, List.append_cons]
    constructor
    · rintro ⟨s', hr, hrs⟩
      obtain ⟨hok, hfresh, rfl⟩ := checkRef_ok_iff.1 hr
      exact (ih hM.mark (hM.clean_snoc.2 ⟨hC, hok, hfresh⟩)).1 hrs
    · rintro ⟨hclean, hrs⟩
      have hone : Clean sb img (R ++ [r]) := hclean.of_append
      obtain ⟨-, hok, hfresh⟩ := hM.clean_snoc.1 hone
      exact ⟨mark s r, checkRef_ok_iff.2 ⟨hok, hfresh, rfl⟩, (ih hM.mark hone).2 ⟨hclean, hrs⟩⟩

theorem Marked.marks (h : Marked R s) (rs : List Ref) :
    Marked (R ++ rs) (rs.foldl Fsck.mark s) := by
  induction rs generalizing R s with
  | nil => simpa using h
  | cons r rs ih =>
    rw [List.append_cons]
    exact ih h.mark

theorem usedDatablock_marks : (rs.foldl mark s).usedDatablock =
    s.usedDatablock + usedBlocks rs := by
  induction rs generalizing s with
  | nil => rfl
  | cons r rs ih =>
    rw [List.foldl_cons, ih]
    cases r with
    | direct b | indirect b | entry b =>
      by_cases hb : b = 0 <;> simp [mark, usedBlocks, hb] <;> omega

theorem badsize_marks : (rs.foldl mark s).badsize = s.badsize := by
  induction rs generalizing s with
  | nil => rfl
  | cons r rs ih =>
    rw [List.foldl_cons, ih]
    cases r with
    | direct b | indirect b | entry b => by_cases hb : b = 0 <;> simp [mark, hb]

/-- The references of an inode, none if it is free. -/
def inodeRefs (img : Image) (d : Dinode) : List Ref := if d.type = 0 then [] else refs img d

/-- What the address checks of an inode leave behind. -/
def noteAddrs (img : Image) (s : Counts) (d : Dinode) : Counts :=
  if d.type = 0 then s
  else
    let s := (refs img d).foldl mark { s with usedDatablock := 0 }
    if BadSize d s.usedDatablock then { s with badsize := true } else s

theorem Marked.congr (h : Marked R s) (h1 : t.directAddrArray = s.directAddrArray)
    (h2 : t.indirectAddrArray = s.indirectAddrArray) (h3 : t.countDbInode = s.countDbInode) :
    Marked R t := by
  constructor
  · rw [h1]; exact h.direct
  · rw [h2]; exact h.indirect
  · rw [h3]; exact h.count

theorem Marked.note (h : Marked R s) (img : Image) (d : Dinode) :
    Marked (R ++ inodeRefs img d) (noteAddrs img s d) := by
  unfold inodeRefs noteAddrs
  split
  · simpa using h
  · have h' : Marked R { s with usedDatablock := 0 } := h.congr rfl rfl rfl
    have hm := h'.marks (refs img d)
    dsimp only
    split
    · exact hm.congr rfl rfl rfl
    · exact hm

theorem badsize_noteAddrs (d : Dinode) : (noteAddrs img s d).badsize =
    (s.badsize || decide (BadSize d (usedBlocks (refs img d)))) := by
  unfold noteAddrs
  split
  · rename_i h
    have : ¬BadSize d (usedBlocks (refs img d)) := fun hbad => by simp [BadSize, h, tFile] at hbad
    simp [this]
  · dsimp only
    rw [usedDatablock_marks, Nat.zero_add]
    split <;> rename_i hbad <;> simp [hbad, badsize_marks]

/-- The block of one inode. -/
theorem checkAddrs_ok_iff (hM : Marked R s) (hC : Clean sb img R) {d : Dinode} :
    checkAddrs sb img s d = .ok t ↔
      Clean sb img (R ++ inodeRefs img d) ∧ noteAddrs img s d = t := by
  unfold checkAddrs inodeRefs noteAddrs
  split
  · simp [hC]
  · have hM' : Marked R { s with usedDatablock := 0 } := hM.congr rfl rfl rfl
    simp only [bind_ok, checkRefs_ok_iff hM' hC, pure_ok]
    constructor
    · rintro ⟨s', ⟨hclean, rfl⟩, rfl⟩
      exact ⟨hclean, rfl⟩
    · rintro ⟨hclean, rfl⟩
      exact ⟨_, ⟨hclean, rfl⟩, rfl⟩

/-- The references of a list of inodes. -/
def inodesRefs (img : Image) (is : List ℕ) : List Ref :=
  is.flatMap fun i => inodeRefs img (img.dinode i)

/-- All references of all in-use inodes. -/
def allRefs (sb : Superblock) (img : Image) : List Ref := inodesRefs img (List.range sb.ninodes)

/-- The loop over the inodes. -/
theorem checkAllAddrs_ok_iff (hM : Marked R s) (hC : Clean sb img R) {is : List ℕ} :
    is.foldlM (fun s i => checkAddrs sb img s (img.dinode i)) s = .ok t ↔
      Clean sb img (R ++ inodesRefs img is) ∧
        is.foldl (fun s i => noteAddrs img s (img.dinode i)) s = t := by
  induction is generalizing R s with
  | nil => simp [inodesRefs, hC]
  | cons i is ih =>
    have hassoc : R ++ inodesRefs img (i :: is) =
        R ++ inodeRefs img (img.dinode i) ++ inodesRefs img is := by
      simp [inodesRefs]
    rw [foldlM_cons_ok, List.foldl_cons, hassoc]
    constructor
    · rintro ⟨s', hi, his⟩
      obtain ⟨hclean, rfl⟩ := (checkAddrs_ok_iff hM hC).1 hi
      exact (ih (hM.note _ _) hclean).1 his
    · rintro ⟨hclean, his⟩
      exact ⟨_, (checkAddrs_ok_iff hM hC).2 ⟨hclean.of_append, rfl⟩,
        (ih (hM.note _ _) hclean.of_append).2 ⟨hclean, his⟩⟩

theorem Marked.notes (h : Marked R s) (img : Image) (is : List ℕ) : Marked (R ++ inodesRefs img is)
    (is.foldl (fun s i => noteAddrs img s (img.dinode i)) s) := by
  induction is generalizing R s with
  | nil => simpa [inodesRefs] using h
  | cons i is ih =>
    have := ih (h.note img (img.dinode i))
    simpa [inodesRefs] using this

theorem badsize_notes {is : List ℕ} :
    (is.foldl (fun s i => noteAddrs img s (img.dinode i)) s).badsize = true ↔
      s.badsize = true ∨ ∃ i ∈ is,
      BadSize (img.dinode i) (usedBlocks (refs img (img.dinode i))) := by
  induction is generalizing s with
  | nil => simp
  | cons i is ih =>
    rw [List.foldl_cons, ih, badsize_noteAddrs]
    simp [or_assoc]

end OsProjects.Fsck
