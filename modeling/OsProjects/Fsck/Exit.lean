import OsProjects.Fsck.Entries

/-!
# The ends of a run

`main_ok_iff` takes `exit(0)` apart into the checks it stands for; the loop over the inodes falls
into an address part and a directory part that do not look at each other's variables
(`checkInodes_ok_iff`).  `main_raises` says which ends other than `exit(0)` are possible: only the
address checks complain about the bitmap, and only a walk to the root can go on for ever.
-/

namespace OsProjects.Fsck

variable {sb : Superblock} {img : Image} {stale : ℕ → ℕ → ℕ → Option Dinode} {a : Arrays}
  {s t : State} {inum : ℕ}

/-! ### `exit(0)` -/

/-- The checks of an inode that look at nothing else. -/
def InodeOk (img : Image) (inum : ℕ) : Prop :=
  2 * bsize + 64 * inum + 64 ≤ imgSize ∧ ¬((img.dinode inum).type ≠ 0 ∧
    (img.dinode inum).type ≠ tFile ∧ (img.dinode inum).type ≠ tDir ∧ (img.dinode inum).type ≠ tDev)

instance : Decidable (InodeOk img inum) := inferInstanceAs (Decidable (_ ∧ _))

theorem getInode_ok {d : Dinode} :
    getInode img inum = .ok d ↔ 2 * bsize + 64 * inum + 64 ≤ imgSize ∧ img.dinode inum = d := by
  simp [-bind_pure_comp, getInode, bind_ok]

theorem checkInode_ok_iff : checkInode sb img stale s inum = .ok t ↔
    InodeOk img inum ∧ checkAddrs sb img s.counts (img.dinode inum) = .ok t.counts ∧
      checkDir sb img stale inum s.dirs (img.dinode inum) = .ok t.dirs := by
  simp only [checkInode, bind_ok, getInode_ok, complain_ok, pure_ok, InodeOk]
  constructor
  · rintro ⟨d, ⟨hb, rfl⟩, -, hty, c, hc, ds, hd, rfl⟩
    exact ⟨⟨hb, hty⟩, hc, hd⟩
  · rintro ⟨⟨hb, hty⟩, hc, hd⟩
    exact ⟨_, ⟨hb, rfl⟩, (), hty, _, hc, _, hd, rfl⟩

/-- A free inode is passed over. -/
theorem checkInode_free (hin : 2 * bsize + 64 * inum + 64 ≤ imgSize)
    (h : (img.dinode inum).type = 0) : checkInode sb img stale s inum = .ok s := by
  rw [checkInode_ok_iff]
  refine ⟨⟨hin, fun hty => hty.1 h⟩, ?_, ?_⟩
  · rw [checkAddrs, if_pos h]
    rfl
  · rw [checkDir, if_pos (by simp [h, tDir])]
    rfl

/-- An inode whose check stops in the directory part. -/
theorem checkInode_error_of_checkDir {c : Counts} {e : Stop} (hi : InodeOk img inum)
    (hc : checkAddrs sb img s.counts (img.dinode inum) = .ok c)
    (hd : checkDir sb img stale inum s.dirs (img.dinode inum) = .error e) :
    checkInode sb img stale s inum = .error e := by
  have hget : getInode img inum = .ok (img.dinode inum) := getInode_ok.2 ⟨hi.1, rfl⟩
  have hty : complain ((img.dinode inum).type ≠ 0 ∧ (img.dinode inum).type ≠ tFile ∧
      (img.dinode inum).type ≠ tDir ∧ (img.dinode inum).type ≠ tDev) .badInode = .ok () :=
    complain_ok.2 hi.2
  rw [checkInode, hget, ok_bind, hty, ok_bind, hc, ok_bind, hd]
  rfl

/-- The loop over the inodes is two loops, one over addresses and one over directories. -/
theorem checkInodes_ok_iff {is : List ℕ} :
    is.foldlM (checkInode sb img stale) s = .ok t ↔
      (∀ i ∈ is, InodeOk img i) ∧
      is.foldlM (fun c i => checkAddrs sb img c (img.dinode i)) s.counts = .ok t.counts ∧
      is.foldlM (fun d i => checkDir sb img stale i d (img.dinode i)) s.dirs = .ok t.dirs := by
  induction is generalizing s with
  | nil =>
    obtain ⟨c, d⟩ := s
    obtain ⟨c', d'⟩ := t
    simp
  | cons i is ih =>
    simp only [foldlM_cons_ok, checkInode_ok_iff, ih, List.forall_mem_cons]
    constructor
    · rintro ⟨u, ⟨hi, hc, hd⟩, hall, hcs, hds⟩
      exact ⟨⟨hi, hall⟩, ⟨_, hc, hcs⟩, ⟨_, hd, hds⟩⟩
    · rintro ⟨⟨hi, hall⟩, ⟨c, hc, hcs⟩, ⟨d, hd, hds⟩⟩
      exact ⟨⟨c, d⟩, ⟨hi, hc, hd⟩, hall, hcs, hds⟩

/-- The first count of the last comparison, `count_db_inode`. -/
def counted (sb : Superblock) (img : Image) : ℕ :=
  (directAddrs (allRefs sb img)).length + (indirectAddrs (allRefs sb img)).length

/-- All checks but the comparison of the two counts of data blocks. -/
def PassesOthers (a : Arrays) (stale : ℕ → ℕ → ℕ → Option Dinode) (img : Image) : Prop :=
  ∃ ds, (∀ i < img.superblock.ninodes, InodeOk img i) ∧
    Clean img.superblock img (allRefs img.superblock img) ∧
    (List.range img.superblock.ninodes).foldlM (fun d i =>
      checkDir img.superblock img stale i d (img.dinode i)) (State.init a).dirs = .ok ds ∧
    (∀ i < img.superblock.ninodes, checkReferences img ds.toArrays i = .ok ()) ∧
    1022 ≤ img.superblock.size ∧
    (∀ i < img.superblock.ninodes,
      ¬BadSize (img.dinode i) (usedBlocks (refs img (img.dinode i)))) ∧
    ds.exitCode = false

/-- **What `exit(0)` means.** -/
theorem main_ok_iff : main a stale img = .ok () ↔ PassesOthers a stale img ∧
    countDbBitmap img.superblock img ≤ counted img.superblock img := by
  have hM : Marked [] (State.init a).counts := marked_nil rfl rfl rfl
  have hC : Clean img.superblock img [] := clean_nil
  have hbad : ∀ is : List ℕ,
      (is.foldl (fun s i => noteAddrs img s (img.dinode i)) (State.init a).counts).badsize = false ↔
        ∀ i ∈ is, ¬BadSize (img.dinode i) (usedBlocks (refs img (img.dinode i))) := by
    intro is
    rw [← Bool.not_eq_true, badsize_notes]
    simp [State.init]
  simp only [main, bind_ok, checkInodes_ok_iff, checkAllAddrs_ok_iff hM hC, foldlM_unit_ok,
    complain_ok, List.nil_append, List.mem_range]
  have hcount := (hM.notes img (List.range img.superblock.ninodes)).count
  rw [List.nil_append] at hcount
  constructor
  · rintro ⟨s, ⟨hi, ⟨hclean, hs⟩, hd⟩, -, href, -, hsize, -, hle, -, hb, hexit⟩
    rw [← hs] at hb hle
    refine ⟨⟨s.dirs, hi, hclean, hd, href, by omega,
      fun i hi => (hbad _).1 (by simpa using hb) i (List.mem_range.2 hi), ?_⟩, ?_⟩
    · cases hx : s.dirs.exitCode with
      | false => rfl
      | true => simp [hx] at hexit
    · rw [hcount] at hle
      exact not_lt.1 hle
  · rintro ⟨⟨ds, hi, hclean, hd, href, hsize, hb, hexit⟩, hle⟩
    refine ⟨⟨_, ds⟩, ⟨hi, ⟨hclean, rfl⟩, hd⟩, (), href, (), by omega, (), ?_, (), ?_, ?_⟩
    · dsimp only
      rw [hcount]
      exact not_lt.2 hle
    · simpa using (hbad _).2 fun i hi => hb i (List.mem_range.1 hi)
    · simp [hexit]

/-! ### Other ends -/

section Raises

variable {E : Stop → Prop}

theorem complain_raises {c : Prop} [Decidable c] {d : Diag} (h : E (.exit d)) :
    Raises E (complain c d) := by
  intro e he
  rw [complain_error] at he
  exact he.2 ▸ h

theorem access_raises {c : Prop} [Decidable c] (h : E .outOfBounds) : Raises E (access c) := by
  intro e he
  rw [access_error] at he
  exact he.2 ▸ h

theorem deref_raises {addr : ℕ} (h : E .outOfBounds) : Raises E (deref addr) := access_raises h

theorem getInode_raises (h : E .outOfBounds) : Raises E (getInode img inum) :=
  (access_raises h).bind fun _ => .pure _

/-- A pass of a walk ends early only outside an array or with its own message. -/
theorem walkPass_raises (ho : E .outOfBounds) (hi : E (.exit .inaccessible)) {start c : ℕ} :
    Raises E (walkPass img start c) := by
  have hdes : ∀ des c, Raises E (walkDirents start des c) := by
    intro des
    induction des with
    | nil => exact fun c => .pure _
    | cons de des ih =>
      intro c
      unfold walkDirents
      refine .ite (.ite (.pure _) ?_) (ih c)
      exact (access_raises ho).bind fun _ => (complain_raises hi).bind fun _ => ih de.inum
  have hblock : ∀ addr w, Raises E (walkBlock img start addr w) := fun addr w =>
    (deref_raises ho).bind fun _ => (hdes _ _).bind fun _ => .pure _
  refine Raises.bind (.foldlM fun n _ w => (getInode_raises ho).bind fun d => hblock _ w) fun w =>
    ?_
  refine (getInode_raises ho).bind fun d => (deref_raises ho).bind fun _ => ?_
  exact .foldlM fun addr _ w => hblock addr w

theorem walkLoop_raises (ho : E .outOfBounds) (hi : E (.exit .inaccessible)) (he : E .endless)
    {start n c : ℕ} : Raises E (walkLoop img start n c) := by
  induction n generalizing c with
  | zero => exact .error he
  | succ n ih => exact (walkPass_raises ho hi).bind fun w => .ite (.pure _) ih

theorem walkToRoot_raises (ho : E .outOfBounds) (hi : E (.exit .inaccessible)) (he : E .endless)
    {start c : ℕ} : Raises E (walkToRoot img start c) :=
  (access_raises ho).bind fun _ => walkLoop_raises ho hi he

theorem backPtr_raises (ho : E .outOfBounds) {d : Dinode} : Raises E (backPtr img inum d) := by
  refine Raises.bind (.foldlM fun n _ found => (deref_raises ho).bind fun _ => .pure _) fun w => ?_
  refine (deref_raises ho).bind fun _ => ?_
  exact .foldlM fun addr _ found => (deref_raises ho).bind fun _ => .pure _

/-- The check of the slot, one of directory `inum`, gets to a walk from inode `c`: it is a `".."`
for a directory other than the root; in an indirect block the back pointer is looked for first. -/
def Slot.Walks (img : Image) (inum c : ℕ) : Slot → Prop
  | .block _ => False
  | .direct de => (de.isDotDot = true ∧ c ≠ 0 ∧ c ≠ 1 ∧ de.inum = c) ∧
      2 * bsize + 64 * c + 64 ≤ imgSize ∧ (img.dinode c).type = tDir
  | .indirect stale de => (de.isDotDot = true ∧ c ≠ 0 ∧ c ≠ 1 ∧ de.inum = c) ∧
      ∃ ptr, stale = some ptr ∧ ptr.type = tDir ∧ checkBackPtr img inum de ptr = .ok ()

/-- The run comes to slot `sl` of directory `inum`: it passes the inodes before the directory, the
directory's addresses, and the slots before this one. -/
def ComesToSlot (a : Arrays) (stale : ℕ → ℕ → ℕ → Option Dinode) (img : Image) (inum : ℕ)
    (sl : Slot) : Prop :=
  inum < img.superblock.ninodes ∧ InodeOk img inum ∧ (img.dinode inum).type = tDir ∧
    ∃ s, (List.range inum).foldlM (checkInode img.superblock img stale) (.init a) = .ok s ∧
      (∃ c, checkAddrs img.superblock img s.counts (img.dinode inum) = .ok c) ∧
      ∃ pre suf ds, slots img (stale inum) (img.dinode inum) = pre ++ sl :: suf ∧
        pre.foldlM (checkSlot img.superblock img inum) { s.dirs with curAndPreDir := 0 } = .ok ds

/-- In the check of directory `inum` the run starts a walk from inode `c`. -/
def RunsWalk (a : Arrays) (stale : ℕ → ℕ → ℕ → Option Dinode) (img : Image) (inum c : ℕ) : Prop :=
  ∃ sl, ComesToSlot a stale img inum sl ∧ sl.Walks img inum c

/-- The check of a slot ends in an error of its own or in one of the walk it starts. -/
theorem checkSlot_raises (ho : E .outOfBounds) (hd : ∀ d, d ≠ .markedFree → E (.exit d))
    {sl : Slot} {ds : Dirs} (hw : ∀ c, sl.Walks img inum c → Raises E (walkToRoot img inum c)) :
    Raises E (checkSlot sb img inum ds sl) := by
  have hbump : ∀ f de, Raises E (bump sb f de) := fun f de =>
    (access_raises ho).bind fun _ => .pure _
  have hnamed : ∀ f de, Raises E (bumpNamed sb f de) := fun f de => .ite (hbump f de) (.pure _)
  have hrecord : ∀ ds de num, Raises E (record sb ds de num) := fun ds de num =>
    (hnamed _ de).bind fun _ => (access_raises ho).bind fun _ => .pure _
  have hfile : ∀ ds de, Raises E (countFile sb ds de) := fun ds de =>
    (hbump _ de).bind fun _ => .pure _
  have hdir : ∀ ds de, Raises E (countDir sb ds de) := fun ds de =>
    (access_raises ho).bind fun _ => (complain_raises (hd _ (by simp))).bind fun _ =>
      (hnamed _ de).bind fun _ => .pure _
  have hback : ∀ de ptr, Raises E (checkBackPtr img inum de ptr) := fun de ptr =>
    .ite ((backPtr_raises ho).bind fun _ => complain_raises (hd _ (by simp))) (.pure _)
  cases sl with
  | block addr => exact (deref_raises ho).bind fun _ => .pure _
  | direct de =>
    refine Raises.bind (.ite' (fun _ => .pure _) fun h0 => ?_) fun _ => .pure _
    refine (getInode_raises ho).bind' fun ptr hptr => Raises.bind ?_ fun ds => ?_
    · refine .ite (hfile _ de) (.ite' (fun hty => ?_) fun _ => .pure _)
      refine (complain_raises (hd _ (by simp))).bind fun _ => Raises.bind ?_ fun _ =>
        (hback de ptr).bind fun _ => hdir _ de
      obtain ⟨hin, rfl⟩ := getInode_ok.1 hptr
      exact .ite' (fun hc => hw _ ⟨⟨hc.1, h0, hc.2, rfl⟩, hin, hty⟩) fun _ => .pure _
    · exact (complain_raises (hd _ (by simp))).bind fun _ => hrecord _ de _
  | indirect stale de =>
    refine (complain_raises (hd _ (by simp))).bind fun _ => .ite' (fun _ => .pure _) fun h0 => ?_
    cases stale with
    | none => exact .error ho
    | some ptr =>
      refine Raises.bind (.ite (hfile _ de) (.ite' (fun hty => ?_) fun _ => .pure _)) fun ds => ?_
      · refine (hback de ptr).bind' fun _ hbp => Raises.bind ?_ fun _ => hdir _ de
        exact .ite' (fun hc => hw _ ⟨⟨hc.1, h0, hc.2, rfl⟩, ptr, rfl, hty, hbp⟩) fun _ => .pure _
      · exact (complain_raises (hd _ (by simp))).bind fun _ => hrecord _ de _

/-- The check of a directory complains about directories only. -/
theorem checkDir_raises (ho : E .outOfBounds) (hd : ∀ d, d ≠ .markedFree → E (.exit d)) {ds : Dirs}
    (hw : (img.dinode inum).type = tDir → ∀ pre sl suf ds',
      slots img (stale inum) (img.dinode inum) = pre ++ sl :: suf →
      pre.foldlM (checkSlot sb img inum) { ds with curAndPreDir := 0 } = .ok ds' →
      ∀ c, sl.Walks img inum c → Raises E (walkToRoot img inum c)) :
    Raises E (checkDir sb img stale inum ds (img.dinode inum)) := by
  by_cases hty : (img.dinode inum).type = tDir
  · rw [checkDir_eq_slots hty]
    refine Raises.bind (.foldlM_reached fun pre sl suf ds' heq hpre => ?_) fun ds =>
      (complain_raises (hd _ (by simp))).bind fun _ => .pure _
    exact checkSlot_raises ho hd (hw hty pre sl suf ds' heq hpre)
  · rw [checkDir, if_pos hty]
    exact .pure _

theorem checkRef_raises (ho : E .outOfBounds) (hd : ∀ d, d ≠ .markedFree → E (.exit d)) {c : Counts}
    {r : Ref} (hm : ∀ b ∈ testedAddrs [r], bitTest img b = false → E (.exit .markedFree)) :
    Raises E (checkRef sb img c r) := by
  have hmark : ∀ c addr, Raises E (markIndirect sb c addr) := fun c addr =>
    .ite (.pure _) ((access_raises ho).bind fun _ =>
      (complain_raises (hd _ (by simp))).bind fun _ => .pure _)
  cases r with
  | indirect addr => exact (hmark c addr).bind fun _ => (deref_raises ho).bind fun _ => .pure _
  | direct addr | entry addr =>
    simp only [checkRef]
    split
    · exact .pure _
    · rename_i haddr
      refine (complain_raises (hd _ (by simp))).bind fun _ => Raises.bind ?_ fun _ =>
        (access_raises ho).bind fun _ => (complain_raises (hd _ (by simp))).bind fun _ => .pure _
      intro e he
      obtain ⟨hbit, rfl⟩ := complain_error.1 he
      exact hm addr (by simp [testedAddrs, haddr]) hbit

theorem checkReferences_raises (ho : E .outOfBounds) (hd : ∀ d, d ≠ .markedFree → E (.exit d)) :
    Raises E (checkReferences img a inum) :=
  (getInode_raises ho).bind fun _ => (complain_raises (hd _ (by simp))).bind fun _ =>
    (complain_raises (hd _ (by simp))).bind fun _ => complain_raises (hd _ (by simp))

/-- The loop over the inodes. -/
theorem checkInodes_raises (ho : E .outOfBounds) (hd : ∀ d, d ≠ .markedFree → E (.exit d))
    (hm : ∀ b ∈ testedAddrs (allRefs img.superblock img), bitTest img b = false →
      E (.exit .markedFree))
    (hw : ∀ i c, RunsWalk a stale img i c → Raises E (walkToRoot img i c)) :
    Raises E ((List.range img.superblock.ninodes).foldlM (checkInode img.superblock img stale)
      (.init a)) := by
  refine .foldlM_reached fun pre i suf s heq hpre => ?_
  obtain ⟨hi, rfl⟩ := range_eq_append_cons heq
  intro e he
  unfold checkInode at he
  rcases bind_error.1 he with he | ⟨d, hdi, he⟩
  · exact getInode_raises ho e he
  obtain ⟨hin, rfl⟩ := getInode_ok.1 hdi
  rcases bind_error.1 he with he | ⟨_, hok, he⟩
  · exact complain_raises (hd _ (by simp)) e he
  rcases bind_error.1 he with he | ⟨c, hc, he⟩
  · unfold checkAddrs at he
    split at he
    · cases he
    · rename_i hty
      refine Raises.bind (.foldlM fun r hr c => checkRef_raises ho hd fun b hb hbit => hm b ?_ hbit)
        (fun _ => .pure _) e he
      have hmem : r ∈ allRefs img.superblock img :=
        List.mem_flatMap.2 ⟨i, List.mem_range.2 hi, by simpa [inodeRefs, hty] using hr⟩
      rw [mem_testedAddrs] at hb ⊢
      rcases hb with ⟨hb | hb, h0⟩ <;> rw [List.mem_singleton] at hb <;> subst hb
      · exact ⟨.inl hmem, h0⟩
      · exact ⟨.inr hmem, h0⟩
  rcases bind_error.1 he with he | ⟨ds, -, he⟩
  · refine checkDir_raises ho hd (fun hty pre sl suf ds' heq hpre' c' hc' => ?_) e he
    exact hw i c'
      ⟨sl, ⟨hi, ⟨hin, complain_ok.1 hok⟩, hty, s, hpre, ⟨c, hc⟩, pre, suf, ds', heq, hpre'⟩,
      hc'⟩
  · cases he

/-- Only a bit test makes a run end with the complaint about the bitmap, and only a walk makes it
end in `endless`. -/
theorem main_raises (ho : E .outOfBounds) (hd : ∀ d, d ≠ .markedFree → E (.exit d))
    (hm : ∀ b ∈ testedAddrs (allRefs img.superblock img), bitTest img b = false →
      E (.exit .markedFree))
    (hx : E .exitCode)
    (hw : ∀ i c, RunsWalk a stale img i c → Raises E (walkToRoot img i c)) :
    Raises E (main a stale img) := by
  refine (checkInodes_raises ho hd hm hw).bind fun s => ?_
  refine Raises.bind (.foldlM fun i _ _ => checkReferences_raises ho hd) fun _ => ?_
  exact (complain_raises (hd _ (by simp))).bind fun _ => (complain_raises (hd _ (by simp))).bind
    fun _ => (complain_raises (hd _ (by simp))).bind fun _ => .ite (.error hx) (.pure _)

end Raises

/-- The bitmap complaint comes from a test that failed. -/
theorem main_markedFree (h : main a stale img = .error (.exit .markedFree)) :
    ∃ b ∈ testedAddrs (allRefs img.superblock img), bitTest img b = false := by
  refine main_raises (E := fun e => e = .exit .markedFree → _) (by simp)
    (fun d hd he => absurd (Stop.exit.inj he) hd) (fun b hb hbit _ => ⟨b, hb, hbit⟩) (by simp)
    (fun i c _ => walkToRoot_raises (by simp) (by simp) (by simp)) _ h rfl

end OsProjects.Fsck
