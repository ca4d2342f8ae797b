import OsProjects.Fsck.Messages

/-!
# Unused blocks

Two images that agree on the superblock, the inode table, the bitmap and the blocks that in-use
inodes refer to (`SameUsed`).  The checker looks at more: at block 0 for every address that is 0, at
what lies behind the inode table, at the blocks of free inodes that a walk comes to, and through the
uninitialised pointer of the indirect directory blocks.  `Looks` are the places that a run looks at,
as far as it gets; where the images agree on these, the runs are the same (`same_run`).
-/

namespace OsProjects.Fsck

open Reporting

variable {sb : Superblock} {img img' : Image} {stale stale' : ℕ → ℕ → ℕ → Option Dinode}
  {a : Arrays} {inum i start c x addr : ℕ} {s : Dirs} {d d' : Dinode} {de de' : Dirent}
  {des des' : List Dirent} {sl : Slot}

/-! ### Images that agree -/

/-- The images agree on block `addr`, if they have such a block. -/
def SameBlock (img img' : Image) (addr : ℕ) : Prop :=
  blockOff addr + bsize ≤ imgSize → ∀ k < bsize, img (blockOff addr + k) = img' (blockOff addr + k)

/-- Some in-use inode refers to block `addr`, directly, as its indirect block or through it. -/
def Referenced (img : Image) (addr : ℕ) : Prop :=
  addr ≠ 0 ∧ ∃ i < img.superblock.ninodes, (img.dinode i).type ≠ 0 ∧
    ((∃ j ≤ ndirect, (img.dinode i).addrs j = addr) ∨
      (img.dinode i).addrs ndirect ≠ 0 ∧ addr ∈ img.entries ((img.dinode i).addrs ndirect))

/-- The images agree on all that is in use. -/
structure SameUsed (img img' : Image) : Prop where
  superblock : img.superblock = img'.superblock
  table : ∀ k < 64 * img.superblock.ninodes, img (2 * bsize + k) = img' (2 * bsize + k)
  bitmap : SameBlock img img' bitmapBlock
  used : ∀ addr, Referenced img addr → SameBlock img img' addr

/-! ### The places that a run looks at -/

/-- A block, an inode by its number, or what the uninitialised pointer points to. -/
inductive Place
  | block (addr : ℕ)
  | inode (inum : ℕ)
  | pointer

/-- The images agree on the place; of the pointer nothing is known. -/
def Place.Same (img img' : Image) : Place → Prop
  | .block addr => SameBlock img img' addr
  | .inode inum => 2 * bsize + 64 * inum + 64 ≤ imgSize →
      ∀ k < 64, img (2 * bsize + 64 * inum + k) = img' (2 * bsize + 64 * inum + k)
  | .pointer => False

/-- The first blocks of a pass. -/
def walkDirect (img : Image) (start c n : ℕ) : M (ℕ × Bool) :=
  (List.range n).foldlM (fun w n => do
    let d ← getInode img w.1
    walkBlock img start (d.addrs n) w) (c, false)

/-- What a pass over inode `c` looks at. -/
inductive PassLooks (img : Image) (start c : ℕ) : Place → Prop
  | inode {n : ℕ} {w : ℕ × Bool} (hn : n ≤ ndirect) (hw : walkDirect img start c n = .ok w) :
      PassLooks img start c (.inode w.1)
  | direct {n : ℕ} {w : ℕ × Bool} {d : Dinode} (hn : n < ndirect)
      (hw : walkDirect img start c n = .ok w) (hd : getInode img w.1 = .ok d) :
      PassLooks img start c (.block (d.addrs n))
  | indirect {w : ℕ × Bool} {d : Dinode} (hw : walkDirect img start c ndirect = .ok w)
      (hd : getInode img w.1 = .ok d) : PassLooks img start c (.block (d.addrs ndirect))
  | entry {w w' : ℕ × Bool} {d : Dinode} {pre suf : List ℕ} {addr : ℕ}
      (hw : walkDirect img start c ndirect = .ok w) (hd : getInode img w.1 = .ok d)
      (hin : deref (d.addrs ndirect) = .ok ())
      (heq : img.entries (d.addrs ndirect) = pre ++ addr :: suf)
      (hpre : pre.foldlM (fun w addr => walkBlock img start addr w) w = .ok w') :
      PassLooks img start c (.block addr)

/-- What the walk from inode `c` looks at, pass by pass. -/
def WalkLooks (img : Image) (start c : ℕ) (r : Place) : Prop :=
  ∃ x, Relation.ReflTransGen (Leads (walkNext img start)) c x ∧ PassLooks img start x r

/-- What the search for a back pointer in inode `d` looks at. -/
inductive BackLooks (img : Image) (d : Dinode) : Place → Prop
  | direct {n : ℕ} (hn : n < ndirect) (hpre : ∀ k < n, deref (d.addrs k) = .ok ()) :
      BackLooks img d (.block (d.addrs n))
  | indirect (hpre : ∀ k < ndirect, deref (d.addrs k) = .ok ()) :
      BackLooks img d (.block (d.addrs ndirect))
  | entry {pre suf : List ℕ} {addr : ℕ} (hdirect : ∀ k < ndirect, deref (d.addrs k) = .ok ())
      (hin : deref (d.addrs ndirect) = .ok ())
      (heq : img.entries (d.addrs ndirect) = pre ++ addr :: suf)
      (hpre : ∀ b ∈ pre, deref b = .ok ()) : BackLooks img d (.block addr)

/-- What the check of a slot of directory `inum` looks at. -/
inductive Slot.Looks (img : Image) (inum : ℕ) : Slot → Place → Prop
  | block {addr : ℕ} : Looks img inum (.block addr) (.block addr)
  | inode {de : Dirent} (h0 : de.inum ≠ 0) : Looks img inum (.direct de) (.inode de.inum)
  | walk {sl : Slot} {c : ℕ} {r : Place} (hw : sl.Walks img inum c) (hr : WalkLooks img inum c r) :
      Looks img inum sl r
  | back {de : Dirent} {ptr : Dinode} {r : Place} (h0 : de.inum ≠ 0)
      (hget : getInode img de.inum = .ok ptr) (hty : ptr.type = tDir) (hdd : de.isDotDot = true)
      (hw : checkWalk img inum de = .ok ()) (hr : BackLooks img ptr r) :
      Looks img inum (.direct de) r
  | pointer {ptr : Option Dinode} {de : Dirent} (h0 : de.inum ≠ 0)
      (hdot : ¬(de.isDot = true ∧ de.inum ≠ inum)) : Looks img inum (.indirect ptr de) .pointer

/-- The run gets past the direct addresses of inode `i`, to its indirect block. -/
def ComesToIndirect (a : Arrays) (stale : ℕ → ℕ → ℕ → Option Dinode) (img : Image) (i : ℕ) : Prop :=
  i < img.superblock.ninodes ∧ InodeOk img i ∧ (img.dinode i).type ≠ 0 ∧
    ∃ s, (List.range i).foldlM (checkInode img.superblock img stale) (.init a) = .ok s ∧
      ∃ c, (directRefs (img.dinode i)).foldlM (checkRef img.superblock img)
        { s.counts with usedDatablock := 0 } = .ok c

/-- The places that a run looks at besides the inode table and the bitmap. -/
inductive Looks (a : Arrays) (stale : ℕ → ℕ → ℕ → Option Dinode) (img : Image) : Place → Prop
  | indirect {i : ℕ} (h : ComesToIndirect a stale img i) :
      Looks a stale img (.block ((img.dinode i).addrs ndirect))
  | slot {i : ℕ} {sl : Slot} {r : Place} (h : ComesToSlot a stale img i sl)
      (hr : sl.Looks img i r) : Looks a stale img r

/-! ### What is read of the places -/

/-- The entries agree in what is read of them. -/
structure SameEntry (de de' : Dirent) : Prop where
  inum : de.inum = de'.inum
  dot : de.isDot = de'.isDot
  dotDot : de.isDotDot = de'.isDotDot

theorem SameEntry.named (h : SameEntry de de') : de.isNamed = de'.isNamed := by
  rw [Dirent.isNamed, Dirent.isNamed, h.dot, h.dotDot]

/-- The inodes agree in what is read of them. -/
structure SameInode (d d' : Dinode) : Prop where
  type : d.type = d'.type
  nlink : d.nlink = d'.nlink
  size : d.size = d'.size
  addrs : ∀ j ≤ ndirect, d.addrs j = d'.addrs j

theorem sameEntry (h : SameBlock img img' addr) (hin : blockOff addr + bsize ≤ imgSize) {k : ℕ}
    (hk : k < direntPerBlock) : SameEntry (img.dirent addr k) (img'.dirent addr k) := by
  have hbyte : ∀ n < 16, img (blockOff addr + 16 * k + n) = img' (blockOff addr + 16 * k + n) := by
    intro n hn
    rw [Nat.add_assoc]
    refine h hin _ ?_
    unfold direntPerBlock at hk
    unfold bsize
    omega
  have hname : ∀ n < 14, (img.dirent addr k).name n = (img'.dirent addr k).name n := fun n hn => by
    show img (blockOff addr + 16 * k + 2 + n) = img' (blockOff addr + 16 * k + 2 + n)
    rw [Nat.add_assoc _ 2]
    exact hbyte _ (by omega)
  refine ⟨Bytes.word_congr fun n hn => hbyte n (by omega), ?_, ?_⟩
  · simp only [Dirent.isDot, strEq, hname 0 (by omega), hname (0 + 1) (by omega)]
  · simp only [Dirent.isDotDot, strEq, hname 0 (by omega), hname (0 + 1) (by omega),
      hname (0 + 1 + 1) (by omega)]

theorem forall₂_dirents (h : SameBlock img img' addr) (hin : blockOff addr + bsize ≤ imgSize) :
    List.Forall₂ SameEntry (img.dirents addr) (img'.dirents addr) := by
  rw [Image.dirents, Image.dirents, List.forall₂_map_left_iff, List.forall₂_map_right_iff,
    List.forall₂_same]
  exact fun k hk => sameEntry h hin (List.mem_range.1 hk)

theorem entry_eq (h : SameBlock img img' addr) (hin : blockOff addr + bsize ≤ imgSize) {k : ℕ}
    (hk : k < nindirect) : img.entry addr k = img'.entry addr k := by
  refine Bytes.word_congr fun n hn => ?_
  rw [Nat.add_assoc]
  refine h hin _ ?_
  unfold nindirect at hk
  unfold bsize
  omega

theorem entries_eq (h : SameBlock img img' addr) (hin : blockOff addr + bsize ≤ imgSize) :
    img.entries addr = img'.entries addr :=
  List.map_congr_left fun _ hk => entry_eq h hin (List.mem_range.1 hk)

theorem sameInode (h : (Place.inode x).Same img img') (hin : 2 * bsize + 64 * x + 64 ≤ imgSize) :
    SameInode (img.dinode x) (img'.dinode x) := by
  have hbyte := h hin
  have hword : ∀ w k, k + w ≤ 64 → img.word w (2 * bsize + 64 * x + k) =
      img'.word w (2 * bsize + 64 * x + k) := by
    intro w k hk
    refine Bytes.word_congr fun n hn => ?_
    rw [Nat.add_assoc _ k]
    exact hbyte _ (by omega)
  refine ⟨hword 2 0 (by omega), congrArg toShort (hword 2 6 (by omega)), hword 4 8 (by omega),
    fun j hj => ?_⟩
  show img.word 4 (2 * bsize + 64 * x + 12 + 4 * j) = img'.word 4 (2 * bsize + 64 * x + 12 + 4 * j)
  rw [Nat.add_assoc _ 12]
  unfold ndirect at hj
  exact hword 4 (12 + 4 * j) (by omega)

/-- The images agree on the inodes of the table. -/
theorem SameUsed.inode (h : SameUsed img img') (hx : x < img.superblock.ninodes) :
    (Place.inode x).Same img img' := fun _ k hk => by
  rw [Nat.add_assoc]
  exact h.table _ (by omega)

theorem bitmapBit_eq (h : SameUsed img img') {n : ℕ} (hn : n < 128) (k : ℕ) :
    img.bitmapBit n k = img'.bitmapBit n k := by
  have hoff : blockOff bitmapBlock = bsize * bitmapBlock := by decide
  rw [Image.bitmapBit, Image.bitmapBit, Bytes.word_congr fun b hb => ?_]
  rw [Nat.add_assoc, ← hoff]
  refine h.bitmap (by decide) _ ?_
  unfold bsize
  omega

/-- Two inodes out of the image, or two that agree. -/
theorem getInode_cases (h : (Place.inode x).Same img img') :
    (getInode img x = .error .outOfBounds ∧ getInode img' x = .error .outOfBounds) ∨
      getInode img x = .ok (img.dinode x) ∧ getInode img' x = .ok (img'.dinode x) ∧
        SameInode (img.dinode x) (img'.dinode x) := by
  by_cases hin : 2 * bsize + 64 * x + 64 ≤ imgSize
  · exact .inr ⟨getInode_ok.2 ⟨hin, rfl⟩, getInode_ok.2 ⟨hin, rfl⟩, sameInode h hin⟩
  · have hacc : access (2 * bsize + 64 * x + 64 ≤ imgSize) = .error .outOfBounds :=
      access_error.2 ⟨hin, rfl⟩
    left
    rw [getInode, getInode, hacc]
    exact ⟨rfl, rfl⟩

/-! ### Walks -/

theorem walkDirents_congr (h : List.Forall₂ SameEntry des des') (c : ℕ) :
    walkDirents start des c = walkDirents start des' c := by
  induction h generalizing c with
  | nil => rfl
  | cons hde _ ih =>
    rw [walkDirents, walkDirents, hde.dotDot, hde.inum]
    simp only [ih]

theorem walkBlock_congr (h : SameBlock img img' addr) (w : ℕ × Bool) :
    walkBlock img start addr w = walkBlock img' start addr w := by
  rw [walkBlock, walkBlock]
  by_cases hin : blockOff addr + bsize ≤ imgSize
  · rw [walkDirents_congr (forall₂_dirents h hin)]
  · have hderef : deref addr = .error .outOfBounds := access_error.2 ⟨hin, rfl⟩
    rw [hderef, error_bind, error_bind]

theorem walkPass_congr (h : ∀ r, PassLooks img start c r → r.Same img img') :
    walkPass img start c = walkPass img' start c := by
  have hdirect : (List.range ndirect).foldlM (fun w n => do
      let d ← getInode img w.1
      walkBlock img start (d.addrs n) w) (c, false) =
      (List.range ndirect).foldlM (fun w n => do
        let d ← getInode img' w.1
        walkBlock img' start (d.addrs n) w) (c, false) := by
    refine foldlM_eq_of_reached fun pre n suf w heq hpre => ?_
    obtain ⟨hn, rfl⟩ := range_eq_append_cons heq
    rcases getInode_cases (h _ (.inode hn.le hpre)) with ⟨hget, hget'⟩ | ⟨hget, hget', hsame⟩
    · rw [hget, hget', error_bind, error_bind]
    · rw [hget, hget', ok_bind, ok_bind, ← hsame.addrs n hn.le]
      exact walkBlock_congr (h _ (.direct hn hpre hget)) w
  rw [walkPass, walkPass, ← hdirect]
  refine bind_eq_of_ok fun w hw => ?_
  rcases getInode_cases (h _ (.inode le_rfl hw)) with ⟨hget, hget'⟩ | ⟨hget, hget', hsame⟩
  · rw [hget, hget', error_bind, error_bind]
  rw [hget, hget', ok_bind, ok_bind, ← hsame.addrs ndirect le_rfl]
  refine bind_eq_of_ok fun _ hin => ?_
  rw [← entries_eq (h _ (.indirect hw hget)) (deref_ok.1 hin)]
  refine foldlM_eq_of_reached fun pre addr suf w' heq hpre => ?_
  exact walkBlock_congr (h _ (.entry hw hget hin heq hpre)) w'

theorem walkLoop_congr {n : ℕ} (h : ∀ r, WalkLooks img start c r → r.Same img img') :
    walkLoop img start n c = walkLoop img' start n c := by
  induction n generalizing c with
  | zero => rfl
  | succ n ih =>
    rw [walkLoop, walkLoop, ← walkPass_congr fun r hr => h r ⟨c, .refl, hr⟩]
    refine bind_eq_of_ok fun w hw => ?_
    obtain ⟨c', root⟩ := w
    cases root with
    | true => rw [if_pos rfl, if_pos rfl]
    | false =>
      rw [if_neg Bool.false_ne_true, if_neg Bool.false_ne_true]
      refine ih fun r hlooks => ?_
      obtain ⟨x, hx, hr⟩ := hlooks
      exact h r ⟨x, .head (walkNext_eq_some.2 hw) hx, hr⟩

/-! ### Entries -/

theorem any_congr (h : List.Forall₂ SameEntry des des') :
    des.any (·.inum = inum) = des'.any (·.inum = inum) := by
  induction h with
  | nil => rfl
  | cons hde _ ih => rw [List.any_cons, List.any_cons, ih, hde.inum]

theorem backPtr_congr (hd : SameInode d d') (h : ∀ r, BackLooks img d r → r.Same img img') :
    backPtr img inum d = backPtr img' inum d' := by
  have hblock : ∀ {found : Bool} {addr : ℕ}, SameBlock img img' addr →
      (do deref addr; pure (found || (img.dirents addr).any (·.inum = inum)) : M Bool) =
        (do deref addr; pure (found || (img'.dirents addr).any (·.inum = inum))) := by
    intro found addr h
    refine bind_eq_of_ok fun _ hin => ?_
    rw [any_congr (forall₂_dirents h (deref_ok.1 hin))]
  have hderef : ∀ {β : Type} {f : β → ℕ → Bool → Bool} {g : β → ℕ} {ks : List β} {w w' : Bool},
      ks.foldlM (fun found k => do deref (g k); pure (f k (g k) found) : Bool → β → M Bool) w =
        .ok w' → ∀ k ∈ ks, deref (g k) = .ok () := by
    intro β f g ks w w' hfold k hk
    obtain ⟨s₁, s₂, hs⟩ := foldlM_ok_mem hfold hk
    obtain ⟨_, hs, -⟩ := bind_ok.1 hs
    exact hs
  rw [backPtr, backPtr]
  have hfirst : (List.range ndirect).foldlM (fun found n => do
      deref (d.addrs n)
      pure (found || (img.dirents (d.addrs n)).any (·.inum = inum))) false =
      ((List.range ndirect).foldlM (fun found n => do
        deref (d'.addrs n)
        pure (found || (img'.dirents (d'.addrs n)).any (·.inum = inum))) false : M Bool) := by
    refine foldlM_eq_of_reached fun pre n suf found heq hpre => ?_
    obtain ⟨hn, rfl⟩ := range_eq_append_cons heq
    rw [← hd.addrs n hn.le]
    refine hblock (h _ (.direct hn fun k hk => ?_))
    exact hderef (f := fun _ addr found => found || (img.dirents addr).any (·.inum = inum))
      hpre k (List.mem_range.2 hk)
  rw [← hfirst, ← hd.addrs ndirect le_rfl]
  refine bind_eq_of_ok fun found hfound => ?_
  have hpre : ∀ k < ndirect, deref (d.addrs k) = .ok () := fun k hk =>
    hderef (f := fun _ addr found => found || (img.dirents addr).any (·.inum = inum))
      hfound k (List.mem_range.2 hk)
  refine bind_eq_of_ok fun _ hin => ?_
  rw [← entries_eq (h _ (.indirect hpre)) (deref_ok.1 hin)]
  refine foldlM_eq_of_reached fun pre addr suf found' heq hentries => ?_
  refine hblock (h _ (.entry hpre hin heq fun b hb => ?_))
  exact hderef (g := id) (f := fun _ addr found => found || (img.dirents addr).any (·.inum = inum))
    hentries b hb

theorem countFile_congr (h : SameEntry de de') : countFile sb s de = countFile sb s de' := by
  simp only [countFile, bump, h.inum]

theorem countDir_congr (h : SameEntry de de') : countDir sb s de = countDir sb s de' := by
  simp only [countDir, bumpNamed, bump, h.inum, h.named]

theorem record_congr (h : SameEntry de de') (num : ℤ) :
    record sb s de num = record sb s de' num := by
  simp only [record, bumpNamed, bump, h.inum, h.named]

/-- The images agree on what the check of a slot of directory `inum` looks at. -/
def Slot.Agreed (img img' : Image) (inum : ℕ) (sl : Slot) : Prop :=
  ∀ r, sl.Looks img inum r → r.Same img img'

theorem checkWalk_congr (h : SameEntry de de') (h0 : de.inum ≠ 0)
    (hin : 2 * bsize + 64 * de.inum + 64 ≤ imgSize) (hty : (img.dinode de.inum).type = tDir)
    (hA : (Slot.direct de).Agreed img img' inum) :
    checkWalk img inum de = checkWalk img' inum de' := by
  rw [checkWalk, checkWalk, ← h.dotDot, ← h.inum]
  split
  · rename_i hdd
    rw [walkToRoot, walkToRoot]
    refine bind_congr fun _ => walkLoop_congr fun r hr => hA r ?_
    exact .walk (c := de.inum) ⟨⟨hdd.1, h0, hdd.2, rfl⟩, hin, hty⟩ hr
  · rfl

theorem checkInum_congr (h : SameEntry de de') (hA : (Slot.direct de).Agreed img img' inum) :
    checkInum sb img inum s de = checkInum sb img' inum s de' := by
  rw [checkInum, checkInum, ← h.inum]
  by_cases h0 : de.inum = 0
  · rw [if_pos h0, if_pos h0]
  rw [if_neg h0, if_neg h0]
  rcases getInode_cases (hA _ (.inode h0)) with ⟨hget, hget'⟩ | ⟨hget, hget', hsame⟩
  · rw [hget, hget', error_bind, error_bind]
  have htarget : checkTarget sb img inum s de (img.dinode de.inum) =
      checkTarget sb img' inum s de' (img'.dinode de.inum) := by
    rw [checkTarget, checkTarget, ← hsame.type]
    split
    · exact countFile_congr h
    split
    · rename_i hdir
      rw [← checkWalk_congr h h0 (getInode_ok.1 hget).1 hdir hA, countDir_congr h, h.dot, h.inum]
      refine bind_congr fun _ => bind_eq_of_ok fun _ hwalk => ?_
      have hback : checkBackPtr img inum de (img.dinode de.inum) =
          checkBackPtr img' inum de' (img'.dinode de.inum) := by
        rw [checkBackPtr, checkBackPtr, ← h.dotDot]
        split
        · rename_i hdd
          rw [backPtr_congr hsame fun r hr => hA r (.back h0 hget hdir hdd hwalk hr)]
        · rfl
      rw [← h.inum, hback]
    · rfl
  simp only [hget, hget', ok_bind, htarget, ← hsame.type, record_congr h]

theorem checkDirent_congr (h : SameEntry de de') (hA : (Slot.direct de).Agreed img img' inum) :
    Logged.checkDirent sb img inum s de = Logged.checkDirent sb img' inum s de' := by
  rw [Logged.checkDirent, Logged.checkDirent, checkInum_congr h hA]
  simp only [h.dot, h.inum, h.named]

/-- An entry whose check does not read through the pointer. -/
theorem checkDirentIndirect_congr {ptr ptr' : Option Dinode} (h : SameEntry de de')
    (hA : (Slot.indirect ptr de).Agreed img img' inum) :
    checkDirentIndirect sb img inum ptr s de = checkDirentIndirect sb img' inum ptr' s de' := by
  rw [checkDirentIndirect, checkDirentIndirect, ← h.dot, ← h.inum, ← h.named]
  refine bind_eq_of_ok fun _ hdot => ?_
  have h0 : de.inum = 0 := by
    by_contra h0
    exact hA _ (.pointer h0 (complain_ok.1 hdot))
  have h0' : de'.inum = 0 := h.inum ▸ h0
  unfold checkInumIndirect
  rw [if_pos h0, if_pos h0']

/-! ### Directories -/

/-- The loops over the slots of two directories. -/
abbrev SlotsInStep (sb : Superblock) (img img' : Image) (inum : ℕ) : List Slot → List Slot → Prop :=
  InStep (Logged.checkSlot sb img inum) (Logged.checkSlot sb img' inum) (Slot.Agreed img img' inum)

/-- A block and what comes after it. -/
theorem slotsInStep_block {xs ys : List Slot}
    (h : SameBlock img img' addr → blockOff addr + bsize ≤ imgSize →
      SlotsInStep sb img img' inum xs ys) :
    SlotsInStep sb img img' inum (.block addr :: xs) (.block addr :: ys) := by
  refine .cons (fun _ _ => rfl) fun hA s s' hs => h (hA _ .block) ?_
  rw [Logged.checkSlot_result] at hs
  obtain ⟨_, hin, -⟩ := bind_ok.1 hs
  exact deref_ok.1 hin

theorem slotsInStep_direct (addr : ℕ) :
    SlotsInStep sb img img' inum (blockSlots img addr) (blockSlots img' addr) := by
  rw [blockSlots, blockSlots]
  split
  · exact .nil
  refine slotsInStep_block fun hS hin => ?_
  rw [Image.dirents, Image.dirents, List.map_map, List.map_map]
  exact .map fun k hk hA s => checkDirent_congr (sameEntry hS hin (List.mem_range.1 hk)) hA

theorem slotsInStep_indirect {st st' : ℕ → ℕ → Option Dinode} (addr : ℕ) :
    SlotsInStep sb img img' inum (indirectSlots img st addr) (indirectSlots img' st' addr) := by
  rw [indirectSlots, indirectSlots]
  split
  · exact .nil
  refine slotsInStep_block fun hS hin => .flatMap fun k hk => ?_
  rw [← entry_eq hS hin (List.mem_range.1 hk)]
  refine slotsInStep_block fun hS' hin' => .map fun m hm hA s => ?_
  exact congrArg Logged.run
    (checkDirentIndirect_congr (sameEntry hS' hin' (List.mem_range.1 hm)) hA)

theorem checkDir_congr (hd : SameInode (img.dinode i) d') (hA : ∀ pre sl suf ds,
      slots img (stale i) (img.dinode i) = pre ++ sl :: suf →
      pre.foldlM (checkSlot sb img i) { s with curAndPreDir := 0 } = .ok ds →
      sl.Agreed img img' i) :
    Logged.checkDir sb img stale i s (img.dinode i) = Logged.checkDir sb img' stale' i s d' := by
  rw [Logged.checkDir, Logged.checkDir, ← hd.type]
  split
  · rfl
  have hdirect : SlotsInStep sb img img' i
      ((List.range ndirect).flatMap fun j => blockSlots img ((img.dinode i).addrs j))
      ((List.range ndirect).flatMap fun j => blockSlots img' (d'.addrs j)) :=
    .flatMap fun j hj => by
      rw [← hd.addrs j (List.mem_range.1 hj).le]
      exact slotsInStep_direct _
  have hindirect : SlotsInStep sb img img' i
      (indirectSlots img (stale i) ((img.dinode i).addrs ndirect))
      (indirectSlots img' (stale' i) (d'.addrs ndirect)) := by
    rw [← hd.addrs ndirect le_rfl]
    exact slotsInStep_indirect _
  refine congrArg (· >>= _) (hdirect.append hindirect _ fun pre sl suf ds heq hpre => ?_)
  rw [result_foldlM] at hpre
  simp only [Logged.checkSlot_result] at hpre
  exact hA pre sl suf ds heq hpre

/-! ### The program -/

theorem checkRef_congr (hU : SameUsed img img') : checkRef sb img = checkRef sb img' := by
  have htest : ∀ addr, bitTest img addr = bitTest img' addr := fun addr => by
    refine bitmapBit_eq hU (lt_of_lt_of_le (Nat.mod_lt _ (by decide)) ?_) _
    decide
  funext c r
  cases r <;> simp only [checkRef, htest]

section Program

variable (hU : SameUsed img img')

include hU

theorem checkAddrs_congr (hd : SameInode d d') {c : Counts}
    (hS : d.type ≠ 0 → ∀ c', (directRefs d).foldlM (checkRef sb img)
      { c with usedDatablock := 0 } = .ok c' → SameBlock img img' (d.addrs ndirect)) :
    Logged.checkAddrs sb img c d = Logged.checkAddrs sb img' c d' := by
  rw [Logged.checkAddrs, Logged.checkAddrs, ← hd.type]
  split
  · rfl
  rename_i hty
  have hdirect : directRefs d' = directRefs d :=
    List.map_congr_left fun j hj => by rw [hd.addrs j (List.mem_range.1 hj).le]
  have hloop : (refs img d).foldlM (checkRef sb img) { c with usedDatablock := 0 } =
      (refs img' d').foldlM (checkRef sb img') { c with usedDatablock := 0 } := by
    rw [refs, refs, ← directRefs, ← directRefs, hdirect, ← hd.addrs ndirect le_rfl,
      ← checkRef_congr hU, List.foldlM_append, List.foldlM_append]
    refine bind_eq_of_ok fun c' hc' => ?_
    rw [List.foldlM_cons, List.foldlM_cons]
    refine bind_eq_of_ok fun t ht => ?_
    rw [entries_eq (hS hty c' hc') (checkRef_ok_iff.1 ht).1.2]
  have hbad : ∀ n, BadSize d n ↔ BadSize d' n := fun n => by
    rw [BadSize, BadSize, hd.type, hd.size]
  simp only [hloop, hbad]

variable (hsb : img.superblock = mkfsSuperblock)

include hsb

omit hU in
theorem getInode_inside (hi : i < img.superblock.ninodes) :
    getInode img i = .ok (img.dinode i) ∧ getInode img' i = .ok (img'.dinode i) := by
  rw [hsb] at hi
  exact ⟨getInode_ok.2 ⟨inode_inside hi, rfl⟩, getInode_ok.2 ⟨inode_inside hi, rfl⟩⟩

/-- One turn of the loop over the inodes. -/
theorem checkInode_congr (hR : ∀ r, Looks a stale img r → r.Same img img')
    (hi : i < img.superblock.ninodes) {s : State}
    (hs : (List.range i).foldlM (checkInode img.superblock img stale) (.init a) = .ok s) :
    Logged.checkInode img.superblock img stale s i =
      Logged.checkInode img.superblock img' stale' s i := by
  obtain ⟨hget, hget'⟩ := getInode_inside hsb hi
  have hin := (getInode_ok.1 hget).1
  have hinode := sameInode (hU.inode hi) hin
  rw [Logged.checkInode, Logged.checkInode, hget, hget']
  refine Logged.run_ok_congr ?_
  rw [← hinode.type]
  refine bind_congr_of_ok fun _ hok => ?_
  rw [Logged.result_run] at hok
  have hok : InodeOk img i := ⟨hin, complain_ok.1 hok⟩
  rw [← checkAddrs_congr hU hinode fun hty c' hc' =>
    hR _ (.indirect ⟨hi, hok, hty, s, hs, c', hc'⟩)]
  refine bind_congr_of_ok fun c hc => ?_
  rw [Logged.checkAddrs_result] at hc
  by_cases hty : (img.dinode i).type = tDir
  · rw [checkDir_congr hinode fun pre sl suf ds heq hpre r hr =>
      hR r (.slot ⟨hi, hok, hty, s, hs, ⟨c, hc⟩, pre, suf, ds, heq, hpre⟩ hr)]
  · rw [Logged.checkDir, Logged.checkDir, if_pos hty, if_pos (hinode.type ▸ hty)]

theorem finish_congr {s : State} :
    Logged.finish img.superblock img s = Logged.finish img.superblock img' s := by
  have href : ∀ i < img.superblock.ninodes, ∀ a : Arrays,
      checkReferences img a i = checkReferences img' a i := by
    intro i hi a
    obtain ⟨hget, hget'⟩ := getInode_inside hsb hi
    have hinode := sameInode (hU.inode hi) (getInode_ok.1 hget).1
    rw [checkReferences, checkReferences, hget, hget', ok_bind, ok_bind, hinode.type, hinode.nlink]
  have hcount : countDbBitmap img.superblock img = countDbBitmap img.superblock img' := by
    refine List.countP_congr fun i hi => ?_
    have hi := List.mem_range.1 hi
    rw [bitmapBit_eq hU (n := i / 32) (by unfold bsize at hi; omega)]
  have hloop : ∀ a : Arrays, (List.range img.superblock.ninodes).foldlM
      (fun _ i => Logged.run (checkReferences img a i)) () =
      (List.range img.superblock.ninodes).foldlM
        (fun _ i => Logged.run (checkReferences img' a i)) () := fun a =>
    foldlM_forall₂ (List.forall₂_same.2 fun i hi _ => by rw [href i (List.mem_range.1 hi) a])
  rw [Logged.finish, Logged.finish, hloop, hcount]

/-- The runs on the two images are the same, whatever the uninitialised pointer reads. -/
theorem same_run (hR : ∀ r, Looks a stale img r → r.Same img img') :
    Logged.main a stale img = Logged.main a stale' img' := by
  rw [Logged.main, Logged.main, ← hU.superblock]
  have hloop : ((List.range img.superblock.ninodes).foldlM
      (Logged.checkInode img.superblock img stale) (State.init a)) =
      (List.range img.superblock.ninodes).foldlM (Logged.checkInode img.superblock img' stale')
        (State.init a) := by
    refine foldlM_congr_of_reached fun pre i suf s heq hpre => ?_
    obtain ⟨hi, rfl⟩ := range_eq_append_cons heq
    rw [result_foldlM] at hpre
    simp only [Logged.checkInode_result] at hpre
    exact checkInode_congr hU hsb hR hi hpre
  rw [hloop]
  exact bind_congr fun s => finish_congr hU hsb

end Program

/-- **Unused blocks.**  The messages and the end of the run are the same on two images that agree on
what is in use and on the places that the run looks at. -/
theorem unused_blocks (hsb : img.superblock = mkfsSuperblock) (hU : SameUsed img img')
    (hR : ∀ r, Looks a stale img r → r.Same img img') :
    messages (Logged.main a stale img).log = messages (Logged.main a stale' img').log ∧
      main a stale img = main a stale' img' := by
  have hrun : Logged.main a stale img = Logged.main a stale' img' := same_run hU hsb hR
  rw [← Logged.main_result, ← Logged.main_result, hrun]
  exact ⟨rfl, rfl⟩

/-! ### Images -/

set_option maxRecDepth 20000

/-- The root is an empty file; block 30 holds the byte `b`, and block 0 the byte `z`. -/
def fileImage (b z : UInt8) : Image := .ofChunks
  [(30 * bsize, [b]),
    (2 * bsize + 64, dinodeBytes 2 0 0 [0, 0, 0, 0, 0, 0, 0, 0, 0, 0, 0, 0, 0]),
    (bsize, mkfsSuperblock.bytes), (0, [z])]

theorem fileImage_eq {b z b' z' : UInt8} {o : ℕ} (h : o < 30 * bsize)
    (h0 : z = z' ∨ bsize ≤ o) : fileImage b z o = fileImage b' z' o := by
  simp only [fileImage, Bytes.ofChunks, if_neg (not_le.2 h)]
  rcases h0 with rfl | h0
  · rfl
  · simp only [if_pos h0]

/-- In use are the root and the bitmap only. -/
theorem fileImage_sameUsed (b z : UInt8) : SameUsed (fileImage 0 0) (fileImage b z) := by
  have hsb : (fileImage 0 0).superblock = mkfsSuperblock := by decide
  have heq : ∀ o < 30 * bsize, bsize ≤ o → fileImage 0 0 o = fileImage b z o := fun o ho h0 =>
    fileImage_eq ho (.inr h0)
  have hword : ∀ k ≤ 8, (fileImage 0 0).word 4 (bsize + k) = (fileImage b z).word 4 (bsize + k) :=
    fun k hk => Bytes.word_congr fun n hn => heq _ (by unfold bsize; omega) (by omega)
  refine ⟨?_, fun k hk => heq _ ?_ ?_, fun _ k hk => heq _ ?_ ?_, fun addr h => ?_⟩
  · rw [Image.superblock, Image.superblock, hword 4 (by omega), hword 8 (by omega),
      show bsize = bsize + 0 from rfl, hword 0 (by omega)]
  · rw [hsb] at hk
    have hk : k < 64 * 200 := hk
    unfold bsize
    omega
  · omega
  · have hoff : blockOff bitmapBlock = 28 * 512 := by decide
    rw [hoff]
    unfold bsize at hk ⊢
    omega
  · have hoff : blockOff bitmapBlock = 28 * 512 := by decide
    rw [hoff]
    unfold bsize
    omega
  · obtain ⟨h0, i, hi, hty, haddr⟩ := h
    have hzero : ∀ i < 200, ((fileImage 0 0).dinode i).type ≠ 0 →
        ∀ j < ndirect + 1, ((fileImage 0 0).dinode i).addrs j = 0 := by decide
    rw [hsb] at hi
    rcases haddr with ⟨j, hj, haddr⟩ | ⟨hind, -⟩
    · exact absurd (haddr ▸ hzero i hi hty j (Nat.lt_succ_of_le hj)) h0
    · exact absurd (hzero i hi hty ndirect (Nat.lt_succ_self _)) hind

/-- The images may differ in block 30. -/
theorem unused_blocks_fileImage : main .zero (fun _ _ _ => none) (fileImage 0 0) =
    main .zero (fun _ _ _ => none) (fileImage 7 0) := by
  have hblock : SameBlock (fileImage 0 0) (fileImage 7 0) 0 := fun _ k hk => by
    have hoff : blockOff 0 = 0 := by decide
    rw [hoff]
    exact fileImage_eq (by unfold bsize at hk ⊢; omega) (.inl rfl)
  have hzero : ∀ i < 200, ((fileImage 0 0).dinode i).addrs ndirect = 0 ∧
      ((fileImage 0 0).dinode i).type ≠ tDir := by decide
  have hsb : (fileImage 0 0).superblock = mkfsSuperblock := by decide
  refine (unused_blocks hsb (fileImage_sameUsed 7 0) fun r hr => ?_).2
  cases hr with
  | indirect h =>
    have hi := h.1
    rw [hsb] at hi
    rw [(hzero _ hi).1]
    exact hblock
  | slot h hr =>
    have hi := h.1
    rw [hsb] at hi
    exact absurd h.2.2.1 (hzero _ hi).2

/-- A word in block 0 is taken for an address of the root. -/
theorem not_unused_blocks : ¬∀ (a : Arrays) (stale : ℕ → ℕ → ℕ → Option Dinode) (img img' : Image),
    img.superblock = mkfsSuperblock → SameUsed img img' →
      messages (Logged.main a stale img).log = messages (Logged.main a stale img').log ∧
        main a stale img = main a stale img' := by
  intro h
  have hok : main .zero (fun _ _ _ => none) (fileImage 0 0) = .ok () := by decide
  have hbad : main .zero (fun _ _ _ => none) (fileImage 0 1) = .error (.exit .badIndirect) := by
    decide
  have hsame := (h .zero (fun _ _ _ => none) _ _ (by decide) (fileImage_sameUsed 0 1)).2
  rw [hok, hbad] at hsame
  cases hsame

end OsProjects.Fsck
