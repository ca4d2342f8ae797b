import OsProjects.Tar.RoundTrip

/-!
# The names an extraction opens

The archiver cuts a name off at a hundred bytes and fills a shorter one with zeros.  The unarchiver
takes the field for a C string, but the field of a long name has no byte left for a NUL.

* `cString_nameField_iff`: which names can be read back from their field;
* `openings`: where the turns of a run begin and which name each gives to `fopen`;
* `openings_iff`: which lists of files have every entry read at its place, under its name.
-/

namespace OsProjects.Tar

/-- The place in the archive where each turn of a run begins, and the name that it opens. -/
def openings (h : Host) (l : Locals) (f_tar : List UInt8) : List (List UInt8 × Except Error Name) :=
  if hne : f_tar = [] then []
  else
    (f_tar, cString (l.readName f_tar).filename_buffer) ::
      match hr : untarEntry h l f_tar with
      | .error _ => []
      | .ok (_, rest) =>
        have := length_untarEntry hr hne
        openings h (l.readName f_tar) rest
termination_by f_tar.length

/-- The place of each entry in the archive of some files, and the first hundred bytes of its
name. -/
def places : List (Name × Content) → List (List UInt8 × Except Error Name)
  | [] => []
  | f :: files => ((f :: files).flatMap entry, .ok (f.1.take 100)) :: places files

/-- Existing files, named as they are in the arguments of the archiver.  The names are of any length
and may be repeated. -/
structure Listing (h : Host) where
  fs : Name → Option Content
  files : List (Name × Content)
  ne_nil : files ≠ []
  exist : ∀ f ∈ files, fs f.1 = some f.2
  /-- A file is no longer than an `off_t` can say. -/
  size : ∀ f ∈ files, f.2.length < 2 ^ 63
  noNul : ∀ f ∈ files, 0 ∉ f.1
  ne_tarname : ∀ f ∈ files, f.1 ≠ h.tarname
  take_ne_tarname : ∀ f ∈ files, f.1.take 100 ≠ h.tarname
  canCreate : ∀ f ∈ files, h.canCreate (f.1.take 100) = true

/-- The archive of the files is written, and a run over it opens the first hundred bytes of each
name, at the place of its entry. -/
def NamesSurvive {h : Host} (a : Listing h) : Prop :=
  ∃ archive, tar h a.fs (a.files.map Prod.fst) = .ok archive ∧
    ∀ l : Locals, openings h l archive = places a.files

/-- Every name is shorter than its field, and what stands before the last entry is as long as the
headers say. -/
def Readable (files : List (Name × Content)) : Prop :=
  (∀ f ∈ files, f.1.length < 100) ∧
    ∀ f ∈ files.dropLast, f.2.length < 2 ^ 31 ∧ eofByte ∉ f.2

variable {h : Host} {l : Locals} {f : Name × Content} {files : List (Name × Content)}
  {f_tar : List UInt8}

/-! ### The name field -/

theorem cString_nameField_iff {name : Name} (h0 : 0 ∉ name) :
    cString (nameField name) = .ok (name.take 100) ↔ name.length < 100 := by
  constructor
  · intro hc
    by_contra hlong
    have hfield : nameField name = name.take 100 := by
      rw [nameField, if_pos (by omega)]
    have hno : (0 : UInt8) ∉ name.take 100 := fun hmem => h0 (List.mem_of_mem_take hmem)
    rw [hfield, cString, if_neg hno] at hc
    cases hc
  · intro hs
    rw [cString_nameField hs h0, List.take_of_length_le hs.le]

theorem readName_entry (l : Locals) (f : Name × Content) (rest : List UInt8) :
    (l.readName (entry f ++ rest)).filename_buffer = nameField f.1 := by
  have hl := length_nameField f.1
  show fread _ _ = _
  rw [entry, List.append_assoc, List.append_assoc, List.take_left' hl, fread_full]
  rw [l.length_filename_buffer, hl]

/-! ### One turn -/

theorem openings_nil : openings h l [] = [] := by
  rw [openings, dif_pos rfl]

theorem openings_error {e : Error} (hne : f_tar ≠ []) (hr : untarEntry h l f_tar = .error e) :
    openings h l f_tar = [(f_tar, cString (l.readName f_tar).filename_buffer)] := by
  rw [openings, dif_neg hne]
  split
  · rfl
  · rename_i he
    rw [hr] at he
    cases he

theorem openings_ok {r : (Name × Content) × List UInt8} (hne : f_tar ≠ [])
    (hr : untarEntry h l f_tar = .ok r) :
    openings h l f_tar =
      (f_tar, cString (l.readName f_tar).filename_buffer) :: openings h (l.readName f_tar) r.2 := by
  rw [openings, dif_neg hne]
  split
  · rename_i he
    rw [hr] at he
    cases he
  · rename_i file rest he
    rw [hr] at he
    cases he
    rfl

theorem head_openings (hne : f_tar ≠ []) :
    ∃ t, openings h l f_tar = (f_tar, cString (l.readName f_tar).filename_buffer) :: t := by
  cases hr : untarEntry h l f_tar with
  | error e => exact ⟨_, openings_error hne hr⟩
  | ok r => exact ⟨_, openings_ok hne hr⟩

theorem turns_leBytes_lt {n k : ℕ} (hn : n < 2 ^ 63) (hk : turns (Bytes.leBytes 8 n) = .ok k) :
    n < 2 ^ 31 := by
  have hlong : long (Bytes.leBytes 8 n) = n := by
    rw [long, Bytes.leNat_leBytes, Nat.mod_eq_of_lt (by omega), if_pos hn]
  by_contra hbig
  rw [turns, hlong, if_neg (by omega)] at hk
  cases hk

theorem entry_append_ne_nil (f : Name × Content) (rest : List UInt8) : entry f ++ rest ≠ [] :=
  List.append_ne_nil_of_left_ne_nil (entry_ne_nil f) rest

/-- An entry that is read to its end has a length that fits an `int`. -/
theorem lt_of_untarEntry {rest : List UInt8} {r : (Name × Content) × List UInt8}
    (hf : f.2.length < 2 ^ 63) (hr : untarEntry h l (entry f ++ rest) = .ok r) :
    f.2.length < 2 ^ 31 := by
  obtain ⟨name, n, -, -, hn, -⟩ := untarEntry_ok.1 hr
  have hsize : ((entry f ++ rest).drop 100).take 8 = Bytes.leBytes 8 f.2.length := by
    rw [entry, List.append_assoc, List.append_assoc, List.drop_left' (length_nameField f.1),
      List.take_left' (Bytes.length_leBytes 8 _)]
  rw [hsize, fread_full (by rw [l.length_size_buffer, Bytes.length_leBytes])] at hn
  exact turns_leBytes_lt hf hn

/-- A run opens the name of the entry it begins at. -/
theorem openings_entry (l : Locals) (f : Name × Content) (rest : List UInt8) :
    ∃ t, openings h l (entry f ++ rest) = (entry f ++ rest, cString (nameField f.1)) :: t := by
  obtain ⟨t, ht⟩ := head_openings (h := h) (l := l) (entry_append_ne_nil f rest)
  rw [readName_entry] at ht
  exact ⟨t, ht⟩

/-! ### A whole archive -/

theorem readable_cons (hne : files ≠ []) :
    Readable (f :: files) ↔
      f.1.length < 100 ∧ (f.2.length < 2 ^ 31 ∧ eofByte ∉ f.2) ∧ Readable files := by
  simp only [Readable, List.forall_mem_cons, List.dropLast_cons_of_ne_nil hne]
  tauto

/-- The unarchiver is at the next entry after one that it could read, exactly when nothing was cut
from its content. -/
theorem drop_copy_iff (hne : files ≠ []) :
    (copy f.2 ++ files.flatMap entry).drop f.2.length = files.flatMap entry ↔ eofByte ∉ f.2 := by
  constructor
  · intro hdrop
    apply cut_eq_zero
    have hlen := congrArg List.length hdrop
    have hpos : 0 < (files.flatMap entry).length := by
      obtain ⟨g, rest, rfl⟩ := List.exists_cons_of_ne_nil hne
      exact List.length_pos_iff.2 (entry_append_ne_nil g _)
    rw [List.length_drop, List.length_append] at hlen
    rw [cut]
    omega
  · intro heof
    rw [copy_of_not_mem heof, List.drop_left]

/-- A run that opens what it should begins where it should. -/
theorem eq_of_openings (hne : files ≠ []) (heq : openings h l f_tar = places files) :
    f_tar = files.flatMap entry := by
  obtain ⟨f, files, rfl⟩ := List.exists_cons_of_ne_nil hne
  by_cases hnil : f_tar = []
  · rw [hnil, openings_nil] at heq
    cases heq
  · obtain ⟨t, ht⟩ := head_openings (h := h) (l := l) hnil
    rw [ht, places] at heq
    exact congrArg Prod.fst (List.cons.inj heq).1

/-- What a listing promises of each of its files. -/
def Openable (h : Host) (f : Name × Content) : Prop :=
  f.2.length < 2 ^ 63 ∧ 0 ∉ f.1 ∧ f.1.take 100 ≠ h.tarname ∧ h.canCreate (f.1.take 100) = true

theorem openings_eq_places_iff (hne : files ≠ []) (hf : ∀ f ∈ files, Openable h f) (l : Locals) :
    openings h l (files.flatMap entry) = places files ↔ Readable files := by
  induction files generalizing l with
  | nil => contradiction
  | cons f files ih =>
    obtain ⟨⟨h63, h0, htar, hcan⟩, hfs⟩ := List.forall_mem_cons.1 hf
    by_cases hs : f.1.length < 100
    swap
    · -- The name cannot be read back.
      refine iff_of_false (fun heq => ?_) fun hr => hs (hr.1 f List.mem_cons_self)
      obtain ⟨t, ht⟩ := openings_entry (h := h) l f (files.flatMap entry)
      rw [List.flatMap_cons, ht, places] at heq
      exact hs ((cString_nameField_iff h0).1 (congrArg Prod.snd (List.cons.inj heq).1))
    have htake : f.1.take 100 = f.1 := List.take_of_length_le hs.le
    have hname := (cString_nameField_iff h0).2 hs
    have hnil := entry_append_ne_nil f (files.flatMap entry)
    rw [List.flatMap_cons, places, List.flatMap_cons]
    by_cases hsize : f.2.length < 2 ^ 31
    swap
    · -- The run ends in this entry.
      cases hr : untarEntry h l (entry f ++ files.flatMap entry) with
      | ok r => exact absurd (lt_of_untarEntry h63 hr) hsize
      | error e =>
        rw [openings_error hnil hr, readName_entry, hname]
        cases files with
        | nil => simpa [places, Readable] using hs
        | cons g files =>
          refine iff_of_false (fun heq => ?_) fun hr => hsize (hr.2 f (by simp)).1
          cases (List.cons.inj heq).2
    have hread := untarEntry_entry l (copy f.2 ++ files.flatMap entry) hs h0 hsize
      (htake ▸ htar) (htake ▸ hcan)
    rw [← List.append_assoc, ← entry] at hread
    rw [openings_ok hnil hread, readName_entry, hname, List.cons.injEq, eq_self_iff_true, true_and]
    by_cases hlast : files = []
    · -- All that the archiver wrote of the last file is read.
      have hdrop : (copy f.2 ++ files.flatMap entry).drop f.2.length = [] := by
        rw [hlast, List.flatMap_nil, List.append_nil]
        exact List.drop_eq_nil_of_le (length_copy_le f.2)
      rw [hdrop, openings_nil, hlast]
      simpa [places, Readable] using hs
    rw [readable_cons hlast, ← drop_copy_iff hlast, ← ih hlast hfs (l.readName (entry f ++ _))]
    constructor
    · intro heq
      have hdrop := eq_of_openings hlast heq
      rw [hdrop] at heq
      exact ⟨hs, ⟨hsize, hdrop⟩, heq⟩
    · rintro ⟨-, ⟨-, hdrop⟩, heq⟩
      rw [hdrop]
      exact heq

section Listing

variable {h : Host}

theorem tar_listing (a : Listing h) :
    tar h a.fs (a.files.map Prod.fst) = .ok (a.files.flatMap entry) := by
  obtain ⟨f, files, hcons⟩ := List.exists_cons_of_ne_nil a.ne_nil
  have hmap := mapM_tarEntry a.exist a.ne_tarname
  rw [hcons, List.map_cons] at hmap ⊢
  rw [tar, if_pos h.canCreate_tarname, hmap, ok_bind, List.flatMap_def]

theorem openings_listing (a : Listing h) (l : Locals) :
    openings h l (a.files.flatMap entry) = places a.files ↔ Readable a.files := by
  apply openings_eq_places_iff a.ne_nil
  intro f hf
  exact ⟨a.size f hf, a.noNul f hf, a.take_ne_tarname f hf, a.canCreate f hf⟩

theorem readable_of_namesSurvive {a : Listing h} (hs : NamesSurvive a) : Readable a.files := by
  obtain ⟨archive, harchive, hall⟩ := hs
  rw [tar_listing, Except.ok.injEq] at harchive
  subst harchive
  exact (openings_listing a ones).1 (hall ones)

end Listing

/-- **Names and their field.** -/
theorem namesSurvive_iff {h : Host} (a : Listing h) : NamesSurvive a ↔ Readable a.files := by
  constructor
  · exact readable_of_namesSurvive
  · intro hr
    exact ⟨_, tar_listing a, fun l => (openings_listing a l).2 hr⟩

/-- An empty file with a name of a hundred letters `a`. -/
def longName : Listing host where
  fs _ := some []
  files := [(List.replicate 100 0x61, [])]
  ne_nil := by simp
  exist := by simp
  size := by simp
  noNul := by simp
  ne_tarname := by simp [host]
  take_ne_tarname := by simp [host]
  canCreate := by simp [host]

theorem not_namesSurvive : ¬ NamesSurvive longName := by
  intro hs
  have hshort := (readable_of_namesSurvive hs).1 _ List.mem_cons_self
  simp at hshort

end OsProjects.Tar
