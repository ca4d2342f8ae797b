import OsProjects.Mkfs.Directories

/-!
# The checker on fresh images

The image that `mkfs` makes of a host directory that fits is a tree of directories
(`Finished.sound`), and so `xfsck` accepts it (`main_accepted`).
-/

namespace OsProjects.Mkfs

open Fsck

variable {t : HostDir} {img : Image} {free x i : ℕ} {c : ℕ → List UInt8} {l : List Link}

/-! ### Listings -/

namespace Listing

variable {parent : ℕ} {dot dotdot de : Dirent} {links rest : List Dirent}

theorem kind_eq {a : ℕ × Bool × Bool} (h : kind de = a) :
    de.inum = a.1 ∧ de.isDot = a.2.1 ∧ de.isDotDot = a.2.2 := by
  subst h
  exact ⟨rfl, rfl, rfl⟩

variable (hL : Listing img x parent l dot dotdot links rest)

include hL

theorem kind_links (h : de ∈ links) :
    ∃ e ∈ l, de.inum = e.1 ∧ de.isDot = false ∧ de.isDotDot = false := by
  have hmem := List.mem_map_of_mem (f := kind) h
  rw [hL.links] at hmem
  obtain ⟨e, he, heq⟩ := List.mem_map.1 hmem
  exact ⟨e, he, kind_eq heq.symm⟩

/-- The other entries are not `"."` or `".."`. -/
theorem not_dots (h : de ∈ links ++ rest) : de.isDot = false ∧ de.isDotDot = false := by
  rcases List.mem_append.1 h with h | h
  · obtain ⟨e, -, -, hkind⟩ := hL.kind_links h
    exact hkind
  · exact (kind_eq (hL.rest de h)).2

theorem filter_isDot : (dirEntries img (img.dinode x)).filter Dirent.isDot = [dot] := by
  have hrest : (links ++ rest).filter Dirent.isDot = [] :=
    List.filter_eq_nil_iff.2 fun de hde => by simp [(hL.not_dots hde).1]
  rw [hL.entries, List.filter_cons_of_pos (kind_eq hL.dot).2.1, List.filter_cons_of_neg
    (by simp [(kind_eq hL.dotdot).2.1]), hrest]

theorem filter_isDotDot : (dirEntries img (img.dinode x)).filter Dirent.isDotDot = [dotdot] := by
  have hrest : (links ++ rest).filter Dirent.isDotDot = [] :=
    List.filter_eq_nil_iff.2 fun de hde => by simp [(hL.not_dots hde).2]
  rw [hL.entries, List.filter_cons_of_neg (by simp [(kind_eq hL.dot).2.2]),
    List.filter_cons_of_pos (kind_eq hL.dotdot).2.2, hrest]

/-- The numbers of the links. -/
theorem map_inum : links.map Dirent.inum = l.map Prod.fst := by
  have hmap := congrArg (List.map Prod.fst) hL.links
  rw [List.map_map, List.map_map] at hmap
  exact hmap

theorem namedBy_eq (hl : ∀ e ∈ l, e.1 ≠ 0) :
    namedBy (dirEntries img (img.dinode x)) = l.map Prod.fst := by
  have hlinks : links.filter Dirent.names = links := by
    refine List.filter_eq_self.2 fun de hde => ?_
    obtain ⟨e, he, hinum, hdot, hdd⟩ := hL.kind_links hde
    simp [Dirent.names, Dirent.isNamed, hdot, hdd, hinum, hl e he]
  have hrest : rest.filter Dirent.names = [] :=
    List.filter_eq_nil_iff.2 fun de hde => by simp [Dirent.names, (kind_eq (hL.rest de hde)).1]
  rw [namedBy, hL.entries, List.filter_cons_of_neg
      (by simp [Dirent.names, Dirent.isNamed, (kind_eq hL.dot).2.1]),
    List.filter_cons_of_neg (by simp [Dirent.names, Dirent.isNamed, (kind_eq hL.dotdot).2.2]),
    List.filter_append, hlinks, hrest, List.append_nil, hL.map_inum]

/-- The inodes that the entries lead to. -/
theorem inum_cases (h : de ∈ dirEntries img (img.dinode x)) (h0 : de.inum ≠ 0) :
    de.inum = x ∨ de.inum = parent ∨ de.inum ∈ l.map Prod.fst := by
  rw [hL.entries] at h
  rcases List.mem_cons.1 h with rfl | h
  · exact .inl (kind_eq hL.dot).1
  rcases List.mem_cons.1 h with rfl | h
  · exact .inr (.inl (kind_eq hL.dotdot).1)
  rcases List.mem_append.1 h with h | h
  · rw [← hL.map_inum]
    exact .inr (.inr (List.mem_map_of_mem h))
  · exact absurd (kind_eq (hL.rest de h)).1 h0

end Listing

/-! ### The tree -/

namespace Finished

variable (hF : Finished t img free c)

include hF

theorem exists_dir (h : IsDir img x) : ∃ parent l, (x, .dir parent l) ∈ t.inodes := by
  obtain ⟨hlt, hty⟩ := h
  rw [hF.ninodes] at hlt
  have hused : 1 ≤ x ∧ x < 2 + t.count := by
    by_contra h
    rw [hF.unused x hlt (by omega)] at hty
    cases hty
  obtain ⟨content, hmem⟩ := HostDir.exists_content hused.1 hused.2
  have htype := (hF.type _ hmem).symm.trans hty
  cases content with
  | file data => cases htype
  | dir parent l => exact ⟨parent, l, hmem⟩

theorem isDir {parent : ℕ} (h : (x, .dir parent l) ∈ t.inodes) : IsDir img x := by
  have hlt := HostDir.mem_inodes h
  have hle := hF.count_le
  exact ⟨by rw [hF.ninodes]; exact hlt.2.trans_le hle, hF.type _ h⟩

variable (ht : t.Fits)

include ht

/-- What an inode names are its links. -/
theorem namings_eq {e : ℕ × Content} (h : e ∈ t.inodes) :
    namings img e.1 = e.2.links.map Prod.fst := by
  obtain ⟨x, content⟩ := e
  cases content with
  | file data =>
    have hty : (img.dinode x).type = tFile := hF.type _ h
    exact if_neg (by rw [hty]; decide)
  | dir parent l =>
    obtain ⟨-, dot, dotdot, links, rest, hL⟩ := hF.exists_listing ht h
    rw [namings, if_pos (hF.isDir h).2, hL.namedBy_eq fun e he => ?_]
    · rfl
    · have := HostDir.mem_named_of_links h (List.mem_map_of_mem he)
      omega

theorem allNamings_eq : allNamings img = HostDir.named t.inodes := by
  have hle := hF.count_le
  have hnone : ∀ i < 200, i = 0 ∨ 2 + t.count ≤ i → namings img i = [] := fun i hi h =>
    if_neg (by rw [hF.unused i hi h]; decide)
  obtain ⟨r, hr⟩ := Nat.exists_eq_add_of_le hle
  have hsplit : List.range 200 = 0 ::
      (List.range' 1 (1 + t.count) ++ List.range' (2 + t.count) r) := by
    rw [List.range_eq_range', hr, show 2 + t.count + r = (1 + t.count + r) + 1 by omega,
      List.range'_succ, ← List.range'_append_1, show 0 + 1 + (1 + t.count) = 2 + t.count by omega]
  have hrest : (List.range' (2 + t.count) r).flatMap (namings img) = [] :=
    List.flatMap_eq_nil_iff.2 fun i hi => by
      have := List.mem_range'_1.1 hi
      exact hnone i (by omega) (.inr this.1)
  rw [allNamings, hF.ninodes, hsplit, List.flatMap_cons, hnone 0 (by omega) (.inl rfl),
    List.flatMap_append, hrest, List.append_nil, List.nil_append, ← HostDir.fst_inodes,
    List.flatMap_map]
  exact List.flatMap_congr fun e he => hF.namings_eq ht he

/-- **The directories** are a tree. -/
theorem tree : Tree img := by
  refine ⟨hF.superblock, hF.bootBlock, fun x hx hty => ?_, hF.clean, fun x hx => ?_,
    fun x y h => ?_⟩
  · obtain ⟨parent, l, hmem⟩ := hF.exists_dir ⟨hx, hty⟩
    exact (hF.exists_listing ht hmem).1
  · obtain ⟨parent, l, hmem⟩ := hF.exists_dir hx
    obtain ⟨-, dot, dotdot, links, rest, hL⟩ := hF.exists_listing ht hmem
    have hinum : dotdot.inum = parent := (Listing.kind_eq hL.dotdot).1
    refine ⟨⟨dot, hL.filter_isDot, (Listing.kind_eq hL.dot).1⟩, dotdot, hL.filter_isDotDot, ?_⟩
    rw [hinum]
    rcases ht.parent hmem with ⟨rfl, rfl⟩ | ⟨h1, -, parent', l', hmem', hlink⟩
    · exact ⟨hx, by rw [if_pos rfl]⟩
    · have hdir := hF.isDir hmem'
      rw [if_neg h1]
      exact ⟨hdir, hdir.1, by rwa [hF.namings_eq ht hmem']⟩
  · obtain ⟨hx, -, de, hde, hdd, rfl⟩ := h
    obtain ⟨parent, l, hmem⟩ := hF.exists_dir hx
    obtain ⟨-, dot, dotdot, links, rest, hL⟩ := hF.exists_listing ht hmem
    have hfound := List.mem_filter.2 ⟨hde, hdd⟩
    rw [hL.filter_isDotDot, List.mem_singleton] at hfound
    have hinum : dotdot.inum = parent := (Listing.kind_eq hL.dotdot).1
    rw [hfound, hinum]
    rcases ht.parent hmem with ⟨h1, -⟩ | ⟨-, hlt, -⟩
    · exact .inl h1
    · exact .inr hlt

/-- **The image** is what the checker asks for. -/
theorem sound : Sound img := by
  have hused : ∀ i < 200, (img.dinode i).type ≠ 0 → 1 ≤ i ∧ i < 2 + t.count := fun i hi hty => by
    by_contra h
    exact hty (hF.unused i hi (by omega))
  have hin : ∀ i, 1 ≤ i ∧ i < 2 + t.count → i < 200 ∧ (img.dinode i).type ≠ 0 := fun i hi =>
    ⟨hi.2.trans_le hF.count_le, hF.type_ne_zero hi.1 hi.2⟩
  refine ⟨hF.tree ht, fun i hi => ?_, fun x hx de hde h0 => ?_, ?_, fun i hi h0 h1 hty => ?_,
    fun i hi hty => ?_, fun i hi hty => ?_, fun i hi => hF.not_badSize ht hi, hF.counted⟩
  · by_cases h0 : (img.dinode i).type = 0
    · rw [h0]
      exact Nat.zero_le _
    · obtain ⟨h1, hlt⟩ := hused i hi h0
      obtain ⟨content, hmem⟩ := HostDir.exists_content h1 hlt
      rw [hF.type _ hmem]
      exact content.type_le
  · obtain ⟨parent, l, hmem⟩ := hF.exists_dir hx
    obtain ⟨-, dot, dotdot, links, rest, hL⟩ := hF.exists_listing ht hmem
    refine hin _ ?_
    rcases hL.inum_cases hde h0 with h | h | h
    · rw [h]
      exact HostDir.mem_inodes hmem
    · rw [h]
      rcases ht.parent hmem with ⟨-, rfl⟩ | ⟨-, -, parent', l', hmem', -⟩
      · omega
      · exact HostDir.mem_inodes hmem'
    · have := HostDir.mem_named_of_links hmem h
      omega
  · rw [hF.allNamings_eq ht]
    exact HostDir.nodup_named
  · rw [hF.allNamings_eq ht, HostDir.mem_named]
    have := hused i hi hty
    omega
  · obtain ⟨h1, hlt⟩ := hused i hi (by rw [hty]; decide)
    have hroot : i ≠ 1 := by
      rintro rfl
      have hdir : (img.dinode 1).type = tDir := hF.type _ List.mem_cons_self
      rw [hty] at hdir
      cases hdir
    have hmem : i ∈ HostDir.named t.inodes := HostDir.mem_named.2 (by omega)
    rw [hF.nlink i hlt (by omega), (hF.tree ht).linkCount_eq_count hty, hF.allNamings_eq ht,
      List.count_eq_one_of_mem HostDir.nodup_named hmem]
    rfl
  · obtain ⟨h1, hlt⟩ := hused i hi (by rw [hty]; decide)
    exact hF.nlink i hlt (by omega)

end Finished

/-- **No false alarms.**  The image of a host directory that fits is made and is accepted, if the
checker's counters start with 0. -/
theorem main_accepted (ht : t.Fits) (stale : ℕ → ℕ → ℕ → Option Dinode) :
    ∃ s, main t = some s ∧ Fsck.main .zero stale s.img = .ok () := by
  obtain ⟨s, c, hmain, hF⟩ := main_spec ht
  exact ⟨s, hmain, (hF.sound ht).ok⟩

/-- A directory `d` with a file `a` that is read in two pieces, and beside it an empty file `b`. -/
def sampleDir : HostDir :=
  .dir ⟨[100], by decide⟩ (.file ⟨[97], by decide⟩ [[104, 105], [33]] .nil)
    (.file ⟨[98], by decide⟩ [] .nil)

theorem fits_sampleDir : sampleDir.Fits := by
  refine ⟨by decide, ?_, by decide⟩
  simp [sampleDir, HostDir.FilesFit, bsize, maxfile, ndirect, nindirect]

theorem main_accepted_sampleDir :
    ∃ s, main sampleDir = some s ∧ Fsck.main .zero (fun _ _ _ => none) s.img = .ok () :=
  main_accepted fits_sampleDir _

end OsProjects.Mkfs
