import Mathlib.Data.List.TakeWhile
import Mathlib.Data.List.Perm.Subperm
import OsProjects.Tar.Model

/-!
# Archiving and unarchiving

The archiver takes the length of a file from `stat` but stops copying it at the first byte `0xFF`,
which as a `char` equals `EOF`.  The unarchiver trusts the length.

* `copy_eq`, `extract_eq`: the two copying loops;
* `tar_eq`: the archive of a list of files;
* `untar_entry`: how the unarchiver reads an entry, whatever follows it;
* `untar_accounts`: the lengths and the bytes `0xFF` of everything an unarchiver writes;
* `roundTrip_iff`: which lists of files come back.
-/

namespace OsProjects.Tar

/-- The byte that a `char` cannot tell from `EOF`. -/
abbrev eofByte : UInt8 := 0xFF

/-! ### The copying loops -/

theorem char_eq_EOF (b : UInt8) : (Int8.ofInt b.toNat).toInt = EOF ↔ b = eofByte := by
  have h : ∀ i : Fin 256,
      (Int8.ofInt (UInt8.ofFin i).toNat).toInt = EOF ↔ UInt8.ofFin i = eofByte := by
    set_option maxRecDepth 20000 in decide
  exact h b.toFin

theorem fputc_char (b : UInt8) : fputc (Int8.ofInt b.toNat) = b := by
  have h : ∀ i : Fin 256, fputc (Int8.ofInt (UInt8.ofFin i).toNat) = UInt8.ofFin i := by
    set_option maxRecDepth 20000 in decide
  exact h b.toFin

theorem fputc_EOF : fputc (Int8.ofInt EOF) = eofByte := by
  decide

theorem copy_eq (content : Content) : copy content = content.takeWhile (· ≠ eofByte) := by
  induction content with
  | nil => rfl
  | cons b bs ih =>
    simp only [copy, fgetc, ne_eq, char_eq_EOF, fputc_char, ih, List.takeWhile_cons]
    by_cases hb : b = eofByte <;> simp [hb]

theorem copy_of_not_mem {content : Content} (hc : eofByte ∉ content) : copy content = content := by
  rw [copy_eq, List.takeWhile_eq_self_iff]
  intro b hb
  simpa using ne_of_mem_of_not_mem hb hc

theorem extract_eq (n : ℕ) (f_tar : List UInt8) :
    extract n f_tar =
      (f_tar.take n ++ List.replicate (n - f_tar.length) eofByte, f_tar.drop n) := by
  induction n generalizing f_tar with
  | zero => simp [extract]
  | succ n ih =>
    cases f_tar with
    | nil => simp [extract, fgetc, ih, fputc_EOF, List.replicate_succ]
    | cons b bs => simp [extract, fgetc, ih, fputc_char]

/-! ### Directories -/

section Directories

variable {files : List (Name × Content)} {f : Name × Content}

theorem written_concat (files : List (Name × Content)) (f : Name × Content) :
    written (files ++ [f]) = Function.update (written files) f.1 (some f.2) := by
  rw [written, List.foldl_append]
  rfl

theorem mem_of_written {name : Name} {c : Content} (h : written files name = some c) :
    (name, c) ∈ files := by
  induction files using List.reverseRecOn with
  | nil => simp [written] at h
  | append_singleton files f ih =>
    rw [written_concat] at h
    by_cases hn : name = f.1
    · subst hn
      rw [Function.update_self, Option.some.injEq] at h
      subst h
      simp
    · rw [Function.update_of_ne hn] at h
      exact List.mem_append_left _ (ih h)

theorem written_of_mem (hnd : (files.map Prod.fst).Nodup) (hf : f ∈ files) :
    written files f.1 = some f.2 := by
  induction files using List.reverseRecOn with
  | nil => simp at hf
  | append_singleton files g ih =>
    rw [List.map_append, List.nodup_append] at hnd
    rw [written_concat]
    rcases List.mem_append.1 hf with hf | hf
    · have hne : f.1 ≠ g.1 := hnd.2.2 _ (List.mem_map_of_mem hf) _ (by simp)
      rw [Function.update_of_ne hne, ih hnd.1 hf]
    · rw [List.mem_singleton.1 hf, Function.update_self]

end Directories

/-! ### The archive of a list of files -/

/-- What the archiver appends for one file. -/
def entry (f : Name × Content) : List UInt8 :=
  nameField f.1 ++ Bytes.leBytes 8 f.2.length ++ copy f.2

/-- The length that the header of an entry gives it, the header included. -/
def span (f : Name × Content) : ℕ := 108 + f.2.length

/-- Files to archive: distinct names of less than a hundred bytes that can be created on the host,
the name of the archive not among them. -/
structure Args (h : Host) where
  files : List (Name × Content)
  nodup : (files.map Prod.fst).Nodup
  short : ∀ f ∈ files, f.1.length < 100
  noNul : ∀ f ∈ files, 0 ∉ f.1
  ne_tarname : ∀ f ∈ files, f.1 ≠ h.tarname
  canCreate : ∀ f ∈ files, h.canCreate f.1 = true

section Tar

variable {h : Host}

theorem mapM_tarEntry {fs : Name → Option Content} {files : List (Name × Content)}
    (hfs : ∀ f ∈ files, fs f.1 = some f.2) (hne : ∀ f ∈ files, f.1 ≠ h.tarname) :
    (files.map Prod.fst).mapM (tarEntry h fs) = .ok (files.map entry) := by
  induction files with
  | nil => rfl
  | cons f files ih =>
    rw [List.forall_mem_cons] at hfs hne
    have hentry : tarEntry h fs f.1 = .ok (entry f) := by
      simp [tarEntry, stat, hfs.1, hne.1, entry]
    rw [List.map_cons, List.mapM_cons, hentry, ok_bind, ih hfs.2 hne.2, ok_bind]
    rfl

theorem tar_eq (a : Args h) (hne : a.files ≠ []) :
    tar h (written a.files) (a.files.map Prod.fst) = .ok (a.files.flatMap entry) := by
  have hmap := mapM_tarEntry (fun f hf => written_of_mem a.nodup hf) a.ne_tarname
  obtain ⟨f, files, hcons⟩ := List.exists_cons_of_ne_nil hne
  rw [hcons, List.map_cons, tar, if_pos h.canCreate_tarname, ← List.map_cons, ← hcons, hmap,
    ok_bind, List.flatMap_def]

end Tar

/-! ### Reading an entry -/

section Untar

variable {h : Host} {l : Locals} {f : Name × Content} {f_tar rest : List UInt8}

theorem length_nameField (name : Name) : (nameField name).length = 100 := by
  unfold nameField
  split <;> simp <;> omega

theorem cString_nameField {name : Name} (hs : name.length < 100) (h0 : 0 ∉ name) :
    cString (nameField name) = .ok name := by
  have hmem : (0 : UInt8) ∈ nameField name := by
    rw [nameField, if_neg (by omega)]
    simp
    omega
  rw [cString, if_pos hmem, nameField, if_neg (by omega), cstr, List.takeWhile_append_of_pos]
  · simp
  · intro b hb
    simpa using ne_of_mem_of_not_mem hb h0

theorem turns_leBytes {n : ℕ} (hn : n < 2 ^ 31) : turns (Bytes.leBytes 8 n) = .ok n := by
  have hlong : long (Bytes.leBytes 8 n) = n := by
    rw [long, Bytes.leNat_leBytes, Nat.mod_eq_of_lt (by omega), if_pos (by omega)]
  rw [turns, hlong, if_pos (by omega), Int.toNat_natCast]

theorem fread_full {got buffer : List UInt8} (hl : buffer.length ≤ got.length) :
    fread got buffer = got := by
  rw [fread, List.drop_eq_nil_of_le hl, List.append_nil]

/-- An entry gives its name, and as many bytes as its length says of whatever follows. -/
theorem untarEntry_entry (l : Locals) (rest : List UInt8) {name : Name} {n : ℕ}
    (hs : name.length < 100) (h0 : 0 ∉ name)
    (hn : n < 2 ^ 31) (hne : name ≠ h.tarname) (hc : h.canCreate name = true) :
    untarEntry h l (nameField name ++ Bytes.leBytes 8 n ++ rest) =
      .ok ((name, rest.take n ++ List.replicate (n - rest.length) eofByte), rest.drop n) := by
  apply untarEntry_ok.2
  have hl := length_nameField name
  have hdrop : (nameField name ++ Bytes.leBytes 8 n ++ rest).drop 108 = rest :=
    List.drop_left' (by simp [hl])
  have hsize : ((nameField name ++ Bytes.leBytes 8 n ++ rest).drop 100).take 8 =
      Bytes.leBytes 8 n := by
    rw [List.append_assoc, List.drop_left' hl, List.take_left' (Bytes.length_leBytes 8 n)]
  refine ⟨name, n, ?_, ?_, ?_, ?_⟩
  · show cString (fread _ _) = _
    rw [List.append_assoc, List.take_left' hl, fread_full, cString_nameField hs h0]
    rw [l.length_filename_buffer, hl]
  · rw [fopenOut, if_neg hne, if_pos hc]
  · rw [hsize, fread_full, turns_leBytes hn]
    rw [l.length_size_buffer, Bytes.length_leBytes]
  · rw [hdrop, extract_eq]

theorem untar_nil : untar h l [] = .ok [] := by
  rw [untar, dif_pos rfl]

theorem untar_cons {r : (Name × Content) × List UInt8} (hne : f_tar ≠ [])
    (hr : untarEntry h l f_tar = .ok r) :
    untar h l f_tar = (do
      let files ← untar h (l.readName f_tar) r.2
      .ok (r.1 :: files)) := by
  rw [untar, dif_neg hne]
  split
  · rename_i e he
    rw [hr] at he
    cases he
  · rename_i file rest he
    rw [hr] at he
    cases he
    rfl

/-- A run that ends read an entry and then ran on the rest. -/
theorem untar_ok {out : List (Name × Content)} (hne : f_tar ≠ [])
    (hout : untar h l f_tar = .ok out) :
    ∃ r files, untarEntry h l f_tar = .ok r ∧ untar h (l.readName f_tar) r.2 = .ok files ∧
      out = r.1 :: files := by
  cases hr : untarEntry h l f_tar with
  | error e =>
    rw [untar, dif_neg hne] at hout
    split at hout
    · cases hout
    · rename_i he
      rw [hr] at he
      cases he
  | ok r =>
    rw [untar_cons hne hr, bind_ok] at hout
    obtain ⟨files, hfiles, hout⟩ := hout
    exact ⟨r, files, rfl, hfiles, (Except.ok.inj hout).symm⟩

/-- Files without the byte `0xFF` come back, whatever follows them in the archive. -/
theorem untar_entries {files : List (Name × Content)} (hs : ∀ f ∈ files, f.1.length < 100)
    (h0 : ∀ f ∈ files, 0 ∉ f.1) (hne : ∀ f ∈ files, f.1 ≠ h.tarname)
    (hc : ∀ f ∈ files, h.canCreate f.1 = true) (hsize : ∀ f ∈ files, f.2.length < 2 ^ 31)
    (heof : ∀ f ∈ files, eofByte ∉ f.2) (l : Locals) (rest : List UInt8) :
    ∃ l' : Locals, untar h l (files.flatMap entry ++ rest) = (do
      let out ← untar h l' rest
      .ok (files ++ out)) := by
  induction files generalizing l with
  | nil =>
    refine ⟨l, ?_⟩
    cases hout : untar h l rest <;> simp [hout]
  | cons f files ih =>
    rw [List.forall_mem_cons] at hs h0 hne hc hsize heof
    obtain ⟨l', hl'⟩ := ih hs.2 h0.2 hne.2 hc.2 hsize.2 heof.2 (l.readName
      (nameField f.1 ++ Bytes.leBytes 8 f.2.length ++ (f.2 ++ (files.flatMap entry ++ rest))))
    refine ⟨l', ?_⟩
    have hf : (f :: files).flatMap entry ++ rest = nameField f.1 ++ Bytes.leBytes 8 f.2.length ++
        (f.2 ++ (files.flatMap entry ++ rest)) := by
      rw [List.flatMap_cons, entry, copy_of_not_mem heof.1]
      simp only [List.append_assoc]
    have hread := untarEntry_entry l (f.2 ++ (files.flatMap entry ++ rest))
      hs.1 h0.1 hsize.1 hne.1 hc.1
    have hnil : nameField f.1 ++ Bytes.leBytes 8 f.2.length ++
        (f.2 ++ (files.flatMap entry ++ rest)) ≠ [] := by
      intro hnil
      simpa [length_nameField] using congrArg List.length hnil
    rw [hf, untar_cons hnil hread, List.drop_left, hl']
    cases untar h l' rest with
    | error e => rfl
    | ok out => simp

end Untar

/-! ### The length of what is written -/

section Lengths

variable {h : Host} {l : Locals} {f : Name × Content} {f_tar rest : List UInt8}

/-- Size buffers that hold a huge number unless all of their bytes are read. -/
def ones : Locals where
  filename_buffer := List.replicate 100 0
  size_buffer := List.replicate 8 1
  length_filename_buffer := by simp
  length_size_buffer := by simp

/-- A length that is not read in full is too big. -/
theorem turns_short {got : List UInt8} (hgot : got.length < 8) {n : ℕ} :
    turns (fread got (List.replicate 8 1)) ≠ .ok n := by
  have hsplit : fread got (List.replicate 8 1) =
      (got ++ List.replicate (7 - got.length) 1) ++ [1] := by
    rw [fread, List.drop_replicate, List.append_assoc, ← List.replicate_succ',
      show 7 - got.length + 1 = 8 - got.length by omega]
  have hlen : (got ++ List.replicate (7 - got.length) 1).length = 7 := by
    simp
    omega
  have hlt := Bytes.leNat_lt (got ++ List.replicate (7 - got.length) 1)
  have hval : Bytes.leNat (fread got (List.replicate 8 1)) =
      Bytes.leNat (got ++ List.replicate (7 - got.length) 1) + 256 ^ 7 := by
    rw [hsplit, Bytes.leNat_append, hlen]
    rfl
  rw [hlen] at hlt
  have hlong : long (fread got (List.replicate 8 1)) ≥ 2 ^ 31 := by
    rw [long, if_pos (by omega)]
    omega
  rw [turns, if_neg (by omega)]
  intro h
  cases h

theorem turns_lt {bytes : List UInt8} {n : ℕ} (hn : turns bytes = .ok n) : n < 2 ^ 31 := by
  unfold turns at hn
  split at hn
  · cases hn
    omega
  · cases hn

/-- An entry takes as many bytes as its file is long and 108 more, but for the bytes that were
missing at the end of the archive and became `0xFF`. -/
theorem untarEntry_accounts (hl : l.size_buffer = ones.size_buffer)
    (hr : untarEntry h l f_tar = .ok (f, rest)) :
    f.2.length < 2 ^ 31 ∧ ∃ missing, span f + rest.length = f_tar.length + missing ∧
      (0 < missing → rest = [] ∧ ∃ u, f.2 = u ++ List.replicate missing eofByte) := by
  obtain ⟨name, n, -, -, hn, hf⟩ := untarEntry_ok.1 hr
  rw [extract_eq, Prod.mk.injEq] at hf
  obtain ⟨rfl, rfl⟩ := hf
  have hlong : 108 ≤ f_tar.length := by
    by_contra hshort
    rw [hl] at hn
    refine turns_short ?_ hn
    simp
    omega
  refine ⟨?_, n - (f_tar.drop 108).length, ?_, ?_⟩
  · have hlt := turns_lt hn
    simp
    omega
  · simp [span]
    omega
  · intro hpos
    exact ⟨List.drop_eq_nil_of_le (by omega), _, rfl⟩

/-- **The length accounting of a run.** -/
theorem untar_accounts {out : List (Name × Content)} (hl : l.size_buffer = ones.size_buffer)
    (hout : untar h l f_tar = .ok out) :
    (∀ f ∈ out, f.2.length < 2 ^ 31) ∧ ∃ missing,
      (out.map span).sum = f_tar.length + missing ∧
      (0 < missing →
        ∃ init name u, out = init ++ [(name, u ++ List.replicate missing eofByte)]) := by
  induction out generalizing l f_tar with
  | nil =>
    by_cases hne : f_tar = []
    · subst hne
      exact ⟨by simp, 0, by simp, by simp⟩
    · obtain ⟨r, files, -, -, hcons⟩ := untar_ok hne hout
      cases hcons
  | cons f files ih =>
    have hne : f_tar ≠ [] := by
      rintro rfl
      rw [untar_nil] at hout
      cases hout
    obtain ⟨⟨f', rest⟩, files', hr, hfiles, hcons⟩ := untar_ok hne hout
    cases hcons
    obtain ⟨hsize, missing, hlen, hend⟩ := untarEntry_accounts hl hr
    obtain ⟨hsizes, missing', hlen', hend'⟩ := ih (l := l.readName f_tar) hl hfiles
    refine ⟨List.forall_mem_cons.2 ⟨hsize, hsizes⟩, missing + missing', ?_, ?_⟩
    · rw [List.map_cons, List.sum_cons, hlen']
      show span f' + (rest.length + missing') = _
      omega
    · intro hpos
      rcases Nat.eq_zero_or_pos missing with hm | hm
      · -- The missing bytes belong to a later entry.
        obtain ⟨init, name, u, rfl⟩ := hend' (by omega)
        exact ⟨f' :: init, name, u, by simp [hm]⟩
      · -- Nothing is left of the archive.
        obtain ⟨rfl, u, hu⟩ := hend hm
        rw [untar_nil] at hfiles
        cases hfiles
        have hm' : missing' = 0 := by simpa using hlen'.symm
        exact ⟨[], f'.1, u, by rw [hm', Nat.add_zero, ← hu]; rfl⟩

end Lengths

/-! ### Which files come back -/

section Restorable

variable {files : List (Name × Content)}

/-- The bytes of a file that the archiver leaves out. -/
def cut (f : Name × Content) : ℕ := f.2.length - (copy f.2).length

theorem length_copy_le (content : Content) : (copy content).length ≤ content.length := by
  rw [copy_eq]
  exact (List.takeWhile_prefix _).length_le

theorem length_entry (f : Name × Content) : (entry f).length + cut f = span f := by
  have hle := length_copy_le f.2
  simp only [entry, cut, span, List.length_append, length_nameField, Bytes.length_leBytes]
  omega

theorem entry_ne_nil (f : Name × Content) : entry f ≠ [] := by
  intro hnil
  have hlen := congrArg List.length hnil
  simp [entry, length_nameField] at hlen

theorem cut_eq_zero {f : Name × Content} (hf : cut f = 0) : eofByte ∉ f.2 := by
  intro hmem
  have hle : f.2.length ≤ (copy f.2).length := by
    unfold cut at hf
    omega
  have hpre : copy f.2 <+: f.2 := by
    rw [copy_eq]
    exact List.takeWhile_prefix _
  have hcopy := hpre.eq_of_length_le hle
  rw [copy_eq, List.takeWhile_eq_self_iff] at hcopy
  simpa using hcopy _ hmem

/-- A file that is cut by as many bytes as it has at its end equal to `0xFF` has no others. -/
theorem not_mem_of_cut {name : Name} {u : Content} {k : ℕ}
    (hk : cut (name, u ++ List.replicate k eofByte) = k) : eofByte ∉ u := by
  have hle := length_copy_le (u ++ List.replicate k eofByte)
  have hlen : (copy (u ++ List.replicate k eofByte)).length = u.length := by
    unfold cut at hk
    simp only [List.length_append, List.length_replicate] at hk hle
    omega
  have hcopy : copy (u ++ List.replicate k eofByte) = u := by
    have hpre : copy (u ++ List.replicate k eofByte) <+: u ++ List.replicate k eofByte := by
      rw [copy_eq]
      exact List.takeWhile_prefix _
    rw [List.prefix_iff_eq_take.1 hpre, hlen, List.take_left]
  intro hmem
  rw [copy_eq] at hcopy
  rw [← hcopy] at hmem
  simpa using List.mem_takeWhile_imp hmem

/-- No file is too long for the `int` that counts its bytes, and the byte `0xFF` stands nowhere but
at the very end of the last file, any number of times. -/
def Restorable (files : List (Name × Content)) : Prop :=
  (∀ f ∈ files, f.2.length < 2 ^ 31) ∧
    ∃ pre name u k, files = pre ++ [(name, u ++ List.replicate k eofByte)] ∧
      (∀ f ∈ pre, eofByte ∉ f.2) ∧ eofByte ∉ u

theorem restorable_of_not_mem (hne : files ≠ []) (hsize : ∀ f ∈ files, f.2.length < 2 ^ 31)
    (heof : ∀ f ∈ files, eofByte ∉ f.2) : Restorable files := by
  refine ⟨hsize, ?_⟩
  obtain ⟨pre, ⟨name, u⟩, rfl⟩ := (List.eq_nil_or_concat' files).resolve_left hne
  refine ⟨pre, name, u, 0, by simp, fun f hf => heof f ?_, heof (name, u) ?_⟩
  · exact List.mem_append_left _ hf
  · simp

/-- The archive of some files is read, for any contents of the uninitialised variables, and every
file comes back with the bytes it had. -/
def RoundTrip {h : Host} (a : Args h) : Prop :=
  ∃ archive, tar h (written a.files) (a.files.map Prod.fst) = .ok archive ∧
    ∀ l : Locals, ∃ out, untar h l archive = .ok out ∧ written out = written a.files

variable {h : Host} {a : Args h}

theorem roundTrip_of_restorable (hr : Restorable a.files) : RoundTrip a := by
  obtain ⟨hsize, pre, name, u, k, hfiles, hpre, hu⟩ := hr
  have hne : a.files ≠ [] := by simp [hfiles]
  refine ⟨_, tar_eq a hne, fun l => ⟨a.files, ?_, rfl⟩⟩
  have hsub : ∀ f ∈ pre, f ∈ a.files := fun f hf => hfiles ▸ List.mem_append_left _ hf
  have hlast : (name, u ++ List.replicate k eofByte) ∈ a.files := hfiles ▸ by simp
  obtain ⟨l', hl'⟩ := untar_entries (fun f hf => a.short f (hsub f hf))
    (fun f hf => a.noNul f (hsub f hf)) (fun f hf => a.ne_tarname f (hsub f hf))
    (fun f hf => a.canCreate f (hsub f hf)) (fun f hf => hsize f (hsub f hf)) hpre l
    (entry (name, u ++ List.replicate k eofByte))
  have hcopy : copy (u ++ List.replicate k eofByte) = u := by
    rw [copy_eq, List.takeWhile_append_of_pos]
    · cases k <;> simp [List.replicate_succ]
    · intro b hb
      simpa using ne_of_mem_of_not_mem hb hu
  have hentry : entry (name, u ++ List.replicate k eofByte) =
      nameField name ++ Bytes.leBytes 8 (u ++ List.replicate k eofByte).length ++ u := by
    rw [entry, hcopy]
  have hread := untarEntry_entry l' u (a.short _ hlast) (a.noNul _ hlast)
    (hsize _ hlast) (a.ne_tarname _ hlast) (a.canCreate _ hlast)
  have htake : u.take (u ++ List.replicate k eofByte).length = u :=
    List.take_of_length_le (by simp)
  have hdrop : u.drop (u ++ List.replicate k eofByte).length = [] :=
    List.drop_eq_nil_of_le (by simp)
  have hmissing : (u ++ List.replicate k eofByte).length - u.length = k := by simp
  rw [← hentry, htake, hdrop, hmissing] at hread
  rw [hfiles, List.flatMap_append, List.flatMap_singleton, hl', untar_cons (entry_ne_nil _) hread,
    untar_nil]
  rfl

/-- An unarchiver that restores the directory writes every file of it. -/
theorem subperm_of_written {out : List (Name × Content)} (a : Args h)
    (hout : written out = written a.files) : ∃ extra, out.Perm (a.files ++ extra) := by
  have hsub : a.files ⊆ out := by
    intro f hf
    apply mem_of_written
    rw [hout]
    exact written_of_mem a.nodup hf
  obtain ⟨l, hperm, hl⟩ := List.subperm_of_subset a.nodup.of_map hsub
  obtain ⟨extra, hextra⟩ := hl.exists_perm_append
  exact ⟨extra, hextra.trans (hperm.append_right extra)⟩

theorem length_flatMap_entry (files : List (Name × Content)) :
    (files.flatMap entry).length + (files.map cut).sum =
      (files.map span).sum := by
  induction files with
  | nil => rfl
  | cons f files ih =>
    have hf := length_entry f
    simp only [List.flatMap_cons, List.length_append, List.map_cons, List.sum_cons]
    omega

/-- Two members of a list that are both cut are one and the same when a single cut makes up for all
that is missing. -/
theorem cut_eq_zero_of_sum {pre post : List (Name × Content)} {f g : Name × Content} {missing : ℕ}
    (hsum : ((pre ++ f :: post).map cut).sum ≤ missing) (hf : missing ≤ cut f) (hg : g ∈ pre) :
    cut g = 0 := by
  have hle : cut g ≤ (pre.map cut).sum := List.le_sum_of_mem (List.mem_map_of_mem hg)
  simp only [List.map_append, List.map_cons, List.sum_append, List.sum_cons] at hsum
  omega

theorem le_cut (name : Name) (u : Content) (k : ℕ) :
    k ≤ cut (name, u ++ List.replicate k eofByte) := by
  have hle : (copy (u ++ List.replicate k eofByte)).length ≤ u.length := by
    rw [copy_eq]
    induction u with
    | nil => cases k <;> simp [List.replicate_succ]
    | cons b u ih =>
      rw [List.cons_append, List.takeWhile_cons]
      split
      · simpa using ih
      · simp
  simp only [cut, List.length_append, List.length_replicate]
  omega

/-- When the files come back in some order, with a file last before which nothing is cut, that file
is the last of the archive. -/
theorem eq_nil_of_last {pre post init out : List (Name × Content)} {w : Name × Content}
    {l : Locals} (hfiles : a.files = pre ++ w :: post) (hpre : ∀ f ∈ pre, eofByte ∉ f.2)
    (hsize : ∀ f ∈ a.files, f.2.length < 2 ^ 31)
    (hout : untar h l (a.files.flatMap entry) = .ok out) (hperm : out.Perm a.files)
    (hlast : out = init ++ [w]) : post = [] := by
  have hsub : ∀ f ∈ pre, f ∈ a.files := fun f hf => hfiles ▸ List.mem_append_left _ hf
  have hw : w ∈ a.files := hfiles ▸ by simp
  obtain ⟨l', hl'⟩ := untar_entries (fun f hf => a.short f (hsub f hf))
    (fun f hf => a.noNul f (hsub f hf)) (fun f hf => a.ne_tarname f (hsub f hf))
    (fun f hf => a.canCreate f (hsub f hf)) (fun f hf => hsize f (hsub f hf)) hpre l
    ((w :: post).flatMap entry)
  have hread := untarEntry_entry l' (copy w.2 ++ post.flatMap entry) (a.short w hw)
    (a.noNul w hw) (hsize w hw) (a.ne_tarname w hw) (a.canCreate w hw)
  have hentry : (w :: post).flatMap entry =
      nameField w.1 ++ Bytes.leBytes 8 w.2.length ++ (copy w.2 ++ post.flatMap entry) := by
    rw [List.flatMap_cons, entry]
    simp only [List.append_assoc]
  have hnil : (w :: post).flatMap entry ≠ [] := by
    rw [List.flatMap_cons]
    exact List.append_ne_nil_of_left_ne_nil (entry_ne_nil w) _
  rw [← hentry] at hread
  rw [hfiles, List.flatMap_append, hl', bind_ok] at hout
  obtain ⟨tail, htail, hout⟩ := hout
  rw [untar_cons hnil hread, bind_ok] at htail
  obtain ⟨more, -, htail⟩ := htail
  cases htail
  cases hout
  have hnodup := hperm.nodup_iff.2 a.nodup.of_map
  -- The entry read has the name of `w`, so it is `w`.
  have hback := hperm.mem_iff.1 (List.mem_append_right pre List.mem_cons_self)
  rw [List.inj_on_of_nodup_map a.nodup hback hw rfl] at hlast hnodup hperm
  have hmore : more = [] := by
    rcases List.eq_nil_or_concat' more with hmore | ⟨more', x, rfl⟩
    · exact hmore
    · rw [← List.cons_append, ← List.append_assoc] at hlast
      cases List.singleton_inj.1 (List.append_inj' hlast rfl).2
      simp [List.nodup_append] at hnodup
  have hlen := hperm.length_eq
  rw [hfiles, hmore] at hlen
  simpa using hlen

theorem restorable_of_roundTrip (hr : RoundTrip a) : Restorable a.files := by
  obtain ⟨archive, harchive, hall⟩ := hr
  have hne : a.files ≠ [] := by
    intro hnil
    rw [hnil] at harchive
    cases harchive
  rw [tar_eq a hne, Except.ok.injEq] at harchive
  subst harchive
  obtain ⟨out, hout, hdir⟩ := hall ones
  obtain ⟨hsizes, missing, hlen, hend⟩ := untar_accounts rfl hout
  obtain ⟨extra, hperm⟩ := subperm_of_written a hdir
  have hsize : ∀ f ∈ a.files, f.2.length < 2 ^ 31 := by
    intro f hf
    apply hsizes
    exact hperm.mem_iff.2 (List.mem_append_left _ hf)
  -- What the archiver cuts and what the unarchiver writes too much add up to what is missing.
  have hcut : (a.files.map cut).sum + (extra.map span).sum = missing := by
    have hfiles := length_flatMap_entry a.files
    have hsum := (hperm.map span).sum_eq
    rw [List.map_append, List.sum_append] at hsum
    omega
  rcases Nat.eq_zero_or_pos missing with hm | hm
  · apply restorable_of_not_mem hne hsize
    intro f hf
    apply cut_eq_zero
    have hle : cut f ≤ (a.files.map cut).sum := List.le_sum_of_mem (List.mem_map_of_mem hf)
    omega
  obtain ⟨init, name, u, hlast⟩ := hend hm
  have hw : (name, u ++ List.replicate missing eofByte) ∈ a.files ++ extra := by
    rw [← hperm.mem_iff, hlast]
    simp
  rcases List.mem_append.1 hw with hw | hw
  swap
  · -- An entry that is not one of the files is longer than all that is missing.
    have hle := List.le_sum_of_mem (List.mem_map_of_mem (f := span) hw)
    simp only [span, List.length_append, List.length_replicate] at hle
    omega
  have hle := le_cut name u missing
  have hcutw := List.le_sum_of_mem (List.mem_map_of_mem (f := cut) hw)
  have hextra : extra = [] := by
    cases extra with
    | nil => rfl
    | cons f extra =>
      simp only [List.map_cons, List.sum_cons, span] at hcut
      omega
  rw [hextra, List.append_nil] at hperm
  obtain ⟨pre, post, hfiles⟩ := List.append_of_mem hw
  have hpre : ∀ f ∈ pre, eofByte ∉ f.2 := by
    intro f hf
    apply cut_eq_zero
    have hsum : (a.files.map cut).sum ≤ missing := by omega
    rw [hfiles] at hsum
    exact cut_eq_zero_of_sum hsum hle hf
  have hpost := eq_nil_of_last hfiles hpre hsize hout hperm hlast
  subst hpost
  refine ⟨hsize, pre, name, u, missing, hfiles, hpre, ?_⟩
  refine not_mem_of_cut (le_antisymm ?_ hle)
  omega

end Restorable

/-- **Archive round trip.** -/
theorem roundTrip_iff {h : Host} (a : Args h) : RoundTrip a ↔ Restorable a.files :=
  ⟨restorable_of_roundTrip, roundTrip_of_restorable⟩

/-- A host whose archive is called `t`. -/
def host : Host where
  tarname := [0x74]
  canCreate _ := true
  canCreate_tarname := rfl

/-- A file `a` whose first byte is `0xFF` and whose second is not. -/
def eofFirst : Args host where
  files := [([0x61], [0xFF, 0x41])]
  nodup := by decide
  short := by decide
  noNul := by decide
  ne_tarname := by decide
  canCreate := by decide

/-- The file comes back as two bytes `0xFF`. -/
theorem untar_eofFirst (l : Locals) :
    untar host l (eofFirst.files.flatMap entry) = .ok [([0x61], [0xFF, 0xFF])] := by
  have hentry : eofFirst.files.flatMap entry = nameField [0x61] ++ Bytes.leBytes 8 2 ++ [] := by
    decide
  have hshort : ([0x61] : Name).length < 100 := by decide
  have hread := untarEntry_entry (h := host) (n := 2) l [] hshort (by decide) (by decide)
    (by decide) rfl
  rw [← hentry, List.drop_nil] at hread
  rw [untar_cons (by decide) hread, untar_nil]
  rfl

theorem not_roundTrip : ¬ RoundTrip eofFirst := by
  rintro ⟨archive, harchive, hall⟩
  rw [tar_eq eofFirst (by decide), Except.ok.injEq] at harchive
  subst harchive
  obtain ⟨out, hout, hdir⟩ := hall ones
  rw [untar_eofFirst, Except.ok.injEq] at hout
  subst hout
  exact absurd (congrFun hdir [0x61]) (by decide)

end OsProjects.Tar
