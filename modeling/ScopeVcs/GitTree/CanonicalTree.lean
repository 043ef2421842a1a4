import ScopeVcs.GitTree.TreeFiles

/-! # The canonical tree of a set of files

`canonicalTreeOid` is the object id of the Git tree that a flat list of files stands for, computed
without a nested tree: the files are grouped by the first name of their paths. The object id of a
sound tree is that of its files, whatever the tree remembers.
-/

namespace ScopeVcs

open Mutation (except_bind_eq_ok)
open SortedMap (lookupEntry)

variable (gitObjectOid : String → List UInt8 → String)

/-! ## Remembered object ids -/

namespace Tree

/-- A tree that differs in what it remembers only. -/
structure Refreshed (tree tree' : Tree) : Prop where
  sound : tree'.Sound gitObjectOid
  entries_eq_nil : tree'.entries = [] ↔ tree.entries = []
  freshOid : tree'.freshOid gitObjectOid = tree.freshOid gitObjectOid
  file? : tree'.file? = tree.file?

/-- An entry that differs in what its directory remembers only. -/
def RefreshedEntry (entry entry' : String × TreeEntry) : Prop :=
  entry'.1 = entry.1 ∧
    match entry.2 with
    | .file file => entry'.2 = .file file
    | .directory directory => ∃ directory', entry'.2 = .directory directory' ∧
        Refreshed gitObjectOid directory directory'

variable {gitObjectOid}

theorem RefreshedEntry.freshOid {entry entry' : String × TreeEntry}
    (h : RefreshedEntry gitObjectOid entry entry') :
    entry'.2.freshOid gitObjectOid = entry.2.freshOid gitObjectOid := by
  obtain ⟨-, h⟩ := h
  split at h
  · rename_i file hfile
    rw [h, hfile]
  · rename_i directory hdirectory
    obtain ⟨directory', hdirectory', hrefreshed⟩ := h
    rw [hdirectory', hdirectory, TreeEntry.freshOid, TreeEntry.freshOid, hrefreshed.freshOid]

theorem freshRows_of_refreshed {entries entries' : List (String × TreeEntry)}
    (h : List.Forall₂ (RefreshedEntry gitObjectOid) entries entries') :
    freshRows gitObjectOid entries' = freshRows gitObjectOid entries := by
  induction h with
  | nil => rfl
  | @cons entry entry' rest rest' hentry _ ih =>
    obtain ⟨name, entry⟩ := entry
    obtain ⟨name', entry'⟩ := entry'
    obtain rfl : name' = name := hentry.1
    rw [freshRows, freshRows, ih, hentry.freshOid]

theorem lookupEntry_of_refreshed {entries entries' : List (String × TreeEntry)}
    (h : List.Forall₂ (RefreshedEntry gitObjectOid) entries entries') (name : String) :
    (lookupEntry name entries = none ∧ lookupEntry name entries' = none) ∨
      ∃ entry entry', lookupEntry name entries = some entry ∧
        lookupEntry name entries' = some entry' ∧
        RefreshedEntry gitObjectOid (name, entry) (name, entry') := by
  induction h with
  | nil => exact .inl ⟨rfl, rfl⟩
  | @cons entry entry' rest rest' hentry _ ih =>
    obtain ⟨other, entry⟩ := entry
    obtain ⟨other', entry'⟩ := entry'
    obtain rfl : other' = other := hentry.1
    rw [lookupEntry, lookupEntry]
    by_cases hname : name = other'
    · subst hname
      exact .inr ⟨entry, entry', if_pos rfl, if_pos rfl, hentry⟩
    · rw [if_neg hname, if_neg hname]
      exact ih

/-- Refreshing the entries of a tree, and remembering its object id, refreshes the tree. -/
theorem Sound.refreshed {entries entries' : List (String × TreeEntry)} {cachedOid : Option GitOid}
    (hsound : Sound gitObjectOid ⟨entries, cachedOid⟩)
    (h : List.Forall₂ (RefreshedEntry gitObjectOid) entries entries') {oid : GitOid}
    (hoid : Tree.freshOid gitObjectOid ⟨entries, cachedOid⟩ = .ok oid) :
    Refreshed gitObjectOid ⟨entries, cachedOid⟩ ⟨entries', some oid⟩ := by
  have hfresh : ∀ cached cached', Tree.freshOid gitObjectOid ⟨entries', cached'⟩ =
      Tree.freshOid gitObjectOid ⟨entries, cached⟩ := by
    intro cached cached'
    rw [Tree.freshOid, Tree.freshOid, freshRows_of_refreshed h]
  have hdirectory : ∀ name directory', lookupEntry name entries' = some (.directory directory') →
      ∃ directory, lookupEntry name entries = some (.directory directory) ∧
        Refreshed gitObjectOid directory directory' := by
    intro name directory' hget
    rcases lookupEntry_of_refreshed h name with ⟨-, hnone⟩ | ⟨entry, entry', hentry, hentry', -, hr⟩
    · rw [hnone] at hget
      cases hget
    · obtain rfl : entry' = .directory directory' := Option.some.inj (hentry'.symm.trans hget)
      cases entry with
      | file file => cases hr
      | directory directory =>
        obtain ⟨other, hother, hrefreshed⟩ := hr
        rw [TreeEntry.directory.inj hother]
        exact ⟨directory, hentry, hrefreshed⟩
  have hnames : entries'.map Prod.fst = entries.map Prod.fst :=
    (List.forall₂_eq_eq_eq ▸ List.forall₂_map_left_iff.mpr
      (List.forall₂_map_right_iff.mpr (h.imp fun _ _ he => he.1.symm)) :
      entries.map Prod.fst = entries'.map Prod.fst).symm
  refine ⟨⟨?_, ?_, ?_, ?_⟩, ?_, hfresh _ _, ?_⟩
  · have hsorted := hsound.sorted
    rw [entries_mk, ← List.pairwise_map (f := Prod.fst) (R := (· < ·))] at hsorted
    rwa [← List.pairwise_map (f := Prod.fst) (R := (· < ·)), hnames]
  · intro name directory' hget
    obtain ⟨directory, -, hrefreshed⟩ := hdirectory name directory' hget
    exact hrefreshed.sound
  · intro name directory' hget
    obtain ⟨directory, hentry, hrefreshed⟩ := hdirectory name directory' hget
    exact mt hrefreshed.entries_eq_nil.mp (hsound.nonempty hentry)
  · rintro _ ⟨⟩
    rw [hfresh cachedOid none, hoid]
  · rw [entries_mk, entries_mk, ← List.length_eq_zero_iff, ← List.length_eq_zero_iff, h.length_eq]
  · funext path
    cases path with
    | nil => rfl
    | cons name rest =>
      rcases lookupEntry_of_refreshed h name with ⟨hnone, hnone'⟩ |
        ⟨entry, entry', hentry, hentry', -, hr⟩
      · cases rest <;> simp [Tree.file?, get?, hnone, hnone']
      · cases entry with
        | file file =>
          obtain rfl : entry' = .file file := hr
          refine file?_congr ?_ rest
          rw [get?, get?, entries_mk, entries_mk, hentry, hentry']
        | directory directory =>
          obtain ⟨directory', rfl, hrefreshed⟩ := hr
          cases rest <;> simp [Tree.file?, get?, hentry, hentry', hrefreshed.file?]

theorem Refreshed.refl {tree : Tree} (h : tree.Sound gitObjectOid) :
    Refreshed gitObjectOid tree tree :=
  ⟨h, Iff.rfl, rfl, rfl⟩

/-- The object id of a sound tree is the one computed afresh, and computing it only refreshes what
the tree remembers. -/
theorem Sound.oid {tree : Tree} (h : tree.Sound gitObjectOid) :
    ∃ tree', tree.oid gitObjectOid = (tree.freshOid gitObjectOid).map (fun oid => (oid, tree')) ∧
      (∀ oid, tree.freshOid gitObjectOid = .ok oid → Refreshed gitObjectOid tree tree') := by
  revert h
  -- over the trees, their entries and the entry lists, as `Tree.oid` recurses
  refine Tree.oid.induct
    (fun tree => tree.Sound gitObjectOid → ∃ tree',
      tree.oid gitObjectOid = (tree.freshOid gitObjectOid).map (fun oid => (oid, tree')) ∧
        (∀ oid, tree.freshOid gitObjectOid = .ok oid → Refreshed gitObjectOid tree tree'))
    (fun entries => (∀ entry ∈ entries, ∀ directory, entry.2 = .directory directory →
        directory.Sound gitObjectOid) → ∃ entries',
      entriesOid gitObjectOid entries =
          (freshRows gitObjectOid entries).map (fun rows => (rows, entries')) ∧
        (∀ rows, freshRows gitObjectOid entries = .ok rows →
          List.Forall₂ (RefreshedEntry gitObjectOid) entries entries'))
    (fun entry => (∀ directory, entry = .directory directory → directory.Sound gitObjectOid) →
      ∃ entry', entry.oid gitObjectOid =
          (entry.freshOid gitObjectOid).map (fun row => (row, entry')) ∧
        (∀ row name, entry.freshOid gitObjectOid = .ok row →
          RefreshedEntry gitObjectOid (name, entry) (name, entry')))
    ?_ ?_ ?_ ?_ ?_ ?_ tree
  · intro entries oid h
    refine ⟨⟨entries, some oid⟩, ?_, fun _ _ => .refl h⟩
    rw [h.cached rfl, Tree.oid]
    rfl
  · intro entries ih h
    have hentries : ∀ entry ∈ entries, ∀ directory, entry.2 = .directory directory →
        directory.Sound gitObjectOid := by
      rintro ⟨name, entry⟩ hentry directory rfl
      exact h.directory (SortedMap.lookupEntry_of_mem h.sorted hentry)
    obtain ⟨entries', heq, hrefreshed⟩ := ih hentries
    rw [Tree.oid, heq, Tree.freshOid]
    cases hrows : freshRows gitObjectOid entries with
    | error error => exact ⟨⟨entries, none⟩, rfl, by rintro _ ⟨⟩⟩
    | ok rows =>
      cases hoid : treeObjectOid gitObjectOid rows with
      | error error =>
        refine ⟨⟨entries, none⟩, ?_, ?_⟩
        · simp [Except.map, bind, Except.bind, hoid]
        · simp [bind, Except.bind, hoid]
      | ok oid =>
        refine ⟨⟨entries', some oid⟩, ?_, fun _ _ => h.refreshed (hrefreshed rows hrows) ?_⟩
        · simp [Except.map, bind, Except.bind, hoid, pure, Except.pure]
        · rw [Tree.freshOid, hrows]
          exact hoid
  · intro file _
    exact ⟨.file file, rfl, fun _ _ _ => ⟨rfl, rfl⟩⟩
  · intro directory ih h
    obtain ⟨directory', heq, hrefreshed⟩ := ih (h directory rfl)
    refine ⟨.directory directory', ?_, ?_⟩
    · rw [TreeEntry.oid, heq, TreeEntry.freshOid]
      cases directory.freshOid gitObjectOid <;> rfl
    · intro row name hrow
      rw [TreeEntry.freshOid, except_bind_eq_ok] at hrow
      obtain ⟨oid, hoid, -⟩ := hrow
      exact ⟨rfl, directory', rfl, hrefreshed oid hoid⟩
  · intro _
    exact ⟨[], rfl, fun _ _ => .nil⟩
  · intro name entry rest ihentry ihrest h
    obtain ⟨entry', hentry, hrentry⟩ := ihentry (h (name, entry) (by simp))
    obtain ⟨rest', hrest, hrrest⟩ := ihrest fun other hother => h other (by simp [hother])
    refine ⟨(name, entry') :: rest', ?_, ?_⟩
    · rw [entriesOid, freshRows, hentry, hrest]
      cases entry.freshOid gitObjectOid with
      | error error => rfl
      | ok row => cases freshRows gitObjectOid rest <;> rfl
    · intro rows hrows
      rw [freshRows] at hrows
      simp only [except_bind_eq_ok] at hrows
      obtain ⟨row, hrow, rows', hrows', -⟩ := hrows
      exact .cons (hrentry row name hrow) (hrrest rows' hrows')

end Tree

/-! ## Grouping files by directory -/

/-- Files by the names of their paths, in any order. -/
abbrev GitFiles := List (List String × TreeFile)

namespace GitFiles

/-- The names in the root directory, in order. -/
def names (files : GitFiles) : List String :=
  (SortedSet.ofList (files.filterMap fun file => file.1.head?)).toList

/-- The files under one name, by the rest of their paths. -/
def below (files : GitFiles) (name : String) : GitFiles :=
  files.filterMap fun file =>
    match file.1 with
    | first :: rest => if first = name then some (rest, file.2) else none
    | [] => none

end GitFiles

/-- The object id of the Git tree that holds the given files, none deeper than `depth`. -/
def canonicalTreeOid : ℕ → GitFiles → Except ProjectionIdentityError GitOid
  | 0, _ => treeObjectOid gitObjectOid []
  | depth + 1, files => do
    let rows ← files.names.mapM fun name =>
      match (files.below name).find? (·.1.isEmpty) with
      | some (_, file) => .ok ⟨name, false, file.mode, file.oid⟩
      | none => do
        let oid ← canonicalTreeOid depth (files.below name)
        return ⟨name, true, "40000", oid⟩
    treeObjectOid gitObjectOid rows

namespace GitFiles

theorem mem_names {files : GitFiles} {name : String} :
    name ∈ files.names ↔ ∃ rest file, (name :: rest, file) ∈ files := by
  rw [names, SortedSet.mem_toList_ofList, List.mem_filterMap]
  constructor
  · rintro ⟨⟨path, file⟩, hmem, hhead⟩
    obtain ⟨rest, rfl⟩ := List.head?_eq_some_iff.mp hhead
    exact ⟨rest, file, hmem⟩
  · rintro ⟨rest, file, hmem⟩
    exact ⟨_, hmem, rfl⟩

theorem names_sorted (files : GitFiles) : files.names.Pairwise (· < ·) := by
  rw [names, SortedSet.toList, SortedMap.keys, List.pairwise_map]
  exact SortedMap.sorted _

theorem mem_below {files : GitFiles} {name : String} {rest : List String} {file : TreeFile} :
    (rest, file) ∈ files.below name ↔ (name :: rest, file) ∈ files := by
  rw [below, List.mem_filterMap]
  constructor
  · rintro ⟨⟨path, file'⟩, hmem, hsome⟩
    cases path with
    | nil => cases hsome
    | cons first rest' =>
      dsimp only at hsome
      split_ifs at hsome with hname
      cases hsome
      rwa [← hname]
  · exact fun hmem => ⟨_, hmem, by simp⟩

/-- The files that a tree leads to. -/
def Of (files : GitFiles) (tree : Tree) : Prop :=
  ∀ path file, (path, file) ∈ files ↔ tree.file? path = some file

namespace Of

variable {files : GitFiles} {tree : Tree}

theorem names_eq (h : files.Of tree) (hsound : tree.Sound gitObjectOid) :
    files.names = tree.entries.map Prod.fst := by
  refine List.Pairwise.eq_of_mem_iff files.names_sorted
    (List.pairwise_map.mpr hsound.sorted) fun name => ?_
  rw [mem_names]
  constructor
  · rintro ⟨rest, file, hmem⟩
    have hfile := (h _ _).mp hmem
    have hget : ∃ entry, tree.get? name = some entry := by
      cases hentry : tree.get? name with
      | some entry => exact ⟨entry, rfl⟩
      | none => cases rest <;> simp [Tree.file?, hentry] at hfile
    obtain ⟨entry, hentry⟩ := hget
    exact List.mem_map.mpr ⟨_, SortedMap.mem_of_lookupEntry hentry, rfl⟩
  · intro hname
    obtain ⟨⟨name, entry⟩, hmem, rfl⟩ := List.mem_map.mp hname
    have hget : tree.get? name = some entry := SortedMap.lookupEntry_of_mem hsound.sorted hmem
    cases entry with
    | file file => exact ⟨[], file, (h _ _).mpr (by rw [Tree.file?_singleton, hget])⟩
    | directory directory =>
      obtain ⟨path, file, hfile⟩ := (hsound.directory hget).exists_file (hsound.nonempty hget)
      have hpath : path ≠ [] := by
        rintro rfl
        cases hfile
      exact ⟨path, file, (h _ _).mpr (by rw [Tree.file?_cons _ _ hpath, hget]; exact hfile)⟩

theorem below (h : files.Of tree) {name : String} {directory : Tree}
    (hget : tree.get? name = some (.directory directory)) : (files.below name).Of directory := by
  intro path file
  rw [mem_below, h]
  cases path with
  | nil => simp [Tree.file?, hget]
  | cons next rest => rw [Tree.file?, hget]

/-- A file in the root directory is the only one under its name. -/
theorem find?_below_file (h : files.Of tree) {name : String} {file : TreeFile}
    (hget : tree.get? name = some (.file file)) :
    (files.below name).find? (·.1.isEmpty) = some ([], file) := by
  have hmem : ([], file) ∈ files.below name := by
    rw [mem_below, h, Tree.file?_singleton, hget]
  cases hfind : (files.below name).find? (·.1.isEmpty) with
  | none =>
    have hnone := List.find?_eq_none.mp hfind _ hmem
    exact absurd rfl hnone
  | some found =>
    obtain ⟨path, other⟩ := found
    have hpath : path = [] := by simpa using List.find?_some hfind
    have hother := List.mem_of_find?_eq_some hfind
    rw [hpath, mem_below, h, Tree.file?_singleton, hget] at hother
    rw [hpath, Option.some.inj hother]

theorem find?_below_directory (h : files.Of tree) {name : String} {directory : Tree}
    (hget : tree.get? name = some (.directory directory)) :
    (files.below name).find? (·.1.isEmpty) = none := by
  rw [List.find?_eq_none]
  rintro ⟨path, file⟩ hmem hpath
  have hnil : path = [] := by simpa using hpath
  rw [hnil, (h.below hget) [] file] at hmem
  cases hmem

end Of

theorem length_below {files : GitFiles} {depth : ℕ} (h : ∀ file ∈ files, file.1.length ≤ depth + 1)
    (name : String) : ∀ file ∈ files.below name, file.1.length ≤ depth := by
  rintro ⟨path, file⟩ hmem
  have hlength := h _ (mem_below.mp hmem)
  simpa using hlength

end GitFiles

/-- Rows computed one by one are computed for all entries. -/
theorem mapM_eq_freshRows {entries : List (String × TreeEntry)}
    {row : String → Except ProjectionIdentityError TreeRow}
    (h : ∀ name entry, (name, entry) ∈ entries → row name = do
      let (isDirectory, mode, oid) ← entry.freshOid gitObjectOid
      return ⟨name, isDirectory, mode, oid⟩) :
    (entries.map Prod.fst).mapM row = freshRows gitObjectOid entries := by
  induction entries with
  | nil => rfl
  | cons entry rest ih =>
    obtain ⟨name, entry⟩ := entry
    rw [List.map_cons, List.mapM_cons, freshRows, h name entry (by simp),
      ih fun other entry' hmem => h other entry' (by simp [hmem])]
    cases entry.freshOid gitObjectOid <;> rfl

/-- The object id of a sound tree is that of the canonical tree of its files. -/
theorem canonicalTreeOid_eq_freshOid {depth : ℕ} {files : GitFiles} {tree : Tree}
    (hsound : tree.Sound gitObjectOid) (hfiles : files.Of tree)
    (hdepth : ∀ file ∈ files, file.1.length ≤ depth) :
    canonicalTreeOid gitObjectOid depth files = tree.freshOid gitObjectOid := by
  induction depth generalizing files tree with
  | zero =>
    -- no path is that short, so there are no files and no entries
    have hentries : tree.entries = [] := by
      by_contra hne
      obtain ⟨path, file, hfile⟩ := hsound.exists_file hne
      have hlength : path.length ≤ 0 := hdepth _ ((hfiles path file).mpr hfile)
      rw [List.eq_nil_of_length_eq_zero (Nat.le_zero.mp hlength)] at hfile
      cases hfile
    obtain ⟨entries, cachedOid⟩ := tree
    obtain rfl : entries = [] := hentries
    rfl
  | succ depth ih =>
    rw [canonicalTreeOid, hfiles.names_eq gitObjectOid hsound, mapM_eq_freshRows gitObjectOid]
    · cases tree
      rw [Tree.freshOid]
      rfl
    · intro name entry hmem
      have hget : tree.get? name = some entry :=
        SortedMap.lookupEntry_of_mem hsound.sorted hmem
      cases entry with
      | file file =>
        rw [hfiles.find?_below_file hget]
        rfl
      | directory directory =>
        rw [hfiles.find?_below_directory hget]
        dsimp only
        rw [ih (hsound.directory hget) (hfiles.below hget) (GitFiles.length_below hdepth name),
          TreeEntry.freshOid]
        cases directory.freshOid gitObjectOid <;> rfl

end ScopeVcs
