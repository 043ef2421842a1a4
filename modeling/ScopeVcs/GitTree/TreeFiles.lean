import ScopeVcs.GitTree.Tree
import ScopeVcs.Lib.Mutation

/-! # The files of a tree

A tree stands for the files it leads to, by path. `Tree.Sound` is what every operation keeps: names
in order, no empty directory below the root, and no remembered object id that is out of date. On a
sound tree `insert` and `remove` change exactly one file, and `insert` fails exactly when its path
meets a file on the way or a directory at its end.
-/

namespace ScopeVcs

open Mutation (except_bind_eq_ok)
open SortedMap (lookupEntry insertEntry eraseEntry lookupEntry_insertEntry lookupEntry_eraseEntry)

namespace Tree

/-- The file at a path. -/
def file? (tree : Tree) (path : List String) : Option TreeFile :=
  match path with
  | [] => none
  | [name] =>
    match tree.get? name with
    | some (.file file) => some file
    | _ => none
  | name :: next :: rest =>
    match tree.get? name with
    | some (.directory directory) => directory.file? (next :: rest)
    | _ => none

@[simp]
theorem entries_mk (entries : List (String × TreeEntry)) (cachedOid : Option GitOid) :
    Tree.entries ⟨entries, cachedOid⟩ = entries := rfl

@[simp]
theorem get?_empty (name : String) : empty.get? name = none := rfl

@[simp]
theorem get?_insertEntry (entries : List (String × TreeEntry)) (cachedOid : Option GitOid)
    (name other : String) (entry : TreeEntry) :
    get? ⟨insertEntry name entry entries, cachedOid⟩ other =
      if other = name then some entry else lookupEntry other entries :=
  lookupEntry_insertEntry ..

@[simp]
theorem get?_eraseEntry (entries : List (String × TreeEntry)) (cachedOid : Option GitOid)
    (name other : String) :
    get? ⟨eraseEntry name entries, cachedOid⟩ other =
      if other = name then none else lookupEntry other entries :=
  lookupEntry_eraseEntry ..

/-- A file one name down. -/
theorem file?_cons (tree : Tree) (name : String) {rest : List String} (hrest : rest ≠ []) :
    tree.file? (name :: rest) =
      match tree.get? name with
      | some (.directory directory) => directory.file? rest
      | _ => none := by
  cases rest with
  | nil => exact absurd rfl hrest
  | cons next rest => rw [file?]

theorem file?_singleton (tree : Tree) (name : String) :
    tree.file? [name] =
      match tree.get? name with
      | some (.file file) => some file
      | _ => none := by
  rw [file?]

/-- The file at a path depends on the entry under its first name only. -/
theorem file?_congr {tree tree' : Tree} {name : String} (h : tree.get? name = tree'.get? name)
    (rest : List String) : tree.file? (name :: rest) = tree'.file? (name :: rest) := by
  cases rest with
  | nil => rw [file?_singleton, file?_singleton, h]
  | cons next rest => rw [file?, file?, h]

@[simp]
theorem file?_empty (path : List String) : empty.file? path = none := by
  cases path with
  | nil => rfl
  | cons name rest => cases rest <;> rfl

section

variable (gitObjectOid : String → List UInt8 → String)

/-- What every operation on trees keeps. -/
inductive Sound : Tree → Prop
  | mk {entries : List (String × TreeEntry)} {cachedOid : Option GitOid}
    (sorted : entries.Pairwise fun a b => a.1 < b.1)
    (directories : ∀ name directory, lookupEntry name entries = some (.directory directory) →
      directory.Sound)
    (nonempty : ∀ name directory, lookupEntry name entries = some (.directory directory) →
      directory.entries ≠ [])
    (cached : ∀ oid, cachedOid = some oid → freshOid gitObjectOid ⟨entries, none⟩ = .ok oid) :
    Sound ⟨entries, cachedOid⟩

variable {gitObjectOid}

namespace Sound

variable {tree : Tree}

theorem sorted (h : tree.Sound gitObjectOid) : tree.entries.Pairwise fun a b => a.1 < b.1 := by
  cases h
  assumption

theorem directory (h : tree.Sound gitObjectOid) {name : String} {directory : Tree}
    (hget : tree.get? name = some (.directory directory)) : directory.Sound gitObjectOid := by
  obtain ⟨-, hdirectories, -, -⟩ := h
  exact hdirectories _ _ hget

theorem nonempty (h : tree.Sound gitObjectOid) {name : String} {directory : Tree}
    (hget : tree.get? name = some (.directory directory)) : directory.entries ≠ [] := by
  obtain ⟨-, -, hnonempty, -⟩ := h
  exact hnonempty _ _ hget

theorem cached (h : tree.Sound gitObjectOid) {oid : GitOid} (hoid : tree.cachedOid = some oid) :
    tree.freshOid gitObjectOid = .ok oid := by
  obtain ⟨-, -, -, hcached⟩ := h
  have hfresh := hcached oid hoid
  rwa [freshOid] at hfresh ⊢

theorem empty : Tree.empty.Sound gitObjectOid := by
  refine ⟨List.Pairwise.nil, ?_, ?_, ?_⟩
  · exact fun _ _ h => nomatch h
  · exact fun _ _ h => nomatch h
  · exact fun _ h => nomatch h

/-- A nonempty tree leads to a file. -/
theorem exists_file (h : tree.Sound gitObjectOid) (hne : tree.entries ≠ []) :
    ∃ path file, tree.file? path = some file := by
  induction h with
  | @mk entries cachedOid sorted directories nonempty cached ih =>
    rw [entries_mk] at hne
    obtain ⟨⟨name, entry⟩, rest, rfl⟩ := List.exists_cons_of_ne_nil hne
    have hget : lookupEntry name ((name, entry) :: rest) = some entry := by simp [lookupEntry]
    cases entry with
    | file file =>
      refine ⟨[name], file, ?_⟩
      rw [file?_singleton, get?, entries_mk, hget]
    | directory directory =>
      obtain ⟨path, file, hfile⟩ := ih name directory hget (nonempty name directory hget)
      have hpath : path ≠ [] := by
        rintro rfl
        cases hfile
      refine ⟨name :: path, file, ?_⟩
      rw [file?_cons _ _ hpath, get?, entries_mk, hget]
      exact hfile

end Sound

/-! ## Insertion -/

/-- What stands in the way of a file at `path`: a file on the way, or a file below it. -/
def Blocked (tree : Tree) (path : List String) : Prop :=
  (∃ start rest, rest ≠ [] ∧ path = start ++ rest ∧ (tree.file? start).isSome) ∨
    ∃ rest, rest ≠ [] ∧ (tree.file? (path ++ rest)).isSome

theorem blocked_singleton {tree : Tree} (h : tree.Sound gitObjectOid) (name : String) :
    tree.Blocked [name] ↔ ∃ directory, tree.get? name = some (.directory directory) := by
  constructor
  · rintro (⟨start, rest, hrest, happend, hfile⟩ | ⟨rest, hrest, hfile⟩)
    · cases start with
      | nil => cases hfile
      | cons first start =>
        have : start ++ rest = [] := (List.cons.inj happend).2.symm
        exact absurd (List.append_eq_nil_iff.mp this).2 hrest
    · rw [List.singleton_append, file?_cons _ _ hrest] at hfile
      split at hfile
      · rename_i directory hget
        exact ⟨directory, hget⟩
      · cases hfile
  · rintro ⟨directory, hget⟩
    obtain ⟨path, file, hfile⟩ := (h.directory hget).exists_file (h.nonempty hget)
    have hpath : path ≠ [] := by
      rintro rfl
      cases hfile
    refine .inr ⟨path, hpath, ?_⟩
    rw [List.singleton_append, file?_cons _ _ hpath, hget]
    exact Option.isSome_iff_exists.mpr ⟨file, hfile⟩

theorem blocked_cons (tree : Tree) (name : String) {rest : List String} (hrest : rest ≠ []) :
    tree.Blocked (name :: rest) ↔
      match tree.get? name with
      | some (.directory directory) => directory.Blocked rest
      | some (.file _) => True
      | none => False := by
  unfold Blocked
  split
  · rename_i directory hget
    refine or_congr ⟨?_, ?_⟩ ?_
    · rintro ⟨start, last, hlast, happend, hfile⟩
      cases start with
      | nil => cases hfile
      | cons first start =>
        obtain ⟨rfl, rfl⟩ := List.cons.inj happend
        refine ⟨start, last, hlast, rfl, ?_⟩
        cases start with
        | nil =>
          rw [file?_singleton, hget] at hfile
          cases hfile
        | cons next start => rwa [file?, hget] at hfile
    · rintro ⟨start, last, hlast, rfl, hfile⟩
      have hstart : start ≠ [] := by
        rintro rfl
        cases hfile
      refine ⟨name :: start, last, hlast, rfl, ?_⟩
      rwa [file?_cons _ _ hstart, hget]
    · refine exists_congr fun last => and_congr_right fun _ => ?_
      rw [List.cons_append, file?_cons _ _ (by simp [hrest]), hget]
  · rename_i file hget
    refine iff_of_true (.inl ⟨[name], rest, hrest, rfl, ?_⟩) trivial
    rw [file?_singleton, hget]
    rfl
  · rename_i hget
    refine iff_of_false ?_ id
    rintro (⟨start, last, -, happend, hfile⟩ | ⟨last, -, hfile⟩)
    · cases start with
      | nil => cases hfile
      | cons first start =>
        obtain ⟨rfl, -⟩ := List.cons.inj happend
        cases start <;> simp [file?, hget] at hfile
    · rw [List.cons_append, file?_cons _ _ (by simp [hrest]), hget] at hfile
      cases hfile

theorem not_blocked_empty (path : List String) : ¬ empty.Blocked path := by
  rintro (⟨start, rest, -, -, hfile⟩ | ⟨rest, -, hfile⟩)
  · simp at hfile
  · simp at hfile

namespace Sound

variable {tree : Tree}

/-- Writing an entry keeps a tree sound, if the entry is a file or a sound, nonempty directory. -/
theorem writeEntry (h : tree.Sound gitObjectOid) (name : String) {entry : TreeEntry}
    (hentry : ∀ directory, entry = .directory directory →
      directory.Sound gitObjectOid ∧ directory.entries ≠ []) :
    Sound gitObjectOid ⟨insertEntry name entry tree.entries, none⟩ := by
  have hdirectory : ∀ other directory,
      lookupEntry other (insertEntry name entry tree.entries) =
        some (.directory directory) → directory.Sound gitObjectOid ∧ directory.entries ≠ [] := by
    intro other directory hget
    rw [lookupEntry_insertEntry] at hget
    split_ifs at hget with hother
    · exact hentry directory (Option.some.inj hget)
    · exact ⟨h.directory hget, h.nonempty hget⟩
  exact ⟨SortedMap.insertEntry_sorted name entry h.sorted, fun _ _ hget => (hdirectory _ _ hget).1,
    fun _ _ hget => (hdirectory _ _ hget).2, fun _ hnone => nomatch hnone⟩

theorem dropEntry (h : tree.Sound gitObjectOid) (name : String) :
    Sound gitObjectOid ⟨eraseEntry name tree.entries, none⟩ := by
  have hget : ∀ other directory,
      lookupEntry other (eraseEntry name tree.entries) = some (.directory directory) →
        tree.get? other = some (.directory directory) := by
    intro other directory hget
    rw [lookupEntry_eraseEntry] at hget
    split_ifs at hget
    exact hget
  exact ⟨SortedMap.eraseEntry_sorted name h.sorted, fun _ _ hd => h.directory (hget _ _ hd),
    fun _ _ hd => h.nonempty (hget _ _ hd), fun _ hnone => nomatch hnone⟩

end Sound

/-- Replacing a directory, or creating it, changes the files below it only. -/
theorem file?_insertEntry_directory {tree directory directory' : Tree} {name : String}
    {rest : List String} {after : Option TreeFile} (cachedOid : Option GitOid) (hrest : rest ≠ [])
    (hget : (tree.get? name).getD (.directory empty) = .directory directory)
    (hfile : ∀ other, directory'.file? other =
      if other = rest then after else directory.file? other) (other : List String) :
    file? ⟨insertEntry name (.directory directory') tree.entries, cachedOid⟩ other =
      if other = name :: rest then after else tree.file? other := by
  cases other with
  | nil => rw [if_neg (List.cons_ne_nil _ _).symm, file?, file?]
  | cons first others =>
    by_cases hfirst : first = name
    · subst hfirst
      by_cases hothers : others = []
      · subst hothers
        rw [if_neg (by simpa using hrest.symm), file?_singleton, file?_singleton,
          get?_insertEntry, if_pos rfl]
        cases hentry : tree.get? first with
        | none => rfl
        | some entry =>
          rw [hentry, Option.getD_some] at hget
          rw [hget]
      · rw [file?_cons _ _ hothers, file?_cons _ _ hothers, get?_insertEntry, if_pos rfl]
        simp only [List.cons.injEq, true_and, hfile]
        refine if_congr Iff.rfl rfl ?_
        cases hentry : tree.get? first with
        | none =>
          rw [hentry, Option.getD_none, TreeEntry.directory.injEq] at hget
          rw [← hget, file?_empty]
        | some entry =>
          rw [hentry, Option.getD_some] at hget
          rw [hget]
    · rw [if_neg (by simp [hfirst])]
      refine file?_congr ?_ others
      rw [get?_insertEntry, if_neg hfirst]
      rfl

/-- Replacing a file, or creating it, changes no other file. -/
theorem file?_insertEntry_file {tree : Tree} {name : String}
    (hget : ∀ directory, tree.get? name ≠ some (.directory directory)) (file : TreeFile)
    (other : List String) :
    file? ⟨insertEntry name (.file file) tree.entries, none⟩ other =
      if other = [name] then some file else tree.file? other := by
  cases other with
  | nil => rw [if_neg (List.cons_ne_nil _ _).symm, file?, file?]
  | cons first others =>
    by_cases hfirst : first = name
    · subst hfirst
      by_cases hothers : others = []
      · subst hothers
        rw [if_pos rfl, file?_singleton, get?_insertEntry, if_pos rfl]
      · rw [if_neg (by simpa using hothers), file?_cons _ _ hothers, file?_cons _ _ hothers,
          get?_insertEntry, if_pos rfl]
        change none = _
        split
        · rename_i directory hdirectory
          exact absurd hdirectory (hget directory)
        · rfl
    · rw [if_neg (by simp [hfirst])]
      refine file?_congr ?_ others
      rw [get?_insertEntry, if_neg hfirst]
      rfl

theorem insert_singleton {tree : Tree} {name : String}
    (hget : ∀ directory, tree.get? name ≠ some (.directory directory)) (file : TreeFile) :
    tree.insert [name] file = .ok ⟨insertEntry name (.file file) tree.entries, none⟩ := by
  rw [Tree.insert]
  split
  · rename_i directory hdirectory
    exact absurd hdirectory (hget directory)
  · rfl

theorem insert_cons {tree directory : Tree} {name : String} {rest : List String}
    (hrest : rest ≠ []) (hget : (tree.get? name).getD (.directory empty) = .directory directory)
    (file : TreeFile) :
    tree.insert (name :: rest) file = do
      let directory ← directory.insert rest file
      return ⟨insertEntry name (.directory directory) tree.entries, none⟩ := by
  obtain ⟨next, rest, rfl⟩ := List.exists_cons_of_ne_nil hrest
  rw [Tree.insert, hget]

/-- `insert` writes one file, or finds it blocked. -/
theorem Sound.insert {tree : Tree} (h : tree.Sound gitObjectOid) {path : List String}
    (hpath : path ≠ []) (file : TreeFile) :
    (tree.Blocked path ∧ ∃ conflict, tree.insert path file = .error (.pathConflict conflict)) ∨
      ¬ tree.Blocked path ∧ ∃ tree', tree.insert path file = .ok tree' ∧
        tree'.Sound gitObjectOid ∧ tree'.entries ≠ [] ∧
        ∀ other, tree'.file? other = if other = path then some file else tree.file? other := by
  induction path generalizing tree with
  | nil => exact absurd rfl hpath
  | cons name rest ih =>
    by_cases hrest : rest = []
    · subst hrest
      rw [blocked_singleton h]
      by_cases hget : ∃ directory, tree.get? name = some (.directory directory)
      · obtain ⟨directory, hget⟩ := hget
        refine .inl ⟨⟨directory, hget⟩, name, ?_⟩
        rw [Tree.insert, hget]
      · refine .inr ⟨hget, _, insert_singleton (not_exists.mp hget) file, ?_, ?_, ?_⟩
        · exact h.writeEntry name fun _ hfile => nomatch hfile
        · exact SortedMap.insertEntry_ne_nil name _ tree.entries
        · exact file?_insertEntry_file (not_exists.mp hget) file
    · -- a file under the first name blocks; a directory there, or a new one, takes the rest
      have hcases : (∃ before, tree.get? name = some (.file before)) ∨
          ∃ directory : Tree, directory.Sound gitObjectOid ∧
            (tree.get? name).getD (.directory Tree.empty) = .directory directory ∧
            (tree.Blocked (name :: rest) ↔ directory.Blocked rest) := by
        rw [blocked_cons tree name hrest]
        cases hget : tree.get? name with
        | none =>
          exact .inr ⟨Tree.empty, Sound.empty, rfl, iff_of_false id (not_blocked_empty rest)⟩
        | some entry =>
          cases entry with
          | file before => exact .inl ⟨before, rfl⟩
          | directory directory => exact .inr ⟨directory, h.directory hget, rfl, Iff.rfl⟩
      rcases hcases with ⟨before, hget⟩ | ⟨directory, hdirectory, hget, hblocked⟩
      · refine .inl ⟨by rw [blocked_cons tree name hrest, hget]; trivial, ?_⟩
        obtain ⟨next, rest, rfl⟩ := List.exists_cons_of_ne_nil hrest
        exact ⟨_, by rw [Tree.insert, hget]; rfl⟩
      · rw [hblocked, insert_cons hrest hget]
        rcases ih hdirectory hrest with ⟨hb, conflict, herror⟩ | ⟨hb, directory', hok, hs, hne, hfile⟩
        · exact .inl ⟨hb, conflict, by rw [herror]; rfl⟩
        · refine .inr ⟨hb, _, by rw [hok]; rfl, ?_, ?_, ?_⟩
          · refine h.writeEntry name fun other hother => ?_
            rw [← TreeEntry.directory.inj hother]
            exact ⟨hs, hne⟩
          · exact SortedMap.insertEntry_ne_nil name _ tree.entries
          · exact file?_insertEntry_directory none hrest hget hfile

/-! ## Removal -/

theorem remove_cons {tree directory : Tree} {name : String} {rest : List String}
    (hrest : rest ≠ []) (hget : tree.get? name = some (.directory directory)) :
    tree.remove (name :: rest) =
      ((directory.remove rest).1,
        ⟨if (directory.remove rest).2.entries.isEmpty then eraseEntry name tree.entries
          else insertEntry name (.directory (directory.remove rest).2) tree.entries,
          if (directory.remove rest).1 then none else tree.cachedOid⟩) := by
  obtain ⟨next, rest, rfl⟩ := List.exists_cons_of_ne_nil hrest
  rw [Tree.remove, hget]

theorem remove_cons_of_not_directory {tree : Tree} {name : String} {rest : List String}
    (hrest : rest ≠ []) (hget : ∀ directory, tree.get? name ≠ some (.directory directory)) :
    tree.remove (name :: rest) = (false, tree) := by
  obtain ⟨next, rest, rfl⟩ := List.exists_cons_of_ne_nil hrest
  rw [Tree.remove]
  split
  · rename_i directory hdirectory
    exact absurd hdirectory (hget directory)
  · rfl

/-- Dropping the entry under a name drops the files that start with it. -/
theorem file?_eraseEntry (tree : Tree) (name : String) (cachedOid : Option GitOid)
    (other : List String) :
    file? ⟨eraseEntry name tree.entries, cachedOid⟩ other =
      if other.head? = some name then none else tree.file? other := by
  cases other with
  | nil => rw [if_neg (by simp), file?, file?]
  | cons first others =>
    by_cases hfirst : first = name
    · subst hfirst
      rw [List.head?_cons, if_pos rfl]
      cases others <;> simp [file?]
    · rw [List.head?_cons, if_neg (by simpa using hfirst)]
      refine file?_congr ?_ others
      rw [get?_eraseEntry, if_neg hfirst]
      rfl

theorem file?_of_entries_eq_nil {tree : Tree} (h : tree.entries = []) (path : List String) :
    tree.file? path = none := by
  cases path with
  | nil => rfl
  | cons name rest =>
    have hget : tree.get? name = empty.get? name := by
      rw [get?, h]
      rfl
    rw [file?_congr hget, file?_empty]

/-- Removing from a directory changes the files below it only. -/
theorem file?_remove_cons {tree directory : Tree} {name : String} {rest : List String}
    (hrest : rest ≠ []) (hget : tree.get? name = some (.directory directory))
    (hfile : ∀ other, (directory.remove rest).2.file? other =
      if other = rest then none else directory.file? other) (other : List String) :
    (tree.remove (name :: rest)).2.file? other =
      if other = name :: rest then none else tree.file? other := by
  rw [remove_cons hrest hget]
  dsimp only
  by_cases hempty : (directory.remove rest).2.entries = []
  · rw [hempty, List.isEmpty_nil, if_pos rfl, file?_eraseEntry]
    by_cases hhead : other.head? = some name
    · obtain ⟨others, rfl⟩ := List.head?_eq_some_iff.mp hhead
      rw [if_pos hhead]
      -- the directory held no other file
      have hnone : tree.file? (name :: others) =
          if others = rest then tree.file? (name :: rest) else none := by
        have hothers := hfile others
        rw [file?_of_entries_eq_nil hempty] at hothers
        split_ifs with hsame
        · rw [hsame]
        · by_cases hnil : others = []
          · rw [hnil, file?_singleton, hget]
          · rw [if_neg hsame] at hothers
            rw [file?_cons _ _ hnil, hget]
            exact hothers.symm
      rw [hnone]
      split_ifs <;> simp_all
    · have hne : other ≠ name :: rest := by
        rintro rfl
        exact hhead rfl
      rw [if_neg hhead, if_neg hne]
  · rw [if_neg (by simpa using hempty)]
    exact file?_insertEntry_directory _ hrest (by rw [hget]; rfl) hfile other

/-- What removing the file at `path` makes of `tree`: whether it changed, and what is left. -/
structure Removed (gitObjectOid : String → List UInt8 → String) (tree : Tree) (path : List String)
    (result : Bool × Tree) : Prop where
  sound : result.2.Sound gitObjectOid
  unchanged : result.1 = false → result.2 = tree
  file? : ∀ other, result.2.file? other = if other = path then none else tree.file? other

theorem Sound.removed_of_file?_eq_none {tree : Tree} (h : tree.Sound gitObjectOid)
    {path : List String} (hnone : tree.file? path = none) :
    Removed gitObjectOid tree path (false, tree) := by
  refine ⟨h, fun _ => rfl, fun other => ?_⟩
  split_ifs with hother
  · rw [hother, hnone]
  · rfl

/-- Removing a file from the root directory. -/
theorem Sound.remove_singleton {tree : Tree} (h : tree.Sound gitObjectOid) (name : String) :
    Removed gitObjectOid tree [name] (tree.remove [name]) := by
  rw [Tree.remove]
  split
  · rename_i file hget
    refine ⟨h.dropEntry name, by simp, fun other => ?_⟩
    rw [file?_eraseEntry]
    cases other with
    | nil => rfl
    | cons first others =>
      by_cases hfirst : first = name
      · subst hfirst
        rw [List.head?_cons, if_pos rfl]
        split_ifs with hothers
        · rfl
        · have hne : others ≠ [] := by simpa using hothers
          rw [file?_cons _ _ hne, hget]
      · rw [List.head?_cons, if_neg (by simpa using hfirst), if_neg (by simp [hfirst])]
  · rename_i hget
    refine h.removed_of_file?_eq_none ?_
    rw [file?_singleton]
    split
    · rename_i file hfile
      exact absurd hfile (hget file)
    · rfl

/-- Removing a file from a directory, which disappears when that was its last file. -/
theorem Sound.remove_cons {tree directory : Tree} {name : String} {rest : List String}
    (h : tree.Sound gitObjectOid) (hrest : rest ≠ [])
    (hget : tree.get? name = some (.directory directory))
    (hremoved : Removed gitObjectOid directory rest (directory.remove rest)) :
    Removed gitObjectOid tree (name :: rest) (tree.remove (name :: rest)) := by
  have hfile := file?_remove_cons hrest hget hremoved.file?
  cases hchanged : (directory.remove rest).1 with
  | true =>
    rw [Tree.remove_cons hrest hget, hchanged] at hfile ⊢
    refine ⟨?_, by simp, hfile⟩
    by_cases hempty : (directory.remove rest).2.entries = []
    · rw [hempty]
      exact h.dropEntry name
    · dsimp only
      rw [if_neg (by simpa using hempty)]
      refine h.writeEntry name fun other hother => ?_
      rw [← TreeEntry.directory.inj hother]
      exact ⟨hremoved.sound, hempty⟩
  | false =>
    -- nothing was removed, so the directory is written back as it was
    have hremove : tree.remove (name :: rest) = (false, tree) := by
      rw [Tree.remove_cons hrest hget, hremoved.unchanged hchanged, hchanged,
        if_neg (by simpa using h.nonempty hget),
        SortedMap.insertEntry_of_lookupEntry h.sorted hget]
      cases tree
      rfl
    rw [hremove]
    refine h.removed_of_file?_eq_none ?_
    have hself := hfile (name :: rest)
    rwa [if_pos rfl, hremove] at hself

/-- `remove` drops one file, or leaves the tree as it is. -/
theorem Sound.remove {tree : Tree} (h : tree.Sound gitObjectOid) (path : List String) :
    Removed gitObjectOid tree path (tree.remove path) := by
  induction path generalizing tree with
  | nil => exact h.removed_of_file?_eq_none rfl
  | cons name rest ih =>
    by_cases hrest : rest = []
    · subst hrest
      exact h.remove_singleton name
    · by_cases hget : ∃ directory, tree.get? name = some (.directory directory)
      · obtain ⟨directory, hget⟩ := hget
        exact h.remove_cons hrest hget (ih (h.directory hget))
      · rw [remove_cons_of_not_directory hrest (not_exists.mp hget)]
        refine h.removed_of_file?_eq_none ?_
        rw [file?_cons _ _ hrest]
        split
        · rename_i directory hdirectory
          exact absurd ⟨directory, hdirectory⟩ hget
        · rfl

end

end Tree

end ScopeVcs
