import ScopeVcs.GitTree.Object
import ScopeVcs.Lib.SortedMap

/-! # The tree of a projection head

A nested tree of named entries, in name order, that remembers the object ids it has computed.
Files are inserted and removed by their path; directories appear and disappear with the files
below them.
-/

namespace ScopeVcs

open SortedMap (lookupEntry insertEntry eraseEntry lookupEntry_insertEntry lookupEntry_eraseEntry)

mutual

/-- A directory: its entries by name, and its object id if nothing changed since it was computed. -/
inductive Tree where
  | mk (entries : List (String × TreeEntry)) (cachedOid : Option GitOid)

inductive TreeEntry where
  | file (file : TreeFile)
  | directory (tree : Tree)

end

namespace Tree

def empty : Tree := ⟨[], none⟩

def entries : Tree → List (String × TreeEntry)
  | ⟨entries, _⟩ => entries

def cachedOid : Tree → Option GitOid
  | ⟨_, cachedOid⟩ => cachedOid

def get? (tree : Tree) (name : String) : Option TreeEntry := lookupEntry name tree.entries

/-- Put a file at a path. No file may lie on the way, and no directory where the file goes. -/
def insert (tree : Tree) (path : List String) (file : TreeFile) :
    Except ProjectionIdentityError Tree :=
  match path with
  -- a path in a tree has a component, which the source expects here
  | [] => .ok tree
  | [name] =>
    match tree.get? name with
    | some (.directory _) => .error (.pathConflict name)
    | _ => .ok ⟨insertEntry name (.file file) tree.entries, none⟩
  | name :: next :: rest =>
    match (tree.get? name).getD (.directory empty) with
    | .directory directory => do
      let directory ← directory.insert (next :: rest) file
      return ⟨insertEntry name (.directory directory) tree.entries, none⟩
    | .file _ => .error (.pathConflict ("/".intercalate (name :: next :: rest)))

/-- Remove the file at a path and the directories that this leaves empty. Tells whether there was
such a file. -/
def remove (tree : Tree) (path : List String) : Bool × Tree :=
  match path with
  | [] => (false, tree)
  | [name] =>
    match tree.get? name with
    | some (.file _) => (true, ⟨eraseEntry name tree.entries, none⟩)
    | _ => (false, tree)
  | name :: next :: rest =>
    match tree.get? name with
    | some (.directory directory) =>
      let (changed, directory) := directory.remove (next :: rest)
      let entries :=
        if directory.entries.isEmpty then eraseEntry name tree.entries
        else insertEntry name (.directory directory) tree.entries
      (changed, ⟨entries, if changed then none else tree.cachedOid⟩)
    | _ => (false, tree)

end Tree

/-! ## Object ids -/

section

variable (gitObjectOid : String → List UInt8 → String)

mutual

/-- The object id of a tree. It is computed once and remembered until the tree changes. -/
def Tree.oid : Tree → Except ProjectionIdentityError (GitOid × Tree)
  | ⟨entries, some oid⟩ => .ok (oid, ⟨entries, some oid⟩)
  | ⟨entries, none⟩ => do
    let (rows, entries) ← entriesOid entries
    let oid ← treeObjectOid gitObjectOid rows
    return (oid, ⟨entries, some oid⟩)

def TreeEntry.oid : TreeEntry → Except ProjectionIdentityError ((Bool × String × GitOid) × TreeEntry)
  | .file file => .ok ((false, file.mode, file.oid), .file file)
  | .directory tree => do
    let (oid, tree) ← tree.oid
    return ((true, "40000", oid), .directory tree)

-- the rows are sorted when the object is hashed; until then they stand in name order
def entriesOid : List (String × TreeEntry) →
    Except ProjectionIdentityError (List TreeRow × List (String × TreeEntry))
  | [] => .ok ([], [])
  | (name, entry) :: rest => do
    let ((isDirectory, mode, oid), entry) ← entry.oid
    let (rows, rest) ← entriesOid rest
    return (⟨name, isDirectory, mode, oid⟩ :: rows, (name, entry) :: rest)

end

mutual

/-- The object id of a tree, without regard to what it remembers. -/
def Tree.freshOid : Tree → Except ProjectionIdentityError GitOid
  | ⟨entries, _⟩ => do
    let rows ← freshRows entries
    treeObjectOid gitObjectOid rows

def TreeEntry.freshOid : TreeEntry → Except ProjectionIdentityError (Bool × String × GitOid)
  | .file file => .ok (false, file.mode, file.oid)
  | .directory tree => do
    let oid ← tree.freshOid
    return (true, "40000", oid)

def freshRows : List (String × TreeEntry) → Except ProjectionIdentityError (List TreeRow)
  | [] => .ok []
  | (name, entry) :: rest => do
    let (isDirectory, mode, oid) ← entry.freshOid
    let rows ← freshRows rest
    return ⟨name, isDirectory, mode, oid⟩ :: rows

end

end

end ScopeVcs
