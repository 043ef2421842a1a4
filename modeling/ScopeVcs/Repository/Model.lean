import ScopeVcs.Lib.U64
import ScopeVcs.Repository.Access
import ScopeVcs.Repository.Git
import ScopeVcs.Visibility.ChangeSet
import ScopeVcs.Visibility.Policy

/-! # Repositories

The state of a repository: its configuration and policy, the history of its main branch with the
changes of visibility between the commits, the files at the head, and the head itself.
-/

namespace ScopeVcs

structure RepoRecord where
  lifecycleState : RepoLifecycleState
  changeVersion : ℕ
  contentVersion : ℕ
  deriving DecidableEq

structure FirstPushToken where
  tokenHash : String
  secret : Option String
  ownerUserId : String
  createdAtUnix : ℕ
  expiresAtUnix : ℕ
  usedAtUnix : Option ℕ
  deriving DecidableEq

structure RepositoryMemberPermissions where
  canPush : Bool
  canChangeFileVisibility : Bool
  view : ViewId
  deriving DecidableEq

structure RepositoryMember where
  userId : String
  permissions : RepositoryMemberPermissions
  deriving DecidableEq

structure RepositoryCollaboration where
  members : List RepositoryMember
  deriving DecidableEq

structure Repository where
  record : RepoRecord
  repoConfig : RepoConfig
  firstPushToken : Option FirstPushToken
  policy : Policy
  graph : SourceGraph
  visibilityChangeSets : List VisibilityChangeSet
  liveFiles : LiveFiles
  gitHead : Option GitHead
  collaboration : RepositoryCollaboration
  deriving DecidableEq

def RepoRecord.bumpChangeVersion (record : RepoRecord) : RepoRecord :=
  { record with changeVersion := U64.saturatingAdd record.changeVersion 1 }

namespace Repository

def bumpChangeVersion (repo : Repository) : Repository :=
  { repo with record := repo.record.bumpChangeVersion }

def bumpContentVersion (repo : Repository) : Repository :=
  let repo := repo.bumpChangeVersion
  { repo with record.contentVersion := U64.saturatingAdd repo.record.contentVersion 1 }

end Repository

/-! ## New repositories -/

inductive CatalogError where
  | invalidRepositoryName (message : String)
  | invalidRepositoryIdentity (message : String)
  | unknownView (view : ViewId)
  deriving DecidableEq

/-- `trim().to_ascii_lowercase()`. -/
def normalizeName (name : String) : String := .ofList ((Text.trim name).toList.map Char.toLower)

def repoId (owner name : String) : String := normalizeName owner ++ "/" ++ normalizeName name

def validateRepoName (name : String) : Except CatalogError String := do
  let name := normalizeName name
  Mutation.rejectIf (name = "") (.invalidRepositoryName "repository name is required")
  Mutation.rejectIf (name = "." ∨ name = "..")
    (.invalidRepositoryName "repository name cannot be . or ..")
  Mutation.rejectIf (80 < Text.byteLength name.toList)
    (.invalidRepositoryName "repository name must be 80 characters or fewer")
  Mutation.rejectIf (name.toList.all (fun c => c.isAlphanum || c ∈ ['.', '-', '_']) = false)
    (.invalidRepositoryName
      "repository name can only use letters, numbers, dots, dashes, or underscores")
  return name

/-- `Repository::new`, for an owner with this handle. -/
def Repository.new (ownerHandle name : String) (defaultVisibility : ViewId)
    (incarnationId : String) : Except CatalogError Repository := do
  let name ← validateRepoName name
  let id := repoId ownerHandle name
  Mutation.rejectIf (Text.trim id = "") (.invalidRepositoryIdentity "repository id is required")
  Mutation.rejectIf (Text.trim incarnationId = "")
    (.invalidRepositoryIdentity "repository incarnation id is required")
  Mutation.rejectIf ((Views.builtin.get defaultVisibility).isNone = true)
    (.unknownView defaultVisibility)
  return {
    record := { lifecycleState := .awaitingFirstPush, changeVersion := 1, contentVersion := 1 }
    repoConfig := .withDefaultView defaultVisibility
    firstPushToken := none
    policy := .new defaultVisibility
    graph := { repoId := id, commits := [] }
    visibilityChangeSets := []
    liveFiles := ∅
    gitHead := none
    collaboration := { members := [] } }

end ScopeVcs
