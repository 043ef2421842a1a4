import ScopeVcs.Error
import ScopeVcs.Views

/-! # Who has which access to a repository -/

namespace ScopeVcs

inductive RepoLifecycleState where
  | awaitingFirstPush
  | ready
  deriving DecidableEq

inductive RepositoryActor where
  | public_
  | member
  | owner
  deriving DecidableEq

/-- What an actor may do, and the view through which they do it. -/
structure RepositoryAccess where
  actor : RepositoryActor
  view : ViewId
  canPush : Bool
  canChangeFileVisibility : Bool
  canManageMembers : Bool
  canDeleteRepo : Bool
  deriving DecidableEq

/-- Owners and members maintain the repository. -/
def RepositoryAccess.isMaintainer (access : RepositoryAccess) : Bool :=
  match access.actor with
  | .owner | .member => true
  | .public_ => false

/-! ## The views of an access -/

inductive MainPushMode where
  | denied
  | firstPush
  | ready
  | throughView (view : ViewId)
  deriving DecidableEq

namespace RepositoryAccess

/-- The view that an access reads through: without a member it is the view anyone reads. -/
def readerView (access : RepositoryAccess) (views : Views) : Option ViewId :=
  match access.actor with
  | .public_ => views.anyone
  | .member | .owner => some access.view

def canReadView (access : RepositoryAccess) (views : Views) (view : ViewId) : Bool :=
  (views.get view).isSome && (access.readerView views).any fun reader => views.mayRead reader view

def readsFullView (access : RepositoryAccess) (views : Views) : Bool :=
  access.canReadView views views.full

def ensureRunReader (access : RepositoryAccess) (views : Views) : Except DomainError Unit :=
  if access.readsFullView views then .ok ()
  else .error (.forbidden "repository runs need the repository's full view")

def mainPushMode (access : RepositoryAccess) (lifecycleState : RepoLifecycleState) (views : Views) :
    MainPushMode :=
  if lifecycleState = .awaitingFirstPush ∧ access.actor = .owner then .firstPush
  else if lifecycleState ≠ .ready ∨ access.canPush = false ∨ access.isMaintainer = false then .denied
  else if access.view = views.full then .ready
  else if (views.get access.view).isSome then .throughView access.view
  else .denied

end RepositoryAccess

end ScopeVcs
