import ScopeVcs.Projection.Graph
import ScopeVcs.Repository.Model

/-! # The read models of projections

For each view a row says how much of the history it has folded in. A fold goes on from there, and
compares what the projection shows with what the labels of the files select.
-/

namespace ScopeVcs

structure FoldPosition where
  commits : ℕ
  changeSets : ℕ
  deriving DecidableEq

def FoldPosition.start : FoldPosition := ⟨0, 0⟩

structure FoldInput where
  position : FoldPosition
  graph : SourceGraph
  sets : List VisibilityChangeSet
  before : LabelledTree
  after : LabelledTree

/-- `FoldInput::load`: what the history has after a position, and the labelled files before and
after that. -/
def FoldInput.load (repo : Repository) (position : FoldPosition) (before : LabelledTree) :
    FoldInput :=
  let graph := { repo.graph with commits := repo.graph.commits.drop position.commits }
  let sets := repo.visibilityChangeSets.drop position.changeSets
  { position, graph, sets, before, after := before.fold graph sets }

/-- The row of a view. -/
structure ProjectionReadModel where
  position : FoldPosition
  cursor : ProjectionCursor

/-- `fold_view`, with the reason of a divergence as its error. -/
def foldView (views : Views) (input : FoldInput) (row : Option ProjectionReadModel) (view : ViewId) :
    Except String ProjectionReadModel :=
  let cursor := (row.map (·.cursor)).getD (.start (initialViews input.sets views))
  let viewBefore := input.before.viewFiles cursor.views view
  let projection := projectGraphAfter cursor input.before input.graph input.sets view
  let projected := projection.applyTo viewBefore
  if projected ≠ input.after.viewFiles views view then
    .error (view.asStr ++ " projection does not show the files its labels select")
  else .ok {
    position := {
      commits := input.position.commits + input.graph.commits.length
      changeSets := input.position.changeSets + input.sets.length }
    cursor := cursor.advanced projection input.graph input.sets }

end ScopeVcs
