import Mathlib.Algebra.Ring.Nat
import ScopeVcs.Lib.SortedMap
import ScopeVcs.Lib.Worklist
import ScopeVcs.Paths

/-! # Views

A repository is seen through views. A file carries the id of one view as its label, and a view
shows the labels its includes lead to. The full view `private` shows everything.
-/

namespace ScopeVcs

/-- The id of a view, which is also a label of files. -/
structure ViewId where
  asStr : String
  deriving DecidableEq

namespace ViewId

theorem asStr_injective : Function.Injective asStr := by
  rintro ⟨a⟩ ⟨b⟩ h
  exact congrArg mk h

instance : LinearOrder ViewId := LinearOrder.lift' asStr asStr_injective

/-- `ViewId::public()`. -/
def publicView : ViewId := ⟨"public"⟩

/-- `ViewId::private()`. -/
def privateView : ViewId := ⟨"private"⟩

theorem publicView_ne_privateView : publicView ≠ privateView := by decide

end ViewId

inductive ViewIncludes where
  | all
  | some (ids : SortedSet ViewId)
  deriving DecidableEq

inductive ViewReaders where
  | anyone
  | assigned
  deriving DecidableEq

structure ViewDefinition where
  id : ViewId
  name : String
  includes : ViewIncludes
  readers : ViewReaders
  deriving DecidableEq

/-- The definitions that validation accepts: between 1 and 16, with distinct ids, one of them the
full view `private`, every other include naming a defined narrower view, and `public` alone
readable by anyone. -/
structure Views.WellFormed (definitions : List ViewDefinition) : Prop where
  count : definitions.length ≤ 16
  ids_nodup : (definitions.map (·.id)).Nodup
  full_defined : ∃ d ∈ definitions, d.includes = .all
  full_id : ∀ d ∈ definitions, d.includes = .all → d.id = .privateView
  includes_narrower : ∀ d ∈ definitions, ∀ ids, d.includes = .some ids →
    ∀ id ∈ ids.toList, id ≠ .privateView ∧ id ∈ definitions.map (·.id)
  readers_anyone : ∀ d ∈ definitions, d.readers = .anyone ↔ d.id = .publicView

/-- The views of a repository; only validated definitions form one. -/
structure Views where
  definitions : List ViewDefinition
  wellFormed : Views.WellFormed definitions

namespace Views

instance : DecidableEq Views := fun a b =>
  decidable_of_iff (a.definitions = b.definitions) (by cases a; cases b; simp)

/-- The two views every repository starts with. -/
def builtin : Views where
  definitions :=
    [⟨.publicView, "Public", .some ∅, .anyone⟩, ⟨.privateView, "Private", .all, .assigned⟩]
  wellFormed :=
    { count := by decide
      ids_nodup := by decide
      full_defined := by decide
      full_id := by decide
      includes_narrower := by
        intro d hd ids hids id hid
        simp only [List.mem_cons, List.not_mem_nil, or_false] at hd
        rcases hd with rfl | rfl
        · cases hids
          simp [SortedSet.toList] at hid
        · cases hids
      readers_anyone := by decide }

def get (views : Views) (id : ViewId) : Option ViewDefinition :=
  views.definitions.find? fun d => d.id == id

/-- The id of the view that includes all labels. -/
def full (views : Views) : ViewId :=
  match views.definitions.find? fun d => d.includes == .all with
  | some d => d.id
  | none => .privateView

/-- The view anyone may read, if it is defined. -/
def anyone (views : Views) : Option ViewId :=
  (views.definitions.find? fun d => d.readers == .anyone).map (·.id)

def displayName (views : Views) (id : ViewId) : String :=
  match views.get id with
  | some d => d.name
  | none => id.asStr

/-- The ids a definition includes: all of them, or the listed ones. -/
def includedIds (views : Views) : ViewIncludes → List ViewId
  | .all => views.definitions.map (·.id)
  | .some ids => ids.toList

/-- The views that a view includes directly. -/
def next (views : Views) (id : ViewId) : List ViewId :=
  match views.get id with
  | some d => views.includedIds d.includes
  | none => []

/-- The labels a view shows: what its includes lead to. -/
def labels (views : Views) (view : ViewId) : List ViewId :=
  Worklist.close views.next
    (1 + (views.definitions.map fun d => (views.includedIds d.includes).length).sum) [view] []

/-- Whether a view shows a file at `path` that carries `label`. -/
def shows (views : Views) (view : ViewId) (path : ScopePath) (label : ViewId) : Bool :=
  view == views.full || (decide (label ∈ views.labels view) && !isPrivateControlPath path)

/-- Whether readers of one view may read another: it is among the labels of theirs. -/
def mayRead (views : Views) (reader target : ViewId) : Bool := decide (target ∈ views.labels reader)

theorem mem_definitions_of_get {views : Views} {id : ViewId} {d : ViewDefinition}
    (h : views.get id = some d) : d ∈ views.definitions ∧ d.id = id := by
  exact ⟨List.mem_of_find?_eq_some h, by simpa using List.find?_some h⟩

theorem get_of_mem {views : Views} {d : ViewDefinition} (h : d ∈ views.definitions) :
    views.get d.id = some d := by
  cases hget : views.get d.id with
  | none =>
    have := List.find?_eq_none.mp hget d h
    simp at this
  | some d' =>
    obtain ⟨hmem, hid⟩ := mem_definitions_of_get hget
    rw [List.inj_on_of_nodup_map views.wellFormed.ids_nodup hmem h hid]

@[simp]
theorem full_eq (views : Views) : views.full = .privateView := by
  unfold full
  split
  · rename_i d hd
    have hall := List.find?_some hd
    exact views.wellFormed.full_id d (List.mem_of_find?_eq_some hd) (by simpa using hall)
  · rfl

/-- Labels are the reflexive and transitive closure of the includes. -/
theorem mem_labels {views : Views} {view label : ViewId} :
    label ∈ views.labels view ↔ Relation.ReflTransGen (Worklist.Edge views.next) view label := by
  refine Worklist.mem_close_singleton (views.definitions.map (·.id)).toFinset ?_ ?_ label
  · intro id hid
    unfold next
    split
    · rename_i d hget
      obtain ⟨hmem, rfl⟩ := mem_definitions_of_get hget
      exact absurd (by simpa using ⟨d, hmem, rfl⟩) hid
    · rfl
  · rw [List.sum_toFinset _ views.wellFormed.ids_nodup, List.map_map]
    refine le_of_eq (congrArg (1 + ·) (congrArg List.sum (List.map_congr_left fun d hd => ?_)))
    simp [next, get_of_mem hd]

theorem self_mem_labels (views : Views) (view : ViewId) : view ∈ views.labels view :=
  mem_labels.mpr .refl

/-- Only the full view includes the full view. -/
theorem privateView_notMem_labels {views : Views} {view : ViewId} (h : view ≠ .privateView) :
    ViewId.privateView ∉ views.labels view := by
  intro hmem
  rw [mem_labels] at hmem
  induction hmem using Relation.ReflTransGen.head_induction_on with
  | refl => exact h rfl
  | @head a z hstep _ ih =>
    refine ih fun hz => ?_
    unfold Worklist.Edge next at hstep
    split at hstep
    · rename_i d hget
      obtain ⟨hd, rfl⟩ := mem_definitions_of_get hget
      cases hinc : d.includes with
      | all => exact h (views.wellFormed.full_id d hd hinc)
      | some ids =>
        rw [hinc] at hstep
        exact (views.wellFormed.includes_narrower d hd ids hinc z hstep).1 hz
    · simp at hstep

/-- The full view shows everything. -/
@[simp]
theorem shows_privateView (views : Views) (path : ScopePath) (label : ViewId) :
    views.shows .privateView path label = true := by
  simp [shows]

/-- A narrower view shows the labels its includes lead to, outside the control directory. -/
theorem shows_of_ne {views : Views} {view : ViewId} (h : view ≠ .privateView) (path : ScopePath)
    (label : ViewId) :
    views.shows view path label = true ↔
      label ∈ views.labels view ∧ isPrivateControlPath path = false := by
  simp [shows, h]

/-- The full view's label is hidden from every narrower view. -/
theorem not_shows_privateView {views : Views} {view : ViewId} (h : view ≠ .privateView)
    (path : ScopePath) : views.shows view path .privateView = false := by
  rw [Bool.eq_false_iff, Ne, shows_of_ne h]
  exact fun hs => privateView_notMem_labels h hs.1

/-- No narrower view shows a private control path. -/
theorem not_shows_of_isPrivateControlPath {views : Views} {view : ViewId}
    (h : view ≠ .privateView) {path : ScopePath} (hp : isPrivateControlPath path = true)
    (label : ViewId) : views.shows view path label = false := by
  rw [Bool.eq_false_iff, Ne, shows_of_ne h, hp]
  simp

/-! ## The shape that decides visibility -/

/-- What of the definitions decides who sees what: their includes and readers, by id. -/
def visibilityShape (views : Views) : SortedMap ViewId (ViewIncludes × ViewReaders) :=
  SortedMap.ofList (views.definitions.map fun d => (d.id, d.includes, d.readers))

theorem get?_visibilityShape (views : Views) (id : ViewId) :
    views.visibilityShape.get? id = (views.get id).map fun d => (d.includes, d.readers) := by
  have hnodup : ((views.definitions.map fun d => (d.id, d.includes, d.readers)).map
      Prod.fst).Nodup := by
    rw [List.map_map]
    exact views.wellFormed.ids_nodup
  apply Option.ext
  intro shape
  rw [visibilityShape, SortedMap.get?_ofList hnodup, Option.map_eq_some_iff]
  simp only [List.mem_map, Prod.mk.injEq]
  constructor
  · rintro ⟨d, hd, rfl, rfl⟩
    exact ⟨d, get_of_mem hd, rfl⟩
  · rintro ⟨d, hget, rfl⟩
    obtain ⟨hd, rfl⟩ := mem_definitions_of_get hget
    exact ⟨d, hd, rfl, rfl⟩

/-- Views of one shape define the same ids. -/
theorem mem_ids_of_visibilityShape_eq {v w : Views} (h : v.visibilityShape = w.visibilityShape)
    {id : ViewId} : id ∈ v.definitions.map (·.id) ↔ id ∈ w.definitions.map (·.id) := by
  have hdefined : ∀ u : Views, id ∈ u.definitions.map (·.id) ↔
      (u.visibilityShape.get? id).isSome := by
    intro u
    rw [get?_visibilityShape, Option.isSome_map, List.mem_map]
    constructor
    · rintro ⟨d, hd, rfl⟩
      rw [get_of_mem hd]
      rfl
    · intro hsome
      obtain ⟨d, hd⟩ := Option.isSome_iff_exists.mp hsome
      exact ⟨d, (mem_definitions_of_get hd).1, (mem_definitions_of_get hd).2⟩
  rw [hdefined v, hdefined w, h]

theorem mem_next_of_visibilityShape_eq {v w : Views} (h : v.visibilityShape = w.visibilityShape)
    {a b : ViewId} : b ∈ v.next a ↔ b ∈ w.next a := by
  have hshape := congrArg (fun m => m.get? a) h
  simp only [get?_visibilityShape] at hshape
  unfold next
  cases hv : v.get a with
  | none =>
    cases hw : w.get a with
    | none => rfl
    | some d => simp [hv, hw] at hshape
  | some d =>
    cases hw : w.get a with
    | none => simp [hv, hw] at hshape
    | some d' =>
      simp only [hv, hw, Option.map_some, Option.some.injEq, Prod.mk.injEq] at hshape
      dsimp only
      rw [hshape.1]
      cases d'.includes with
      | all => exact mem_ids_of_visibilityShape_eq h
      | some ids => rfl

/-- Views of one shape show the same files. -/
theorem shows_of_visibilityShape_eq {v w : Views} (h : v.visibilityShape = w.visibilityShape)
    (view : ViewId) (path : ScopePath) (label : ViewId) :
    v.shows view path label = w.shows view path label := by
  have hedge : Worklist.Edge v.next = Worklist.Edge w.next := by
    funext a b
    exact propext (mem_next_of_visibilityShape_eq h)
  have hlabels : label ∈ v.labels view ↔ label ∈ w.labels view := by
    rw [mem_labels, mem_labels, hedge]
  simp [shows, hlabels]

end Views

end ScopeVcs
