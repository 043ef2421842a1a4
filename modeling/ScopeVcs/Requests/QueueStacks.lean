import Mathlib.Data.Finset.Range
import Mathlib.Data.String.Basic
import ScopeVcs.Lib.ParentForest
import ScopeVcs.Lib.SortedMap

/-! # Stacks in the request queue

A request that waits moves to the requests that need the viewer when one of its stack does. The members
and their parents are numbered, and a disjoint-set forest over the numbers joins each member with its
parent. A look for a stack moves the nodes on its way up.

An index that does not exist is a panic, and so is a missing number; a loop has one step more than there
are nodes.
-/

namespace ScopeVcs.Requests

inductive RequestQueueGroup where
  | needsYou
  | waiting
  | unclaimed
  | setAside
  | done
  deriving DecidableEq

structure RequestQueueStackMember where
  requestId : String
  parentRequestId : Option String
  group : RequestQueueGroup
  deriving DecidableEq

structure StackSets where
  parents : List ℕ

namespace StackSets

def new (len : ℕ) : StackSets := ⟨List.range len⟩

/-- The loop of `stack`. -/
def climb : ℕ → StackSets → ℕ → Option (ℕ × StackSets)
  | 0, _, _ => none
  | steps + 1, sets, position =>
    match sets.parents[position]? with
    | none => none
    | some above =>
      if above = position then some (position, sets)
      else
        match sets.parents[above]? with
        | none => none
        | some position' => climb steps ⟨sets.parents.set position position'⟩ position'

def stack (sets : StackSets) (position : ℕ) : Option (ℕ × StackSets) :=
  sets.climb (sets.parents.length + 1) position

def join (sets : StackSets) (left right : ℕ) : Option StackSets := do
  let (left, sets) ← sets.stack left
  let (right, sets) ← sets.stack right
  return ⟨sets.parents.set left right⟩

end StackSets

/-- `entry(id).or_insert(len)`. -/
def insertNode (nodes : SortedMap String ℕ) (id : String) : SortedMap String ℕ :=
  if nodes.contains id then nodes else nodes.insert id nodes.entries.length

/-- The numbers of the members and of their parents. -/
def stackNodes (members : List RequestQueueStackMember) : SortedMap String ℕ :=
  let nodes := members.foldl (fun nodes member => insertNode nodes member.requestId) ∅
  (members.filterMap (·.parentRequestId)).foldl insertNode nodes

section

variable (nodes : SortedMap String ℕ)

def joinParent (sets : StackSets) (member : RequestQueueStackMember) : Option StackSets :=
  match member.parentRequestId with
  | none => some sets
  | some parentId => do
    let left ← nodes.get? member.requestId
    let right ← nodes.get? parentId
    sets.join left right

def memberStack (sets : StackSets) (member : RequestQueueStackMember) : Option (ℕ × StackSets) := do
  let position ← nodes.get? member.requestId
  sets.stack position

/-- The stacks of members, as the set that `needing_you` collects. -/
def memberStacks (sets : StackSets) : List RequestQueueStackMember → Option (List ℕ × StackSets)
  | [] => some ([], sets)
  | member :: members => do
    let (root, sets) ← memberStack nodes sets member
    let (roots, sets) ← memberStacks sets members
    return (root :: roots, sets)

def stackGroups (needingYou : List ℕ) (sets : StackSets) :
    List RequestQueueStackMember → Option (List RequestQueueGroup)
  | [] => some []
  | member :: members =>
    if member.group = .waiting then do
      let (root, sets) ← memberStack nodes sets member
      let groups ← stackGroups needingYou sets members
      return (if root ∈ needingYou then .needsYou else member.group) :: groups
    else do
      let groups ← stackGroups needingYou sets members
      return member.group :: groups

end

def requestQueueStackGroups (members : List RequestQueueStackMember) :
    Option (List RequestQueueGroup) := do
  let nodes := stackNodes members
  let sets ← members.foldlM (joinParent nodes) (.new nodes.entries.length)
  let (needingYou, sets) ← memberStacks nodes sets (members.filter (·.group = .needsYou))
  stackGroups nodes needingYou sets members

/-! ## The forest -/

namespace StackSets

open ParentForest

/-- The parent of a number; the numbers that are not in use are roots. -/
def parent (sets : StackSets) (position : ℕ) : ℕ := sets.parents[position]?.getD position

/-- The forest over `count` numbers represents the connections `R` makes. -/
structure Sound (count : ℕ) (R : ℕ → ℕ → Prop) (sets : StackSets) : Prop where
  length : sets.parents.length = count
  bounded : ∀ position, position < count → sets.parent position < count
  represents : Represents sets.parent R

/-- Every number has the root that it had. -/
def SameRoots (sets sets' : StackSets) : Prop :=
  ∀ position root, HasRoot sets'.parent position root ↔ HasRoot sets.parent position root

variable {count position root : ℕ} {R R' : ℕ → ℕ → Prop} {sets sets' sets'' : StackSets}

theorem SameRoots.trans (h : sets.SameRoots sets') (h' : sets'.SameRoots sets'') :
    sets.SameRoots sets'' := fun position root => (h' position root).trans (h position root)

theorem getElem?_parents (h : position < sets.parents.length) :
    sets.parents[position]? = some (sets.parent position) := by
  rw [parent, List.getElem?_eq_getElem h, Option.getD_some]

/-- Writing a parent changes that of one number. -/
theorem parent_set (h : position < sets.parents.length) (above : ℕ) :
    (⟨sets.parents.set position above⟩ : StackSets).parent =
      Function.update sets.parent position above := by
  funext other
  unfold parent
  by_cases hother : other = position
  · subst hother
    rw [Function.update_self, List.getElem?_set_self h, Option.getD_some]
  · rw [Function.update_of_ne hother, List.getElem?_set_ne (Ne.symm hother)]

theorem sound_new (count : ℕ) : Sound count (fun _ _ => False) (.new count) := by
  have hparent : (new count).parent = id := by
    funext position
    unfold parent new
    by_cases h : position < count
    · rw [List.getElem?_range h, Option.getD_some, id]
    · rw [List.getElem?_eq_none (by rw [List.length_range]; omega), Option.getD_none, id]
  refine ⟨List.length_range, fun position h => ?_, ?_⟩
  · rw [hparent]
    exact h
  · rw [hparent]
    exact represents_id

namespace Sound

theorem congr (h : sets.Sound count R) (hsame : ∀ a b, R a b ↔ R' a b) : sets.Sound count R' :=
  ⟨h.length, h.bounded, h.represents.congr hsame⟩

theorem getElem? (h : sets.Sound count R) (hposition : position < count) :
    sets.parents[position]? = some (sets.parent position) :=
  getElem?_parents (h.length.symm ▸ hposition)

theorem root_lt (h : sets.Sound count R) (hroot : HasRoot sets.parent position root)
    (hposition : position < count) : root < count := by
  obtain ⟨k, hclimbs⟩ := hroot
  induction hclimbs with
  | root _ => exact hposition
  | step _ _ ih => exact ih (h.bounded _ hposition)

/-- A parent in bounds may be written. -/
theorem bounded_set (h : sets.Sound count R) (hposition : position < count) {above : ℕ}
    (habove : above < count) : ∀ other, other < count →
      (⟨sets.parents.set position above⟩ : StackSets).parent other < count := by
  intro other hother
  rw [parent_set (h.length.symm ▸ hposition)]
  by_cases heq : other = position
  · rw [heq, Function.update_self]
    exact habove
  · rw [Function.update_of_ne heq]
    exact h.bounded other hother

theorem set_halve (h : sets.Sound count R) (hposition : position < count)
    (hne : sets.parent position ≠ position) :
    (⟨sets.parents.set position (sets.parent (sets.parent position))⟩ : StackSets).Sound count R ∧
      sets.SameRoots ⟨sets.parents.set position (sets.parent (sets.parent position))⟩ := by
  have hroots : sets.SameRoots
      ⟨sets.parents.set position (sets.parent (sets.parent position))⟩ := by
    intro other root
    rw [parent_set (h.length.symm ▸ hposition)]
    exact hasRoot_halve h.represents.forest hne
  refine ⟨⟨?_, ?_, h.represents.of_hasRoot hroots⟩, hroots⟩
  · rw [List.length_set]
    exact h.length
  · exact h.bounded_set hposition (h.bounded _ (h.bounded _ hposition))

/-- A look that has steps for the whole way finds the root and keeps all roots. -/
theorem climb {steps k : ℕ} (h : sets.Sound count R) (hposition : position < count)
    (hclimbs : Climbs sets.parent k position root) (hsteps : k < steps) :
    ∃ sets' : StackSets, sets.climb steps position = some (root, sets') ∧ sets'.Sound count R ∧
      sets.SameRoots sets' := by
  induction steps generalizing k position sets with
  | zero => exact absurd hsteps (Nat.not_lt_zero k)
  | succ steps ih =>
    simp only [StackSets.climb, h.getElem? hposition]
    by_cases hroot : sets.parent position = position
    · rw [if_pos hroot, (hclimbs.unique (.root hroot)).2]
      exact ⟨sets, rfl, h, fun _ _ => Iff.rfl⟩
    · rw [if_neg hroot, h.getElem? (h.bounded _ hposition)]
      obtain ⟨hsound, hroots⟩ := h.set_halve hposition hroot
      obtain ⟨m, hm, habove⟩ := hclimbs.parent_parent hroot
      obtain ⟨k', hk', hclimbs'⟩ := Climbs.halve hroot hclimbs habove
      rw [ParentForest.halve, ← parent_set (h.length.symm ▸ hposition)] at hclimbs'
      obtain ⟨sets', hlook, hsound', hroots'⟩ :=
        ih hsound (h.bounded _ (h.bounded _ hposition)) hclimbs' (by omega)
      exact ⟨sets', hlook, hsound', hroots.trans hroots'⟩

/-- A look for the stack of a number ends at its root. -/
theorem stack (h : sets.Sound count R) (hposition : position < count) :
    ∃ root sets', sets.stack position = some (root, sets') ∧ HasRoot sets.parent position root ∧
      sets'.Sound count R ∧ sets.SameRoots sets' := by
  obtain ⟨root, k, hclimbs⟩ := h.represents.forest position
  have hnodes : ∀ other ∈ Finset.range count, sets.parent other ∈ Finset.range count := by
    intro other hother
    rw [Finset.mem_range] at hother ⊢
    exact h.bounded other hother
  have hlt := hclimbs.lt_card hnodes (Finset.mem_range.mpr hposition)
  rw [Finset.card_range, ← h.length] at hlt
  obtain ⟨sets', hlook, hsound, hroots⟩ :=
    h.climb hposition hclimbs (Nat.lt_succ_of_lt hlt)
  exact ⟨root, sets', hlook, ⟨k, hclimbs⟩, hsound, hroots⟩

theorem join (h : sets.Sound count R) {left right : ℕ} (hleft : left < count)
    (hright : right < count) :
    ∃ sets' : StackSets, sets.join left right = some sets' ∧
      sets'.Sound count fun a b => R a b ∨ (a = left ∧ b = right) := by
  obtain ⟨l, sets₁, hlook₁, hl, hsound₁, hroots₁⟩ := h.stack hleft
  obtain ⟨r, sets₂, hlook₂, hr, hsound₂, hroots₂⟩ := hsound₁.stack hright
  have hl₂ := (hroots₂ left l).mpr ((hroots₁ left l).mpr hl)
  have hr₂ := (hroots₂ right r).mpr hr
  have hlt := hsound₂.root_lt hl₂ hleft
  refine ⟨⟨sets₂.parents.set l r⟩, ?_, ?_, ?_, ?_⟩
  · simp only [StackSets.join, hlook₁, hlook₂, Option.bind_eq_bind, Option.bind_some]
    rfl
  · rw [List.length_set]
    exact hsound₂.length
  · exact hsound₂.bounded_set hlt (hsound₂.root_lt hr₂ hright)
  · rw [parent_set (hsound₂.length.symm ▸ hlt)]
    exact hsound₂.represents.link hl₂ hr₂

end Sound

end StackSets

/-! ## The numbers -/

/-- The numbers are below their count, and no two ids have one. -/
structure Numbered (nodes : SortedMap String ℕ) : Prop where
  lt : ∀ id number, nodes.get? id = some number → number < nodes.entries.length
  injective : ∀ id id' number, nodes.get? id = some number → nodes.get? id' = some number → id = id'

variable {nodes : SortedMap String ℕ} {id : String} {ids : List String}

theorem numbered_empty : Numbered ∅ := by
  constructor <;> intros <;> contradiction

theorem get?_insertNode_of_some {number : ℕ} (h : nodes.get? id = some number) (id' : String) :
    (insertNode nodes id').get? id = some number := by
  unfold insertNode
  split_ifs with hcontains
  · exact h
  · rw [SortedMap.get?_insert, if_neg]
    · exact h
    · rintro rfl
      exact hcontains (SortedMap.contains_iff.mpr ⟨number, h⟩)

theorem get?_insertNode_self (nodes : SortedMap String ℕ) (id : String) :
    ∃ number, (insertNode nodes id).get? id = some number := by
  unfold insertNode
  split_ifs with hcontains
  · exact SortedMap.contains_iff.mp hcontains
  · rw [SortedMap.get?_insert, if_pos rfl]
    exact ⟨_, rfl⟩

theorem Numbered.insertNode (h : Numbered nodes) (id : String) :
    Numbered (insertNode nodes id) := by
  unfold Requests.insertNode
  split_ifs with hcontains
  · exact h
  · have hnone : nodes.get? id = none := by
      rw [SortedMap.contains_iff] at hcontains
      exact Option.eq_none_iff_forall_ne_some.mpr (not_exists.mp hcontains)
    constructor
    · intro id' number hget
      rw [SortedMap.length_insert _ hnone]
      rw [SortedMap.get?_insert] at hget
      split_ifs at hget
      · cases hget
        exact Nat.lt_succ_self _
      · exact Nat.lt_succ_of_lt (h.lt _ _ hget)
    · intro id' id'' number hget hget'
      rw [SortedMap.get?_insert] at hget hget'
      split_ifs at hget hget' with hid hid' hid'
      · rw [hid, hid']
      · cases hget
        exact absurd (h.lt _ _ hget') (Nat.lt_irrefl _)
      · cases hget'
        exact absurd (h.lt _ _ hget) (Nat.lt_irrefl _)
      · exact h.injective _ _ _ hget hget'

theorem Numbered.foldl (h : Numbered nodes) (ids : List String) :
    Numbered (ids.foldl Requests.insertNode nodes) := by
  induction ids generalizing nodes with
  | nil => exact h
  | cons id ids ih => exact ih (h.insertNode id)

theorem get?_foldl_of_some {number : ℕ} (h : nodes.get? id = some number) (ids : List String) :
    (ids.foldl insertNode nodes).get? id = some number := by
  induction ids generalizing nodes with
  | nil => exact h
  | cons id' ids ih => exact ih (get?_insertNode_of_some h id')

theorem get?_foldl_of_mem (nodes : SortedMap String ℕ) (h : id ∈ ids) :
    ∃ number, (ids.foldl insertNode nodes).get? id = some number := by
  induction ids generalizing nodes with
  | nil => cases h
  | cons id' ids ih =>
    rcases List.mem_cons.mp h with rfl | hmem
    · obtain ⟨number, hnumber⟩ := get?_insertNode_self nodes id
      exact ⟨number, get?_foldl_of_some hnumber ids⟩
    · exact ih _ hmem

variable {members : List RequestQueueStackMember} {member : RequestQueueStackMember}

theorem stackNodes_eq (members : List RequestQueueStackMember) :
    stackNodes members = (members.filterMap (·.parentRequestId)).foldl insertNode
      ((members.map (·.requestId)).foldl insertNode ∅) := by
  rw [List.foldl_map]
  rfl

theorem numbered_stackNodes (members : List RequestQueueStackMember) :
    Numbered (stackNodes members) := by
  rw [stackNodes_eq]
  exact (numbered_empty.foldl _).foldl _

theorem get?_stackNodes_requestId (h : member ∈ members) :
    ∃ number, (stackNodes members).get? member.requestId = some number := by
  rw [stackNodes_eq]
  obtain ⟨number, hnumber⟩ := get?_foldl_of_mem ∅ (List.mem_map_of_mem (f := (·.requestId)) h)
  exact ⟨number, get?_foldl_of_some hnumber _⟩

theorem get?_stackNodes_parentRequestId {parentId : String} (h : member ∈ members)
    (hparent : member.parentRequestId = some parentId) :
    ∃ number, (stackNodes members).get? parentId = some number := by
  rw [stackNodes_eq]
  exact get?_foldl_of_mem _ (List.mem_filterMap.mpr ⟨member, h, hparent⟩)

/-! ## The stacks -/

/-- A member's link to its parent. -/
def ParentLink (members : List RequestQueueStackMember) (id parentId : String) : Prop :=
  ∃ member ∈ members, member.requestId = id ∧ member.parentRequestId = some parentId

/-- Ids are connected by a chain of parent links, each in either direction. -/
def Connected (members : List RequestQueueStackMember) : String → String → Prop :=
  Relation.EqvGen (ParentLink members)

/-- The links between numbers. -/
def NumberLink (nodes : SortedMap String ℕ) (members : List RequestQueueStackMember)
    (a b : ℕ) : Prop :=
  ∃ id parentId, ParentLink members id parentId ∧ nodes.get? id = some a ∧
    nodes.get? parentId = some b

theorem parentLink_cons (rest : List RequestQueueStackMember) (id parentId : String) :
    ParentLink (member :: rest) id parentId ↔
      (member.requestId = id ∧ member.parentRequestId = some parentId) ∨
        ParentLink rest id parentId := by
  unfold ParentLink
  rw [List.exists_mem_cons_iff]

theorem ParentLink.numbered {id parentId : String} (h : ParentLink members id parentId) :
    (∃ a, (stackNodes members).get? id = some a) ∧
      ∃ b, (stackNodes members).get? parentId = some b := by
  obtain ⟨member, hmem, rfl, hparent⟩ := h
  exact ⟨get?_stackNodes_requestId hmem, get?_stackNodes_parentRequestId hmem hparent⟩

open StackSets ParentForest

/-- Joining the members with their parents adds their links to what the forest represents. -/
theorem foldlM_joinParent (hnodes : Numbered nodes) {sets : StackSets} {R : ℕ → ℕ → Prop}
    (h : sets.Sound nodes.entries.length R)
    (hnumbered : ∀ id parentId, ParentLink members id parentId →
      (∃ a, nodes.get? id = some a) ∧ ∃ b, nodes.get? parentId = some b) :
    ∃ sets', members.foldlM (joinParent nodes) sets = some sets' ∧
      sets'.Sound nodes.entries.length fun a b => R a b ∨ NumberLink nodes members a b := by
  induction members generalizing sets R with
  | nil =>
    refine ⟨sets, rfl, h.congr fun a b => ⟨.inl, ?_⟩⟩
    rintro (hR | ⟨_, _, ⟨_, hmem, _⟩, _⟩)
    · exact hR
    · cases hmem
  | cons member rest ih =>
    have hrest : ∀ id parentId, ParentLink rest id parentId →
        (∃ a, nodes.get? id = some a) ∧ ∃ b, nodes.get? parentId = some b :=
      fun id parentId hlink => hnumbered id parentId ((parentLink_cons _ _ _).mpr (.inr hlink))
    rw [List.foldlM_cons]
    cases hparent : member.parentRequestId with
    | none =>
      obtain ⟨sets', hrun, hsound⟩ := ih h hrest
      refine ⟨sets', ?_, hsound.congr fun a b => ?_⟩
      · simp only [joinParent, hparent, Option.bind_eq_bind, Option.bind_some]
        exact hrun
      · unfold NumberLink
        simp only [parentLink_cons, hparent, reduceCtorEq, and_false, false_or]
    | some parentId =>
      obtain ⟨⟨left, hleft⟩, right, hright⟩ :=
        hnumbered member.requestId parentId ((parentLink_cons _ _ _).mpr (.inl ⟨rfl, hparent⟩))
      obtain ⟨sets₁, hjoin, hsound₁⟩ :=
        h.join (hnodes.lt _ _ hleft) (hnodes.lt _ _ hright)
      obtain ⟨sets', hrun, hsound⟩ := ih hsound₁ hrest
      refine ⟨sets', ?_, hsound.congr fun a b => ?_⟩
      · simp only [joinParent, hparent, hleft, hright, hjoin, Option.bind_eq_bind,
          Option.bind_some]
        exact hrun
      · rw [or_assoc]
        refine or_congr_right ?_
        constructor
        · rintro (⟨rfl, rfl⟩ | ⟨id, parentId', hlink, ha, hb⟩)
          · exact ⟨_, _, (parentLink_cons _ _ _).mpr (.inl ⟨rfl, hparent⟩), hleft, hright⟩
          · exact ⟨id, parentId', (parentLink_cons _ _ _).mpr (.inr hlink), ha, hb⟩
        · rintro ⟨id, parentId', hlink, ha, hb⟩
          rcases (parentLink_cons _ _ _).mp hlink with ⟨rfl, hparent'⟩ | hlink
          · rw [hparent, Option.some.injEq] at hparent'
            subst hparent'
            rw [hleft, Option.some.injEq] at ha
            rw [hright, Option.some.injEq] at hb
            exact .inl ⟨ha.symm, hb.symm⟩
          · exact .inr ⟨id, parentId', hlink, ha, hb⟩

/-- The root of a member's number. -/
def MemberRoot (nodes : SortedMap String ℕ) (sets : StackSets) (member : RequestQueueStackMember)
    (root : ℕ) : Prop :=
  ∃ number, nodes.get? member.requestId = some number ∧ HasRoot sets.parent number root

section

variable {sets sets' : StackSets} {R : ℕ → ℕ → Prop}

theorem StackSets.SameRoots.memberRoot (h : sets.SameRoots sets') {root : ℕ} :
    MemberRoot nodes sets' member root ↔ MemberRoot nodes sets member root := by
  unfold MemberRoot
  simp only [h _ root]

theorem MemberRoot.unique {root root' : ℕ} (h : MemberRoot nodes sets member root)
    (h' : MemberRoot nodes sets member root') : root = root' := by
  obtain ⟨number, hnumber, hroot⟩ := h
  obtain ⟨number', hnumber', hroot'⟩ := h'
  rw [hnumber, Option.some.injEq] at hnumber'
  subst hnumber'
  exact hroot.unique hroot'

theorem memberStack_spec (hnodes : Numbered nodes) (h : sets.Sound nodes.entries.length R)
    (hmember : ∃ number, nodes.get? member.requestId = some number) :
    ∃ root sets', memberStack nodes sets member = some (root, sets') ∧
      MemberRoot nodes sets member root ∧ sets'.Sound nodes.entries.length R ∧
      sets.SameRoots sets' := by
  obtain ⟨number, hnumber⟩ := hmember
  obtain ⟨root, sets', hlook, hroot, hsound, hroots⟩ := h.stack (hnodes.lt _ _ hnumber)
  refine ⟨root, sets', ?_, ⟨number, hnumber, hroot⟩, hsound, hroots⟩
  simp only [memberStack, hnumber, Option.bind_eq_bind, Option.bind_some]
  exact hlook

/-- The roots of members are collected, and no root changes meanwhile. -/
theorem memberStacks_spec (hnodes : Numbered nodes) (h : sets.Sound nodes.entries.length R)
    (hmembers : ∀ member ∈ members, ∃ number, nodes.get? member.requestId = some number) :
    ∃ roots sets', memberStacks nodes sets members = some (roots, sets') ∧
      sets'.Sound nodes.entries.length R ∧ sets.SameRoots sets' ∧
      ∀ root, root ∈ roots ↔ ∃ member ∈ members, MemberRoot nodes sets member root := by
  induction members generalizing sets with
  | nil => exact ⟨[], sets, rfl, h, fun _ _ => Iff.rfl, by simp⟩
  | cons member rest ih =>
    obtain ⟨root, sets₁, hlook, hroot, hsound₁, hroots₁⟩ :=
      memberStack_spec hnodes h (hmembers member List.mem_cons_self)
    obtain ⟨roots, sets', hrun, hsound, hroots, hmem⟩ :=
      ih hsound₁ fun member hmember => hmembers member (List.mem_cons_of_mem _ hmember)
    refine ⟨root :: roots, sets', ?_, hsound, hroots₁.trans hroots, fun root' => ?_⟩
    · simp only [memberStacks, hlook, hrun, Option.bind_eq_bind, Option.bind_some]
      rfl
    · rw [List.mem_cons, hmem, List.exists_mem_cons_iff]
      simp only [hroots₁.memberRoot]
      refine or_congr_left ⟨?_, fun hroot' => hroot'.unique hroot⟩
      rintro rfl
      exact hroot

open Classical in
/-- The group of a member whose stack needs the viewer when `needs` says so. -/
noncomputable def stackGroup (needs : RequestQueueStackMember → Prop)
    (member : RequestQueueStackMember) : RequestQueueGroup :=
  if member.group = .waiting ∧ needs member then .needsYou else member.group

theorem stackGroup_of_not {needs : RequestQueueStackMember → Prop}
    (h : ¬(member.group = .waiting ∧ needs member)) : stackGroup needs member = member.group :=
  if_neg h

theorem stackGroup_eq_needsYou {needs : RequestQueueStackMember → Prop} :
    stackGroup needs member = .needsYou ↔
      member.group = .needsYou ∨ member.group = .waiting ∧ needs member := by
  unfold stackGroup
  split_ifs with h
  · exact ⟨fun _ => .inr h, fun _ => rfl⟩
  · exact ⟨.inl, fun h' => h'.resolve_right h⟩

theorem stackGroups_spec (hnodes : Numbered nodes) (h : sets.Sound nodes.entries.length R)
    {needingYou : List ℕ} {needs : RequestQueueStackMember → Prop}
    (hmembers : ∀ member ∈ members, ∃ number, nodes.get? member.requestId = some number)
    (hneeds : ∀ member ∈ members, ∀ root, MemberRoot nodes sets member root →
      (root ∈ needingYou ↔ needs member)) :
    stackGroups nodes needingYou sets members = some (members.map (stackGroup needs)) := by
  induction members generalizing sets with
  | nil => rfl
  | cons member rest ih =>
    have hrest := fun member hmember => hmembers member (List.mem_cons_of_mem _ hmember)
    rw [stackGroups, List.map_cons]
    by_cases hwaiting : member.group = .waiting
    · obtain ⟨root, sets', hlook, hroot, hsound, hroots⟩ :=
        memberStack_spec hnodes h (hmembers member List.mem_cons_self)
      have hrun := ih hsound hrest fun other hother root hroot =>
        hneeds other (List.mem_cons_of_mem _ hother) root (hroots.memberRoot.mp hroot)
      have hiff := hneeds member List.mem_cons_self root hroot
      have hgroup : (if root ∈ needingYou then .needsYou else member.group) =
          stackGroup needs member := by
        by_cases hin : root ∈ needingYou
        · rw [if_pos hin]
          exact (if_pos ⟨hwaiting, hiff.mp hin⟩).symm
        · rw [if_neg hin, stackGroup_of_not fun hand => hin (hiff.mpr hand.2)]
      rw [if_pos hwaiting, hlook]
      simp only [hrun, hgroup, Option.bind_eq_bind, Option.bind_some]
      rfl
    · have hrun := ih h hrest fun other hother =>
        hneeds other (List.mem_cons_of_mem _ hother)
      rw [if_neg hwaiting, hrun, stackGroup_of_not fun hand => hwaiting hand.1]
      rfl

end

/-- The stack of a member has one that needs the viewer. -/
def StackNeedsYou (members : List RequestQueueStackMember) (member : RequestQueueStackMember) :
    Prop :=
  ∃ other ∈ members, other.group = .needsYou ∧
    Connected members member.requestId other.requestId

/-- Two members have one root when their ids are connected. -/
theorem memberRoot_iff_connected {sets : StackSets} {root : ℕ}
    (h : sets.Sound (stackNodes members).entries.length (NumberLink (stackNodes members) members))
    (hroot : MemberRoot (stackNodes members) sets member root) {other : RequestQueueStackMember}
    (hother : other ∈ members) :
    MemberRoot (stackNodes members) sets other root ↔
      Connected members member.requestId other.requestId := by
  obtain ⟨number, hnumber, hroot⟩ := hroot
  obtain ⟨number', hnumber'⟩ := get?_stackNodes_requestId hother
  have hsame := h.represents.sameTree_iff number number'
  unfold NumberLink at hsame
  rw [eqvGen_numbered (numbered_stackNodes members).injective (fun _ _ => ParentLink.numbered)
    hnumber hnumber'] at hsame
  unfold Connected
  rw [← hsame]
  constructor
  · rintro ⟨number'', hnumber'', hroot'⟩
    rw [hnumber', Option.some.injEq] at hnumber''
    subst hnumber''
    exact ⟨root, hroot, hroot'⟩
  · rintro ⟨root', hroot', hroot''⟩
    rw [hroot'.unique hroot] at hroot''
    exact ⟨number', hnumber', hroot''⟩

/-- The groups are computed, each as the connections of its member say. -/
theorem requestQueueStackGroups_eq (members : List RequestQueueStackMember) :
    requestQueueStackGroups members = some (members.map (stackGroup (StackNeedsYou members))) := by
  have hnodes := numbered_stackNodes members
  obtain ⟨sets, hjoined, hsound⟩ := foldlM_joinParent hnodes
    (sound_new (stackNodes members).entries.length) fun id parentId (h : ParentLink members _ _) =>
      h.numbered
  replace hsound := hsound.congr fun a b => or_iff_right not_false
  have hneedYou : ∀ member ∈ members.filter (·.group = .needsYou),
      ∃ number, (stackNodes members).get? member.requestId = some number :=
    fun member hmember => get?_stackNodes_requestId (List.mem_of_mem_filter hmember)
  obtain ⟨needingYou, sets', hneeding, hsound', hroots, hmem⟩ :=
    memberStacks_spec hnodes hsound hneedYou
  have hgroups : stackGroups (stackNodes members) needingYou sets' members =
      some (members.map (stackGroup (StackNeedsYou members))) := by
    refine stackGroups_spec hnodes hsound' (fun _ => get?_stackNodes_requestId) ?_
    intro member hmember root hroot
    rw [hroots.memberRoot] at hroot
    rw [hmem]
    constructor
    · rintro ⟨other, hother, hroot'⟩
      rw [List.mem_filter, decide_eq_true_eq] at hother
      exact ⟨other, hother.1, hother.2, (memberRoot_iff_connected hsound hroot hother.1).mp hroot'⟩
    · rintro ⟨other, hother, hgroup, hconnected⟩
      refine ⟨other, List.mem_filter.mpr ⟨hother, decide_eq_true hgroup⟩, ?_⟩
      exact (memberRoot_iff_connected hsound hroot hother).mpr hconnected
  simp only [requestQueueStackGroups, hjoined, hneeding, hgroups, Option.bind_eq_bind,
    Option.bind_some]

/-- The order of the members decides nothing about a member's stack. -/
theorem stackNeedsYou_perm {members' : List RequestQueueStackMember} (h : members'.Perm members) :
    StackNeedsYou members' = StackNeedsYou members := by
  have hlinks : ParentLink members' = ParentLink members := by
    funext id parentId
    unfold ParentLink
    simp only [h.mem_iff]
  funext member
  unfold StackNeedsYou Connected
  simp only [h.mem_iff, hlinks]

/-- Whatever the members, in every order of them, each gets its group: a member that waits needs the
viewer when parent links, in either direction, connect it to one that does, and no other group
changes. -/
theorem stack_groups_follow_the_links (members : List RequestQueueStackMember) :
    ∃ group : RequestQueueStackMember → RequestQueueGroup,
      (∀ members', members'.Perm members →
        requestQueueStackGroups members' = some (members'.map group)) ∧
      ∀ member ∈ members,
        (group member = .needsYou ↔ member.group = .needsYou ∨ member.group = .waiting ∧
          ∃ other ∈ members, other.group = .needsYou ∧
            Connected members member.requestId other.requestId) ∧
        (group member ≠ .needsYou → group member = member.group) := by
  refine ⟨stackGroup (StackNeedsYou members), fun members' hperm => ?_, fun member _ => ⟨?_, ?_⟩⟩
  · rw [requestQueueStackGroups_eq, stackNeedsYou_perm hperm]
  · exact stackGroup_eq_needsYou
  · intro hne
    refine stackGroup_of_not fun h => hne ?_
    exact stackGroup_eq_needsYou.mpr (.inr h)

/-- The parent that two members share need not be one of them. -/
example : requestQueueStackGroups
    [⟨"first", some "base", .waiting⟩, ⟨"second", some "base", .needsYou⟩,
      ⟨"third", none, .waiting⟩] = some [.needsYou, .needsYou, .waiting] := by
  decide

end ScopeVcs.Requests
