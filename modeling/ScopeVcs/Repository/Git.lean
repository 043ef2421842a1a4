import ScopeVcs.Lib.U64
import ScopeVcs.Views

/-! # The Git head of a repository and its pool packs

A push to main stores one pack. `validateMainPackAdvance` accepts it when it extends the current
head by exactly one sequence number.
-/

namespace ScopeVcs

/-- The head that the last accepted push left on main. -/
structure GitHead where
  headOid : String
  pushSequence : ℕ
  changeVersion : ℕ
  frontier : String
  deriving DecidableEq

structure GitSegmentRef where
  segmentId : String
  sha256 : String
  plaintextBytes : ℕ
  encodingVersion : ℕ
  deriving DecidableEq

/-- The scope of a request pack: the full view, or one narrower view. -/
inductive RequestPackScope where
  | full
  | view (view : ViewId)
  deriving DecidableEq

inductive GitPoolPackOwner where
  | request (requestId : String) (scope : RequestPackScope)
  | main (firstSequence lastSequence : ℕ)
  deriving DecidableEq

inductive GitPoolPackStorage where
  | inline (bytes : List UInt8)
  | segment (ref : GitSegmentRef)
  deriving DecidableEq

structure GitPoolPack where
  id : String
  owner : GitPoolPackOwner
  headOid : String
  prerequisites : List String
  storage : GitPoolPackStorage
  deriving DecidableEq

namespace GitPoolPackStorage

def storedBytes : GitPoolPackStorage → ℕ
  | .inline bytes => bytes.length
  | .segment ref => ref.plaintextBytes

/-- The segment a pack was moved to, if it no longer lies inline. -/
def segment? : GitPoolPackStorage → Option GitSegmentRef
  | .inline _ => none
  | .segment ref => some ref

end GitPoolPackStorage

/-- The push sequences a main pack covers. -/
def GitPoolPackOwner.mainSequences : GitPoolPackOwner → Option (ℕ × ℕ)
  | .main first last => some (first, last)
  | .request _ _ => none

inductive MainPackAdvanceError where
  | sequenceOverflow
  | notNextSequence
  | wrongOwner
  | wrongHead
  | wrongPrerequisites
  deriving DecidableEq

/-- The sequence number the next push to main must carry. -/
def nextPushSequence (previous : Option GitHead) : Option ℕ :=
  match previous with
  | none => some 1
  | some head => U64.checkedAdd head.pushSequence 1

/-- What the next main pack builds on: the previous head, or nothing for the first push. -/
def headPrerequisites (previous : Option GitHead) : List String :=
  match previous with
  | none => []
  | some head => [head.headOid]

/-- `validate_main_pack_advance`. -/
def validateMainPackAdvance (previous : Option GitHead) (next : GitHead) (pack : GitPoolPack) :
    Except MainPackAdvanceError Unit :=
  match nextPushSequence previous with
  | none => .error .sequenceOverflow
  | some sequence =>
    if next.pushSequence ≠ sequence then .error .notNextSequence
    else if pack.owner ≠ .main sequence sequence then .error .wrongOwner
    else if pack.headOid ≠ next.headOid then .error .wrongHead
    else if pack.prerequisites ≠ headPrerequisites previous then .error .wrongPrerequisites
    else .ok ()

/-- An accepted push carries the next sequence number, in a pack that covers exactly that number
and links the previous head to the new one. -/
theorem validateMainPackAdvance_eq_ok {previous : Option GitHead} {next : GitHead}
    {pack : GitPoolPack} :
    validateMainPackAdvance previous next pack = .ok () ↔
      nextPushSequence previous = some next.pushSequence ∧
        pack.owner = .main next.pushSequence next.pushSequence ∧
        pack.headOid = next.headOid ∧ pack.prerequisites = headPrerequisites previous := by
  unfold validateMainPackAdvance
  constructor
  · intro h
    split at h
    · cases h
    · rename_i sequence hseq
      split_ifs at h with h1 h2 h3 h4
      push Not at h1 h2 h3 h4
      subst h1
      exact ⟨hseq, h2, h3, h4⟩
  · rintro ⟨hseq, howner, hhead, hpre⟩
    simp [hseq, howner, hhead, hpre]

end ScopeVcs
