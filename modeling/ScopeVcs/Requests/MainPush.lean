import ScopeVcs.Lib.Decimal
import ScopeVcs.Requests.AutoMerge

/-! # Main pushes

A push to main that lands through a view is a request named after its head. When the name is taken, a
number behind it makes another one. `main_push_request_attempt` reads the number back from a name.
-/

namespace ScopeVcs.Requests

open Mutation

def mainPushRequestNameRoot (headOid : String) : String :=
  MAIN_PUSH_REQUEST_NAME_PREFIX ++
    String.ofList ((Text.firstBytes? 12 headOid.toList).getD headOid.toList)

/-- What the iterator gives at an index. Its counter is a `u64`. -/
def mainPushRequestNames (headOid : String) (index : ℕ) : Option String :=
  let first := mainPushRequestNameRoot headOid
  if index = 0 then some first
  else if index + 1 ≤ U64.maxU64 then some (first ++ "-" ++ toString (index + 1))
  else none

def mainPushRequestAttempt (name headOid : String) : Option ℕ :=
  match Text.stripPrefix? (mainPushRequestNameRoot headOid).toList name.toList with
  | some [] => some 1
  | some suffix =>
    (((Text.stripPrefix? ['-'] suffix).filter fun digits => digits.head? ≠ some '0').bind fun digits =>
      Decimal.parse U64.maxU64 digits).filter fun attempt => 2 ≤ attempt
  | none => none

def isMainPushRequestName (name headOid : String) : Bool :=
  (mainPushRequestAttempt name headOid).isSome

def startMainPushDraft (sha256Hex : List UInt8 → String) (facts : StartRequestFacts)
    (input : StartRequestInput) (headOid : String) (views : Views) :
    Except DomainError StartRequestMutation := do
  rejectIf (isMainPushRequestName input.name headOid = false)
    (.invalidInput "main push requests are named after their head")
  openRequest sha256Hex facts input views

/-! ## Requests -/

structure StartMainPushRequestInput where
  id : String
  repoId : String
  repositoryIncarnationId : String
  pusherUserId : String
  pusherHandle : String
  validatedView : ViewId
  name : String
  mainAncestorOid : String
  headOid : String
  gitFacts : RequestRevisionGitFacts
  startedEventId : String
  revisionEventId : String
  submittedEventId : String
  autoMergeIntentId : String
  autoMergeEventId : String
  nowUnix : ℕ

structure MainPushRequestMutation where
  request : Request
  events : List RequestEvent
  revision : RequestRevision
  autoMerge : RequestAutoMergeIntent
  deriving DecidableEq

inductive MainPushRequestName where
  | free
  | alreadyOpen
  | taken
  deriving DecidableEq

def MainPushRequestName.classify (existing : Option Request) (pusherUserId : String) (view : ViewId)
    (headOid : String) : MainPushRequestName :=
  match existing with
  | none => free
  | some request =>
    if request.isTerminal = false ∧ request.authorUserId = some pusherUserId ∧ request.view = view ∧
        request.headOid = headOid then alreadyOpen
    else taken

def mainPushRequestTitle (pusherHandle : String) : String := "Main push from " ++ pusherHandle

structure MainPushRequestFacts where
  requestIdExists : Bool
  requestWithName : Option Request
  viewMainOid : Option String
  publicWorkingRequestCount : ℕ

inductive MainPushRequestOutcome where
  | started (mutation : MainPushRequestMutation)
  | alreadyOpen (request : Request)
  deriving DecidableEq

/-- The view that a push to main lands through as a request. -/
def mainPushView (access : RepositoryAccess) (lifecycleState : RepoLifecycleState) (views : Views) :
    Except DomainError ViewId :=
  match access.mainPushMode lifecycleState views with
  | .throughView view =>
    if view = access.view ∧ view ≠ views.full ∧ views.mayRead access.view view = true then .ok view
    else .error (.forbidden "only pushes to main through a narrower view land as requests")
  | .denied => .error (.forbidden "push permission required")
  | .firstPush | .ready =>
    .error (.forbidden "only pushes to main through a narrower view land as requests")

/-- The request of a main push: started, revised, submitted, and merged once its checks allow that. -/
def openMainPushRequest (sha256Hex : List UInt8 → String) (facts : MainPushRequestFacts)
    (access : RepositoryAccess) (view : ViewId) (input : StartMainPushRequestInput) (views : Views) :
    Except DomainError MainPushRequestMutation := do
  let started ← startMainPushDraft sha256Hex {
      requestIdExists := facts.requestIdExists
      requestNameExists := facts.requestWithName.isSome
      publicWorkingRequestCount := facts.publicWorkingRequestCount
      stackDepth := 1 } {
      id := input.id
      repoId := input.repoId
      name := input.name
      authorUserId := input.pusherUserId
      title := some (mainPushRequestTitle input.pusherHandle)
      authorRole := requestActorRole access
      authorView := access.view
      view
      base := .main input.mainAncestorOid
      mainAncestorOid := input.mainAncestorOid
      eventId := input.startedEventId
      nowUnix := input.nowUnix } input.headOid views
  let revised ← recordRequestRevision started.request false {
    newBase := none
    newBaseStackDepth := none
    requestId := input.id
    actorUserId := input.pusherUserId
    actorCanEdit := true
    expectedOldHeadOid := none
    newHeadOid := input.headOid
    gitFacts := input.gitFacts
    eventId := input.revisionEventId
    body := none
    nowUnix := input.nowUnix }
  let submitted ← submitRequest revised.request {
    requestId := input.id
    actorUserId := input.pusherUserId
    actorIsAuthor := true
    actorCanSubmit := true
    eventId := input.submittedEventId
    nowUnix := input.nowUnix }
  let pusherCanMerge :=
    (requestPolicy submitted.request (.new access (some input.pusherUserId) false)
      views).permissions.canMerge
  let autoMerge ← authorizeRequestAutoMerge submitted.request revised.revision none {
    id := input.autoMergeIntentId
    repoId := input.repoId
    repositoryIncarnationId := input.repositoryIncarnationId
    requestId := input.id
    actorUserId := input.pusherUserId
    actorCanMerge := pusherCanMerge
    readiness := .waiting .checkEvaluationMissing
    expectedRevisionId := revised.revision.id
    expectedHeadOid := input.headOid
    eventId := input.autoMergeEventId
    nowUnix := input.nowUnix }
  return {
    request := autoMerge.request
    events := started.event :: revised.event :: submitted.events ++ [autoMerge.event]
    revision := revised.revision
    autoMerge := autoMerge.intent }

def startMainPushRequest (sha256Hex : List UInt8 → String) (facts : MainPushRequestFacts)
    (access : RepositoryAccess) (lifecycleState : RepoLifecycleState)
    (input : StartMainPushRequestInput) (views : Views) :
    Except DomainError MainPushRequestOutcome := do
  let view ← mainPushView access lifecycleState views
  rejectIf (view ≠ input.validatedView)
    (.conflict "the pusher's view changed since the push was checked; push again")
  match MainPushRequestName.classify facts.requestWithName input.pusherUserId view input.headOid,
      facts.requestWithName with
  | .alreadyOpen, some request => return .alreadyOpen request
  | .alreadyOpen, none => .error (.invariantViolation "an open request has no row")
  | .taken, _ =>
    .error (.conflict ("another push took the request name " ++ input.name ++ "; push again"))
  | .free, _ => do
    rejectIf (facts.viewMainOid ≠ some input.mainAncestorOid) (.conflict
      ("the " ++ views.displayName view ++ " view's main moved; pull it, then push again"))
    let mutation ← openMainPushRequest sha256Hex facts access view input views
    return .started mutation

/-! ## Names -/

variable {name headOid : String} {attempt index : ℕ}

/-- A number that is printed with a `+` in front. -/
def IsSigned (name headOid : String) : Prop :=
  ∃ digits n, name.toList = (mainPushRequestNameRoot headOid).toList ++ '-' :: '+' :: digits ∧
    Decimal.Denotes digits n ∧ 2 ≤ n ∧ n ≤ U64.maxU64

/-- The name of an attempt. -/
theorem mainPushRequestNames_eq_some :
    mainPushRequestNames headOid index = some name ↔
      (index = 0 ∧ name = mainPushRequestNameRoot headOid) ∨
        (0 < index ∧ index + 1 ≤ U64.maxU64 ∧ name.toList =
          (mainPushRequestNameRoot headOid).toList ++ '-' :: Nat.toDigits 10 (index + 1)) := by
  have hprinted : (mainPushRequestNameRoot headOid ++ "-" ++ toString (index + 1)).toList =
      (mainPushRequestNameRoot headOid).toList ++ '-' :: Nat.toDigits 10 (index + 1) := by
    rw [String.toList_append, String.toList_append, Nat.toString_eq_repr, Nat.toList_repr,
      List.append_assoc]
    rfl
  unfold mainPushRequestNames
  dsimp only
  split_ifs with hfirst hcounter
  · rw [Option.some.injEq]
    constructor
    · intro h
      exact .inl ⟨hfirst, h.symm⟩
    · rintro (⟨-, rfl⟩ | ⟨hpos, -, -⟩)
      · rfl
      · exact absurd hfirst hpos.ne'
  · rw [Option.some.injEq, ← String.toList_inj, hprinted]
    constructor
    · intro h
      exact .inr ⟨Nat.pos_of_ne_zero hfirst, hcounter, h.symm⟩
    · rintro (⟨hzero, -⟩ | ⟨-, -, h⟩)
      · exact absurd hzero hfirst
      · exact h.symm
  · refine ⟨nofun, ?_⟩
    rintro (⟨hzero, -⟩ | ⟨-, hle, -⟩)
    · exact absurd hzero hfirst
    · exact absurd hle hcounter

/-- What is read behind a `-`: digits without a leading zero, or with a `+` in front. -/
theorem parsed_eq_some {suffix : List Char} :
    (((Text.stripPrefix? ['-'] suffix).filter fun digits => digits.head? ≠ some '0').bind fun digits =>
        Decimal.parse U64.maxU64 digits).filter (fun attempt => 2 ≤ attempt) = some attempt ↔
      ∃ digits, (suffix = '-' :: digits ∧ digits.head? ≠ some '0' ∨ suffix = '-' :: '+' :: digits) ∧
        Decimal.Denotes digits attempt ∧ 2 ≤ attempt ∧ attempt ≤ U64.maxU64 := by
  simp only [Option.filter_eq_some_iff, Option.bind_eq_some_iff, Text.stripPrefix?_eq_some,
    List.singleton_append, decide_eq_true_eq, Decimal.parse_eq_some]
  constructor
  · rintro ⟨⟨text, ⟨rfl, hzero⟩, digits, rfl | rfl, hdenotes, hgreatest⟩, hleast⟩
    · exact ⟨text, .inl ⟨rfl, hzero⟩, hdenotes, hleast, hgreatest⟩
    · exact ⟨digits, .inr rfl, hdenotes, hleast, hgreatest⟩
  · rintro ⟨digits, ⟨rfl, hzero⟩ | rfl, hdenotes, hleast, hgreatest⟩
    · exact ⟨⟨digits, ⟨rfl, hzero⟩, digits, .inl rfl, hdenotes, hgreatest⟩, hleast⟩
    · exact ⟨⟨'+' :: digits, ⟨rfl, by simp⟩, digits, .inr rfl, hdenotes, hgreatest⟩, hleast⟩

/-- A number that is read from a name is the one it was printed with, but for a sign. -/
theorem mainPushRequestAttempt_eq_some :
    mainPushRequestAttempt name headOid = some attempt ↔
      (attempt = 1 ∧ name = mainPushRequestNameRoot headOid) ∨
        ∃ digits, (name.toList = (mainPushRequestNameRoot headOid).toList ++ '-' :: digits ∧
            digits.head? ≠ some '0' ∨
          name.toList = (mainPushRequestNameRoot headOid).toList ++ '-' :: '+' :: digits) ∧
          Decimal.Denotes digits attempt ∧ 2 ≤ attempt ∧ attempt ≤ U64.maxU64 := by
  unfold mainPushRequestAttempt
  cases hstrip : Text.stripPrefix? (mainPushRequestNameRoot headOid).toList name.toList with
  | none =>
    have hother : ∀ suffix, name.toList ≠ (mainPushRequestNameRoot headOid).toList ++ suffix := by
      intro suffix hname
      rw [Text.stripPrefix?_eq_some.mpr hname] at hstrip
      cases hstrip
    refine ⟨nofun, ?_⟩
    rintro (⟨-, rfl⟩ | ⟨digits, ⟨hname, -⟩ | hname, -⟩)
    · exact absurd (List.append_nil _).symm (hother [])
    · exact absurd hname (hother _)
    · exact absurd hname (hother _)
  | some suffix =>
    have hname := Text.stripPrefix?_eq_some.mp hstrip
    have hroot : name = mainPushRequestNameRoot headOid ↔ suffix = [] := by
      rw [← String.toList_inj, hname, List.append_right_eq_self]
    rw [hname, hroot]
    simp only [List.append_cancel_left_eq]
    cases suffix with
    | nil =>
      rw [Option.some.injEq]
      constructor
      · intro h
        exact .inl ⟨h.symm, rfl⟩
      · rintro (⟨rfl, -⟩ | ⟨digits, ⟨hnil, -⟩ | hnil, -⟩)
        · rfl
        · cases hnil
        · cases hnil
    | cons c rest =>
      refine parsed_eq_some.trans ⟨.inr, ?_⟩
      rintro (⟨-, hnil⟩ | h)
      · cases hnil
      · exact h

/-- The numbers of two names differ. -/
theorem mainPushRequestNames_injective {i j : ℕ} (hi : mainPushRequestNames headOid i = some name)
    (hj : mainPushRequestNames headOid j = some name) : i = j := by
  rcases mainPushRequestNames_eq_some.mp hi with ⟨rfl, rfl⟩ | ⟨-, -, hname⟩ <;>
    rcases mainPushRequestNames_eq_some.mp hj with ⟨rfl, hname'⟩ | ⟨-, -, hname'⟩
  · rfl
  · exact absurd (List.append_right_eq_self.mp hname'.symm) (List.cons_ne_nil _ _)
  · subst hname'
    exact absurd (List.append_right_eq_self.mp hname.symm) (List.cons_ne_nil _ _)
  · have hsame := List.append_cancel_left (hname.symm.trans hname')
    have hnumbers := Decimal.toDigits_injective (List.cons.inj hsame).2
    omega

/-- The name of an attempt is read back as its number. -/
theorem mainPushRequestAttempt_of_name (h : mainPushRequestNames headOid index = some name) :
    mainPushRequestAttempt name headOid = some (index + 1) := by
  rw [mainPushRequestAttempt_eq_some]
  rcases mainPushRequestNames_eq_some.mp h with ⟨rfl, rfl⟩ | ⟨hpos, hcounter, hname⟩
  · exact .inl ⟨rfl, rfl⟩
  · exact .inr ⟨_, .inl ⟨hname, Decimal.head?_toDigits_ne_zero (Nat.succ_pos _)⟩,
      Decimal.denotes_toDigits _, by omega, hcounter⟩

/-- A number that is read from a name without a sign is the one of its attempt. -/
theorem name_of_mainPushRequestAttempt (h : mainPushRequestAttempt name headOid = some attempt)
    (hsigned : ¬IsSigned name headOid) :
    1 ≤ attempt ∧ mainPushRequestNames headOid (attempt - 1) = some name := by
  rcases mainPushRequestAttempt_eq_some.mp h with ⟨rfl, rfl⟩ |
    ⟨digits, ⟨hname, hzero⟩ | hname, hdenotes, hleast, hgreatest⟩
  · exact ⟨le_rfl, rfl⟩
  · have hnumber : attempt - 1 + 1 = attempt := by omega
    refine ⟨by omega, mainPushRequestNames_eq_some.mpr (.inr ⟨by omega, by omega, ?_⟩)⟩
    rw [hname, hdenotes.eq_toDigits hzero, hnumber]
  · exact absurd ⟨digits, attempt, hname, hdenotes, hleast, hgreatest⟩ hsigned

/-- The name of no attempt has a sign. -/
theorem not_isSigned_of_name (h : mainPushRequestNames headOid index = some name) :
    ¬IsSigned name headOid := by
  rintro ⟨digits, n, hsigned, -⟩
  rcases mainPushRequestNames_eq_some.mp h with ⟨-, rfl⟩ | ⟨-, -, hname⟩
  · exact absurd (List.append_right_eq_self.mp hsigned.symm) (List.cons_ne_nil _ _)
  · have hsame := (List.cons.inj (List.append_cancel_left (hname.symm.trans hsigned))).2
    have hplus : '+' ∈ Nat.toDigits 10 (index + 1) := by
      rw [hsame]
      exact List.mem_cons_self
    exact Decimal.isDigit_ne_plus ((Decimal.denotes_toDigits _).2.1 _ hplus) rfl

/-! ## Drafts -/

section Drafts

variable {sha256Hex : List UInt8 → String} {facts : StartRequestFacts} {input : StartRequestInput}
  {views : Views} {mutation : StartRequestMutation}

/-- A request that is opened has the name it was asked for, and that can be a name. -/
theorem name_of_openRequest (h : openRequest sha256Hex facts input views = .ok mutation) :
    mutation.request.name = input.name ∧ isRequestName input.name.toList = true := by
  unfold openRequest at h
  obtain ⟨hinput, h⟩ := except_unit_bind_eq_ok.mp h
  obtain ⟨-, h⟩ := except_unit_bind_eq_ok.mp h
  obtain ⟨-, h⟩ := except_unit_bind_eq_ok.mp h
  obtain ⟨-, h⟩ := except_unit_bind_eq_ok.mp h
  obtain ⟨-, h⟩ := except_unit_bind_eq_ok.mp h
  unfold validateStartRequestInput at hinput
  obtain ⟨-, hinput⟩ := except_unit_bind_eq_ok.mp hinput
  obtain ⟨-, hinput⟩ := except_unit_bind_eq_ok.mp hinput
  obtain ⟨-, hinput⟩ := except_unit_bind_eq_ok.mp hinput
  obtain ⟨hname, -⟩ := except_unit_bind_eq_ok.mp hinput
  unfold validateRequestName at hname
  obtain ⟨-, hname⟩ := except_unit_bind_eq_ok.mp hname
  obtain ⟨hpattern, -⟩ := except_unit_bind_eq_ok.mp hname
  rw [rejectIf_eq_ok, not_or, Bool.not_eq_false] at hpattern
  cases h
  exact ⟨rfl, hpattern.2⟩

theorem startMainPushDraft_eq_ok :
    startMainPushDraft sha256Hex facts input headOid views = .ok mutation ↔
      isMainPushRequestName input.name headOid = true ∧
        openRequest sha256Hex facts input views = .ok mutation := by
  unfold startMainPushDraft
  rw [except_unit_bind_eq_ok, rejectIf_eq_ok, Bool.not_eq_false]

/-- No request can be named with a sign. -/
theorem not_isSigned_of_isRequestName (h : isRequestName name.toList = true) :
    ¬IsSigned name headOid := by
  rintro ⟨digits, n, hsigned, -⟩
  have hplus : '+' ∈ name.toList := by
    rw [hsigned]
    exact List.mem_append_right _ (List.mem_cons_of_mem _ List.mem_cons_self)
  cases hchars : name.toList with
  | nil =>
    rw [hchars] at hplus
    exact List.not_mem_nil hplus
  | cons first rest =>
    rw [hchars] at h hplus
    obtain ⟨hfirst, hrest⟩ := Bool.and_eq_true_iff.mp h
    rcases List.mem_cons.mp hplus with rfl | hmem
    · cases hfirst
    · cases List.all_eq_true.mp hrest '+' hmem

/-- A draft is named after its head. -/
theorem name_of_startMainPushDraft
    (h : startMainPushDraft sha256Hex facts input headOid views = .ok mutation) :
    ∃ index, mainPushRequestNames headOid index = some mutation.request.name := by
  obtain ⟨haccepted, hopen⟩ := startMainPushDraft_eq_ok.mp h
  obtain ⟨hname, hpattern⟩ := name_of_openRequest hopen
  obtain ⟨attempt, hattempt⟩ := Option.isSome_iff_exists.mp haccepted
  rw [hname]
  exact ⟨_, (name_of_mainPushRequestAttempt hattempt (not_isSigned_of_isRequestName hpattern)).2⟩

end Drafts

/-! ## Names and attempts -/

/-- The attempts of a head and its names agree on a name, and no draft has another one. -/
structure NamesAgree (sha256Hex : List UInt8 → String) (name headOid : String) : Prop where
  attempts : ∀ attempt, mainPushRequestAttempt name headOid = some attempt ↔
    1 ≤ attempt ∧ mainPushRequestNames headOid (attempt - 1) = some name
  accepted : isMainPushRequestName name headOid = true ↔
    ∃ index, mainPushRequestNames headOid index = some name
  distinct : ∀ i j, mainPushRequestNames headOid i = some name →
    mainPushRequestNames headOid j = some name → i = j
  drafts : ∀ facts input views mutation,
    startMainPushDraft sha256Hex facts input headOid views = .ok mutation →
      mutation.request.name = name → ∃ index, mainPushRequestNames headOid index = some name

/-- The names of a head are the ones with an attempt, but for numbers with a sign. Drafts have none. -/
theorem namesAgree_iff (sha256Hex : List UInt8 → String) (name headOid : String) :
    NamesAgree sha256Hex name headOid ↔ ¬IsSigned name headOid := by
  constructor
  · rintro h ⟨digits, n, hname, hdenotes, hleast, hgreatest⟩
    have hattempt : mainPushRequestAttempt name headOid = some n :=
      mainPushRequestAttempt_eq_some.mpr (.inr ⟨digits, .inr hname, hdenotes, hleast, hgreatest⟩)
    obtain ⟨-, hnamed⟩ := (h.attempts n).mp hattempt
    exact not_isSigned_of_name hnamed ⟨digits, n, hname, hdenotes, hleast, hgreatest⟩
  · intro hsigned
    have hattempts : ∀ attempt, mainPushRequestAttempt name headOid = some attempt ↔
        1 ≤ attempt ∧ mainPushRequestNames headOid (attempt - 1) = some name := by
      intro attempt
      refine ⟨fun h => name_of_mainPushRequestAttempt h hsigned, ?_⟩
      rintro ⟨hpos, hname⟩
      rw [mainPushRequestAttempt_of_name hname, Nat.sub_add_cancel hpos]
    have haccepted : isMainPushRequestName name headOid = true ↔
        ∃ index, mainPushRequestNames headOid index = some name := by
      rw [isMainPushRequestName, Option.isSome_iff_exists]
      constructor
      · rintro ⟨attempt, h⟩
        exact ⟨_, ((hattempts attempt).mp h).2⟩
      · rintro ⟨index, h⟩
        exact ⟨_, mainPushRequestAttempt_of_name h⟩
    refine ⟨hattempts, haccepted, fun i j => mainPushRequestNames_injective, ?_⟩
    rintro facts input views mutation h rfl
    exact name_of_startMainPushDraft h

/-- The number 2 with a sign is read from a name that is not the second one. -/
theorem signed_name_is_accepted : ¬NamesAgree (fun _ => "") "main-push-222222222222-+2"
    "2222222222222222222222222222222222222222" := by
  intro h
  have hattempt : mainPushRequestAttempt "main-push-222222222222-+2"
      "2222222222222222222222222222222222222222" = some 2 := by
    decide
  obtain ⟨-, hname⟩ := (h.attempts 2).mp hattempt
  revert hname
  decide


end ScopeVcs.Requests
