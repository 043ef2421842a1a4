import Mathlib.Data.List.MinMax
import ScopeVcs.GitHub.Pushes
import ScopeVcs.Lib.Transition

/-! # Workers over the queue of pushes

Any number of workers claim, drop and finish pushes while new targets are queued, requests move in
their stacks and leases run out. Claiming and finishing never change what a row pushes where, so the
order of the rows of a ref only changes when a target is queued.
-/

namespace ScopeVcs.GitHub

open Mutation IntegerColumns Requests Transition

/-! ## What the operations do -/

section Operations

variable {db db' : PushDb}

/-- What a row pushes where, and its place in the queue of its ref. -/
def PushRow.order (row : PushRow) : String × (String × String) × ℕ × Option String :=
  (row.id, row.ref, row.sequence, row.targetOid)

@[simp]
theorem PushRow.claimed_order (now leaseUntil : ℕ) (token : String) (row : PushRow) :
    (row.claimed now leaseUntil token).order = row.order := rfl

@[simp]
theorem PushRow.finished_order (now : ℕ) (outcome : GitHubJobOutcome) (row : PushRow) :
    (row.finished now outcome).order = row.order := by
  cases outcome with
  | succeeded => rfl
  | failed error retryAt => cases retryAt <;> rfl

/-- A push that ended no longer runs. -/
theorem PushRow.finished_runsBeyond (now clock : ℕ) (outcome : GitHubJobOutcome) (row : PushRow) :
    (row.finished now outcome).runsBeyond clock = false := by
  cases outcome with
  | succeeded => rfl
  | failed error retryAt => cases retryAt <;> rfl

theorem PushRow.isUnfinished_of_isDue {row : PushRow} {now : ℕ} (h : row.isDue now = true) :
    row.isUnfinished = true := by
  rw [PushRow.isDue] at h
  rw [PushRow.isUnfinished]
  split at h <;> simp_all

/-- A lease that is held now was held at every earlier moment. -/
theorem PushRow.runsBeyond_of_le {row : PushRow} {now clock : ℕ} (hle : now ≤ clock)
    (h : row.runsBeyond clock = true) : row.runsBeyond now = true := by
  rw [PushRow.runsBeyond] at h ⊢
  split at h
  · rw [decide_eq_true_eq] at h ⊢
    exact lt_of_le_of_lt hle h
  · cases h

/-- A due push that nothing else of its ref stands in the way of. -/
structure PushDb.Runnable (db : PushDb) (now : ℕ) (push : PushRow) : Prop where
  due : push.isDue now = true
  only_running : ∀ other ∈ db.pushes, other.ref = push.ref → other.runsBeyond now = true →
    other.id = push.id
  latest : ∀ other ∈ db.pushes, other.ref = push.ref → other.isUnfinished = true →
    other.sequence ≤ push.sequence

theorem runnable_of_mem_duePushSelection {now limit : ℕ} {ids : Option (List String)}
    {push : PushRow} (h : push ∈ db.duePushSelection now limit ids) :
    push ∈ db.pushes ∧ db.Runnable now push := by
  have hselected := (List.mem_insertionSort _).mp (List.mem_of_mem_take h)
  obtain ⟨hmem, hcond⟩ := Table.mem_select.mp hselected
  simp only [Bool.and_eq_true, PushDb.mayRun, Bool.not_eq_true', Table.any_eq_false] at hcond
  obtain ⟨⟨⟨hdue, -⟩, hothers⟩, -⟩ := hcond
  refine ⟨hmem, hdue, fun other hother href hruns => ?_, fun other hother href hwaits => ?_⟩
  · by_contra hid
    simpa [href, hid, hruns] using hothers other hother
  · by_contra hlater
    have hid : other.id ≠ push.id := by
      intro hid
      rw [Table.eq_of_key_eq hother hmem hid] at hlater
      exact hlater le_rfl
    simpa [href, hid, hwaits, not_le.mp hlater] using hothers other hother

theorem claimDueGithubPushes_eq_ok {token : String} {nowUnix leaseUntil limit : ℕ}
    {claimed : List GitHubPush}
    (h : (claimDueGithubPushes token nowUnix leaseUntil limit).run db = .ok claimed db') :
    ∃ due : List PushRow, (∀ push ∈ due, push ∈ db.pushes ∧ db.Runnable nowUnix push) ∧
      db' = db.claim (due.map PushRow.id) nowUnix leaseUntil token := by
  simp only [claimDueGithubPushes, transaction_eq_ok, bind_eq_ok, check_eq_ok, get_eq_ok,
    modify_eq_ok, u64ToI64_eq_ok] at h
  obtain ⟨now, _, ⟨⟨-, rfl⟩, rfl⟩, size, _, ⟨-, rfl⟩, _, _, ⟨rfl, rfl⟩, lease, _, ⟨⟨-, rfl⟩, rfl⟩, _, _,
    ⟨-, rfl⟩, _, _, rfl, -, rfl⟩ := h
  exact ⟨_, fun push hpush => runnable_of_mem_duePushSelection hpush, rfl⟩

theorem finishGithubPush_eq_ok {followUps : PushFollowUps} {id token : String}
    {outcome : GitHubJobOutcome} {nowUnix : ℕ} {finished : Option GitHubPush}
    (h : (finishGithubPush followUps id token outcome nowUnix).run db = .ok finished db') :
    db' = db ∨ db' = db.finish id token nowUnix outcome := by
  simp only [finishGithubPush, transaction_eq_ok, bind_eq_ok, check_eq_ok, get_eq_ok,
    u64ToI64_eq_ok] at h
  obtain ⟨now, _, ⟨⟨-, rfl⟩, rfl⟩, retryAt, _, ⟨-, rfl⟩, _, _, ⟨rfl, rfl⟩, h⟩ := h
  split at h
  · cases h
    exact .inl rfl
  · split at h
    · cases h
      exact .inl rfl
    · simp only [bind_eq_ok, check_eq_ok, modify_eq_ok] at h
      obtain ⟨_, _, rfl, push, _, ⟨-, rfl⟩, _, _, ⟨-, rfl⟩, h⟩ := h
      cases h
      exact .inr rfl

theorem queueGithubPush_eq_ok {args : QueueArgs} {id : String}
    (h : (queueGithubPush args).run db = .ok id db') :
    db' = db.queue args ∧
      (db.pushes.delete fun row => row.ref = args.ref && row.isReplaceable args.nowUnix).find?
        args.pushId = none := by
  simp only [queueGithubPush, transaction_eq_ok, bind_eq_ok, check_eq_ok, modify_eq_ok,
    rejectIf_eq_ok] at h
  obtain ⟨_, _, ⟨-, rfl⟩, _, _, ⟨-, rfl⟩, _, _, ⟨-, rfl⟩, _, _, ⟨-, rfl⟩, _, _, ⟨-, rfl⟩, _, _,
    ⟨hfresh, rfl⟩, _, _, rfl, h⟩ := h
  cases h
  exact ⟨rfl, Option.not_isSome_iff_eq_none.mp hfresh⟩

/-- A newly queued target comes after every row of its ref. -/
theorem PushDb.sequence_lt_nextSequence {row : PushRow} {repoId gitRef : String}
    (hrow : row ∈ db.pushes) (href : row.ref = (repoId, gitRef)) :
    row.sequence < db.nextSequence repoId gitRef := by
  rw [PushDb.nextSequence, Nat.lt_succ_iff]
  have hmem : row.sequence ∈
      (db.pushes.select fun row => row.ref = (repoId, gitRef)).map PushRow.sequence :=
    List.mem_map_of_mem (Table.mem_select.mpr ⟨hrow, decide_eq_true href⟩)
  exact List.le_max_of_le' 0 hmem le_rfl

theorem PushDb.mem_queue {args : QueueArgs} {row : PushRow}
    (hfresh : (db.pushes.delete fun row => row.ref = args.ref &&
      row.isReplaceable args.nowUnix).find? args.pushId = none) :
    row ∈ (db.queue args).pushes ↔
      (row ∈ db.pushes ∧ (row.ref = args.ref → row.runsBeyond args.nowUnix = true)) ∨
        row = args.row (db.nextSequence args.repoId args.branch.gitRef) := by
  rw [PushDb.queue, Table.mem_insert hfresh, Table.mem_delete]
  simp [PushRow.isReplaceable]

end Operations

/-! ## Workers -/

/-- The queue under its workers. -/
structure World where
  db : PushDb
  clock : ℕ
  /-- The id and the target of the row queued last for a ref, unless its claim's holder dropped it. -/
  newest : String × String → Option (String × Option String)

/-- What an actor does next. A transaction carries the time its caller read off the clock. -/
inductive Action where
  | tick (seconds : ℕ)
  | setStackStatus (requestId : String) (status : Option RequestStackStatus)
  | queue (args : QueueArgs)
  | claim (claimToken : String) (nowUnix leaseUntilUnix limit : ℕ)
  | finish (followUps : PushFollowUps) (id claimToken : String) (outcome : GitHubJobOutcome)
    (nowUnix : ℕ)
  | dropSuperseded (id claimToken : String)
  | dropStale (id claimToken : String)

/-- The claim an action is taken under. -/
def Action.holder : Action → Option (String × String)
  | .finish _ id claimToken _ _ | .dropSuperseded id claimToken | .dropStale id claimToken =>
    some (id, claimToken)
  | _ => none

namespace World

def initial (clock : ℕ) (stackStatus : String → Option RequestStackStatus) : World :=
  ⟨⟨∅, stackStatus⟩, clock, fun _ => none⟩

/-- Runs a transaction; one that fails has no effect. -/
def run {α : Type} (w : World) (x : PushTx α) : Option World :=
  match x.run w.db with
  | .ok _ db => some { w with db }
  | .error _ _ => none

/-- Calls with a time read off the clock, at this moment or earlier. -/
def now (w : World) (nowUnix : ℕ) (next : Option World) : Option World :=
  if nowUnix ≤ w.clock then next else none

/-- The record of the newest targets after a holder dropped its row. -/
def forgetDropped (w : World) (id claimToken : String) :
    String × String → Option (String × Option String) := fun ref =>
  (w.newest ref).filter fun newest =>
    !(newest.1 = id && w.db.pushes.any fun row => row.isHeldBy id claimToken)

def act (w : World) : Action → Option World
  | .tick seconds => some { w with clock := w.clock + seconds }
  | .setStackStatus requestId status =>
    some { w with
      db := { w.db with stackStatus := Function.update w.db.stackStatus requestId status } }
  | .queue args =>
    w.now args.nowUnix <| (w.run (queueGithubPush args)).map fun w' =>
      { w' with newest := Function.update w.newest args.ref (some (args.pushId, args.targetOid)) }
  | .claim claimToken nowUnix leaseUntilUnix limit =>
    w.now nowUnix <| w.run (claimDueGithubPushes claimToken nowUnix leaseUntilUnix limit)
  | .finish followUps id claimToken outcome nowUnix =>
    w.now nowUnix <| w.run (finishGithubPush followUps id claimToken outcome nowUnix)
  | .dropSuperseded id claimToken => w.run (dropSupersededGithubPush id claimToken)
  | .dropStale id claimToken =>
    (w.run (dropStaleGithubPush id claimToken)).map fun w' =>
      { w' with newest := w.forgetDropped id claimToken }

/-- The worlds some interleaving of the actors leads to, from an empty queue. -/
def Reachable (w : World) : Prop :=
  Transition.Reachable (fun w => ∃ clock stackStatus, w = initial clock stackStatus)
    (fun w w' => ∃ a, w.act a = some w') w

variable {w w' : World}

theorem now_eq_some {nowUnix : ℕ} {next : Option World} :
    w.now nowUnix next = some w' ↔ nowUnix ≤ w.clock ∧ next = some w' := by
  simp [now]

theorem run_eq_some {α : Type} {x : PushTx α} :
    w.run x = some w' ↔ ∃ a db, x.run w.db = .ok a db ∧ w' = { w with db } := by
  rw [run]
  split
  · next a db hok =>
    simp only [hok, Option.some.injEq, EStateM.Result.ok.injEq]
    exact ⟨fun h => ⟨a, db, ⟨rfl, rfl⟩, h.symm⟩, fun ⟨_, _, ⟨_, rfl⟩, h⟩ => h.symm⟩
  · next herror => simp [herror]

/-! ## What one action does to the rows -/

/-- The rows after an action: those of `queue` but one were there, and the others are the rows
before it or their claimed and finished versions. -/
inductive Change (w w' : World) : Action → Prop where
  | tick {seconds : ℕ} (hw' : w' = { w with clock := w.clock + seconds }) :
      Change w w' (.tick seconds)
  | setStackStatus {requestId : String} {status : Option RequestStackStatus}
      (hpushes : w'.db.pushes = w.db.pushes) (hclock : w'.clock = w.clock)
      (hnewest : w'.newest = w.newest) : Change w w' (.setStackStatus requestId status)
  | queue {args : QueueArgs} (hnow : args.nowUnix ≤ w.clock)
      (hfresh : (w.db.pushes.delete fun row => row.ref = args.ref &&
        row.isReplaceable args.nowUnix).find? args.pushId = none)
      (hw' : w' = { w with
        db := w.db.queue args,
        newest := Function.update w.newest args.ref (some (args.pushId, args.targetOid)) }) :
      Change w w' (.queue args)
  | claim {token : String} {nowUnix leaseUntil limit : ℕ} (due : List PushRow)
      (hnow : nowUnix ≤ w.clock)
      (hdue : ∀ push ∈ due, push ∈ w.db.pushes ∧ w.db.Runnable nowUnix push)
      (hw' : w' = { w with db := w.db.claim (due.map PushRow.id) nowUnix leaseUntil token }) :
      Change w w' (.claim token nowUnix leaseUntil limit)
  | finishNone {followUps : PushFollowUps} {id token : String} {outcome : GitHubJobOutcome}
      {nowUnix : ℕ} (hw' : w' = w) : Change w w' (.finish followUps id token outcome nowUnix)
  | finish {followUps : PushFollowUps} {id token : String} {outcome : GitHubJobOutcome}
      {nowUnix : ℕ} (hw' : w' = { w with db := w.db.finish id token nowUnix outcome }) :
      Change w w' (.finish followUps id token outcome nowUnix)
  | dropSuperseded {id token : String}
      (hw' : w' = { w with db := w.db.dropSuperseded id token }) :
      Change w w' (.dropSuperseded id token)
  | dropStale {id token : String}
      (hw' : w' = { w with db := w.db.dropStale id token, newest := w.forgetDropped id token }) :
      Change w w' (.dropStale id token)

theorem act_change {a : Action} (h : w.act a = some w') : Change w w' a := by
  cases a with
  | tick seconds =>
    cases h
    exact .tick rfl
  | setStackStatus requestId status =>
    cases h
    exact .setStackStatus rfl rfl rfl
  | queue args =>
    obtain ⟨hnow, hrun⟩ := now_eq_some.mp h
    obtain ⟨w₁, hw₁, rfl⟩ := Option.map_eq_some_iff.mp hrun
    obtain ⟨id, db, hok, rfl⟩ := run_eq_some.mp hw₁
    obtain ⟨rfl, hfresh⟩ := queueGithubPush_eq_ok hok
    exact .queue hnow hfresh rfl
  | claim token nowUnix leaseUntil limit =>
    obtain ⟨hnow, hrun⟩ := now_eq_some.mp h
    obtain ⟨claimed, db, hok, rfl⟩ := run_eq_some.mp hrun
    obtain ⟨due, hdue, rfl⟩ := claimDueGithubPushes_eq_ok hok
    exact .claim due hnow hdue rfl
  | finish followUps id token outcome nowUnix =>
    obtain ⟨-, hrun⟩ := now_eq_some.mp h
    obtain ⟨finished, db, hok, rfl⟩ := run_eq_some.mp hrun
    rcases finishGithubPush_eq_ok hok with rfl | rfl
    · exact .finishNone rfl
    · exact .finish rfl
  | dropSuperseded id token =>
    rw [act] at h
    obtain ⟨_, db, hok, rfl⟩ := run_eq_some.mp h
    cases modify_eq_ok.mp hok
    exact .dropSuperseded rfl
  | dropStale id token =>
    rw [act] at h
    obtain ⟨w₁, hw₁, rfl⟩ := Option.map_eq_some_iff.mp h
    obtain ⟨_, db, hok, rfl⟩ := run_eq_some.mp hw₁
    cases modify_eq_ok.mp hok
    exact .dropStale rfl

/-! ## The invariant -/

/-- The rows of a ref are in one order, at most one of them runs under a lease, and the target
queued last is the last of them. -/
structure Inv (w : World) : Prop where
  exclusive : ∀ row ∈ w.db.pushes, ∀ row' ∈ w.db.pushes, row.ref = row'.ref →
    row.runsBeyond w.clock = true → row'.runsBeyond w.clock = true → row = row'
  distinct : ∀ row ∈ w.db.pushes, ∀ row' ∈ w.db.pushes, row.ref = row'.ref →
    row.sequence = row'.sequence → row = row'
  newest : ∀ ref id target, w.newest ref = some (id, target) → ∃ row ∈ w.db.pushes,
    row.ref = ref ∧ row.id = id ∧ row.targetOid = target ∧
      ∀ row' ∈ w.db.pushes, row'.ref = ref → row'.sequence ≤ row.sequence

theorem PushRow.order_eq {row row' : PushRow} : row.order = row'.order ↔
    row.id = row'.id ∧ row.ref = row'.ref ∧ row.sequence = row'.sequence ∧
      row.targetOid = row'.targetOid := by
  simp [PushRow.order]

/-- Every row after the step is a row before it, in its place in the queue. -/
def Keeps (w w' : World) : Prop :=
  ∀ row ∈ w'.db.pushes, ∃ old ∈ w.db.pushes, old.order = row.order

/-- No row starts to run, or to run for longer. -/
def StartsNone (w w' : World) : Prop :=
  ∀ row ∈ w'.db.pushes, row.runsBeyond w'.clock = true →
    row ∈ w.db.pushes ∧ row.runsBeyond w.clock = true

theorem Inv.exclusive_of_startsNone (hinv : w.Inv) (h : StartsNone w w') :
    ∀ row ∈ w'.db.pushes, ∀ row' ∈ w'.db.pushes, row.ref = row'.ref →
      row.runsBeyond w'.clock = true → row'.runsBeyond w'.clock = true → row = row' := by
  intro row hrow row' hrow' href hruns hruns'
  obtain ⟨hold, hlive⟩ := h row hrow hruns
  obtain ⟨hold', hlive'⟩ := h row' hrow' hruns'
  exact hinv.exclusive row hold row' hold' href hlive hlive'

/-- The invariant survives a step that keeps the places of the rows and each newest row. -/
theorem Inv.of_keeps (hinv : w.Inv) (hkeeps : Keeps w w')
    (hexclusive : ∀ row ∈ w'.db.pushes, ∀ row' ∈ w'.db.pushes, row.ref = row'.ref →
      row.runsBeyond w'.clock = true → row'.runsBeyond w'.clock = true → row = row')
    (hnewest : ∀ ref newest, w'.newest ref = some newest → w.newest ref = some newest ∧
      ∀ row ∈ w.db.pushes, row.id = newest.1 → w.db.existsLater row = false →
        ∃ row' ∈ w'.db.pushes, row'.order = row.order) : w'.Inv where
  exclusive := hexclusive
  distinct := by
    intro row hrow row' hrow' href hseq
    obtain ⟨old, hold, horder⟩ := hkeeps row hrow
    obtain ⟨old', hold', horder'⟩ := hkeeps row' hrow'
    obtain ⟨hid, href₁, hseq₁, -⟩ := PushRow.order_eq.mp horder
    obtain ⟨hid', href₁', hseq₁', -⟩ := PushRow.order_eq.mp horder'
    have hsame : old = old' := hinv.distinct old hold old' hold' (by rw [href₁, href, href₁'])
      (by rw [hseq₁, hseq, hseq₁'])
    exact Table.eq_of_key_eq hrow hrow' (by rw [← hid, ← hid', hsame])
  newest := by
    intro ref id target h
    obtain ⟨hbefore, hstays⟩ := hnewest ref _ h
    obtain ⟨row, hrow, href, hid, htarget, hlast⟩ := hinv.newest ref id target hbefore
    have hnone : w.db.existsLater row = false := by
      rw [PushDb.existsLater, Table.any_eq_false]
      intro later hlater
      by_cases hsame : later.ref = row.ref
      · simpa [hsame] using hlast later hlater (hsame.trans href)
      · simp [hsame]
    obtain ⟨row', hrow', horder⟩ := hstays row hrow hid hnone
    obtain ⟨hid', href', hseq', htarget'⟩ := PushRow.order_eq.mp horder
    refine ⟨row', hrow', href'.trans href, hid'.trans hid, htarget'.trans htarget, ?_⟩
    intro other hother hsame
    obtain ⟨old, hold, horder₁⟩ := hkeeps other hother
    obtain ⟨-, href₁, hseq₁, -⟩ := PushRow.order_eq.mp horder₁
    rw [hseq', ← hseq₁]
    exact hlast old hold (href₁.trans hsame)

section Steps

variable {ids : List String} {now leaseUntil : ℕ} {id token : String} {outcome : GitHubJobOutcome}

theorem mem_claim {db : PushDb} {row : PushRow} :
    row ∈ (db.claim ids now leaseUntil token).pushes ↔ ∃ old ∈ db.pushes,
      row = if ids.contains old.id then old.claimed now leaseUntil token else old :=
  Table.mem_update (by intro _; rfl)

theorem mem_finish {db : PushDb} {row : PushRow} :
    row ∈ (db.finish id token now outcome).pushes ↔ ∃ old ∈ db.pushes,
      row = if old.isHeldBy id token then old.finished now outcome else old :=
  Table.mem_update (PushRow.finished_id now outcome)

/-- At most one row of a ref runs after a claim: a claimed row was the last unfinished one, and no
other ran. -/
theorem Inv.exclusive_of_claim (hinv : w.Inv) {due : List PushRow} (hnow : now ≤ w.clock)
    (hdue : ∀ push ∈ due, push ∈ w.db.pushes ∧ w.db.Runnable now push) :
    ∀ row ∈ (w.db.claim (due.map PushRow.id) now leaseUntil token).pushes,
    ∀ row' ∈ (w.db.claim (due.map PushRow.id) now leaseUntil token).pushes, row.ref = row'.ref →
      row.runsBeyond w.clock = true → row'.runsBeyond w.clock = true → row = row' := by
  have hrunnable : ∀ old ∈ w.db.pushes, (due.map PushRow.id).contains old.id = true →
      w.db.Runnable now old := by
    intro old hold hcontains
    obtain ⟨push, hpush, hid⟩ := List.mem_map.mp (List.contains_iff_mem.mp hcontains)
    obtain ⟨hmem, hrun⟩ := hdue push hpush
    rwa [Table.eq_of_key_eq hold hmem hid.symm]
  -- a row that ran already stands in the way of a claim
  have hblocks : ∀ old ∈ w.db.pushes, ∀ other ∈ w.db.pushes, other.ref = old.ref →
      w.db.Runnable now old → other.runsBeyond w.clock = true → other = old := by
    intro old hold other hother href hrun hlive
    exact Table.eq_of_key_eq hother hold
      (hrun.only_running other hother href (PushRow.runsBeyond_of_le hnow hlive))
  intro row hrow row' hrow' href hruns hruns'
  obtain ⟨old, hold, rfl⟩ := mem_claim.mp hrow
  obtain ⟨old', hold', rfl⟩ := mem_claim.mp hrow'
  have href₁ : old.ref = old'.ref := by
    split at href <;> split at href <;> exact href
  suffices hsame : old = old' by rw [hsame]
  by_cases hclaimed : (due.map PushRow.id).contains old.id = true
  · have hrun := hrunnable old hold hclaimed
    by_cases hclaimed' : (due.map PushRow.id).contains old'.id = true
    · have hrun' := hrunnable old' hold' hclaimed'
      refine hinv.distinct old hold old' hold' href₁ (le_antisymm ?_ ?_)
      · exact hrun'.latest old hold href₁ (PushRow.isUnfinished_of_isDue hrun.due)
      · exact hrun.latest old' hold' href₁.symm (PushRow.isUnfinished_of_isDue hrun'.due)
    · rw [if_neg hclaimed'] at hruns'
      exact (hblocks old hold old' hold' href₁.symm hrun hruns').symm
  · rw [if_neg hclaimed] at hruns
    by_cases hclaimed' : (due.map PushRow.id).contains old'.id = true
    · exact hblocks old' hold' old hold href₁ (hrunnable old' hold' hclaimed') hruns
    · rw [if_neg hclaimed'] at hruns'
      exact hinv.exclusive old hold old' hold' href₁ hruns hruns'

theorem Inv.claim (hinv : w.Inv) {due : List PushRow} (hnow : now ≤ w.clock)
    (hdue : ∀ push ∈ due, push ∈ w.db.pushes ∧ w.db.Runnable now push) :
    Inv { w with db := w.db.claim (due.map PushRow.id) now leaseUntil token } := by
  refine hinv.of_keeps ?_ (hinv.exclusive_of_claim hnow hdue) fun ref newest h => ⟨h, ?_⟩
  · intro row hrow
    obtain ⟨old, hold, rfl⟩ := mem_claim.mp hrow
    refine ⟨old, hold, ?_⟩
    split <;> rfl
  · intro row hrow _ _
    refine ⟨_, mem_claim.mpr ⟨row, hrow, rfl⟩, ?_⟩
    split <;> rfl

theorem Inv.finish (hinv : w.Inv) : Inv { w with db := w.db.finish id token now outcome } := by
  refine hinv.of_keeps ?_ (hinv.exclusive_of_startsNone ?_) fun ref newest h => ⟨h, ?_⟩
  · intro row hrow
    obtain ⟨old, hold, rfl⟩ := mem_finish.mp hrow
    refine ⟨old, hold, ?_⟩
    split
    · exact (PushRow.finished_order ..).symm
    · rfl
  · intro row hrow hruns
    obtain ⟨old, hold, rfl⟩ := mem_finish.mp hrow
    split at hruns
    · rw [PushRow.finished_runsBeyond] at hruns
      cases hruns
    · next hheld =>
      rw [if_neg hheld]
      exact ⟨hold, hruns⟩
  · intro row hrow _ _
    refine ⟨_, mem_finish.mpr ⟨row, hrow, rfl⟩, ?_⟩
    split
    · exact PushRow.finished_order ..
    · rfl

/-- Rows may be dropped that are not the newest of their ref, or whose drop is recorded. -/
theorem Inv.drop (hinv : w.Inv) {drops : PushRow → Bool}
    {newest' : String × String → Option (String × Option String)}
    (hnewest : ∀ ref newest, newest' ref = some newest → w.newest ref = some newest ∧
      ∀ row ∈ w.db.pushes, row.id = newest.1 → w.db.existsLater row = false → drops row = false) :
    Inv { w with db := { w.db with pushes := w.db.pushes.delete drops }, newest := newest' } := by
  refine hinv.of_keeps ?_ (hinv.exclusive_of_startsNone ?_) fun ref newest h => ?_
  · exact fun row hrow => ⟨row, (Table.mem_delete.mp hrow).1, rfl⟩
  · exact fun row hrow hruns => ⟨(Table.mem_delete.mp hrow).1, hruns⟩
  · obtain ⟨hbefore, hstays⟩ := hnewest ref newest h
    exact ⟨hbefore, fun row hrow hid hlast =>
      ⟨row, Table.mem_delete.mpr ⟨hrow, hstays row hrow hid hlast⟩, rfl⟩⟩

theorem Inv.queue (hinv : w.Inv) {args : QueueArgs}
    (hfresh : (w.db.pushes.delete fun row => row.ref = args.ref &&
      row.isReplaceable args.nowUnix).find? args.pushId = none) :
    Inv { w with
      db := w.db.queue args
      newest := Function.update w.newest args.ref (some (args.pushId, args.targetOid)) } where
  exclusive := by
    intro row hrow row' hrow' href hruns hruns'
    rcases (PushDb.mem_queue hfresh).mp hrow with ⟨hold, -⟩ | rfl
    · rcases (PushDb.mem_queue hfresh).mp hrow' with ⟨hold', -⟩ | rfl
      · exact hinv.exclusive row hold row' hold' href hruns hruns'
      · cases hruns'
    · cases hruns
  distinct := by
    intro row hrow row' hrow' href hseq
    rcases (PushDb.mem_queue hfresh).mp hrow with ⟨hold, -⟩ | rfl
    · rcases (PushDb.mem_queue hfresh).mp hrow' with ⟨hold', -⟩ | rfl
      · exact hinv.distinct row hold row' hold' href hseq
      · exact absurd hseq (PushDb.sequence_lt_nextSequence hold href).ne
    · rcases (PushDb.mem_queue hfresh).mp hrow' with ⟨hold', -⟩ | rfl
      · exact absurd hseq.symm (PushDb.sequence_lt_nextSequence hold' href.symm).ne
      · rfl
  newest := by
    intro ref id target h
    by_cases href : ref = args.ref
    · subst href
      simp only [Function.update_self, Option.some.injEq, Prod.mk.injEq] at h
      obtain ⟨rfl, rfl⟩ := h
      refine ⟨_, (PushDb.mem_queue hfresh).mpr (.inr rfl), rfl, rfl, rfl, ?_⟩
      intro row hrow hsame
      rcases (PushDb.mem_queue hfresh).mp hrow with ⟨hold, -⟩ | rfl
      · exact (PushDb.sequence_lt_nextSequence hold hsame).le
      · exact le_rfl
    · simp only [Function.update_of_ne href] at h
      obtain ⟨row, hrow, hsame, hid, htarget, hlast⟩ := hinv.newest ref id target h
      refine ⟨row, (PushDb.mem_queue hfresh).mpr (.inl ⟨hrow, ?_⟩), hsame, hid, htarget, ?_⟩
      · exact fun hargs => absurd (hsame.symm.trans hargs) href
      · intro row' hrow' hsame'
        rcases (PushDb.mem_queue hfresh).mp hrow' with ⟨hold, -⟩ | rfl
        · exact hlast row' hold hsame'
        · exact absurd hsame'.symm href

end Steps

theorem Inv.step (hinv : w.Inv) {a : Action} (h : Change w w' a) : w'.Inv := by
  cases h with
  | tick hw' =>
    subst hw'
    refine ⟨hinv.exclusive_of_startsNone fun row hrow hruns => ⟨hrow, ?_⟩, hinv.distinct,
      hinv.newest⟩
    exact PushRow.runsBeyond_of_le (Nat.le_add_right _ _) hruns
  | setStackStatus hpushes hclock hnewest =>
    obtain ⟨hexclusive, hdistinct, hnew⟩ := hinv
    exact ⟨hpushes ▸ hclock ▸ hexclusive, hpushes ▸ hdistinct, hpushes ▸ hnewest ▸ hnew⟩
  | queue hnow hfresh hw' => exact hw' ▸ hinv.queue hfresh
  | claim due hnow hdue hw' => exact hw' ▸ hinv.claim hnow hdue
  | finishNone hw' => exact hw' ▸ hinv
  | finish hw' => exact hw' ▸ hinv.finish
  | dropSuperseded hw' =>
    refine hw' ▸ hinv.drop fun ref newest h => ⟨h, fun row _ _ hlast => ?_⟩
    rw [hlast, Bool.and_false]
  | dropStale hw' =>
    refine hw' ▸ hinv.drop fun ref newest h => ?_
    obtain ⟨hbefore, hother⟩ := Option.filter_eq_some_iff.mp h
    refine ⟨hbefore, fun row hrow hid _ => ?_⟩
    by_contra hheld
    rw [Bool.not_eq_false] at hheld
    have hany := Table.any_eq_true.mpr ⟨row, hrow, hheld⟩
    simp only [PushRow.isHeldBy, Bool.and_eq_true, decide_eq_true_eq] at hheld
    simp [hany, ← hid, hheld.1] at hother

/-- The invariant holds in every world an interleaving leads to. -/
theorem Reachable.inv (h : Reachable w) : w.Inv := by
  refine Transition.Reachable.invariant Inv h ?_ ?_
  · rintro _ ⟨clock, stackStatus, rfl⟩
    exact ⟨fun row hrow => absurd hrow (Table.notMem_empty row),
      fun row hrow => absurd hrow (Table.notMem_empty row), fun ref id target h => by cases h⟩
  · rintro w w' - hinv ⟨a, ha⟩
    exact hinv.step (act_change ha)

/-! ## The queue is safe -/

/-- What one action may do to the rows. -/
structure StepSafe (w : World) (a : Action) (w' : World) : Prop where
  /-- A target is queued behind every row of its ref. -/
  queued : ∀ args, a = .queue args → ∃ new ∈ w'.db.pushes, new.id = args.pushId ∧
    new.ref = args.ref ∧ new.targetOid = args.targetOid ∧ new.state = .queued ∧
      ∀ row ∈ w.db.pushes, row.ref = args.ref → row.sequence < new.sequence
  /-- Only rows that no unfinished row comes after are claimed. -/
  claimed : ∀ token now leaseUntil limit, a = .claim token now leaseUntil limit →
    ∀ row ∈ w'.db.pushes, row ∉ w.db.pushes → ∃ old ∈ w.db.pushes, old.id = row.id ∧
      row.isClaimedUnder token = true ∧ ∀ other ∈ w.db.pushes, other.ref = old.ref →
        other.isUnfinished = true → other.sequence ≤ old.sequence
  /-- A row is finished or dropped only by the holder of its claim. -/
  held : ∀ id token, a.holder = some (id, token) →
    (∀ row ∈ w.db.pushes, row ∉ w'.db.pushes → row.isHeldBy id token = true) ∧
    ∀ row ∈ w'.db.pushes, row ∉ w.db.pushes →
      ∃ old ∈ w.db.pushes, old.id = row.id ∧ old.isHeldBy id token = true
  /-- The target queued last stays until another is queued for its ref or its holder drops it. -/
  newest : ∀ ref id target, w.newest ref = some (id, target) →
    (∃ row ∈ w'.db.pushes, row.ref = ref ∧ row.id = id ∧ row.targetOid = target) ∨
    (∃ args, a = .queue args ∧ args.ref = ref) ∨
    ∃ token, a = .dropStale id token ∧ ∃ row ∈ w.db.pushes, row.isHeldBy id token = true

theorem Change.queued {args : QueueArgs} (h : Change w w' (.queue args)) :
    ∃ new ∈ w'.db.pushes, new.id = args.pushId ∧ new.ref = args.ref ∧
      new.targetOid = args.targetOid ∧ new.state = .queued ∧
      ∀ row ∈ w.db.pushes, row.ref = args.ref → row.sequence < new.sequence := by
  cases h with
  | queue hnow hfresh hw' =>
    subst hw'
    exact ⟨_, (PushDb.mem_queue hfresh).mpr (.inr rfl), rfl, rfl, rfl, rfl,
      fun row hrow href => PushDb.sequence_lt_nextSequence hrow href⟩

theorem Change.claimed {token : String} {now leaseUntil limit : ℕ}
    (h : Change w w' (.claim token now leaseUntil limit)) {row : PushRow}
    (hrow : row ∈ w'.db.pushes) (hnew : row ∉ w.db.pushes) :
    ∃ old ∈ w.db.pushes, old.id = row.id ∧ row.isClaimedUnder token = true ∧
      ∀ other ∈ w.db.pushes, other.ref = old.ref → other.isUnfinished = true →
        other.sequence ≤ old.sequence := by
  cases h with
  | claim due hnow hdue hw' =>
    subst hw'
    obtain ⟨old, hold, rfl⟩ := mem_claim.mp hrow
    split at hnew
    · next hclaimed =>
      obtain ⟨push, hpush, hid⟩ := List.mem_map.mp (List.contains_iff_mem.mp hclaimed)
      obtain ⟨hmem, hrun⟩ := hdue push hpush
      rw [if_pos hclaimed]
      refine ⟨old, hold, rfl, decide_eq_true rfl, ?_⟩
      rw [Table.eq_of_key_eq hold hmem hid.symm]
      exact hrun.latest
    · exact absurd hold hnew

theorem Change.held {a : Action} {id token : String} (h : Change w w' a)
    (hholder : a.holder = some (id, token)) :
    (∀ row ∈ w.db.pushes, row ∉ w'.db.pushes → row.isHeldBy id token = true) ∧
    ∀ row ∈ w'.db.pushes, row ∉ w.db.pushes →
      ∃ old ∈ w.db.pushes, old.id = row.id ∧ old.isHeldBy id token = true := by
  have hdrop : ∀ {drops : PushRow → Bool}, (∀ row, drops row = true → row.isHeldBy id token = true) →
      (∀ row ∈ w.db.pushes, row ∉ w.db.pushes.delete drops → row.isHeldBy id token = true) ∧
      ∀ row ∈ w.db.pushes.delete drops, row ∉ w.db.pushes →
        ∃ old ∈ w.db.pushes, old.id = row.id ∧ old.isHeldBy id token = true := by
    intro drops hdrops
    refine ⟨fun row hrow hgone => ?_, fun row hrow hnew => ?_⟩
    · apply hdrops
      by_contra hkept
      exact hgone (Table.mem_delete.mpr ⟨hrow, eq_false_of_ne_true hkept⟩)
    · exact absurd (Table.mem_delete.mp hrow).1 hnew
  cases h with
  | tick | setStackStatus | queue | claim => cases hholder
  | finishNone hw' =>
    subst hw'
    exact ⟨fun row hrow hgone => absurd hrow hgone, fun row hrow hnew => absurd hrow hnew⟩
  | finish hw' =>
    subst hw'
    cases hholder
    refine ⟨fun row hrow hgone => ?_, fun row hrow hnew => ?_⟩
    · by_contra hkept
      exact hgone (mem_finish.mpr ⟨row, hrow, (if_neg hkept).symm⟩)
    · obtain ⟨old, hold, rfl⟩ := mem_finish.mp hrow
      split at hnew
      · next hheld =>
        rw [if_pos hheld]
        exact ⟨old, hold, (PushRow.finished_id ..).symm, hheld⟩
      · exact absurd hold hnew
  | dropSuperseded hw' =>
    subst hw'
    cases hholder
    exact hdrop fun row hrow => (Bool.and_eq_true_iff.mp hrow).1
  | dropStale hw' =>
    subst hw'
    cases hholder
    exact hdrop fun row hrow => hrow

theorem Inv.newest_of_change (hinv : w.Inv) {a : Action} (h : Change w w' a)
    {ref : String × String} {id : String} {target : Option String}
    (hnewest : w.newest ref = some (id, target)) :
    (∃ row ∈ w'.db.pushes, row.ref = ref ∧ row.id = id ∧ row.targetOid = target) ∨
    (∃ args, a = .queue args ∧ args.ref = ref) ∨
    ∃ token, a = .dropStale id token ∧ ∃ row ∈ w.db.pushes, row.isHeldBy id token = true := by
  by_cases hstays : w'.newest ref = some (id, target)
  · obtain ⟨row, hrow, href, hid, htarget, -⟩ := (hinv.step h).newest ref id target hstays
    exact .inl ⟨row, hrow, href, hid, htarget⟩
  · right
    cases h with
    | tick hw' | claim _ _ _ hw' | finishNone hw' | finish hw' | dropSuperseded hw' =>
      exact absurd (hw' ▸ hnewest) hstays
    | setStackStatus hpushes hclock hsame => exact absurd (hsame ▸ hnewest) hstays
    | @queue args hnow hfresh hw' =>
      subst hw'
      refine .inl ⟨args, rfl, ?_⟩
      by_contra hother
      exact hstays (by simpa [Function.update_of_ne (Ne.symm hother)] using hnewest)
    | @dropStale dropped token hw' =>
      subst hw'
      have hgone : id = dropped ∧ w.db.pushes.any (fun row => row.isHeldBy dropped token) = true := by
        simpa [forgetDropped, hnewest] using hstays
      obtain ⟨rfl, hany⟩ := hgone
      exact .inr ⟨token, rfl, Table.any_eq_true.mp hany⟩

theorem githubPushStanding_eq_current {db : PushDb} {now : ℕ} {id token : String}
    (h : githubPushStanding db now id token = .current) :
    ∃ row ∈ db.pushes, row.isHeldBy id token = true ∧ row.runsBeyond now = true ∧
      ∀ later ∈ db.pushes, later.ref = row.ref → later.sequence ≤ row.sequence := by
  rw [githubPushStanding] at h
  split at h
  · cases h
  · next row hfound =>
    obtain ⟨hfind, hcond⟩ := Option.filter_eq_some_iff.mp hfound
    obtain ⟨hrow, hid⟩ := Table.find?_eq_some.mp hfind
    obtain ⟨hclaimed, hruns⟩ := Bool.and_eq_true_iff.mp hcond
    split at h
    · cases h
    · next hlast =>
      rw [Bool.not_eq_true, PushDb.existsLater, Table.any_eq_false] at hlast
      have hheld : row.isHeldBy id token = true := by
        rw [PushRow.isHeldBy, hclaimed, Bool.and_true, decide_eq_true_eq]
        exact hid
      refine ⟨row, hrow, hheld, hruns, fun later hlater href => ?_⟩
      have hnot := hlast later hlater
      rw [href, decide_eq_true rfl, Bool.true_and, decide_eq_false_iff_not] at hnot
      exact not_lt.mp hnot

/-- In every interleaving at most one push of a ref runs under a lease, the rows of a ref are in one
order, only the push that nothing comes after is current, the target queued last is stored, and
every action keeps to its own rows. -/
theorem pushes_safe (h : Reachable w) :
    (∀ row ∈ w.db.pushes, ∀ row' ∈ w.db.pushes, row.ref = row'.ref →
      row.runsBeyond w.clock = true → row'.runsBeyond w.clock = true → row = row') ∧
    (∀ row ∈ w.db.pushes, ∀ row' ∈ w.db.pushes, row.ref = row'.ref →
      row.sequence = row'.sequence → row = row') ∧
    (∀ id token, githubPushStanding w.db w.clock id token = .current →
      ∃ row ∈ w.db.pushes, row.isHeldBy id token = true ∧ row.runsBeyond w.clock = true ∧
        ∀ later ∈ w.db.pushes, later.ref = row.ref → later.sequence ≤ row.sequence) ∧
    (∀ ref id target, w.newest ref = some (id, target) →
      ∃ row ∈ w.db.pushes, row.ref = ref ∧ row.id = id ∧ row.targetOid = target) ∧
    ∀ a w', w.act a = some w' → StepSafe w a w' := by
  have hinv := h.inv
  refine ⟨hinv.exclusive, hinv.distinct, fun id token => githubPushStanding_eq_current,
    fun ref id target hnewest => ?_, fun a w' ha => ?_⟩
  · obtain ⟨row, hrow, href, hid, htarget, -⟩ := hinv.newest ref id target hnewest
    exact ⟨row, hrow, href, hid, htarget⟩
  · have hchange := act_change ha
    exact {
      queued := by
        rintro args rfl
        exact hchange.queued
      claimed := by
        rintro token now leaseUntil limit rfl row hrow hnew
        exact hchange.claimed hrow hnew
      held := fun id token hholder => hchange.held hholder
      newest := fun ref id target hnewest => hinv.newest_of_change hchange hnewest }

/-- A push is claimed, a second target queued meanwhile, and the first push fails after its lease. -/
def requeuedRun : List Action :=
  let target (pushId oid : String) : QueueArgs :=
    ⟨"repo", .request "req_1", some oid, ⟨1, 2, "scope/app"⟩, 10, pushId⟩
  [.tick 10, .queue (target "push_1" "aaaa"), .claim "token_1" 10 20 5,
    .queue (target "push_2" "bbbb"), .tick 15,
    .finish ⟨fun _ _ _ => .ok (), fun _ _ _ _ => .ok ()⟩ "push_1" "token_1"
      (.failed "timed out" (some 40)) 25]

/-- The target that was queued while the first push ran is stored after that one went back. -/
theorem pushes_safe_requeued :
    ∃ w, requeuedRun.foldlM act (initial 0 fun _ => none) = some w ∧
      ∃ row ∈ w.db.pushes, row.ref = ("repo", "refs/heads/scope/requests/req_1") ∧
        row.id = "push_2" ∧ row.targetOid = some "bbbb" := by
  have hsome : (requeuedRun.foldlM act (initial 0 fun _ => none)).isSome = true := by
    decide +kernel
  obtain ⟨w, hw⟩ := Option.isSome_iff_exists.mp hsome
  have hnewest : ((requeuedRun.foldlM act (initial 0 fun _ => none)).bind fun w =>
      w.newest ("repo", "refs/heads/scope/requests/req_1")) = some ("push_2", some "bbbb") := by
    decide +kernel
  have hreach : Reachable w :=
    Transition.Reachable.foldlM (fun s a t h => ⟨a, h⟩) (.of_init ⟨0, fun _ => none, rfl⟩) hw
  rw [hw, Option.bind_some] at hnewest
  exact ⟨w, hw, (pushes_safe hreach).2.2.2.1 _ _ _ hnewest⟩

end World

end ScopeVcs.GitHub
