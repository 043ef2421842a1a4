import ScopeVcs.Compaction.Workers

/-! # Wake-ups are kept and stale workers change nothing -/

namespace ScopeVcs.Compaction

open Mutation Relation

variable {w w' : World} {claim : GitCompactionClaim}

/-! ## What a step can do -/

/-- A step changes only the pool, pushes to a repository, hands out a claim, or is taken by the holder
of one. -/
inductive Effect (a : Action) (w : World) : World → Prop where
  | ofPool {w' : World} (hheads : w'.heads = w.heads) (hjobs : w'.jobs = w.jobs)
      (hclaims : w'.claims = w.claims) (hcompleted : w'.completed = w.completed)
      (hpool : w.pool.Inv w.heads → w'.pool.Inv w.heads) : Effect a w w'
  | ofPush {repoId : String} {next : GitHead} {pack : GitPoolPack} {nowUnix : ℕ} {u : Unit}
      {pool : GitPool} {jobs : CompactionJobs} (holder : a.holder? = none)
      (hadvance : validateMainPackAdvance (w.heads repoId) next pack = .ok u)
      (hpool : w.pool.registerGitPoolPack repoId pack nowUnix = .ok pool)
      (hjobs : scheduleGitCompaction w.jobs repoId next.pushSequence nowUnix = .ok jobs) :
      Effect a w { w with pool, jobs, heads := Function.update w.heads repoId (some next) }
  | ofClaim {locked : List String} {leaseGeneration workerId : String}
      {maxSourceBytes nowUnix leaseSeconds : ℕ} {jobs : CompactionJobs}
      {claim? : Option GitCompactionClaim} (holder : a.holder? = none)
      (hfresh : ∀ claim ∈ w.claims, claim.leaseGeneration ≠ leaseGeneration)
      (hjobs : claimGitCompaction w.jobs w.pool w.repositories locked leaseGeneration workerId
        maxSourceBytes nowUnix leaseSeconds = .ok (jobs, claim?)) :
      Effect a w { w with jobs, claims := claim?.toList ++ w.claims }
  | ofHolder {held : GitCompactionClaim} {jobs : CompactionJobs} {completed : List GitCompactionClaim}
      (holder : a.holder? = some held) (hheld : Held held w.jobs jobs)
      (hcompleted : ∀ claim ∈ w.completed, claim ∈ completed)
      (hkept : ∀ job ∈ w.jobs, (∃ job' ∈ jobs, job'.repoId = job.repoId) ∨
        held ∈ completed ∧ job.repoId = held.repoId ∧
          job.targetSequence ≤ held.targetSequence) :
      Effect a w { w with jobs, completed }

theorem World.now_eq_some {nowUnix : ℕ} {next : Option World} (h : w.now nowUnix next = some w') :
    next = some w' := by
  rw [World.now] at h
  split at h
  · exact h
  · cases h

theorem Effect.setPool {a : Action} {result : Except PostgresError GitPool}
    (hpool : ∀ pool, result = .ok pool → w.pool.Inv w.heads → pool.Inv w.heads)
    (h : w.setPool result = some w') : Effect a w w' := by
  obtain ⟨pool, hok, rfl⟩ := Option.map_eq_some_iff.mp h
  exact .ofPool rfl rfl rfl rfl (hpool pool (toOption_eq_some.mp hok))

theorem Effect.setJobs {a : Action} {held : GitCompactionClaim}
    {result : Except PostgresError CompactionJobs} (holder : a.holder? = some held)
    (hjobs : ∀ jobs, result = .ok jobs → Held held w.jobs jobs ∧ Kept w.jobs jobs)
    (h : w.setJobs result = some w') : Effect a w w' := by
  obtain ⟨jobs, hok, rfl⟩ := Option.map_eq_some_iff.mp h
  obtain ⟨hheld, hkept⟩ := hjobs jobs (toOption_eq_some.mp hok)
  exact .ofHolder holder hheld (fun _ => id) fun job hjob => .inl (hkept job hjob)

theorem World.act_effect {a : Action} (hact : w.act a = some w') : Effect a w w' := by
  cases a with
  | tick seconds =>
    cases hact
    exact .ofPool rfl rfl rfl rfl id
  | beginUpload repoId segmentId objectKey encodingVersion nowUnix =>
    exact .setPool (fun _ hok h => h.beginUpload hok) (now_eq_some hact)
  | markReady segment encryptedBytes nowUnix =>
    exact .setPool (fun _ hok h => h.markReady hok) (now_eq_some hact)
  | abandon segmentId nowUnix =>
    exact .setPool (fun _ hok h => h.abandon hok) (now_eq_some hact)
  | markDeleted segmentId nowUnix =>
    exact .setPool (fun _ hok h => h.markDeleted hok) (now_eq_some hact)
  | retire segmentId nowUnix =>
    exact .setPool (fun _ hok h => h.retire hok) (now_eq_some hact)
  | registerRequestPack repoId pack nowUnix =>
    simp only [World.act] at hact
    split at hact
    · rename_i hrequest
      refine .setPool (fun _ hok h => ?_) (now_eq_some hact)
      cases howner : pack.owner with
      | request requestId scope => exact h.registerRequestPack howner hok
      | main first last =>
        rw [howner] at hrequest
        cases hrequest
    · cases hact
  | push repoId next pack nowUnix =>
    obtain ⟨⟨pool, jobs⟩, hpush, rfl⟩ := Option.map_eq_some_iff.mp (now_eq_some hact)
    simp only [pushMain, Option.bind_eq_bind, Option.bind_eq_some_iff] at hpush
    obtain ⟨u, hadvance, pool, hpool, jobs, hjobs, hpush⟩ := hpush
    cases hpush
    exact .ofPush rfl (toOption_eq_some.mp hadvance) (toOption_eq_some.mp hpool)
      (toOption_eq_some.mp hjobs)
  | claim locked leaseGeneration workerId maxSourceBytes nowUnix leaseSeconds =>
    simp only [World.act] at hact
    split at hact
    · rename_i hfresh
      obtain ⟨⟨jobs, claim?⟩, hclaim, rfl⟩ := Option.map_eq_some_iff.mp (now_eq_some hact)
      exact .ofClaim rfl hfresh (toOption_eq_some.mp hclaim)
    · cases hact
  | renew held nowUnix leaseSeconds =>
    simp only [World.act] at hact
    split at hact
    · refine .setJobs rfl (fun jobs hok => ?_) (now_eq_some hact)
      obtain ⟨⟨_, renewed⟩, hrenew, rfl⟩ := except_map_eq_ok.mp hok
      exact renewGitCompactionClaim_eq_ok hrenew
    · cases hact
  | complete held nowUnix =>
    simp only [World.act] at hact
    split at hact
    · obtain ⟨jobs, hok, rfl⟩ := Option.map_eq_some_iff.mp (now_eq_some hact)
      obtain ⟨hheld, hkept⟩ := completeGitCompactionClaim_eq_ok (toOption_eq_some.mp hok)
      refine .ofHolder rfl hheld (fun _ => List.mem_cons_of_mem _) fun job hjob => ?_
      exact (hkept job hjob).imp_right fun hcovered => ⟨List.mem_cons_self, hcovered⟩
    · cases hact
  | continueClaim held nowUnix =>
    simp only [World.act] at hact
    split at hact
    · exact .setJobs rfl (fun _ hok => continueGitCompactionClaim_eq_ok hok) (now_eq_some hact)
    · cases hact
  | fail held error nowUnix =>
    simp only [World.act] at hact
    split at hact
    · exact .setJobs rfl (fun _ hok => failGitCompactionClaim_eq_ok hok) (now_eq_some hact)
    · cases hact
  | replace repoId plan replacement nowUnix =>
    refine .setPool (fun pool hok h => ?_) (now_eq_some hact)
    obtain ⟨⟨_, replaced⟩, hreplace, rfl⟩ := except_map_eq_ok.mp hok
    exact (h.replaceMainPoolPacksWithCompaction hreplace).1

/-! ## Wake-ups -/

/-- Every job targets the last push, and there is one unless a claim that read that target completed. -/
structure World.Inv (w : World) : Prop where
  pool : w.pool.Inv w.heads
  target : ∀ job ∈ w.jobs, job.targetSequence = w.scheduled job.repoId
  wakeup : ∀ repoId, 0 < w.scheduled repoId → (∃ job ∈ w.jobs, job.repoId = repoId) ∨
    ∃ claim ∈ w.completed, claim.repoId = repoId ∧ w.scheduled repoId ≤ claim.targetSequence

theorem scheduled_congr (h : w'.heads = w.heads) (repoId : String) :
    w'.scheduled repoId = w.scheduled repoId := by
  rw [World.scheduled, World.scheduled, h]

theorem scheduled_lt_of_advance {repoId : String} {next : GitHead} {pack : GitPoolPack} {u : Unit}
    (h : validateMainPackAdvance (w.heads repoId) next pack = .ok u) :
    w.scheduled repoId < next.pushSequence := by
  have hseq := (validateMainPackAdvance_eq_ok.mp h).1
  rw [World.scheduled]
  cases hcurrent : w.heads repoId with
  | none =>
    simp only [nextPushSequence, hcurrent, Option.some_inj] at hseq
    simp [← hseq]
  | some head =>
    simp only [nextPushSequence, hcurrent, U64.checkedAdd_eq_some] at hseq
    simp only
    omega

theorem World.Inv.push {repoId : String} {next : GitHead} {pack : GitPoolPack} {nowUnix : ℕ} {u : Unit}
    {pool : GitPool} {jobs : CompactionJobs} (h : w.Inv)
    (hadvance : validateMainPackAdvance (w.heads repoId) next pack = .ok u)
    (hpool : w.pool.registerGitPoolPack repoId pack nowUnix = .ok pool)
    (hjobs : scheduleGitCompaction w.jobs repoId next.pushSequence nowUnix = .ok jobs) :
    World.Inv { w with pool, jobs, heads := Function.update w.heads repoId (some next) } := by
  have hlt := scheduled_lt_of_advance hadvance
  obtain ⟨hothers, job, hjob, htarget, -⟩ := scheduleGitCompaction_eq_ok hjobs
  have hnext : job.targetSequence = next.pushSequence := by
    rw [htarget]
    apply max_eq_right
    cases hold : w.jobs.find? repoId with
    | none => exact Nat.zero_le _
    | some old =>
      obtain ⟨hmem, hrepo⟩ := Table.find?_eq_some.mp hold
      have hscheduled := h.target old hmem
      rw [hrepo] at hscheduled
      simp only [Option.map_some, Option.getD_some]
      omega
  have hself : World.scheduled
      { w with pool, jobs, heads := Function.update w.heads repoId (some next) } repoId =
        next.pushSequence := by
    simp [World.scheduled]
  have hother : ∀ r, r ≠ repoId → World.scheduled
      { w with pool, jobs, heads := Function.update w.heads repoId (some next) } r =
        w.scheduled r := by
    intro r hr
    simp [World.scheduled, Function.update_of_ne hr]
  refine ⟨h.pool.push hadvance hpool, fun row hrow => ?_, fun r hr => ?_⟩
  · have hfind := Table.find?_eq_some.mpr ⟨hrow, rfl⟩
    by_cases hrepo : row.repoId = repoId
    · rw [hrepo, hjob] at hfind
      cases hfind
      rw [hrepo, hself, hnext]
    · rw [hothers _ hrepo] at hfind
      rw [hother _ hrepo]
      exact h.target row (Table.find?_eq_some.mp hfind).1
  · by_cases hrepo : r = repoId
    · subst hrepo
      exact .inl ⟨job, Table.find?_eq_some.mp hjob⟩
    · rw [hother r hrepo] at hr ⊢
      refine (h.wakeup r hr).imp_left ?_
      rintro ⟨old, hold, rfl⟩
      have hfind := hothers _ hrepo
      rw [Table.find?_eq_some.mpr ⟨hold, rfl⟩] at hfind
      exact ⟨old, Table.find?_eq_some.mp hfind⟩

theorem World.Inv.effect {a : Action} (h : w.Inv) (heffect : Effect a w w') : w'.Inv := by
  cases heffect with
  | ofPool hheads hjobs hclaims hcompleted hpool =>
    refine ⟨?_, fun job hjob => ?_, fun repoId hscheduled => ?_⟩
    · rw [hheads]
      exact hpool h.pool
    · rw [scheduled_congr hheads]
      exact h.target job (hjobs ▸ hjob)
    · rw [scheduled_congr hheads] at hscheduled ⊢
      rw [hjobs, hcompleted]
      exact h.wakeup repoId hscheduled
  | ofPush holder hadvance hpool hjobs => exact h.push hadvance hpool hjobs
  | ofClaim holder hfresh hjobs =>
    rcases claimGitCompaction_eq_ok hjobs with ⟨rfl, rfl⟩ |
      ⟨claim, job, job', rfl, -, hfind, -, hfind', htarget, -, hothers⟩
    · exact ⟨h.pool, h.target, h.wakeup⟩
    · refine ⟨h.pool, fun row hrow => ?_, fun repoId hscheduled => ?_⟩
      · have hrowFind := Table.find?_eq_some.mpr ⟨hrow, rfl⟩
        by_cases hrepo : row.repoId = claim.repoId
        · rw [hrepo, hfind'] at hrowFind
          cases hrowFind
          obtain ⟨hjob, hjobRepo⟩ := Table.find?_eq_some.mp hfind
          rw [htarget, h.target job hjob, hjobRepo, hrepo]
          rfl
        · rw [hothers _ hrepo] at hrowFind
          exact h.target row (Table.find?_eq_some.mp hrowFind).1
      · refine (h.wakeup repoId hscheduled).imp_left ?_
        rintro ⟨old, hold, rfl⟩
        by_cases hrepo : old.repoId = claim.repoId
        · rw [hrepo]
          exact ⟨job', Table.find?_eq_some.mp hfind'⟩
        · have holdFind := hothers _ hrepo
          rw [Table.find?_eq_some.mpr ⟨hold, rfl⟩] at holdFind
          exact ⟨old, Table.find?_eq_some.mp holdFind⟩
  | @ofHolder held jobs completed holder hheld hcompleted hkept =>
    refine ⟨h.pool, fun job' hjob' => ?_, fun repoId hscheduled => ?_⟩
    · obtain ⟨job, hjob, hrepo, htarget, -⟩ := hheld.rows job' hjob'
      rw [htarget, h.target job hjob, hrepo]
      rfl
    · rcases h.wakeup repoId hscheduled with ⟨job, hjob, rfl⟩ | ⟨claim, hclaim, hcovers⟩
      · refine (hkept job hjob).imp_right fun ⟨hdone, hrepo, htarget⟩ => ?_
        exact ⟨held, hdone, hrepo.symm, (h.target job hjob).symm.trans_le htarget⟩
      · exact .inr ⟨claim, hcompleted claim hclaim, hcovers⟩

theorem World.Reachable.inv (h : w.Reachable) : w.Inv := by
  refine Transition.Reachable.invariant World.Inv h ?_ fun w w' _ hinv ⟨a, hact⟩ =>
    hinv.effect (act_effect hact)
  rintro _ ⟨clock, repositories, rfl⟩
  refine ⟨⟨fun repoId => ⟨[], MainPacks.counter_empty.linked, Nat.zero_le _, nofun⟩, nofun, nofun⟩,
    nofun, fun repoId hscheduled => ?_⟩
  exact absurd hscheduled (lt_irrefl 0)

/-! ## Stale workers -/

/-- The claim was handed out and its generation was replaced. -/
def Stale (w : World) (claim : GitCompactionClaim) : Prop :=
  claim ∈ w.claims ∧ ∀ job ∈ w.jobs, job.isLeasedBy claim = false

theorem isLeasedBy_eq_false {job : GitCompactionJob} :
    job.isLeasedBy claim = false ↔
      (job.repoId = claim.repoId → job.leaseGeneration ≠ some claim.leaseGeneration) := by
  simp [GitCompactionJob.isLeasedBy]

theorem Stale.effect {a : Action} (h : Stale w claim) (heffect : Effect a w w') :
    Stale w' claim := by
  obtain ⟨hclaim, hrows⟩ := h
  cases heffect with
  | ofPool hheads hjobs hclaims hcompleted hpool =>
    rw [Stale, hjobs, hclaims]
    exact ⟨hclaim, hrows⟩
  | @ofPush repoId next pack nowUnix u pool jobs holder hadvance hpool hjobs =>
    refine ⟨hclaim, fun row hrow => ?_⟩
    obtain ⟨hothers, job, hjob, -, hgeneration⟩ := scheduleGitCompaction_eq_ok hjobs
    have hfind := Table.find?_eq_some.mpr ⟨hrow, rfl⟩
    by_cases hrepo : row.repoId = repoId
    · rw [hrepo, hjob] at hfind
      cases hfind
      rw [isLeasedBy_eq_false]
      intro hsame heq
      rw [hgeneration, Option.bind_eq_some_iff] at heq
      obtain ⟨old, hold, hold'⟩ := heq
      obtain ⟨hmem, holdRepo⟩ := Table.find?_eq_some.mp hold
      exact isLeasedBy_eq_false.mp (hrows old hmem) (holdRepo.trans (hrepo.symm.trans hsame)) hold'
    · rw [hothers _ hrepo] at hfind
      exact hrows row (Table.find?_eq_some.mp hfind).1
  | @ofClaim _ leaseGeneration _ _ _ _ _ _ holder hfresh hjobs =>
    refine ⟨List.mem_append_right _ hclaim, fun row hrow => ?_⟩
    rcases claimGitCompaction_eq_ok hjobs with ⟨rfl, rfl⟩ |
      ⟨issued, job, job', rfl, -, -, -, hfind', -, hgeneration, hothers⟩
    · exact hrows row hrow
    · have hfind := Table.find?_eq_some.mpr ⟨hrow, rfl⟩
      by_cases hrepo : row.repoId = issued.repoId
      · rw [hrepo, hfind'] at hfind
        cases hfind
        rw [isLeasedBy_eq_false, hgeneration]
        intro _ heq
        exact hfresh claim hclaim (Option.some.inj heq).symm
      · rw [hothers _ hrepo] at hfind
        exact hrows row (Table.find?_eq_some.mp hfind).1
  | ofHolder holder hheld hcompleted hkept =>
    refine ⟨hclaim, fun row hrow => ?_⟩
    obtain ⟨job, hjob, hrepo, -, hgeneration⟩ := hheld.rows row hrow
    rw [isLeasedBy_eq_false]
    intro hsame heq
    rcases hgeneration with hnone | hkeptGeneration
    · rw [hnone] at heq
      cases heq
    · exact isLeasedBy_eq_false.mp (hrows job hjob) (hrepo.symm.trans hsame)
        (hkeptGeneration.symm.trans heq)

theorem Stale.run (h : Stale w claim) (hrun : ReflTransGen World.Step w w') : Stale w' claim := by
  induction hrun with
  | refl => exact h
  | tail _ hstep ih =>
    obtain ⟨a, hact⟩ := hstep
    exact ih.effect (World.act_effect hact)

/-- A worker whose generation was replaced changes no job. -/
theorem Stale.jobs_eq {a : Action} (h : Stale w claim) (holder : a.holder? = some claim)
    (heffect : Effect a w w') : w'.jobs = w.jobs := by
  cases heffect with
  | ofPool hheads hjobs hclaims hcompleted hpool => exact hjobs
  | ofPush hnone hadvance hpool hjobs =>
    rw [holder] at hnone
    cases hnone
  | ofClaim hnone hfresh hjobs =>
    rw [holder] at hnone
    cases hnone
  | ofHolder holder' hheld hcompleted hkept =>
    rw [holder] at holder'
    cases holder'
    exact hheld.stale h.2

/-- In every world reached the main packs of each repository are the chain of its pushes, the segments
they refer to are published, and a job with the greatest scheduled sequence waits until a claim that
read it completed. From then on a worker whose generation was replaced changes no job, a replacement
retires the segments it replaces, and a refused one its own. -/
theorem World.wakeups_kept (h : w.Reachable) :
    (∀ repoId, (∃ entries, validateMainChain (w.pool.loadMainPoolPacks repoId) = .ok entries) ∧
      (w.pool.loadMainPoolPacks repoId).flatMap MainPacks.sequences =
        List.range' 1 (w.scheduled repoId) ∧
      (w.pool.loadMainPoolPacks repoId).getLast?.map (·.headOid) =
        (w.heads repoId).map (·.headOid)) ∧
    (∀ claim w₁ w₂ a, Stale w claim → ReflTransGen World.Step w w₁ → a.holder? = some claim →
      w₁.act a = some w₂ → w₂.jobs = w₁.jobs) ∧
    (∀ repoId, 0 < w.scheduled repoId →
      (∀ claim ∈ w.completed, claim.repoId = repoId → claim.targetSequence < w.scheduled repoId) →
      ∃ job, w.jobs.find? repoId = some job ∧ job.targetSequence = w.scheduled repoId) ∧
    (∀ row ∈ w.pool.packs, row.isMain = true → ∀ segmentId, row.segmentId? = some segmentId →
      w.pool.InState segmentId .published) ∧
    ∀ repoId plan replacement nowUnix pool' replaced,
      w.pool.replaceMainPoolPacksWithCompaction repoId plan replacement nowUnix =
        .ok (pool', replaced) →
      ∃ segment, replacement.storage.segment? = some segment ∧
        (replaced = true → ∀ pack ∈ GitPool.selected plan, ∀ s, pack.storage.segment? = some s →
          s.segmentId ≠ segment.segmentId → pool'.InState s.segmentId .deleting) ∧
        (replaced = false → w.pool.Free segment.segmentId →
          ∀ state, state = .ready ∨ state = .published → w.pool.InState segment.segmentId state →
            pool'.InState segment.segmentId .deleting) := by
  have hinv := h.inv
  refine ⟨fun repoId => ?_, ?_, ?_, hinv.pool.published, ?_⟩
  · obtain ⟨ks, hks⟩ := hinv.pool.chain repoId
    refine ⟨⟨_, hks.chain⟩, ?_, ?_⟩
    · rw [MainPacks.flatMap_sequences hks.linked, hks.value_eq]
      rfl
    · have hheads := MainPacks.heads_of_linked hks.linked
      simp only at hheads
      cases hhead : w.heads repoId with
      | none =>
        cases hlast : (w.pool.loadMainPoolPacks repoId).getLast? with
        | none => rfl
        | some last => simp [hhead, hlast, headPrerequisites] at hheads
      | some head =>
        cases hlast : (w.pool.loadMainPoolPacks repoId).getLast? with
        | none => simp [hhead, hlast, headPrerequisites] at hheads
        | some last => simpa [hhead, hlast, headPrerequisites, eq_comm] using hheads
  · intro claim w₁ w₂ a hstale hrun holder hact
    exact (hstale.run hrun).jobs_eq holder (act_effect hact)
  · intro repoId hscheduled hnone
    rcases hinv.wakeup repoId hscheduled with ⟨job, hjob, rfl⟩ | ⟨claim, hclaim, hrepo, hcovers⟩
    · exact ⟨job, Table.find?_eq_some.mpr ⟨hjob, rfl⟩, hinv.target job hjob⟩
    · exact absurd (hnone claim hclaim hrepo) hcovers.not_gt
  · intro repoId plan replacement nowUnix pool' replaced hok
    exact (hinv.pool.replaceMainPoolPacksWithCompaction hok).2

/-! ## A run -/

def storedSegment (segmentId : String) : GitSegmentRef :=
  ⟨segmentId, String.ofList (List.replicate 64 'a'), 10, 1⟩

/-- The pack of a push, or of several, stored as a segment. -/
def storedPack (segmentId : String) (first last : ℕ) (headOid : String) (prerequisites : List String) :
    GitPoolPack :=
  ⟨segmentId, .main first last, headOid, prerequisites, .segment (storedSegment segmentId)⟩

def upload (segmentId : String) : List Action :=
  [.beginUpload "repo" segmentId ("git/" ++ segmentId) 1 0, .markReady (storedSegment segmentId) 20 0]

def twoPushesPlan : GitCompactionPlan :=
  ⟨(storedPack "s1" 1 1 "a" [], storedPack "s2" 2 2 "b" ["a"])⟩

/-- The claim of the worker whose lease runs out. -/
def lateClaim : GitCompactionClaim :=
  ⟨2, 0, 0, some ⟨⟨"repo", "incarnation"⟩, "owner", "name", twoPushesPlan⟩, "repo", "g1"⟩

/-- Two pushes are claimed by one worker and, after its lease ran out, by another one. Both build a
replacement. -/
def twoWorkersRun : List Action :=
  upload "s1" ++ upload "s2" ++
    [.push "repo" ⟨"a", 1, 1, ""⟩ (storedPack "s1" 1 1 "a" []) 0,
      .push "repo" ⟨"b", 2, 2, ""⟩ (storedPack "s2" 2 2 "b" ["a"]) 0,
      .claim [] "g1" "first" 100 0 60, .tick 60, .claim [] "g2" "second" 100 60 60] ++
    upload "s3" ++ upload "s4"

theorem World.wakeups_kept_two_workers :
    ∃ w w₁ w₂ applied job,
      twoWorkersRun.foldlM act (initial 0 fun _ => some ⟨"incarnation", "owner", "name"⟩) = some w ∧
      w.act (.replace "repo" twoPushesPlan (storedPack "s3" 1 2 "b" []) 60) = some w₁ ∧
      w₁.act (.complete lateClaim 60) = some w₂ ∧
      w.pool.replaceMainPoolPacksWithCompaction "repo" twoPushesPlan (storedPack "s3" 1 2 "b" []) 60 =
        .ok (applied, true) ∧
      (w.pool.loadMainPoolPacks "repo").flatMap MainPacks.sequences = [1, 2] ∧
      w₂.jobs = w₁.jobs ∧
      w.jobs.find? "repo" = some job ∧ job.targetSequence = 2 ∧
      applied.InState "s1" .deleting ∧ applied.InState "s2" .deleting ∧
      w.pool.InState "s2" .published := by
  have hfacts : (twoWorkersRun.foldlM act
      (initial 0 fun _ => some ⟨"incarnation", "owner", "name"⟩)).any (fun w =>
        w.scheduled "repo" = 2 && w.completed = [] && lateClaim ∈ w.claims &&
        w.jobs.rows.all (fun job => job.isLeasedBy lateClaim = false) &&
        (w.pool.packs.find? "s2").any (fun row => row.isMain && row.segmentId? = some "s2") &&
        ((w.act (.replace "repo" twoPushesPlan (storedPack "s3" 1 2 "b" []) 60)).any fun w₁ =>
          (w₁.act (.complete lateClaim 60)).isSome) &&
        ((w.pool.replaceMainPoolPacksWithCompaction "repo" twoPushesPlan
          (storedPack "s3" 1 2 "b" []) 60).toOption.any fun result => result.2)) = true := by
    decide +kernel
  obtain ⟨w, hw, hfacts⟩ := (Option.any_eq_true _ _).mp hfacts
  simp only [Bool.and_eq_true, decide_eq_true_eq, Option.any_eq_true] at hfacts
  obtain ⟨⟨⟨⟨⟨⟨hscheduled, hcompleted⟩, hclaim⟩, hlost⟩, row, hrow, hmain, hsegment⟩, w₁, hreplace,
    hcomplete⟩, ⟨applied, replaced⟩, happlied, htrue⟩ := hfacts
  obtain ⟨w₂, hcomplete⟩ := Option.isSome_iff_exists.mp hcomplete
  rw [toOption_eq_some] at happlied
  cases htrue
  have hreach : w.Reachable :=
    Transition.Reachable.foldlM (fun s a t h => ⟨a, h⟩) (.of_init ⟨0, _, rfl⟩) hw
  have hstale : Stale w lateClaim :=
    ⟨hclaim, fun job hjob => of_decide_eq_true (List.all_eq_true.mp hlost job hjob)⟩
  obtain ⟨hchain, hstaleJobs, hwakeup, hpublished, hretired⟩ := wakeups_kept hreach
  obtain ⟨job, hjob, htarget⟩ := hwakeup "repo" (by rw [hscheduled]; decide)
    (by rw [hcompleted]; exact fun _ hclaim => absurd hclaim List.not_mem_nil)
  obtain ⟨segment, hstored, hdeleted, -⟩ := hretired _ _ _ _ _ _ happlied
  cases hstored
  have hs1 := hdeleted rfl _ List.mem_cons_self _ rfl (by decide)
  have hs2 := hdeleted rfl _ (List.mem_cons_of_mem _ List.mem_cons_self) _ rfl (by decide)
  have hsequences := (hchain "repo").2.1
  rw [hscheduled] at hsequences
  exact ⟨w, w₁, w₂, applied, job, hw, hreplace, hcomplete, happlied, hsequences,
    hstaleJobs lateClaim w₁ w₂ _ hstale (.single ⟨_, hreplace⟩) rfl hcomplete, hjob,
    htarget.trans hscheduled, hs1, hs2,
    hpublished row (Table.find?_eq_some.mp hrow).1 hmain "s2" hsegment⟩

end ScopeVcs.Compaction
