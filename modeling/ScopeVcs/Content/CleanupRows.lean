import ScopeVcs.Content.CleanupQueue

/-! # What the transactions do to one row

Every transaction leaves a row, gives it a new generation, or ends the claim of a generation.
-/

namespace ScopeVcs.Content

open Mutation IntegerColumns

variable {jobs jobs' : Jobs} {blobs : List (SourceBlob × String)} {nowUnix : ℕ}

/-! ## Queueing -/

/-- What queueing makes of a row. -/
def Requeued (blobs : List (SourceBlob × String)) (contentRef : ContentRef)
    (row' : Option SourceBlobCleanupJob) : Prop :=
  ∃ blob generation row, (blob, generation) ∈ blobs ∧ blob.contentRef = contentRef ∧
    row' = some row ∧ row.generation = generation ∧ row.completedAtUnix = none

theorem SourceBlobCleanupJob.fromDomain_eq_ok {blob : SourceBlob} {generation : String}
    {row : SourceBlobCleanupJob} (h : fromDomain blob generation nowUnix = .ok row) :
    row.contentRef = blob.contentRef ∧ row.generation = generation ∧ row.completedAtUnix = none := by
  rw [fromDomain, except_bind_eq_ok] at h
  obtain ⟨now, -, h⟩ := h
  obtain ⟨sizeBytes, -, h⟩ := except_bind_eq_ok.mp h
  cases h
  exact ⟨rfl, rfl, rfl⟩

theorem queueRow_eq_ok {firstAttempt : ℕ} {blob : SourceBlob} {generation : String}
    (h : queueRow firstAttempt nowUnix jobs blob generation = .ok jobs') (contentRef : ContentRef) :
    (blob.contentRef ≠ contentRef ∧ jobs'.find? contentRef = jobs.find? contentRef) ∨
      Requeued [(blob, generation)] contentRef (jobs'.find? contentRef) := by
  rw [queueRow, except_bind_eq_ok] at h
  obtain ⟨model, hmodel, h⟩ := h
  obtain ⟨hkey, hgeneration, hopen⟩ := SourceBlobCleanupJob.fromDomain_eq_ok hmodel
  cases h
  rw [Table.find?_upsert]
  split
  · rename_i heq
    refine .inr ⟨blob, generation, _, List.mem_singleton_self _, (heq.trans hkey).symm, rfl, ?_, ?_⟩
    · cases jobs.find? contentRef <;> exact hgeneration
    · cases jobs.find? contentRef <;> exact hopen
  · rename_i hne
    exact .inl ⟨fun heq => hne (heq.symm.trans hkey.symm), rfl⟩

theorem Requeued.mono {blobs' : List (SourceBlob × String)} {contentRef : ContentRef}
    {row' : Option SourceBlobCleanupJob} (h : Requeued blobs contentRef row')
    (hsub : ∀ b ∈ blobs, b ∈ blobs') : Requeued blobs' contentRef row' := by
  obtain ⟨blob, generation, row, hmem, hrest⟩ := h
  exact ⟨blob, generation, row, hsub _ hmem, hrest⟩

theorem foldlM_queueRow_eq_ok {firstAttempt : ℕ}
    (h : blobs.foldlM (fun jobs (blob, generation) =>
      queueRow firstAttempt nowUnix jobs blob generation) jobs = .ok jobs')
    (contentRef : ContentRef) :
    ((∀ b ∈ blobs, b.1.contentRef ≠ contentRef) ∧ jobs'.find? contentRef = jobs.find? contentRef) ∨
      Requeued blobs contentRef (jobs'.find? contentRef) := by
  induction blobs generalizing jobs with
  | nil =>
    cases h
    exact .inl ⟨by simp, rfl⟩
  | cons b blobs ih =>
    rw [List.foldlM_cons, except_bind_eq_ok] at h
    obtain ⟨mid, hfirst, hrest⟩ := h
    rcases ih hrest with ⟨hnone, hsame⟩ | hrequeued
    · rcases queueRow_eq_ok hfirst contentRef with ⟨hne, hkept⟩ | hrow
      · exact .inl ⟨List.forall_mem_cons.mpr ⟨hne, hnone⟩, hsame.trans hkept⟩
      · rw [← hsame] at hrow
        refine .inr (hrow.mono fun b' hb' => ?_)
        rw [List.mem_singleton.mp hb']
        exact List.mem_cons_self
    · exact .inr (hrequeued.mono fun b' hb' => List.mem_cons_of_mem _ hb')

/-- Queueing gives the rows of its blobs new generations and leaves the others. -/
theorem queuePendingSourceBlobDeletionRows_eq_ok
    (h : queuePendingSourceBlobDeletionRows jobs blobs nowUnix = .ok jobs') (contentRef : ContentRef) :
    ((∀ b ∈ blobs, b.1.contentRef ≠ contentRef) ∧ jobs'.find? contentRef = jobs.find? contentRef) ∨
      Requeued blobs contentRef (jobs'.find? contentRef) := by
  rw [queuePendingSourceBlobDeletionRows, except_unit_bind_eq_ok] at h
  obtain ⟨-, h⟩ := h
  obtain ⟨firstAttempt, -, h⟩ := except_bind_eq_ok.mp h
  exact foldlM_queueRow_eq_ok h contentRef

/-! ## Claiming -/

variable {locked : List ContentRef} {generation : String} {loaded : List LoadedSourceBlobCleanup}

theorem isDue_of_mem_claimable {now : ℕ} {job : SourceBlobCleanupJob}
    (h : job ∈ claimable jobs locked now) : job ∈ jobs ∧ job.completedAtUnix = none := by
  have hselected := (List.mem_insertionSort _).mp (List.mem_of_mem_take h)
  obtain ⟨hmem, hdue⟩ := Table.mem_select.mp hselected
  rw [Bool.and_eq_true, SourceBlobCleanupJob.isDue, Bool.and_eq_true] at hdue
  exact ⟨hmem, Option.isNone_iff_eq_none.mp hdue.1.1⟩

/-- What a claim makes of a row. -/
def Claimed (generation : String) (row row' : Option SourceBlobCleanupJob) : Prop :=
  ∃ old new, row = some old ∧ row' = some new ∧ old.completedAtUnix = none ∧
    new.completedAtUnix = none ∧ new.generation = generation

/-- A claim gives its generation to rows that are not completed and leaves the others. -/
theorem claimPendingSourceBlobCleanupRows_eq_ok
    (h : claimPendingSourceBlobCleanupRows jobs locked generation nowUnix = .ok (jobs', loaded)) :
    (∀ contentRef, jobs'.find? contentRef = jobs.find? contentRef ∨
      Claimed generation (jobs.find? contentRef) (jobs'.find? contentRef)) ∧
    (∀ l ∈ loaded, l.generation = generation) ∧
    (loaded.map fun l => l.blob.contentRef).Nodup := by
  rw [claimPendingSourceBlobCleanupRows, except_bind_eq_ok] at h
  obtain ⟨now, -, h⟩ := h
  rw [except_unit_bind_eq_ok] at h
  obtain ⟨-, h⟩ := h
  have hpair := Except.ok.inj h
  obtain ⟨hjobs, hloaded⟩ := Prod.mk.inj hpair
  refine ⟨fun contentRef => ?_, ?_, ?_⟩
  · rw [← hjobs, Table.find?_update]
    cases hfind : jobs.find? contentRef with
    | none => exact .inl rfl
    | some row =>
      rw [Option.map_some]
      split
      · rename_i hclaimed
        right
        obtain ⟨due, hdue, hkey⟩ := List.mem_map.mp (of_decide_eq_true hclaimed)
        obtain ⟨hmem, hopen⟩ := isDue_of_mem_claimable hdue
        have hrow : due = row := Table.eq_of_key_eq hmem (Table.find?_eq_some.mp hfind).1 hkey
        rw [hrow] at hopen
        exact ⟨row, _, rfl, rfl, hopen, hopen, rfl⟩
      · exact .inl rfl
  · rw [← hloaded]
    intro l hl
    obtain ⟨row, hrow, rfl⟩ := List.mem_map.mp hl
    obtain ⟨hmem, hclaimed⟩ := Table.mem_select.mp hrow
    obtain ⟨old, hold, rfl⟩ := (Table.mem_update _).mp hmem
    by_cases hp : old.contentRef ∈ (claimable jobs locked now).map SourceBlobCleanupJob.contentRef
    · simp [hp]
    · simp [hp] at hclaimed
  · rw [← hloaded, List.map_map]
    exact (List.filter_sublist.map _).nodup (Table.nodup _)

/-! ## Finishing -/

variable {retained : List SourceBlob} {batch : List LoadedSourceBlobCleanup} {now : ℕ}

/-- What the end of a claim makes of a row: nothing, or, where the row is open and of a generation
that was claimed, another attempt or completion. -/
inductive Settled (claimed : String → Prop) (isRetained : Prop) :
    Option SourceBlobCleanupJob → Option SourceBlobCleanupJob → Prop
  | kept (row : Option SourceBlobCleanupJob) : Settled claimed isRetained row row
  | retried (old new : SourceBlobCleanupJob) (hclaim : claimed old.generation)
      (hold : old.completedAtUnix = none) (hretained : isRetained)
      (hgeneration : new.generation = old.generation) (hnew : new.completedAtUnix = none) :
      Settled claimed isRetained (some old) (some new)
  | completed (old new : SourceBlobCleanupJob) (hclaim : claimed old.generation)
      (hold : old.completedAtUnix = none) (hretained : ¬isRetained)
      (hgeneration : new.generation = old.generation) :
      Settled claimed isRetained (some old) (some new)

theorem Settled.mono {claimed claimed' : String → Prop} {isRetained : Prop}
    {row row' : Option SourceBlobCleanupJob} (h : Settled claimed isRetained row row')
    (hsub : ∀ g, claimed g → claimed' g) : Settled claimed' isRetained row row' := by
  cases h with
  | kept => exact .kept _
  | retried old new hclaim hold hretained hgeneration hnew =>
    exact .retried old new (hsub _ hclaim) hold hretained hgeneration hnew
  | completed old new hclaim hold hretained hgeneration =>
    exact .completed old new (hsub _ hclaim) hold hretained hgeneration

theorem Settled.trans {claimed : String → Prop} {isRetained : Prop}
    {row row' row'' : Option SourceBlobCleanupJob} (h : Settled claimed isRetained row row')
    (h' : Settled claimed isRetained row' row'') : Settled claimed isRetained row row'' := by
  cases h with
  | kept => exact h'
  | retried old new hclaim hold hretained hgeneration hnew =>
    cases h' with
    | kept => exact .retried old new hclaim hold hretained hgeneration hnew
    | retried _ new' _ _ _ hgeneration' hnew' =>
      exact .retried old new' hclaim hold hretained (hgeneration'.trans hgeneration) hnew'
    | completed _ _ _ _ hretained' => exact absurd hretained hretained'
  | completed old new hclaim hold hretained hgeneration =>
    cases h' with
    | kept => exact .completed old new hclaim hold hretained hgeneration
    | retried _ _ _ _ hretained' => exact absurd hretained' hretained
    | completed _ new' _ _ _ hgeneration' =>
      exact .completed old new' hclaim hold hretained (hgeneration'.trans hgeneration)

theorem isClaimedAs_iff {contentRef : ContentRef} {job : SourceBlobCleanupJob} :
    job.isClaimedAs contentRef generation = true ↔
      job.contentRef = contentRef ∧ job.generation = generation ∧ job.completedAtUnix = none := by
  simp [SourceBlobCleanupJob.isClaimedAs, and_assoc]

/-- One round of the loop settles the row it is at and leaves the others. -/
theorem reconcileRow_eq_ok {l : LoadedSourceBlobCleanup}
    (h : reconcileRow retained now jobs l = .ok jobs') (contentRef : ContentRef) :
    Settled (fun g => l.blob.contentRef = contentRef ∧ l.generation = g)
      (contentRef ∈ retained.map SourceBlob.contentRef) (jobs.find? contentRef)
      (jobs'.find? contentRef) := by
  rw [reconcileRow] at h
  split at h
  · rename_i hretained
    rw [markSourceBlobCleanupRetained] at h
    split at h
    · cases h
      exact .kept _
    · split at h
      · cases h
        exact .kept _
      · obtain ⟨retry, -, rfl⟩ := except_map_eq_ok.mp h
        rw [Table.find?_update]
        cases hfind : jobs.find? contentRef with
        | none => exact .kept _
        | some row =>
          have hrow : row.contentRef = contentRef := (Table.find?_eq_some.mp hfind).2
          rw [Option.map_some]
          split
          · rename_i hclaimed
            obtain ⟨hkey, hgeneration, hopen⟩ := isClaimedAs_iff.mp hclaimed
            refine .retried row _ ⟨hkey.symm.trans hrow, hgeneration.symm⟩ hopen ?_ rfl hopen
            rw [← hrow, hkey]
            exact hretained
          · exact .kept _
  · rename_i hretained
    cases h
    rw [completePendingSourceBlobCleanup, Table.find?_update]
    cases hfind : jobs.find? contentRef with
    | none => exact .kept _
    | some row =>
      have hrow : row.contentRef = contentRef := (Table.find?_eq_some.mp hfind).2
      rw [Option.map_some]
      split
      · rename_i hclaimed
        obtain ⟨hkey, hgeneration, hopen⟩ := isClaimedAs_iff.mp hclaimed
        refine .completed row _ ⟨hkey.symm.trans hrow, hgeneration.symm⟩ hopen ?_ rfl
        rw [← hrow, hkey]
        exact hretained
      · exact .kept _

theorem foldlM_reconcileRow_eq_ok (h : batch.foldlM (reconcileRow retained now) jobs = .ok jobs')
    (contentRef : ContentRef) :
    Settled (fun g => ∃ l ∈ batch, l.blob.contentRef = contentRef ∧ l.generation = g)
      (contentRef ∈ retained.map SourceBlob.contentRef) (jobs.find? contentRef)
      (jobs'.find? contentRef) := by
  induction batch generalizing jobs with
  | nil =>
    cases h
    exact .kept _
  | cons l batch ih =>
    rw [List.foldlM_cons, except_bind_eq_ok] at h
    obtain ⟨mid, hfirst, hrest⟩ := h
    have hhead := (reconcileRow_eq_ok hfirst contentRef).mono fun g hg =>
      show ∃ l' ∈ l :: batch, l'.blob.contentRef = contentRef ∧ l'.generation = g from
        ⟨l, List.mem_cons_self, hg⟩
    exact hhead.trans ((ih hrest).mono fun g ⟨l', hl', hg⟩ => ⟨l', List.mem_cons_of_mem _ hl', hg⟩)

theorem foldlM_queue_eq_ok {unclaimed : List SourceBlob} {fresh : SourceBlob → String}
    (h : unclaimed.foldlM (fun jobs blob =>
      queuePendingSourceBlobDeletionRows jobs [(blob, fresh blob)] nowUnix) jobs = .ok jobs')
    (contentRef : ContentRef) :
    ((∀ b ∈ unclaimed, b.contentRef ≠ contentRef) ∧
        jobs'.find? contentRef = jobs.find? contentRef) ∨
      Requeued (unclaimed.map fun b => (b, fresh b)) contentRef (jobs'.find? contentRef) := by
  induction unclaimed generalizing jobs with
  | nil =>
    cases h
    exact .inl ⟨by simp, rfl⟩
  | cons b unclaimed ih =>
    rw [List.foldlM_cons, except_bind_eq_ok] at h
    obtain ⟨mid, hfirst, hrest⟩ := h
    rcases ih hrest with ⟨hnone, hsame⟩ | hrequeued
    · rcases queuePendingSourceBlobDeletionRows_eq_ok hfirst contentRef with ⟨hne, hkept⟩ | hrow
      · exact .inl ⟨List.forall_mem_cons.mpr ⟨by simpa using hne, hnone⟩, hsame.trans hkept⟩
      · rw [← hsame] at hrow
        refine .inr (hrow.mono fun b' hb' => ?_)
        rw [List.mem_singleton.mp hb']
        exact List.mem_cons_self
    · exact .inr (hrequeued.mono fun b' hb' => List.mem_cons_of_mem _ hb')

/-- The end of a drain settles the rows of its batch and queues what was not claimed. -/
theorem reconcileSourceBlobCleanupRows_eq_ok {fresh : SourceBlob → String}
    (h : reconcileSourceBlobCleanupRows jobs batch retained fresh nowUnix = .ok jobs')
    (contentRef : ContentRef) :
    ((∀ b ∈ unclaimed batch retained, b.contentRef ≠ contentRef) ∧
      Settled (fun g => ∃ l ∈ batch, l.blob.contentRef = contentRef ∧ l.generation = g)
        (contentRef ∈ retained.map SourceBlob.contentRef) (jobs.find? contentRef)
        (jobs'.find? contentRef)) ∨
      Requeued ((unclaimed batch retained).map fun b => (b, fresh b)) contentRef
        (jobs'.find? contentRef) := by
  rw [reconcileSourceBlobCleanupRows, except_bind_eq_ok] at h
  obtain ⟨now, -, h⟩ := h
  obtain ⟨mid, hloop, hqueue⟩ := except_bind_eq_ok.mp h
  rcases foldlM_queue_eq_ok hqueue contentRef with ⟨hnone, hsame⟩ | hrequeued
  · rw [hsame]
    exact .inl ⟨hnone, foldlM_reconcileRow_eq_ok hloop contentRef⟩
  · exact .inr hrequeued

end ScopeVcs.Content
