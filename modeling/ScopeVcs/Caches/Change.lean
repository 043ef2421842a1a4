import Mathlib.Logic.Relation
import ScopeVcs.Caches.Store

/-! # What a cache transaction can change

Every committed transaction is a run of the changes below. `Rule` names the changes that safety and
accounting put conditions on: referring again to a stored object, starting an upload and publishing
it.
-/

namespace ScopeVcs.Caches

open Mutation IntegerColumns Relation

/-- Conditions under which a stored object is referred to again, and an upload started and
published. -/
structure Rule where
  reuse : CacheDb → CacheObjectRecord → Prop
  start : CacheUploadRecord → Prop
  publish : CacheUploadRecord → Prop

namespace CacheDb

/-- The rows a published upload leaves. -/
def publish (db : CacheDb) (object : CacheObjectRecord) (row : ReferenceRow) (uploadId : String) :
    CacheDb :=
  ((({ db with objects := db.objects.insert object } : CacheDb).insertReference row).setUploadState
    uploadId .committed none).unqueueDeletion row.repositoryId row.checksumSha256

end CacheDb

inductive Change (rule : Rule) : CacheDb → CacheDb → Prop where
  | touch (db : CacheDb) (repositoryId identityDigest : String) (now expiry : ℕ) :
    Change rule db (db.touchReference repositoryId identityDigest now expiry)
  | unreference {db : CacheDb} {row : ReferenceRow} (notBefore : ℕ) (hrow : row ∈ db.references) :
    Change rule db ((db.deleteReference row.repositoryId row.identityDigest).queueIfUnreferenced
      row.repositoryId row.checksumSha256 notBefore)
  | reuse {db : CacheDb} {object : CacheObjectRecord} {row : ReferenceRow}
    (hobject : object ∈ db.objects) (hkey : object.key = row.target)
    (hunclaimed : db.deletionIsClaimed row.repositoryId row.checksumSha256 = false)
    (hfresh : db.references.find? row.key = none) (hrule : rule.reuse db object) :
    Change rule db
      ((db.insertReference row).unqueueDeletion row.repositoryId row.checksumSha256)
  | start {db : CacheDb} {upload : CacheUploadRecord} (hactive : upload.state = .active)
    (hdigest : isDigest upload.checksumSha256 = true)
    (hobjectKey : upload.objectKey = cacheObjectKey upload.repositoryId upload.checksumSha256)
    (hunstored : ∀ o ∈ db.objects, o.key ≠ upload.target)
    (hfresh : ∀ u ∈ db.uploads, u.uploadId ≠ upload.uploadId ∧ u.objectKey ≠ upload.objectKey)
    (hfits : db.repositoryBytes upload.repositoryId + upload.sizeBytes ≤
      MAX_REPOSITORY_CACHE_BYTES) (hrule : rule.start upload) :
    Change rule db { db with uploads := db.uploads.insert upload }
  | publish {db : CacheDb} {upload : CacheUploadRecord} {object : CacheObjectRecord}
    {row : ReferenceRow} (hupload : upload ∈ db.uploads) (hactive : upload.state = .active)
    (hkey : object.key = upload.target) (hobjectKey : object.objectKey = upload.objectKey)
    (hsize : object.sizeBytes = upload.sizeBytes) (htarget : row.target = upload.target)
    (hfresh : db.references.find? row.key = none) (hrule : rule.publish upload) :
    Change rule db (db.publish object row upload.uploadId)
  | settleUploads (db : CacheDb) (p : CacheUploadRecord → Bool)
    (f : CacheUploadRecord → CacheUploadRecord) (hid : ∀ u, (f u).uploadId = u.uploadId)
    (hsame : ∀ u, (f u).target = u.target ∧ (f u).objectKey = u.objectKey ∧
      (f u).sizeBytes = u.sizeBytes)
    (hopen : ∀ u ∈ db.uploads, p u = true → u.isOpen = true) :
    Change rule db { db with uploads := db.uploads.update p f hid }
  | dropUploads (db : CacheDb) (p : CacheUploadRecord → Bool) :
    Change rule db { db with uploads := db.uploads.delete p }
  | claim {db : CacheDb} {key : String × String} (retryAt : ℕ)
    (hunreferenced : db.isReferenced key = false) :
    Change rule db {
      db with
      deletionQueue := db.deletionQueue.update (fun d => d.key = key)
        (fun d => { d with attempts := d.attempts + 1, notBeforeUnix := retryAt }) (by intro _; rfl) }
  | complete {db : CacheDb} (repositoryId checksumSha256 : String)
    (hunreferenced : db.isReferenced (repositoryId, checksumSha256) = false) :
    Change rule db {
      db.unqueueDeletion repositoryId checksumSha256 with
      objects := db.objects.delete fun o => o.key = (repositoryId, checksumSha256) }
  | postpone (db : CacheDb) (key : String × String) (retryAt : ℕ) (error : Option String) :
    Change rule db {
      db with
      deletionQueue := db.deletionQueue.update (fun d => d.key = key)
        (fun d => { d with notBeforeUnix := retryAt, lastError := error }) (by intro _; rfl) }

/-- The rule that permits everything. -/
def Rule.any : Rule := ⟨fun _ _ => True, fun _ => True, fun _ => True⟩

abbrev Changes (rule : Rule) : CacheDb → CacheDb → Prop := ReflTransGen (Change rule)

variable {rule : Rule} {db db' : CacheDb}

/-! ## Evictions -/

@[simp]
theorem domain_eq_ok {α : Type} {x : Except CacheDomainError α} {a : α} :
    (domain x).run db = .ok a db' ↔ x = .ok a ∧ db = db' := by
  rw [domain, check_eq_ok, mapError_eq_ok]

theorem evictReferenceRow_eq_ok {storageBytes nowUnix : ℕ} {retained : String} {row : ReferenceRow}
    (h : (evictReferenceRow storageBytes retained nowUnix row).run db = .ok () db') :
    ∃ notBefore, db' = (db.deleteReference row.repositoryId row.identityDigest).queueIfUnreferenced
      row.repositoryId row.checksumSha256 notBefore := by
  simp only [evictReferenceRow, bind_eq_ok, domain_eq_ok] at h
  obtain ⟨reference, _, ⟨-, rfl⟩, decision, _, ⟨-, rfl⟩, h⟩ := h
  cases decision with
  | retain => exact absurd h (by simp)
  | removeReference deletion =>
    simp only [bind_eq_ok, modify_eq_ok, check_eq_ok] at h
    obtain ⟨_, _, rfl, notBefore, _, ⟨-, rfl⟩, rfl⟩ := h
    exact ⟨notBefore, rfl⟩

/-- The state after the references `rows` of `db` were removed. -/
structure Evicted (rule : Rule) (db : CacheDb) (rows : List ReferenceRow) (db' : CacheDb) :
    Prop where
  objects : db'.objects = db.objects
  uploads : db'.uploads = db.uploads
  references : ∀ r, r ∈ db'.references ↔ r ∈ db.references ∧ r ∉ rows
  changes : Changes rule db db'

@[simp]
theorem queueIfUnreferenced_objects {repositoryId checksum : String} {notBefore : ℕ} :
    (db.queueIfUnreferenced repositoryId checksum notBefore).objects = db.objects := by
  rw [CacheDb.queueIfUnreferenced]
  split <;> rfl

@[simp]
theorem queueIfUnreferenced_uploads {repositoryId checksum : String} {notBefore : ℕ} :
    (db.queueIfUnreferenced repositoryId checksum notBefore).uploads = db.uploads := by
  rw [CacheDb.queueIfUnreferenced]
  split <;> rfl

@[simp]
theorem queueIfUnreferenced_references {repositoryId checksum : String} {notBefore : ℕ} :
    (db.queueIfUnreferenced repositoryId checksum notBefore).references = db.references := by
  rw [CacheDb.queueIfUnreferenced]
  split <;> rfl

/-- Removing one reference by its key. -/
theorem Evicted.single {row : ReferenceRow} (hrow : row ∈ db.references) (notBefore : ℕ) :
    Evicted rule db [row] ((db.deleteReference row.repositoryId row.identityDigest).queueIfUnreferenced
      row.repositoryId row.checksumSha256 notBefore) where
  objects := by simp [CacheDb.deleteReference]
  uploads := by simp [CacheDb.deleteReference]
  references := by
    intro r
    simp only [queueIfUnreferenced_references, CacheDb.deleteReference, Table.mem_delete,
      decide_eq_false_iff_not, List.mem_singleton]
    constructor
    · rintro ⟨hr, hkey⟩
      refine ⟨hr, ?_⟩
      rintro rfl
      exact hkey rfl
    · rintro ⟨hr, hne⟩
      exact ⟨hr, fun hkey => hne (Table.eq_of_key_eq hr hrow hkey)⟩
  changes := .single (.unreference notBefore hrow)

theorem Evicted.refl (db : CacheDb) : Evicted rule db [] db :=
  ⟨rfl, rfl, by simp, .refl⟩

theorem Evicted.trans {rows rows' : List ReferenceRow} {db'' : CacheDb}
    (h : Evicted rule db rows db') (h' : Evicted rule db' rows' db'') :
    Evicted rule db (rows ++ rows') db'' where
  objects := h'.objects.trans h.objects
  uploads := h'.uploads.trans h.uploads
  references := by
    intro r
    rw [h'.references, h.references, List.mem_append, not_or, and_assoc]
  changes := h.changes.trans h'.changes

/-- Evicting distinct rows one after the other: none of them is gone before its turn. -/
theorem evicted_of_forM {nowUnix : ℕ} {rows : List ReferenceRow} (hnodup : rows.Nodup)
    (hmem : ∀ row ∈ rows, row ∈ db.references)
    (h : (forM rows (expireReferenceRow nowUnix)).run db = .ok () db') :
    Evicted rule db rows db' := by
  induction rows generalizing db with
  | nil =>
    rw [List.forM_nil, pure_eq_ok] at h
    exact h.2 ▸ .refl db
  | cons row rows ih =>
    rw [List.forM_cons, bind_eq_ok] at h
    obtain ⟨_, db₁, hrow, hrest⟩ := h
    obtain ⟨notBefore, rfl⟩ := evictReferenceRow_eq_ok hrow
    have hsingle : Evicted rule db [row] _ := .single (hmem row (by simp)) notBefore
    obtain ⟨hnotMem, hnodup⟩ := List.nodup_cons.mp hnodup
    refine hsingle.trans (ih hnodup (fun r hr => ?_) hrest)
    rw [hsingle.references, List.mem_singleton]
    refine ⟨hmem r (by simp [hr]), ?_⟩
    rintro rfl
    exact hnotMem hr

theorem select_nodup {p : ReferenceRow → Bool} : (db.references.select p).Nodup :=
  (db.references.nodup.of_map _).filter p

theorem expireRepositoryReferences_eq_ok {repositoryId : String} {nowUnix : ℕ}
    (h : (expireRepositoryReferences repositoryId nowUnix).run db = .ok () db') :
    Evicted rule db (db.references.select fun r =>
      r.repositoryId = repositoryId && r.expiresAtUnix ≤ nowUnix) db' := by
  simp only [expireRepositoryReferences, bind_eq_ok, check_eq_ok, u64ToI64_eq_ok, get_eq_ok] at h
  obtain ⟨now, _, ⟨⟨-, rfl⟩, rfl⟩, _, _, ⟨rfl, rfl⟩, h⟩ := h
  exact evicted_of_forM select_nodup (fun row hrow => (Table.mem_select.mp hrow).1) h

theorem activeRepositoryBytes_eq_ok {repositoryId : String} {bytes : ℕ} :
    db.activeRepositoryBytes repositoryId = .ok bytes ↔
      db.repositoryBytes repositoryId = bytes ∧ bytes ≤ maxI64 := by
  rw [CacheDb.activeRepositoryBytes]
  split
  · next hle =>
    rw [Except.ok.injEq]
    exact ⟨fun h => ⟨h, h ▸ hle⟩, And.left⟩
  · next hlt =>
    simp only [reduceCtorEq, false_iff]
    rintro ⟨rfl, hle⟩
    exact hlt hle

theorem saturatingAddI64_le {a b c : ℕ} (hc : c < maxI64) :
    saturatingAddI64 a b ≤ c ↔ a + b ≤ c := by
  rw [saturatingAddI64]
  omega

theorem victim_mem {repositoryId protectedIdentity : String} {row : ReferenceRow}
    (h : victim db repositoryId protectedIdentity = some row) :
    row ∈ db.references ∧ row.repositoryId = repositoryId ∧
      row.identityDigest ≠ protectedIdentity := by
  have hselect := Table.mem_select.mp (Table.mem_of_first? h)
  simpa using hselect

/-- After `make_repository_room` the new bytes fit. -/
theorem makeRepositoryRoomLoop_eq_ok {repositoryId protectedIdentity : String}
    {additional budget nowUnix rounds : ℕ} (hbudget : budget < maxI64)
    (h : (makeRepositoryRoomLoop repositoryId protectedIdentity additional budget nowUnix
      rounds).run db = .ok () db') :
    (∃ rows, Evicted rule db rows db') ∧ db'.repositoryBytes repositoryId + additional ≤ budget := by
  induction rounds generalizing db with
  | zero => cases h
  | succ rounds ih =>
    simp only [makeRepositoryRoomLoop, makeRepositoryRoomRound, bind_eq_ok, check_eq_ok,
      activeRepositoryBytes_eq_ok] at h
    obtain ⟨usage, _, ⟨⟨rfl, -⟩, rfl⟩, h⟩ := h
    split at h
    · next hfits =>
      cases h
      exact ⟨⟨[], .refl _⟩, (saturatingAddI64_le hbudget).mp hfits⟩
    · simp only [get_bind_eq_ok] at h
      split at h
      · cases h
      · next row hvictim =>
        rw [bind_eq_ok] at h
        obtain ⟨_, db₁, hrow, hrest⟩ := h
        obtain ⟨notBefore, rfl⟩ := evictReferenceRow_eq_ok hrow
        obtain ⟨⟨rows, hevicted⟩, hfits⟩ := ih hrest
        exact ⟨⟨_, (Evicted.single (victim_mem hvictim).1 notBefore).trans hevicted⟩, hfits⟩

theorem makeRepositoryRoom_eq_ok {repositoryId protectedIdentity : String}
    {additional budget nowUnix : ℕ} (hbudget : budget < maxI64)
    (h : (makeRepositoryRoom repositoryId protectedIdentity additional budget nowUnix).run db =
      .ok () db') :
    (∃ rows, Evicted rule db rows db') ∧ db'.repositoryBytes repositoryId + additional ≤ budget := by
  rw [makeRepositoryRoom, get_bind_eq_ok] at h
  exact makeRepositoryRoomLoop_eq_ok hbudget h

/-! ## The transactions -/

theorem restore_changes {repositoryId identityDigest group : String} {nowUnix : ℕ}
    {result : Option CacheRestoreRecord}
    (h : (restore repositoryId identityDigest group nowUnix).run db = .ok result db') :
    Changes rule db db' := by
  simp only [restore, transaction_eq_ok, bind_eq_ok, check_eq_ok, get_eq_ok] at h
  obtain ⟨now, _, ⟨-, rfl⟩, _, _, ⟨rfl, rfl⟩, h⟩ := h
  split at h
  · cases h
    exact .refl
  · split at h
    · cases h
      exact .refl
    · simp only [bind_eq_ok, check_eq_ok, domain_eq_ok, modify_eq_ok] at h
      obtain ⟨current, _, ⟨-, rfl⟩, reference, _, ⟨-, rfl⟩, expiry, _, ⟨-, rfl⟩, _, _, rfl, h⟩ := h
      cases h
      exact .single (.touch ..)

theorem reuseStoredObject_changes {args : PrepareArgs} {now : ℕ} {identity : CacheDigest}
    {leaseId : UploadLeaseId} {object : CacheObjectRecord} {result : CachePrepareResult}
    (hobject : db.storedObject args.repositoryId args.checksumSha256 = some object)
    (hcurrent : db.currentReference args.repositoryId args.identityDigest = none)
    (hrule : rule.reuse db object)
    (h : (reuseStoredObject args now identity leaseId object).run db = .ok result db') :
    Changes rule db db' := by
  simp only [reuseStoredObject, bind_eq_ok, check_eq_ok, domain_eq_ok, rejectIf_eq_ok] at h
  obtain ⟨_, _, ⟨hclaim, rfl⟩, _, _, ⟨-, rfl⟩, group, _, ⟨-, rfl⟩, stored, _, ⟨-, rfl⟩, decision, _,
    ⟨-, rfl⟩, h⟩ := h
  obtain ⟨hmem, hkey⟩ := Table.find?_eq_some.mp hobject
  cases decision with
  | upload lease => cases h
  | useObject reference =>
    simp only [bind_eq_ok, check_eq_ok, modify_eq_ok] at h
    obtain ⟨expiry, _, ⟨-, rfl⟩, _, _, rfl, h⟩ := h
    cases h
    exact .single (.reuse hmem hkey (Bool.eq_false_iff.mpr hclaim) hcurrent hrule)

theorem startUpload_changes {args : PrepareArgs} {now size : ℕ} {requestedObject : CacheObject}
    {identity : CacheDigest} {leaseId : UploadLeaseId} {result : CachePrepareResult}
    (hobject : db.storedObject args.repositoryId args.checksumSha256 = none)
    (hdigest : isDigest args.checksumSha256 = true)
    (hrule : ∀ upload : CacheUploadRecord, upload.uploadId = args.uploadId → rule.start upload)
    (h : (startUpload args now size requestedObject identity leaseId).run db = .ok result db') :
    Changes rule db db' := by
  have hbudget : MAX_REPOSITORY_CACHE_BYTES < maxI64 := by decide
  simp only [startUpload, bind_eq_ok, check_eq_ok, domain_eq_ok, u64ToI64_eq_ok] at h
  obtain ⟨budget, _, ⟨⟨-, rfl⟩, rfl⟩, _, db₁, hroom, _, _, ⟨-, rfl⟩, group, _, ⟨-, rfl⟩, decision, _,
    ⟨-, rfl⟩, h⟩ := h
  obtain ⟨⟨rows, hevicted⟩, hfits⟩ : (∃ rows, Evicted rule db rows db₁) ∧ _ :=
    makeRepositoryRoom_eq_ok hbudget hroom
  cases decision with
  | useObject reference => cases h
  | upload lease =>
    simp only [insertUpload, bind_eq_ok, check_eq_ok, rejectIf_eq_ok, modify_eq_ok] at h
    obtain ⟨expiry, _, ⟨-, rfl⟩, _, _, ⟨_, _, ⟨hfresh, rfl⟩, rfl⟩, h⟩ := h
    cases h
    refine hevicted.changes.tail (.start rfl hdigest rfl ?_ ?_ hfits (hrule _ rfl))
    · rw [hevicted.objects]
      exact Table.find?_eq_none.mp hobject
    · intro u hu
      have hany := Table.any_eq_false.mp (Bool.eq_false_iff.mpr hfresh) u hu
      simp only [Bool.or_eq_false_iff, decide_eq_false_iff_not] at hany
      exact hany.1

/-- The state of a store after `prepare_upload` has expired the references of its repository. -/
def Expired (repositoryId : String) (nowUnix : ℕ) (db db' : CacheDb) : Prop :=
  db'.objects = db.objects ∧ db'.uploads = db.uploads ∧
    ∀ r, r ∈ db'.references ↔
      r ∈ db.references ∧ ¬ (r.repositoryId = repositoryId ∧ r.expiresAtUnix ≤ nowUnix)

theorem Evicted.expired {repositoryId : String} {nowUnix : ℕ}
    (h : Evicted rule db (db.references.select fun r =>
      r.repositoryId = repositoryId && r.expiresAtUnix ≤ nowUnix) db') :
    Expired repositoryId nowUnix db db' := by
  refine ⟨h.objects, h.uploads, fun r => ?_⟩
  rw [h.references, Table.mem_select]
  simp only [Bool.and_eq_true, decide_eq_true_eq]
  constructor
  · exact fun ⟨hr, hnot⟩ => ⟨hr, fun hexpired => hnot ⟨hr, hexpired⟩⟩
  · exact fun ⟨hr, hnot⟩ => ⟨hr, fun hselected => hnot hselected.2⟩

theorem prepare_changes {args : PrepareArgs} {result : CachePrepareResult}
    (hrule : ∀ db₁ object, Expired args.repositoryId args.nowUnix db db₁ →
      db₁.currentReference args.repositoryId args.identityDigest = none →
      db₁.storedObject args.repositoryId args.checksumSha256 = some object → rule.reuse db₁ object)
    (hstart : ∀ upload : CacheUploadRecord, upload.uploadId = args.uploadId → rule.start upload)
    (h : (prepare args).run db = .ok result db') : Changes rule db db' := by
  simp only [prepare, transaction_eq_ok, bind_eq_ok, check_eq_ok, domain_eq_ok, get_eq_ok,
    CacheDigest.parse_eq_ok] at h
  obtain ⟨now, _, ⟨-, rfl⟩, size, _, ⟨-, rfl⟩, repository, _, ⟨-, rfl⟩, digest, _, ⟨hdigest, rfl⟩,
    requested, _, ⟨-, rfl⟩, identity, _, ⟨-, rfl⟩, leaseId, _, ⟨-, rfl⟩, _, db₁, hexpire, _, _,
    ⟨rfl, rfl⟩, h⟩ := h
  have hevicted : Evicted rule db _ db₁ := expireRepositoryReferences_eq_ok hexpire
  refine hevicted.changes.trans ?_
  split at h
  · -- the identity has a current reference
    simp only [bind_eq_ok, check_eq_ok] at h
    obtain ⟨_, _, ⟨-, rfl⟩, h⟩ := h
    split at h
    · cases h
    · cases h
      exact .refl
  · next hcurrent =>
    split at h
    · next object hobject =>
      exact reuseStoredObject_changes hobject hcurrent
        (hrule db₁ object hevicted.expired hcurrent hobject) h
    · next hobject => exact startUpload_changes hobject (hdigest ▸ digest.valid) hstart h

theorem publishUpload_changes {upload : CacheUploadRecord} {now : ℕ} {uploaded : CacheObject}
    {reference : CacheReference} {result : CacheCommitResult} (hupload : upload ∈ db.uploads)
    (hactive : upload.state = .active)
    (hcurrent : db.currentReference upload.repositoryId upload.identityDigest = none)
    (hrule : rule.publish upload)
    (h : (publishUpload upload now uploaded reference).run db = .ok result db') :
    Changes rule db db' := by
  simp only [publishUpload, bind_eq_ok, check_eq_ok, modify_eq_ok, u64ToI64_eq_ok] at h
  obtain ⟨size, _, ⟨⟨-, rfl⟩, rfl⟩, createdAt, _, ⟨-, rfl⟩, _, _, rfl, object, _, ⟨-, rfl⟩, _, _,
    ⟨-, rfl⟩, expiry, _, ⟨-, rfl⟩, _, _, rfl, h⟩ := h
  cases h
  exact .single (.publish hupload hactive rfl rfl rfl rfl hcurrent hrule)

theorem setUploadState_change {upload : CacheUploadRecord} {state : CacheUploadState}
    {lease : Option ℕ} (hupload : upload ∈ db.uploads) (hopen : upload.isOpen = true) :
    Change rule db (db.setUploadState upload.uploadId state lease) := by
  refine .settleUploads db _ _ _ (fun u => ⟨rfl, rfl, rfl⟩) fun u hu hid => ?_
  rw [decide_eq_true_eq] at hid
  rwa [Table.eq_of_key_eq hu hupload hid]

theorem commitUpload_eq_committed {lease : UploadLease} {object : CacheObject}
    {current : Option CacheReference} {nowUnix : ℕ} {reference : CacheReference}
    (h : commitUpload lease object current nowUnix = .ok (.committed reference)) :
    current = none := by
  simp only [commitUpload, except_bind_eq_ok] at h
  obtain ⟨_, -, _, -, h⟩ := h
  cases current with
  | none => rfl
  | some reference =>
    simp only at h
    split at h <;> cases h

theorem commit_changes {uploadId : String} {nowUnix : ℕ} {result : CacheCommitResult}
    (hrule : ∀ upload, db.uploads.find? uploadId = some upload → rule.publish upload)
    (h : (commit uploadId nowUnix).run db = .ok result db') : Changes rule db db' := by
  simp only [commit, transaction_eq_ok, bind_eq_ok, check_eq_ok, domain_eq_ok, get_eq_ok] at h
  obtain ⟨now, _, ⟨-, rfl⟩, upload, _, ⟨hlive, rfl⟩, _, _, ⟨rfl, rfl⟩, current, _, ⟨hcurrent, rfl⟩,
    h⟩ := h
  obtain ⟨hfind, hstate⟩ : db.uploads.find? uploadId = some upload ∧
      (upload.state = .active ∨ upload.state = .committed) := by
    rw [liveUpload] at hlive
    split at hlive
    · next hfind =>
      split at hlive
      · next hstate =>
        cases hlive
        exact ⟨hfind, hstate⟩
      · cases hlive
    · cases hlive
  obtain ⟨hupload, hid⟩ := Table.find?_eq_some.mp hfind
  by_cases hcommitted : upload.state = .committed
  · -- a commit that is repeated writes nothing
    rw [if_pos hcommitted, recommit.eq_def] at h
    split at h
    · cases h
    · simp only [bind_eq_ok, check_eq_ok] at h
      obtain ⟨_, _, ⟨-, rfl⟩, object, _, ⟨-, rfl⟩, h⟩ := h
      cases h
      exact .refl
  · have hactive : upload.state = .active := hstate.resolve_right hcommitted
    have hopen : upload.isOpen = true := by simp [CacheUploadRecord.isOpen, hactive]
    rw [if_neg hcommitted] at h
    simp only [bind_eq_ok, domain_eq_ok] at h
    obtain ⟨repository, _, ⟨-, rfl⟩, digest, _, ⟨-, rfl⟩, uploaded, _, ⟨-, rfl⟩, lease, _, ⟨-, rfl⟩,
      h⟩ := h
    split at h
    · simp only [bind_eq_ok, check_eq_ok, modify_eq_ok] at h
      obtain ⟨lapsed, _, ⟨-, rfl⟩, _, _, rfl, h⟩ := h
      cases h
      exact hid ▸ .single (setUploadState_change hupload hopen)
    · cases h
    · simp only [bind_eq_ok, check_eq_ok, modify_eq_ok] at h
      obtain ⟨object, _, ⟨-, rfl⟩, _, _, rfl, h⟩ := h
      cases h
      exact hid ▸ .single (setUploadState_change hupload hopen)
    · next hdecision =>
      have hnone := commitUpload_eq_committed hdecision
      subst hnone
      have hfresh : db.currentReference upload.repositoryId upload.identityDigest = none := by
        cases hc : db.currentReference upload.repositoryId upload.identityDigest with
        | none => rfl
        | some row =>
          simp only [hc, Option.mapM_some] at hcurrent
          cases hrow : domainReference row with
          | error e => simp [hrow] at hcurrent
          | ok reference => simp [hrow] at hcurrent
      exact publishUpload_changes hupload hactive hfresh (hrule upload hfind) h

theorem mem_of_mem_firstRows {ρ : Type} {time : ρ → ℕ} {limit : ℕ} {rows : List ρ} {r : ρ}
    (h : r ∈ firstRows time limit rows) : r ∈ rows :=
  (List.mem_insertionSort _).mp (List.mem_of_mem_take h)

theorem firstRows_nodup {ρ : Type} {time : ρ → ℕ} {limit : ℕ} {rows : List ρ} (h : rows.Nodup) :
    (firstRows time limit rows).Nodup :=
  (List.take_sublist _ _).nodup ((List.perm_insertionSort _ _).nodup_iff.mpr h)

theorem expireReferences_changes {nowUnix limit count : ℕ}
    (h : (expireReferences nowUnix limit).run db = .ok count db') : Changes rule db db' := by
  simp only [expireReferences, transaction_eq_ok, bind_eq_ok, check_eq_ok, get_eq_ok] at h
  obtain ⟨now, _, ⟨-, rfl⟩, limit, _, ⟨-, rfl⟩, _, _, ⟨rfl, rfl⟩, _, _, hexpire, h⟩ := h
  cases h
  have hevicted : Evicted rule _ _ _ := evicted_of_forM (firstRows_nodup select_nodup)
    (fun row hrow => (Table.mem_select.mp (mem_of_mem_firstRows hrow)).1) hexpire
  exact hevicted.changes

/-- An upload that is due for cleanup is open. -/
theorem isOpen_of_isDue {u : CacheUploadRecord} {now : ℕ} (h : u.isDue now = true) :
    u.isOpen = true := by
  simp only [CacheUploadRecord.isDue, CacheUploadRecord.isOpen, Bool.or_eq_true, Bool.and_eq_true,
    decide_eq_true_eq] at h ⊢
  exact h.imp And.left And.left

theorem expireUploads_changes {nowUnix limit : ℕ} {claims : List CacheUploadCleanupClaim}
    (h : (expireUploads nowUnix limit).run db = .ok claims db') : Changes rule db db' := by
  simp only [expireUploads, transaction_eq_ok, bind_eq_ok, check_eq_ok, get_eq_ok,
    modify_eq_ok] at h
  obtain ⟨now, _, ⟨-, rfl⟩, limit, _, ⟨-, rfl⟩, cleanupExpiry, _, ⟨-, rfl⟩, _, _, ⟨rfl, rfl⟩, _, _,
    rfl, h⟩ := h
  cases h
  refine .single (.settleUploads _ _ _ _ (fun u => ⟨rfl, rfl, rfl⟩) fun u hu hdue => ?_)
  rw [decide_eq_true_eq, List.mem_map] at hdue
  obtain ⟨u', hu', hid⟩ := hdue
  obtain ⟨hmem, hdue⟩ := Table.mem_select.mp (mem_of_mem_firstRows hu')
  rw [Table.eq_of_key_eq hu hmem hid.symm]
  exact isOpen_of_isDue hdue

theorem cleanupUpload_changes {claim : CacheUploadCleanupClaim} {outcome : DeleteOutcome}
    (h : (cleanupUpload claim outcome).run db = .ok () db') : Changes rule db db' := by
  simp only [cleanupUpload, transaction_eq_ok, get_bind_eq_ok] at h
  split at h
  · cases outcome with
    | deleted =>
      rw [modify_eq_ok] at h
      exact h ▸ .single (.dropUploads db _)
    | failed tookEffect => cases h
  · cases h
    exact .refl

theorem expireCommittedUploads_changes {nowUnix limit : ℕ}
    (h : (expireCommittedUploads nowUnix limit).run db = .ok () db') : Changes rule db db' := by
  simp only [expireCommittedUploads, transaction_eq_ok, bind_eq_ok, check_eq_ok, modify_eq_ok] at h
  obtain ⟨now, _, ⟨-, rfl⟩, limit, _, ⟨-, rfl⟩, rfl⟩ := h
  exact .single (.dropUploads ..)

theorem claimDeletion_changes {candidate : String × String} {nowUnix retryAtUnix : ℕ}
    {deletion : Option PendingCacheDeletion}
    (h : (claimDeletion candidate nowUnix retryAtUnix).run db = .ok deletion db') :
    Changes rule db db' := by
  simp only [claimDeletion, transaction_eq_ok, bind_eq_ok, check_eq_ok, get_eq_ok] at h
  obtain ⟨now, _, ⟨-, rfl⟩, retryAt, _, ⟨-, rfl⟩, _, _, ⟨rfl, rfl⟩, h⟩ := h
  split at h
  · split at h
    · next hdue =>
      simp only [bind_eq_ok, modify_eq_ok] at h
      obtain ⟨_, _, rfl, h⟩ := h
      cases h
      exact .single (.claim retryAt hdue.2)
    · cases h
      exact .refl
  · cases h
    exact .refl

theorem completeDeletion_changes {repositoryId checksum : String} {deleted : Bool}
    (h : (completeDeletion repositoryId checksum).run db = .ok deleted db') :
    Changes rule db db' := by
  simp only [completeDeletion, transaction_eq_ok, get_bind_eq_ok] at h
  split at h
  · next hclaimed =>
    simp only [bind_eq_ok, modify_eq_ok] at h
    obtain ⟨_, _, rfl, h⟩ := h
    cases h
    exact .single (.complete repositoryId checksum hclaimed.2.2)
  · cases h
    exact .refl

theorem failDeletion_changes {deletion : PendingCacheDeletion} {retryAtUnix : ℕ} {error : String}
    (h : (failDeletion deletion retryAtUnix error).run db = .ok () db') : Changes rule db db' := by
  simp only [failDeletion, transaction_eq_ok, bind_eq_ok, check_eq_ok, modify_eq_ok] at h
  obtain ⟨retryAt, _, ⟨-, rfl⟩, rfl⟩ := h
  exact .single (.postpone ..)

end ScopeVcs.Caches
