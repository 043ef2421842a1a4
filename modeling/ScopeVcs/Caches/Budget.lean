import ScopeVcs.Caches.BlobSafety

/-! # The cache budget of a repository

The bytes of a repository grow where an upload starts, which is checked, and where a stored object
that nothing refers to is referred to again, which is not.
-/

namespace ScopeVcs.Caches

open Mutation IntegerColumns Transition

variable {rule : Rule} {db db' : CacheDb} {repositoryId : String}

/-! ## The bytes of a repository under a change -/

namespace CacheDb

/-- What an object adds to the bytes of a repository. -/
def objectBytes (db : CacheDb) (repositoryId : String) (o : CacheObjectRecord) : ℕ :=
  if o.repositoryId = repositoryId && db.isReferenced o.key then o.sizeBytes else 0

/-- What an upload adds to the bytes of a repository. -/
def uploadBytes (repositoryId : String) (u : CacheUploadRecord) : ℕ :=
  if u.repositoryId = repositoryId && u.isOpen then u.sizeBytes else 0

theorem repositoryBytes_eq (db : CacheDb) (repositoryId : String) :
    db.repositoryBytes repositoryId =
      db.objects.total (db.objectBytes repositoryId) + db.uploads.total (uploadBytes repositoryId) := by
  rw [repositoryBytes, Table.sum_select, Table.sum_select]
  rfl

/-- With fewer references, fewer bytes. -/
theorem objectBytes_le {o : CacheObjectRecord}
    (h : db'.isReferenced o.key = true → db.isReferenced o.key = true) :
    db'.objectBytes repositoryId o ≤ db.objectBytes repositoryId o := by
  simp only [objectBytes, Bool.and_eq_true, decide_eq_true_eq]
  split
  · next h' => rw [if_pos ⟨h'.1, h h'.2⟩]
  · exact Nat.zero_le _

theorem repositoryBytes_le {db db' : CacheDb} (hobjects : db'.objects = db.objects) (huploads : db'.uploads = db.uploads)
    (hreferences : ∀ target, db'.isReferenced target = true → db.isReferenced target = true) :
    db'.repositoryBytes repositoryId ≤ db.repositoryBytes repositoryId := by
  rw [repositoryBytes_eq, repositoryBytes_eq, hobjects, huploads]
  exact Nat.add_le_add_right (Table.total_le fun o _ => objectBytes_le (hreferences o.key)) _

theorem isReferenced_mono (h : ∀ r ∈ db'.references, ∃ r₀ ∈ db.references, r₀.target = r.target)
    (target : String × String) (hreferenced : db'.isReferenced target = true) :
    db.isReferenced target = true := by
  obtain ⟨r, hr, htarget⟩ := isReferenced_eq_true.mp hreferenced
  obtain ⟨r₀, hr₀, htarget₀⟩ := h r hr
  exact isReferenced_eq_true.mpr ⟨r₀, hr₀, htarget₀.trans htarget⟩

theorem uploads_total_le {p : CacheUploadRecord → Bool} {f : CacheUploadRecord → CacheUploadRecord}
    (hid : ∀ u, (f u).uploadId = u.uploadId)
    (hsame : ∀ u, (f u).target = u.target ∧ (f u).objectKey = u.objectKey ∧
      (f u).sizeBytes = u.sizeBytes)
    (hopen : ∀ u ∈ db.uploads, p u = true → u.isOpen = true) :
    (db.uploads.update p f hid).total (uploadBytes repositoryId) ≤
      db.uploads.total (uploadBytes repositoryId) := by
  rw [Table.total_update]
  refine Table.total_le fun u hu => ?_
  split
  · next hp =>
    have hrepository : (f u).repositoryId = u.repositoryId := congrArg Prod.fst (hsame u).1
    simp only [uploadBytes, hopen u hu hp, hrepository, (hsame u).2.2, Bool.and_true,
      Bool.and_eq_true, decide_eq_true_eq]
    split
    · next h => rw [if_pos h.1]
    · exact Nat.zero_le _
  · exact le_rfl

/-- A new reference counts its object once. -/
theorem repositoryBytes_insertReference {object : CacheObjectRecord} {row : ReferenceRow}
    (hobject : object ∈ db.objects) (hkey : object.key = row.target) :
    (db.insertReference row).repositoryBytes repositoryId ≤ db.repositoryBytes repositoryId +
      (if object.repositoryId = repositoryId && !db.isReferenced object.key then object.sizeBytes
        else 0) := by
  rw [repositoryBytes_eq, repositoryBytes_eq]
  have hreferenced : ∀ o : CacheObjectRecord, o.key ≠ object.key →
      (db.insertReference row).isReferenced o.key = true → db.isReferenced o.key = true := by
    intro o hne h
    obtain ⟨r, hr, htarget⟩ := isReferenced_eq_true.mp h
    rcases Table.mem_of_mem_insert hr with hr | rfl
    · exact isReferenced_eq_true.mpr ⟨r, hr, htarget⟩
    · exact absurd (htarget.symm.trans hkey.symm) hne
  -- every other object weighs at most what it did
  have hothers : (db.insertReference row).objects.total
      ((db.insertReference row).objectBytes repositoryId) ≤
      db.objects.total fun o => if o = object then
        (db.insertReference row).objectBytes repositoryId o else db.objectBytes repositoryId o := by
    refine Table.total_le fun o ho => ?_
    split
    · exact le_rfl
    · next hne =>
      exact objectBytes_le (hreferenced o fun h => hne (Table.eq_of_key_eq ho hobject h))
  have hone := Table.total_add_of_mem (fun o => if o = object then
      (db.insertReference row).objectBytes repositoryId o else db.objectBytes repositoryId o)
    (db.objectBytes repositoryId) hobject (fun o _ hne => if_neg hne)
  rw [if_pos rfl] at hone
  have hweight : (db.insertReference row).objectBytes repositoryId object ≤
      db.objectBytes repositoryId object +
        (if object.repositoryId = repositoryId && !db.isReferenced object.key then object.sizeBytes
          else 0) := by
    simp only [objectBytes]
    by_cases hrepository : object.repositoryId = repositoryId <;>
      cases db.isReferenced object.key <;> simp [hrepository] <;> split <;> simp
  have huploads : (db.insertReference row).uploads = db.uploads := rfl
  rw [huploads]
  omega

end CacheDb

open CacheDb

/-- Where a stored object may be referred to again, its bytes fit. -/
def RuleFits (rule : Rule) : Prop :=
  ∀ db object, rule.reuse db object → db.isReferenced object.key = false →
    db.repositoryBytes object.repositoryId + object.sizeBytes ≤ MAX_REPOSITORY_CACHE_BYTES

def WithinBudget (db : CacheDb) : Prop :=
  ∀ repositoryId, db.repositoryBytes repositoryId ≤ MAX_REPOSITORY_CACHE_BYTES

/-- A published upload turns its bytes into those of an object nothing else refers to. -/
theorem publish_repositoryBytes (hsound : db.Sound) {upload : CacheUploadRecord}
    {object : CacheObjectRecord} {row : ReferenceRow} (hupload : upload ∈ db.uploads)
    (hopen : upload.isOpen = true) (hkey : object.key = upload.target)
    (hsize : object.sizeBytes = upload.sizeBytes) (htarget : row.target = upload.target) :
    (db.publish object row upload.uploadId).repositoryBytes repositoryId ≤
      db.repositoryBytes repositoryId := by
  have hunstored : ∀ o ∈ db.objects, o.key ≠ object.key :=
    fun o ho => hkey ▸ hsound.openUnstored upload hupload hopen o ho
  have hfind : db.objects.find? object.key = none := Table.find?_eq_none.mpr hunstored
  rw [repositoryBytes_eq, repositoryBytes_eq]
  have hobjects : (db.publish object row upload.uploadId).objects.total
      ((db.publish object row upload.uploadId).objectBytes repositoryId) ≤
      db.objects.total (db.objectBytes repositoryId) +
        (if upload.repositoryId = repositoryId then upload.sizeBytes else 0) := by
    change (db.objects.insert object).total _ ≤ _
    rw [Table.total_insert hfind]
    refine Nat.add_le_add (Table.total_le fun o ho => objectBytes_le fun h => ?_) ?_
    · obtain ⟨r, hr, hrtarget⟩ := isReferenced_eq_true.mp h
      rcases Table.mem_of_mem_insert hr with hr | rfl
      · exact isReferenced_eq_true.mpr ⟨r, hr, hrtarget⟩
      · exact absurd (hrtarget.symm.trans (htarget.trans hkey.symm)) (hunstored o ho)
    · have hrepository : object.repositoryId = upload.repositoryId := congrArg Prod.fst hkey
      rw [objectBytes, hrepository, hsize]
      split
      · next h =>
        rw [Bool.and_eq_true, decide_eq_true_eq] at h
        rw [if_pos h.1]
      · exact Nat.zero_le _
  have huploads : (db.publish object row upload.uploadId).uploads.total (uploadBytes repositoryId) +
      (if upload.repositoryId = repositoryId then upload.sizeBytes else 0) ≤
      db.uploads.total (uploadBytes repositoryId) := by
    change (db.uploads.update _ _ (by intro _; rfl)).total _ + _ ≤ _
    rw [Table.total_update]
    have hone := Table.total_add_of_mem (fun u => if decide (u.uploadId = upload.uploadId) then
        uploadBytes repositoryId { u with state := .committed, cleanupLeaseExpiresAtUnix := none }
        else uploadBytes repositoryId u) (uploadBytes repositoryId) hupload (fun u hu hne => by
      have hid : u.uploadId ≠ upload.uploadId := fun h => hne (Table.eq_of_key_eq hu hupload h)
      simp [hid])
    have hcommitted : uploadBytes repositoryId
        { upload with state := .committed, cleanupLeaseExpiresAtUnix := none } = 0 := by
      simp [uploadBytes, CacheUploadRecord.isOpen]
    have hweight : uploadBytes repositoryId upload =
        if upload.repositoryId = repositoryId then upload.sizeBytes else 0 := by
      simp [uploadBytes, hopen]
    simp only [decide_true, if_true, hcommitted, hweight] at hone
    exact le_of_eq hone
  omega

/-- The step lemma: one change keeps every repository within its budget. -/
theorem Change.withinBudget (hsound : db.Sound) (hfits : RuleFits rule) (h : Change rule db db')
    (hbudget : WithinBudget db) : WithinBudget db' := by
  intro repositoryId
  cases h with
  | touch =>
    refine le_trans ?_ (hbudget repositoryId)
    refine repositoryBytes_le rfl rfl (isReferenced_mono fun r hr => ?_)
    obtain ⟨r₀, hr₀, rfl⟩ := (Table.mem_update (by intro _; rfl)).mp hr
    refine ⟨r₀, hr₀, ?_⟩
    split <;> rfl
  | unreference =>
    refine le_trans ?_ (hbudget repositoryId)
    refine repositoryBytes_le queueIfUnreferenced_objects queueIfUnreferenced_uploads
      (isReferenced_mono fun r hr => ?_)
    rw [queueIfUnreferenced_references] at hr
    exact ⟨r, (Table.mem_delete.mp hr).1, rfl⟩
  | @reuse object row hobject hkey hunclaimed hfresh hrule =>
    have hle : (db.insertReference row).repositoryBytes repositoryId ≤ _ :=
      repositoryBytes_insertReference hobject hkey
    change (db.insertReference row).repositoryBytes repositoryId ≤ _
    by_cases hnew : (object.repositoryId = repositoryId && !db.isReferenced object.key) = true
    · rw [if_pos hnew] at hle
      rw [Bool.and_eq_true, decide_eq_true_eq, Bool.not_eq_true'] at hnew
      have hfit := hfits db object hrule hnew.2
      rw [hnew.1] at hfit
      omega
    · rw [if_neg hnew] at hle
      exact hle.trans (hbudget repositoryId)
  | @start upload hactive hdigest hobjectKey hunstored hfresh hfit hrule =>
    have hfind : db.uploads.find? upload.uploadId = none :=
      Table.find?_eq_none.mpr fun u hu => (hfresh u hu).1
    have hbytes := hbudget repositoryId
    rw [repositoryBytes_eq] at hbytes hfit ⊢
    change db.objects.total (db.objectBytes repositoryId) + (db.uploads.insert upload).total _ ≤ _
    rw [Table.total_insert hfind]
    by_cases hrepository : upload.repositoryId = repositoryId
    · rw [hrepository] at hfit
      have hweight : uploadBytes repositoryId upload ≤ upload.sizeBytes := by
        rw [uploadBytes]
        split
        · exact le_rfl
        · exact Nat.zero_le _
      omega
    · have hweight : uploadBytes repositoryId upload = 0 := by simp [uploadBytes, hrepository]
      omega
  | publish hupload hactive hkey hobjectKey hsize htarget hfresh hrule =>
    exact (publish_repositoryBytes hsound hupload (by simp [CacheUploadRecord.isOpen, hactive]) hkey
      hsize htarget).trans (hbudget repositoryId)
  | settleUploads p f hid hsame hopen =>
    have hbytes := hbudget repositoryId
    rw [repositoryBytes_eq] at hbytes ⊢
    exact (Nat.add_le_add_left (uploads_total_le hid hsame hopen) _).trans hbytes
  | dropUploads p =>
    have hbytes := hbudget repositoryId
    rw [repositoryBytes_eq] at hbytes ⊢
    refine (Nat.add_le_add_left ?_ _).trans hbytes
    rw [Table.total_delete]
    refine Table.total_le fun u _ => ?_
    split
    · exact Nat.zero_le _
    · exact le_rfl
  | claim => exact hbudget repositoryId
  | complete repositoryId' checksum hunreferenced =>
    have hbytes := hbudget repositoryId
    rw [repositoryBytes_eq] at hbytes ⊢
    refine (Nat.add_le_add_right ?_ _).trans hbytes
    rw [Table.total_delete]
    refine Table.total_le fun o _ => ?_
    split
    · exact Nat.zero_le _
    · exact le_rfl
  | postpone => exact hbudget repositoryId

theorem Changes.withinBudget (hsound : db.Sound) (hfits : RuleFits rule) (h : Changes rule db db')
    (hbudget : WithinBudget db) : WithinBudget db' := by
  induction h with
  | refl => exact hbudget
  | tail hchanges hchange ih => exact hchange.withinBudget (hsound.changes hchanges) hfits ih

/-! ## Refusals -/

/-- A failure that is not for lack of room. -/
def NotExhausted (e : PostgresError) : Prop := e.kind ≠ .resourceExhausted

/-- A failure of the cache domain that is not for lack of room. -/
def NotOverBudget (e : CacheDomainError) : Prop :=
  ∀ requested maximum, e ≠ .repositoryBudgetExceeded requested maximum

theorem failsWith_domain {α : Type} {x : Except CacheDomainError α} (hx : Rejects NotOverBudget x) :
    FailsWith NotExhausted (domain x) := by
  refine .check fun _ e h => ?_
  cases x with
  | ok a => cases h
  | error d =>
    cases h
    have hd := hx d rfl
    cases d with
    | repositoryBudgetExceeded requested maximum => exact absurd rfl (hd requested maximum)
    | _ => simp [NotExhausted, CacheDomainError.toPostgres]

theorem rejects_u64ToI64 (value : ℕ) (field : String) :
    Rejects NotExhausted (u64ToI64 value field) :=
  fun e h hkind => by simp [u64ToI64_eq_error h] at hkind

theorem failsWith_u64ToI64 (value : ℕ) (field : String) :
    FailsWith NotExhausted (check fun _ => u64ToI64 value field : CacheTx ℕ) :=
  .check fun _ => rejects_u64ToI64 value field

theorem rejects_after (seconds nowUnix : ℕ) : Rejects NotOverBudget (after seconds nowUnix) := by
  intro e h
  rw [after] at h
  cases hsum : U64.checkedAdd nowUnix seconds with
  | some time => simp [hsum] at h
  | none =>
    rw [hsum] at h
    cases h
    simp [NotOverBudget]

theorem rejects_nonBlank {missing : CacheDomainError} (hmissing : NotOverBudget missing)
    (value : String) : Rejects NotOverBudget (NonBlank.parse missing value) := by
  intro e h
  rw [NonBlank.parse] at h
  split at h
  · cases h
  · cases h
    exact hmissing

theorem rejects_digest (value : String) : Rejects NotOverBudget (CacheDigest.parse value) := by
  intro e h
  rw [CacheDigest.parse] at h
  split at h
  · cases h
  · cases h
    simp [NotOverBudget]

theorem rejects_object (repositoryId : RepositoryId) (digest : CacheDigest) (size created : ℕ) :
    Rejects NotOverBudget (CacheObject.new repositoryId digest size created) := by
  refine .bind (.bind (.rejectIf ?_) fun _ => .rejectIf ?_) fun _ => .ok _ <;>
    simp [NotOverBudget]

theorem rejects_domainReference (row : ReferenceRow) :
    Rejects NotOverBudget (domainReference row) := by
  refine .bind (rejects_nonBlank (by simp [NotOverBudget]) _) fun _ =>
    .bind (rejects_digest _) fun _ => .bind (rejects_digest _) fun _ =>
    .bind (rejects_digest _) fun _ => .bind (rejects_after _ _) fun _ =>
    .bind (.rejectIf (by simp [NotOverBudget])) fun _ => .ok _

theorem rejects_eviction (reference : CacheReference) (storageBytes nowUnix : ℕ) :
    Rejects NotOverBudget (decideReferenceEviction reference storageBytes nowUnix) := by
  rw [decideReferenceEviction]
  split
  · exact .bind (.bind (rejects_after _ _) fun _ => .ok _) fun _ => .ok _
  · exact .ok _

theorem failsWith_evictReferenceRow (storageBytes : ℕ) (retained : String) (nowUnix : ℕ)
    (row : ReferenceRow) :
    FailsWith NotExhausted (evictReferenceRow storageBytes retained nowUnix row) := by
  refine .bind (failsWith_domain (rejects_domainReference row)) fun reference =>
    .bind (failsWith_domain (rejects_eviction reference storageBytes nowUnix)) fun decision => ?_
  cases decision with
  | retain => exact .throw (by simp [NotExhausted, PostgresError.internalMessage])
  | removeReference deletion =>
    exact .bind (.modify _) fun _ => .bind (failsWith_u64ToI64 _ _) fun _ => .modify _

theorem failsWith_expireRepositoryReferences (repositoryId : String) (nowUnix : ℕ) :
    FailsWith NotExhausted (expireRepositoryReferences repositoryId nowUnix) :=
  .bind (failsWith_u64ToI64 _ _) fun _ => .bind .get fun _ =>
    .forM (failsWith_evictReferenceRow _ _ nowUnix) _

theorem rejects_activeRepositoryBytes (db : CacheDb) (repositoryId : String) :
    Rejects NotExhausted (db.activeRepositoryBytes repositoryId) := by
  rw [CacheDb.activeRepositoryBytes]
  split
  · exact .ok _
  · exact .error (by simp [NotExhausted, PostgresError.internalMessage])

theorem rejects_pointTo (identity group : CacheDigest) (object : CacheObject) (nowUnix : ℕ) :
    Rejects NotOverBudget (CacheReference.pointTo identity group object nowUnix) :=
  .bind (rejects_after _ _) fun _ => .ok _

/-- The decision on a new upload fails for lack of room only when the bytes do not fit. -/
theorem rejects_prepareUpload {request : PrepareUpload} (hcurrent : request.currentReference = none)
    (hfits : request.objectAlreadyStored = true ∨
      request.repositoryStorageBytes + request.object.sizeBytes ≤ MAX_REPOSITORY_CACHE_BYTES) :
    Rejects NotOverBudget (prepareUpload request) := by
  rw [prepareUpload]
  refine .bind (.rejectIf (by simp [NotOverBudget])) fun _ => ?_
  rw [hcurrent]
  dsimp only
  split
  · exact .bind (rejects_pointTo _ _ _ _) fun _ => .ok _
  · next hstored =>
    have hgrowth := validateRepositoryGrowth_eq_ok (u := ()).mpr (hfits.resolve_left hstored)
    refine .bind (fun e h => ?_) fun _ => .bind (.bind (rejects_after _ _) fun _ => .ok _)
      fun _ => .ok _
    simp [hgrowth] at h

theorem failsWith_reuseStoredObject (args : PrepareArgs) (now : ℕ) (identity : CacheDigest)
    (leaseId : UploadLeaseId) (object : CacheObjectRecord) :
    FailsWith NotExhausted (reuseStoredObject args now identity leaseId object) := by
  have hconflict : ∀ message, NotExhausted (.conflict message) := by
    simp [NotExhausted, PostgresError.conflict]
  have hobject : Rejects NotOverBudget (domainObject object) :=
    .bind (rejects_nonBlank (by simp [NotOverBudget]) _) fun _ =>
      .bind (rejects_digest _) fun _ => rejects_object _ _ _ _
  refine .bind (.check fun _ => .rejectIf (hconflict _)) fun _ =>
    .bind (.check fun _ => .rejectIf (hconflict _)) fun _ =>
    .bind (failsWith_domain (rejects_digest _)) fun _ => .bind (failsWith_domain hobject) fun _ =>
    .bind (failsWith_domain (rejects_prepareUpload rfl (.inl rfl))) fun decision => ?_
  cases decision with
  | upload lease => exact .throw (by simp [NotExhausted, PostgresError.internalMessage])
  | useObject reference =>
    exact .bind (failsWith_u64ToI64 _ _) fun _ => .bind (.modify _) fun _ => .pure _

/-- A step that does not fail for lack of room was passed when the operation does. -/
theorem exists_of_exhausted {α β : Type} {x : CacheTx α} {f : α → CacheTx β} {e : PostgresError}
    (hx : FailsWith NotExhausted x) (hkind : e.kind = .resourceExhausted)
    (h : (x >>= f).run db = .error e db') :
    ∃ a db₁, x.run db = .ok a db₁ ∧ (f a).run db₁ = .error e db' := by
  rcases bind_eq_error.mp h with h | h
  · exact absurd hkind (hx db e db' h)
  · exact h

theorem exists_of_exhausted_check {α β : Type} {f : CacheDb → Except PostgresError α}
    {k : α → CacheTx β} {e : PostgresError} (hf : ∀ db, Rejects NotExhausted (f db))
    (hkind : e.kind = .resourceExhausted) (h : (check f >>= k).run db = .error e db') :
    ∃ a, f db = .ok a ∧ (k a).run db = .error e db' := by
  obtain ⟨a, db₁, hok, h⟩ := exists_of_exhausted (.check hf) hkind h
  obtain ⟨hf, rfl⟩ := check_eq_ok.mp hok
  exact ⟨a, hf, h⟩

theorem exists_of_exhausted_domain {α β : Type} {x : Except CacheDomainError α}
    {k : α → CacheTx β} {e : PostgresError} (hx : Rejects NotOverBudget x)
    (hkind : e.kind = .resourceExhausted) (h : (domain x >>= k).run db = .error e db') :
    ∃ a, x = .ok a ∧ (k a).run db = .error e db' := by
  obtain ⟨a, db₁, hok, h⟩ := exists_of_exhausted (failsWith_domain hx) hkind h
  obtain ⟨hx, rfl⟩ := domain_eq_ok.mp hok
  exact ⟨a, hx, h⟩

/-- `make_repository_room` gives up only when there is no reference left to evict. -/
theorem makeRepositoryRoomLoop_exhausted {protectedIdentity : String}
    {additional budget nowUnix rounds : ℕ} {e : PostgresError} (hbudget : budget < maxI64)
    (hkind : e.kind = .resourceExhausted)
    (h : (makeRepositoryRoomLoop repositoryId protectedIdentity additional budget nowUnix
      rounds).run db = .error e db') :
    (∃ rows, Evicted rule db rows db') ∧ victim db' repositoryId protectedIdentity = none ∧
      budget < db'.repositoryBytes repositoryId + additional := by
  induction rounds generalizing db with
  | zero =>
    rw [(throw_eq_error.mp h).1.symm] at hkind
    cases hkind
  | succ rounds ih =>
    obtain ⟨usage, husage, h⟩ := exists_of_exhausted_check
      (fun db => rejects_activeRepositoryBytes db repositoryId) hkind h
    obtain ⟨rfl, -⟩ := activeRepositoryBytes_eq_ok.mp husage
    split at h
    · cases h
    · next hover =>
      rw [saturatingAddI64_le hbudget] at hover
      obtain ⟨_, _, hget, h⟩ := exists_of_exhausted .get hkind h
      obtain ⟨rfl, rfl⟩ := get_eq_ok.mp hget
      split at h
      · next hvictim =>
        obtain ⟨-, rfl⟩ := throw_eq_error.mp h
        exact ⟨⟨[], .refl _⟩, hvictim, by omega⟩
      · next row hvictim =>
        obtain ⟨_, db₁, hrow, hrest⟩ := exists_of_exhausted
          (failsWith_evictReferenceRow _ _ _ _) hkind h
        obtain ⟨notBefore, rfl⟩ := evictReferenceRow_eq_ok hrow
        obtain ⟨⟨rows, hevicted⟩, hresult⟩ := ih hrest
        exact ⟨⟨_, (Evicted.single (victim_mem hvictim).1 notBefore).trans hevicted⟩, hresult⟩

namespace CacheDb

/-- The store without the other references of the repository. -/
def withoutOthers (db : CacheDb) (repositoryId identityDigest : String) : CacheDb :=
  { db with
    references := db.references.delete fun r =>
      r.repositoryId = repositoryId && r.identityDigest != identityDigest }

end CacheDb

/-- A repository without references is charged for its open uploads only. -/
theorem repositoryBytes_of_unreferenced
    (h : ∀ r ∈ db.references, r.repositoryId ≠ repositoryId) :
    db.repositoryBytes repositoryId = db.uploads.total (uploadBytes repositoryId) := by
  rw [repositoryBytes_eq, Nat.add_eq_right]
  have hzero : ∀ o ∈ db.objects, db.objectBytes repositoryId o = 0 := by
    intro o _
    rw [objectBytes, if_neg]
    rw [Bool.and_eq_true, decide_eq_true_eq, isReferenced_eq_true]
    rintro ⟨hrepository, r, hr, htarget⟩
    exact h r hr ((congrArg Prod.fst htarget).trans hrepository)
  rw [Table.total_congr hzero]
  simp [Table.total]

/-- When `prepare_upload` has no room, its repository would not have had room without the other
references either, and it has evicted none. -/
theorem prepare_exhausted {args : PrepareArgs} {e : PostgresError}
    (h : (prepare args).run db = .error e db') (hkind : e.kind = .resourceExhausted) :
    db' = db ∧ MAX_REPOSITORY_CACHE_BYTES <
      (db.withoutOthers args.repositoryId args.identityDigest).repositoryBytes args.repositoryId +
        args.sizeBytes := by
  have hbudget : MAX_REPOSITORY_CACHE_BYTES < maxI64 := by decide
  obtain ⟨rfl, failed, h⟩ := transaction_eq_error.mp h
  refine ⟨rfl, ?_⟩
  -- the inputs are parsed, and the expired references removed
  obtain ⟨now, -, h⟩ := exists_of_exhausted_check (fun _ => rejects_u64ToI64 _ _) hkind h
  obtain ⟨size, hsize, h⟩ := exists_of_exhausted_check (fun _ => rejects_u64ToI64 _ _) hkind h
  obtain ⟨-, rfl⟩ := u64ToI64_eq_ok.mp hsize
  obtain ⟨repository, -, h⟩ := exists_of_exhausted_domain
    (rejects_nonBlank (by simp [NotOverBudget]) _) hkind h
  obtain ⟨digest, -, h⟩ := exists_of_exhausted_domain (rejects_digest _) hkind h
  obtain ⟨requested, hrequested, h⟩ := exists_of_exhausted_domain (rejects_object _ _ _ _) hkind h
  have hrequestedSize : requested.sizeBytes = args.sizeBytes := by
    obtain ⟨_, -, hnew⟩ := except_bind_eq_ok.mp hrequested
    cases hnew
    rfl
  obtain ⟨identity, -, h⟩ := exists_of_exhausted_domain (rejects_digest _) hkind h
  obtain ⟨leaseId, -, h⟩ := exists_of_exhausted_domain
    (rejects_nonBlank (by simp [NotOverBudget]) _) hkind h
  obtain ⟨_, db₁, hexpire, h⟩ := exists_of_exhausted
    (failsWith_expireRepositoryReferences _ _) hkind h
  have hexpired : Evicted .any db _ db₁ := expireRepositoryReferences_eq_ok hexpire
  obtain ⟨_, _, hget, h⟩ := exists_of_exhausted .get hkind h
  obtain ⟨rfl, rfl⟩ := get_eq_ok.mp hget
  split at h
  · -- a current reference
    obtain ⟨_, _, -, h⟩ := exists_of_exhausted (.check fun _ => .rejectIf
      (by simp [NotExhausted, PostgresError.conflict])) hkind h
    split at h
    · rw [(throw_eq_error.mp h).1.symm] at hkind
      cases hkind
    · cases h
  · next hcurrent =>
    split at h
    · exact absurd hkind (failsWith_reuseStoredObject _ _ _ _ _ _ _ _ h)
    · obtain ⟨budget, hok, h⟩ := exists_of_exhausted_check (fun _ => rejects_u64ToI64 _ _) hkind h
      obtain ⟨-, rfl⟩ := u64ToI64_eq_ok.mp hok
      rcases bind_eq_error.mp h with hroom | ⟨_, db₂, hroom, h⟩
      · obtain ⟨⟨rows, hevicted⟩, hvictim, hover⟩ : (∃ rows, Evicted .any db₁ rows failed) ∧ _ :=
          makeRepositoryRoomLoop_exhausted hbudget hkind hroom
        have hnone : ∀ r ∈ failed.references, r.repositoryId ≠ args.repositoryId := by
          intro r hr hrepository
          by_cases hidentity : r.identityDigest = args.identityDigest
          · exact Table.find?_eq_none.mp hcurrent r ((hevicted.references r).mp hr).1
              (Prod.ext hrepository hidentity)
          · have hselect := List.eq_nil_iff_forall_not_mem.mp (Table.first?_eq_none.mp hvictim) r
            exact hselect (Table.mem_select.mpr ⟨hr, by simp [hrepository, hidentity]⟩)
        have huploads : failed.uploads = db.uploads := hevicted.uploads.trans hexpired.uploads
        rw [repositoryBytes_of_unreferenced hnone, huploads] at hover
        have hle : db.uploads.total (uploadBytes args.repositoryId) ≤
            (db.withoutOthers args.repositoryId args.identityDigest).repositoryBytes
              args.repositoryId := by
          rw [repositoryBytes_eq]
          exact Nat.le_add_left _ _
        omega
      · -- after the eviction the decision finds the room it needs
        obtain ⟨-, hfits⟩ : (∃ rows, Evicted .any db₁ rows db₂) ∧ _ :=
          makeRepositoryRoom_eq_ok hbudget hroom
        obtain ⟨bytes, hbytes, h⟩ := exists_of_exhausted_check
          (fun db => rejects_activeRepositoryBytes db args.repositoryId) hkind h
        obtain ⟨rfl, -⟩ := activeRepositoryBytes_eq_ok.mp hbytes
        obtain ⟨group, -, h⟩ := exists_of_exhausted_domain (rejects_digest _) hkind h
        obtain ⟨decision, -, h⟩ := exists_of_exhausted_domain
          (rejects_prepareUpload rfl (.inr (hrequestedSize ▸ hfits))) hkind h
        cases decision with
        | useObject reference =>
          rw [(throw_eq_error.mp h).1.symm] at hkind
          cases hkind
        | upload lease =>
          obtain ⟨expiry, -, h⟩ := exists_of_exhausted_check (fun _ => rejects_u64ToI64 _ _) hkind h
          obtain ⟨_, _, -, h⟩ := exists_of_exhausted (.bind (.check fun _ => .rejectIf
            (by simp [NotExhausted, PostgresError.conflict])) fun _ => .modify _) hkind h
          cases h

/-! ## Interleavings -/

namespace CacheDb

/-- The rows `prepare_upload` decides from: its repository's expired references are gone. -/
def withoutExpired (db : CacheDb) (repositoryId : String) (nowUnix : ℕ) : CacheDb :=
  { db with
    references := db.references.delete fun r =>
      r.repositoryId = repositoryId && r.expiresAtUnix ≤ nowUnix }

theorem withoutExpired_of_expired {nowUnix : ℕ} (h : Expired repositoryId nowUnix db db') :
    (∀ r, r ∈ db'.references ↔ r ∈ (db.withoutExpired repositoryId nowUnix).references) := by
  intro r
  rw [h.2.2, withoutExpired, Table.mem_delete]
  simp only [Bool.and_eq_false_iff, decide_eq_false_iff_not]
  exact and_congr_right fun _ => Decidable.not_and_iff_or_not

theorem isReferenced_congr (h : ∀ r, r ∈ db.references ↔ r ∈ db'.references)
    (target : String × String) : db.isReferenced target = db'.isReferenced target := by
  rw [Bool.eq_iff_iff, isReferenced_eq_true, isReferenced_eq_true]
  simp only [h]

theorem repositoryBytes_congr (hobjects : db'.objects = db.objects)
    (huploads : db'.uploads = db.uploads) (h : ∀ r, r ∈ db.references ↔ r ∈ db'.references) :
    db.repositoryBytes repositoryId = db'.repositoryBytes repositoryId :=
  le_antisymm
    (repositoryBytes_le hobjects.symm huploads.symm fun target hr => isReferenced_congr h target ▸ hr)
    (repositoryBytes_le hobjects huploads fun target hr => isReferenced_congr h target ▸ hr)

end CacheDb

namespace World

variable {w w' : World} {a : Action}

/-- Where `prepare_upload` refers again to a stored object that nothing counts, it fits. -/
def reuseFits (w : World) : Action → Bool
  | .prepare args =>
    let db := w.db.withoutExpired args.repositoryId args.nowUnix
    match db.currentReference args.repositoryId args.identityDigest,
      db.storedObject args.repositoryId args.checksumSha256 with
    | none, some object =>
      db.isReferenced object.key ||
        db.repositoryBytes args.repositoryId + object.sizeBytes ≤ MAX_REPOSITORY_CACHE_BYTES
    | _, _ => true
  | _ => true

def StepFitting (w w' : World) : Prop := ∃ a, w.reuseFits a = true ∧ w.act a = some w'

/-- The worlds of interleavings whose reused objects all fit. -/
def ReachableFitting : World → Prop := Transition.Reachable isInitial StepFitting

/-- The bytes of the objects that may be referred to again. -/
def Fits (db : CacheDb) (object : CacheObjectRecord) : Prop :=
  db.isReferenced object.key = false →
    db.repositoryBytes object.repositoryId + object.sizeBytes ≤ MAX_REPOSITORY_CACHE_BYTES

theorem mayReuse_of_reuseFits {args : PrepareArgs} (h : w.reuseFits (.prepare args) = true) :
    MayReuse Fits w.db args := by
  intro db₁ object hexpired hcurrent hobject hunreferenced
  have hmem := CacheDb.withoutExpired_of_expired hexpired
  have hcurrent' : (w.db.withoutExpired args.repositoryId args.nowUnix).currentReference
      args.repositoryId args.identityDigest = none :=
    Table.find?_eq_none.mpr fun r hr => Table.find?_eq_none.mp hcurrent r ((hmem r).mpr hr)
  have hobject' : (w.db.withoutExpired args.repositoryId args.nowUnix).storedObject
      args.repositoryId args.checksumSha256 = some object := by
    rw [CacheDb.storedObject, hexpired.1] at hobject
    exact hobject
  have hrepository : object.repositoryId = args.repositoryId :=
    congrArg Prod.fst (Table.find?_eq_some.mp hobject).2
  simp only [reuseFits, hcurrent', hobject'] at h
  rw [← CacheDb.isReferenced_congr hmem, hunreferenced,
    Bool.false_or, decide_eq_true_eq] at h
  have hbytes : db₁.repositoryBytes args.repositoryId =
      (w.db.withoutExpired args.repositoryId args.nowUnix).repositoryBytes args.repositoryId :=
    CacheDb.repositoryBytes_congr hexpired.1.symm hexpired.2.1.symm hmem
  rwa [hrepository, hbytes]

theorem ruleFits (w : World) (a : Action) : RuleFits (w.rule Fits a) := by
  intro db object hrule
  cases a <;> exact hrule

/-- In every interleaving whose reused objects fit, no repository exceeds its budget. -/
theorem ReachableFitting.withinBudget (h : ReachableFitting w) : WithinBudget w.db := by
  suffices hinv : w.db.Sound ∧ WithinBudget w.db from hinv.2
  refine Transition.Reachable.invariant (fun w => w.db.Sound ∧ WithinBudget w.db) h ?_ ?_
  · rintro _ ⟨clock, rfl⟩
    refine ⟨CacheDb.Sound.empty, fun repositoryId => ?_⟩
    exact Nat.zero_le _
  · rintro w w' - ⟨hsound, hbudget⟩ ⟨a, hfits, ha⟩
    have hchanges := act_changes Fits ha fun args hargs => by
      subst hargs
      exact mayReuse_of_reuseFits hfits
    exact ⟨hsound.changes hchanges, hchanges.withinBudget hsound (ruleFits w a) hbudget⟩

/-- Where every reused object fits, no repository exceeds its budget. A refusal for lack of room
evicts nothing, and evicting every other reference would not have made room. -/
theorem withinBudget_of_reuse_fits (w : World) (args : PrepareArgs) (db : CacheDb) :
    (ReachableFitting w → WithinBudget w.db) ∧
    ∀ e db', (prepare args).run db = .error e db' → e.kind = .resourceExhausted →
      db' = db ∧ MAX_REPOSITORY_CACHE_BYTES <
        (db.withoutOthers args.repositoryId args.identityDigest).repositoryBytes args.repositoryId +
          args.sizeBytes :=
  ⟨fun h => h.withinBudget, fun _ _ h hkind => prepare_exhausted h hkind⟩

/-! ## A stored object referred to again -/

namespace Reuse

open LateDelete (digest)

def args (identity checksum : Char) : PrepareArgs :=
  ⟨"r", digest identity, digest 'e', digest checksum, GIB, "s3", String.singleton checksum, 0⟩

def upload (identity checksum : Char) : List Action :=
  [.prepare (args identity checksum), .put (cacheObjectKey "r" (digest checksum)),
    .commit (String.singleton checksum) 0]

/-- Five objects fill the budget, and the sixth evicts the first. -/
def sixUploads : List Action :=
  upload 'a' '0' ++ upload 'b' '1' ++ upload 'c' '2' ++ upload 'd' '3' ++ upload 'e' '4' ++
    upload 'f' '5'

/-- The first object is still stored, and is referred to again. -/
def reused : List Action :=
  sixUploads ++ [.prepare { args 'a' '0' with uploadId := "again" }]

/-- One object, referred to under two identities. -/
def shared : List Action :=
  upload 'a' '0' ++ [.prepare { args 'b' '0' with uploadId := "again" }]

/-- A store in which one upload holds the whole budget. -/
def full : CacheDb :=
  { CacheDb.empty with
    uploads := (∅ : Table CacheUploadRecord.uploadId).insert
      { uploadId := "u", repositoryId := "r", identityDigest := digest 'b'
        compatibilityGroupDigest := digest 'e', checksumSha256 := digest '1', storageBackend := "s3"
        objectKey := cacheObjectKey "r" (digest '1'), sizeBytes := MAX_REPOSITORY_CACHE_BYTES
        state := .active, createdAtUnix := 0, expiresAtUnix := 1800, cleanupGeneration := 0
        cleanupLeaseExpiresAtUnix := none } }

end Reuse

/-- A repository can exceed its budget: a stored object is referred to again without a check. -/
theorem not_withinBudget_of_reachable : ¬ ∀ w, Reachable w → WithinBudget w.db := by
  have hrun : ((Reuse.reused.foldlM act (initial 0)).any fun w =>
      MAX_REPOSITORY_CACHE_BYTES < w.db.repositoryBytes "r") = true := by
    decide +kernel
  obtain ⟨w, hw, hover⟩ := (Option.any_eq_true _ _).mp hrun
  intro hbudget
  have hreach : Reachable w :=
    (Transition.Reachable.of_init ⟨0, rfl⟩).foldlM (fun s a t ha => ⟨a, ha⟩) hw
  exact absurd (hbudget w hreach "r") (by simpa using hover)

/-- A reference to an object that is counted already, and a refusal while another upload holds the
whole budget. -/
theorem withinBudget_of_reuse_fits_shared :
    (∃ w, ReachableFitting w ∧ 0 < w.db.repositoryBytes "r" ∧ WithinBudget w.db) ∧
    ∃ db e, (prepare (Reuse.args 'a' '0')).run db = .error e db ∧
      MAX_REPOSITORY_CACHE_BYTES < (db.withoutOthers "r" (LateDelete.digest 'a')).repositoryBytes "r" +
        GIB := by
  constructor
  · have hrun : ((Reuse.shared.foldlM (fun (w : World) a =>
        if w.reuseFits a = true then w.act a else none) (initial 0)).any fun w =>
          0 < w.db.repositoryBytes "r") = true := by
      decide +kernel
    obtain ⟨w, hw, hbytes⟩ := (Option.any_eq_true _ _).mp hrun
    have hreach : ReachableFitting w :=
      (Transition.Reachable.of_init ⟨0, rfl⟩).foldlM (fun s a t ha => by
        rw [Option.ite_none_right_eq_some] at ha
        exact ⟨a, ha⟩) hw
    exact ⟨w, hreach, by simpa using hbytes,
      (withinBudget_of_reuse_fits w (Reuse.args 'a' '0') w.db).1 hreach⟩
  · have hrun : (match (prepare (Reuse.args 'a' '0')).run Reuse.full with
        | .ok _ _ => false
        | .error e _ => decide (e.kind = .resourceExhausted)) = true := by
      decide +kernel
    split at hrun
    · cases hrun
    · next e db hfailed =>
      obtain ⟨rfl, hroom⟩ :=
        (withinBudget_of_reuse_fits (initial 0) _ _).2 e db hfailed (by simpa using hrun)
      exact ⟨_, e, hfailed, hroom⟩

end World

end ScopeVcs.Caches
