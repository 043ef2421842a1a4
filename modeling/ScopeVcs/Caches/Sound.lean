import ScopeVcs.Caches.Change

/-! # What holds of the cache store in every state

References point to stored objects, an open upload excludes a stored object of its checksum, and a
claimed deletion excludes references. Every change keeps these.
-/

namespace ScopeVcs.Caches

variable {rule : Rule} {db db' : CacheDb}

/-! ## Object keys -/

/-- A digest has a fixed length, so the key of an object determines the object. -/
theorem cacheObjectKey_injective {repositoryId repositoryId' checksum checksum' : String}
    (h : isDigest checksum = true) (h' : isDigest checksum' = true)
    (hkey : cacheObjectKey repositoryId checksum = cacheObjectKey repositoryId' checksum') :
    repositoryId = repositoryId' ∧ checksum = checksum' := by
  simp only [isDigest, Bool.and_eq_true, beq_iff_eq] at h h'
  have hchars := congrArg String.toList hkey
  simp only [cacheObjectKey, String.toList_append] at hchars
  have hsplit := List.append_inj' hchars (h.1.trans h'.1.symm)
  have hrest := List.append_cancel_right hsplit.1
  exact ⟨String.toList_inj.mp (List.append_cancel_left hrest), String.toList_inj.mp hsplit.2⟩

/-! ## The invariant -/

structure CacheDb.Sound (db : CacheDb) : Prop where
  referencesStored : ∀ r ∈ db.references, ∃ o ∈ db.objects, o.key = r.target
  openUnstored : ∀ u ∈ db.uploads, u.isOpen = true → ∀ o ∈ db.objects, o.key ≠ u.target
  queuedStored : ∀ d ∈ db.deletionQueue, ∃ o ∈ db.objects, o.key = d.key
  claimedUnreferenced : ∀ d ∈ db.deletionQueue, 0 < d.attempts → ∀ r ∈ db.references,
    r.target ≠ d.key
  objectKeys : ∀ o ∈ db.objects,
    isDigest o.checksumSha256 = true ∧ o.objectKey = cacheObjectKey o.repositoryId o.checksumSha256
  uploadKeys : ∀ u ∈ db.uploads,
    isDigest u.checksumSha256 = true ∧ u.objectKey = cacheObjectKey u.repositoryId u.checksumSha256
  uploadsDistinct : ∀ u ∈ db.uploads, ∀ u' ∈ db.uploads, u.objectKey = u'.objectKey → u = u'

theorem CacheDb.Sound.empty : CacheDb.empty.Sound := by
  constructor <;> intro a ha <;> exact absurd ha (Table.notMem_empty a)

theorem isReferenced_eq_false {target : String × String} :
    db.isReferenced target = false ↔ ∀ r ∈ db.references, r.target ≠ target := by
  simp [CacheDb.isReferenced, Table.any_eq_false]

theorem isReferenced_eq_true {target : String × String} :
    db.isReferenced target = true ↔ ∃ r ∈ db.references, r.target = target := by
  simp [CacheDb.isReferenced, Table.any_eq_true]

theorem deletionIsClaimed_eq_true {repositoryId checksum : String} :
    db.deletionIsClaimed repositoryId checksum = true ↔
      ∃ d ∈ db.deletionQueue, d.key = (repositoryId, checksum) ∧ 0 < d.attempts := by
  simp only [CacheDb.deletionIsClaimed, Option.any_eq_true, decide_eq_true_eq, Table.find?_eq_some,
    and_assoc]

/-- What `queue_if_unreferenced` leaves in the queue. -/
theorem mem_queueIfUnreferenced {repositoryId checksum : String} {notBefore : ℕ} {d : DeletionRow}
    (h : d ∈ (db.queueIfUnreferenced repositoryId checksum notBefore).deletionQueue) :
    (∃ d₀ ∈ db.deletionQueue, d.key = d₀.key ∧ d.attempts = d₀.attempts) ∨
      d.key = (repositoryId, checksum) ∧ d.attempts = 0 ∧
        (db.storedObject repositoryId checksum).isSome = true := by
  rw [CacheDb.queueIfUnreferenced] at h
  split at h
  · next hqueue =>
    rcases Table.mem_of_mem_insert h with h | rfl
    · obtain ⟨d₀, hd₀, rfl⟩ := (Table.mem_update (by intro _; rfl)).mp h
      refine .inl ⟨d₀, hd₀, ?_⟩
      split <;> exact ⟨rfl, rfl⟩
    · exact .inr ⟨rfl, rfl, hqueue.1⟩
  · exact .inl ⟨d, h, rfl, rfl⟩

/-- The queue row of an unclaimed object has no attempts. -/
theorem attempts_eq_zero {repositoryId checksum : String} {d : DeletionRow}
    (hclaim : db.deletionIsClaimed repositoryId checksum = false) (hd : d ∈ db.deletionQueue)
    (hkey : d.key = (repositoryId, checksum)) : d.attempts = 0 := by
  by_contra hne
  have hclaimed : db.deletionIsClaimed repositoryId checksum = true :=
    deletionIsClaimed_eq_true.mpr ⟨d, hd, hkey, Nat.pos_of_ne_zero hne⟩
  simp [hclaim] at hclaimed

namespace CacheDb.Sound

/-- References that are replaced by references to the same objects. -/
theorem touch (h : db.Sound) (repositoryId identityDigest : String) (now expiry : ℕ) :
    (db.touchReference repositoryId identityDigest now expiry).Sound := by
  have hmem : ∀ r ∈ (db.touchReference repositoryId identityDigest now expiry).references,
      ∃ r₀ ∈ db.references, r.target = r₀.target := by
    intro r hr
    obtain ⟨r₀, hr₀, rfl⟩ := (Table.mem_update (by intro _; rfl)).mp hr
    refine ⟨r₀, hr₀, ?_⟩
    split <;> rfl
  refine { h with referencesStored := ?_, claimedUnreferenced := ?_ }
  · intro r hr
    obtain ⟨r₀, hr₀, htarget⟩ := hmem r hr
    rw [htarget]
    exact h.referencesStored r₀ hr₀
  · intro d hd hattempts r hr
    obtain ⟨r₀, hr₀, htarget⟩ := hmem r hr
    rw [htarget]
    exact h.claimedUnreferenced d hd hattempts r₀ hr₀

theorem unreference (h : db.Sound) (row : ReferenceRow) (notBefore : ℕ) :
    ((db.deleteReference row.repositoryId row.identityDigest).queueIfUnreferenced row.repositoryId
      row.checksumSha256 notBefore).Sound := by
  have hsub : ∀ r ∈ (db.deleteReference row.repositoryId row.identityDigest).references,
      r ∈ db.references := fun r hr => (Table.mem_delete.mp hr).1
  constructor
  · intro r hr
    rw [queueIfUnreferenced_references] at hr
    rw [queueIfUnreferenced_objects]
    exact h.referencesStored r (hsub r hr)
  · rw [queueIfUnreferenced_uploads, queueIfUnreferenced_objects]
    exact h.openUnstored
  · intro d hd
    rw [queueIfUnreferenced_objects]
    rcases mem_queueIfUnreferenced hd with ⟨d₀, hd₀, hkey, -⟩ | ⟨hkey, -, hstored⟩
    · rw [hkey]
      exact h.queuedStored d₀ hd₀
    · obtain ⟨o, ho⟩ := Option.isSome_iff_exists.mp hstored
      obtain ⟨hmem, hokey⟩ := Table.find?_eq_some.mp ho
      exact ⟨o, hmem, hokey.trans hkey.symm⟩
  · intro d hd hattempts r hr
    rw [queueIfUnreferenced_references] at hr
    rcases mem_queueIfUnreferenced hd with ⟨d₀, hd₀, hkey, heq⟩ | ⟨-, hzero, -⟩
    · rw [hkey]
      exact h.claimedUnreferenced d₀ hd₀ (heq ▸ hattempts) r (hsub r hr)
    · omega
  · rw [queueIfUnreferenced_objects]
    exact h.objectKeys
  · rw [queueIfUnreferenced_uploads]
    exact h.uploadKeys
  · rw [queueIfUnreferenced_uploads]
    exact h.uploadsDistinct

/-- A new reference to a stored object whose deletion nobody claimed. -/
theorem reuse (h : db.Sound) {object : CacheObjectRecord} {row : ReferenceRow}
    (hobject : object ∈ db.objects) (hkey : object.key = row.target) :
    ((db.insertReference row).unqueueDeletion row.repositoryId row.checksumSha256).Sound := by
  refine { h with referencesStored := ?_, queuedStored := ?_, claimedUnreferenced := ?_ }
  · intro r hr
    rcases Table.mem_of_mem_insert hr with hr | rfl
    · exact h.referencesStored r hr
    · exact ⟨object, hobject, hkey⟩
  · exact fun d hd => h.queuedStored d (Table.mem_delete.mp hd).1
  · intro d hd hattempts r hr
    obtain ⟨hd, hne⟩ := Table.mem_delete.mp hd
    rcases Table.mem_of_mem_insert hr with hr | rfl
    · exact h.claimedUnreferenced d hd hattempts r hr
    · -- the queue row of the object itself is deleted
      intro htarget
      simp [← htarget, ReferenceRow.target] at hne

theorem start (h : db.Sound) {upload : CacheUploadRecord}
    (hdigest : isDigest upload.checksumSha256 = true)
    (hobjectKey : upload.objectKey = cacheObjectKey upload.repositoryId upload.checksumSha256)
    (hunstored : ∀ o ∈ db.objects, o.key ≠ upload.target)
    (hfresh : ∀ u ∈ db.uploads, u.uploadId ≠ upload.uploadId ∧ u.objectKey ≠ upload.objectKey) :
    CacheDb.Sound { db with uploads := db.uploads.insert upload } := by
  refine { h with openUnstored := ?_, uploadKeys := ?_, uploadsDistinct := ?_ }
  · intro u hu
    rcases Table.mem_of_mem_insert hu with hu | rfl
    · exact h.openUnstored u hu
    · exact fun _ => hunstored
  · intro u hu
    rcases Table.mem_of_mem_insert hu with hu | rfl
    · exact h.uploadKeys u hu
    · exact ⟨hdigest, hobjectKey⟩
  · intro u hu u' hu' heq
    rcases Table.mem_of_mem_insert hu with hold | rfl
    · rcases Table.mem_of_mem_insert hu' with hold' | rfl
      · exact h.uploadsDistinct u hold u' hold' heq
      · exact absurd heq (hfresh u hold).2
    · rcases Table.mem_of_mem_insert hu' with hold' | rfl
      · exact absurd heq.symm (hfresh u' hold').2
      · rfl

/-- Uploads that are replaced by uploads of the same objects, open only if they were. -/
theorem replaceUploads (h : db.Sound) {p : CacheUploadRecord → Bool}
    {f : CacheUploadRecord → CacheUploadRecord} {hid : ∀ u, (f u).uploadId = u.uploadId}
    (hsame : ∀ u, (f u).target = u.target ∧ (f u).objectKey = u.objectKey)
    (hopen : ∀ u ∈ db.uploads, p u = true → u.isOpen = true) :
    CacheDb.Sound { db with uploads := db.uploads.update p f hid } := by
  have hmem : ∀ u ∈ db.uploads.update p f hid, ∃ u₀ ∈ db.uploads, u.target = u₀.target ∧
      u.objectKey = u₀.objectKey ∧ (u.isOpen = true → u₀.isOpen = true) ∧
        u = if p u₀ then f u₀ else u₀ := by
    intro u hu
    obtain ⟨u₀, hu₀, rfl⟩ := (Table.mem_update hid).mp hu
    by_cases hp : p u₀ = true
    · simp only [hp, if_true]
      exact ⟨u₀, hu₀, (hsame u₀).1, (hsame u₀).2, fun _ => hopen u₀ hu₀ hp, by simp [hp]⟩
    · simp only [hp]
      exact ⟨u₀, hu₀, rfl, rfl, fun hu₀ => hu₀, by simp [hp]⟩
  refine { h with openUnstored := ?_, uploadKeys := ?_, uploadsDistinct := ?_ }
  · intro u hu huopen o ho
    obtain ⟨u₀, hu₀, htarget, -, hopen₀, -⟩ := hmem u hu
    rw [htarget]
    exact h.openUnstored u₀ hu₀ (hopen₀ huopen) o ho
  · intro u hu
    obtain ⟨u₀, hu₀, htarget, hkey, -, -⟩ := hmem u hu
    obtain ⟨hrepository, hchecksum⟩ := Prod.ext_iff.mp htarget
    simp only [CacheUploadRecord.target] at hrepository hchecksum
    rw [hrepository, hchecksum, hkey]
    exact h.uploadKeys u₀ hu₀
  · intro u hu u' hu' heq
    obtain ⟨u₀, hu₀, -, hkey, -, rfl⟩ := hmem u hu
    obtain ⟨u₀', hu₀', -, hkey', -, rfl⟩ := hmem u' hu'
    rw [h.uploadsDistinct u₀ hu₀ u₀' hu₀' (hkey.symm.trans (heq.trans hkey'))]

theorem dropUploads (h : db.Sound) (p : CacheUploadRecord → Bool) :
    CacheDb.Sound { db with uploads := db.uploads.delete p } := by
  have hsub : ∀ u ∈ db.uploads.delete p, u ∈ db.uploads := fun u hu => (Table.mem_delete.mp hu).1
  exact { h with
    openUnstored := fun u hu => h.openUnstored u (hsub u hu)
    uploadKeys := fun u hu => h.uploadKeys u (hsub u hu)
    uploadsDistinct := fun u hu u' hu' => h.uploadsDistinct u (hsub u hu) u' (hsub u' hu') }

/-- Publishing an upload: its row is no longer open when its object is stored. -/
theorem publish (h : db.Sound) {upload : CacheUploadRecord} {object : CacheObjectRecord}
    {row : ReferenceRow} (hupload : upload ∈ db.uploads) (hopen : upload.isOpen = true)
    (hkey : object.key = upload.target) (hobjectKey : object.objectKey = upload.objectKey)
    (htarget : row.target = upload.target) : (db.publish object row upload.uploadId).Sound := by
  have hunstored : db.objects.find? object.key = none :=
    Table.find?_eq_none.mpr fun o ho => hkey ▸ h.openUnstored upload hupload hopen o ho
  have hobjects : ∀ o, o ∈ (db.publish object row upload.uploadId).objects ↔
      o ∈ db.objects ∨ o = object := fun o => Table.mem_insert hunstored
  have huploads : ∀ u ∈ (db.publish object row upload.uploadId).uploads,
      ∃ u₀ ∈ db.uploads, u = if u₀.uploadId = upload.uploadId then
        { u₀ with state := .committed, cleanupLeaseExpiresAtUnix := none } else u₀ := by
    intro u hu
    obtain ⟨u₀, hu₀, rfl⟩ : ∃ u₀ ∈ db.uploads, u = if decide (u₀.uploadId = upload.uploadId) then
        { u₀ with state := .committed, cleanupLeaseExpiresAtUnix := none } else u₀ :=
      (Table.mem_update (by intro _; rfl)).mp hu
    exact ⟨u₀, hu₀, by simp⟩
  have hqueue : ∀ d ∈ (db.publish object row upload.uploadId).deletionQueue, d ∈ db.deletionQueue :=
    fun d hd => (Table.mem_delete.mp hd).1
  obtain ⟨hrepository, hchecksum⟩ := Prod.ext_iff.mp hkey
  simp only [CacheObjectRecord.key, CacheUploadRecord.target] at hrepository hchecksum
  have huploadKey := h.uploadKeys upload hupload
  constructor
  · intro r hr
    rcases Table.mem_of_mem_insert hr with hr | rfl
    · obtain ⟨o, ho, heq⟩ := h.referencesStored r hr
      exact ⟨o, (hobjects o).mpr (.inl ho), heq⟩
    · exact ⟨object, (hobjects object).mpr (.inr rfl), hkey.trans htarget.symm⟩
  · intro u hu huopen o ho
    obtain ⟨u₀, hu₀, rfl⟩ := huploads u hu
    split at huopen
    · exact absurd huopen (by simp [CacheUploadRecord.isOpen])
    · next hne =>
      rw [if_neg hne]
      rcases (hobjects o).mp ho with ho | rfl
      · exact h.openUnstored u₀ hu₀ huopen o ho
      · -- another upload of the same object would have the same key
        intro heq
        obtain ⟨hrepository₀, hchecksum₀⟩ := Prod.ext_iff.mp (heq.symm.trans hkey)
        simp only [CacheUploadRecord.target] at hrepository₀ hchecksum₀
        have hkeys : u₀.objectKey = upload.objectKey := by
          rw [(h.uploadKeys u₀ hu₀).2, huploadKey.2, hrepository₀, hchecksum₀]
        exact hne (congrArg CacheUploadRecord.uploadId
          (h.uploadsDistinct u₀ hu₀ upload hupload hkeys))
  · intro d hd
    obtain ⟨o, ho, heq⟩ := h.queuedStored d (hqueue d hd)
    exact ⟨o, (hobjects o).mpr (.inl ho), heq⟩
  · intro d hd hattempts r hr
    rcases Table.mem_of_mem_insert hr with hr | rfl
    · exact h.claimedUnreferenced d (hqueue d hd) hattempts r hr
    · -- no row is queued for an object that was not stored
      intro heq
      obtain ⟨o, ho, hokey⟩ := h.queuedStored d (hqueue d hd)
      exact h.openUnstored upload hupload hopen o ho (hokey.trans (heq.symm.trans htarget))
  · intro o ho
    rcases (hobjects o).mp ho with ho | rfl
    · exact h.objectKeys o ho
    · rw [hchecksum, hrepository, hobjectKey]
      exact huploadKey
  · intro u hu
    obtain ⟨u₀, hu₀, rfl⟩ := huploads u hu
    split <;> exact h.uploadKeys u₀ hu₀
  · intro u hu u' hu' heq
    obtain ⟨u₀, hu₀, rfl⟩ := huploads u hu
    obtain ⟨u₀', hu₀', rfl⟩ := huploads u' hu'
    have hkeys : u₀.objectKey = u₀'.objectKey := by
      split at heq <;> split at heq <;> exact heq
    rw [h.uploadsDistinct u₀ hu₀ u₀' hu₀' hkeys]

/-- Claiming and postponing deletions of unreferenced objects. -/
theorem replaceQueue (h : db.Sound) {p : DeletionRow → Bool} {f : DeletionRow → DeletionRow}
    {hf : ∀ d, (f d).key = d.key}
    (hclaim : ∀ d ∈ db.deletionQueue, p d = true → 0 < (f d).attempts →
      0 < d.attempts ∨ db.isReferenced d.key = false) :
    CacheDb.Sound { db with deletionQueue := db.deletionQueue.update p f hf } := by
  refine { h with queuedStored := ?_, claimedUnreferenced := ?_ }
  · intro d hd
    obtain ⟨d₀, hd₀, rfl⟩ := (Table.mem_update hf).mp hd
    split
    · rw [hf]
      exact h.queuedStored d₀ hd₀
    · exact h.queuedStored d₀ hd₀
  · intro d hd hattempts
    obtain ⟨d₀, hd₀, rfl⟩ := (Table.mem_update hf).mp hd
    split at hattempts
    · next hp =>
      rw [if_pos hp, hf]
      rcases hclaim d₀ hd₀ hp hattempts with hpos | hunreferenced
      · exact h.claimedUnreferenced d₀ hd₀ hpos
      · exact isReferenced_eq_false.mp hunreferenced
    · next hp =>
      rw [if_neg hp]
      exact h.claimedUnreferenced d₀ hd₀ hattempts

theorem complete (h : db.Sound) {repositoryId checksum : String}
    (hunreferenced : db.isReferenced (repositoryId, checksum) = false) :
    CacheDb.Sound {
      db.unqueueDeletion repositoryId checksum with
      objects := db.objects.delete fun o => o.key = (repositoryId, checksum) } := by
  have hsub : ∀ o ∈ db.objects.delete (fun o => o.key = (repositoryId, checksum)),
      o ∈ db.objects := fun o ho => (Table.mem_delete.mp ho).1
  refine { h with
    openUnstored := fun u hu hopen o ho => h.openUnstored u hu hopen o (hsub o ho)
    referencesStored := ?_
    queuedStored := ?_
    claimedUnreferenced := fun d hd => h.claimedUnreferenced d (Table.mem_delete.mp hd).1
    objectKeys := fun o ho => h.objectKeys o (hsub o ho) }
  · intro r hr
    obtain ⟨o, ho, hkey⟩ := h.referencesStored r hr
    refine ⟨o, Table.mem_delete.mpr ⟨ho, ?_⟩, hkey⟩
    rw [decide_eq_false_iff_not, hkey]
    exact isReferenced_eq_false.mp hunreferenced r hr
  · intro d hd
    obtain ⟨hd, hne⟩ := Table.mem_delete.mp hd
    obtain ⟨o, ho, hkey⟩ := h.queuedStored d hd
    exact ⟨o, Table.mem_delete.mpr ⟨ho, by rwa [hkey]⟩, hkey⟩

/-- No change breaks the invariant. -/
theorem change (h : db.Sound) (hchange : Change rule db db') : db'.Sound := by
  cases hchange with
  | touch => exact h.touch ..
  | unreference => exact h.unreference ..
  | reuse hobject hkey => exact h.reuse hobject hkey
  | start hactive hdigest hobjectKey hunstored hfresh =>
    exact h.start hdigest hobjectKey hunstored hfresh
  | publish hupload hactive hkey hobjectKey hsize htarget =>
    exact h.publish hupload (by simp [CacheUploadRecord.isOpen, hactive]) hkey hobjectKey htarget
  | settleUploads p f hid hsame hopen =>
    exact h.replaceUploads (fun u => ⟨(hsame u).1, (hsame u).2.1⟩) hopen
  | dropUploads => exact h.dropUploads _
  | claim retryAt hunreferenced =>
    refine h.replaceQueue fun d hd hkey _ => .inr ?_
    rw [decide_eq_true_eq] at hkey
    rwa [hkey]
  | complete repositoryId checksum hunreferenced => exact h.complete hunreferenced
  | postpone => exact h.replaceQueue fun d hd _ hpos => .inl hpos

theorem changes (h : db.Sound) (hchanges : Changes rule db db') : db'.Sound := by
  induction hchanges with
  | refl => exact h
  | tail _ hchange ih => exact ih.change hchange

end CacheDb.Sound

/-! ## Claims and uploads across a change -/

theorem queueIfUnreferenced_keeps {repositoryId checksum : String} {notBefore : ℕ} {d : DeletionRow}
    (hd : d ∈ db.deletionQueue) :
    ∃ d' ∈ (db.queueIfUnreferenced repositoryId checksum notBefore).deletionQueue,
      d'.key = d.key ∧ d.attempts ≤ d'.attempts := by
  rw [CacheDb.queueIfUnreferenced]
  split
  · refine ⟨_, Table.mem_insert_of_mem ((Table.mem_update (by intro _; rfl)).mpr ⟨d, hd, rfl⟩), ?_⟩
    split <;> exact ⟨rfl, le_rfl⟩
  · exact ⟨d, hd, rfl, le_rfl⟩

/-- A change leaves an object unclaimed only where it was unclaimed before, or where it publishes
the object. -/
theorem Change.unclaimed (hsound : db.Sound) (h : Change rule db db') {o : CacheObjectRecord}
    (ho : o ∈ db'.objects) (hunclaimed : db'.deletionIsClaimed o.repositoryId o.checksumSha256 = false) :
    (o ∈ db.objects ∧ db.deletionIsClaimed o.repositoryId o.checksumSha256 = false) ∨
      ∃ upload, rule.publish upload ∧ o.objectKey = upload.objectKey := by
  -- unless it publishes, a change keeps the objects and the claims of those that stay
  have hkept : o ∈ db.objects →
      (∀ d ∈ db.deletionQueue, 0 < d.attempts → d.key = o.key →
        ∃ d' ∈ db'.deletionQueue, d'.key = d.key ∧ d.attempts ≤ d'.attempts) →
      o ∈ db.objects ∧ db.deletionIsClaimed o.repositoryId o.checksumSha256 = false := by
    intro hmem hqueue
    refine ⟨hmem, Bool.eq_false_iff.mpr fun hclaimed => ?_⟩
    obtain ⟨d, hd, hkey, hpos⟩ := deletionIsClaimed_eq_true.mp hclaimed
    obtain ⟨d', hd', hkey', hle⟩ := hqueue d hd hpos hkey
    have hclaimed' := deletionIsClaimed_eq_true.mpr ⟨d', hd', hkey'.trans hkey, by omega⟩
    simp [hunclaimed] at hclaimed'
  have hsame : ∀ d : DeletionRow, d.key = d.key ∧ d.attempts ≤ d.attempts := fun d => ⟨rfl, le_rfl⟩
  cases h with
  | touch => exact .inl (hkept ho fun d hd _ _ => ⟨d, hd, hsame d⟩)
  | unreference notBefore hrow =>
    rw [queueIfUnreferenced_objects] at ho
    exact .inl (hkept ho fun d hd _ _ => queueIfUnreferenced_keeps hd)
  | @reuse object row hobject hkey hrow =>
    refine .inl (hkept ho fun d hd hpos hdkey => ⟨d, Table.mem_delete.mpr ⟨hd, ?_⟩, hsame d⟩)
    rw [decide_eq_false_iff_not]
    intro htarget
    have hzero := attempts_eq_zero hrow hd htarget
    omega
  | start => exact .inl (hkept ho fun d hd _ _ => ⟨d, hd, hsame d⟩)
  | @publish upload object row hupload hactive hkey hobjectKey hsize htarget hfresh hrule =>
    rcases Table.mem_of_mem_insert ho with hold | rfl
    · refine .inl (hkept hold fun d hd hpos hdkey => ⟨d, Table.mem_delete.mpr ⟨hd, ?_⟩, hsame d⟩)
      rw [decide_eq_false_iff_not]
      intro hrow
      have hopen : upload.isOpen = true := by simp [CacheUploadRecord.isOpen, hactive]
      exact hsound.openUnstored upload hupload hopen o hold
        (hdkey.symm.trans (hrow.trans htarget))
    · exact .inr ⟨upload, hrule, hobjectKey⟩
  | settleUploads => exact .inl (hkept ho fun d hd _ _ => ⟨d, hd, hsame d⟩)
  | dropUploads => exact .inl (hkept ho fun d hd _ _ => ⟨d, hd, hsame d⟩)
  | claim retryAt hunreferenced =>
    refine .inl (hkept ho fun d hd _ _ =>
      ⟨_, (Table.mem_update (by intro _; rfl)).mpr ⟨d, hd, rfl⟩, ?_⟩)
    split
    · exact ⟨rfl, Nat.le_succ _⟩
    · exact hsame d
  | complete repositoryId checksum hunreferenced =>
    obtain ⟨hmem, hne⟩ := Table.mem_delete.mp ho
    refine .inl (hkept hmem fun d hd _ hdkey => ⟨d, Table.mem_delete.mpr ⟨hd, ?_⟩, hsame d⟩)
    rwa [hdkey]
  | postpone =>
    refine .inl (hkept ho fun d hd _ _ =>
      ⟨_, (Table.mem_update (by intro _; rfl)).mpr ⟨d, hd, rfl⟩, ?_⟩)
    split <;> exact ⟨rfl, le_rfl⟩

/-- Every stored and unclaimed object was so before, or was published by this transaction. -/
theorem Changes.unclaimed (hsound : db.Sound) (h : Changes rule db db') {o : CacheObjectRecord}
    (ho : o ∈ db'.objects) (hunclaimed : db'.deletionIsClaimed o.repositoryId o.checksumSha256 = false) :
    (o ∈ db.objects ∧ db.deletionIsClaimed o.repositoryId o.checksumSha256 = false) ∨
      ∃ upload, rule.publish upload ∧ o.objectKey = upload.objectKey := by
  induction h with
  | refl => exact .inl ⟨ho, hunclaimed⟩
  | tail hchanges hchange ih =>
    rcases hchange.unclaimed (hsound.changes hchanges) ho hunclaimed with ⟨ho, hunclaimed⟩ | hnew
    · exact ih ho hunclaimed
    · exact .inr hnew

/-- The upload rows after a change are those before it, or started by it. -/
theorem Change.mem_uploads (h : Change rule db db') {u : CacheUploadRecord} (hu : u ∈ db'.uploads) :
    (∃ u₀ ∈ db.uploads, u.uploadId = u₀.uploadId ∧ u.objectKey = u₀.objectKey) ∨ rule.start u := by
  cases h with
  | touch => exact .inl ⟨u, hu, rfl, rfl⟩
  | unreference =>
    rw [queueIfUnreferenced_uploads] at hu
    exact .inl ⟨u, hu, rfl, rfl⟩
  | reuse => exact .inl ⟨u, hu, rfl, rfl⟩
  | start hactive hdigest hobjectKey hunstored hfresh hfits hrule =>
    rcases Table.mem_of_mem_insert hu with hu | rfl
    · exact .inl ⟨u, hu, rfl, rfl⟩
    · exact .inr hrule
  | publish =>
    obtain ⟨u₀, hu₀, rfl⟩ := (Table.mem_update (by intro _; rfl)).mp hu
    refine .inl ⟨u₀, hu₀, ?_⟩
    split <;> exact ⟨rfl, rfl⟩
  | settleUploads p f hid hsame hopen =>
    obtain ⟨u₀, hu₀, rfl⟩ := (Table.mem_update hid).mp hu
    refine .inl ⟨u₀, hu₀, ?_⟩
    split
    · exact ⟨hid u₀, (hsame u₀).2.1⟩
    · exact ⟨rfl, rfl⟩
  | dropUploads => exact .inl ⟨u, (Table.mem_delete.mp hu).1, rfl, rfl⟩
  | claim => exact .inl ⟨u, hu, rfl, rfl⟩
  | complete => exact .inl ⟨u, hu, rfl, rfl⟩
  | postpone => exact .inl ⟨u, hu, rfl, rfl⟩

/-- The upload rows after a transaction are those before it, or started by it. -/
theorem Changes.mem_uploads (hchanges : Changes rule db db')
    (hstart : ∀ u u' : CacheUploadRecord, u'.uploadId = u.uploadId → u'.objectKey = u.objectKey →
      rule.start u → rule.start u')
    {u : CacheUploadRecord} (hu : u ∈ db'.uploads) :
    (∃ u₀ ∈ db.uploads, u.uploadId = u₀.uploadId ∧ u.objectKey = u₀.objectKey) ∨ rule.start u := by
  induction hchanges generalizing u with
  | refl => exact .inl ⟨u, hu, rfl, rfl⟩
  | tail _ hchange ih =>
    rcases hchange.mem_uploads hu with ⟨u₁, hu₁, hid₁, hkey₁⟩ | hrule
    · rcases ih hu₁ with ⟨u₀, hu₀, hid₀, hkey₀⟩ | hrule
      · exact .inl ⟨u₀, hu₀, hid₁.trans hid₀, hkey₁.trans hkey₀⟩
      · exact .inr (hstart u₁ u hid₁ hkey₁ hrule)
    · exact .inr hrule

end ScopeVcs.Caches
