import ScopeVcs.Caches.Reconciliation

/-! # Referenced blobs and the deletes of reconciliation workers

A delete in flight names a checksum, not the claim it was made under. It is harmless as long as the
object is not stored, or its deletion is claimed, at the moment it takes effect.
-/

namespace ScopeVcs.Caches

open Mutation Transition

namespace World

variable {w w' : World} {a : Action}

/-! ## The store under one action -/

theorem map_run_eq_some {α : Type} {x : CacheTx α} {f : α × World → World}
    (h : (w.run x).map f = some w') : ∃ a db, x.run w.db = .ok a db ∧ w' = f (a, { w with db }) := by
  obtain ⟨⟨a, w₁⟩, hrun, rfl⟩ := Option.map_eq_some_iff.mp h
  obtain ⟨db, hok, rfl⟩ := run_eq_some.mp hrun
  exact ⟨a, db, hok, rfl⟩

/-- What `prepare` may refer to again. -/
def MayReuse (reuse : CacheDb → CacheObjectRecord → Prop) (db : CacheDb) (args : PrepareArgs) : Prop :=
  ∀ db₁ object, Expired args.repositoryId args.nowUnix db db₁ →
    db₁.currentReference args.repositoryId args.identityDigest = none →
    db₁.storedObject args.repositoryId args.checksumSha256 = some object → reuse db₁ object

theorem act_changes (reuse : CacheDb → CacheObjectRecord → Prop) (h : w.act a = some w')
    (hreuse : ∀ args, a = .prepare args → MayReuse reuse w.db args) :
    Changes (w.rule reuse a) w.db w'.db := by
  cases a with
  | tick seconds =>
    cases h
    exact .refl
  | put objectKey =>
    cases h
    exact .refl
  | restore repositoryId identityDigest group nowUnix =>
    obtain ⟨result, db, hok, rfl⟩ := map_run_eq_some (now_eq_some.mp h).2
    exact restore_changes hok
  | prepare args =>
    have hnext := (now_eq_some.mp h).2
    split at hnext
    · cases hnext
    · obtain ⟨result, db, hok, rfl⟩ := map_run_eq_some hnext
      exact prepare_changes (hreuse args rfl) (fun u hu => hu) hok
  | commit uploadId nowUnix =>
    have hnext := (now_eq_some.mp h).2
    split at hnext
    · next hpresent =>
      obtain ⟨result, db, hok, rfl⟩ := map_run_eq_some hnext
      refine commit_changes (fun upload hfind => ?_) hok
      have hmem : upload.objectKey ∈ w.blobs := by simpa [bytesPresent, hfind] using hpresent
      exact hmem
    · cases hnext
  | expireReferences nowUnix limit =>
    obtain ⟨count, db, hok, rfl⟩ := map_run_eq_some (now_eq_some.mp h).2
    exact expireReferences_changes hok
  | expireUploads nowUnix limit =>
    obtain ⟨claims, db, hok, rfl⟩ := map_run_eq_some (now_eq_some.mp h).2
    exact expireUploads_changes hok
  | cleanupUpload claim outcome =>
    simp only [act, Option.ite_none_right_eq_some, Option.some.injEq] at h
    obtain ⟨-, rfl⟩ := h
    rw [cleanup]
    split
    · next db hok => exact cleanupUpload_changes hok
    · rw [deleteUpload]
      split <;> exact .refl
  | expireCommittedUploads nowUnix limit =>
    obtain ⟨u, db, hok, rfl⟩ := map_run_eq_some (now_eq_some.mp h).2
    exact expireCommittedUploads_changes hok
  | selectDeletions nowUnix limit =>
    cases (now_eq_some.mp h).2
    exact .refl
  | claimDeletion candidate =>
    simp only [act, Option.ite_none_right_eq_some, Option.bind_eq_bind, Option.bind_eq_some_iff] at h
    obtain ⟨-, retryAt, -, ⟨deletion, w₁⟩, hrun, hw'⟩ := h
    obtain ⟨db, hok, rfl⟩ := run_eq_some.mp hrun
    cases hw'
    exact claimDeletion_changes hok
  | deleteObject inFlight =>
    simp only [act, Option.ite_none_right_eq_some, Option.some.injEq] at h
    obtain ⟨-, rfl⟩ := h
    exact .refl
  | completeDeletion inFlight =>
    simp only [act, Option.ite_none_right_eq_some] at h
    obtain ⟨deleted, db, hok, rfl⟩ := map_run_eq_some h.2
    exact completeDeletion_changes hok
  | failDeletion inFlight nowUnix error =>
    have hnext := (now_eq_some.mp h).2
    simp only [Option.ite_none_right_eq_some, Option.bind_eq_bind, Option.bind_eq_some_iff] at hnext
    obtain ⟨-, retryAt, -, ⟨u, w₁⟩, hrun, hw'⟩ := hnext
    obtain ⟨db, hok, rfl⟩ := run_eq_some.mp hrun
    cases hw'
    exact failDeletion_changes hok

/-- The invariant of the store holds in every world an interleaving leads to. -/
theorem Reachable.sound (h : Reachable w) : w.db.Sound := by
  refine Transition.Reachable.invariant (fun w => w.db.Sound) h ?_ ?_
  · rintro _ ⟨clock, rfl⟩
    exact CacheDb.Sound.empty
  · rintro w w' - hsound ⟨a, ha⟩
    exact hsound.changes
      (act_changes (fun _ _ => True) ha fun args _ db₁ object _ _ _ => trivial)

/-! ## Blobs -/

/-- The delete of a claim takes effect while its object is not stored or its deletion is claimed;
other actions are free. -/
def deletesClaimed (w : World) : Action → Bool
  | .deleteObject inFlight =>
    (w.db.storedObject inFlight.deletion.repositoryId inFlight.deletion.checksumSha256).isNone ||
      w.db.deletionIsClaimed inFlight.deletion.repositoryId inFlight.deletion.checksumSha256
  | _ => true

def StepClaimed (w w' : World) : Prop := ∃ a, w.deletesClaimed a = true ∧ w.act a = some w'

/-- The worlds of interleavings whose deletes all take effect so. -/
def ReachableClaimed : World → Prop := Transition.Reachable isInitial StepClaimed

/-- References point to stored objects, open uploads exclude them, and the blob of every referenced
object is in the object store. -/
structure Safe (w : World) : Prop where
  referencesStored : ∀ r ∈ w.db.references, ∃ o ∈ w.db.objects, o.key = r.target
  openUnstored : ∀ u ∈ w.db.uploads, u.isOpen = true → ∀ o ∈ w.db.objects, o.key ≠ u.target
  blobPresent : ∀ r ∈ w.db.references, ∀ o ∈ w.db.objects, o.key = r.target →
    o.objectKey ∈ w.blobs

/-- A deletion in flight and a cleanup claim name the key of the object they are for. -/
structure Inv (w : World) : Prop where
  sound : w.db.Sound
  present : ∀ o ∈ w.db.objects, w.db.deletionIsClaimed o.repositoryId o.checksumSha256 = false →
    o.objectKey ∈ w.blobs
  deletionKeys : ∀ d ∈ w.deletions, isDigest d.deletion.checksumSha256 = true ∧
    d.deletion.objectKey = cacheObjectKey d.deletion.repositoryId d.deletion.checksumSha256
  uploadsDrawn : ∀ u ∈ w.db.uploads, u.uploadId ∈ w.uploadIds
  cleanupsDrawn : ∀ c ∈ w.cleanups, c.uploadId ∈ w.uploadIds
  cleanupKeys : ∀ c ∈ w.cleanups, ∀ u ∈ w.db.uploads, u.uploadId = c.uploadId →
    u.objectKey = c.objectKey

theorem Inv.initial (clock : ℕ) : (World.initial clock).Inv where
  sound := CacheDb.Sound.empty
  present := fun o ho => absurd ho (Table.notMem_empty o)
  deletionKeys := by simp [World.initial]
  uploadsDrawn := fun u hu => absurd hu (Table.notMem_empty u)
  cleanupsDrawn := by simp [World.initial]
  cleanupKeys := by simp [World.initial]

/-- A referenced object is unclaimed, so its blob is present. -/
theorem Inv.safe (h : w.Inv) : w.Safe where
  referencesStored := h.sound.referencesStored
  openUnstored := h.sound.openUnstored
  blobPresent := by
    intro r hr o ho hkey
    refine h.present o ho (Bool.eq_false_iff.mpr fun hclaimed => ?_)
    obtain ⟨d, hd, hdkey, hpos⟩ := deletionIsClaimed_eq_true.mp hclaimed
    exact h.sound.claimedUnreferenced d hd hpos r hr (hkey.symm.trans hdkey.symm)

/-- The invariant under a transaction of an action that is not `prepare`. -/
theorem Inv.transaction {rule : Rule} {db : CacheDb} (h : w.Inv) (hchanges : Changes rule w.db db)
    (hstart : ∀ u, ¬ rule.start u) (hpublish : ∀ u, rule.publish u → u.objectKey ∈ w.blobs) :
    Inv { w with db } := by
  have huploads : ∀ u ∈ db.uploads, ∃ u₀ ∈ w.db.uploads,
      u.uploadId = u₀.uploadId ∧ u.objectKey = u₀.objectKey := fun u hu =>
    (hchanges.mem_uploads (fun u _ _ _ hrule => absurd hrule (hstart u)) hu).resolve_right (hstart u)
  constructor
  · exact h.sound.changes hchanges
  · intro o ho hunclaimed
    rcases hchanges.unclaimed h.sound ho hunclaimed with ⟨ho, hunclaimed⟩ | ⟨u, hrule, hkey⟩
    · exact h.present o ho hunclaimed
    · exact hkey ▸ hpublish u hrule
  · exact h.deletionKeys
  · intro u hu
    obtain ⟨u₀, hu₀, hid, -⟩ := huploads u hu
    exact hid ▸ h.uploadsDrawn u₀ hu₀
  · exact h.cleanupsDrawn
  · intro c hc u hu hid
    obtain ⟨u₀, hu₀, hid₀, hkey₀⟩ := huploads u hu
    rw [hkey₀]
    exact h.cleanupKeys c hc u₀ hu₀ (hid₀.symm.trans hid)

/-- `prepare` with an upload id nobody has used. -/
theorem Inv.prepare {rule : Rule} {db : CacheDb} {uploadId : String} (h : w.Inv)
    (hfresh : uploadId ∉ w.uploadIds) (hchanges : Changes rule w.db db)
    (hstart : ∀ u, rule.start u ↔ u.uploadId = uploadId) (hpublish : ∀ u, ¬ rule.publish u) :
    Inv { w with db, uploadIds := uploadId :: w.uploadIds } := by
  have huploads : ∀ u ∈ db.uploads, (∃ u₀ ∈ w.db.uploads,
      u.uploadId = u₀.uploadId ∧ u.objectKey = u₀.objectKey) ∨ u.uploadId = uploadId := by
    intro u hu
    have hmem := hchanges.mem_uploads
      (fun u u' hid _ hrule => (hstart u').mpr (hid.trans ((hstart u).mp hrule))) hu
    exact hmem.imp_right (hstart u).mp
  constructor
  · exact h.sound.changes hchanges
  · intro o ho hunclaimed
    rcases hchanges.unclaimed h.sound ho hunclaimed with ⟨ho, hunclaimed⟩ | ⟨u, hrule, -⟩
    · exact h.present o ho hunclaimed
    · exact absurd hrule (hpublish u)
  · exact h.deletionKeys
  · intro u hu
    rcases huploads u hu with ⟨u₀, hu₀, hid, -⟩ | hid
    · exact List.mem_cons_of_mem _ (hid ▸ h.uploadsDrawn u₀ hu₀)
    · exact hid ▸ List.mem_cons_self
  · exact fun c hc => List.mem_cons_of_mem _ (h.cleanupsDrawn c hc)
  · intro c hc u hu hid
    rcases huploads u hu with ⟨u₀, hu₀, hid₀, hkey₀⟩ | hnew
    · rw [hkey₀]
      exact h.cleanupKeys c hc u₀ hu₀ (hid₀.symm.trans hid)
    · exact absurd (hid.symm.trans hnew ▸ h.cleanupsDrawn c hc) hfresh

/-- Deleting a blob that belongs to no stored and unclaimed object. -/
theorem Inv.deleteBlob {objectKey : String} (h : w.Inv)
    (hunused : ∀ o ∈ w.db.objects, w.db.deletionIsClaimed o.repositoryId o.checksumSha256 = false →
      o.objectKey ≠ objectKey) : (w.deleteBlob objectKey).Inv :=
  { h with
    present := fun o ho hunclaimed => List.mem_filter.mpr
      ⟨h.present o ho hunclaimed, by simpa using hunused o ho hunclaimed⟩ }

/-- `expire_uploads` claims rows of the store, under their keys. -/
theorem expireUploads_claims {nowUnix limit : ℕ} {db db' : CacheDb}
    {claims : List CacheUploadCleanupClaim}
    (h : (expireUploads nowUnix limit).run db = .ok claims db') {c : CacheUploadCleanupClaim}
    (hc : c ∈ claims) : ∃ u ∈ db.uploads, u.uploadId = c.uploadId ∧ u.objectKey = c.objectKey := by
  simp only [expireUploads, transaction_eq_ok, bind_eq_ok, check_eq_ok, get_eq_ok,
    modify_eq_ok] at h
  obtain ⟨now, _, ⟨-, rfl⟩, limit, _, ⟨-, rfl⟩, cleanupExpiry, _, ⟨-, rfl⟩, _, _, ⟨rfl, rfl⟩, _, _,
    rfl, h⟩ := h
  cases h
  obtain ⟨u, hu, rfl⟩ := List.mem_map.mp hc
  exact ⟨u, (Table.mem_select.mp (mem_of_mem_firstRows hu)).1, rfl, rfl⟩

/-- A claimed deletion names the key of the stored object. -/
theorem claimDeletion_key {candidate : String × String} {nowUnix retryAt : ℕ} {db db' : CacheDb}
    {d : PendingCacheDeletion}
    (h : (claimDeletion candidate nowUnix retryAt).run db = .ok (some d) db') :
    ∃ o ∈ db.objects, o.key = (d.repositoryId, d.checksumSha256) ∧ o.objectKey = d.objectKey := by
  simp only [claimDeletion, transaction_eq_ok, bind_eq_ok, check_eq_ok, get_eq_ok] at h
  obtain ⟨now, _, ⟨-, rfl⟩, retryAt, _, ⟨-, rfl⟩, _, _, ⟨rfl, rfl⟩, h⟩ := h
  split at h
  · next due object hdue hobject =>
    split at h
    · simp only [bind_eq_ok, modify_eq_ok] at h
      obtain ⟨_, _, rfl, h⟩ := h
      cases h
      obtain ⟨hmem, hkey⟩ := Table.find?_eq_some.mp hobject
      exact ⟨object, hmem, hkey, rfl⟩
    · cases h
  · cases h

/-- The blob that a current cleanup claim deletes belongs to no stored object. -/
theorem Inv.cleanup_unused (h : w.Inv) {c : CacheUploadCleanupClaim} (hc : c ∈ w.cleanups)
    (hcurrent : cleanupIsCurrent w.db c = true) : ∀ o ∈ w.db.objects, o.objectKey ≠ c.objectKey := by
  intro o ho hkey
  obtain ⟨u, hu, hrow⟩ := Table.any_eq_true.mp hcurrent
  simp only [Bool.and_eq_true, decide_eq_true_eq] at hrow
  obtain ⟨⟨hid, hdeleting⟩, -⟩ := hrow
  have hopen : u.isOpen = true := by simp [CacheUploadRecord.isOpen, hdeleting]
  obtain ⟨hdigest, hukey⟩ := h.sound.uploadKeys u hu
  obtain ⟨hdigest', hokey⟩ := h.sound.objectKeys o ho
  have hkeys : cacheObjectKey o.repositoryId o.checksumSha256 =
      cacheObjectKey u.repositoryId u.checksumSha256 := by
    rw [← hokey, ← hukey, hkey, h.cleanupKeys c hc u hu hid]
  obtain ⟨hrepository, hchecksum⟩ := cacheObjectKey_injective hdigest' hdigest hkeys
  exact h.sound.openUnstored u hu hopen o ho (Prod.ext hrepository hchecksum)

theorem Inv.deleteUpload (h : w.Inv) {c : CacheUploadCleanupClaim} (hc : c ∈ w.cleanups)
    (outcome : DeleteOutcome) : (w.deleteUpload c outcome).Inv := by
  rw [World.deleteUpload]
  split
  · next hcurrent => exact h.deleteBlob fun o ho _ => h.cleanup_unused hc hcurrent.1 o ho
  · exact h

/-- Nor does the blob of a delete that takes effect while its object is claimed or not stored. -/
theorem Inv.delete_unused (h : w.Inv) {d : InFlight} (hd : d ∈ w.deletions)
    (hclaimed : w.deletesClaimed (.deleteObject d) = true) :
    ∀ o ∈ w.db.objects, w.db.deletionIsClaimed o.repositoryId o.checksumSha256 = false →
      o.objectKey ≠ d.deletion.objectKey := by
  intro o ho hunclaimed hkey
  obtain ⟨hdigest, hdkey⟩ := h.deletionKeys d hd
  obtain ⟨hdigest', hokey⟩ := h.sound.objectKeys o ho
  obtain ⟨hrepository, hchecksum⟩ := cacheObjectKey_injective hdigest' hdigest
    (hokey.symm.trans (hkey.trans hdkey))
  rw [deletesClaimed, Bool.or_eq_true, Option.isNone_iff_eq_none] at hclaimed
  rcases hclaimed with hnone | hclaimed
  · exact Table.find?_eq_none.mp hnone o ho (Prod.ext hrepository hchecksum)
  · rw [← hrepository, ← hchecksum, hunclaimed] at hclaimed
    exact absurd hclaimed (by simp)

/-- The step lemma: one action whose delete is allowed keeps the invariant. -/
theorem Inv.act (h : w.Inv) (hclaimed : w.deletesClaimed a = true) (ha : w.act a = some w') : w'.Inv := by
  have hchanges := act_changes (fun _ _ => True) ha fun args _ db₁ object _ _ _ => trivial
  have hfalse : ∀ u : CacheUploadRecord, False → u.objectKey ∈ w.blobs := fun _ => False.elim
  cases a with
  | tick seconds =>
    cases ha
    exact { h with }
  | put objectKey =>
    cases ha
    exact { h with
      present := fun o ho hunclaimed => List.mem_cons_of_mem _ (h.present o ho hunclaimed) }
  | restore =>
    obtain ⟨result, db, hok, rfl⟩ := map_run_eq_some (now_eq_some.mp ha).2
    exact h.transaction hchanges (fun _ => id) hfalse
  | prepare args =>
    have hnext := (now_eq_some.mp ha).2
    split at hnext
    · cases hnext
    · next hfresh =>
      obtain ⟨result, db, hok, rfl⟩ := map_run_eq_some hnext
      exact h.prepare hfresh hchanges (fun u => Iff.rfl) fun _ => id
  | commit uploadId nowUnix =>
    have hnext := (now_eq_some.mp ha).2
    split at hnext
    · obtain ⟨result, db, hok, rfl⟩ := map_run_eq_some hnext
      exact h.transaction hchanges (fun _ => id) fun u hu => hu
    · cases hnext
  | expireReferences =>
    obtain ⟨count, db, hok, rfl⟩ := map_run_eq_some (now_eq_some.mp ha).2
    exact h.transaction hchanges (fun _ => id) hfalse
  | expireUploads nowUnix limit =>
    obtain ⟨claims, db, hok, rfl⟩ := map_run_eq_some (now_eq_some.mp ha).2
    have hnew : ∀ c ∈ claims, ∃ u ∈ w.db.uploads, u.uploadId = c.uploadId ∧
        u.objectKey = c.objectKey := fun c hc => expireUploads_claims hok hc
    have htx := h.transaction hchanges (fun _ => id) hfalse
    refine { htx with cleanupsDrawn := ?_, cleanupKeys := ?_ }
    · intro c hc
      rcases List.mem_append.mp hc with hc | hc
      · exact h.cleanupsDrawn c hc
      · obtain ⟨u, hu, hid, -⟩ := hnew c hc
        exact hid ▸ h.uploadsDrawn u hu
    · intro c hc u hu hid
      rcases List.mem_append.mp hc with hc | hc
      · exact htx.cleanupKeys c hc u hu hid
      · obtain ⟨u₀, hu₀, hid₀, hkey₀⟩ := hnew c hc
        obtain ⟨u₁, hu₁, hid₁, hkey₁⟩ := (hchanges.mem_uploads (fun _ _ _ _ => id) hu).resolve_right id
        have heq : u₁ = u₀ := Table.eq_of_key_eq hu₁ hu₀ (hid₁.symm.trans (hid.trans hid₀.symm))
        rw [hkey₁, heq, hkey₀]
  | cleanupUpload claim outcome =>
    simp only [World.act, Option.ite_none_right_eq_some, Option.some.injEq] at ha
    obtain ⟨hclaim, rfl⟩ := ha
    have hdelete := h.deleteUpload hclaim outcome
    have hdb : (w.deleteUpload claim outcome).db = w.db := by
      rw [World.deleteUpload]
      split <;> rfl
    have hcleanups : (w.deleteUpload claim outcome).cleanups = w.cleanups := by
      rw [World.deleteUpload]
      split <;> rfl
    have herase : ∀ c ∈ w.cleanups.erase claim, c ∈ (w.deleteUpload claim outcome).cleanups :=
      fun c hc => hcleanups ▸ List.mem_of_mem_erase hc
    rw [cleanup]
    split
    · next db hok =>
      have hcleanup : Changes ⟨fun _ _ => True, fun _ => False, fun _ => False⟩ w.db db :=
        cleanupUpload_changes hok
      have htx := hdelete.transaction (hdb.symm ▸ hcleanup) (fun _ => id) fun _ => False.elim
      exact { htx with
        cleanupsDrawn := fun c hc => htx.cleanupsDrawn c (herase c hc)
        cleanupKeys := fun c hc => htx.cleanupKeys c (herase c hc) }
    · exact { hdelete with
        cleanupsDrawn := fun c hc => hdelete.cleanupsDrawn c (herase c hc)
        cleanupKeys := fun c hc => hdelete.cleanupKeys c (herase c hc) }
  | expireCommittedUploads =>
    obtain ⟨u, db, hok, rfl⟩ := map_run_eq_some (now_eq_some.mp ha).2
    exact h.transaction hchanges (fun _ => id) hfalse
  | selectDeletions nowUnix limit =>
    cases (now_eq_some.mp ha).2
    exact { h with }
  | claimDeletion candidate =>
    simp only [World.act, Option.ite_none_right_eq_some, Option.bind_eq_bind,
      Option.bind_eq_some_iff] at ha
    obtain ⟨-, retryAt, -, ⟨deletion, w₁⟩, hrun, hw'⟩ := ha
    obtain ⟨db, hok, rfl⟩ := run_eq_some.mp hrun
    cases hw'
    refine { h.transaction hchanges (fun _ => id) hfalse with deletionKeys := ?_ }
    intro d hd
    rcases List.mem_append.mp hd with hd | hd
    · exact h.deletionKeys d hd
    · obtain ⟨pending, hpending, rfl⟩ := List.mem_map.mp hd
      rw [Option.mem_toList] at hpending
      subst hpending
      obtain ⟨o, ho, hkey, hobjectKey⟩ := claimDeletion_key hok
      obtain ⟨hrepository, hchecksum⟩ := Prod.ext_iff.mp hkey
      simp only [CacheObjectRecord.key] at hrepository hchecksum
      simp only
      rw [← hobjectKey, ← hrepository, ← hchecksum]
      exact h.sound.objectKeys o ho
  | deleteObject inFlight =>
    simp only [World.act, Option.ite_none_right_eq_some, Option.some.injEq] at ha
    obtain ⟨hd, rfl⟩ := ha
    refine { h.deleteBlob (h.delete_unused hd hclaimed) with deletionKeys := ?_ }
    intro d hmem
    rcases List.mem_cons.mp hmem with rfl | hmem
    · exact h.deletionKeys inFlight hd
    · exact h.deletionKeys d (List.mem_of_mem_erase hmem)
  | completeDeletion inFlight =>
    simp only [World.act, Option.ite_none_right_eq_some] at ha
    obtain ⟨deleted, db, hok, rfl⟩ := map_run_eq_some ha.2
    exact { h.transaction hchanges (fun _ => id) hfalse with
      deletionKeys := fun d hd => h.deletionKeys d (List.mem_of_mem_erase hd) }
  | failDeletion inFlight nowUnix error =>
    have hnext := (now_eq_some.mp ha).2
    simp only [Option.ite_none_right_eq_some, Option.bind_eq_bind, Option.bind_eq_some_iff] at hnext
    obtain ⟨-, retryAt, -, ⟨u, w₁⟩, hrun, hw'⟩ := hnext
    obtain ⟨db, hok, rfl⟩ := run_eq_some.mp hrun
    cases hw'
    exact { h.transaction hchanges (fun _ => id) hfalse with
      deletionKeys := fun d hd => h.deletionKeys d (List.mem_of_mem_erase hd) }

theorem ReachableClaimed.inv (h : ReachableClaimed w) : w.Inv := by
  refine Transition.Reachable.invariant Inv h ?_ ?_
  · rintro _ ⟨clock, rfl⟩
    exact Inv.initial clock
  · rintro w w' - hinv ⟨a, hclaimed, ha⟩
    exact hinv.act hclaimed ha

/-- In every interleaving references point to stored objects and open uploads exclude them, and
where every delete takes effect on an object that is not stored or is claimed, no referenced blob
is ever deleted. -/
theorem safe_of_deletes_claimed (w : World) :
    (Reachable w → (∀ r ∈ w.db.references, ∃ o ∈ w.db.objects, o.key = r.target) ∧
      ∀ u ∈ w.db.uploads, u.isOpen = true → ∀ o ∈ w.db.objects, o.key ≠ u.target) ∧
    (ReachableClaimed w → w.Safe) :=
  ⟨fun h => ⟨h.sound.referencesStored, h.sound.openUnstored⟩, fun h => h.inv.safe⟩

/-! ## A delete that outlives its claim -/

namespace LateDelete

def digest (c : Char) : String := String.ofList (List.replicate 64 c)

def objectKey : String := cacheObjectKey "r" (digest 'c')

def args (uploadId : String) (nowUnix : ℕ) : PrepareArgs :=
  ⟨"r", digest 'a', digest 'b', digest 'c', 1, "s3", uploadId, nowUnix⟩

def upload (uploadId : String) (nowUnix : ℕ) : List Action :=
  [.prepare (args uploadId nowUnix), .put objectKey, .commit uploadId nowUnix]

def deletion (attempts eligibleAfterUnix : ℕ) : PendingCacheDeletion :=
  ⟨"r", digest 'c', objectKey, attempts, eligibleAfterUnix⟩

/-- An object is uploaded and expires. A first worker claims its deletion; the claim lapses, a second
worker claims the deletion too, deletes the blob and completes. -/
def deletedByTheSecond : List Action :=
  upload "u1" 0 ++
    [.tick 604800, .expireReferences 604800 100, .expireCommittedUploads 604800 100, .tick 3600,
      .selectDeletions 608400 100, .claimDeletion ⟨("r", digest 'c'), 608400⟩, .tick 300,
      .selectDeletions 608700 100, .claimDeletion ⟨("r", digest 'c'), 608700⟩,
      .deleteObject ⟨deletion 2 608700, false⟩, .completeDeletion ⟨deletion 2 608700, true⟩]

/-- The object is uploaded again, and then the delete of the first worker takes effect. -/
def deletedByTheFirst : List Action :=
  deletedByTheSecond ++ upload "u2" 608700 ++ [.deleteObject ⟨deletion 1 608400, false⟩]

end LateDelete

/-- The blob of a referenced object can be deleted: a late delete carries no token of its claim. -/
theorem not_safe_of_reachable : ¬ ∀ w, Reachable w → w.Safe := by
  have hrun : ((LateDelete.deletedByTheFirst.foldlM act (initial 0)).any fun w =>
      w.db.references.any fun r => w.db.objects.any fun o =>
        o.key = r.target && !decide (o.objectKey ∈ w.blobs)) = true := by
    decide +kernel
  obtain ⟨w, hw, hunsafe⟩ := (Option.any_eq_true _ _).mp hrun
  obtain ⟨r, hr, hobject⟩ := Table.any_eq_true.mp hunsafe
  obtain ⟨o, ho, hmissing⟩ := Table.any_eq_true.mp hobject
  simp only [Bool.and_eq_true, decide_eq_true_eq, Bool.not_eq_true', decide_eq_false_iff_not]
    at hmissing
  intro hsafe
  have hreach : Reachable w :=
    (Transition.Reachable.of_init ⟨0, rfl⟩).foldlM (fun s a t ha => ⟨a, ha⟩) hw
  exact hmissing.2 ((hsafe w hreach).blobPresent r hr o ho hmissing.1)

/-- After a deletion that took effect under its claim, the object is uploaded and referenced
again. -/
theorem safe_of_deletes_claimed_uploadedAgain :
    ∃ w, ReachableClaimed w ∧ (∃ r, r ∈ w.db.references) ∧ w.Safe := by
  have hrun : (((LateDelete.deletedByTheSecond ++ LateDelete.upload "u2" 608700).foldlM
      (fun (w : World) a => if w.deletesClaimed a = true then w.act a else none) (initial 0)).any fun w =>
        w.db.references.any fun _ => true) = true := by
    decide +kernel
  obtain ⟨w, hw, hreferenced⟩ := (Option.any_eq_true _ _).mp hrun
  obtain ⟨r, hr, -⟩ := Table.any_eq_true.mp hreferenced
  have hreach : ReachableClaimed w :=
    (Transition.Reachable.of_init ⟨0, rfl⟩).foldlM (fun s a t ha => by
      rw [Option.ite_none_right_eq_some] at ha
      exact ⟨a, ha⟩) hw
  exact ⟨w, hreach, ⟨r, hr⟩, (safe_of_deletes_claimed w).2 hreach⟩

end World

end ScopeVcs.Caches
