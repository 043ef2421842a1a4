import ScopeVcs.Lib.Transition
import ScopeVcs.Storage.IngestOutcome
import ScopeVcs.Storage.PackCacheUsage

/-! # Packs in use stay

The cache runs for as long as its process does. Its callers ask for a segment at the path that the segment's
identity is hashed to, and install what a restore or an ingest has verified; others may write below its
root, and what they write has a modification time of its own. Over every run the leases of a path are its
pins, and no operation removes a pack that is pinned.
-/

namespace ScopeVcs.Storage.PackCache

open Mutation VerifiedPackCache

section

variable {crypto : Crypto} {segments : Set SegmentRef} {cache cache' : VerifiedPackCache}
  {env : Environment} {segment segment' : SegmentRef} {source : Option Node}

/-! ## Paths -/

/-- The ranges of the fields. -/
structure InRange (segment : SegmentRef) : Prop where
  plaintextBytes_le : segment.plaintextBytes ≤ U64.maxU64
  length_sha256 : (Text.utf8 segment.sha256).length ≤ isizeMax

theorem identity_cons (part : Bytes) (parts : List Bytes) :
    identity (part :: parts) = Bytes.be 8 part.length ++ (part ++ identity parts) := by
  rw [identity, identity, List.flatMap_cons, List.append_assoc]

/-- The identity of a segment determines its hash and its size. -/
theorem segmentParts_identity (hsegment : InRange segment) (hsegment' : InRange segment')
    (h : identity (segmentParts segment) = identity (segmentParts segment')) :
    segment.sha256 = segment'.sha256 ∧ segment.plaintextBytes = segment'.plaintextBytes := by
  have hlt : ∀ {length : ℕ}, length ≤ isizeMax → length < 256 ^ 8 := fun hle =>
    Nat.lt_of_le_of_lt hle (by decide)
  have hsize : ∀ {size : ℕ}, size ≤ U64.maxU64 → size < 256 ^ 8 := fun hle =>
    Nat.lt_of_le_of_lt hle (by decide)
  have hbe : ∀ {width number : ℕ}, width ≤ 8 → (Bytes.be width number).length < 256 ^ 8 := by
    intro width number hwidth
    rw [Bytes.length_be]
    exact Nat.lt_of_le_of_lt hwidth (by decide)
  simp only [segmentParts, identity_cons] at h
  obtain ⟨-, h⟩ := prefixed_inj (hbe (by decide)) (hbe (by decide)) h
  obtain ⟨-, h⟩ := prefixed_inj segment.segmentId.length_lt segment'.segmentId.length_lt h
  obtain ⟨hsha, h⟩ := prefixed_inj (hlt hsegment.length_sha256) (hlt hsegment'.length_sha256) h
  obtain ⟨hbytes, -⟩ := prefixed_inj (hbe le_rfl) (hbe le_rfl) h
  exact ⟨Text.utf8_injective hsha, Bytes.be_inj (hsize hsegment.plaintextBytes_le)
    (hsize hsegment'.plaintextBytes_le) hbytes⟩

/-- SHA-256 tells the identities of these segments apart. -/
def CollisionFree (crypto : Crypto) (segments : Set SegmentRef) : Prop :=
  ∀ segment ∈ segments, ∀ segment' ∈ segments,
    crypto.sha256Hex (identity (segmentParts segment)) =
      crypto.sha256Hex (identity (segmentParts segment')) →
    identity (segmentParts segment) = identity (segmentParts segment')

/-- The hash of a segment is the hash that its path stands for. -/
theorem stands_of_mem (hrange : ∀ segment ∈ segments, InRange segment)
    (hcollision : CollisionFree crypto segments) (hsegment : segment ∈ segments)
    (repositoryId incarnationId : Str) :
    Stands crypto segments (verifiedPackPath crypto repositoryId incarnationId segment)
      segment.sha256 := by
  intro content hsha repositoryId' incarnationId' other hother hpath
  have hkey : segmentCacheKey crypto other = segmentCacheKey crypto segment :=
    congrArg PackPath.key hpath
  have hidentity := hcollision other hother segment hsegment hkey
  rw [hsha, (segmentParts_identity (hrange other hother) (hrange segment hsegment) hidentity).1]

/-! ## What is installed -/

/-- The source has the size and the hash of the segment. -/
def SourceVerified (crypto : Crypto) (segment : SegmentRef) (source : Option Node) : Prop :=
  ∀ content modified, source = some (.file content modified) →
    verifyPlaintext crypto segment content.length content = .ok ()

theorem verifyPlaintext_eq_ok {plaintextBytes : ℕ} {content : Bytes} :
    verifyPlaintext crypto segment plaintextBytes content = .ok () ↔
      plaintextBytes = segment.plaintextBytes ∧ crypto.sha256Hex content = segment.sha256 := by
  rw [verifyPlaintext, except_unit_bind_eq_ok]
  simp only [rejectIf_eq_ok, ne_eq, not_not]

/-- What was written is what was hashed, and it was counted. -/
def Counted (state : RestoreState) : Prop :=
  state.digest = state.output ∧ state.plaintextBytes = state.output.length

theorem counted_start : Counted ⟨[], [], 0, 0⟩ := ⟨rfl, rfl⟩

theorem restoreFrame_counted (state : RestoreState) (bytes : Bytes) (h : Counted state)
    (hok : (restoreFrame state bytes).2 = .ok ()) : Counted (restoreFrame state bytes).1 := by
  obtain ⟨hdigest, hlength⟩ := h
  unfold restoreFrame at hok ⊢
  dsimp only at hok ⊢
  split_ifs at hok ⊢
  refine ⟨?_, ?_⟩
  · dsimp only
    rw [hdigest]
  · dsimp only
    rw [hlength, List.length_append]

/-- A restore that ends well has put out what its segment says. -/
theorem restoreTo_verified {key : EncryptionKey} {repositoryId : Str} {remote : Source}
    {timings : RestoreTimings}
    (h : (restoreTo crypto key repositoryId segment remote).2 = .ok timings) (modified : SystemTime) :
    SourceVerified crypto segment
      (some (.file (restoreTo crypto key repositoryId segment remote).1 modified)) := by
  rintro content modified' hcontent
  cases hcontent
  rw [restoreTo] at h ⊢
  split at h
  · cases h
  · next start hstart =>
    dsimp only at h ⊢
    obtain ⟨reached, hreached, h⟩ := except_bind_eq_ok.mp h
    obtain ⟨-, h⟩ := except_unit_bind_eq_ok.mp h
    obtain ⟨hverified, -⟩ := except_unit_bind_eq_ok.mp h
    obtain ⟨items, last, -, hstate, hended⟩ := Producer.exists_yields
      (EnvelopeReader.producer crypto) restoreFrame start ⟨[], [], 0, 0⟩
    obtain ⟨hdigest, hlength⟩ := Producer.feed_invariant restoreFrame_counted items
      counted_start (hended reached hreached).2
    rw [← hstate] at hdigest hlength
    rw [← hlength, ← hdigest]
    exact hverified

/-- The pack that an ingest leaves is what its segment says. -/
theorem verified_of_stored {store : GitSegmentStore} {schedule : Schedule} {repositoryId : Str}
    {reservation : GitSegmentReservation} {plaintext : Bytes} {chunks : List Bytes} {maxBytes : ℕ}
    {ingest : Ingest} {staged : StagedGitSegment}
    (h : StoresOrNothing crypto store schedule repositoryId reservation plaintext chunks maxBytes
      ingest) (hstaged : ingest.result = .ok staged) (modified : SystemTime) :
    SourceVerified crypto staged.segment
      (ingest.files.pack.map fun content => .file content modified) := by
  obtain ⟨hfiles, hsegment, -⟩ := h.stored staged hstaged
  rintro content modified' hcontent
  rw [hfiles, Option.map_some] at hcontent
  cases hcontent
  rw [verifyPlaintext_eq_ok, hsegment]
  exact ⟨rfl, rfl⟩

/-! ## Runs -/

inductive Operation where
  | leaseExisting (env : Environment) (repositoryId incarnationId : Str) (segment : SegmentRef)
      (timings : RestoreTimings)
  | install (env : Environment) (repositoryId incarnationId : Str) (segment : SegmentRef)
      (source : Option Node)
  | usage (env : Environment)
  | evictTo (env : Environment) (targetBytes : ℕ)
  | dropPin (env : Environment) (path : PackPath)

namespace Operation

/-- The cache after the operation, however it ends. -/
def apply (crypto : Crypto) (cache : VerifiedPackCache) : Operation → VerifiedPackCache
  | leaseExisting env repositoryId incarnationId segment timings =>
    final (PackCache.leaseExisting env crypto
      (verifiedPackPath crypto repositoryId incarnationId segment) segment.plaintextBytes
      segment.sha256 timings) cache
  | install env repositoryId incarnationId segment source =>
    final (PackCache.install env crypto source
      (verifiedPackPath crypto repositoryId incarnationId segment) segment.plaintextBytes
      segment.sha256) cache
  | usage env => final (PackCache.usage env) cache
  | evictTo env targetBytes => final (PackCache.evictTo env targetBytes) cache
  | dropPin env path => cache.dropPin env path

/-- What the callers see to: a source was verified, and a pin is dropped once. -/
def Allowed (crypto : Crypto) (segments : Set SegmentRef) (cache : VerifiedPackCache) :
    Operation → Prop
  | leaseExisting _ _ _ segment _ => segment ∈ segments
  | install _ _ _ segment source => segment ∈ segments ∧ SourceVerified crypto segment source
  | dropPin _ path => path ∈ cache.pins
  | _ => True

end Operation

inductive Step (crypto : Crypto) (segments : Set SegmentRef) :
    VerifiedPackCache → VerifiedPackCache → Prop where
  | operation {cache : VerifiedPackCache} (operation : Operation)
      (h : operation.Allowed crypto segments cache) :
      Step crypto segments cache (operation.apply crypto cache)
  /-- Others write below the root, with a modification time at which no pack was hashed. -/
  | others {cache : VerifiedPackCache} (directory : Table CacheFile.path)
      (h : ∀ (path : PackPath) content modified,
        VerifiedPackCache.node? { cache with directory } path.artifact =
            some (.file content modified) →
          cache.node? path.artifact = some (.file content modified) ∨
            cache.verifiedAt path ≠ some modified) :
      Step crypto segments cache { cache with directory }

/-- The caches of all runs, each from a directory that was left as it was. -/
def Reachable (crypto : Crypto) (segments : Set SegmentRef) : VerifiedPackCache → Prop :=
  Transition.Reachable (fun cache => ∃ directory, cache = .new directory) (Step crypto segments)

section

variable (hrange : ∀ segment ∈ segments, InRange segment)
  (hcollision : CollisionFree crypto segments)

include hrange hcollision

/-- An operation that ends no pin is a run of changes. -/
theorem Operation.runs (hsound : Sound crypto segments cache) (operation : Operation)
    (h : operation.Allowed crypto segments cache) :
    (∃ env path, operation = .dropPin env path) ∨
      Relation.ReflTransGen (Change crypto segments) cache (operation.apply crypto cache) := by
  cases operation with
  | leaseExisting env repositoryId incarnationId segment timings =>
    exact .inr (leaseExisting_runs hsound (stands_of_mem hrange hcollision h _ _))
  | install env repositoryId incarnationId segment source =>
    have hstands := stands_of_mem hrange hcollision h.1 repositoryId incarnationId
    refine .inr (install_runs hsound hstands fun content modified hcontent => ?_)
    exact hstands content (verifyPlaintext_eq_ok.mp (h.2 content modified hcontent)).2
  | usage env => exact .inr usage_runs
  | evictTo env targetBytes => exact .inr evictTo_runs
  | dropPin env path => exact .inl ⟨env, path, rfl⟩

omit hrange hcollision in
theorem Sound.dropPin (hsound : Sound crypto segments cache) (path : PackPath) :
    Sound crypto segments (cache.dropPin env path) := by
  refine ⟨fun other => ?_, fun other content modified hverified => ?_⟩
  · have hpins : (cache.dropPin env path).pins = cache.pins.erase path := rfl
    rw [leases_dropPin, hpins, hsound.leases, hsound.leases]
    split_ifs with heq
    · rw [heq, List.count_erase_self]
    · rw [List.count_erase_of_ne heq]
  · rw [verifiedAt_dropPin] at hverified
    exact hsound.verified other content modified hverified

theorem Step.sound (hsound : Sound crypto segments cache) (h : Step crypto segments cache cache') :
    Sound crypto segments cache' := by
  cases h with
  | operation operation h =>
    rcases operation.runs hrange hcollision hsound h with ⟨env, path, rfl⟩ | hruns
    · exact hsound.dropPin path
    · exact hsound.of_changes hruns
  | others directory h =>
    refine ⟨hsound.leases, fun path content modified hverified hnode => ?_⟩
    rcases h path content modified hnode with hsame | hne
    · exact hsound.verified path content modified hverified hsame
    · exact absurd hverified hne

omit hrange hcollision in
theorem sound_new (directory : Table CacheFile.path) : Sound crypto segments (.new directory) := by
  refine ⟨fun _ => rfl, fun path content modified hverified => ?_⟩
  cases hverified

theorem Reachable.sound (h : Reachable crypto segments cache) : Sound crypto segments cache := by
  refine Transition.Reachable.invariant (Sound crypto segments) h ?_ ?_
  · rintro _ ⟨directory, rfl⟩
    exact sound_new directory
  · exact fun _ _ _ hsound hstep => hstep.sound hrange hcollision hsound

end

/-- A pack of the segment is at the path that was handed out, which is pinned. -/
structure HandedOut (crypto : Crypto) (segment : SegmentRef) (path : PackPath)
    (cache : VerifiedPackCache) : Prop where
  pinned : path ∈ cache.pins
  pack : ∃ content modified, cache.node? path.artifact = some (.file content modified) ∧
    content.length = segment.plaintextBytes ∧ crypto.sha256Hex content = segment.sha256

/-- What holds of a cache whose packs in use stay. -/
structure KeepsPacks (crypto : Crypto) (segments : Set SegmentRef) (cache : VerifiedPackCache) :
    Prop where
  leases : ∀ path, cache.leases path = cache.pins.count path
  /-- The subtraction does not saturate. -/
  dropPin : ∀ env, ∀ path ∈ cache.pins, (cache.dropPin env path).leases path + 1 = cache.leases path
  kept : ∀ operation : Operation, operation.Allowed crypto segments cache → ∀ path ∈ cache.pins,
    ∀ node, cache.node? path.artifact = some node →
      (operation.apply crypto cache).node? path.artifact = some node
  leased : ∀ env repositoryId incarnationId, ∀ segment ∈ segments, ∀ timings pack cache',
    (leaseExisting env crypto (verifiedPackPath crypto repositoryId incarnationId segment)
      segment.plaintextBytes segment.sha256 timings).run cache = .ok (some pack) cache' →
    HandedOut crypto segment pack.path cache'
  installed : ∀ env repositoryId incarnationId, ∀ segment ∈ segments, ∀ source,
    SourceVerified crypto segment source → ∀ pin cache',
      (install env crypto source (verifiedPackPath crypto repositoryId incarnationId segment)
        segment.plaintextBytes segment.sha256).run cache = .ok pin cache' →
      HandedOut crypto segment pin cache'
  evicted : ∀ env targetBytes usage cache',
    (evictTo env targetBytes).run cache = .ok usage cache' →
      usage = measured cache' ∧ (usage.retainedBytes ≤ targetBytes ∨
        ∀ file ∈ cache'.directory, ∀ path size modified,
          file.counted? = some (path, size, modified) → path ∈ cache'.pins)

theorem HasPack.handedOut {repositoryId incarnationId : Str} (hsegment : segment ∈ segments)
    (h : HasPack crypto segments cache (verifiedPackPath crypto repositoryId incarnationId segment)
      segment.plaintextBytes)
    (hpin : verifiedPackPath crypto repositoryId incarnationId segment ∈ cache.pins) :
    HandedOut crypto segment (verifiedPackPath crypto repositoryId incarnationId segment) cache := by
  obtain ⟨content, modified, hnode, hlength, hholds⟩ := h
  exact ⟨hpin, content, modified, hnode, hlength,
    hholds repositoryId incarnationId segment hsegment rfl⟩

theorem Sound.isLeased (hsound : Sound crypto segments cache) {path : PackPath} :
    cache.isLeased path = true ↔ path ∈ cache.pins := by
  rw [isLeased_iff, hsound.leases, List.count_pos_iff]

end

namespace RecordedPack

def segment : SegmentRef where
  segmentId := ⟨ascii "00112233445566778899aabbccddeeff", by decide⟩
  sha256 := "68bb7123ce17eec22edd41f4adacca7eb29d689478616590321d0476895dd709"
  plaintextBytes := 18
  encodingVersion := 2

def incarnationId : Str := ⟨ascii "incarnation-1", by decide⟩

/-- The hashes of the plaintext, of the segment's identity and of the repository's. -/
def library : Crypto where
  encrypt := Recorded.library.encrypt
  decrypt := Recorded.library.decrypt
  hmacSha256 := Recorded.library.hmacSha256
  sha256Hex := fun bytes =>
    if bytes = Recorded.plaintext then
      "68bb7123ce17eec22edd41f4adacca7eb29d689478616590321d0476895dd709"
    else if bytes = identity (segmentParts segment) then
      "56c8b7a158c541821f8b8693f2a0b2e0e5fb628ea53649fbbf9dbdbef2322964"
    else
      "d754391b2ec23a8292476b21587d7d82309aebb765b4dc65fb3a4c03c1beaea7"
  length_encrypt := Recorded.library.length_encrypt

def env : Environment := ⟨0, fun _ => none⟩

def source : Option Node := some (.file Recorded.plaintext 7)

def installed : VerifiedPackCache :=
  (Operation.install env Recorded.repositoryId incarnationId segment source).apply library
    (.new ∅)

end RecordedPack

end ScopeVcs.Storage.PackCache
