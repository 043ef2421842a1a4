import ScopeVcs.Lib.Utf8
import ScopeVcs.Storage.Encodings
import ScopeVcs.Storage.PackCache

/-! # What the operations on the cache change

Each operation on the cache is a run of small changes, none of which removes a pack that is leased. The
leases of a path are its pins, and a pack that was hashed at its modification time has the hash that its
path stands for.
-/

namespace ScopeVcs.Storage.PackCache

open Mutation VerifiedPackCache

variable {cache cache' : VerifiedPackCache} {env : Environment} {path : PackPath}
  {content : Bytes} {modified : SystemTime}

/-! ## What the changes change -/

namespace VerifiedPackCache

theorem isLeased_iff : cache.isLeased path = true ↔ 0 < cache.leases path := decide_eq_true_iff

theorem isLeased_eq_false : cache.isLeased path = false ↔ cache.leases path = 0 := by
  rw [isLeased, decide_eq_false_iff_not, Nat.not_lt, Nat.le_zero]

@[simp]
theorem leases_removePath (file : ArtifactPath) : (cache.removePath file).leases = cache.leases :=
  rfl

@[simp]
theorem leases_movePath (file : ArtifactPath) (node : Node) :
    (cache.movePath file node).leases = cache.leases := rfl

theorem leases_setEntry (path other : PackPath) (entry : Option Entry) :
    (cache.setEntry path entry).leases other =
      if other = path then (entry.map Entry.leases).getD 0 else cache.leases other := by
  unfold leases setEntry
  dsimp only
  rw [Function.update_apply]
  split_ifs <;> rfl

theorem verifiedAt_setEntry (path other : PackPath) (entry : Option Entry) :
    (cache.setEntry path entry).verifiedAt other =
      if other = path then entry.bind Entry.verifiedAt else cache.verifiedAt other := by
  unfold verifiedAt setEntry
  dsimp only
  rw [Function.update_apply]
  split_ifs <;> rfl

theorem leases_getD (env : Environment) (path : PackPath) :
    ((cache.entries path).getD ⟨0, env.now, none⟩).leases = cache.leases path := by
  unfold leases
  cases cache.entries path <;> rfl

theorem verifiedAt_getD (env : Environment) (path : PackPath) :
    ((cache.entries path).getD ⟨0, env.now, none⟩).verifiedAt = cache.verifiedAt path := by
  unfold verifiedAt
  cases cache.entries path <;> rfl

@[simp]
theorem leases_setVerifiedAt (env : Environment) (path other : PackPath) (modified : SystemTime) :
    (cache.setVerifiedAt env path modified).leases other = cache.leases other := by
  rw [setVerifiedAt, entryMut, leases_setEntry]
  split_ifs with h
  · rw [h]
    exact leases_getD env path
  · rfl

@[simp]
theorem verifiedAt_setVerifiedAt (env : Environment) (path other : PackPath)
    (modified : SystemTime) : (cache.setVerifiedAt env path modified).verifiedAt other =
      if other = path then some modified else cache.verifiedAt other := by
  rw [setVerifiedAt, entryMut, verifiedAt_setEntry]
  rfl

@[simp]
theorem leases_clearVerifiedAt (path other : PackPath) :
    (cache.clearVerifiedAt path).leases other = cache.leases other := by
  rw [clearVerifiedAt, leases_setEntry, Option.map_map]
  split_ifs with h
  · rw [h]
    rfl
  · rfl

@[simp]
theorem verifiedAt_clearVerifiedAt (path other : PackPath) :
    (cache.clearVerifiedAt path).verifiedAt other =
      if other = path then none else cache.verifiedAt other := by
  rw [clearVerifiedAt, verifiedAt_setEntry]
  cases cache.entries path <;> rfl

@[simp]
theorem leases_removeEntry (path other : PackPath) :
    (cache.removeEntry path).leases other = if other = path then 0 else cache.leases other := by
  rw [removeEntry, leases_setEntry]
  rfl

@[simp]
theorem verifiedAt_removeEntry (path other : PackPath) :
    (cache.removeEntry path).verifiedAt other =
      if other = path then none else cache.verifiedAt other := by
  rw [removeEntry, verifiedAt_setEntry]
  rfl

@[simp]
theorem leases_pinLocked (env : Environment) (path other : PackPath) :
    (cache.pinLocked env path).leases other =
      if other = path then cache.leases path + 1 else cache.leases other := by
  refine (leases_setEntry path other _).trans ?_
  rw [← leases_getD env path]
  rfl

@[simp]
theorem verifiedAt_pinLocked (env : Environment) (path other : PackPath) :
    (cache.pinLocked env path).verifiedAt other = cache.verifiedAt other := by
  refine (verifiedAt_setEntry path other _).trans ?_
  rw [Option.bind_some, verifiedAt_getD]
  split_ifs with h
  · rw [h]
  · rfl

@[simp]
theorem leases_dropPin (env : Environment) (path other : PackPath) :
    (cache.dropPin env path).leases other =
      if other = path then cache.leases path - 1 else cache.leases other := by
  refine (leases_setEntry path other _).trans ?_
  unfold leases
  cases cache.entries path <;> rfl

@[simp]
theorem verifiedAt_dropPin (env : Environment) (path other : PackPath) :
    (cache.dropPin env path).verifiedAt other = cache.verifiedAt other := by
  refine (verifiedAt_setEntry path other _).trans ?_
  split_ifs with h
  · rw [h]
    unfold verifiedAt
    cases cache.entries path <;> rfl
  · rfl

@[simp]
theorem node?_removePath (file other : ArtifactPath) :
    (cache.removePath file).node? other = if other = file then none else cache.node? other := by
  unfold node? removePath
  rw [Table.find?_delete]
  split_ifs <;> rfl

@[simp]
theorem node?_movePath (file other : ArtifactPath) (node : Node) :
    (cache.movePath file node).node? other =
      if other = file then some node else cache.node? other := by
  have hnone : (cache.directory.delete (·.path = file)).find? (CacheFile.path ⟨file, node⟩) = none := by
    rw [Table.find?_delete, if_pos rfl]
  unfold node? movePath
  rw [Table.find?_insert hnone, Table.find?_delete]
  split_ifs <;> rfl

end VerifiedPackCache

/-! ## Changes -/

section

variable (crypto : Crypto) (segments : Set SegmentRef)

/-- The content has the hash that the path stands for. -/
def Holds (path : PackPath) (content : Bytes) : Prop :=
  ∀ repositoryId incarnationId, ∀ segment ∈ segments,
    verifiedPackPath crypto repositoryId incarnationId segment = path →
      crypto.sha256Hex content = segment.sha256

/-- What the operations that are not the end of a pin consist of. -/
inductive Change : VerifiedPackCache → VerifiedPackCache → Prop where
  | clearVerifiedAt {cache : VerifiedPackCache} (path : PackPath) :
      Change cache (cache.clearVerifiedAt path)
  | setVerifiedAt {cache : VerifiedPackCache} {path : PackPath} {content : Bytes}
      {modified : SystemTime} (env : Environment)
      (hnode : cache.node? path.artifact = some (.file content modified))
      (h : Holds crypto segments path content) : Change cache (cache.setVerifiedAt env path modified)
  | removeEntry {cache : VerifiedPackCache} {path : PackPath} (h : cache.isLeased path = false) :
      Change cache (cache.removeEntry path)
  | removePath {cache : VerifiedPackCache} {file : ArtifactPath}
      (h : ∀ path : PackPath, path.artifact = file → cache.isLeased path = false) :
      Change cache (cache.removePath file)
  | movePath {cache : VerifiedPackCache} {path : PackPath} {content : Bytes}
      (modified : SystemTime) (hnode : cache.node? path.artifact = none)
      (h : Holds crypto segments path content) :
      Change cache (cache.movePath path.artifact (.file content modified))
  | pinLocked {cache : VerifiedPackCache} (env : Environment) (path : PackPath) :
      Change cache (cache.pinLocked env path)

/-- The leases are the pins, and what was hashed at its modification time has its hash. -/
structure Sound (cache : VerifiedPackCache) : Prop where
  leases : ∀ path, cache.leases path = cache.pins.count path
  verified : ∀ path content modified, cache.verifiedAt path = some modified →
    cache.node? path.artifact = some (.file content modified) → Holds crypto segments path content

end

/-- What is leased stays leased, and its pack stays. -/
def KeepsLeased (cache cache' : VerifiedPackCache) : Prop :=
  ∀ path, cache.isLeased path = true → cache'.isLeased path = true ∧
    ∀ node, cache.node? path.artifact = some node → cache'.node? path.artifact = some node

theorem KeepsLeased.refl (cache : VerifiedPackCache) : KeepsLeased cache cache :=
  fun _ h => ⟨h, fun _ => id⟩

theorem KeepsLeased.trans {cache'' : VerifiedPackCache} (h : KeepsLeased cache cache')
    (h' : KeepsLeased cache' cache'') : KeepsLeased cache cache'' := by
  intro path hleased
  obtain ⟨hleased', hnode⟩ := h path hleased
  obtain ⟨hleased'', hnode'⟩ := h' path hleased'
  exact ⟨hleased'', fun node hpack => hnode' node (hnode node hpack)⟩

theorem PackPath.artifact_injective {path path' : PackPath} (h : path.artifact = path'.artifact) :
    path = path' := by
  cases path
  cases path'
  cases h
  rfl

theorem PackPath.artifact_ne_index (path path' : PackPath) : path.artifact ≠ path'.index := by
  intro h
  have hextension : "pack" = "idx" := Option.some.inj (congrArg ArtifactPath.extension h)
  exact absurd hextension (by decide)

variable {crypto : Crypto} {segments : Set SegmentRef}

namespace Change

theorem keepsLeased (h : Change crypto segments cache cache') : KeepsLeased cache cache' := by
  intro path hleased
  rw [isLeased_iff] at hleased ⊢
  cases h with
  | clearVerifiedAt other =>
    rw [leases_clearVerifiedAt]
    exact ⟨hleased, fun _ => id⟩
  | setVerifiedAt env hnode _ =>
    rw [leases_setVerifiedAt]
    exact ⟨hleased, fun _ => id⟩
  | @removeEntry other h =>
    have hne : path ≠ other := by
      rintro rfl
      rw [isLeased_eq_false] at h
      omega
    rw [leases_removeEntry, if_neg hne]
    exact ⟨hleased, fun _ => id⟩
  | @removePath file h =>
    have hne : path.artifact ≠ file := by
      intro heq
      have hfree := isLeased_eq_false.mp (h path heq)
      omega
    refine ⟨hleased, fun node hnode => ?_⟩
    rw [node?_removePath, if_neg hne]
    exact hnode
  | @movePath other content modified hnone _ =>
    refine ⟨hleased, fun node hnode => ?_⟩
    rw [node?_movePath, if_neg]
    · exact hnode
    · intro heq
      rw [heq, hnone] at hnode
      cases hnode
  | pinLocked env other =>
    rw [leases_pinLocked]
    refine ⟨?_, fun _ => id⟩
    split_ifs
    · exact Nat.succ_pos _
    · exact hleased

theorem sound (h : Change crypto segments cache cache') (hsound : Sound crypto segments cache) :
    Sound crypto segments cache' := by
  cases h with
  | clearVerifiedAt other =>
    refine ⟨fun path => ?_, fun path content modified hverified => ?_⟩
    · rw [leases_clearVerifiedAt]
      exact hsound.leases path
    · rw [verifiedAt_clearVerifiedAt] at hverified
      split_ifs at hverified
      exact hsound.verified path content modified hverified
  | @setVerifiedAt other content modified env hnode h =>
    refine ⟨fun path => ?_, fun path content' modified' hverified hnode' => ?_⟩
    · rw [leases_setVerifiedAt]
      exact hsound.leases path
    · rw [verifiedAt_setVerifiedAt] at hverified
      split_ifs at hverified with heq
      · subst heq
        cases hnode.symm.trans hnode'
        exact h
      · exact hsound.verified path content' modified' hverified hnode'
  | @removeEntry other h =>
    refine ⟨fun path => ?_, fun path content modified hverified => ?_⟩
    · rw [leases_removeEntry]
      split_ifs with heq
      · rw [← isLeased_eq_false.mp h, ← heq]
        exact hsound.leases path
      · exact hsound.leases path
    · rw [verifiedAt_removeEntry] at hverified
      split_ifs at hverified
      exact hsound.verified path content modified hverified
  | @removePath file h =>
    refine ⟨hsound.leases, fun path content modified hverified hnode => ?_⟩
    rw [node?_removePath] at hnode
    split_ifs at hnode
    exact hsound.verified path content modified hverified hnode
  | @movePath other content modified hnone h =>
    refine ⟨hsound.leases, fun path content' modified' hverified hnode => ?_⟩
    rw [node?_movePath] at hnode
    split_ifs at hnode with heq
    · cases hnode
      rw [PackPath.artifact_injective heq]
      exact h
    · exact hsound.verified path content' modified' hverified hnode
  | pinLocked env other =>
    refine ⟨fun path => ?_, fun path content modified hverified => ?_⟩
    · have hpins : (cache.pinLocked env other).pins = other :: cache.pins := rfl
      rw [leases_pinLocked, hpins, List.count_cons, hsound.leases, hsound.leases]
      by_cases heq : path = other
      · subst heq
        rw [if_pos rfl, if_pos (beq_self_eq_true path)]
      · rw [if_neg heq, if_neg (by rw [beq_iff_eq]; exact Ne.symm heq), Nat.add_zero]
    · rw [verifiedAt_pinLocked] at hverified
      exact hsound.verified path content modified hverified

end Change

/-! ## Runs of changes -/

open Relation

theorem keepsLeased_of_changes (h : ReflTransGen (Change crypto segments) cache cache') :
    KeepsLeased cache cache' := by
  induction h with
  | refl => exact .refl cache
  | tail _ hlast ih => exact ih.trans hlast.keepsLeased

theorem Sound.of_changes (hsound : Sound crypto segments cache)
    (h : ReflTransGen (Change crypto segments) cache cache') : Sound crypto segments cache' := by
  induction h with
  | refl => exact hsound
  | tail _ hlast ih => exact hlast.sound ih

theorem removeFileIfExists_ok {file : ArtifactPath}
    (h : (removeFileIfExists env file).run cache = .ok () cache') :
    cache' = cache.removePath file := by
  simp only [removeFileIfExists, check_unit_bind_eq_ok, modify_eq_ok] at h
  exact h.2.2.symm

theorem removeFileIfExists_runs {file : ArtifactPath}
    (h : ∀ path : PackPath, path.artifact = file → cache.isLeased path = false) :
    RunsBy (Change crypto segments) (removeFileIfExists env file) cache :=
  .check_bind fun _ _ => .check_bind fun _ _ => .modify (.removePath h)

theorem removeCacheArtifacts_ok (h : (removeCacheArtifacts env path).run cache = .ok () cache') :
    cache' = (cache.removePath path.artifact).removePath path.index := by
  obtain ⟨_, middle, hpack, hindex⟩ := bind_eq_ok.mp h
  rw [removeFileIfExists_ok hindex, removeFileIfExists_ok hpack]

theorem removeCacheArtifacts_runs (h : cache.isLeased path = false) :
    RunsBy (Change crypto segments) (removeCacheArtifacts env path) cache := by
  refine .bind (removeFileIfExists_runs fun other heq => ?_) fun _ middle hpack => ?_
  · rw [PackPath.artifact_injective heq]
    exact h
  · exact removeFileIfExists_runs fun other heq => absurd heq (other.artifact_ne_index path)

section

variable {expectedBytes : ℕ} {expectedSha256 : String}

theorem metadata_eq_some (h : metadata env path cache = .ok (some (content, modified))) :
    cache.node? path.artifact = some (.file content modified) := by
  rw [metadata, except_unit_bind_eq_ok] at h
  obtain ⟨-, h⟩ := h
  split at h
  · next hnode =>
    obtain ⟨-, h⟩ := except_unit_bind_eq_ok.mp h
    cases h
    exact hnode
  · cases h
  · cases h

theorem metadata_eq_none (h : metadata env path cache = .ok none) :
    cache.node? path.artifact = none := by
  rw [metadata, except_unit_bind_eq_ok] at h
  obtain ⟨-, h⟩ := h
  split at h
  · obtain ⟨-, h⟩ := except_unit_bind_eq_ok.mp h
    cases h
  · cases h
  · next hnode => exact hnode

/-- No mismatch means the expected size, and the expected hash unless the pack was hashed before. -/
theorem mismatch_eq_none
    (h : mismatch env crypto path expectedBytes expectedSha256 content modified cache = .ok none) :
    content.length = expectedBytes ∧
      (cache.verifiedAt path = some modified ∨ crypto.sha256Hex content = expectedSha256) := by
  rw [mismatch] at h
  split_ifs at h with hlength hverified
  · cases h
  · obtain ⟨-, h⟩ := except_unit_bind_eq_ok.mp h
    refine ⟨not_not.mp hlength, .inr (by_contra fun hsha => ?_)⟩
    cases (ite_eq_right_iff.mp (Except.ok.inj h)) hsha
  · exact ⟨not_not.mp hlength, .inl (not_not.mp hverified)⟩

/-- A hash that is right for a path is the one that its segments have. -/
def Stands (crypto : Crypto) (segments : Set SegmentRef) (path : PackPath) (expectedSha256 : String) :
    Prop :=
  ∀ content, crypto.sha256Hex content = expectedSha256 → Holds crypto segments path content

theorem validateExisting_runs (hsound : Sound crypto segments cache)
    (hstands : Stands crypto segments path expectedSha256) :
    RunsBy (Change crypto segments)
      (validateExisting env crypto path expectedBytes expectedSha256) cache := by
  refine .check_bind fun found hfound => ?_
  split
  · exact .modify_bind (.clearVerifiedAt path) (.pure _)
  · next content modified =>
    refine .check_bind fun result hresult => ?_
    split
    · refine .modify_bind (.clearVerifiedAt path) (.check_bind fun _ hfree => ?_)
      have hunleased := Bool.eq_false_iff.mpr (rejectIf_eq_ok.mp hfree)
      refine .bind (removeCacheArtifacts_runs hunleased) fun _ middle hremoved => ?_
      refine .modify_bind (.removeEntry ?_) (.pure _)
      rw [removeCacheArtifacts_ok hremoved]
      exact hunleased
    · refine .modify_bind (.setVerifiedAt env (metadata_eq_some hfound) ?_) (.pure _)
      rcases (mismatch_eq_none hresult).2 with hverified | hsha
      · exact hsound.verified path content modified hverified (metadata_eq_some hfound)
      · exact hstands content hsha

/-- There is a pack of this size at the path, with the hash that the path stands for. -/
def HasPack (crypto : Crypto) (segments : Set SegmentRef) (cache : VerifiedPackCache)
    (path : PackPath) (expectedBytes : ℕ) : Prop :=
  ∃ content modified, cache.node? path.artifact = some (.file content modified) ∧
    content.length = expectedBytes ∧ Holds crypto segments path content

theorem HasPack.pinLocked (h : HasPack crypto segments cache path expectedBytes)
    (env : Environment) (other : PackPath) :
    HasPack crypto segments (cache.pinLocked env other) path expectedBytes := h

theorem validateExisting_true (hsound : Sound crypto segments cache)
    (hstands : Stands crypto segments path expectedSha256)
    (h : (validateExisting env crypto path expectedBytes expectedSha256).run cache =
      .ok true cache') : HasPack crypto segments cache' path expectedBytes := by
  obtain ⟨found, hfound, h⟩ := check_bind_eq_ok.mp h
  split at h
  · cases (modify_pure_eq_ok.mp h).1
  · next content modified =>
    obtain ⟨result, hresult, h⟩ := check_bind_eq_ok.mp h
    split at h
    · obtain ⟨-, h⟩ := check_unit_bind_eq_ok.mp (modify_bind_eq_ok.mp h)
      obtain ⟨_, _, -, h⟩ := bind_eq_ok.mp h
      cases (modify_pure_eq_ok.mp h).1
    · obtain rfl := (modify_pure_eq_ok.mp h).2
      obtain ⟨hlength, hhash⟩ := mismatch_eq_none hresult
      refine ⟨content, modified, metadata_eq_some hfound, hlength, ?_⟩
      rcases hhash with hverified | hsha
      · exact hsound.verified path content modified hverified (metadata_eq_some hfound)
      · exact hstands content hsha

theorem validateExisting_false
    (h : (validateExisting env crypto path expectedBytes expectedSha256).run cache =
      .ok false cache') : cache'.node? path.artifact = none := by
  obtain ⟨found, hfound, h⟩ := check_bind_eq_ok.mp h
  split at h
  · obtain rfl := (modify_pure_eq_ok.mp h).2
    exact metadata_eq_none hfound
  · next content modified =>
    obtain ⟨result, hresult, h⟩ := check_bind_eq_ok.mp h
    split at h
    · obtain ⟨-, h⟩ := check_unit_bind_eq_ok.mp (modify_bind_eq_ok.mp h)
      obtain ⟨_, middle, hremoved, h⟩ := bind_eq_ok.mp h
      obtain rfl := (modify_pure_eq_ok.mp h).2
      change middle.node? path.artifact = none
      rw [removeCacheArtifacts_ok hremoved, node?_removePath, node?_removePath, if_pos rfl, ite_self]
    · cases (modify_pure_eq_ok.mp h).1

theorem leaseExisting_runs {timings : RestoreTimings} (hsound : Sound crypto segments cache)
    (hstands : Stands crypto segments path expectedSha256) :
    RunsBy (Change crypto segments)
      (leaseExisting env crypto path expectedBytes expectedSha256 timings) cache := by
  refine .bind (validateExisting_runs hsound hstands) fun valid middle _ => ?_
  split
  · exact .modify_bind (.pinLocked env path) (.pure _)
  · exact .pure _

/-- A pack is handed out with the size and the hash that were asked for, and pinned. -/
theorem leaseExisting_some {timings : RestoreTimings} {pack : VerifiedGitPack}
    (hsound : Sound crypto segments cache) (hstands : Stands crypto segments path expectedSha256)
    (h : (leaseExisting env crypto path expectedBytes expectedSha256 timings).run cache =
      .ok (some pack) cache') :
    pack.path = path ∧ path ∈ cache'.pins ∧ HasPack crypto segments cache' path expectedBytes := by
  obtain ⟨valid, middle, hvalid, h⟩ := bind_eq_ok.mp h
  cases valid with
  | true =>
    rw [if_pos rfl] at h
    obtain ⟨hpack, rfl⟩ := modify_pure_eq_ok.mp h
    cases hpack
    exact ⟨rfl, List.mem_cons_self, (validateExisting_true hsound hstands hvalid).pinLocked env _⟩
  | false => cases (pure_eq_ok.mp h).1

variable {source : Option Node}

/-- A source that is installed has the hash that its path stands for. -/
def SourceHolds (crypto : Crypto) (segments : Set SegmentRef) (path : PackPath)
    (source : Option Node) : Prop :=
  ∀ content modified, source = some (.file content modified) → Holds crypto segments path content

theorem install_runs (hsound : Sound crypto segments cache)
    (hstands : Stands crypto segments path expectedSha256)
    (hsource : SourceHolds crypto segments path source) :
    RunsBy (Change crypto segments)
      (install env crypto source path expectedBytes expectedSha256) cache := by
  refine .check_bind fun _ _ => ?_
  split
  · exact .throw _
  · exact .throw _
  · next content modified =>
    refine .check_bind fun _ _ => .bind (validateExisting_runs hsound hstands) ?_
    intro valid middle hvalid
    cases valid with
    | true => exact .check_bind fun _ _ => .modify_bind (.pinLocked env path) (.pure _)
    | false =>
      have hholds := hsource content modified rfl
      refine .check_bind fun _ _ => .modify_bind
        (.movePath modified (validateExisting_false hvalid) hholds) (.check_bind fun _ _ => ?_)
      refine .modify_bind (.setVerifiedAt env ?_ hholds) (.modify_bind (.pinLocked env path) (.pure _))
      rw [node?_movePath, if_pos rfl]

theorem install_ok (hsound : Sound crypto segments cache)
    (hstands : Stands crypto segments path expectedSha256)
    (hsource : SourceHolds crypto segments path source) {pin : PackPath}
    (h : (install env crypto source path expectedBytes expectedSha256).run cache = .ok pin cache') :
    pin = path ∧ path ∈ cache'.pins ∧ HasPack crypto segments cache' path expectedBytes := by
  obtain ⟨_, -, h⟩ := check_bind_eq_ok.mp h
  split at h
  · cases throw_eq_ok.mp h
  · cases throw_eq_ok.mp h
  · next content modified _ =>
    obtain ⟨hlength, h⟩ := check_unit_bind_eq_ok.mp h
    obtain ⟨valid, middle, hvalid, h⟩ := bind_eq_ok.mp h
    cases valid with
    | true =>
      obtain ⟨_, h⟩ := check_unit_bind_eq_ok.mp h
      obtain ⟨rfl, rfl⟩ := modify_pure_eq_ok.mp h
      exact ⟨rfl, List.mem_cons_self, (validateExisting_true hsound hstands hvalid).pinLocked env _⟩
    | false =>
      obtain ⟨-, h⟩ := check_unit_bind_eq_ok.mp h
      obtain ⟨-, h⟩ := check_unit_bind_eq_ok.mp (modify_bind_eq_ok.mp h)
      rw [modify_bind_eq_ok] at h
      obtain ⟨rfl, rfl⟩ := modify_pure_eq_ok.mp h
      refine ⟨rfl, List.mem_cons_self, content, modified, ?_, ?_, hsource content modified rfl⟩
      · exact (node?_movePath _ _ _).trans (if_pos rfl)
      · exact not_not.mp (rejectIf_eq_ok.mp hlength)

end

theorem usage_runs : RunsBy (Change crypto segments) (usage env) cache := .check _

/-- Only what is not leased is evicted. -/
theorem evict_runs {targetBytes : ℕ} (entries : List CacheEntry) (usage : VerifiedPackCacheUsage) :
    RunsBy (Change crypto segments) (evict env targetBytes entries usage) cache := by
  induction entries generalizing cache usage with
  | nil => exact .pure _
  | cons entry entries ih =>
    rw [evict]
    split
    · exact .pure _
    · refine .check_bind fun leased hleased => ?_
      cases leased with
      | true => exact ih _
      | false =>
        have hfree : cache.isLeased entry.packPath = false := Except.ok.inj hleased
        refine .bind (removeCacheArtifacts_runs hfree) fun _ middle hremoved => ?_
        refine .modify_bind (.removeEntry ?_) (ih _)
        rw [removeCacheArtifacts_ok hremoved]
        exact hfree

theorem evictTo_runs {targetBytes : ℕ} :
    RunsBy (Change crypto segments) (evictTo env targetBytes) cache :=
  .check_bind fun _ _ => .check_bind fun _ _ => evict_runs _ _

end ScopeVcs.Storage.PackCache
