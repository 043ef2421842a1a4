import ScopeVcs.Content.CleanupRows
import ScopeVcs.Content.Lifecycle

/-! # What holds in every world of the lifecycle

Holders of fences are looked at one by one: what the others do leaves them their fence, the object or
the missing reference it protects, and the rows of generations that were drawn before.
-/

namespace ScopeVcs.Content

open Mutation

/-! ## The log -/

variable {log : List Event} {contentRef : ContentRef}

theorem resolvedSinceQueued_cons {event : Event} (h : event ≠ .queued contentRef) :
    resolvedSinceQueued (event :: log) contentRef =
      (event.resolves contentRef || resolvedSinceQueued log contentRef) := by
  rw [resolvedSinceQueued, List.takeWhile_cons_of_pos (by simpa using h), List.any_cons]
  rfl

theorem resolvedSinceQueued_queuedEvents {blobs : List SourceBlob}
    (h : ∀ blob ∈ blobs, blob.contentRef ≠ contentRef) :
    resolvedSinceQueued (queuedEvents blobs ++ log) contentRef = resolvedSinceQueued log contentRef := by
  induction blobs with
  | nil => rfl
  | cons blob blobs ih =>
    obtain ⟨hblob, hblobs⟩ := List.forall_mem_cons.mp h
    change resolvedSinceQueued (.queued blob.contentRef :: (queuedEvents blobs ++ log)) _ = _
    rw [resolvedSinceQueued_cons (by simpa using hblob), ih hblobs]
    rfl

/-! ## The order of a drain -/

/-- The first blob of a key keeps its place. -/
theorem get?_pendingByKey (pending : List SourceBlob) (m : SortedMap String SourceBlob) (key : String) :
    (pending.foldl (fun (m : SortedMap String SourceBlob) blob =>
        if m.contains (objectKey blob.contentRef) = true then m
        else m.insert (objectKey blob.contentRef) blob) m).get? key =
      (m.get? key).or (pending.find? fun blob => objectKey blob.contentRef = key) := by
  induction pending generalizing m with
  | nil => simp
  | cons blob pending ih =>
    rw [List.foldl_cons, ih, List.find?_cons]
    by_cases hkey : objectKey blob.contentRef = key
    · subst hkey
      by_cases hcontains : m.contains (objectKey blob.contentRef) = true
      · obtain ⟨v, hv⟩ := SortedMap.contains_iff.mp hcontains
        simp [hcontains, hv]
      · have hnone : m.get? (objectKey blob.contentRef) = none := by
          rw [SortedMap.contains, Bool.not_eq_true, Option.isSome_eq_false_iff] at hcontains
          exact Option.isNone_iff_eq_none.mp hcontains
        simp [hcontains, hnone, SortedMap.get?_insert]
    · by_cases hcontains : m.contains (objectKey blob.contentRef) = true
      · simp [hcontains, hkey]
      · simp [hcontains, hkey, SortedMap.get?_insert, Ne.symm hkey]

theorem mem_pendingByKey {pending : List SourceBlob}
    (hnodup : (pending.map SourceBlob.contentRef).Nodup) {blob : SourceBlob} :
    blob ∈ pendingByKey pending ↔ blob ∈ pending := by
  rw [pendingByKey, List.mem_map]
  constructor
  · rintro ⟨⟨key, b⟩, hentry, rfl⟩
    rw [SortedMap.mem_entries_iff, get?_pendingByKey, SortedMap.get?_empty, Option.none_or] at hentry
    exact List.mem_of_find?_eq_some hentry
  · intro hblob
    refine ⟨(objectKey blob.contentRef, blob), ?_, rfl⟩
    rw [SortedMap.mem_entries_iff, get?_pendingByKey, SortedMap.get?_empty, Option.none_or]
    cases hfind : pending.find? fun b => objectKey b.contentRef = objectKey blob.contentRef with
    | none => simpa using List.find?_eq_none.mp hfind blob hblob
    | some found =>
      have hkey : objectKey found.contentRef = objectKey blob.contentRef := by
        simpa using List.find?_some hfind
      rw [List.inj_on_of_nodup_map hnodup (List.mem_of_find?_eq_some hfind) hblob
        (objectKey_injective hkey)]

theorem pendingByKey_nodup (pending : List SourceBlob) :
    ((pendingByKey pending).map SourceBlob.contentRef).Nodup := by
  apply List.Nodup.of_map objectKey
  rw [pendingByKey, List.map_map, List.map_map]
  have hkeys : ∀ e ∈ (pending.foldl (fun (m : SortedMap String SourceBlob) blob =>
      if m.contains (objectKey blob.contentRef) = true then m
      else m.insert (objectKey blob.contentRef) blob) ∅).entries,
      ((objectKey ∘ SourceBlob.contentRef) ∘ Prod.snd) e = e.1 := by
    rintro ⟨key, b⟩ hentry
    rw [SortedMap.mem_entries_iff, get?_pendingByKey, SortedMap.get?_empty, Option.none_or] at hentry
    simpa using List.find?_some hentry
  rw [List.map_congr_left hkeys]
  exact SortedMap.keys_nodup _

/-! ## The invariant -/

variable {digests : Digests}

/-- The object of a content reference is in the store, with bytes of its digest. -/
def Stored (digests : Digests) (objects : String → Option (List UInt8)) (contentRef : ContentRef) :
    Prop :=
  ∃ bytes kind, objects (objectKey contentRef) = some bytes ∧
    contentRef = ContentObjectKind.contentRef kind (digests.sha256 bytes)

structure PublisherInv (digests : Digests) (w : World) (i : ℕ) (publisher : Publisher) : Prop where
  fence : publisher.phase ≠ .left → w.fences publisher.blob.contentRef = some (.publisher i)
  named : ∃ kind, publisher.blob.contentRef =
    ContentObjectKind.contentRef kind (digests.sha256 publisher.bytes)
  stored : publisher.phase = .stored → Stored digests w.objects publisher.blob.contentRef

/-- The blob that a drain has taken and not decided or not deleted yet. -/
def Drain.undecided (drain : Drain) : Option SourceBlob :=
  match drain.phase with
  | .fenced blob | .deleting blob => some blob
  | _ => none

/-- The blobs of a drain: those it is done with, the one it is at, and those to come. -/
def Drain.blobs (drain : Drain) : List SourceBlob :=
  drain.outcomes.map Prod.fst ++ (drain.undecided.toList ++ drain.todo)

structure DrainInv (w : World) (i : ℕ) (drain : Drain) : Prop where
  fence : ∀ blob, drain.holds = some blob → w.fences blob.contentRef = some (.drain i)
  unreferenced : ∀ blob, drain.phase = .deleting blob →
    isReferenced w.references blob.contentRef = false
  drawn : ∀ l ∈ drain.loaded, l.generation ∈ w.generations
  distinct : (drain.loaded.map fun l => l.blob.contentRef).Nodup
  once : (drain.blobs.map SourceBlob.contentRef).Nodup
  covered : drain.phase ≠ .stopped → ∀ l ∈ drain.loaded, l.blob ∈ drain.blobs
  stale : ∀ blob, (blob, Outcome.staleClaim) ∈ drain.outcomes → ∀ l ∈ drain.loaded,
    l.blob.contentRef = blob.contentRef → claimIsLive w.jobs l = false
  resolved : ∀ blob outcome, (blob, outcome) ∈ drain.outcomes →
    outcome = .deleted ∨ outcome = .referenced → ∀ l ∈ drain.loaded,
    l.blob.contentRef = blob.contentRef → ∀ row, w.jobs.find? blob.contentRef = some row →
    row.generation = l.generation → resolvedSinceQueued w.log blob.contentRef = true

structure Inv (digests : Digests) (w : World) : Prop where
  publishers : ∀ i publisher, w.publishers i = some publisher → PublisherInv digests w i publisher
  drains : ∀ i drain, w.drains i = some drain → DrainInv w i drain
  references : ∀ r ∈ w.references, Stored digests w.objects r.contentRef
  rows : ∀ row ∈ w.jobs, row.generation ∈ w.generations
  completed : ∀ contentRef row, w.jobs.find? contentRef = some row →
    row.completedAtUnix.isSome = true → resolvedSinceQueued w.log contentRef = true

/-! ## What the others leave -/

variable {w w' : World} {i : ℕ}

/-- The rows of the generations drawn before the step are as before, or done with. -/
def RowsAdvance (w w' : World) : Prop :=
  ∀ contentRef row', w'.jobs.find? contentRef = some row' → row'.generation ∈ w.generations →
    ∃ row, w.jobs.find? contentRef = some row ∧ row.generation = row'.generation ∧
      (row'.completedAtUnix = none → row.completedAtUnix = none) ∧
      (resolvedSinceQueued w.log contentRef = true → resolvedSinceQueued w'.log contentRef = true)

theorem RowsAdvance.of_jobs_eq (hjobs : w'.jobs = w.jobs)
    (hlog : ∀ contentRef, resolvedSinceQueued w.log contentRef = true →
      resolvedSinceQueued w'.log contentRef = true) : RowsAdvance w w' := by
  intro contentRef row' hrow' _
  rw [hjobs] at hrow'
  exact ⟨row', hrow', rfl, id, hlog contentRef⟩

/-- A claim that is no longer live stays so. -/
theorem RowsAdvance.claimIsLive_eq_false (h : RowsAdvance w w') {l : LoadedSourceBlobCleanup}
    (hdrawn : l.generation ∈ w.generations) (hstale : claimIsLive w.jobs l = false) :
    claimIsLive w'.jobs l = false := by
  cases hrow' : w'.jobs.find? l.blob.contentRef with
  | none => simp [claimIsLive, hrow']
  | some row' =>
    by_cases hgeneration : row'.generation = l.generation
    · obtain ⟨row, hrow, hsame, hopen, -⟩ := h _ row' hrow' (hgeneration ▸ hdrawn)
      simp only [claimIsLive, hrow, Option.any_some, hsame, hgeneration, decide_true,
        Bool.true_and] at hstale
      simp only [claimIsLive, hrow', Option.any_some, hgeneration, decide_true, Bool.true_and]
      by_contra hlive
      rw [Bool.not_eq_false, Option.isNone_iff_eq_none] at hlive
      simp [hopen hlive] at hstale
    · simp [claimIsLive, hrow', hgeneration]

theorem DrainInv.frame {drain : Drain} (h : DrainInv w i drain)
    (hfences : ∀ r, w.fences r = some (.drain i) → w'.fences r = some (.drain i))
    (hreferences : ∀ r, w.fences r = some (.drain i) → isReferenced w.references r = false →
      isReferenced w'.references r = false)
    (hgenerations : ∀ g ∈ w.generations, g ∈ w'.generations) (hrows : RowsAdvance w w') :
    DrainInv w' i drain where
  fence blob hholds := hfences _ (h.fence blob hholds)
  unreferenced blob hphase := hreferences _
    (h.fence blob (by rw [Drain.holds, hphase])) (h.unreferenced blob hphase)
  drawn l hl := hgenerations _ (h.drawn l hl)
  distinct := h.distinct
  once := h.once
  covered := h.covered
  stale blob hblob l hl hkey := hrows.claimIsLive_eq_false (h.drawn l hl) (h.stale blob hblob l hl hkey)
  resolved blob outcome hblob houtcome l hl hkey row' hrow' hgeneration := by
    obtain ⟨row, hrow, hsame, -, hlog⟩ := hrows _ row' hrow' (hgeneration ▸ h.drawn l hl)
    exact hlog (h.resolved blob outcome hblob houtcome l hl hkey row hrow (hsame.trans hgeneration))

theorem PublisherInv.frame {publisher : Publisher} (h : PublisherInv digests w i publisher)
    (hfences : ∀ r, w.fences r = some (.publisher i) → w'.fences r = some (.publisher i))
    (hobjects : ∀ r, w.fences r = some (.publisher i) → Stored digests w.objects r →
      Stored digests w'.objects r) : PublisherInv digests w' i publisher where
  fence hphase := hfences _ (h.fence hphase)
  named := h.named
  stored hphase := hobjects _ (h.fence (by rw [hphase]; decide)) (h.stored hphase)

/-- What a step of the holder `x` leaves to the others. -/
structure Frame (digests : Digests) (w w' : World) (x : Option Holder) : Prop where
  publishers : ∀ j publisher, some (.publisher j) ≠ x → w'.publishers j = some publisher →
    w.publishers j = some publisher
  drains : ∀ j drain, some (.drain j) ≠ x → w'.drains j = some drain → w.drains j = some drain
  fences : ∀ y r, some y ≠ x → w.fences r = some y → w'.fences r = some y
  objects : ∀ y r, some y ≠ x → w.fences r = some y → Stored digests w.objects r →
    Stored digests w'.objects r
  references : ∀ y r, some y ≠ x → w.fences r = some y → isReferenced w.references r = false →
    isReferenced w'.references r = false
  generations : ∀ g ∈ w.generations, g ∈ w'.generations
  rows : RowsAdvance w w'

/-- A step keeps the invariant where it does so for its own actor and for the tables. -/
theorem Inv.step {x : Option Holder} (h : Inv digests w) (hframe : Frame digests w w' x)
    (hpublisher : ∀ j publisher, some (.publisher j) = x → w'.publishers j = some publisher →
      PublisherInv digests w' j publisher)
    (hdrain : ∀ j drain, some (.drain j) = x → w'.drains j = some drain → DrainInv w' j drain)
    (hreferences : ∀ r ∈ w'.references, Stored digests w'.objects r.contentRef)
    (hrows : ∀ row ∈ w'.jobs, row.generation ∈ w'.generations)
    (hcompleted : ∀ contentRef row, w'.jobs.find? contentRef = some row →
      row.completedAtUnix.isSome = true → resolvedSinceQueued w'.log contentRef = true) :
    Inv digests w' where
  publishers j publisher hj := by
    by_cases hx : some (.publisher j) = x
    · exact hpublisher j publisher hx hj
    · exact (h.publishers j publisher (hframe.publishers j publisher hx hj)).frame
        (fun r => hframe.fences _ r hx) (fun r => hframe.objects _ r hx)
  drains j drain hj := by
    by_cases hx : some (.drain j) = x
    · exact hdrain j drain hx hj
    · exact (h.drains j drain (hframe.drains j drain hx hj)).frame
        (fun r => hframe.fences _ r hx) (fun r => hframe.references _ r hx)
        hframe.generations hframe.rows
  references := hreferences
  rows := hrows
  completed := hcompleted

theorem fence_of_acquire {fences : ContentRef → Option Holder} {r r' : ContentRef} {x y : Holder}
    (hfree : fences r = none) (h : fences r' = some y) :
    Function.update fences r (some x) r' = some y := by
  rw [Function.update_of_ne, h]
  rintro rfl
  rw [hfree] at h
  cases h

theorem fence_of_release {fences : ContentRef → Option Holder} {r r' : ContentRef} {x y : Holder}
    (hheld : fences r = some x) (hne : y ≠ x) (h : fences r' = some y) :
    Function.update fences r none r' = some y := by
  rw [Function.update_of_ne, h]
  rintro rfl
  rw [hheld] at h
  exact hne (Option.some.inj h).symm

theorem isReferenced_eq_false {references : References} {r : ContentRef} :
    isReferenced references r = false ↔ ∀ reference ∈ references, reference.contentRef ≠ r := by
  rw [isReferenced, Table.any_eq_false]
  simp

end ScopeVcs.Content
