import ScopeVcs.Content.Invariant

/-! # The steps keep the invariant -/

namespace ScopeVcs.Content

open Mutation

variable {digests : Digests} {w w' : World} {i : ℕ}

/-- A step that changes no table and no object. -/
theorem Inv.of_eq {x : Option Holder} (h : Inv digests w)
    (hobjects : w'.objects = w.objects) (hjobs : w'.jobs = w.jobs)
    (hreferences : w'.references = w.references) (hgenerations : w'.generations = w.generations)
    (hlog : w'.log = w.log)
    (hpublishers : ∀ j publisher, some (.publisher j) ≠ x → w'.publishers j = some publisher →
      w.publishers j = some publisher)
    (hdrains : ∀ j drain, some (.drain j) ≠ x → w'.drains j = some drain → w.drains j = some drain)
    (hfences : ∀ y r, some y ≠ x → w.fences r = some y → w'.fences r = some y)
    (hpublisher : ∀ j publisher, some (.publisher j) = x → w'.publishers j = some publisher →
      PublisherInv digests w' j publisher)
    (hdrain : ∀ j drain, some (.drain j) = x → w'.drains j = some drain → DrainInv w' j drain) :
    Inv digests w' := by
  refine h.step (x := x) ⟨hpublishers, hdrains, hfences, ?_, ?_, ?_, ?_⟩ hpublisher hdrain ?_ ?_ ?_
  · exact fun _ _ _ _ hstored => hobjects ▸ hstored
  · exact fun _ _ _ _ href => hreferences ▸ href
  · exact fun g hg => hgenerations ▸ hg
  · exact .of_jobs_eq hjobs fun _ hresolved => hlog ▸ hresolved
  · rw [hobjects, hreferences]
    exact h.references
  · rw [hjobs, hgenerations]
    exact h.rows
  · rw [hjobs, hlog]
    exact h.completed

/-! ## Publishers -/

theorem eq_of_update_ne {α : Type} {f : ℕ → Option α} {a b : α} {j : ℕ} (hne : j ≠ i)
    (h : Function.update f i (some a) j = some b) : f j = some b := by
  rwa [Function.update_of_ne hne] at h

theorem eq_of_update_self {α : Type} {f : ℕ → Option α} {a b : α}
    (h : Function.update f i (some a) i = some b) : b = a := by
  rw [Function.update_self] at h
  exact (Option.some.inj h).symm

theorem publisher_ne {j : ℕ} (h : some (Holder.publisher j) ≠ some (.publisher i)) : j ≠ i :=
  fun heq => h (heq ▸ rfl)

theorem drain_ne {j : ℕ} (h : some (Holder.drain j) ≠ some (.drain i)) : j ≠ i :=
  fun heq => h (heq ▸ rfl)

theorem publisher_eq {j : ℕ} (h : some (Holder.publisher j) = some (.publisher i)) : j = i := by
  injection h with h
  injection h

theorem drain_eq {j : ℕ} (h : some (Holder.drain j) = some (.drain i)) : j = i := by
  injection h with h
  injection h

/-- The phase of a publisher changes, and nothing else. -/
theorem Inv.setPublisher {publisher publisher' : Publisher} (h : Inv digests w)
    (hi : w.publishers i = some publisher) (hleft : publisher.phase ≠ .left)
    (hbytes : publisher'.bytes = publisher.bytes) (hblob : publisher'.blob = publisher.blob)
    (hstored : publisher'.phase ≠ .stored) : Inv digests (w.setPublisher i publisher') := by
  refine h.of_eq (x := some (.publisher i)) rfl rfl rfl rfl rfl ?_ (fun _ _ _ hj => hj)
    (fun _ _ _ hr => hr) ?_ (fun _ _ hx => by cases hx)
  · exact fun j _ hx hj => eq_of_update_ne (publisher_ne hx) hj
  · rintro j p hx hj
    cases publisher_eq hx
    cases eq_of_update_self hj
    have hp := h.publishers i publisher hi
    refine ⟨fun _ => ?_, ?_, fun hphase => absurd hphase hstored⟩
    · rw [hblob]
      exact hp.fence hleft
    · rw [hblob, hbytes]
      exact hp.named

theorem Inv.publish {kind : ContentObjectKind} {bytes : List UInt8} {gitOid : String}
    (h : Inv digests w) (hact : w.publish digests i kind bytes gitOid = some w') : Inv digests w' := by
  rw [World.publish] at hact
  split at hact
  · rename_i hfree
    cases hact
    refine h.of_eq (x := some (.publisher i)) rfl rfl rfl rfl rfl ?_ (fun _ _ _ hj => hj) ?_ ?_
      (fun _ _ hx => by cases hx)
    · exact fun j _ hx hj => eq_of_update_ne (publisher_ne hx) hj
    · exact fun _ _ _ hr => fence_of_acquire hfree.2 hr
    · rintro j p hx hj
      cases publisher_eq hx
      cases eq_of_update_self hj
      exact ⟨fun _ => Function.update_self .., ⟨kind, rfl⟩, fun hphase => by cases hphase⟩
  · cases hact

theorem Inv.leave {publisher : Publisher} (h : Inv digests w)
    (hi : w.publishers i = some publisher) (hleft : publisher.phase ≠ .left) :
    Inv digests (w.leave i publisher) := by
  have hp := h.publishers i publisher hi
  refine h.of_eq (x := some (.publisher i)) rfl rfl rfl rfl rfl ?_ (fun _ _ _ hj => hj) ?_ ?_
    (fun _ _ hx => by cases hx)
  · exact fun j _ hx hj => eq_of_update_ne (publisher_ne hx) hj
  · exact fun y _ hx hr => fence_of_release (hp.fence hleft) (fun heq => hx (heq ▸ rfl)) hr
  · rintro j p hx hj
    cases publisher_eq hx
    cases eq_of_update_self hj
    exact ⟨fun hphase => absurd rfl hphase, hp.named, fun hphase => by cases hphase⟩

/-- Bytes under their own key leave what is stored stored. -/
theorem Stored.put {objects : String → Option (List UInt8)} {bytes : List UInt8} {r r' : ContentRef}
    {kind : ContentObjectKind} (hr' : r' = kind.contentRef (digests.sha256 bytes))
    (h : Stored digests objects r ∨ r = r') :
    Stored digests (Function.update objects (objectKey r') (some bytes)) r := by
  by_cases hr : r = r'
  · subst hr
    exact ⟨bytes, kind, Function.update_self .., hr'⟩
  · obtain ⟨bytes', kind', hobject, hname⟩ := h.resolve_right hr
    refine ⟨bytes', kind', ?_, hname⟩
    rw [Function.update_of_ne fun heq => hr (objectKey_injective heq), hobject]

/-- The objects after a call that may have had its effect. -/
theorem Inv.putObjects {publisher : Publisher} {objects : String → Option (List UInt8)}
    (h : Inv digests w) (hi : w.publishers i = some publisher)
    (hobjects : objects = w.objects ∨ objects =
      Function.update w.objects (objectKey publisher.blob.contentRef) (some publisher.bytes)) :
    Inv digests { w with objects } := by
  obtain ⟨kind, hname⟩ := (h.publishers i publisher hi).named
  have hstored : ∀ r, Stored digests w.objects r → Stored digests objects r := by
    intro r hr
    rcases hobjects with rfl | rfl
    · exact hr
    · exact .put hname (.inl hr)
  refine h.step (x := none) ⟨fun _ _ _ hj => hj, fun _ _ _ hj => hj, fun _ _ _ hr => hr,
    fun _ r _ _ => hstored r, fun _ _ _ _ href => href, fun _ hg => hg,
    .of_jobs_eq rfl fun _ hresolved => hresolved⟩ (fun _ _ hx => by cases hx)
    (fun _ _ hx => by cases hx) ?_ h.rows h.completed
  exact fun r hr => hstored _ (h.references r hr)

theorem Inv.put {publisher : Publisher} {ok effective : Bool} (h : Inv digests w)
    (hi : w.publishers i = some publisher) (hphase : publisher.phase = .fenced) :
    Inv digests (w.put i publisher ok effective) := by
  have hleft : publisher.phase ≠ .left := by rw [hphase]; decide
  have hobjects : Inv digests { w with
      objects := if ok = true ∨ effective = true then
          Function.update w.objects (objectKey publisher.blob.contentRef) (some publisher.bytes)
        else w.objects } := by
    apply h.putObjects hi
    by_cases hput : ok = true ∨ effective = true
    · exact .inr (if_pos hput)
    · exact .inl (if_neg hput)
  rw [World.put]
  by_cases hok : ok = true
  · rw [if_pos hok]
    have hp := hobjects.publishers i publisher hi
    refine hobjects.of_eq (x := some (.publisher i)) rfl rfl rfl rfl rfl ?_ (fun _ _ _ hj => hj)
      (fun _ _ _ hr => hr) ?_ (fun _ _ hx => by cases hx)
    · exact fun j _ hx hj => eq_of_update_ne (publisher_ne hx) hj
    · rintro j p hx hj
      cases publisher_eq hx
      cases eq_of_update_self hj
      refine ⟨fun _ => hp.fence hleft, hp.named, fun _ => ?_⟩
      obtain ⟨kind, hname⟩ := hp.named
      change Stored digests (if ok = true ∨ effective = true then _ else _) _
      rw [if_pos (.inl hok)]
      exact .put hname (.inr rfl)
  · rw [if_neg hok]
    exact hobjects.leave hi hleft

theorem Inv.commit {publisher : Publisher} {refKind refId : String} {reported : Bool}
    (h : Inv digests w) (hi : w.publishers i = some publisher) (hphase : publisher.phase = .stored) :
    Inv digests (w.commit i publisher refKind refId reported) := by
  have hleft : publisher.phase ≠ .left := by rw [hphase]; decide
  have hp := h.publishers i publisher hi
  rw [World.commit]
  split
  · exact h.setPublisher hi hleft rfl rfl (by rintro ⟨⟩)
  · -- the publisher still holds the fence, so no drain is about to delete this object
    have hinserted : Inv digests { w with
        references := w.references.insert ⟨publisher.blob.contentRef, refKind, refId⟩ } := by
      refine h.step (x := some (.publisher i)) ⟨fun _ _ _ hj => hj, fun _ _ _ hj => hj,
        fun _ _ _ hr => hr, fun _ _ _ _ hstored => hstored, ?_, fun _ hg => hg,
        .of_jobs_eq rfl fun _ hresolved => hresolved⟩ ?_ (fun _ _ hx => by cases hx) ?_ h.rows
        h.completed
      · intro y r hx hr href
        rw [isReferenced_eq_false] at href ⊢
        intro reference hreference
        rcases Table.mem_of_mem_insert hreference with hold | rfl
        · exact href reference hold
        · rintro rfl
          rw [hp.fence hleft] at hr
          exact hx hr.symm
      · rintro j p hx hj
        exact ⟨(h.publishers j p hj).fence, (h.publishers j p hj).named, (h.publishers j p hj).stored⟩
      · intro reference hreference
        rcases Table.mem_of_mem_insert hreference with hold | rfl
        · exact h.references reference hold
        · exact hp.stored hphase
    split
    · exact hinserted.setPublisher hi hleft rfl rfl (by rintro ⟨⟩)
    · exact hinserted.setPublisher hi hleft rfl rfl (by rintro ⟨⟩)

/-! ## Rows -/

/-- A transaction that gives rows new generations or ends claims; a row it completes was resolved. -/
theorem Inv.setRows {jobs : Jobs} {blobs : List (SourceBlob × String)}
    {claimed : ContentRef → String → Prop} {isRetained : ContentRef → Prop} (h : Inv digests w)
    (hfresh : ∀ g ∈ blobs.map Prod.snd, g ∉ w.generations)
    (hrows : ∀ r, ((∀ b ∈ blobs, b.1.contentRef ≠ r) ∧
        Settled (claimed r) (isRetained r) (w.jobs.find? r) (jobs.find? r)) ∨
      Requeued blobs r (jobs.find? r))
    (hcompleted : ∀ r old, w.jobs.find? r = some old → claimed r old.generation →
      old.completedAtUnix = none → ¬isRetained r → resolvedSinceQueued w.log r = true) :
    Inv digests { w with
      jobs := jobs
      generations := blobs.map Prod.snd ++ w.generations
      log := queuedEvents (blobs.map Prod.fst) ++ w.log } := by
  have hlog : ∀ r, (∀ b ∈ blobs, b.1.contentRef ≠ r) →
      resolvedSinceQueued (queuedEvents (blobs.map Prod.fst) ++ w.log) r =
        resolvedSinceQueued w.log r := by
    intro r hne
    apply resolvedSinceQueued_queuedEvents
    intro blob hblob
    obtain ⟨b, hb, rfl⟩ := List.mem_map.mp hblob
    exact hne b hb
  have hnew : ∀ {g}, (∃ b, (b, g) ∈ blobs) → g ∈ blobs.map Prod.snd :=
    fun ⟨b, hb⟩ => List.mem_map.mpr ⟨_, hb, rfl⟩
  refine h.step (x := none) ⟨fun _ _ _ hj => hj, fun _ _ _ hj => hj, fun _ _ _ hr => hr,
    fun _ _ _ _ hstored => hstored, fun _ _ _ _ href => href,
    fun _ hg => List.mem_append_right _ hg, ?_⟩ (fun _ _ hx => by cases hx)
    (fun _ _ hx => by cases hx) h.references ?_ ?_
  · intro r row' hrow' hdrawn
    change jobs.find? r = some row' at hrow'
    rcases hrows r with ⟨hne, hsettled⟩ | ⟨b, g, row, hb, -, hrow, hgeneration, -⟩
    · rw [hrow'] at hsettled
      have hkept : resolvedSinceQueued w.log r = true →
          resolvedSinceQueued (queuedEvents (blobs.map Prod.fst) ++ w.log) r = true :=
        fun hresolved => (hlog r hne).trans hresolved
      generalize hold : w.jobs.find? r = old? at hsettled
      cases hsettled with
      | kept => exact ⟨row', rfl, rfl, id, hkept⟩
      | retried old _ _ hopen _ hsame _ => exact ⟨old, rfl, hsame.symm, fun _ => hopen, hkept⟩
      | completed old _ _ hopen _ hsame => exact ⟨old, rfl, hsame.symm, fun _ => hopen, hkept⟩
    · rw [hrow] at hrow'
      cases hrow'
      exact absurd (hgeneration ▸ hdrawn) (hfresh g (hnew ⟨b, hb⟩))
  · intro row' hmem
    have hrow' : jobs.find? row'.contentRef = some row' := Table.find?_eq_some.mpr ⟨hmem, rfl⟩
    rw [List.mem_append]
    rcases hrows row'.contentRef with ⟨-, hsettled⟩ | ⟨b, g, row, hb, -, hrow, hgeneration, -⟩
    · rw [hrow'] at hsettled
      generalize hold : w.jobs.find? row'.contentRef = old? at hsettled
      cases hsettled with
      | kept => exact .inr (h.rows row' (Table.find?_eq_some.mp hold).1)
      | retried old _ _ _ _ hsame _ =>
        exact .inr (hsame ▸ h.rows old (Table.find?_eq_some.mp hold).1)
      | completed old _ _ _ _ hsame =>
        exact .inr (hsame ▸ h.rows old (Table.find?_eq_some.mp hold).1)
    · rw [hrow] at hrow'
      cases hrow'
      exact .inl (hgeneration ▸ hnew ⟨b, hb⟩)
  · intro r row' hrow' hdone
    change jobs.find? r = some row' at hrow'
    rcases hrows r with ⟨hne, hsettled⟩ | ⟨b, g, row, hb, -, hrow, -, hopen⟩
    · refine (hlog r hne).trans ?_
      rw [hrow'] at hsettled
      generalize hold : w.jobs.find? r = old? at hsettled
      cases hsettled with
      | kept => exact h.completed r row' hold hdone
      | retried _ _ _ _ _ _ hnew =>
        rw [hnew] at hdone
        cases hdone
      | completed old _ hclaim hopen hretained _ =>
        exact hcompleted r old hold hclaim hopen hretained
    · rw [hrow] at hrow'
      cases hrow'
      rw [hopen] at hdone
      cases hdone

theorem draw_eq_some {generations : List String} {next : Option World}
    (h : w.draw generations next = some w') :
    (∀ g ∈ generations, g ∉ w.generations) ∧
      ∃ w₁, next = some w₁ ∧ w' = { w₁ with generations := generations ++ w.generations } := by
  unfold World.draw at h
  by_cases hfresh : ∀ g ∈ generations, g ∉ w.generations
  · rw [if_pos hfresh] at h
    obtain ⟨w₁, hnext, rfl⟩ := Option.map_eq_some_iff.mp h
    exact ⟨hfresh, w₁, hnext, rfl⟩
  · rw [if_neg hfresh] at h
    cases h

theorem queue_eq_some {blobs : List (SourceBlob × String)} {nowUnix : ℕ}
    (h : w.queue blobs nowUnix = some w') :
    ∃ jobs, queuePendingSourceBlobDeletionRows w.jobs blobs nowUnix = .ok jobs ∧
      w' = { w with jobs := jobs, log := queuedEvents (blobs.map Prod.fst) ++ w.log } := by
  unfold World.queue at h
  split at h
  · rename_i jobs hjobs
    cases h
    exact ⟨jobs, hjobs, rfl⟩
  · cases h

theorem Inv.queue {blobs : List (SourceBlob × String)} {nowUnix : ℕ} {jobs : Jobs}
    (h : Inv digests w) (hfresh : ∀ g ∈ blobs.map Prod.snd, g ∉ w.generations)
    (hjobs : queuePendingSourceBlobDeletionRows w.jobs blobs nowUnix = .ok jobs) :
    Inv digests { w with
      jobs := jobs
      generations := blobs.map Prod.snd ++ w.generations
      log := queuedEvents (blobs.map Prod.fst) ++ w.log } := by
  refine @Inv.setRows _ _ _ _ (fun _ _ => False) (fun _ => False) h hfresh ?_
    (fun _ _ _ hclaimed => hclaimed.elim)
  intro r
  rcases queuePendingSourceBlobDeletionRows_eq_ok hjobs r with ⟨hne, hkept⟩ | hrequeued
  · rw [hkept]
    exact .inl ⟨hne, .kept _⟩
  · exact .inr hrequeued

/-- More generations are drawn, for rows that are not written. -/
theorem Inv.drawMore {generations : List String} (h : Inv digests w) :
    Inv digests { w with generations := generations ++ w.generations } :=
  h.step (x := none) ⟨fun _ _ _ hj => hj, fun _ _ _ hj => hj, fun _ _ _ hr => hr,
    fun _ _ _ _ hstored => hstored, fun _ _ _ _ href => href,
    fun _ hg => List.mem_append_right _ hg, .of_jobs_eq rfl fun _ hresolved => hresolved⟩
    (fun _ _ hx => by cases hx) (fun _ _ hx => by cases hx) h.references
    (fun row hrow => List.mem_append_right _ (h.rows row hrow)) h.completed

theorem Inv.queueRollback {publisher : Publisher} {generation : String} {nowUnix : ℕ}
    (h : Inv digests w) (hi : w.publishers i = some publisher) (hphase : publisher.phase = .rejected)
    (hact : w.draw [generation] ((w.queue [(publisher.blob, generation)] nowUnix).map fun w' =>
      w'.setPublisher i { publisher with phase := .settled }) = some w') : Inv digests w' := by
  obtain ⟨hfresh, w₁, hnext, hw'⟩ := draw_eq_some hact
  obtain ⟨w₂, hqueue, rfl⟩ := Option.map_eq_some_iff.mp hnext
  obtain ⟨jobs, hjobs, rfl⟩ := queue_eq_some hqueue
  subst hw'
  have hqueued := @Inv.queue _ _ [(publisher.blob, generation)] _ _ h hfresh hjobs
  exact hqueued.setPublisher hi (by rw [hphase]; decide) rfl rfl nofun

theorem Inv.removeReferences {removed : List ObjectReference} (h : Inv digests w) :
    Inv digests { w with references := w.references.delete fun r => r ∈ removed } := by
  refine h.step (x := none) ⟨fun _ _ _ hj => hj, fun _ _ _ hj => hj, fun _ _ _ hr => hr,
    fun _ _ _ _ hstored => hstored, ?_, fun _ hg => hg,
    .of_jobs_eq rfl fun _ hresolved => hresolved⟩ (fun _ _ hx => by cases hx)
    (fun _ _ hx => by cases hx) ?_ h.rows h.completed
  · intro _ r _ _ href
    rw [isReferenced_eq_false] at href ⊢
    exact fun reference hreference => href reference (Table.mem_delete.mp hreference).1
  · exact fun r hr => h.references r (Table.mem_delete.mp hr).1

theorem Inv.dereference {removed : List ObjectReference} {blobs : List (SourceBlob × String)}
    {nowUnix : ℕ} (h : Inv digests w)
    (hact : w.draw (blobs.map Prod.snd) (w.dereference removed blobs nowUnix) = some w') :
    Inv digests w' := by
  obtain ⟨hfresh, w₁, hnext, hw'⟩ := draw_eq_some hact
  obtain ⟨jobs, hjobs, rfl⟩ := queue_eq_some hnext
  subst hw'
  exact h.removeReferences.queue hfresh hjobs

/-! ## Workers -/

/-- The drain `i` takes a step that changes no table and no object. -/
theorem Inv.setDrain {drain : Drain} (h : Inv digests w)
    (hdrain : DrainInv (w.setDrain i drain) i drain) : Inv digests (w.setDrain i drain) := by
  refine h.of_eq (x := some (.drain i)) rfl rfl rfl rfl rfl (fun _ _ _ hj => hj) ?_
    (fun _ _ _ hr => hr) (fun _ _ hx => by cases hx) ?_
  · exact fun j _ hx hj => eq_of_update_ne (drain_ne hx) hj
  · rintro j d hx hj
    cases drain_eq hx
    cases eq_of_update_self hj
    exact hdrain

theorem Inv.claim {locked : List ContentRef} {generation : String} {nowUnix : ℕ} (h : Inv digests w)
    (hact : w.draw [generation] (w.claim i locked generation nowUnix) = some w') :
    Inv digests w' := by
  obtain ⟨hfresh, w₁, hclaim, rfl⟩ := draw_eq_some hact
  have hnew : generation ∉ w.generations := hfresh generation List.mem_cons_self
  rw [World.claim] at hclaim
  split at hclaim
  · rename_i jobs loaded hnone hok
    cases hclaim
    obtain ⟨hrows, hgenerations, hdistinct⟩ := claimPendingSourceBlobCleanupRows_eq_ok hok
    refine h.step (x := some (.drain i)) ⟨fun _ _ _ hj => hj, ?_, fun _ _ _ hr => hr,
      fun _ _ _ _ hstored => hstored, fun _ _ _ _ href => href,
      fun _ hg => List.mem_cons_of_mem _ hg, ?_⟩ (fun _ _ hx => by cases hx) ?_ h.references ?_ ?_
    · exact fun j _ hx hj => eq_of_update_ne (drain_ne hx) hj
    · intro r row' hrow' hdrawn
      change jobs.find? r = some row' at hrow'
      rcases hrows r with hkept | ⟨old, new, -, hnewRow, -, -, hgeneration⟩
      · exact ⟨row', hkept ▸ hrow', rfl, id, id⟩
      · rw [hnewRow] at hrow'
        cases hrow'
        exact absurd (hgeneration ▸ hdrawn) hnew
    · rintro j d hx hj
      cases drain_eq hx
      cases eq_of_update_self hj
      have hpending : ((loaded.map LoadedSourceBlobCleanup.blob).map SourceBlob.contentRef).Nodup := by
        rw [List.map_map]
        exact hdistinct
      refine ⟨nofun, nofun, fun l hl => ?_, hdistinct, ?_, fun _ l hl => ?_, nofun, nofun⟩
      · rw [hgenerations l hl]
        exact List.mem_cons_self
      · exact pendingByKey_nodup _
      · exact (mem_pendingByKey hpending).mpr (List.mem_map_of_mem hl)
    · intro row' hmem
      have hrow' : jobs.find? row'.contentRef = some row' := Table.find?_eq_some.mpr ⟨hmem, rfl⟩
      rcases hrows row'.contentRef with hkept | ⟨old, new, -, hnewRow, -, -, hgeneration⟩
      · exact List.mem_cons_of_mem _ (h.rows row' (Table.find?_eq_some.mp (hkept ▸ hrow')).1)
      · rw [hnewRow] at hrow'
        cases hrow'
        rw [hgeneration]
        exact List.mem_cons_self
    · intro r row' hrow' hdone
      change jobs.find? r = some row' at hrow'
      rcases hrows r with hkept | ⟨old, new, -, hnewRow, -, hopen, -⟩
      · exact h.completed r row' (hkept ▸ hrow') hdone
      · rw [hnewRow] at hrow'
        cases hrow'
        rw [hopen] at hdone
        cases hdone
  · cases hclaim

theorem Inv.acquire {drain : Drain} (h : Inv digests w) (hi : w.drains i = some drain)
    (hphase : drain.phase = .next) (hact : w.acquire i drain = some w') : Inv digests w' := by
  have hd := h.drains i drain hi
  rw [World.acquire] at hact
  split at hact
  · cases hact
  · rename_i blob todo htodo
    split at hact
    · rename_i hfree
      cases hact
      have hundecided : drain.undecided = none := by rw [Drain.undecided, hphase]
      have hblobs : drain.blobs =
          { drain with todo := todo, phase := .fenced blob : Drain }.blobs := by
        rw [Drain.blobs, hundecided, htodo]
        rfl
      refine h.of_eq (x := some (.drain i)) rfl rfl rfl rfl rfl (fun _ _ _ hj => hj) ?_ ?_
        (fun _ _ hx => by cases hx) ?_
      · exact fun j _ hx hj => eq_of_update_ne (drain_ne hx) hj
      · exact fun _ _ _ hr => fence_of_acquire hfree hr
      · rintro j d hx hj
        cases drain_eq hx
        cases eq_of_update_self hj
        refine ⟨?_, nofun, hd.drawn, hd.distinct, hblobs ▸ hd.once, fun _ => ?_, hd.stale,
          hd.resolved⟩
        · rintro b hholds
          cases hholds
          exact Function.update_self ..
        · rw [← hblobs]
          exact hd.covered (by rw [hphase]; nofun)
    · cases hact

theorem Inv.release {drain : Drain} {blob : SourceBlob} (h : Inv digests w)
    (hi : w.drains i = some drain) (hphase : drain.phase = .settled blob) :
    Inv digests (w.release i drain blob) := by
  have hd := h.drains i drain hi
  have hblobs : drain.blobs = { drain with phase := .next : Drain }.blobs := by
    rw [Drain.blobs, Drain.undecided, hphase]
    rfl
  refine h.of_eq (x := some (.drain i)) rfl rfl rfl rfl rfl (fun _ _ _ hj => hj) ?_ ?_
    (fun _ _ hx => by cases hx) ?_
  · exact fun j _ hx hj => eq_of_update_ne (drain_ne hx) hj
  · exact fun y _ hx hr => fence_of_release (hd.fence blob (by rw [Drain.holds, hphase]))
      (fun heq => hx (heq ▸ rfl)) hr
  · rintro j d hx hj
    cases drain_eq hx
    cases eq_of_update_self hj
    refine ⟨by rintro _ ⟨⟩, by rintro _ ⟨⟩, hd.drawn, hd.distinct, hblobs ▸ hd.once, fun _ => ?_, hd.stale,
      hd.resolved⟩
    rw [← hblobs]
    exact hd.covered (by rw [hphase]; rintro ⟨⟩)

theorem Drain.blobs_stopped_sublist (drain : Drain) :
    ({ drain with phase := .stopped : Drain }.blobs).Sublist drain.blobs := by
  apply List.Sublist.append_left
  exact List.sublist_append_right _ _

theorem Inv.stop {drain : Drain} (h : Inv digests w) (hi : w.drains i = some drain) :
    Inv digests (w.stop i drain) := by
  have hd := h.drains i drain hi
  have hstopped : ∀ w', w'.jobs = w.jobs → w'.generations = w.generations → w'.log = w.log →
      DrainInv w' i { drain with phase := .stopped } := by
    intro w' hjobs hgenerations hlog
    refine ⟨nofun, nofun, hgenerations ▸ hd.drawn, hd.distinct,
      (drain.blobs_stopped_sublist.map _).nodup hd.once, fun hphase => absurd rfl hphase,
      hjobs ▸ hd.stale, ?_⟩
    rw [hjobs, hlog]
    exact hd.resolved
  rw [World.stop]
  split
  · rename_i blob hholds
    refine h.of_eq (x := some (.drain i)) rfl rfl rfl rfl rfl (fun _ _ _ hj => hj) ?_ ?_
      (fun _ _ hx => by cases hx) ?_
    · exact fun j _ hx hj => eq_of_update_ne (drain_ne hx) hj
    · exact fun y _ hx hr => fence_of_release (hd.fence blob hholds) (fun heq => hx (heq ▸ rfl)) hr
    · rintro j d hx hj
      cases drain_eq hx
      cases eq_of_update_self hj
      exact hstopped _ rfl rfl rfl
  · exact h.setDrain (hstopped _ rfl rfl rfl)

/-! ### Deciding and deleting -/

theorem sourceBlobCleanupDecision_eq_delete {jobs : Jobs} {references : References}
    {batch : List LoadedSourceBlobCleanup} {blob : SourceBlob}
    (h : sourceBlobCleanupDecision jobs references batch blob = .delete) :
    isReferenced references blob.contentRef = false := by
  rw [sourceBlobCleanupDecision] at h
  split at h
  · cases h
  · split at h
    · cases h
    · split at h
      · cases h
      · rename_i hreferenced
        exact Bool.eq_false_of_not_eq_true hreferenced

theorem sourceBlobCleanupDecision_eq_staleClaim {jobs : Jobs} {references : References}
    {batch : List LoadedSourceBlobCleanup} {blob : SourceBlob}
    (hdistinct : (batch.map fun l => l.blob.contentRef).Nodup)
    {l : LoadedSourceBlobCleanup} (hl : l ∈ batch) (hkey : l.blob.contentRef = blob.contentRef) :
    sourceBlobCleanupDecision jobs references batch blob = .staleClaim ↔
      claimIsLive jobs l = false := by
  have hfind : (batch.find? fun loaded => loaded.blob.contentRef = blob.contentRef) = some l := by
    cases hfind : batch.find? fun loaded => loaded.blob.contentRef = blob.contentRef with
    | none => simpa [hkey] using List.find?_eq_none.mp hfind l hl
    | some found =>
      have hfound : found.blob.contentRef = blob.contentRef := by simpa using List.find?_some hfind
      rw [List.inj_on_of_nodup_map hdistinct (List.mem_of_find?_eq_some hfind) hl
        (hfound.trans hkey.symm)]
  rw [sourceBlobCleanupDecision, hfind]
  dsimp only
  split
  · simp [*]
  · split <;> simp [*]

/-- The blob a drain settles is the one it held undecided. -/
theorem Drain.blobs_settle {drain : Drain} {blob : SourceBlob} {outcome : Outcome}
    (hundecided : drain.undecided = some blob) : (drain.settle blob outcome).blobs = drain.blobs := by
  rw [Drain.blobs, Drain.blobs, hundecided]
  simp [Drain.settle, Drain.undecided]

/-- Settling a blob, with what its outcome says about the rows. -/
theorem DrainInv.settle {drain : Drain} {blob : SourceBlob} {outcome : Outcome}
    (hd : DrainInv w i drain) (hundecided : drain.undecided = some blob)
    (hholds : drain.holds = some blob) (hstopped : drain.phase ≠ .stopped)
    (hjobs : w'.jobs = w.jobs) (hgenerations : w'.generations = w.generations)
    (hfences : w'.fences = w.fences)
    (hlog : ∀ r, resolvedSinceQueued w.log r = true → resolvedSinceQueued w'.log r = true)
    (hstale : outcome = .staleClaim → ∀ l ∈ drain.loaded, l.blob.contentRef = blob.contentRef →
      claimIsLive w.jobs l = false)
    (hresolved : outcome = .deleted ∨ outcome = .referenced →
      resolvedSinceQueued w'.log blob.contentRef = true) :
    DrainInv w' i (drain.settle blob outcome) := by
  have hblobs : (drain.settle blob outcome).blobs = drain.blobs := Drain.blobs_settle hundecided
  refine ⟨?_, nofun, hgenerations ▸ hd.drawn, hd.distinct, hblobs ▸ hd.once, fun _ => ?_, ?_, ?_⟩
  · rintro b hb
    cases hb
    rw [hfences]
    exact hd.fence blob hholds
  · rw [hblobs]
    exact hd.covered hstopped
  · intro b hb l hl hkey
    rw [hjobs]
    rcases List.mem_append.mp hb with hold | hnew
    · exact hd.stale b hold l hl hkey
    · obtain ⟨rfl, houtcome⟩ := Prod.mk.inj (List.mem_singleton.mp hnew)
      exact hstale houtcome.symm l hl hkey
  · intro b o hb ho l hl hkey row hrow hgeneration
    rcases List.mem_append.mp hb with hold | hnew
    · rw [hjobs] at hrow
      exact hlog _ (hd.resolved b o hold ho l hl hkey row hrow hgeneration)
    · obtain ⟨rfl, rfl⟩ := Prod.mk.inj (List.mem_singleton.mp hnew)
      exact hresolved ho

theorem resolved_note {event : Event} (hevent : ∀ r, event ≠ .queued r) {r : ContentRef}
    (h : resolvedSinceQueued w.log r = true) :
    resolvedSinceQueued (w.note [event]).log r = true := by
  change resolvedSinceQueued (event :: w.log) r = true
  rw [resolvedSinceQueued_cons (hevent r), h, Bool.or_true]

theorem resolved_note_self {event : Event} {r : ContentRef} (hevent : ∀ r, event ≠ .queued r)
    (h : event.resolves r = true) : resolvedSinceQueued (w.note [event]).log r = true := by
  change resolvedSinceQueued (event :: w.log) r = true
  rw [resolvedSinceQueued_cons (hevent r), h, Bool.true_or]

theorem Inv.note {event : Event} (h : Inv digests w) (hevent : ∀ r, event ≠ .queued r) :
    Inv digests (w.note [event]) :=
  h.step (x := none) ⟨fun _ _ _ hj => hj, fun _ _ _ hj => hj, fun _ _ _ hr => hr,
    fun _ _ _ _ hstored => hstored, fun _ _ _ _ href => href, fun _ hg => hg,
    .of_jobs_eq rfl fun _ => resolved_note hevent⟩ (fun _ _ hx => by cases hx)
    (fun _ _ hx => by cases hx) h.references h.rows
    fun r row hrow hdone => resolved_note hevent (h.completed r row hrow hdone)

theorem Inv.decide {drain : Drain} {blob : SourceBlob} (h : Inv digests w)
    (hi : w.drains i = some drain) (hphase : drain.phase = .fenced blob) :
    Inv digests (w.decide i drain blob) := by
  have hd := h.drains i drain hi
  have hundecided : drain.undecided = some blob := by rw [Drain.undecided, hphase]
  have hholds : drain.holds = some blob := by rw [Drain.holds, hphase]
  have hstopped : drain.phase ≠ .stopped := by rw [hphase]; rintro ⟨⟩
  rw [World.decide]
  split
  · rename_i hdecision
    have hblobs : drain.blobs = { drain with phase := .deleting blob : Drain }.blobs := by
      rw [Drain.blobs, hundecided]
      rfl
    refine h.setDrain ⟨?_, ?_, hd.drawn, hd.distinct, hblobs ▸ hd.once, fun _ => ?_, hd.stale,
      hd.resolved⟩
    · rintro b hb
      cases hb
      exact hd.fence blob hholds
    · rintro b hb
      cases hb
      exact sourceBlobCleanupDecision_eq_delete hdecision
    · rw [← hblobs]
      exact hd.covered hstopped
  · have hevent : ∀ r, Event.foundReference blob.contentRef (w.fences blob.contentRef) ≠ .queued r := by
      rintro r ⟨⟩
    refine (h.note hevent).setDrain (hd.settle hundecided hholds hstopped rfl rfl rfl
      (fun r => resolved_note hevent) (by rintro ⟨⟩) fun _ => ?_)
    apply resolved_note_self hevent
    rw [hd.fence blob hholds]
    simp [Event.resolves]
  · rename_i hdecision
    refine h.setDrain (hd.settle hundecided hholds hstopped rfl rfl rfl (fun r => id)
      (fun _ l hl hkey => ?_) (by rintro (h | h) <;> cases h))
    exact (sourceBlobCleanupDecision_eq_staleClaim hd.distinct hl hkey).mp hdecision

/-- The object may go: nothing refers to it, and the fence keeps publishers off it. -/
theorem Inv.removeObject {drain : Drain} {blob : SourceBlob}
    {objects : String → Option (List UInt8)} (h : Inv digests w) (hi : w.drains i = some drain)
    (hphase : drain.phase = .deleting blob)
    (hobjects : objects = w.objects ∨
      objects = Function.update w.objects (objectKey blob.contentRef) none) :
    Inv digests { w with objects } := by
  have hd := h.drains i drain hi
  have hfence := hd.fence blob (by rw [Drain.holds, hphase])
  have hstored : ∀ r, r ≠ blob.contentRef → Stored digests w.objects r → Stored digests objects r := by
    rintro r hne ⟨bytes, kind, hobject, hname⟩
    refine ⟨bytes, kind, ?_, hname⟩
    rcases hobjects with rfl | rfl
    · exact hobject
    · rw [Function.update_of_ne fun heq => hne (objectKey_injective heq), hobject]
  refine h.step (x := some (.drain i)) ⟨fun _ _ _ hj => hj, fun _ _ _ hj => hj, fun _ _ _ hr => hr,
    ?_, fun _ _ _ _ href => href, fun _ hg => hg, .of_jobs_eq rfl fun _ hresolved => hresolved⟩
    (fun _ _ hx => by cases hx) ?_ ?_ h.rows h.completed
  · intro y r hx hr
    apply hstored
    rintro rfl
    rw [hfence] at hr
    exact hx hr.symm
  · rintro j d hx hj
    exact (h.drains j d hj).frame (fun _ hr => hr) (fun _ _ href => href) (fun _ hg => hg)
      (.of_jobs_eq rfl fun _ hresolved => hresolved)
  · intro r hr
    apply hstored _ _ (h.references r hr)
    exact isReferenced_eq_false.mp (hd.unreferenced blob hphase) r hr

theorem Inv.deleteObject {drain : Drain} {blob : SourceBlob} {ok effective : Bool}
    (h : Inv digests w) (hi : w.drains i = some drain) (hphase : drain.phase = .deleting blob) :
    Inv digests (w.deleteObject i drain blob ok effective) := by
  have hd := h.drains i drain hi
  have hundecided : drain.undecided = some blob := by rw [Drain.undecided, hphase]
  have hholds : drain.holds = some blob := by rw [Drain.holds, hphase]
  have hstopped : drain.phase ≠ .stopped := by rw [hphase]; rintro ⟨⟩
  have hobjects : Inv digests { w with
      objects := if ok = true ∨ effective = true then
          Function.update w.objects (objectKey blob.contentRef) none
        else w.objects } := by
    apply h.removeObject hi hphase
    by_cases hdelete : ok = true ∨ effective = true
    · exact .inr (if_pos hdelete)
    · exact .inl (if_neg hdelete)
  have hd' := hobjects.drains i drain hi
  rw [World.deleteObject]
  by_cases hok : ok = true
  · rw [if_pos hok]
    have hevent : ∀ r, Event.deleted blob.contentRef (w.fences blob.contentRef) ≠ .queued r := by
      rintro r ⟨⟩
    refine (hobjects.note hevent).setDrain (hd'.settle hundecided hholds hstopped rfl rfl rfl
      (fun r => resolved_note hevent) (by rintro ⟨⟩) fun _ => ?_)
    apply resolved_note_self hevent
    rw [hd.fence blob hholds]
    simp [Event.resolves]
  · rw [if_neg hok]
    exact hobjects.setDrain (hd'.settle hundecided hholds hstopped rfl rfl rfl (fun r => id)
      (by rintro ⟨⟩) (by rintro (h | h) <;> cases h))

/-! ### Finishing -/

theorem Drain.mem_withOutcome {drain : Drain} {outcome : Outcome} {blob : SourceBlob} :
    blob ∈ drain.withOutcome outcome ↔ (blob, outcome) ∈ drain.outcomes := by
  rw [Drain.withOutcome, List.mem_map]
  constructor
  · rintro ⟨⟨b, o⟩, hfiltered, rfl⟩
    obtain ⟨hmem, ho⟩ := List.mem_filter.mp hfiltered
    obtain rfl : o = outcome := of_decide_eq_true ho
    exact hmem
  · exact fun hmem => ⟨(blob, outcome), List.mem_filter.mpr ⟨hmem, by simp⟩, rfl⟩

/-- A claimed row that a drain completes at its end was deleted or found referenced by it. -/
theorem DrainInv.resolved_of_completed {drain : Drain} (hd : DrainInv w i drain)
    (hphase : drain.phase = .next) (htodo : drain.todo = []) {r : ContentRef}
    {old : SourceBlobCleanupJob} (hold : w.jobs.find? r = some old)
    (hclaimed : ∃ l ∈ drain.loaded, l.blob.contentRef = r ∧ l.generation = old.generation)
    (hopen : old.completedAtUnix = none)
    (hretained : r ∉ drain.retained.map SourceBlob.contentRef) :
    resolvedSinceQueued w.log r = true := by
  obtain ⟨l, hl, rfl, hgeneration⟩ := hclaimed
  have hundecided : drain.undecided = none := by rw [Drain.undecided, hphase]
  have hcovered := hd.covered (by rw [hphase]; decide) l hl
  rw [Drain.blobs, hundecided, htodo] at hcovered
  simp only [Option.toList_none, List.append_nil, List.mem_map, Prod.exists, exists_and_right,
    exists_eq_right] at hcovered
  obtain ⟨outcome, houtcome⟩ := hcovered
  cases outcome with
  | deleted => exact hd.resolved _ _ houtcome (.inl rfl) l hl rfl old hold hgeneration.symm
  | referenced => exact hd.resolved _ _ houtcome (.inr rfl) l hl rfl old hold hgeneration.symm
  | retained => exact absurd (List.mem_map_of_mem (Drain.mem_withOutcome.mpr houtcome)) hretained
  | staleClaim =>
    have hstale := hd.stale _ houtcome l hl rfl
    simp [claimIsLive, hold, hgeneration, hopen] at hstale

theorem Inv.finish {drain : Drain} {fresh : SourceBlob → String} (h : Inv digests w)
    (hi : w.drains i = some drain) (hphase : drain.phase = .next) (htodo : drain.todo = [])
    (hact : w.draw ((unclaimed drain.loaded drain.retained).map fresh)
      (some (w.finish i drain fresh)) = some w') : Inv digests w' := by
  have hd := h.drains i drain hi
  obtain ⟨hfresh, w₁, hfinish, hw'⟩ := draw_eq_some hact
  cases hfinish
  subst hw'
  unfold World.finish
  split
  · rename_i jobs hjobs
    have hpairs : ((unclaimed drain.loaded drain.retained).map fun b => (b, fresh b)).map Prod.snd =
        (unclaimed drain.loaded drain.retained).map fresh := by
      rw [List.map_map]
      rfl
    have hblobs : ((unclaimed drain.loaded drain.retained).map fun b => (b, fresh b)).map Prod.fst =
        unclaimed drain.loaded drain.retained := by
      rw [List.map_map]
      exact List.map_id' _
    have hrows := @Inv.setRows digests w jobs
      ((unclaimed drain.loaded drain.retained).map fun b => (b, fresh b))
      (fun r g => ∃ l ∈ drain.loaded, l.blob.contentRef = r ∧ l.generation = g)
      (fun r => r ∈ drain.retained.map SourceBlob.contentRef) h (hpairs ▸ hfresh)
      (fun r => by
        have hr := reconcileSourceBlobCleanupRows_eq_ok hjobs r
        simpa only [List.forall_mem_map] using hr)
      (fun r old hold hclaimed hopen hretained =>
        hd.resolved_of_completed hphase htodo hold hclaimed hopen hretained)
    rw [hpairs, hblobs] at hrows
    have hd' := hrows.drains i drain hi
    have hsame : drain.blobs = { drain with phase := .finished : Drain }.blobs := by
      rw [Drain.blobs, Drain.undecided, hphase]
      rfl
    refine hrows.setDrain ⟨by rintro _ ⟨⟩, by rintro _ ⟨⟩, hd'.drawn, hd'.distinct, hsame ▸ hd'.once, fun _ => ?_,
      hd'.stale, hd'.resolved⟩
    rw [← hsame]
    exact hd'.covered (by rw [hphase]; decide)
  · refine h.drawMore.setDrain ⟨by rintro _ ⟨⟩, by rintro _ ⟨⟩, fun l hl => List.mem_append_right _ (hd.drawn l hl),
      hd.distinct, (drain.blobs_stopped_sublist.map _).nodup hd.once, fun hne => absurd rfl hne,
      hd.stale, hd.resolved⟩

/-! ## Runs -/

theorem publisherStep_eq_some {phase : PublisherPhase} {next : Publisher → Option World}
    (h : w.publisherStep i phase next = some w') :
    ∃ publisher, w.publishers i = some publisher ∧ publisher.phase = phase ∧
      next publisher = some w' := by
  rw [World.publisherStep] at h
  split at h
  · rename_i publisher hi
    split at h
    · rename_i hphase
      exact ⟨publisher, hi, hphase, h⟩
    · cases h
  · cases h

theorem now_eq_some {nowUnix : ℕ} {next : Option World} (h : w.now nowUnix next = some w') :
    next = some w' := by
  rw [World.now] at h
  split at h
  · exact h
  · cases h

theorem Inv.act {a : Action} (h : Inv digests w) (hact : w.act digests a = some w') :
    Inv digests w' := by
  cases a with
  | tick seconds =>
    cases hact
    exact h.of_eq (x := none) rfl rfl rfl rfl rfl (fun _ _ _ hj => hj) (fun _ _ _ hj => hj)
      (fun _ _ _ hr => hr) (fun _ _ hx => by cases hx) (fun _ _ hx => by cases hx)
  | publish i kind bytes gitOid => exact h.publish hact
  | put i ok effective =>
    obtain ⟨publisher, hi, hphase, hnext⟩ := publisherStep_eq_some hact
    cases hnext
    exact h.put hi hphase
  | commit i refKind refId reported =>
    obtain ⟨publisher, hi, hphase, hnext⟩ := publisherStep_eq_some hact
    cases hnext
    exact h.commit hi hphase
  | rollBack i =>
    obtain ⟨publisher, hi, hphase, hnext⟩ := publisherStep_eq_some hact
    cases hnext
    exact h.setPublisher hi (by rw [hphase]; decide) rfl rfl nofun
  | queueRollback i generation nowUnix =>
    obtain ⟨publisher, hi, hphase, hnext⟩ := publisherStep_eq_some (now_eq_some hact)
    exact h.queueRollback hi hphase hnext
  | giveUp i =>
    obtain ⟨publisher, hi, hphase, hnext⟩ := publisherStep_eq_some hact
    cases hnext
    exact h.setPublisher hi (by rw [hphase]; decide) rfl rfl nofun
  | leave i =>
    simp only [World.act] at hact
    split at hact
    · rename_i publisher hi
      split at hact
      · cases hact
      · rename_i hleft
        cases hact
        exact h.leave hi hleft
    · cases hact
  | dereference removed blobs nowUnix => exact h.dereference (now_eq_some hact)
  | claim i locked generation nowUnix => exact h.claim (now_eq_some hact)
  | acquire i =>
    simp only [World.act] at hact
    split at hact
    · rename_i drain hi
      split at hact
      · rename_i hphase
        exact h.acquire hi hphase hact
      · cases hact
    · cases hact
  | decide i =>
    simp only [World.act] at hact
    split at hact
    · rename_i drain hi
      split at hact
      · rename_i blob hphase
        cases hact
        exact h.decide hi hphase
      · cases hact
    · cases hact
  | delete i ok effective =>
    simp only [World.act] at hact
    split at hact
    · rename_i drain hi
      split at hact
      · rename_i blob hphase
        cases hact
        exact h.deleteObject hi hphase
      · cases hact
    · cases hact
  | release i =>
    simp only [World.act] at hact
    split at hact
    · rename_i drain hi
      split at hact
      · rename_i blob hphase
        cases hact
        exact h.release hi hphase
      · cases hact
    · cases hact
  | finish i fresh =>
    simp only [World.act] at hact
    split at hact
    · rename_i drain hi
      split at hact
      · rename_i hphase
        exact h.finish hi hphase.1 hphase.2 hact
      · cases hact
    · cases hact
  | stop i =>
    obtain ⟨drain, hi, rfl⟩ := Option.map_eq_some_iff.mp hact
    exact h.stop hi

theorem Inv.initial (clock : ℕ) (objects : String → Option (List UInt8)) :
    Inv digests (World.initial clock objects) where
  publishers _ _ hi := by cases hi
  drains _ _ hi := by cases hi
  references _ hr := absurd hr (Table.notMem_empty _)
  rows _ hrow := absurd hrow (Table.notMem_empty _)
  completed _ _ hrow := by cases hrow

theorem World.Reachable.inv (h : w.Reachable digests) : Inv digests w :=
  Transition.Reachable.invariant (Inv digests) h
    (by rintro _ ⟨clock, objects, rfl⟩; exact .initial clock objects)
    fun _ _ _ hinv ⟨_, hact⟩ => hinv.act hact

end ScopeVcs.Content
