import ScopeVcs.Storage.RoundTrip

/-! # What the encodings determine

The key of a scope is derived from an injective encoding. The associated data holds the lengths of the
parts as `u32`: it determines header, scope and frame header when every part is shorter than that, and
not beyond.
-/

namespace ScopeVcs.Storage

open Mutation Bytes

/-! ## Length-prefixed parts -/

/-- A part with its length determines the part and what is behind it. -/
theorem prefixed_inj {width : ℕ} {part part' : Bytes} {behind behind' : Bytes}
    (hlt : part.length < 256 ^ width) (hlt' : part'.length < 256 ^ width)
    (h : be width part.length ++ (part ++ behind) = be width part'.length ++ (part' ++ behind')) :
    part = part' ∧ behind = behind' := by
  obtain ⟨hlength, hrest⟩ := List.append_inj h (by rw [length_be, length_be])
  exact List.append_inj hrest (be_inj hlt hlt' hlength)

theorem Str.bytes_injective {a b : Str} (h : a.bytes = b.bytes) : a = b := by
  cases a
  cases b
  cases h
  rfl

theorem NoncePrefix.bytes_injective {a b : NoncePrefix} (h : a.bytes = b.bytes) : a = b := by
  cases a
  cases b
  cases h
  rfl

theorem Str.length_lt (a : Str) : a.bytes.length < 256 ^ 8 :=
  Nat.lt_of_le_of_lt a.length_le (by decide)

/-- Different scopes derive their keys from different messages. -/
theorem scopeMessage_injective {scope scope' : EnvelopeScope}
    (h : scopeMessage scope = scopeMessage scope') : scope = scope' := by
  have hlabel : ∀ {tail tail' : Bytes}, (ascii "scope-git-segment-v2" ++ [0]) ++ tail ≠
      (ascii "scope-object-v2" ++ [0]) ++ tail' := by
    intro tail tail' heq
    have hsixth := congrArg (fun bytes => bytes[6]?) heq
    simp [ascii] at hsixth
  cases scope with
  | gitSegment repositoryId segmentId =>
    cases scope' with
    | gitSegment repositoryId' segmentId' =>
      simp only [scopeMessage, EnvelopeScope.label, EnvelopeScope.parts, List.flatMap_cons,
        List.flatMap_nil, List.append_assoc, List.append_cancel_left_eq] at h
      obtain ⟨hrepository, hrest⟩ := prefixed_inj repositoryId.length_lt repositoryId'.length_lt h
      obtain ⟨hsegment, -⟩ := prefixed_inj segmentId.length_lt segmentId'.length_lt hrest
      rw [Str.bytes_injective hrepository, Str.bytes_injective hsegment]
    | object key => exact absurd h hlabel
  | object key =>
    cases scope' with
    | gitSegment repositoryId' segmentId' => exact absurd h.symm hlabel
    | object key' =>
      simp only [scopeMessage, EnvelopeScope.label, EnvelopeScope.parts, List.flatMap_cons,
        List.flatMap_nil, List.append_assoc, List.append_cancel_left_eq] at h
      obtain ⟨hkey, -⟩ := prefixed_inj key.length_lt key'.length_lt h
      rw [Str.bytes_injective hkey]

/-! ## Headers -/

/-- The header of a frame determines its counter, its length and its flags. -/
theorem frameHeader_inj {counter counter' plaintextLen plaintextLen' : ℕ} {flags flags' : UInt8}
    (hcounter : counter ≤ maxU32) (hcounter' : counter' ≤ maxU32) (hlen : plaintextLen ≤ maxU32)
    (hlen' : plaintextLen' ≤ maxU32)
    (h : frameHeader counter plaintextLen flags = frameHeader counter' plaintextLen' flags') :
    counter = counter' ∧ plaintextLen = plaintextLen' ∧ flags = flags' := by
  refine ⟨?_, ?_, ?_⟩
  · rw [← counter_frameHeader hcounter, h, counter_frameHeader hcounter']
  · rw [← plaintextLen_frameHeader hlen, h, plaintextLen_frameHeader hlen']
  · have hlast : (frameHeader counter plaintextLen flags).getD 8 0 =
        (frameHeader counter' plaintextLen' flags').getD 8 0 := by rw [h]
    rwa [flags_frameHeader, flags_frameHeader] at hlast

/-- An envelope header determines where it ends, and its fields. -/
theorem envelopeHeader_inj {key key' : EncryptionKey} {noncePrefix noncePrefix' : NoncePrefix}
    {frameBytes frameBytes' : ℕ} {behind behind' : Bytes} (hsize : frameBytes ≤ maxU32)
    (hsize' : frameBytes' ≤ maxU32)
    (h : envelopeHeader key noncePrefix frameBytes ++ behind =
      envelopeHeader key' noncePrefix' frameBytes' ++ behind') :
    key.keyId = key'.keyId ∧ noncePrefix = noncePrefix' ∧ frameBytes = frameBytes' ∧
      behind = behind' := by
  have hkey : key.keyId.length ≤ 1024 := key.keyId_le
  have hkey' : key'.keyId.length ≤ 1024 := key'.keyId_le
  simp only [envelopeHeader, List.append_assoc, List.append_cancel_left_eq] at h
  obtain ⟨hlength, h⟩ := List.append_inj h (by rw [length_be, length_be])
  obtain ⟨hfront, h⟩ := List.append_inj h (by rw [noncePrefix.length_eq, noncePrefix'.length_eq])
  obtain ⟨hframe, h⟩ := List.append_inj h (by rw [length_be, length_be])
  have hlen : key.keyId.length = key'.keyId.length := be_inj (by omega) (by omega) hlength
  obtain ⟨hid, hbehind⟩ := List.append_inj h hlen
  exact ⟨hid, NoncePrefix.bytes_injective hfront,
    be_inj (Nat.lt_succ_of_le hsize) (Nat.lt_succ_of_le hsize') hframe, hbehind⟩

/-! ## Associated data -/

/-- Every part of the scope is shorter than the bound. -/
def EnvelopeScope.PartsBelow (bound : ℕ) (scope : EnvelopeScope) : Prop :=
  ∀ part ∈ scope.parts, part.bytes.length < bound

theorem EnvelopeScope.PartsBelow.mono {bound bound' : ℕ} {scope : EnvelopeScope}
    (h : scope.PartsBelow bound) (hle : bound ≤ bound') : scope.PartsBelow bound' :=
  fun part hpart => (h part hpart).trans_le hle

/-- Scopes with parts below 2^32 bytes are determined by their data and what is behind, as long as that
has one length. -/
theorem scopeData_inj {scope scope' : EnvelopeScope} {behind behind' : Bytes}
    (hbelow : scope.PartsBelow (256 ^ 4)) (hbelow' : scope'.PartsBelow (256 ^ 4))
    (hlength : behind.length = behind'.length)
    (h : scopeData scope ++ behind = scopeData scope' ++ behind') :
    scope = scope' ∧ behind = behind' := by
  have hdiffer : ∀ {key repositoryId segmentId : Bytes}, key.length < 256 ^ 4 →
      repositoryId.length < 256 ^ 4 →
      be 4 key.length ++ (key ++ behind) ≠ be 4 repositoryId.length ++ (repositoryId ++
        (be 4 segmentId.length ++ (segmentId ++ behind'))) ∧
      be 4 key.length ++ (key ++ behind') ≠ be 4 repositoryId.length ++ (repositoryId ++
        (be 4 segmentId.length ++ (segmentId ++ behind))) := by
    intro key repositoryId segmentId hkey hrepository
    constructor <;> intro heq
    all_goals
      obtain ⟨-, hrest⟩ := prefixed_inj hkey hrepository heq
      have hlen := congrArg List.length hrest
      simp only [List.length_append, length_be] at hlen
      omega
  cases scope with
  | gitSegment repositoryId segmentId =>
    have hrepository := hbelow repositoryId (by simp [EnvelopeScope.parts])
    have hsegment := hbelow segmentId (by simp [EnvelopeScope.parts])
    cases scope' with
    | gitSegment repositoryId' segmentId' =>
      have hrepository' := hbelow' repositoryId' (by simp [EnvelopeScope.parts])
      have hsegment' := hbelow' segmentId' (by simp [EnvelopeScope.parts])
      simp only [scopeData, EnvelopeScope.parts, List.flatMap_cons, List.flatMap_nil,
        List.append_assoc, List.append_nil] at h
      obtain ⟨hid, hrest⟩ := prefixed_inj hrepository hrepository' h
      obtain ⟨hid', hbehind⟩ := prefixed_inj hsegment hsegment' hrest
      rw [Str.bytes_injective hid, Str.bytes_injective hid']
      exact ⟨rfl, hbehind⟩
    | object key =>
      have hkey := hbelow' key (by simp [EnvelopeScope.parts])
      simp only [scopeData, EnvelopeScope.parts, List.flatMap_cons, List.flatMap_nil,
        List.append_assoc, List.append_nil] at h
      exact absurd h.symm (hdiffer hkey hrepository).2
  | object key =>
    have hkey := hbelow key (by simp [EnvelopeScope.parts])
    cases scope' with
    | gitSegment repositoryId' segmentId' =>
      have hrepository' := hbelow' repositoryId' (by simp [EnvelopeScope.parts])
      simp only [scopeData, EnvelopeScope.parts, List.flatMap_cons, List.flatMap_nil,
        List.append_assoc, List.append_nil] at h
      exact absurd h (hdiffer hkey hrepository').1
    | object key' =>
      have hkey' := hbelow' key' (by simp [EnvelopeScope.parts])
      simp only [scopeData, EnvelopeScope.parts, List.flatMap_cons, List.flatMap_nil,
        List.append_assoc, List.append_nil] at h
      obtain ⟨hid, hbehind⟩ := prefixed_inj hkey hkey' h
      rw [Str.bytes_injective hid]
      exact ⟨rfl, hbehind⟩

/-- What the associated data of a frame is made from. -/
structure FrameContext where
  key : EncryptionKey
  noncePrefix : NoncePrefix
  frameBytes : ℕ
  frameBytes_le : frameBytes ≤ maxU32
  scope : EnvelopeScope
  counter : ℕ
  counter_le : counter ≤ maxU32
  plaintextLen : ℕ
  plaintextLen_le : plaintextLen ≤ maxU32
  flags : UInt8

namespace FrameContext

def header (context : FrameContext) : Bytes :=
  envelopeHeader context.key context.noncePrefix context.frameBytes

def data (context : FrameContext) : Bytes :=
  associatedData context.header context.scope
    (frameHeader context.counter context.plaintextLen context.flags)

/-- The two frames agree on all that the associated data is to bind. -/
structure Same (a b : FrameContext) : Prop where
  header : a.header = b.header
  scope : a.scope = b.scope
  counter : a.counter = b.counter
  plaintextLen : a.plaintextLen = b.plaintextLen
  flags : a.flags = b.flags

/-- Equal associated data means the same frame, for scopes with parts below the bound. -/
def InjectiveBelow (bound : ℕ) : Prop :=
  ∀ a b : FrameContext, a.scope.PartsBelow bound → b.scope.PartsBelow bound → a.data = b.data →
    a.Same b

theorem injectiveBelow_u32 : InjectiveBelow (2 ^ 32) := by
  intro a b ha hb h
  simp only [data, associatedData, List.append_assoc] at h
  obtain ⟨hkey, hfront, hsize, hrest⟩ := envelopeHeader_inj a.frameBytes_le b.frameBytes_le h
  obtain ⟨hscope, hframe⟩ := scopeData_inj ha hb (by simp) hrest
  obtain ⟨hcounter, hlen, hflags⟩ := frameHeader_inj a.counter_le b.counter_le a.plaintextLen_le
    b.plaintextLen_le hframe
  refine ⟨?_, hscope, hcounter, hlen, hflags⟩
  rw [header, header, envelopeHeader, envelopeHeader, hkey, hfront, hsize]

def zeros (length : ℕ) (h : length ≤ isizeMax) : Str where
  bytes := List.replicate length 0
  length_le := by rwa [List.length_replicate]

/-- The cast to `u32` drops the multiples of 2^32: where the zeros of one part end is lost. -/
theorem scopeData_ambiguous {length : ℕ} (h : length ≤ isizeMax) (hcast : be 4 length = be 4 0) :
    scopeData (.gitSegment (zeros length h) (zeros 0 (Nat.zero_le _))) =
      scopeData (.gitSegment (zeros 0 (Nat.zero_le _)) (zeros length h)) := by
  have hempty : be 4 0 = List.replicate 4 0 := by decide
  simp only [scopeData, EnvelopeScope.parts, List.flatMap_cons, List.flatMap_nil, List.append_nil,
    zeros, List.length_replicate, hcast, hempty, List.replicate_append_replicate]
  exact congrArg (fun n => List.replicate n 0) (by omega)

/-- The context of a first frame, in a scope. -/
def ofScope (scope : EnvelopeScope) : FrameContext :=
  ⟨Recorded.key, Recorded.noncePrefix, 1024, by decide, scope, 0, by decide, 1, by decide, 0⟩

theorem data_ofScope {a b : EnvelopeScope} (h : scopeData a = scopeData b) :
    (ofScope a).data = (ofScope b).data := by
  rw [data, data, associatedData, associatedData]
  change _ ++ scopeData a ++ _ = _ ++ scopeData b ++ _
  rw [h]
  rfl

theorem scope_ne {length : ℕ} (h : length ≤ isizeMax) (hpos : 0 < length) :
    (ofScope (.gitSegment (zeros length h) (zeros 0 (Nat.zero_le _)))).scope ≠
      (ofScope (.gitSegment (zeros 0 (Nat.zero_le _)) (zeros length h))).scope := by
  intro hsame
  have hlengths := congrArg (fun scope : EnvelopeScope => scope.parts.map fun part =>
    part.bytes.length) hsame
  simp only [ofScope, EnvelopeScope.parts, zeros, List.map_cons, List.map_nil,
    List.length_replicate, List.cons.injEq] at hlengths
  omega

theorem InjectiveBelow.mono {bound bound' : ℕ} (h : InjectiveBelow bound') (hle : bound ≤ bound') :
    InjectiveBelow bound := fun a b ha hb =>
  h a b (ha.mono hle) (hb.mono hle)

theorem InjectiveBelow.le_of_zeros {bound length : ℕ} (hinjective : InjectiveBelow bound)
    (h : length ≤ isizeMax) (hpos : 0 < length) (hcast : be 4 length = be 4 0) : bound ≤ length := by
  by_contra hlt
  rw [not_le] at hlt
  have hzeros : (zeros length h).bytes.length < bound := by
    change (List.replicate length (0 : UInt8)).length < bound
    rwa [List.length_replicate]
  have hempty : (zeros 0 (Nat.zero_le _)).bytes.length < bound := hpos.trans hlt
  have hsame := hinjective (ofScope (.gitSegment (zeros length h) (zeros 0 (Nat.zero_le _))))
    (ofScope (.gitSegment (zeros 0 (Nat.zero_le _)) (zeros length h)))
    (by simp [ofScope, EnvelopeScope.PartsBelow, EnvelopeScope.parts, hzeros, hempty])
    (by simp [ofScope, EnvelopeScope.PartsBelow, EnvelopeScope.parts, hzeros, hempty])
    (data_ofScope (scopeData_ambiguous h hcast))
  exact scope_ne h hpos hsame.scope

/-- The associated data binds the scope exactly as long as its parts are shorter than 2^32 bytes. -/
theorem injectiveBelow_iff {bound : ℕ} : InjectiveBelow bound ↔ bound ≤ 2 ^ 32 :=
  ⟨fun h => h.le_of_zeros (by decide) (by decide) (by decide), injectiveBelow_u32.mono⟩

end FrameContext

end ScopeVcs.Storage
