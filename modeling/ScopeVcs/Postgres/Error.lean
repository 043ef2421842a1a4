import ScopeVcs.Error
import ScopeVcs.Lib.Mutation
import ScopeVcs.Lib.U64

/-! # Errors and integer columns of the store

What a store operation reports, and the checked conversions into the integer columns of its tables.
A column that holds such a number is a natural number here: it was converted when it was written.
-/

namespace ScopeVcs

inductive PostgresErrorKind where
  | attachmentUploadExpired
  | invalidInput
  | conflict
  | repositoryMoved
  | permissionDenied
  | internal
  | notFound
  | unavailable
  | resourceExhausted
  | unauthenticated
  deriving DecidableEq

structure PostgresError where
  kind : PostgresErrorKind
  message : String
  deriving DecidableEq

namespace PostgresError

def conflict (message : String) : PostgresError := ⟨.conflict, message⟩

def resourceExhausted (message : String) : PostgresError := ⟨.resourceExhausted, message⟩

def notFound (message : String) : PostgresError := ⟨.notFound, message⟩

def invalidInput (message : String) : PostgresError := ⟨.invalidInput, message⟩

def internalMessage (message : String) : PostgresError := ⟨.internal, message⟩

/-- `impl From<DomainError> for PostgresError`. -/
def ofDomainError (error : DomainError) : PostgresError :=
  let kind : PostgresErrorKind := match error.kind with
    | .invalidInput => .invalidInput
    | .conflict => .conflict
    | .forbidden => .permissionDenied
    | .authenticationFailed => .unauthenticated
    | .rateLimited => .resourceExhausted
    | .notFound => .notFound
    | .invariantViolation => .internal
  ⟨kind, error.message⟩

end PostgresError

namespace IntegerColumns

/-- `i64::MAX`. -/
def maxI64 : ℕ := 2 ^ 63 - 1

/-- `i32::MAX`. -/
def maxI32 : ℕ := 2 ^ 31 - 1

def u64ToI64 (value : ℕ) (field : String) : Except PostgresError ℕ :=
  if value ≤ maxI64 then .ok value
  else .error (.internalMessage (field ++ " exceeds PostgreSQL bigint range"))

/-- `i64::saturating_add`, of numbers that are not negative. -/
def saturatingAddI64 (a b : ℕ) : ℕ := min (a + b) maxI64

@[simp]
theorem u64ToI64_eq_ok {value : ℕ} {field : String} {column : ℕ} :
    u64ToI64 value field = .ok column ↔ value ≤ maxI64 ∧ value = column := by
  simp only [u64ToI64]
  split <;> simp_all

theorem u64ToI64_eq_error {value : ℕ} {field : String} {e : PostgresError}
    (h : u64ToI64 value field = .error e) : e.kind = .internal := by
  simp only [u64ToI64] at h
  split at h
  · cases h
  · cases h
    rfl

end IntegerColumns

end ScopeVcs
