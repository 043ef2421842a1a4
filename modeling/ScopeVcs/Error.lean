/-! # Domain errors

The error every operation of the domain reports: a kind and a message.
-/

namespace ScopeVcs

inductive DomainErrorKind where
  | invalidInput
  | conflict
  | forbidden
  | authenticationFailed
  | rateLimited
  | notFound
  | invariantViolation
  deriving DecidableEq

structure DomainError where
  kind : DomainErrorKind
  message : String
  deriving DecidableEq

namespace DomainError

def invalidInput (message : String) : DomainError := ⟨.invalidInput, message⟩

def conflict (message : String) : DomainError := ⟨.conflict, message⟩

def forbidden (message : String) : DomainError := ⟨.forbidden, message⟩

def authenticationFailed (message : String) : DomainError := ⟨.authenticationFailed, message⟩

def notFound (message : String) : DomainError := ⟨.notFound, message⟩

def invariantViolation (message : String) : DomainError := ⟨.invariantViolation, message⟩

end DomainError

end ScopeVcs
