import Lsf.Core.Entry

/-!
# Outcomes and attached arms

What a test or a mutation came to, and entries that carry references to the bandit arms to be told about it.
-/

namespace Lsf.Feedback

open Lsf.Core

inductive RejectionReason where
  | syntaxError
  | triggersCrash
  | timeOut
  | bad
  deriving DecidableEq, Repr

inductive AcceptanceReason where
  | covIncrease (n : Nat)
  | isDiverse
  | unspecified
  deriving DecidableEq, Repr

inductive TestOutcome where
  | rejected (reason : RejectionReason)
  | accepted (reason : AcceptanceReason)
  | mutated
  | noop
  deriving DecidableEq, Repr

/-- A shared arm, `Arc<MABArm>`, by its number. -/
abbrev ArmRef := Nat

/-- A shared body, `Arc<MABBody>`, by its number. -/
abbrev BodyRef := Nat

structure TestableEntry (T : Type) where
  entry : T
  appliedRuleStats : List ArmRef
  parentStats : List ArmRef
  deriving Repr

namespace TestableEntry

variable {T : Type}

def new (entry : T) : TestableEntry T := ⟨entry, [], []⟩

def attachHook (e : TestableEntry T) (hook : ArmRef) : TestableEntry T :=
  { e with appliedRuleStats := e.appliedRuleStats ++ [hook] }

def attachBuildHook (e : TestableEntry T) (hook : ArmRef) : TestableEntry T :=
  { e with parentStats := e.parentStats ++ [hook] }

end TestableEntry

end Lsf.Feedback
