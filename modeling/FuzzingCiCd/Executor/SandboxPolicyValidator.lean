import FuzzingCiCd.Contracts.Messages

/-!
# The sandbox policy

`SandboxPolicyValidator.validate` rejects a policy that asks for dangerous settings, and
`ExecutorJobException` is the typed exception it rejects with.
-/

namespace FuzzingCiCd.Executor

open Contracts

/-- An exception that ends a job, with the status and the error that are reported for it. -/
structure ExecutorJobException where
  errorType : ErrorType
  code : String
  message : Option String
  details : Option String
  metadata : JsonMap
  status : ExecutionStatus
  deriving DecidableEq

namespace ExecutorJobException

/-- The constructor. -/
def create (errorType : ErrorType) (code message : Option String) (details : Option String)
    (metadata : JsonMap) (status : ExecutionStatus) : ExecutorJobException where
  errorType := errorType
  code := match code with
    | none => "executor.job.failed"
    | some code => if JavaText.isBlank code then "executor.job.failed" else code
  message := message
  details := details
  metadata := metadata
  status := status

def validation (message : String) : ExecutorJobException :=
  create .validationError (some "executor.job.validation") (some message) none [] .failed

end ExecutorJobException

namespace SandboxPolicyValidator

def networkDisabledValues : List String := ["none", "disabled", "deny", "deny-all", "deny_all"]

def requestsNetworkWithoutAllowlist (policy : SandboxPolicy) : Bool :=
  match policy.networkPolicy with
  | none => false
  | some value =>
    if JavaText.isBlank value then false
    else
      let networkPolicy := JavaText.toLowerCase (JavaText.trim value.toList)
      !(networkDisabledValues.any fun disabled ↦ disabled.toList = networkPolicy) &&
        policy.egressAllowlist.isEmpty

/-- The violations of a policy, in the order they are reported. -/
def violations (policy : SandboxPolicy) : List String :=
  (if policy.privileged = some true then ["privileged mode запрещен"] else []) ++
  (if policy.hostNetwork = some true then ["host network запрещен"] else []) ++
  (if policy.dockerSocketMount = some true then ["mount Docker socket запрещен"] else []) ++
  (if !policy.hostPaths.isEmpty then ["hostPath mount запрещен"] else []) ++
  (if requestsNetworkWithoutAllowlist policy then ["сетевой egress без allowlist запрещен"] else [])

def validate (policy : Option SandboxPolicy) : Except ExecutorJobException Unit :=
  match policy with
  | none => .ok ()
  | some policy =>
    let violations := violations policy
    if violations.isEmpty then .ok ()
    else .error (.create .securityError (some "executor.sandbox.policy-denied")
      (some "Sandbox policy job нарушает требования безопасности")
      (some ("; ".intercalate violations)) [("violations", .arr (violations.map .str))] .failed)

theorem status_of_validate {policy : Option SandboxPolicy} {exception : ExecutorJobException}
    (h : validate policy = .error exception) : exception.status = .failed := by
  cases policy with
  | none => cases h
  | some policy =>
    rw [validate] at h
    by_cases hviolations : (violations policy).isEmpty = true
    · rw [if_pos hviolations] at h
      cases h
    · rw [if_neg hviolations] at h
      obtain rfl := Except.error.inj h
      rfl

end SandboxPolicyValidator

end FuzzingCiCd.Executor
