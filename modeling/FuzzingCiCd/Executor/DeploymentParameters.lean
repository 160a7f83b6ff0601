import FuzzingCiCd.Executor.SandboxPolicyValidator
import FuzzingCiCd.Foundation.Transition

/-!
# Deployment parameters

The environment that the deploy service reads from the parameters of a job, which is one component
of `FileCopyDeploymentParameters` and of `SshBashDeploymentParameters`. The two records compute it
alike: the text without surrounding spaces, or a default where it is absent or blank. A value that
is no text fails the job before anything is deployed.
-/

namespace FuzzingCiCd.Executor

open Transition

namespace DeploymentParameters

def ENVIRONMENT_KEY : String := "environment"

/-- `requireString`. -/
def requireString (value : Json) (key : String) : Except ExecutorJobException String :=
  match value with
  | .str value => .ok value
  | _ => .error (.validation (key ++ " должен быть строкой"))

/-- `optionalString`. A missing key of the map reads like `null`. -/
def optionalString (value : Json) (key : String) : Except ExecutorJobException (Option String) :=
  match value with
  | .null => .ok none
  | value => (requireString value key).map some

def defaultIfBlank (value : Option String) (defaultValue : String) : String :=
  match value with
  | none => defaultValue
  | some value => if JavaText.isBlank value then defaultValue else value

/-- The component `environment` of the record made from the parameters. -/
def environment (params : JsonMap) : Except ExecutorJobException String := do
  let value ← optionalString (Json.property params ENVIRONMENT_KEY) ENVIRONMENT_KEY
  return String.ofList (JavaText.trim (defaultIfBlank value "testing").toList)

end DeploymentParameters

/-- `FileCopyDeploymentParameters.environment`. -/
def FileCopyDeploymentParameters.environment (params : JsonMap) :
    Except ExecutorJobException String :=
  DeploymentParameters.environment params

/-- `SshBashDeploymentParameters.environment`. -/
def SshBashDeploymentParameters.environment (params : JsonMap) :
    Except ExecutorJobException String :=
  DeploymentParameters.environment params

namespace DeploymentParameters

theorem optionalString_eq_ok {value : Json} {key : String} {text : Option String} :
    optionalString value key = .ok text ↔ value = text.elim .null .str := by
  cases value <;> cases text <;> simp [optionalString, requireString, Except.map]

theorem trim_testing : String.ofList (JavaText.trim "testing".toList) = "testing" := by decide

/-- **Where a deployment goes.** To the default environment, or to the one the text names. -/
theorem environment_eq_ok {params : JsonMap} {name : String} :
    environment params = .ok name ↔
      (Json.property params ENVIRONMENT_KEY = .null ∧ name = "testing") ∨
      ∃ text, Json.property params ENVIRONMENT_KEY = .str text ∧
        name = if JavaText.isBlank text then "testing"
          else String.ofList (JavaText.trim text.toList) := by
  rw [environment, bind_eq_ok]
  constructor
  · rintro ⟨value, hvalue, hname⟩
    obtain rfl := Except.ok.inj hname
    rw [optionalString_eq_ok] at hvalue
    rcases value with _ | text
    · exact Or.inl ⟨hvalue, trim_testing⟩
    · refine Or.inr ⟨text, hvalue, ?_⟩
      rw [defaultIfBlank, apply_ite String.toList, apply_ite JavaText.trim,
        apply_ite String.ofList, trim_testing]
  · rintro (⟨hnull, rfl⟩ | ⟨text, htext, rfl⟩)
    · refine ⟨none, optionalString_eq_ok.mpr hnull, ?_⟩
      rw [defaultIfBlank, trim_testing]
      rfl
    · refine ⟨some text, optionalString_eq_ok.mpr htext, ?_⟩
      rw [defaultIfBlank, apply_ite String.toList, apply_ite JavaText.trim,
        apply_ite String.ofList, trim_testing]
      rfl

end DeploymentParameters

end FuzzingCiCd.Executor
