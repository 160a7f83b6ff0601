import FuzzingCiCd.Executor.DeploymentParameters
import FuzzingCiCd.Executor.Path
import FuzzingCiCd.Foundation.Numerals
import FuzzingCiCd.Foundation.ShellArguments

/-!
# Remote commands of a deployment

`SshBashDeploymentRunner` builds an argument vector for every remote command and runs `ssh` with it.
`ssh` joins the arguments that follow the login with spaces, and the shell of the remote user reads
the line anew.

The vectors of the backup and of the health check never arrive: the script is one argument with
blanks and quotes in it. A configured command arrives exactly when it is plain:
`arrivesAsWritten_iff`.

Of the parameters, those that a remote command is made of are read here.

## Main results

* `arrives_bashCommand_iff`: a configured command arrives exactly when it is plain.
* `executed_script_ne`: a script with blanks or quotes in it never does.
-/

namespace FuzzingCiCd.Executor

open Transition

/-! ## Parameters -/

/-- The machine a deployment goes to, and the reference to its credentials. -/
structure SshBashTarget where
  host : Option String
  port : ℤ
  user : Option String
  credentialsRef : Option String
  deriving DecidableEq

/-- Whether a deployment ends with a check. -/
structure DeploymentHealthcheckPolicy where
  enabled : Bool
  deriving DecidableEq

def DeploymentHealthcheckPolicy.defaultEnabled : DeploymentHealthcheckPolicy := ⟨true⟩

/-- What the constructor gets, and what it accepts. -/
structure SshBashDeploymentParameters where
  target : SshBashTarget
  destinationPath : Path
  backupExisting : Bool
  commands : List String
  healthcheck : DeploymentHealthcheckPolicy
  deriving DecidableEq

namespace SshBashDeploymentParameters

/-- `Character.isISOControl`. -/
def isISOControl (ch : Char) : Bool := ch.toNat ≤ 0x1F || (0x7F ≤ ch.toNat && ch.toNat ≤ 0x9F)

def isUnsafeRemoteTokenChar (ch : Char) : Bool := JavaText.isWhitespace ch || isISOControl ch

def isUnsafeRemotePathChar (ch : Char) : Bool := JavaText.isWhitespace ch || isISOControl ch

def trimToNull (value : Option String) : Option String :=
  value.bind fun value ↦
    if JavaText.isBlank value then none else some (.ofList (JavaText.trim value.toList))

def requireSafeRemoteToken (value : Option String) (key : String) :
    Except ExecutorJobException String :=
  match trimToNull value with
  | none => .error (.validation (key ++ " должен быть непустой строкой"))
  | some normalized =>
    if normalized.toList.head? = some '-' || normalized.toList.contains '@' ||
        normalized.toList.any isUnsafeRemoteTokenChar then
      .error (.validation (key ++ " содержит недопустимые символы для SSH target"))
    else .ok normalized

def validateTarget (target : Option SshBashTarget) : Except ExecutorJobException SshBashTarget :=
  match target with
  | none => .error (.validation "target должен содержать host, port, user и credentials_ref")
  | some target => do
    let host ← requireSafeRemoteToken target.host "target.host"
    let user ← requireSafeRemoteToken target.user "target.user"
    if target.port < 1 ∨ 65535 < target.port then
      .error (.validation "target.port должен быть в диапазоне 1..65535")
    else .ok ⟨some host, target.port, some user, trimToNull target.credentialsRef⟩

def startsWithParentTraversal (path : Path) : Bool := path.names.contains ".."

def normalizeRemoteDestinationPath (path : Path) : Except ExecutorJobException Path :=
  let normalizedPath := path.normalize
  if !normalizedPath.isAbsolute then
    .error (.validation "copy.destination_path для ssh-bash должен быть absolute path")
  else if startsWithParentTraversal normalizedPath ||
      normalizedPath.text.any isUnsafeRemotePathChar then
    .error (.validation ("copy.destination_path для ssh-bash не должен содержать '..', " ++
      "whitespace или control characters"))
  else if normalizedPath.names.isEmpty then
    .error (.validation "copy.destination_path должен указывать на файл назначения")
  else .ok normalizedPath

/-- The constructor. -/
def construct (target : Option SshBashTarget) (destinationPath : Path) (backupExisting : Bool)
    (commands : Option (List String)) (healthcheck : Option DeploymentHealthcheckPolicy) :
    Except ExecutorJobException SshBashDeploymentParameters := do
  let target ← validateTarget target
  let destinationPath ← normalizeRemoteDestinationPath destinationPath
  return {
    target := target
    destinationPath := destinationPath
    backupExisting := backupExisting
    commands := commands.getD []
    healthcheck := healthcheck.getD .defaultEnabled }

end SshBashDeploymentParameters

/-! ## The runner -/

namespace SshBashDeploymentRunner

def sshExecutable : String := "ssh"

/-- The validated host and user are there. -/
def remoteLogin (target : SshBashTarget) : String :=
  target.user.getD "" ++ "@" ++ target.host.getD ""

def sshBase (target : SshBashTarget) : List String :=
  [sshExecutable, "-p", .ofList (JavaText.longText target.port), "-o", "BatchMode=yes",
    remoteLogin target]

def backupScript : String := "if [ -e \"$1\" ]; then cp -a \"$1\" \"$1.bak\"; fi"

def backupCommand (parameters : SshBashDeploymentParameters) : List String :=
  sshBase parameters.target ++
    ["sh", "-c", backupScript, "sh", .ofList parameters.destinationPath.text]

def bashCommand (parameters : SshBashDeploymentParameters) (bashCommand : String) : List String :=
  sshBase parameters.target ++ ["bash", "-lc", bashCommand]

def healthcheckScript : String := "test -f \"$1\""

def healthcheckCommand (parameters : SshBashDeploymentParameters) : List String :=
  sshBase parameters.target ++
    ["sh", "-c", healthcheckScript, "sh", .ofList parameters.destinationPath.text]

/-- The commands that `deploy` runs through `ssh`, in order. -/
def remoteCommands (parameters : SshBashDeploymentParameters) : List (List String) :=
  (if parameters.backupExisting then [backupCommand parameters] else []) ++
    parameters.commands.map (bashCommand parameters) ++
    (if parameters.healthcheck.enabled then [healthcheckCommand parameters] else [])

/-! ## The other side -/

/-- What follows the login in a command. -/
def remoteArguments (command : List String) : List (List Char) :=
  (command.drop 6).map String.toList

/-- The line that the remote shell gets. No process is started with a null character in an
argument. -/
def remoteLine (command : List String) : Option (List Char) :=
  if command.any fun argument ↦ argument.toList.contains '\x00' then none
  else some (List.intercalate [' '] (remoteArguments command))

/-- The argument vectors that the remote shell executes. -/
def executed (host : Shell.Host) (command : List String) : Option (List (List (List Char))) :=
  (remoteLine command).bind (Shell.run host)

/-- Every remote command arrives as it is built, on every host. -/
def ArrivesAsWritten (parameters : SshBashDeploymentParameters) : Prop :=
  ∀ host, ∀ command ∈ remoteCommands parameters,
    executed host command = some [remoteArguments command]

/-! ### Null characters -/

section NullCharacters

variable {target : SshBashTarget} {remote : List String}

theorem requireSafeRemoteToken_ok {value : Option String} {key token : String}
    (h : SshBashDeploymentParameters.requireSafeRemoteToken value key = .ok token) :
    '\x00' ∉ token.toList := by
  rw [SshBashDeploymentParameters.requireSafeRemoteToken] at h
  split at h
  · cases h
  split at h
  · cases h
  · rename_i hsafe
    obtain rfl := Except.ok.inj h
    rw [Bool.or_eq_true, not_or] at hsafe
    intro hnull
    exact hsafe.2 (List.any_eq_true.mpr ⟨_, hnull, by decide⟩)

theorem validateTarget_ok {raw : Option SshBashTarget}
    (h : SshBashDeploymentParameters.validateTarget raw = .ok target) :
    '\x00' ∉ (remoteLogin target).toList := by
  rcases raw with _ | raw
  · cases h
  rw [SshBashDeploymentParameters.validateTarget] at h
  obtain ⟨host, hhost, h⟩ := bind_eq_ok.mp h
  obtain ⟨user, huser, h⟩ := bind_eq_ok.mp h
  split at h
  · cases h
  obtain rfl := Except.ok.inj h
  have hhost' := requireSafeRemoteToken_ok hhost
  have huser' := requireSafeRemoteToken_ok huser
  simp [remoteLogin, hhost', huser']

theorem normalizeRemoteDestinationPath_ok {path normalized : Path}
    (h : SshBashDeploymentParameters.normalizeRemoteDestinationPath path = .ok normalized) :
    '\x00' ∉ normalized.text := by
  rw [SshBashDeploymentParameters.normalizeRemoteDestinationPath] at h
  split at h
  · cases h
  split at h
  · cases h
  split at h
  · cases h
  · rename_i hsafe _
    obtain rfl := Except.ok.inj h
    rw [Bool.or_eq_true, not_or] at hsafe
    intro hnull
    exact hsafe.2 (List.any_eq_true.mpr ⟨_, hnull, by decide⟩)

theorem remoteLine_eq (hlogin : '\x00' ∉ (remoteLogin target).toList) (remote : List String) :
    remoteLine (sshBase target ++ remote) =
      if remote.any fun argument ↦ argument.toList.contains '\x00' then none
      else some (List.intercalate [' '] (remote.map String.toList)) := by
  have hport := JavaText.not_mem_longText (c := '\x00') (by decide) (by decide) target.port
  have hbase : ((sshBase target).any fun argument ↦ argument.toList.contains '\x00') = false := by
    simp [sshBase, sshExecutable, hport, hlogin]
  rw [remoteLine, List.any_append, hbase, Bool.false_or]
  rfl

end NullCharacters

/-! ### Commands and scripts -/

section Arrivals

variable {parameters : SshBashDeploymentParameters} {command : String}

theorem endsWith_bash : Shell.EndsWith "bash -lc ".toList ["bash".toList, "-lc".toList] where
  state := by decide +kernel
  nonempty := List.cons_ne_nil _ _
  head := by decide +kernel
  inert := by
    intro a ha
    rcases List.mem_pair.mp ha with rfl | rfl
    · exact ⟨by decide +kernel, by decide +kernel, by decide +kernel⟩
    · exact ⟨by decide +kernel, by decide +kernel, by decide +kernel⟩

/-- **A configured command** arrives as one argument, whatever the host, exactly when it is
plain. -/
theorem arrives_bashCommand_iff (hlogin : '\x00' ∉ (remoteLogin parameters.target).toList)
    (command : String) :
    (∀ host, executed host (bashCommand parameters command) =
        some [remoteArguments (bashCommand parameters command)]) ↔
      Shell.Plain command.toList ∧ '\x00' ∉ command.toList := by
  have hline : remoteLine (bashCommand parameters command) =
      if '\x00' ∈ command.toList then none else some ("bash -lc ".toList ++ command.toList) := by
    have hany : (["bash", "-lc", command].any fun argument ↦ argument.toList.contains '\x00') =
        command.toList.contains '\x00' := by
      simp
    have hjoin : List.intercalate [' '] (["bash", "-lc", command].map String.toList) =
        "bash -lc ".toList ++ command.toList := by
      simp [List.intercalate]
    rw [bashCommand, remoteLine_eq hlogin, hany, hjoin]
    simp only [List.contains_iff_mem]
  have hargs : remoteArguments (bashCommand parameters command) =
      ["bash".toList, "-lc".toList] ++ [command.toList] := rfl
  by_cases hnull : '\x00' ∈ command.toList
  · refine iff_of_false (fun h ↦ ?_) fun h ↦ h.2 hnull
    have hbare := h Shell.bareHost
    rw [executed, hline, if_pos hnull] at hbare
    cases hbare
  · rw [and_iff_left hnull, ← endsWith_bash.run_append_iff]
    refine forall_congr' fun host ↦ ?_
    rw [executed, hline, if_neg hnull, hargs]
    rfl

/-- **A script** arrives never: its blanks and quotes are read by the remote shell. -/
theorem executed_script_ne {script : String}
    (hlogin : '\x00' ∉ (remoteLogin parameters.target).toList)
    (hdestination : '\x00' ∉ parameters.destinationPath.text)
    (hscript : script.toList.contains '\x00' = false)
    (hweight : (("sh -c ".toList ++ script.toList ++ " sh ".toList).foldl Shell.step
      Shell.start).weight < script.toList.length + 6) :
    executed Shell.bareHost (sshBase parameters.target ++
        ["sh", "-c", script, "sh", .ofList parameters.destinationPath.text]) ≠
      some [remoteArguments (sshBase parameters.target ++
        ["sh", "-c", script, "sh", .ofList parameters.destinationPath.text])] := by
  have hany : (["sh", "-c", script, "sh", .ofList parameters.destinationPath.text].any
      fun argument ↦ argument.toList.contains '\x00') = false := by
    simpa [hdestination] using hscript
  have hjoin : List.intercalate [' '] (["sh", "-c", script, "sh",
      String.ofList parameters.destinationPath.text].map String.toList) =
        ("sh -c ".toList ++ script.toList ++ " sh ".toList) ++ parameters.destinationPath.text := by
    simp [List.intercalate]
  have hargs : remoteArguments (sshBase parameters.target ++
      ["sh", "-c", script, "sh", .ofList parameters.destinationPath.text]) =
        ["sh".toList, "-c".toList, script.toList, "sh".toList,
          parameters.destinationPath.text] := by
    simp [remoteArguments, sshBase]
  rw [executed, remoteLine_eq hlogin, hany, if_neg Bool.false_ne_true, Option.bind_some, hjoin,
    hargs]
  refine Shell.run_ne_of_weight Shell.isBare_bareHost ?_
  have hsum : (([["sh".toList, "-c".toList, script.toList, "sh".toList,
      parameters.destinationPath.text]]).map Shell.textLength).sum =
        script.toList.length + 6 + parameters.destinationPath.text.length := by
    simp [Shell.textLength]
    omega
  rw [hsum]
  exact Nat.add_lt_add_right hweight _

theorem executed_backupCommand_ne (hlogin : '\x00' ∉ (remoteLogin parameters.target).toList)
    (hdestination : '\x00' ∉ parameters.destinationPath.text) :
    executed Shell.bareHost (backupCommand parameters) ≠
      some [remoteArguments (backupCommand parameters)] :=
  executed_script_ne hlogin hdestination (by decide +kernel) (by decide +kernel)

theorem executed_healthcheckCommand_ne (hlogin : '\x00' ∉ (remoteLogin parameters.target).toList)
    (hdestination : '\x00' ∉ parameters.destinationPath.text) :
    executed Shell.bareHost (healthcheckCommand parameters) ≠
      some [remoteArguments (healthcheckCommand parameters)] :=
  executed_script_ne hlogin hdestination (by decide +kernel) (by decide +kernel)

theorem mem_remoteCommands {remote : List String} :
    remote ∈ remoteCommands parameters ↔
      (parameters.backupExisting = true ∧ remote = backupCommand parameters) ∨
      (∃ command ∈ parameters.commands, bashCommand parameters command = remote) ∨
      (parameters.healthcheck.enabled = true ∧ remote = healthcheckCommand parameters) := by
  rw [remoteCommands, List.mem_append, List.mem_append, List.mem_map, or_assoc]
  simp

/-- What the constructor accepts can be sent, and is what it was given. -/
theorem construct_ok {target : Option SshBashTarget} {destinationPath : Path}
    {backupExisting : Bool} {commands : Option (List String)}
    {healthcheck : Option DeploymentHealthcheckPolicy}
    (h : SshBashDeploymentParameters.construct target destinationPath backupExisting commands
      healthcheck = .ok parameters) :
    ('\x00' ∉ (remoteLogin parameters.target).toList ∧
      '\x00' ∉ parameters.destinationPath.text) ∧
    parameters.backupExisting = backupExisting ∧ parameters.commands = commands.getD [] ∧
      parameters.healthcheck = healthcheck.getD .defaultEnabled := by
  obtain ⟨target, htarget, h⟩ := bind_eq_ok.mp h
  obtain ⟨destinationPath, hpath, h⟩ := bind_eq_ok.mp h
  obtain rfl := Except.ok.inj h
  exact ⟨⟨validateTarget_ok htarget, normalizeRemoteDestinationPath_ok hpath⟩, rfl, rfl, rfl⟩

/-- **Remote commands arrive as written** exactly when there are no scripts among them and every
configured command is plain. -/
theorem arrivesAsWritten_iff {target : Option SshBashTarget} {destinationPath : Path}
    {backupExisting : Bool} {commands : Option (List String)}
    {healthcheck : Option DeploymentHealthcheckPolicy}
    (h : SshBashDeploymentParameters.construct target destinationPath backupExisting commands
      healthcheck = .ok parameters) :
    ArrivesAsWritten parameters ↔
      backupExisting = false ∧ (healthcheck.getD .defaultEnabled).enabled = false ∧
        ∀ command ∈ commands.getD [],
          Shell.Plain command.toList ∧ '\x00' ∉ command.toList := by
  obtain ⟨⟨hlogin, hdestination⟩, rfl, hcommands, hhealth⟩ := construct_ok h
  rw [← hcommands, ← hhealth]
  constructor
  · intro harrives
    refine ⟨?_, ?_, fun command hcommand ↦ ?_⟩
    · by_contra hon
      rw [Bool.not_eq_false] at hon
      exact executed_backupCommand_ne hlogin hdestination
        (harrives Shell.bareHost _ (mem_remoteCommands.mpr (Or.inl ⟨hon, rfl⟩)))
    · by_contra hon
      rw [Bool.not_eq_false] at hon
      exact executed_healthcheckCommand_ne hlogin hdestination
        (harrives Shell.bareHost _ (mem_remoteCommands.mpr (Or.inr (Or.inr ⟨hon, rfl⟩))))
    · refine (arrives_bashCommand_iff hlogin command).mp fun host ↦ ?_
      exact harrives host _ (mem_remoteCommands.mpr (Or.inr (Or.inl ⟨command, hcommand, rfl⟩)))
  · rintro ⟨hoff, hoff', hplain⟩ host remote hremote
    rcases mem_remoteCommands.mp hremote with ⟨hon, -⟩ | ⟨command, hcommand, rfl⟩ | ⟨hon, -⟩
    · exact absurd (hon.symm.trans hoff) (by decide)
    · exact (arrives_bashCommand_iff hlogin command).mpr (hplain command hcommand) host
    · exact absurd (hon.symm.trans hoff') (by decide)

end Arrivals

/-! ### A command of several words -/

/-- A deployment without backup and health check, that restarts a service. -/
def restarting : SshBashDeploymentParameters where
  target := ⟨some "host", 22, some "deploy", none⟩
  destinationPath := ⟨true, ["opt", "app"]⟩
  backupExisting := false
  commands := ["systemctl restart app"]
  healthcheck := ⟨false⟩

theorem construct_restarting :
    SshBashDeploymentParameters.construct (some ⟨some " host", 22, some "deploy", none⟩)
      ⟨true, ["opt", ".", "app"]⟩ false (some ["systemctl restart app"]) (some ⟨false⟩) =
        .ok restarting := by
  decide +kernel

theorem arrivesAsWritten_restarting_iff :
    ArrivesAsWritten restarting ↔
      false = false ∧ (DeploymentHealthcheckPolicy.mk false).enabled = false ∧
        ∀ command ∈ ["systemctl restart app"],
          Shell.Plain command.toList ∧ '\x00' ∉ command.toList :=
  arrivesAsWritten_iff construct_restarting

/-- The remote shell runs `systemctl` alone. -/
theorem not_arrivesAsWritten : ¬ ArrivesAsWritten restarting := by
  intro h
  have hcommand := h Shell.bareHost _
    (mem_remoteCommands.mpr (Or.inr (Or.inl ⟨_, List.mem_cons_self, rfl⟩)))
  have hne : executed Shell.bareHost (bashCommand restarting "systemctl restart app") ≠
      some [remoteArguments (bashCommand restarting "systemctl restart app")] := by
    decide +kernel
  exact hne hcommand

end SshBashDeploymentRunner

end FuzzingCiCd.Executor
