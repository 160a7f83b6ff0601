import FuzzingCiCd.Foundation.Numerals
import FuzzingCiCd.Foundation.Recurrences
import FuzzingCiCd.Master.TriggerRecords
import Mathlib.Algebra.Order.Ring.Int

/-!
# The scheduler of triggers

`TriggerScheduler`: every poll goes over the active schedule triggers, works out for each the time
that it should have fired at last, and passes that time to `TriggerService.fireScheduled`, in a
transaction of its own. What one trigger throws does not keep the others from being polled.

A trigger with a cron expression fires at the first time of the expression in the window before the
poll, which is as long as the interval of the scheduler and one second. Any other trigger fires at
the start of the current slot of its interval.

Expressions, time zones and ISO durations are those of the libraries.
-/

namespace FuzzingCiCd.Master

/-- The library functions of the scheduler. -/
structure SchedulerLibrary where
  Zone : Type
  UTC : Zone
  /-- `ZoneId.of`, which throws at an unknown identifier. -/
  zoneOf : String → Option Zone
  /-- `CronExpression.parse`, which throws at a text that is none; an expression has times in every
  zone, and `next` finds them. -/
  parseCron : String → Option (Zone → Recurrence Instant)
  /-- The times of an expression are whole seconds. -/
  parseCron_whole : ∀ text cron zone time, parseCron text = some cron →
    (cron zone).Occurs time → 1000000 ∣ time
  /-- `Duration.parse(..).toSeconds()`. -/
  durationSeconds : String → Option ℤ
  /-- `OffsetDateTime.toString` in UTC. -/
  offsetDateTimeText : Instant → String

/-- `AppProperties.Trigger`; the interval is in microseconds. -/
structure TriggerProperties where
  schedulerInterval : Option ℤ
  deriving DecidableEq

namespace TriggerScheduler

open TriggerService

def second : ℤ := 1000000

/-! ## Configuration -/

def readString (config : Json) (field : String) : Option String :=
  match config.get? field with
  | none => none
  | some .null => none
  | some node => some (Decoder.asText node)

/-- The texts between the matches of `\\s+`. -/
def words (text : List Char) : List (List Char) :=
  (text.splitOnP " \t\n\x0B\x0C\r".toList.contains).filter (· ≠ [])

def normalizeCron (rawCron : String) : Option String :=
  if JavaText.isBlank rawCron then none
  else
    let trimmed := JavaText.trim rawCron.toList
    let parts := words trimmed
    if parts.length = 5 then some ("0 " ++ .ofList trimmed)
    else if parts.length = 6 then some (.ofList trimmed)
    else none

section Times

variable (library : SchedulerLibrary) (properties : TriggerProperties)

def parseZoneId (timezone : Option String) : library.Zone :=
  match timezone with
  | none => library.UTC
  | some timezone =>
    if JavaText.isBlank timezone then library.UTC
    else (library.zoneOf timezone).getD library.UTC

def fallbackSchedulerIntervalSeconds : ℤ :=
  max ((properties.schedulerInterval.map (· / second)).getD 30) 1

def readIntervalSeconds (config : Json) : ℤ :=
  match ((config.get? "interval_seconds").bind positiveInt) <|>
      ((config.get? "intervalSeconds").bind positiveInt) <|>
      ((config.get? "intervalSec").bind positiveInt) with
  | some intervalFromNumber => intervalFromNumber
  | none =>
    match readString config "interval" with
    | none => fallbackSchedulerIntervalSeconds properties
    | some intervalValue =>
      if JavaText.isBlank intervalValue then fallbackSchedulerIntervalSeconds properties
      else match library.durationSeconds intervalValue with
        | some seconds => max seconds 1
        | none =>
          match JavaText.parseLong intervalValue.toList with
          | some seconds => max seconds 1
          | none => fallbackSchedulerIntervalSeconds properties

/-- How far a poll looks back, but for the second that is added. -/
def lookback : ℤ := properties.schedulerInterval.getD (30 * second)

def resolveCronPlannedTime (rawCron : String) (timezone : Option String) (nowUtc : Instant) :
    Option Instant := do
  let cron ← normalizeCron rawCron
  let zone := parseZoneId library timezone
  let windowStart := nowUtc - lookback properties - second
  let expression ← library.parseCron cron
  let candidate ← (expression zone).next windowStart
  if nowUtc < candidate then none else some (candidate / second * second)

def resolvePlannedFireTime (trigger : TriggerEntity) (nowUtc : Instant) : Option Instant :=
  let config := trigger.config
  match readString config "cron" with
  | some cron =>
    if JavaText.isBlank cron then interval config
    else resolveCronPlannedTime library properties cron (readString config "timezone") nowUtc
  | none => interval config
where
  interval (config : Json) : Option Instant :=
    let intervalSeconds := readIntervalSeconds library properties config
    if intervalSeconds ≤ 0 then none
    else some ((nowUtc / second).tdiv intervalSeconds * intervalSeconds * second)

/-! ## Polls -/

variable (c : TriggerCatalog)

def buildPayload (trigger : TriggerEntity) (plannedFireTime actualFireTime : Instant) : Json :=
  let payload := match trigger.config.get? "payload" with
    | some (.obj fields) => fields
    | _ => []
  let payload := Json.put payload "triggerType" (.str "schedule")
  let payload := Json.put payload "triggerId" (.str (c.uuid.format trigger.id))
  let payload := Json.put payload "plannedFireTime"
    (.str (library.offsetDateTimeText plannedFireTime))
  .obj (Json.put payload "firedAt" (.str (library.offsetDateTimeText actualFireTime)))

def activeScheduleTriggers : List TriggerEntity :=
  c.triggers.filter fun trigger ↦
    trigger.isActive && JavaText.equalsIgnoreCase "schedule" trigger.triggerType

/-- The call that a poll makes for a trigger. -/
def dispatched (ctx : CallContext) (trigger : TriggerEntity) : Option TriggerCall :=
  (resolvePlannedFireTime library properties trigger ctx.now).map fun plannedFireTime ↦
    ⟨ctx, .fireScheduledAt trigger.id plannedFireTime
      (some (buildPayload library c trigger plannedFireTime ctx.now))⟩

/-- The calls of a poll, one after the other; each is a transaction, and its exception is logged. -/
def dispatchScheduledTriggers (ctx : CallContext) : List TriggerCall :=
  (activeScheduleTriggers c).filterMap (dispatched library properties c ctx)

end Times

end TriggerScheduler

/-! ## Histories -/

inductive SchedulerCall where
  | poll (ctx : CallContext)
  | call (call : TriggerCall)
  deriving DecidableEq

/-- The calls to the service that the master makes, poll by poll. -/
def serviceCalls (library : SchedulerLibrary) (properties : TriggerProperties) (c : TriggerCatalog)
    (calls : List SchedulerCall) : List TriggerCall :=
  calls.flatMap fun
    | .poll ctx => TriggerScheduler.dispatchScheduledTriggers library properties c ctx
    | .call call => [call]

end FuzzingCiCd.Master
