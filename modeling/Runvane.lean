import Runvane.Domain.TaskOrder
import Runvane.Domain.Versioning
import Runvane.Domain.CanonicalIds
import Runvane.Domain.RunInput
import Runvane.Retry.Delays
import Runvane.Persistence.RoundTrip
import Runvane.Persistence.LruCoherence
import Runvane.Persistence.Pages
import Runvane.Events.RequestFraming
import Runvane.Events.OutboxDiscipline
import Runvane.Events.Lateness
import Runvane.Engine.Eval
import Runvane.Engine.CriticalPath
import Runvane.Engine.DryRunWarnings
import Runvane.Engine.Scanners
import Runvane.Engine.IntegerReferences
import Runvane.Scheduler.Isolation
import Runvane.Scheduler.RetentionPass
import Runvane.Scheduler.NonRetryable
import Runvane.Scheduler.Flaky
import Runvane.Scheduler.Recovery
import Runvane.Scheduler.PlanRefinement
import Runvane.Scheduler.Cancellation
import Runvane.Scheduler.Templates
import Runvane.Scheduler.Snapshot
import Runvane.Events.Starts
import Runvane.Scheduler.Stale
import Runvane.Scheduler.Agreement
import Runvane.Scheduler.DoubleExecution
import Runvane.Api.Numbering
import Runvane.Scheduler.CronGrammar
import Runvane.Scheduler.CronTicks
import Runvane.Scheduler.FairShare
import Runvane.Scheduler.ConcurrencyLimiter
import Runvane.Scheduler.LeakyBucket
import Runvane.Scheduler.Punctuality
import Runvane.Scheduler.Bookkeeping
import Runvane.Api.CancelRun
import Runvane.Api.ListRuns
import Runvane.Audit.Crash
import Runvane.Storage.PathConfinement
import Runvane.Storage.ArtifactRaces
import Runvane.Storage.SweepReport
import Runvane.Storage.TenantIsolation
