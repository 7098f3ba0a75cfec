import CronScale.Main
import CronScale.Proofs.Cluster.Lookups
import CronScale.Proofs.Cluster.Sessions
import CronScale.Proofs.Engine.Dispatching
import CronScale.Proofs.Engine.Firing
import CronScale.Proofs.Engine.Relabelling
import CronScale.Proofs.Engine.Renewing
import CronScale.Proofs.Engine.Staleness
import CronScale.Proofs.Exchanges
import CronScale.Proofs.Manager.Collecting
import CronScale.Proofs.Manager.Complaining
import CronScale.Proofs.Manager.Deliveries
import CronScale.Proofs.Manager.Identities
import CronScale.Proofs.Manager.Incarnations
import CronScale.Proofs.Manager.Merging
import CronScale.Proofs.Manager.Namesakes
import CronScale.Proofs.Manager.OnlyOnce
import CronScale.Proofs.Manager.Origins
import CronScale.Proofs.Manager.Recording
import CronScale.Proofs.Manager.Relisted
import CronScale.Proofs.Manager.Repetition
import CronScale.Proofs.Manager.Siblings
import CronScale.Proofs.Manager.Streams
import CronScale.Proofs.Manager.Superseded
import CronScale.Proofs.Manager.Tidy
import CronScale.Proofs.Manager.Undisturbed
import CronScale.Proofs.Page
import CronScale.Proofs.Resource.Complaints
import CronScale.Proofs.Scaling.Autoscaling
import CronScale.Proofs.Scaling.Bounds
import CronScale.Proofs.Scaling.Interchange
import CronScale.Proofs.Scaling.Performance
import CronScale.Proofs.Scaling.Retrying
import CronScale.Proofs.Schedule.Clocks
import CronScale.Proofs.Schedule.Exclusions
import CronScale.Proofs.Schedule.Expressions
import CronScale.Proofs.Schedule.Horizon
import CronScale.Proofs.Schedule.Search
import CronScale.Rehearsal.Api
import CronScale.Rehearsal.Engine
import CronScale.Rehearsal.Manager
import CronScale.Server
/-!
# CronScale

Workloads are scaled at the times that resources declare. `CronScale.Main` is the program, from its
settings to the server that shows how the jobs stand: schedules and the times at which they fall
due, the engine that fires jobs, the manager that brings resources into effect and records outcomes,
and the scaling of workloads. `CronScale.Rehearsal` lets parts of it run in surroundings that are
laid down in advance. `CronScale.Proofs` holds what is proved, in the same divisions as the
program.
-/
